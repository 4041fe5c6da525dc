import EspDevkit.Crypto.CaRoots

/-!
# A bundle is written

An install takes the slot that is not current.
-/

namespace EspDevkit.Crypto.CaBundle

open LittleEndian Flash List Function

section

variable {slots : Fin 2 → Option Slot}

theorem currentIndex_some {i : Fin 2} (current : currentIndex slots = some i) :
    ∃ slot, slots i = some slot := by
  unfold currentIndex at current
  split at current
  · rename_i a b first second
    split at current
    · cases current
      exact ⟨b, second⟩
    · cases current
      exact ⟨a, first⟩
  · rename_i a first _
    cases current
    exact ⟨a, first⟩
  · rename_i b _ second
    cases current
    exact ⟨b, second⟩
  · cases current

theorem currentIndex_none (none' : currentIndex slots = none) (i : Fin 2) : slots i = none := by
  unfold currentIndex at none'
  split at none'
  · split at none' <;> cases none'
  · cases none'
  · cases none'
  · rename_i first second
    obtain rfl | rfl : i = 0 ∨ i = 1 := by
      revert i
      decide
    · exact first
    · exact second

theorem ne_target {i : Fin 2} (current : currentIndex slots = some i) : i ≠ target slots := by
  unfold target
  rw [current]
  clear current
  revert i
  decide

theorem eq_of_ne_target {i j t : Fin 2} (first : i ≠ t) (second : j ≠ t) : i = j := by
  revert i j t
  decide

theorem current_of_ne_target {i : Fin 2} {slot : Slot} (other : i ≠ target slots)
    (some' : slots i = some slot) : currentIndex slots = some i := by
  cases current : currentIndex slots with
  | none =>
    rw [currentIndex_none current i] at some'
    cases some'
  | some j => rw [eq_of_ne_target (ne_target current) other]

theorem currentIndex_update (slots : Fin 2 → Option Slot) :
    currentIndex (Function.update slots (target slots) none) = currentIndex slots := by
  cases current : currentIndex slots with
  | none =>
    cases again : currentIndex (Function.update slots (target slots) none) with
    | none => rfl
    | some i =>
      obtain ⟨slot, some'⟩ := currentIndex_some again
      by_cases here : i = target slots
      · rw [here, update_self] at some'
        cases some'
      · rw [update_of_ne here, currentIndex_none current] at some'
        cases some'
  | some i =>
    obtain ⟨slot, some'⟩ := currentIndex_some current
    have other := ne_target current
    cases again : currentIndex (Function.update slots (target slots) none) with
    | none =>
      have none' := currentIndex_none again i
      rw [update_of_ne other, some'] at none'
      cases none'
    | some j =>
      obtain ⟨slot', some''⟩ := currentIndex_some again
      have other' : j ≠ target slots := by
        rintro rfl
        rw [update_self] at some''
        cases some''
      rw [eq_of_ne_target other' other]

theorem target_update (slots : Fin 2 → Option Slot) :
    target (Function.update slots (target slots) none) = target slots := by
  conv_lhs => rw [target, currentIndex_update]
  rfl

end

section

variable (digest : Bytes → Digest) (part : Partition)

def newSlot (s : State) (bundle : Bytes) (version : ℕ) : Slot where
  seq := (((currentSlot s.slots).map Slot.seq).getD 0 + 1) % 2 ^ 32
  len := bundle.length
  version

structure Taken (s s' : State) (bundle : Bytes) (version : ℕ) (newerOnly : Bool) : Prop where
  newer : newerOnly → ∀ slot ∈ currentSlot s.slots, slot.version < version
  free : s.maps (target s.slots) = 0
  maps : s'.maps = s.maps
  other : ∀ i, i ≠ target s.slots → SameSlot part s'.flash s.flash i
  slots : s'.slots = Function.update s.slots (target s.slots) none ∨
    s'.slots = Function.update s.slots (target s.slots) (some (newSlot s bundle version)) ∧
      readSlot digest part s'.flash (target s.slots) = some (newSlot s bundle version)
  found : readSlot digest part s'.flash (target s.slots) = none ∨
    readSlot digest part s'.flash (target s.slots) = some (newSlot s bundle version) ∧
      Flash.read s'.flash (part.slotOffset (target s.slots)) bundle.length = bundle

abbrev written (m : Memory) (t : Fin 2) (bundle : Bytes) : Memory :=
  Flash.write (erase (erase m (t * sector) sector) (part.slotOffset t)
    ((bundle.length + sector - 1) / sector * sector)) (part.slotOffset t) bundle

section

variable {part} {m : Memory} {bundle : Bytes} {t : Fin 2}

theorem sectors_room (room : bundle.length ≤ part.slotSize) :
    bundle.length ≤ (bundle.length + sector - 1) / sector * sector ∧
      (bundle.length + sector - 1) / sector * sector ≤ part.slotSize := by
  obtain ⟨n, eq⟩ := slotSize_multiple part
  rw [eq] at room ⊢
  unfold sector at room ⊢
  omega

theorem erased_header_bundle (len : ℕ) :
    Erased (erase (erase m (t * sector) sector) (part.slotOffset t) len) (t * sector) sector :=
  (erased_erase _ _ _).same (same_erase (.inl (header_apart part t t)))

theorem erased_header_written (len : ℕ) (data : Bytes) :
    Erased (Flash.write (erase (erase m (t * sector) sector) (part.slotOffset t) len)
      (part.slotOffset t) data) (t * sector) sector :=
  (erased_header_bundle len).same (same_write (.inl (header_apart part t t)))

theorem sameSlot_erased {i : Fin 2} (other : i ≠ t) {len : ℕ} (room : len ≤ part.slotSize) :
    SameSlot part (erase (erase m (t * sector) sector) (part.slotOffset t) len) m i :=
  (sameSlot_erase_bundle other room).trans (sameSlot_erase_header other)

theorem sameSlot_written {i : Fin 2} (other : i ≠ t) {len : ℕ} (room : len ≤ part.slotSize)
    {data : Bytes} (few : data.length ≤ part.slotSize) :
    SameSlot part (Flash.write (erase (erase m (t * sector) sector) (part.slotOffset t) len)
      (part.slotOffset t) data) m i :=
  (sameSlot_write_bundle other few).trans (sameSlot_erased other room)

theorem read_written (room : bundle.length ≤ part.slotSize) :
    Flash.read (written part m t bundle) (part.slotOffset t) bundle.length = bundle := by
  have covers := (sectors_room room).1
  exact read_write fun _ low high => erased_erase _ _ _ _ low (by omega)

theorem read_written_header (room : bundle.length ≤ part.slotSize) {d : Bytes}
    (few : d.length ≤ descriptor) :
    Flash.read (Flash.write (written part m t bundle) (t * sector) d) (part.slotOffset t)
      bundle.length = bundle := by
  have below := header_apart part t t
  have short : descriptor ≤ sector := by decide
  have same : Same (Flash.write (written part m t bundle) (t * sector) d)
      (written part m t bundle) (part.slotOffset t) bundle.length :=
    same_write (.inr (by omega))
  exact (read_congr same).trans (read_written room)

variable (part m bundle t) in
theorem read_header (seq n : ℕ) :
    Flash.read (Flash.write (written part m t bundle) (t * sector)
      ((header digest seq bundle).take n)) (t * sector) descriptor =
        (header digest seq bundle).take n ++ List.replicate (descriptor - n) 0xff := by
  have length := length_header digest seq bundle
  have short : descriptor ≤ sector := by decide
  have blank : Erased (written part m t bundle) (t * sector) (header digest seq bundle).length :=
    fun at' low high => erased_header_written _ _ at' low (by omega)
  have torn := read_write_take blank n
  rwa [length] at torn

end

theorem write_cases (s : State) {bundle : Bytes} {version : ℕ} (long : headerSize ≤ bundle.length)
    (parsed : ∃ count entries, parseBundle bundle = some (version, count, entries))
    (newerOnly : Bool) (fault : Option Fault) :
    (write digest part s bundle version newerOnly fault).1 = s ∨
      Taken digest part s (write digest part s bundle version newerOnly fault).1 bundle version
        newerOnly := by
  unfold write
  dsimp only
  split
  · exact .inl rfl
  rename_i newer
  split
  · exact .inl rfl
  rename_i room
  split
  · exact .inl rfl
  rename_i free
  right
  rw [Nat.not_lt] at room
  have inside := (sectors_room room).2
  have newer' : newerOnly → ∀ slot ∈ currentSlot s.slots, slot.version < version := by
    intro only slot member
    by_contra above
    exact newer ⟨only, slot, member, Nat.not_lt.mp above⟩
  have free' : s.maps (target s.slots) = 0 := Nat.eq_zero_of_not_pos free
  have same : ∀ t, (digest (Flash.read (written part s.flash t bundle) (part.slotOffset t)
      bundle.length)).bytes = (digest bundle).bytes := fun t => by rw [read_written room]
  have seqFits : (newSlot s bundle version).seq < 2 ^ 32 := Nat.mod_lt _ (by decide)
  have length := length_header digest (newSlot s bundle version).seq bundle
  have short : descriptor ≤ sector := by decide
  cases fault with
  | none =>
    dsimp only
    rw [if_neg (not_not.mpr (same _))]
    have full := read_header digest part s.flash bundle (target s.slots)
      (newSlot s bundle version).seq descriptor
    rw [take_of_length_le (Nat.le_of_eq length), Nat.sub_self, replicate_zero,
      append_nil] at full
    have map := read_written_header (m := s.flash) (t := target s.slots) room
      (Nat.le_of_eq length)
    have found := readSlot_header digest seqFits long room parsed full map
    rw [if_neg (not_not.mpr rfl)] at found
    exact ⟨newer', free', rfl, fun i other => (sameSlot_write_header other (length.le.trans short)).trans
      (sameSlot_written other inside room), .inr ⟨update_idem _ _ _, found⟩,
      .inr ⟨found, map⟩⟩
  | some fault =>
    cases fault with
    | eraseHeader =>
      dsimp only
      exact ⟨newer', free', rfl, fun i other => sameSlot_erase_header other, .inl rfl,
        .inl (readSlot_erased digest part (erased_erase _ _ _))⟩
    | eraseBundle n =>
      dsimp only
      have few : min n ((bundle.length + sector - 1) / sector) * sector ≤ part.slotSize :=
        (Nat.mul_le_mul_right _ (Nat.min_le_right _ _)).trans inside
      exact ⟨newer', free', rfl, fun i other => sameSlot_erased other few, .inl rfl,
        .inl (readSlot_erased digest part (erased_header_bundle _))⟩
    | writeBundle n =>
      dsimp only
      have few : (bundle.take n).length ≤ part.slotSize := by
        rw [length_take]
        omega
      exact ⟨newer', free', rfl, fun i other => sameSlot_written other inside few, .inl rfl,
        .inl (readSlot_erased digest part (erased_header_written _ _))⟩
    | readBack =>
      dsimp only
      exact ⟨newer', free', rfl, fun i other => sameSlot_written other inside room, .inl rfl,
        .inl (readSlot_erased digest part (erased_header_written _ _))⟩
    | writeHeader n =>
      dsimp only
      rw [if_neg (not_not.mpr (same _))]
      have few : ((header digest (newSlot s bundle version).seq bundle).take n).length ≤
          descriptor := by
        rw [length_take, length]
        omega
      have torn := read_header digest part s.flash bundle (target s.slots)
        (newSlot s bundle version).seq n
      have map := read_written_header (m := s.flash) (t := target s.slots) room few
      have found := readSlot_torn digest seqFits long room parsed n torn map
      exact ⟨newer', free', rfl, fun i other => (sameSlot_write_header other (few.trans short)).trans
        (sameSlot_written other inside room), .inl rfl, found.imp_right fun found => ⟨found, map⟩⟩

end

end EspDevkit.Crypto.CaBundle
