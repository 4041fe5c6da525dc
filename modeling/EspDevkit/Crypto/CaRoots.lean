import EspDevkit.Library.ByteOrder
import EspDevkit.Library.Flash
import Mathlib.Data.Fintype.Basic
import Mathlib.Logic.Function.Basic
import Mathlib.Tactic.FinCases
import Mathlib.Tactic.IntervalCases

/-!
# The CA bundle in its partition

Two slots, each with a header in a sector of its own and a place for a bundle.
Which one is current is read off the headers at the first use.  An install takes
the other slot: it erases the header, writes the bundle and reads it back, and
writes the header last.
-/

namespace EspDevkit.Crypto.CaBundle

open LittleEndian

abbrev Bytes := List UInt8

structure Digest where
  bytes : Bytes
  length_bytes : bytes.length = 32

def headerSize : ℕ := 20

/-- `MAGIC` of a bundle, "DKCA". -/
def bundleMagic : Bytes := [0x44, 0x4b, 0x43, 0x41]

def format : UInt8 := 1

def nextEntry (data : Bytes) : Option Bytes :=
  if data.length < 12 then none
  else
    let subjectLen := ofBytes (data.take 2)
    let spkiLen := ofBytes ((data.drop 2).take 2)
    let body := data.drop 12
    if body.length < subjectLen + spkiLen then none else some (body.drop (subjectLen + spkiLen))

def skipEntries : ℕ → Bytes → Option Bytes
  | 0, rest => some rest
  | count + 1, rest => (nextEntry rest).bind (skipEntries count)

def word (data : Bytes) (at' : ℕ) : ℕ := ofBytes ((data.drop at').take 4)

def parseBundle (data : Bytes) : Option (ℕ × ℕ × Bytes) :=
  if data.length < headerSize ∨ data.take 4 ≠ bundleMagic ∨ data[4]? ≠ some format then none
  else
    let version := word data 8
    let count := word data 12
    let len := word data 16
    if data.length < headerSize + len then none
    else
      let entries := (data.drop headerSize).take len
      if skipEntries count entries = some [] then some (version, count, entries) else none

def split (data : Bytes) : Option (ℕ × Bytes × Bytes) :=
  (parseBundle data).map fun (version, _, entries) =>
    let len := headerSize + entries.length
    (version, data.take len, data.drop len)

def sector : ℕ := 4096

/-- `MAGIC` of a slot's header, "DKCS". -/
def magic : Bytes := [0x44, 0x4b, 0x43, 0x53]

/-- `DESCRIPTOR`. -/
def descriptor : ℕ := 44

structure Partition where
  size : ℕ
  small : size < 2 ^ 32

structure Slot where
  seq : ℕ
  len : ℕ
  version : ℕ
  deriving DecidableEq, Repr

namespace Partition

def slotSize (part : Partition) : ℕ := (part.size - 2 * sector) / 2 / sector * sector

def slotOffset (part : Partition) (i : Fin 2) : ℕ := 2 * sector + i * part.slotSize

end Partition

inductive Err
  | decode
  | verify
  | invalidLength
  | busy
  | flash
  deriving DecidableEq, Repr

/-- Where a flash operation of an install fails, or the power: behind the erase of
the header, of some sectors of the bundle, behind the first bytes of a write, or as
the bundle is read back. -/
inductive Fault
  | eraseHeader
  | eraseBundle (sectors : ℕ)
  | writeBundle (bytes : ℕ)
  | readBack
  | writeHeader (bytes : ℕ)
  deriving DecidableEq, Repr

structure State where
  flash : Flash.Memory
  slots : Fin 2 → Option Slot
  /-- How many stores hold the mapping of a slot. -/
  maps : Fin 2 → ℕ

def currentIndex (slots : Fin 2 → Option Slot) : Option (Fin 2) :=
  match slots 0, slots 1 with
  | some a, some b => some (if a.seq < b.seq then 1 else 0)
  | some _, none => some 0
  | none, some _ => some 1
  | none, none => none

section

variable (digest : Bytes → Digest) (part : Partition)

def readSlot (flash : Flash.Memory) (i : Fin 2) : Option Slot :=
  if part.size < i * sector + descriptor then none
  else
    let d := Flash.read flash (i * sector) descriptor
    if d.take 4 ≠ magic then none
    else
      let seq := word d 4
      let len := word d 8
      if part.slotSize < len ∨ part.size < part.slotOffset i + len then none
      else
        let map := Flash.read flash (part.slotOffset i) len
        if (digest map).bytes ≠ d.drop 12 then none
        else (parseBundle map).map fun (version, _, _) => { seq, len, version }

/-- `state`, at the first use after power comes on. -/
def start (flash : Flash.Memory) : State :=
  { flash, slots := readSlot digest part flash, maps := fun _ => 0 }

/-- The header that `write` ends with. -/
def header (seq : ℕ) (bundle : Bytes) : Bytes :=
  magic ++ toBytes 4 seq ++ toBytes 4 bundle.length ++ (digest bundle).bytes

/-- The slot that `write` takes. -/
def target (slots : Fin 2 → Option Slot) : Fin 2 :=
  match currentIndex slots with
  | none => 0
  | some i => 1 - i

def currentSlot (slots : Fin 2 → Option Slot) : Option Slot := (currentIndex slots).bind slots

/-- `write`.  What it erases and writes is inside the partition. -/
def write (s : State) (bundle : Bytes) (version : ℕ) (newerOnly : Bool) (fault : Option Fault) :
    State × Except Err ℕ :=
  let current := currentSlot s.slots
  if newerOnly ∧ (∃ slot ∈ current, version ≤ slot.version) then (s, .error .verify)
  else if part.slotSize < bundle.length then (s, .error .invalidLength)
  else
    let t := target s.slots
    if 0 < s.maps t then (s, .error .busy)
    else
      let offset := part.slotOffset t
      let sectors := (bundle.length + sector - 1) / sector
      let slots := Function.update s.slots t none
      let noHeader := Flash.erase s.flash (t * sector) sector
      let erased := Flash.erase noHeader offset (sectors * sector)
      let written := Flash.write erased offset bundle
      let seq := ((current.map Slot.seq).getD 0 + 1) % 2 ^ 32
      let d := header digest seq bundle
      match fault with
      | some .eraseHeader => ({ s with flash := noHeader, slots }, .error .flash)
      | some (.eraseBundle n) =>
        ({ s with flash := Flash.erase noHeader offset (min n sectors * sector), slots }, .error .flash)
      | some (.writeBundle n) =>
        ({ s with flash := Flash.write erased offset (bundle.take n), slots }, .error .flash)
      | some .readBack => ({ s with flash := written, slots }, .error .flash)
      | some (.writeHeader n) =>
        if (digest (Flash.read written offset bundle.length)).bytes ≠ (digest bundle).bytes then
          ({ s with flash := written, slots }, .error .verify)
        else ({ s with flash := Flash.write written (t * sector) (d.take n), slots }, .error .flash)
      | none =>
        if (digest (Flash.read written offset bundle.length)).bytes ≠ (digest bundle).bytes then
          ({ s with flash := written, slots }, .error .verify)
        else
          let slot : Slot := { seq, len := bundle.length, version }
          ({ s with flash := Flash.write written (t * sector) d
                    slots := Function.update slots t (some slot) }, .ok version)

variable (verify : Bytes → Bytes → Bool)

def install (s : State) (data : Bytes) (fault : Option Fault) : State × Except Err ℕ :=
  match split data with
  | none => (s, .error .decode)
  | some (version, bundle, signature) =>
    if signature.length ≠ 64 ∨ !verify bundle signature then (s, .error .verify)
    else write digest part s bundle version true fault

def installUnsigned (s : State) (data : Bytes) (fault : Option Fault) : State × Except Err ℕ :=
  match split data with
  | none => (s, .error .decode)
  | some (version, bundle, _) => write digest part s bundle version false fault

def current (s : State) : State :=
  match currentIndex s.slots with
  | none => s
  | some i => { s with maps := Function.update s.maps i (s.maps i + 1) }

def cloneStore (s : State) (i : Fin 2) : State :=
  if s.maps i = 0 then s else { s with maps := Function.update s.maps i (s.maps i + 1) }

def dropStore (s : State) (i : Fin 2) : State :=
  { s with maps := Function.update s.maps i (s.maps i - 1) }

/-- What happens to the partition.  Power lost in an install is an install that fails
there, and then the loss. -/
inductive Event
  | install (data : Bytes) (fault : Option Fault)
  | installUnsigned (data : Bytes) (fault : Option Fault)
  | current
  | clone (i : Fin 2)
  | drop (i : Fin 2)
  | powerLoss

def step (s : State) : Event → State
  | .install data fault => (install digest part verify s data fault).1
  | .installUnsigned data fault => (installUnsigned digest part s data fault).1
  | .current => current s
  | .clone i => cloneStore s i
  | .drop i => dropStore s i
  | .powerLoss => start digest part s.flash

def run (flash : Flash.Memory) (events : List Event) : State :=
  events.foldl (step digest part verify) (start digest part flash)

def currentBundle (s : State) : Option Bytes :=
  (currentIndex s.slots).bind fun i =>
    (s.slots i).map fun slot => Flash.read s.flash (part.slotOffset i) slot.len

/-- `version`. -/
def currentVersion (s : State) : Option ℕ := (currentSlot s.slots).map Slot.version

end

end EspDevkit.Crypto.CaBundle

/-!
## Slots across an install

An install leaves the other slot alone.
-/

namespace EspDevkit.Crypto.CaBundle

open LittleEndian Flash List

theorem word_take (data : Bytes) {at' len : ℕ} (inside : at' + 4 ≤ len) :
    word (data.take len) at' = word data at' := by
  unfold word
  rw [drop_take, take_take, Nat.min_eq_left (by omega)]

theorem parseBundle_of_split {data bundle rest : Bytes} {version : ℕ}
    (parts : split data = some (version, bundle, rest)) :
    headerSize ≤ bundle.length ∧
      ∃ count entries, parseBundle bundle = some (version, count, entries) := by
  obtain ⟨⟨version', count, entries⟩, ok, eq⟩ := Option.map_eq_some_iff.mp parts
  cases eq
  unfold parseBundle at ok
  split at ok
  · cases ok
  · rename_i shape
    dsimp only at ok
    split at ok
    · cases ok
    · rename_i room
      split at ok
      · rename_i skip
        cases ok
        push Not at shape
        obtain ⟨long, magic', format'⟩ := shape
        have length : ((data.drop headerSize).take (word data 16)).length = word data 16 := by
          simp only [length_take, length_drop]
          omega
        rw [length]
        have whole : (data.take (headerSize + word data 16)).length = headerSize + word data 16 := by
          simp only [length_take]
          omega
        refine ⟨by omega, word data 12, (data.drop headerSize).take (word data 16), ?_⟩
        have four : (data.take (headerSize + word data 16)).take 4 = bundleMagic := by
          rw [take_take, Nat.min_eq_left (by unfold headerSize; omega), magic']
        have fifth : (data.take (headerSize + word data 16))[4]? = some format := by
          rw [List.getElem?_take_of_lt (by unfold headerSize; omega), format']
        have len : word (data.take (headerSize + word data 16)) 16 = word data 16 :=
          word_take data (by unfold headerSize; omega)
        have behind : (data.take (headerSize + word data 16)).drop headerSize =
            (data.drop headerSize).take (word data 16) := by
          rw [drop_take, Nat.add_sub_cancel_left]
        unfold parseBundle
        rw [if_neg (by rw [whole, four, fifth]; simp)]
        dsimp only
        rw [len, whole, if_neg (Nat.lt_irrefl _), behind, take_take, Nat.min_self,
          word_take data (by unfold headerSize; omega),
          word_take data (by unfold headerSize; omega), if_pos skip]
      · cases ok

section

variable {part : Partition} {m m' : Memory}

theorem two_slots {t j : Fin 2} (other : j ≠ t) : t = 0 ∧ j = 1 ∨ t = 1 ∧ j = 0 := by
  revert t j
  decide

theorem slotSize_multiple (part : Partition) : ∃ n, part.slotSize = n * sector := ⟨_, rfl⟩

theorem slotSize_inside (part : Partition) :
    2 * sector + 2 * part.slotSize ≤ max part.size (2 * sector) := by
  unfold Partition.slotSize
  have whole := Nat.div_mul_le_self ((part.size - 2 * sector) / 2) sector
  omega

structure SameSlot (part : Partition) (m m' : Memory) (i : Fin 2) : Prop where
  header : Same m m' (i * sector) sector
  bundle : Same m m' (part.slotOffset i) part.slotSize

theorem SameSlot.refl (part : Partition) (m : Memory) (i : Fin 2) : SameSlot part m m i :=
  ⟨fun _ _ _ => rfl, fun _ _ _ => rfl⟩

theorem SameSlot.trans {m'' : Memory} {i : Fin 2} (first : SameSlot part m m' i)
    (second : SameSlot part m' m'' i) : SameSlot part m m'' i :=
  ⟨first.header.trans second.header, first.bundle.trans second.bundle⟩

theorem header_apart (part : Partition) (t i : Fin 2) :
    (t : ℕ) * sector + sector ≤ part.slotOffset i := by
  unfold Partition.slotOffset
  have := t.isLt
  unfold sector
  omega

theorem headers_apart {t j : Fin 2} (other : j ≠ t) :
    (j : ℕ) * sector + sector ≤ t * sector ∨ (t : ℕ) * sector + sector ≤ j * sector := by
  rcases two_slots other with ⟨rfl, rfl⟩ | ⟨rfl, rfl⟩ <;> simp

theorem bundles_apart (part : Partition) {t j : Fin 2} (other : j ≠ t) :
    part.slotOffset j + part.slotSize ≤ part.slotOffset t ∨
      part.slotOffset t + part.slotSize ≤ part.slotOffset j := by
  unfold Partition.slotOffset
  rcases two_slots other with ⟨rfl, rfl⟩ | ⟨rfl, rfl⟩ <;> simp

theorem sameSlot_of_outside {t j : Fin 2} (other : j ≠ t) {offset len : ℕ}
    (within : (t * sector ≤ offset ∧ offset + len ≤ t * sector + sector) ∨
      (part.slotOffset t ≤ offset ∧ offset + len ≤ part.slotOffset t + part.slotSize))
    (same : ∀ offset' len', offset' + len' ≤ offset ∨ offset + len ≤ offset' →
      Same m m' offset' len') : SameSlot part m m' j := by
  have first := headers_apart other
  have second := bundles_apart part other
  have third := header_apart part t j
  have fourth := header_apart part j t
  constructor
  · exact same _ _ (by omega)
  · exact same _ _ (by omega)

theorem sameSlot_erase_header {t j : Fin 2} (other : j ≠ t) :
    SameSlot part (erase m (t * sector) sector) m j :=
  sameSlot_of_outside other (.inl ⟨Nat.le_refl _, Nat.le_refl _⟩) fun _ _ apart => same_erase apart

theorem sameSlot_erase_bundle {t j : Fin 2} (other : j ≠ t) {len : ℕ} (room : len ≤ part.slotSize) :
    SameSlot part (erase m (part.slotOffset t) len) m j :=
  sameSlot_of_outside other (.inr ⟨Nat.le_refl _, by omega⟩) fun _ _ apart => same_erase apart

theorem sameSlot_write_bundle {t j : Fin 2} (other : j ≠ t) {data : Bytes}
    (room : data.length ≤ part.slotSize) :
    SameSlot part (Flash.write m (part.slotOffset t) data) m j :=
  sameSlot_of_outside other (.inr ⟨Nat.le_refl _, by omega⟩) fun _ _ apart => same_write apart

theorem sameSlot_write_header {t j : Fin 2} (other : j ≠ t) {data : Bytes}
    (room : data.length ≤ sector) : SameSlot part (Flash.write m (t * sector) data) m j :=
  sameSlot_of_outside other (.inl ⟨Nat.le_refl _, by omega⟩) fun _ _ apart => same_write apart

end

section

variable (digest : Bytes → Digest) (part : Partition)

theorem readSlot_congr {m m' : Memory} {i : Fin 2} (same : SameSlot part m m' i) :
    readSlot digest part m i = readSlot digest part m' i := by
  have short : descriptor ≤ sector := by decide
  have header := read_congr (same.header.part (Nat.le_refl _) (by omega :
    (i : ℕ) * sector + descriptor ≤ i * sector + sector))
  unfold readSlot
  rw [header]
  dsimp only
  split
  · rfl
  · split
    · rfl
    · split
      · rfl
      · rename_i room
        have bundle := read_congr (same.bundle.part (Nat.le_refl _) (by omega :
          part.slotOffset i + word (read m' (i * sector) descriptor) 8 ≤ _))
        rw [bundle]

theorem readSlot_len {m : Memory} {i : Fin 2} {slot : Slot}
    (found : readSlot digest part m i = some slot) :
    slot.len ≤ part.slotSize ∧
      ∃ count entries, parseBundle (read m (part.slotOffset i) slot.len) =
        some (slot.version, count, entries) := by
  unfold readSlot at found
  split at found
  · cases found
  · dsimp only at found
    split at found
    · cases found
    · split at found
      · cases found
      · rename_i room
        split at found
        · cases found
        · obtain ⟨⟨version, count, entries⟩, parsed, rfl⟩ := Option.map_eq_some_iff.mp found
          exact ⟨by dsimp only; omega, count, entries, parsed⟩

theorem readSlot_erased {m : Memory} {i : Fin 2} (erased : Erased m (i * sector) sector) :
    readSlot digest part m i = none := by
  have first := erased (i * sector) (Nat.le_refl _) (by unfold sector; omega)
  have none : (read m (i * sector) descriptor).take 4 ≠ magic := by
    intro eq
    have head : ((read m (i * sector) descriptor).take 4)[0]? = some 0xff := by
      simp [descriptor, first]
    rw [eq] at head
    exact absurd head (by decide)
  unfold readSlot
  split
  · rfl
  · exact if_pos none

section

variable {part} {bundle : Bytes} {version seq : ℕ} {t : Fin 2}

theorem room_of_bundle (long : headerSize ≤ bundle.length) (room : bundle.length ≤ part.slotSize) :
    part.slotOffset t + part.slotSize ≤ part.size := by
  have inside := slotSize_inside part
  have some : 0 < part.slotSize := by
    unfold headerSize at long
    omega
  unfold Partition.slotOffset
  obtain rfl | rfl : t = 0 ∨ t = 1 := by
    revert t
    decide
  · simp
    omega
  · simp
    omega

theorem slotSize_small (part : Partition) : part.slotSize < 2 ^ 31 := by
  have inside := slotSize_inside part
  have small := part.small
  unfold sector at inside
  omega

theorem readSlot_header {m : Memory} {rest : Bytes} (seqFits : seq < 2 ^ 32)
    (long : headerSize ≤ bundle.length) (room : bundle.length ≤ part.slotSize)
    (parsed : ∃ count entries, parseBundle bundle = some (version, count, entries))
    (d : read m (t * sector) descriptor = magic ++ toBytes 4 seq ++ toBytes 4 bundle.length ++ rest)
    (map : read m (part.slotOffset t) bundle.length = bundle) :
    readSlot digest part m t = if (digest bundle).bytes ≠ rest then none
      else some { seq, len := bundle.length, version } := by
  have inside := room_of_bundle (t := t) long room
  have below := header_apart part t t
  have short : descriptor ≤ sector := by decide
  have small := slotSize_small part
  have four : (magic ++ toBytes 4 seq ++ toBytes 4 bundle.length ++ rest).take 4 = magic := rfl
  have seqWord : word (magic ++ toBytes 4 seq ++ toBytes 4 bundle.length ++ rest) 4 = seq :=
    ofBytes_toBytes_of_lt (by omega : seq < 256 ^ 4)
  have lenWord : word (magic ++ toBytes 4 seq ++ toBytes 4 bundle.length ++ rest) 8 =
      bundle.length := ofBytes_toBytes_of_lt (by omega : bundle.length < 256 ^ 4)
  have behind : (magic ++ toBytes 4 seq ++ toBytes 4 bundle.length ++ rest).drop 12 = rest := rfl
  obtain ⟨count, entries, parsed⟩ := parsed
  unfold readSlot
  rw [if_neg (by omega), d]
  dsimp only
  rw [four, if_neg (by simp), seqWord, lenWord, if_neg (by omega), map, behind, parsed]
  rfl

theorem length_header (digest : Bytes → Digest) (seq : ℕ) (bundle : Bytes) :
    (header digest seq bundle).length = descriptor := by
  simp [header, magic, descriptor, (digest bundle).length_bytes]

theorem torn_header (seq : ℕ) (bundle : Bytes) {n : ℕ} (part' : n < 12) :
    ((header digest seq bundle).take n ++ List.replicate (descriptor - n) 0xff).take 4 ≠ magic ∨
      255 * 2 ^ 24 ≤
        word ((header digest seq bundle).take n ++ List.replicate (descriptor - n) 0xff) 8 := by
  by_cases short : n < 4
  · left
    interval_cases n <;> simp [header, magic, descriptor]
  · right
    have ones : (0xff : UInt8).toNat = 255 := rfl
    interval_cases n <;>
      simp only [header, magic, descriptor, word, toBytes, cons_append, nil_append,
        take_succ_cons, take_zero, List.replicate, drop_succ_cons, drop_zero,
        ofBytes, ones] <;>
      omega

theorem readSlot_torn {m : Memory} (seqFits : seq < 2 ^ 32)
    (long : headerSize ≤ bundle.length) (room : bundle.length ≤ part.slotSize)
    (parsed : ∃ count entries, parseBundle bundle = some (version, count, entries)) (n : ℕ)
    (d : read m (t * sector) descriptor =
      (header digest seq bundle).take n ++ List.replicate (descriptor - n) 0xff)
    (map : read m (part.slotOffset t) bundle.length = bundle) :
    readSlot digest part m t = none ∨
      readSlot digest part m t = some { seq, len := bundle.length, version } := by
  by_cases part' : n < 12
  · left
    have small := slotSize_small part
    unfold readSlot
    split
    · rfl
    · rw [d]
      dsimp only
      split
      · rfl
      · rename_i magic'
        rcases torn_header digest seq bundle part' with short | top
        · exact absurd short magic'
        · exact if_pos (.inl (by omega))
  · obtain ⟨k, rfl⟩ := Nat.exists_eq_add_of_le (Nat.not_lt.mp part')
    have front : (header digest seq bundle).take (12 + k) =
        magic ++ toBytes 4 seq ++ toBytes 4 bundle.length ++ (digest bundle).bytes.take k := by
      unfold header
      rw [take_append]
      have twelve : (magic ++ toBytes 4 seq ++ toBytes 4 bundle.length).length = 12 := rfl
      rw [twelve, take_of_length_le (by omega), Nat.add_sub_cancel_left]
    rw [front, append_assoc] at d
    rw [readSlot_header digest seqFits long room parsed d map]
    split
    · exact .inl rfl
    · exact .inr rfl

end

end

end EspDevkit.Crypto.CaBundle
