import EspDevkit.Gfx.GlyphCache
import Mathlib.Data.Nat.ModEq

/-!
# The index of the glyph cache

The slots in use stand in the index once each, under their keys, in the way of linear probing:
every loop of `lookup`, `unindex` and `get` comes to an end.
-/

namespace EspDevkit.Gfx.Glyph

open Library.LinearProbing List Function

variable {bytes m k : ℕ}

/-- More places than slots, and few enough for the subtraction of `unindex`. -/
structure Sizes (m k : ℕ) : Prop where
  room : m < 2 ^ k
  bits : k ≤ 32

theorem sizes_new (bytes : ℕ) : Sizes (slotCount bytes) (indexBits bytes) := by
  have positive := slotCount_pos bytes
  have small : slotCount bytes ≤ 32767 := min_le_right _ _
  constructor
  · have power : slotCount bytes * 2 - 1 < 2 ^ indexBits bytes := Nat.lt_log2_self
    omega
  · have log : (slotCount bytes * 2 - 1).log2 < 16 :=
      (Nat.log2_lt (by omega)).mpr (by omega)
    unfold indexBits
    omega

section Loops

theorem masked_val (i : ℕ) : (masked i : Fin (2 ^ k)).val = i % 2 ^ k :=
  Nat.and_two_pow_sub_one_eq_mod i k

theorem masked_next (i : Fin (2 ^ k)) : masked (i + 1) = next i := Fin.ext (masked_val _)

theorem behind_val (bits : k ≤ 32) (i j : Fin (2 ^ k)) : (behind i j).val = distance i j := by
  have below := i.isLt
  have divides : 2 ^ k ∣ 2 ^ 32 := Nat.pow_dvd_pow 2 bits
  obtain ⟨times, power⟩ := divides
  obtain ⟨more, rfl⟩ : ∃ more, times = more + 1 :=
    Nat.exists_eq_add_one_of_ne_zero fun zero => by simp [zero] at power
  have split : (j : ℕ) + 2 ^ 32 - i = (j + 2 ^ k - i) + 2 ^ k * more := by
    rw [power, Nat.mul_add_one]
    omega
  rw [behind, masked_val, Nat.mod_mod_of_dvd _ (Nat.pow_dvd_pow 2 bits), split,
    Nat.add_mul_mod_self_left, distance]

theorem walk_eq (stop : Fin (2 ^ k) → Bool) (fuel : ℕ) (i : Fin (2 ^ k)) :
    walk stop fuel i = probe stop fuel i := by
  induction fuel generalizing i with
  | zero => rfl
  | succ fuel ih => rw [walk, probe, masked_next, ih]

theorem shiftBack_eq (bits : k ≤ 32) (s : GlyphCache bytes m k) (fuel : ℕ) :
    ∀ index i next, s.shiftBack fuel index i next = closeGap s.home fuel index i next := by
  induction fuel with
  | zero => intro index i next; rfl
  | succ fuel ih =>
    intro index i next
    rw [GlyphCache.shiftBack, closeGap]
    cases index next with
    | none => rfl
    | some other =>
      simp only [ge_iff_le, Fin.le_def, behind_val bits, masked_next, ih]

end Loops

namespace GlyphCache

variable (s : GlyphCache bytes m k)

def live : List (Fin m) := (List.range s.count).map s.turn

def key (slot : Fin m) : Key := (s.slots slot).key

variable {s}

theorem turn_zero : s.turn 0 = s.head := Fin.ext (Nat.mod_eq_of_lt s.head.isLt)

theorem turn_injective {i j : ℕ} (first : i < m) (second : j < m) (same : s.turn i = s.turn j) :
    i = j := by
  have equal : (s.head + i) % m = (s.head + j) % m := Fin.mk.inj same
  have cancelled : i ≡ j [MOD m] := Nat.ModEq.add_left_cancel' s.head.val equal
  exact cancelled.eq_of_lt_of_lt first second

theorem mem_live {slot : Fin m} : slot ∈ s.live ↔ ∃ i < s.count, s.turn i = slot := by
  simp [live]

theorem live_nodup (most : s.count ≤ m) : s.live.Nodup := by
  refine List.Nodup.map_on ?_ nodup_range
  intro i first j second same
  have low := mem_range.mp first
  have high := mem_range.mp second
  exact turn_injective (by omega) (by omega) same

theorem turn_count_fresh (room : s.count < m) : s.turn s.count ∉ s.live := by
  rw [mem_live]
  rintro ⟨i, low, same⟩
  have := turn_injective (by omega) room same
  omega

theorem live_eq_cons (s' : GlyphCache bytes m k) (some_ : 0 < s.count)
    (head : s'.head = s.turn 1) (count : s'.count = s.count - 1) :
    s.live = s.head :: s'.live := by
  have shifted : ∀ i, s.turn (i + 1) = s'.turn i := by
    intro i
    apply Fin.ext
    show (s.head + (i + 1)) % m = (s'.head + i) % m
    rw [head]
    show (s.head + (i + 1)) % m = ((s.head + 1) % m + i) % m
    rw [Nat.mod_add_mod, Nat.add_assoc, Nat.add_comm 1 i]
  obtain ⟨fewer, succ⟩ := Nat.exists_eq_succ_of_ne_zero some_.ne'
  have rest : s'.count = fewer := by omega
  unfold live
  rw [rest, succ, range_succ_eq_map, map_cons, turn_zero, map_map]
  congr 1
  exact map_congr_left fun i _ => shifted i

theorem exists_live_cons (some_ : 0 < s.count) : ∃ rest, s.live = s.head :: rest :=
  ⟨_, live_eq_cons { s with head := s.turn 1, count := s.count - 1 } some_ rfl rfl⟩

end GlyphCache

/-- Every slot in use stands in the index once, and no two have the same key. -/
structure Filed (s : GlyphCache bytes m k) : Prop where
  probed : Probed s.home s.index
  stored : ∀ slot, (∃ i, s.index i = some slot) ↔ slot ∈ s.live
  keys : (s.live.map s.key).Nodup
  most : s.count ≤ m

theorem filed_new (bytes : ℕ) : Filed (new bytes) where
  probed := probed_empty
  stored slot := by simp [new, GlyphCache.live]
  keys := nodup_nil
  most := Nat.zero_le _

namespace Filed

variable {s : GlyphCache bytes m k}

theorem exists_empty (filed : Filed s) (sizes : Sizes m k) : ∃ q, s.index q = none :=
  Library.LinearProbing.exists_empty filed.probed (by rw [Fintype.card_fin]; exact sizes.room)

theorem key_injective (filed : Filed s) {slot slot' : Fin m} (first : slot ∈ s.live)
    (second : slot' ∈ s.live) (same : s.key slot = s.key slot') : slot = slot' :=
  inj_on_of_nodup_map filed.keys first second same

theorem lookup_eq (filed : Filed s) (sizes : Sizes m k) (key : Key) :
    (∃ slot ∈ s.live, s.key slot = key ∧ s.lookup key = some (some slot)) ∨
      ((∀ slot ∈ s.live, s.key slot ≠ key) ∧ s.lookup key = some none) := by
  obtain ⟨q, empty⟩ := filed.exists_empty sizes
  have form : s.lookup key =
      (probe (fun i => (s.index i).all fun slot => s.key slot == key) (2 ^ k)
        (masked (hash key).toNat)).map s.index := by
    rw [GlyphCache.lookup, walk_eq]
    congr 2
    funext i
    cases s.index i <;> rfl
  rw [form]
  by_cases known : ∃ slot ∈ s.live, s.key slot = key
  · obtain ⟨slot, member, same⟩ := known
    obtain ⟨p, held⟩ := (filed.stored slot).mpr member
    refine .inl ⟨slot, member, same, ?_⟩
    have start : masked (hash key).toNat = s.home slot := by rw [← same]; rfl
    have found := probe_found (fun slot => s.key slot == key) filed.probed empty held
      (beq_iff_eq.mpr same) fun p' b other wanted =>
        filed.key_injective ((filed.stored b).mp ⟨p', other⟩) member
          ((beq_iff_eq.mp wanted).trans same.symm)
    rw [start, found, Option.map_some, held]
  · have absent : ∀ slot ∈ s.live, s.key slot ≠ key := fun slot member same =>
      known ⟨slot, member, same⟩
    refine .inr ⟨absent, ?_⟩
    obtain ⟨p, walked, none_, -⟩ := probe_missing (fun slot => s.key slot == key) empty
      (fun p b held => beq_eq_false_iff_ne.mpr (absent b ((filed.stored b).mp ⟨p, held⟩)))
      (masked (hash key).toNat)
    rw [walked, Option.map_some, none_]

/-- `unindex` takes its slot out of the index and leaves the others probed. -/
theorem unindex_eq (filed : Filed s) (sizes : Sizes m k) {slot : Fin m} (member : slot ∈ s.live) :
    ∃ index, s.unindex slot = some { s with index := index } ∧ Probed s.home index ∧
      ∀ other, (∃ i, index i = some other) ↔ other ∈ s.live ∧ other ≠ slot := by
  obtain ⟨q, empty⟩ := filed.exists_empty sizes
  obtain ⟨p, held⟩ := (filed.stored slot).mpr member
  obtain ⟨index, closed, probed, others⟩ := filed.probed.remove empty held
  refine ⟨index, ?_, probed, fun other => (others other).trans ?_⟩
  · rw [GlyphCache.unindex, walk_eq, probe_held filed.probed empty held, Option.bind_some,
      masked_next, shiftBack_eq sizes.bits, closed, Option.map_some]
  · rw [filed.stored]

theorem place_eq (filed : Filed s) (sizes : Sizes m k) (room : s.count < m) {key : Key}
    (fresh : ∀ slot ∈ s.live, s.key slot ≠ key) (offset : ℕ) :
    ∃ index, let s' : GlyphCache bytes m k :=
        { s with
          slots := Function.update s.slots (s.turn s.count)
            { font := key.1, glyph := key.2, offset := offset, frame := s.frame }
          count := s.count + 1
          index := index }
      s.place key offset = some s' ∧ Filed s' ∧ s'.live = s.live ++ [s.turn s.count] := by
  obtain ⟨q, empty⟩ := filed.exists_empty sizes
  obtain ⟨p, walked, none_, up, clear⟩ := probe_missing (fun _ : Fin m => false) empty
    (fun _ _ _ => rfl) (masked (hash key).toNat)
  have new_slot := GlyphCache.turn_count_fresh room
  refine ⟨Function.update s.index p (some (s.turn s.count)), ?_⟩
  intro s'
  have behind : s'.live = s.live ++ [s.turn s.count] := by
    show (List.range (s.count + 1)).map s.turn = _
    rw [range_succ, map_append]
    rfl
  have others : ∀ slot ∈ s.live, s'.slots slot = s.slots slot := fun slot member =>
    update_of_ne (fun same => new_slot (by rw [← same]; exact member)) _ _
  have home_eq : ∀ i slot, s.index i = some slot → s'.home slot = s.home slot := by
    intro i slot held
    show masked (hash (s'.slots slot).key).toNat = _
    rw [others slot ((filed.stored slot).mp ⟨i, held⟩)]
    rfl
  have start : s'.home (s.turn s.count) = masked (hash key).toNat := by
    show masked (hash (s'.slots (s.turn s.count)).key).toNat = _
    rw [show s'.slots (s.turn s.count) = _ from update_self _ _ _]
    rfl
  have filled : s'.index p = some (s.turn s.count) := update_self p _ s.index
  have keys_eq : s.live.map s'.key = s.live.map s.key :=
    map_congr_left fun slot member => congrArg Slot.key (others slot member)
  have key_eq : s'.key (s.turn s.count) = key := by
    show (s'.slots (s.turn s.count)).key = key
    rw [show s'.slots (s.turn s.count) = _ from update_self _ _ _]
    rfl
  refine ⟨?_, ⟨?_, ?_, ?_, room⟩, behind⟩
  · have form : (fun i => s.index i == none) = fun i => (s.index i).all fun _ => false := by
      funext i
      cases s.index i <;> rfl
    rw [GlyphCache.place, walk_eq, form, walked, Option.map_some]
  · refine (filed.probed.congr home_eq).insert (q := q) ?_ ?_ ?_
    · exact fun i held => new_slot ((filed.stored _).mp ⟨i, held⟩)
    · rw [start]
      exact up
    · rw [start]
      exact clear
  · intro slot
    rw [behind, mem_append, mem_singleton, ← filed.stored]
    constructor
    · rintro ⟨i, held⟩
      by_cases here : i = p
      · rw [here, filled] at held
        exact .inr (Option.some.inj held).symm
      · exact .inl ⟨i, (update_of_ne here _ _).symm.trans held⟩
    · rintro (⟨i, held⟩ | rfl)
      · refine ⟨i, (update_of_ne ?_ _ _).trans held⟩
        rintro rfl
        rw [none_] at held
        exact absurd held (by simp)
      · exact ⟨p, filled⟩
  · rw [behind, map_append, map_singleton, key_eq, keys_eq]
    refine List.Nodup.append filed.keys (nodup_singleton _) ?_
    rw [disjoint_singleton]
    rintro known
    obtain ⟨slot, member, same⟩ := mem_map.mp known
    exact fresh slot member same

theorem hit_key (slot other : Fin m) : (s.hit slot).1.key other = s.key other := by
  by_cases here : other = slot
  · show (Function.update s.slots slot _ other).key = (s.slots other).key
    rw [here, update_self]
    rfl
  · exact congrArg Slot.key (update_of_ne here _ _)

theorem hit (filed : Filed s) (slot : Fin m) : Filed (s.hit slot).1 := by
  have keys := hit_key (s := s) slot
  have homes : (s.hit slot).1.home = s.home := by
    funext other
    show masked (hash ((s.hit slot).1.key other)).toNat = _
    rw [keys]
    rfl
  refine ⟨by rw [homes]; exact filed.probed, filed.stored, ?_, filed.most⟩
  rw [show (s.hit slot).1.key = s.key from funext keys]
  exact filed.keys

end Filed

structure Kept (s s' : GlyphCache bytes m k) : Prop where
  slots : s'.slots = s.slots
  data : s'.data = s.data
  frame : s'.frame = s.frame

/-- `more` at the offset of a slot. -/
def GlyphCache.due (s : GlyphCache bytes m k) (more : ℕ → Bool) (slot : Fin m) : Bool :=
  more (s.slots slot).offset

theorem Kept.due {s s' : GlyphCache bytes m k} (kept : Kept s s') : s'.due = s.due := by
  unfold GlyphCache.due
  rw [kept.slots]

/-- `s'` is `s` without its oldest slots, none of them of this frame. -/
structure Evicted (s s' : GlyphCache bytes m k) : Prop where
  kept : Kept s s'
  filed : Filed s'
  order : ∃ gone, s.live = gone ++ s'.live ∧ ∀ slot ∈ gone, (s.slots slot).frame ≠ s.frame

namespace Evicted

variable {s s' s'' : GlyphCache bytes m k}

theorem refl (filed : Filed s) : Evicted s s :=
  ⟨⟨rfl, rfl, rfl⟩, filed, [], rfl, fun _ member => absurd member (by simp)⟩

theorem trans (first : Evicted s s') (second : Evicted s' s'') : Evicted s s'' := by
  obtain ⟨kept, -, gone, order, older⟩ := first
  obtain ⟨kept', filed, gone', order', older'⟩ := second
  refine ⟨⟨kept'.slots.trans kept.slots, kept'.data.trans kept.data,
    kept'.frame.trans kept.frame⟩, filed, gone ++ gone', ?_, ?_⟩
  · rw [order, order', append_assoc]
  · intro slot member
    rcases mem_append.mp member with early | late
    · exact older slot early
    · rw [← kept.slots, ← kept.frame]
      exact older' slot late

theorem keeps (step : Evicted s s') {slot : Fin m} (member : slot ∈ s.live)
    (pinned : (s.slots slot).frame = s.frame) : slot ∈ s'.live := by
  obtain ⟨-, -, gone, order, older⟩ := step
  rw [order] at member
  rcases mem_append.mp member with early | late
  · exact absurd pinned (older slot early)
  · exact late

theorem subset (step : Evicted s s') {slot : Fin m} (member : slot ∈ s'.live) : slot ∈ s.live := by
  obtain ⟨-, -, gone, order, -⟩ := step
  rw [order]
  exact mem_append_right gone member

end Evicted

namespace Filed

variable {s : GlyphCache bytes m k}

theorem evictOldest_eq (filed : Filed s) (sizes : Sizes m k) (some_ : 0 < s.count) :
    (s.slots s.head).frame = s.frame ∧ s.evictOldest = some (s, false) ∨
      (s.slots s.head).frame ≠ s.frame ∧ ∃ s', s.evictOldest = some (s', true) ∧ Evicted s s' ∧
        s'.write = s.write ∧ s.live = s.head :: s'.live := by
  by_cases pinned : (s.slots s.head).frame = s.frame
  · exact .inl ⟨pinned, if_pos pinned⟩
  · have member : s.head ∈ s.live :=
      GlyphCache.mem_live.mpr ⟨0, some_, GlyphCache.turn_zero⟩
    obtain ⟨index, removed, probed, others⟩ := filed.unindex_eq sizes member
    let s' : GlyphCache bytes m k :=
      { s with index := index, head := s.turn 1, count := s.count - 1 }
    have order : s.live = s.head :: s'.live := GlyphCache.live_eq_cons s' some_ rfl rfl
    have distinct := GlyphCache.live_nodup filed.most
    have keys := filed.keys
    rw [order] at distinct keys
    refine .inr ⟨pinned, s', ?_, ⟨⟨rfl, rfl, rfl⟩, ⟨probed, ?_, ?_, ?_⟩, [s.head], order, ?_⟩, rfl,
      order⟩
    · rw [GlyphCache.evictOldest, if_neg pinned, removed]
      rfl
    · intro slot
      refine (others slot).trans ?_
      rw [order, mem_cons]
      constructor
      · rintro ⟨same | later, apart⟩
        · exact absurd same apart
        · exact later
      · intro later
        refine ⟨.inr later, ?_⟩
        rintro rfl
        exact (nodup_cons.mp distinct).1 later
    · exact (nodup_cons.mp keys).2
    · exact le_trans (Nat.sub_le _ _) filed.most
    · intro slot only
      rw [mem_singleton.mp only]
      exact pinned

theorem evictWhile_eq (sizes : Sizes m k) (more : ℕ → Bool) :
    ∀ (fuel : ℕ) {s : GlyphCache bytes m k}, Filed s → s.count < fuel →
      ∃ s' ok, GlyphCache.evictWhile more fuel s = some (s', ok) ∧ Evicted s s' ∧
        s'.write = s.write ∧
        (ok = true ↔ ∀ slot ∈ s.live.takeWhile (s.due more), (s.slots slot).frame ≠ s.frame) ∧
        (ok = true → s'.live = s.live.dropWhile (s.due more)) := by
  intro fuel
  induction fuel with
  | zero => intro s _ short; omega
  | succ fuel ih =>
    intro s filed short
    rw [GlyphCache.evictWhile]
    by_cases going : 0 < s.count ∧ more (s.slots s.head).offset = true
    · rw [if_pos going]
      obtain ⟨some_, wanted⟩ := going
      change s.due more s.head = true at wanted
      rcases filed.evictOldest_eq sizes some_ with
        ⟨pinned, refused⟩ | ⟨old, s', evicted, step, still, order⟩
      · obtain ⟨rest, order⟩ := GlyphCache.exists_live_cons some_
        refine ⟨s, false, by rw [refused]; rfl, .refl filed, rfl, ?_,
          fun no => absurd no (by simp)⟩
        rw [order, takeWhile_cons_of_pos wanted]
        constructor
        · exact fun no => absurd no (by simp)
        · exact fun all => absurd pinned (all s.head (by simp))
      · have fewer : s'.count < fuel := by
          have lengths := congrArg List.length order
          simp only [GlyphCache.live, length_map, length_range, length_cons]
            at lengths
          omega
        obtain ⟨s'', ok, walked, rest, still', exactly, after⟩ := ih step.filed fewer
        refine ⟨s'', ok, by rw [evicted, ← walked]; rfl, step.trans rest, still'.trans still,
          ?_, ?_⟩
        · rw [exactly, order, takeWhile_cons_of_pos wanted, forall_mem_cons,
            step.kept.due, step.kept.slots, step.kept.frame]
          exact ⟨fun all => ⟨old, all⟩, fun all => all.2⟩
        · intro yes
          rw [after yes, order, dropWhile_cons_of_pos wanted, step.kept.due]
    · rw [if_neg going]
      have stop : ∀ slot ∈ s.live.head?, ¬ s.due more slot = true := by
        intro slot first wanted
        by_cases some_ : 0 < s.count
        · obtain ⟨rest, order⟩ := GlyphCache.exists_live_cons some_
          rw [order] at first
          rw [← Option.some.inj first] at wanted
          exact going ⟨some_, wanted⟩
        · rw [GlyphCache.live, show s.count = 0 by omega] at first
          exact absurd first (by simp)
      have taken : s.live.takeWhile (s.due more) = [] ∧
          s.live.dropWhile (s.due more) = s.live := by
        cases order : s.live with
        | nil => exact ⟨rfl, rfl⟩
        | cons first rest =>
          have no := stop first (by rw [order]; rfl)
          exact ⟨takeWhile_cons_of_neg no, dropWhile_cons_of_neg no⟩
      refine ⟨s, true, rfl, .refl filed, rfl, ?_, fun _ => taken.2.symm⟩
      rw [taken.1]
      exact ⟨fun _ _ member => absurd member (by simp), fun _ => rfl⟩

end Filed

end EspDevkit.Gfx.Glyph
