import Mathlib.Data.List.Basic
import Mathlib.Data.List.Infix
import Mathlib.Tactic.Common

/-!
# Out-of-order ranges of a TCP receiver

The receiver remembers at most four ranges of bytes it holds past a gap, as
half-open intervals of offsets from `rcv_nxt`.  A new range is merged with the
ranges it overlaps or touches; one that touches none of four is refused.
-/

namespace EspDevkit.Net

open List

def maxRanges : ℕ := 4

/-- Out-of-order ranges, as offsets from `rcv_nxt`, in order. -/
structure Assembler where
  ranges : List (ℕ × ℕ)
  deriving DecidableEq, Repr

namespace Assembler

def empty : Assembler := ⟨[]⟩

def count (a : Assembler) : ℕ := a.ranges.length

/-- The loop of `add`: ranges apart from what has been merged so far are kept
in order, the others are merged. -/
def absorb : ℕ × ℕ → List (ℕ × ℕ) → (ℕ × ℕ) × List (ℕ × ℕ)
  | merged, [] => (merged, [])
  | merged, (s, e) :: ranges =>
    if e < merged.1 ∨ merged.2 < s then
      let (merged, kept) := absorb merged ranges
      (merged, (s, e) :: kept)
    else
      absorb (min merged.1 s, max merged.2 e) ranges

/-- `false` when the range neither merges nor fits. -/
def add (a : Assembler) (start stop : ℕ) : Assembler × Bool :=
  let (merged, kept) := absorb (start, stop) a.ranges
  if kept.length = maxRanges then (a, false) else
  let pos := kept.findIdx fun r => merged.1 < r.1
  (⟨kept.take pos ++ merged :: kept.drop pos⟩, true)

def takeFront (a : Assembler) : Assembler × ℕ :=
  match a.ranges with
  | [] => (a, 0)
  | (s, n) :: ranges =>
    if s ≠ 0 then (a, 0)
    else (⟨ranges.map fun r => (r.1 - n, r.2 - n)⟩, n)

def Separated (ranges : List (ℕ × ℕ)) : Prop :=
  (∀ r ∈ ranges, r.1 < r.2) ∧ ranges.Pairwise fun r s => r.2 < s.1

def Ordered (ranges : List (ℕ × ℕ)) : Prop :=
  (∀ r ∈ ranges, r.1 ≤ r.2) ∧ ranges.Pairwise fun r s => r.2 < s.1

theorem Separated.ordered {ranges : List (ℕ × ℕ)} (separated : Separated ranges) :
    Ordered ranges :=
  ⟨fun r member => (separated.1 r member).le, separated.2⟩

/-- What holds between two segments: separated ranges, at most four, none of
them at offset 0, all within `limit`. -/
structure WellFormed (a : Assembler) (limit : ℕ) : Prop where
  separated : Separated a.ranges
  count_le : a.count ≤ maxRanges
  past_gap : ∀ r ∈ a.ranges, 0 < r.1
  within : ∀ r ∈ a.ranges, r.2 ≤ limit

theorem wellFormed_empty (limit : ℕ) : empty.WellFormed limit :=
  ⟨⟨by simp [empty], by simp [empty]⟩, by simp [empty, count], by simp [empty],
    by simp [empty]⟩

def Holds (ranges : List (ℕ × ℕ)) (offset : ℕ) : Prop :=
  ∃ r ∈ ranges, r.1 ≤ offset ∧ offset < r.2

theorem Separated.tail {r : ℕ × ℕ} {ranges : List (ℕ × ℕ)}
    (separated : Separated (r :: ranges)) : Separated ranges :=
  ⟨fun s member => separated.1 s (mem_cons_of_mem _ member),
    (pairwise_cons.mp separated.2).2⟩

theorem Ordered.tail {r : ℕ × ℕ} {ranges : List (ℕ × ℕ)} (ordered : Ordered (r :: ranges)) :
    Ordered ranges :=
  ⟨fun s member => ordered.1 s (mem_cons_of_mem _ member),
    (pairwise_cons.mp ordered.2).2⟩

theorem Ordered.sublist {ranges ranges' : List (ℕ × ℕ)} (ordered : Ordered ranges)
    (sublist : ranges'.Sublist ranges) : Ordered ranges' :=
  ⟨fun r member => ordered.1 r (sublist.subset member), ordered.2.sublist sublist⟩

@[simp]
theorem absorb_nil (merged : ℕ × ℕ) : absorb merged [] = (merged, []) := rfl

theorem absorb_cons (merged r : ℕ × ℕ) (ranges : List (ℕ × ℕ)) :
    absorb merged (r :: ranges) =
      if r.2 < merged.1 ∨ merged.2 < r.1 then
        ((absorb merged ranges).1, r :: (absorb merged ranges).2)
      else absorb (min merged.1 r.1, max merged.2 r.2) ranges := rfl

theorem absorb_sublist (merged : ℕ × ℕ) (ranges : List (ℕ × ℕ)) :
    (absorb merged ranges).2.Sublist ranges := by
  induction ranges generalizing merged with
  | nil => simp
  | cons r ranges ih =>
    rw [absorb_cons]
    split
    · exact (ih merged).cons_cons r
    · exact (ih _).cons r

theorem absorb_contains (merged : ℕ × ℕ) (ranges : List (ℕ × ℕ)) :
    (absorb merged ranges).1.1 ≤ merged.1 ∧ merged.2 ≤ (absorb merged ranges).1.2 := by
  induction ranges generalizing merged with
  | nil => simp
  | cons r ranges ih =>
    rw [absorb_cons]
    split
    · exact ih merged
    · have := ih (min merged.1 r.1, max merged.2 r.2)
      simp only at this
      omega

theorem absorb_covers {merged : ℕ × ℕ} {ranges : List (ℕ × ℕ)} {offset : ℕ}
    (low : (absorb merged ranges).1.1 ≤ offset)
    (high : offset < (absorb merged ranges).1.2) :
    (merged.1 ≤ offset ∧ offset < merged.2) ∨ Holds ranges offset := by
  induction ranges generalizing merged with
  | nil => exact Or.inl ⟨low, high⟩
  | cons r ranges ih =>
    rw [absorb_cons] at low high
    split at low
    · rename_i apart
      rw [if_pos apart] at high
      rcases ih low high with inside | ⟨s, member, inside⟩
      · exact Or.inl inside
      · exact Or.inr ⟨s, mem_cons_of_mem _ member, inside⟩
    · rename_i touching
      rw [if_neg touching] at high
      rcases ih low high with inside | ⟨s, member, inside⟩
      · by_cases old : r.1 ≤ offset ∧ offset < r.2
        · exact Or.inr ⟨r, mem_cons_self, old⟩
        · refine Or.inl ?_
          simp only at inside
          omega
      · exact Or.inr ⟨s, mem_cons_of_mem _ member, inside⟩

theorem absorb_lower_bound {bound : ℕ} {merged : ℕ × ℕ} {ranges : List (ℕ × ℕ)}
    (below : bound < merged.1) (all : ∀ r ∈ ranges, bound < r.1) :
    bound < (absorb merged ranges).1.1 := by
  induction ranges generalizing merged with
  | nil => exact below
  | cons r ranges ih =>
    have first := all r mem_cons_self
    have rest : ∀ s ∈ ranges, bound < s.1 := fun s member =>
      all s (mem_cons_of_mem _ member)
    rw [absorb_cons]
    split
    · exact ih below rest
    · exact ih (by simp only; omega) rest

theorem absorb_upper_bound {bound : ℕ} {merged : ℕ × ℕ} {ranges : List (ℕ × ℕ)}
    (below : merged.2 ≤ bound) (all : ∀ r ∈ ranges, r.2 ≤ bound) :
    (absorb merged ranges).1.2 ≤ bound := by
  induction ranges generalizing merged with
  | nil => exact below
  | cons r ranges ih =>
    have first := all r mem_cons_self
    have rest : ∀ s ∈ ranges, s.2 ≤ bound := fun s member =>
      all s (mem_cons_of_mem _ member)
    rw [absorb_cons]
    split
    · exact ih below rest
    · exact ih (by simp only; omega) rest

theorem absorb_of_beyond {merged : ℕ × ℕ} {ranges : List (ℕ × ℕ)}
    (all : ∀ r ∈ ranges, merged.2 < r.1) : absorb merged ranges = (merged, ranges) := by
  induction ranges with
  | nil => rfl
  | cons r ranges ih =>
    have first := all r mem_cons_self
    rw [absorb_cons, if_pos (Or.inr first), ih fun s member => all s (mem_cons_of_mem _ member)]

theorem absorb_apart {merged : ℕ × ℕ} {ranges : List (ℕ × ℕ)} (ordered : Ordered ranges) :
    ∀ r ∈ (absorb merged ranges).2,
      r.2 < (absorb merged ranges).1.1 ∨ (absorb merged ranges).1.2 < r.1 := by
  induction ranges generalizing merged with
  | nil => simp
  | cons r ranges ih =>
    have later := (pairwise_cons.mp ordered.2).1
    have proper := ordered.1 r mem_cons_self
    rw [absorb_cons]
    split
    · rename_i apart
      intro s member
      rcases mem_cons.mp member with rfl | member
      · rcases apart with before | beyond
        · exact Or.inl (absorb_lower_bound before later)
        · have all : ∀ x ∈ ranges, merged.2 < x.1 := by
            intro x xMember
            have := later x xMember
            omega
          rw [absorb_of_beyond all]
          exact Or.inr beyond
      · exact ih ordered.tail s member
    · exact ih ordered.tail

theorem absorb_keeps {merged : ℕ × ℕ} {ranges : List (ℕ × ℕ)} {offset : ℕ}
    (held : Holds ranges offset) :
    ((absorb merged ranges).1.1 ≤ offset ∧ offset < (absorb merged ranges).1.2) ∨
      Holds (absorb merged ranges).2 offset := by
  induction ranges generalizing merged with
  | nil =>
    obtain ⟨r, member, -⟩ := held
    exact absurd member not_mem_nil
  | cons r ranges ih =>
    obtain ⟨s, member, inside⟩ := held
    rw [absorb_cons]
    split
    · rcases mem_cons.mp member with rfl | member
      · exact Or.inr ⟨s, mem_cons_self, inside⟩
      · rcases ih ⟨s, member, inside⟩ with within | ⟨t, tMember, within⟩
        · exact Or.inl within
        · exact Or.inr ⟨t, mem_cons_of_mem _ tMember, within⟩
    · rcases mem_cons.mp member with rfl | member
      · have contains := absorb_contains (min merged.1 s.1, max merged.2 s.2) ranges
        simp only at contains
        exact Or.inl (by omega)
      · exact ih ⟨s, member, inside⟩

theorem ordered_insert {merged : ℕ × ℕ} {kept : List (ℕ × ℕ)}
    (proper : merged.1 ≤ merged.2) (ordered : Ordered kept)
    (apart : ∀ r ∈ kept, r.2 < merged.1 ∨ merged.2 < r.1) :
    Ordered (kept.take (kept.findIdx fun r => merged.1 < r.1) ++
      merged :: kept.drop (kept.findIdx fun r => merged.1 < r.1)) := by
  generalize position : kept.findIdx (fun r => merged.1 < r.1) = pos
  have before : ∀ r ∈ kept.take pos, r.2 < merged.1 := by
    intro r member
    obtain ⟨i, bound, rfl⟩ := mem_iff_getElem.mp member
    have small : i < pos := by
      have := bound
      rw [length_take] at this
      omega
    have keptLt : i < kept.length := by
      have := bound
      rw [length_take] at this
      omega
    rw [getElem_take]
    have not := not_of_lt_findIdx (position ▸ small)
    have away := apart kept[i] (getElem_mem keptLt)
    have low : kept[i].1 ≤ merged.1 := by simpa using not
    have := ordered.1 kept[i] (getElem_mem keptLt)
    omega
  have beyond : ∀ r ∈ kept.drop pos, merged.2 < r.1 := by
    cases rest : kept.drop pos with
    | nil => simp
    | cons first others =>
      have posLt : pos < kept.length := by
        by_contra whole
        rw [drop_eq_nil_of_le (by omega)] at rest
        cases rest
      have firstEq : first = kept[pos] := by
        rw [drop_eq_getElem_cons posLt] at rest
        exact (List.cons.inj rest).1.symm
      have found : merged.1 < first.1 := by
        have := findIdx_getElem (w := show kept.findIdx (fun r => decide (merged.1 < r.1)) < kept.length by
            rw [position]; exact posLt)
        simp only [position, decide_eq_true_eq] at this
        rw [firstEq]
        exact this
      have firstMember : first ∈ kept := firstEq ▸ getElem_mem posLt
      have firstProper := ordered.1 first firstMember
      have firstBeyond : merged.2 < first.1 := by
        rcases apart first firstMember with away | away <;> omega
      have inOrder : (first :: others).Pairwise fun r s => r.2 < s.1 :=
        rest ▸ ordered.2.sublist (drop_sublist pos kept)
      intro r member
      rcases mem_cons.mp member with rfl | member
      · exact firstBeyond
      · have := (pairwise_cons.mp inOrder).1 r member
        omega
  refine ⟨?_, ?_⟩
  · intro r member
    rcases mem_append.mp member with member | member
    · exact ordered.1 r (mem_of_mem_take member)
    · rcases mem_cons.mp member with rfl | member
      · exact proper
      · exact ordered.1 r (mem_of_mem_drop member)
  · refine pairwise_append.mpr
      ⟨ordered.2.sublist (take_sublist pos kept),
        pairwise_cons.mpr ⟨beyond, ordered.2.sublist (drop_sublist pos kept)⟩, ?_⟩
    intro r member s sMember
    have low := before r member
    rcases mem_cons.mp sMember with rfl | sMember
    · exact low
    · have := beyond s sMember
      omega

/-- A range that is taken in keeps the ranges separated, within the limit, at
most four, and holds no offset that was neither held nor added. -/
theorem add_spec {a : Assembler} {limit start stop : ℕ} (wf : a.WellFormed limit)
    (nonempty : start < stop) (within : stop ≤ limit) (taken : (a.add start stop).2 = true) :
    Separated (a.add start stop).1.ranges ∧ (a.add start stop).1.count ≤ maxRanges ∧
      (∀ r ∈ (a.add start stop).1.ranges, r.2 ≤ limit) ∧
      (∀ offset, Holds (a.add start stop).1.ranges offset →
        (start ≤ offset ∧ offset < stop) ∨ Holds a.ranges offset) := by
  have contains := absorb_contains (start, stop) a.ranges
  have sublist := absorb_sublist (start, stop) a.ranges
  have apart := @absorb_apart (start, stop) _ wf.separated.ordered
  have covers := fun offset =>
    @absorb_covers (start, stop) a.ranges offset
  have upper := @absorb_upper_bound limit (start, stop) _ within wf.within
  simp only [add] at taken ⊢
  generalize absorbed : absorb (start, stop) a.ranges = result at *
  obtain ⟨merged, kept⟩ := result
  simp only at contains sublist apart covers upper taken ⊢
  split at taken
  · cases taken
  · rename_i room
    rw [if_neg room]
    have keptCount : kept.length ≤ maxRanges := sublist.length_le.trans wf.count_le
    have ordered := ordered_insert (by omega) (wf.separated.ordered.sublist sublist) apart
    have members : ∀ r ∈ kept.take (kept.findIdx fun r => merged.1 < r.1) ++
        merged :: kept.drop (kept.findIdx fun r => merged.1 < r.1),
        r = merged ∨ r ∈ kept := by
      intro r member
      rcases mem_append.mp member with member | member
      · exact Or.inr (mem_of_mem_take member)
      · rcases mem_cons.mp member with rfl | member
        · exact Or.inl rfl
        · exact Or.inr (mem_of_mem_drop member)
    refine ⟨⟨fun r member => ?_, ordered.2⟩, ?_, ?_, ?_⟩
    · rcases members r member with rfl | member
      · omega
      · exact wf.separated.1 r (sublist.subset member)
    · simp only [count, length_append, length_cons, length_take,
        length_drop]
      omega
    · intro r member
      rcases members r member with rfl | member
      · exact upper
      · exact wf.within r (sublist.subset member)
    · rintro offset ⟨r, member, low, high⟩
      rcases members r member with rfl | member
      · exact covers offset low high
      · exact Or.inr ⟨r, sublist.subset member, low, high⟩

/-- A range that starts at offset 0 is refused exactly when all four ranges
are held and it does not reach the first of them. -/
theorem add_zero_refused_iff {a : Assembler} {limit stop : ℕ} (wf : a.WellFormed limit) :
    (a.add 0 stop).2 = false ↔
      a.count = maxRanges ∧ ∀ r ∈ a.ranges.head?, stop < r.1 := by
  have sublist := absorb_sublist (0, stop) a.ranges
  have refusal : (a.add 0 stop).2 = false ↔
      (absorb (0, stop) a.ranges).2.length = maxRanges := by
    simp only [add]
    split <;> simp_all
  rw [refusal]
  constructor
  · intro full
    have same : (absorb (0, stop) a.ranges).2 = a.ranges :=
      sublist.eq_of_length (le_antisymm sublist.length_le (full ▸ wf.count_le))
    refine ⟨by rw [count, ← same, full], ?_⟩
    cases ranges : a.ranges with
    | nil => simp
    | cons r others =>
      intro s member
      obtain rfl : r = s := by simpa using member
      rw [ranges] at same
      by_contra reaches
      have shorter := (absorb_sublist (min 0 r.1, max stop r.2) others).length_le
      simp only [absorb, if_neg (show ¬(r.2 < 0 ∨ stop < r.1) by omega)] at same
      rw [same, length_cons] at shorter
      omega
  · rintro ⟨full, gap⟩
    have all : ∀ r ∈ a.ranges, stop < r.1 := by
      cases ranges : a.ranges with
      | nil => simp
      | cons r others =>
        have first : stop < r.1 := gap r (by simp [ranges])
        have separated := ranges ▸ wf.separated
        intro s member
        rcases mem_cons.mp member with rfl | member
        · exact first
        · have := (pairwise_cons.mp separated.2).1 s member
          have := separated.1 r mem_cons_self
          omega
    rw [absorb_of_beyond all]
    exact full

theorem takeFront_add_zero {a : Assembler} {limit stop : ℕ} (wf : a.WellFormed limit)
    (taken : (a.add 0 stop).2 = true) : stop ≤ ((a.add 0 stop).1.takeFront).2 := by
  have contains := absorb_contains (0, stop) a.ranges
  have sublist := absorb_sublist (0, stop) a.ranges
  simp only [add] at taken ⊢
  generalize absorb (0, stop) a.ranges = result at *
  obtain ⟨merged, kept⟩ := result
  simp only at contains sublist taken ⊢
  split at taken
  · cases taken
  · rename_i room
    rw [if_neg room]
    have front : merged.1 = 0 := by omega
    have first : (kept.findIdx fun r => merged.1 < r.1) = 0 := by
      cases kept with
      | nil => rfl
      | cons r others =>
        have := wf.past_gap r (sublist.subset mem_cons_self)
        rw [findIdx_cons]
        simp [front, this]
    rw [first]
    simpa [takeFront, front] using contains.2

theorem takeFront_spec {a : Assembler} {limit : ℕ} (separated : Separated a.ranges)
    (count_le : a.count ≤ maxRanges) (within : ∀ r ∈ a.ranges, r.2 ≤ limit) :
    a.takeFront.1.WellFormed (limit - a.takeFront.2) ∧ a.takeFront.2 ≤ limit ∧
      (∀ offset < a.takeFront.2, Holds a.ranges offset) ∧
      (∀ offset, Holds a.takeFront.1.ranges offset →
        Holds a.ranges (offset + a.takeFront.2)) := by
  simp only [takeFront]
  cases ranges : a.ranges with
  | nil =>
    simp only [ranges, Nat.sub_zero]
    refine ⟨⟨ranges ▸ separated, count_le, by simp [ranges], by simp [ranges]⟩, ?_⟩
    simp [Holds]
  | cons r others =>
    obtain ⟨s, n⟩ := r
    rw [ranges] at separated within
    have later := (pairwise_cons.mp separated.2).1
    have firstNonempty := separated.1 (s, n) mem_cons_self
    have firstWithin := within (s, n) mem_cons_self
    simp only at firstNonempty firstWithin later
    by_cases front : s = 0
    · subst front
      simp only [ne_eq, not_true_eq_false, if_false]
      refine ⟨⟨⟨?_, ?_⟩, ?_, ?_, ?_⟩, firstWithin, ?_, ?_⟩
      · intro t member
        obtain ⟨r, rMember, rfl⟩ := mem_map.mp member
        have := later r rMember
        have := separated.tail.1 r rMember
        simp only
        omega
      · refine List.Pairwise.map _ ?_ (List.Pairwise.and_mem.mp separated.tail.2)
        rintro r t ⟨rMember, tMember, ordered⟩
        have := later r rMember
        have := later t tMember
        have := separated.tail.1 r rMember
        simp only
        omega
      · simp only [count, ranges, length_cons, length_map] at count_le ⊢
        omega
      · intro t member
        obtain ⟨r, rMember, rfl⟩ := mem_map.mp member
        have := later r rMember
        simp only
        omega
      · intro t member
        obtain ⟨r, rMember, rfl⟩ := mem_map.mp member
        have := within r (mem_cons_of_mem _ rMember)
        simp only
        omega
      · intro offset bound
        exact ⟨(0, n), mem_cons_self, Nat.zero_le _, bound⟩
      · rintro offset ⟨t, member, low, high⟩
        obtain ⟨r, rMember, rfl⟩ := mem_map.mp member
        have := later r rMember
        exact ⟨r, mem_cons_of_mem _ rMember, by simp only at low; omega,
          by simp only at high; omega⟩
    · simp only [ne_eq, front, not_false_eq_true, if_true, Nat.sub_zero, ranges]
      refine ⟨⟨ranges ▸ separated, count_le, ?_, ?_⟩, Nat.zero_le _, by simp, fun _ held => held⟩
      · intro t member
        rw [ranges] at member
        rcases mem_cons.mp member with rfl | member
        · simp only
          omega
        · have := later t member
          omega
      · intro t member
        exact within t (ranges ▸ member)

end Assembler

end EspDevkit.Net
