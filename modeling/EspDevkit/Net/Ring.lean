import EspDevkit.Library.Splice
import Mathlib.Algebra.Group.Nat.Defs
import Mathlib.Data.List.Basic
import Mathlib.Tactic.Common

/-!
# The byte ring under sockets

A buffer that grows up to its capacity as bytes arrive.  Offsets count from
the oldest byte held; bytes may be written past the held ones before they are
committed, which is how out-of-order data waits for the gap before it.

The memory is described by `unrolled`, the backing bytes in the order of their
offsets.
-/

namespace EspDevkit.Net

open List

/-- The largest allocation a vector takes with a `usize` of 32 bits. -/
def isizeMax : ℕ := 2 ^ 31 - 1

/-- `dst[start..start + src.len()].copy_from_slice(src)`. -/
def overwrite {α : Type} (dst : List α) (start : ℕ) (src : List α) : List α :=
  dst.take start ++ src ++ dst.drop (start + src.length)

variable {α : Type}

@[simp]
theorem overwrite_nil (dst : List α) (start : ℕ) :
    overwrite dst start [] = dst := by
  simp [overwrite]

theorem length_overwrite {dst src : List α} {start : ℕ}
    (fits : start + src.length ≤ dst.length) :
    (overwrite dst start src).length = dst.length :=
  Splice.length_splice fits

theorem getElem?_overwrite {dst src : List α} {start : ℕ}
    (fits : start + src.length ≤ dst.length) (i : ℕ) :
    (overwrite dst start src)[i]? =
      if start ≤ i ∧ i < start + src.length then src[i - start]? else dst[i]? :=
  Splice.getElem?_splice fits i

structure Ring where
  data : List UInt8
  capacity : ℕ
  head : ℕ
  len : ℕ
  deriving DecidableEq, Repr

namespace Ring

def new (capacity : ℕ) : Ring :=
  { data := [], capacity, head := 0, len := 0 }

def free (r : Ring) : ℕ := r.capacity - r.len

/-- `at` of the source: where the byte at `offset` is kept. -/
def index (r : Ring) (offset : ℕ) : ℕ :=
  let cap := r.data.length
  let i := r.head + offset
  if cap ≤ i then i - cap else i

/-- Room for `stop` bytes past the oldest; doubling, then exactly `stop` when
doubling does not fit in memory.  `fits` is what the allocator answers. -/
def reserve (fits : ℕ → Bool) (r : Ring) (stop : ℕ) : Ring × Bool :=
  let old := r.data.length
  if stop ≤ old then (r, true) else
  let doubled := min (max (old * 2) stop) r.capacity
  match [doubled, stop].find? (fun n => decide (n ≤ isizeMax) && fits n) with
  | none => (r, false)
  | some new =>
    let data := r.data ++ List.replicate (new - old) 0
    let rotated := (data.take old).drop r.head ++ (data.take old).take r.head
    ({ r with data := rotated ++ data.drop old, head := 0 }, true)

/-- Copies `src` to `offset` past the held bytes, without holding it yet.
`false` when there was no memory for it. -/
def writeFree (fits : ℕ → Bool) (r : Ring) (offset : ℕ) (src : List UInt8) :
    Ring × Bool :=
  if src.isEmpty then (r, true) else
  match r.reserve fits (r.len + offset + src.length) with
  | (r, false) => (r, false)
  | (r, true) =>
    let cap := r.data.length
    let start := r.index (r.len + offset)
    let first := min src.length (cap - start)
    let data := overwrite r.data start (src.take first)
    ({ r with data := overwrite data 0 (src.drop first) }, true)

/-- Holds `n` more bytes, written by `writeFree` at offset 0. -/
def commit (r : Ring) (n : ℕ) : Ring :=
  { r with len := r.len + n }

/-- As much of `src` as fits, in capacity and then in memory. -/
def push (fits : ℕ → Bool) (r : Ring) (src : List UInt8) : Ring × ℕ :=
  let n := min src.length r.free
  let (r, n) :=
    match r.reserve fits (r.len + n) with
    | (r, true) => (r, n)
    | (r, false) => (r, r.data.length - r.len)
  (((r.writeFree fits 0 (src.take n)).1).commit n, n)

/-- The held bytes from `offset`, as many as there are, `room` at most. -/
def readAt (r : Ring) (offset room : ℕ) : List UInt8 :=
  let n := min room (r.len - offset)
  if n = 0 then [] else
  let cap := r.data.length
  let start := r.index offset
  let first := min n (cap - start)
  (r.data.drop start).take first ++ r.data.take (n - first)

def discard (r : Ring) (n : ℕ) : Ring :=
  if 0 < n then { r with head := r.index n, len := r.len - n } else r

/-- Takes `n` bytes and copies as many of them as fit into `room`. -/
def pop (r : Ring) (n room : ℕ) : Ring × List UInt8 :=
  let copy := min n room
  (r.discard n, r.readAt 0 copy)

/-- What every operation keeps: the held bytes lie within the memory, the
memory within the capacity, and the head points into the memory. -/
structure WellFormed (r : Ring) : Prop where
  len_le : r.len ≤ r.data.length
  data_le : r.data.length ≤ r.capacity
  head_lt : r.head < r.data.length ∨ r.head = 0
  data_le_isizeMax : r.data.length ≤ isizeMax

theorem wellFormed_new (capacity : ℕ) : (new capacity).WellFormed :=
  ⟨Nat.le_refl _, Nat.zero_le _, Or.inr rfl, Nat.zero_le _⟩

variable {r : Ring} {n : ℕ}

theorem WellFormed.of_data (wf : r.WellFormed) {data : List UInt8}
    (same : data.length = r.data.length) : ({ r with data := data } : Ring).WellFormed where
  len_le := by simpa [same] using wf.len_le
  data_le := by simpa [same] using wf.data_le
  head_lt := by simpa [same] using wf.head_lt
  data_le_isizeMax := by simpa [same] using wf.data_le_isizeMax

/-- The backing bytes in the order of their offsets. -/
def unrolled (r : Ring) : List UInt8 :=
  r.data.drop r.head ++ r.data.take r.head

def contents (r : Ring) : List UInt8 :=
  r.unrolled.take r.len

@[simp]
theorem length_unrolled (r : Ring) : r.unrolled.length = r.data.length := by
  simp only [unrolled, length_append, length_drop, length_take]
  omega

theorem length_contents (wf : r.WellFormed) : r.contents.length = r.len := by
  have := wf.len_le
  simp only [contents, length_take, length_unrolled]
  omega

theorem index_lt (wf : r.WellFormed) {offset : ℕ}
    (within : offset < r.data.length) : r.index offset < r.data.length := by
  have := wf.head_lt
  simp only [index]
  split <;> omega

theorem WellFormed.head_le (wf : r.WellFormed) : r.head ≤ r.data.length := by
  rcases wf.head_lt with inside | zero <;> omega

theorem reserve_of_le {fits : ℕ → Bool} {stop : ℕ}
    (enough : stop ≤ r.data.length) : r.reserve fits stop = (r, true) := by
  simp [reserve, enough]

/-- A reservation either leaves the ring alone and fails, or lays the memory
out anew and appends zeros to it. -/
theorem reserve_cases (fits : ℕ → Bool) (wf : r.WellFormed) {stop : ℕ}
    (bounded : stop ≤ r.capacity) :
    (r.reserve fits stop = (r, false) ∧ r.data.length < stop) ∨
      ∃ (grown : Ring) (zeros : ℕ),
        r.reserve fits stop = (grown, true) ∧ grown.WellFormed ∧
        grown.unrolled = r.unrolled ++ List.replicate zeros 0 ∧
        grown.len = r.len ∧ grown.capacity = r.capacity ∧
        stop ≤ grown.data.length := by
  by_cases enough : stop ≤ r.data.length
  · refine Or.inr ⟨r, 0, reserve_of_le enough, wf, by simp, rfl, rfl, enough⟩
  · simp only [reserve, if_neg enough]
    generalize doubledEq : min (max (r.data.length * 2) stop) r.capacity = doubled
    have old := wf.data_le
    cases found : [doubled, stop].find? (fun n => decide (n ≤ isizeMax) && fits n) with
    | none => exact Or.inl ⟨rfl, by omega⟩
    | some new =>
      have member : new = doubled ∨ new = stop := by
        simpa using mem_of_find?_eq_some found
      have accepted := List.find?_some found
      simp only [Bool.and_eq_true, decide_eq_true_eq] at accepted
      have grows : stop ≤ new ∧ new ≤ r.capacity := by
        rcases member with rfl | rfl <;> omega
      have head := wf.head_lt
      have held := wf.len_le
      refine Or.inr ⟨_, new - r.data.length, rfl, ?_, ?_, rfl, rfl, ?_⟩
      · constructor
        · simp only [length_append, length_drop, length_take,
            length_replicate]
          omega
        · simp only [length_append, length_drop, length_take,
            length_replicate]
          omega
        · exact Or.inr rfl
        · simp only [length_append, length_drop, length_take,
            length_replicate]
          omega
      · simp [unrolled]
      · simp only [length_append, length_drop, length_take,
          length_replicate]
        omega

theorem unrolled_overwrite (wf : r.WellFormed) (offset : ℕ)
    {src : List UInt8} (fits : offset + src.length ≤ r.data.length) :
    let start := r.index offset
    let first := min src.length (r.data.length - start)
    let data := overwrite (overwrite r.data start (src.take first)) 0 (src.drop first)
    { r with data := data }.unrolled = overwrite r.unrolled offset src ∧
      data.length = r.data.length :=
  Splice.turned_splice wf.head_le fits

/-- A write past the held bytes either finds no memory and changes nothing, or
overwrites the unrolled memory, grown by zeros, at its offset. -/
theorem writeFree_cases (fits : ℕ → Bool) (wf : r.WellFormed)
    (offset : ℕ) (src : List UInt8)
    (bounded : r.len + offset + src.length ≤ r.capacity) :
    (r.writeFree fits offset src = (r, false) ∧
        r.data.length < r.len + offset + src.length) ∨
      ∃ (written : Ring) (zeros : ℕ),
        r.writeFree fits offset src = (written, true) ∧ written.WellFormed ∧
        written.unrolled =
          overwrite (r.unrolled ++ List.replicate zeros 0) (r.len + offset) src ∧
        written.len = r.len ∧ written.capacity = r.capacity ∧
        written.data.length = r.data.length + zeros ∧
        (src ≠ [] → r.len + offset + src.length ≤ written.data.length) := by
  by_cases empty : src = []
  · subst empty
    exact Or.inr ⟨r, 0, by simp [writeFree], wf, by simp, rfl, rfl, by simp, by simp⟩
  · have nonempty : src.isEmpty = false := by simpa using empty
    simp only [writeFree, nonempty, Bool.false_eq_true, if_false]
    rcases reserve_cases fits wf bounded with
      ⟨failed, short⟩ | ⟨grown, zeros, reserved, grownWf, layout, len, capacity, room⟩
    · rw [failed]
      exact Or.inl ⟨rfl, short⟩
    · rw [reserved]
      have within : grown.len + offset + src.length ≤ grown.data.length := by omega
      have writes := unrolled_overwrite grownWf (grown.len + offset) within
      rw [layout] at writes
      have grows : grown.data.length = r.data.length + zeros := by
        simpa using congrArg List.length layout
      refine Or.inr ⟨_, zeros, rfl, grownWf.of_data writes.2,
        by simpa [len] using writes.1, len, capacity, writes.2.trans grows, fun _ => ?_⟩
      simpa [writes.2] using room

theorem commit_wellFormed (wf : r.WellFormed)
    (written : r.len + n ≤ r.data.length) : (r.commit n).WellFormed :=
  ⟨written, wf.data_le, wf.head_lt, wf.data_le_isizeMax⟩

@[simp]
theorem unrolled_commit (r : Ring) (n : ℕ) : (r.commit n).unrolled = r.unrolled :=
  rfl

theorem contents_commit (r : Ring) (n : ℕ) :
    (r.commit n).contents = r.contents ++ (r.unrolled.drop r.len).take n := by
  simp only [contents, commit, unrolled]
  rw [take_add]

theorem readAt_eq (wf : r.WellFormed) (offset room : ℕ) :
    r.readAt offset room = (r.contents.drop offset).take room := by
  have held := wf.len_le
  have contentsLen := length_contents wf
  by_cases none : min room (r.len - offset) = 0
  · rw [readAt, if_pos none, eq_comm, take_eq_nil_iff, drop_eq_nil_iff]
    omega
  · have read : r.readAt offset room =
        (r.unrolled.drop offset).take (min room (r.len - offset)) := by
      rw [readAt, if_neg none]
      exact Splice.slice_turned wf.head_le (by omega)
    rw [read, contents, drop_take, take_take]

theorem unrolled_discard (wf : r.WellFormed) (held : n ≤ r.len) :
    (r.discard n).unrolled = r.unrolled.drop n ++ r.unrolled.take n ∧
      (r.discard n).WellFormed := by
  have lenLe := wf.len_le
  have head := wf.head_lt
  by_cases positive : 0 < n
  · have turns : (r.discard n).unrolled = r.unrolled.drop n ++ r.unrolled.take n := by
      rw [discard, if_pos positive]
      by_cases whole : n = r.data.length
      · have start : r.index n = r.head := by
          rw [index, if_pos (by omega)]
          omega
        rw [unrolled, start, ← unrolled, drop_of_length_le (by rw [length_unrolled]; omega),
          take_of_length_le (by rw [length_unrolled]; omega), nil_append]
        rfl
      · exact Splice.turned_placeAt wf.head_le (by omega)
    refine ⟨turns, ?_⟩
    rw [discard, if_pos positive]
    refine ⟨Nat.le_trans (Nat.sub_le r.len n) lenLe, wf.data_le, ?_, wf.data_le_isizeMax⟩
    simp only [index]
    split <;> omega
  · have zero : n = 0 := by omega
    subst zero
    simp [discard, wf]

theorem len_discard : (r.discard n).len = r.len - n := by
  simp only [discard]
  split
  · rfl
  · omega

theorem capacity_discard : (r.discard n).capacity = r.capacity := by
  simp only [discard]
  split <;> rfl

theorem contents_discard (wf : r.WellFormed) (held : n ≤ r.len) :
    (r.discard n).contents = r.contents.drop n := by
  have lenLe := wf.len_le
  rw [contents, (unrolled_discard wf held).1, len_discard, contents, drop_take,
    take_append_of_le_length]
  rw [length_drop, length_unrolled]
  omega

/-- Pushing appends a prefix of `src`: all that fits, in capacity and then in
memory. -/
theorem push_cases (fits : ℕ → Bool) (wf : r.WellFormed) (src : List UInt8) :
    ∃ (pushed : Ring) (n : ℕ),
      r.push fits src = (pushed, n) ∧ pushed.WellFormed ∧ n ≤ src.length ∧
      pushed.contents = r.contents ++ src.take n ∧ pushed.len = r.len + n ∧
      pushed.capacity = r.capacity := by
  have lenLe := wf.len_le
  have dataLe := wf.data_le
  have finish : ∀ (grown : Ring) (n zeros : ℕ), grown.WellFormed →
      grown.unrolled = r.unrolled ++ List.replicate zeros 0 → grown.len = r.len →
      grown.capacity = r.capacity → n ≤ src.length → r.len + n ≤ grown.data.length →
      ((((grown.writeFree fits 0 (src.take n)).1).commit n).WellFormed ∧
        (((grown.writeFree fits 0 (src.take n)).1).commit n).contents =
          r.contents ++ src.take n ∧
        (((grown.writeFree fits 0 (src.take n)).1).commit n).len = r.len + n ∧
        (((grown.writeFree fits 0 (src.take n)).1).commit n).capacity = r.capacity) := by
    intro grown n zeros grownWf layout len capacity short room
    have takenLen : (src.take n).length = n := by
      rw [length_take]
      omega
    have grownLe := grownWf.data_le
    rcases writeFree_cases fits grownWf 0 (src.take n)
        (by omega) with ⟨_, noRoom⟩ | ⟨written, more, wrote, writtenWf, layout', len', capacity', _, room'⟩
    · omega
    · rw [wrote]
      have fitsMemory : written.len + n ≤ written.data.length := by
        by_cases none : n = 0
        · have := writtenWf.len_le
          omega
        · have := room' (by intro nil; rw [nil] at takenLen; simp at takenLen; omega)
          omega
      refine ⟨commit_wellFormed writtenWf fitsMemory, ?_, by simp [commit, len', len],
        by simp [commit, capacity', capacity]⟩
      have unrolledLen := length_unrolled r
      have grownLen : r.data.length + zeros = grown.data.length := by
        have := congrArg List.length layout
        simpa using this.symm
      rw [contents_commit, contents, layout', layout, contents, len', len]
      simp only [overwrite, Nat.add_zero]
      rw [take_append_of_le_length (by
          simp only [length_append, length_take, length_replicate]
          omega),
        take_append_of_le_length (by
          simp only [length_take, length_append, length_replicate]
          omega),
        take_take, Nat.min_self, append_assoc, append_assoc,
        take_append_of_le_length (by rw [unrolledLen]; omega)]
      congr 1
      rw [drop_append_of_le_length (by
          rw [length_take]
          omega)]
      have cut : (r.unrolled.take r.len).drop r.len = [] := by
        rw [drop_eq_nil_iff, length_take]
        omega
      rw [cut, nil_append, take_append_of_le_length (by omega),
        take_take, Nat.min_self]
  simp only [push]
  have freeEq : r.free = r.capacity - r.len := rfl
  rcases reserve_cases fits wf
      (show r.len + min src.length r.free ≤ r.capacity by omega) with
    ⟨failed, short⟩ | ⟨grown, zeros, reserved, grownWf, layout, len, capacity, room⟩
  · rw [failed]
    obtain ⟨resultWf, resultContents, resultLen, resultCapacity⟩ :=
      finish r (r.data.length - r.len) 0 wf (by simp) rfl rfl (by omega) (by omega)
    exact ⟨_, r.data.length - r.len, rfl, resultWf, by omega, resultContents, resultLen,
      resultCapacity⟩
  · rw [reserved]
    obtain ⟨resultWf, resultContents, resultLen, resultCapacity⟩ :=
      finish grown (min src.length r.free) zeros grownWf layout len capacity
        (by omega) room
    exact ⟨_, min src.length r.free, rfl, resultWf, by omega, resultContents, resultLen,
      resultCapacity⟩

end Ring

end EspDevkit.Net
