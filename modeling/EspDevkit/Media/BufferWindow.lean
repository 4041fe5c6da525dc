import EspDevkit.Library.CircularWindow
import EspDevkit.Media.Buffer

/-!
# The window of filled chunks

The chunks filled are a window on the ring, which grows where the read-ahead
task writes.
-/

namespace EspDevkit.Media

open CircularWindow

theorem chunkBytes_pos : 0 < chunkBytes := by decide

theorem alignDown_le (value : ℕ) : alignDown value ≤ value := Nat.div_mul_le_self _ _

theorem alignDown_mod (value : ℕ) : alignDown value % chunkBytes = 0 := Nat.mul_mod_left _ _

theorem lt_alignDown (value : ℕ) : value < alignDown value + chunkBytes :=
  Nat.lt_div_mul_add chunkBytes_pos

theorem alignDown_eq {base value : ℕ} (aligned : base % chunkBytes = 0) (le : base ≤ value)
    (lt : value < base + chunkBytes) : alignDown value = base := by
  obtain ⟨k, rfl⟩ := Nat.dvd_of_mod_eq_zero aligned
  have index : value / chunkBytes = k := by
    rw [Nat.div_eq_of_lt_le]
    · rwa [Nat.mul_comm]
    · rwa [Nat.add_mul, Nat.one_mul, Nat.mul_comm k]
  rw [alignDown, index, Nat.mul_comm]

theorem chunk_add_offset (value : ℕ) :
    chunkIndex value * chunkBytes + chunkOffset value = value := Nat.div_add_mod' _ _

theorem chunkOffset_lt (value : ℕ) : chunkOffset value < chunkBytes :=
  Nat.mod_lt _ chunkBytes_pos

theorem chunk_same {x i : ℕ} (lt : chunkOffset x + i < chunkBytes) :
    chunkIndex (x + i) = chunkIndex x ∧ chunkOffset (x + i) = chunkOffset x + i := by
  unfold chunkIndex chunkOffset chunkBytes at *
  omega

section

variable {memory bytes : ℕ → UInt8} {start count address : ℕ}

theorem put_in (first : start ≤ address) (last : address < start + count) :
    put memory start count bytes address = bytes (address - start) := if_pos ⟨first, last⟩

theorem put_out (outside : address < start ∨ start + count ≤ address) :
    put memory start count bytes address = memory address := by
  apply if_neg
  omega

@[simp]
theorem length_bytesAt : (bytesAt bytes start count).length = count := by simp [bytesAt]

theorem bytesAt_append
    (more : ℕ) : bytesAt bytes start count ++ bytesAt bytes (start + count) more =
    bytesAt bytes start (count + more) := by
  simp [bytesAt, List.range_add, Nat.add_assoc]

theorem bytesAt_congr {other : ℕ → UInt8} {there : ℕ}
    (same : ∀ i < count, bytes (start + i) = other (there + i)) :
    bytesAt bytes start count = bytesAt other there count :=
  List.map_congr_left fun i member => same i (List.mem_range.mp member)

end

structure Window where
  base : ℕ
  head : ℕ
  filled : ℕ

def State.window (s : State) : Window := ⟨s.base, s.head, s.filled⟩

namespace Window

def next (window : Window) (ringChunks : ℕ) : ℕ := place ringChunks window.head window.filled

structure Sound (window : Window) (ringChunks : ℕ) : Prop where
  head : window.head < ringChunks
  base : window.base % chunkBytes = 0

structure Dropped (ringChunks : ℕ) (before after : Window) : Prop where
  next : after.next ringChunks = before.next ringChunks
  filled : after.filled ≤ before.filled
  shift : after.filled = 0 ∨ ∃ k, before.filled = k + after.filled ∧
    after.head = place ringChunks before.head k ∧ after.base = before.base + k * chunkBytes

end Window

namespace State

variable {s : State} {ringChunks : ℕ}

theorem consume_spec {cursor : ℕ} (filled base head : ℕ) (le : base ≤ cursor)
    (bound : head < ringChunks) : ∃ k,
      (consume ringChunks cursor base head filled).1 = base + k * chunkBytes ∧
      (consume ringChunks cursor base head filled).2.1 = place ringChunks head k ∧
      filled = k + (consume ringChunks cursor base head filled).2.2 ∧
      base + k * chunkBytes ≤ cursor ∧
      ((consume ringChunks cursor base head filled).2.2 = 0 ∨
        cursor < base + k * chunkBytes + chunkBytes) := by
  induction filled generalizing base head with
  | zero =>
    exact ⟨0, by simp [consume], by simp [consume, place, Nat.mod_eq_of_lt bound], rfl,
      by simpa using le, .inl rfl⟩
  | succ filled ih =>
    rw [consume]
    split
    · rename_i passed
      obtain ⟨k, first, second, count, below, last⟩ := ih (base + chunkBytes)
        ((head + 1) % ringChunks) passed (Nat.mod_lt _ (Nat.zero_lt_of_lt bound))
      refine ⟨k + 1, ?_, ?_, by omega, ?_, ?_⟩
      · rw [first, Nat.add_mul]
        omega
      · rw [second]
        exact (place_place head 1 k).trans (by rw [Nat.add_comm])
      · rw [Nat.add_mul]
        omega
      · rw [Nat.add_mul]
        omega
    · rename_i still
      exact ⟨0, by simp, by simp [place, Nat.mod_eq_of_lt bound], by simp, by simpa using le,
        .inr (by simpa using still)⟩

theorem restartWindow_dropped (s : State) (ringChunks : ℕ) :
    Window.Dropped ringChunks s.window (s.restartWindow ringChunks).window :=
  ⟨Nat.mod_mod _ _, Nat.zero_le _, .inl rfl⟩

theorem restartWindow_sound (pos : 0 < ringChunks) :
    (s.restartWindow ringChunks).window.Sound ringChunks :=
  ⟨Nat.mod_lt _ pos, alignDown_mod _⟩

theorem dropConsumed_spec (sound : s.window.Sound ringChunks) :
    Window.Dropped ringChunks s.window (s.dropConsumed ringChunks).window ∧
      (s.dropConsumed ringChunks).window.Sound ringChunks ∧
      (s.dropConsumed ringChunks).base = alignDown s.cursor := by
  have pos : 0 < ringChunks := Nat.zero_lt_of_lt sound.head
  unfold dropConsumed
  split
  · exact ⟨s.restartWindow_dropped ringChunks, restartWindow_sound pos, rfl⟩
  · rename_i ahead
    obtain ⟨k, base, head, count, below, last⟩ :=
      consume_spec s.filled s.base s.head (Nat.le_of_not_lt ahead) sound.head
    generalize consume ringChunks s.cursor s.base s.head s.filled = after at *
    obtain ⟨base', head', filled'⟩ := after
    dsimp only at *
    subst base head
    have aligned : (s.base + k * chunkBytes) % chunkBytes = 0 :=
      (Nat.add_mul_mod_self_right _ _ _).trans sound.base
    have next : place ringChunks (place ringChunks s.head k) filled' =
        place ringChunks s.head s.filled := by
      rw [place_place, ← count]
    have fewer : filled' ≤ s.filled := by omega
    by_cases empty : filled' = 0
    · rw [if_pos empty]
      exact ⟨⟨next, fewer, .inl empty⟩, ⟨place_lt pos _ _, alignDown_mod _⟩, rfl⟩
    · rw [if_neg empty]
      exact ⟨⟨next, fewer, .inr ⟨k, count, rfl, rfl⟩⟩, ⟨place_lt pos _ _, aligned⟩,
        (alignDown_eq aligned below (last.resolve_left empty)).symm⟩

theorem dropConsumed_frame (s : State) (ringChunks : ℕ) :
    ∃ base head filled, s.dropConsumed ringChunks = { s with base, head, filled } := by
  unfold dropConsumed
  split
  · exact ⟨_, _, _, rfl⟩
  · exact ⟨_, _, _, rfl⟩

theorem waitFor_cases (s : State) (ringChunks finish : ℕ) :
    (s.waitFor ringChunks finish = (.ready, s.dropConsumed ringChunks) ∧
        finish ≤ (s.dropConsumed ringChunks).filledEnd) ∨
      s.waitFor ringChunks finish = (.failed, s.dropConsumed ringChunks) ∨
      s.waitFor ringChunks finish =
          (.again,
            { s.dropConsumed ringChunks with
              want := max (s.dropConsumed ringChunks).want
                (chunksUp (finish - (s.dropConsumed ringChunks).base)) }) ∧
        (s.dropConsumed ringChunks).filledEnd < finish ∧ s.readahead ∧ ¬ s.ioError ∧
        ¬ s.interrupted := by
  obtain ⟨base, head, filled, frame⟩ := s.dropConsumed_frame ringChunks
  unfold waitFor
  rw [frame]
  by_cases there : finish ≤ base + filled * chunkBytes
  · exact .inl ⟨if_pos there, there⟩
  · by_cases fails : (!s.readahead || s.ioError || s.interrupted) = true
    · exact .inr (.inl ((if_neg there).trans (if_pos fails)))
    · refine .inr (.inr ⟨(if_neg there).trans (if_neg fails), Nat.lt_of_not_le there, ?_⟩)
      simpa [and_assoc] using fails

end State

variable {shared : Shared} {memory : ℕ → UInt8} {window : Window}

def Shows (shared : Shared) (memory : ℕ → UInt8) (window : Window) : Prop :=
  ∀ i < window.filled, ∀ j < chunkBytes,
    window.base + i * chunkBytes + j < shared.file.size →
      memory (Shared.chunk (place shared.ringChunks window.head i) + j) =
        shared.file.byte (window.base + i * chunkBytes + j)

theorem chunk_apart {one two i : ℕ} (apart : one ≠ two) (lt : i < chunkBytes) :
    Shared.chunk one + i < Shared.chunk two ∨
      Shared.chunk two + chunkBytes ≤ Shared.chunk one + i := by
  unfold Shared.chunk
  rcases Nat.lt_or_gt_of_ne apart with before | after
  · have := Nat.mul_le_mul_right chunkBytes before
    rw [Nat.succ_mul] at this
    omega
  · have := Nat.mul_le_mul_right chunkBytes after
    rw [Nat.succ_mul] at this
    omega

theorem chunk_add_lt_bounce {slot i : ℕ} (bound : slot < shared.ringChunks) (lt : i < chunkBytes) :
    Shared.chunk slot + i < shared.bounce := by
  have := Nat.mul_le_mul_right chunkBytes bound
  rw [Nat.succ_mul] at this
  unfold Shared.chunk Shared.bounce
  omega

namespace Shows

theorem dropped (shows' : Shows shared memory window) {after : Window}
    (dropped : window.Dropped shared.ringChunks after) : Shows shared memory after := by
  intro i lt j within inside
  rcases dropped.shift with empty | ⟨k, count, head, base⟩
  · omega
  · have place : window.base + (k + i) * chunkBytes = after.base + i * chunkBytes := by
      rw [base, Nat.add_mul, Nat.add_assoc]
    have := shows' (k + i) (by omega) j within (by rwa [place])
    rwa [place, ← place_place, ← head] at this

theorem byte (shows' : Shows shared memory window) (position : ℕ) (first : window.base ≤ position)
    (last : position < window.base + window.filled * chunkBytes)
    (inside : position < shared.file.size) :
    memory (Shared.chunk (place shared.ringChunks window.head (chunkIndex (position - window.base))) +
      chunkOffset (position - window.base)) = shared.file.byte position := by
  have split := chunk_add_offset (position - window.base)
  have index : chunkIndex (position - window.base) < window.filled :=
    Nat.div_lt_of_lt_mul (by rw [Nat.mul_comm]; omega)
  rw [shows' _ index _ (chunkOffset_lt (position - window.base)) (by omega)]
  congr 1
  omega

theorem congr (shows' : Shows shared memory window) {memory' : ℕ → UInt8}
    (same : ∀ i < window.filled, ∀ j < chunkBytes,
      memory' (Shared.chunk (place shared.ringChunks window.head i) + j) =
        memory (Shared.chunk (place shared.ringChunks window.head i) + j)) :
    Shows shared memory' window :=
  fun i lt j within inside => (same i lt j within).trans (shows' i lt j within inside)

theorem grow (shows' : Shows shared memory window)
    (filled : ∀ j < shared.wanted (window.base + window.filled * chunkBytes),
      memory (Shared.chunk (window.next shared.ringChunks) + j) =
        shared.file.byte (window.base + window.filled * chunkBytes + j)) :
    Shows shared memory ⟨window.base, window.head, window.filled + 1⟩ := by
  intro i lt j within inside
  rcases Nat.lt_succ_iff_lt_or_eq.mp lt with old | rfl
  · exact shows' i old j within inside
  · refine filled j ?_
    dsimp only at inside
    unfold Shared.wanted
    omega

end Shows

end EspDevkit.Media
