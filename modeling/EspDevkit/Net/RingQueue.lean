import EspDevkit.Net.Ring

/-!
# A ring as a queue with a scratch area

What a ring is for: a queue of bytes, and past its end bytes that were written but are not
held yet.
-/

namespace EspDevkit.Net

open List

/-- The bytes held, and what is known of those past them. -/
structure Queue where
  held : List UInt8
  scratch : ℕ → Option UInt8

namespace Queue

def empty : Queue := ⟨[], fun _ => none⟩

def write (q : Queue) (offset : ℕ) (src : List UInt8) : Queue :=
  { q with
    scratch := fun i =>
      if offset ≤ i ∧ i < offset + src.length then src[i - offset]? else q.scratch i }

/-- The next `n` bytes, all of them written, are held. -/
def commit (q : Queue) (n : ℕ) : Queue :=
  { held := q.held ++ (List.range n).filterMap q.scratch
    scratch := fun i => q.scratch (n + i) }

def discard (q : Queue) (n : ℕ) : Queue := { q with held := q.held.drop n }

end Queue

/-- An operation of a ring; `fits` is what the allocator answers to it. -/
inductive RingOp
  | writeFree (fits : ℕ → Bool) (offset : ℕ) (src : List UInt8)
  | commit (n : ℕ)
  | push (fits : ℕ → Bool) (src : List UInt8)
  | readAt (offset room : ℕ)
  | pop (n room : ℕ)
  | discard (n : ℕ)

inductive RingResult
  | written (done : Bool)
  | pushed (n : ℕ)
  | read (bytes : List UInt8)
  | done

def Ring.step (r : Ring) : RingOp → Ring × RingResult
  | .writeFree fits offset src =>
    let (r, done) := r.writeFree fits offset src
    (r, .written done)
  | .commit n => (r.commit n, .done)
  | .push fits src =>
    let (r, n) := r.push fits src
    (r, .pushed n)
  | .readAt offset room => (r, .read (r.readAt offset room))
  | .pop n room =>
    let (r, bytes) := r.pop n room
    (r, .read bytes)
  | .discard n => (r.discard n, .done)

def Queue.Admits (q : Queue) (capacity : ℕ) : RingOp → Prop
  | .writeFree _ offset src => offset + src.length ≤ capacity - q.held.length
  | .commit n => ∀ i < n, (q.scratch i).isSome
  | .pop n _ | .discard n => n ≤ q.held.length
  | .push _ _ | .readAt _ _ => True

/-- The allocator refuses a memory that is not too large for the ring. -/
def Refuses (fits : ℕ → Bool) (capacity : ℕ) : Prop :=
  ∃ n ≤ capacity, isizeMax < n ∨ fits n = false

/-- What an operation may give: less than was asked for only where there is no memory. -/
def Queue.Gives (q : Queue) (capacity : ℕ) : RingOp → RingResult → Prop
  | .writeFree fits _ _, .written done => done = true ∨ Refuses fits capacity
  | .push fits src, .pushed n =>
    n ≤ min src.length (capacity - q.held.length) ∧
      (n = min src.length (capacity - q.held.length) ∨ Refuses fits capacity)
  | .readAt offset room, .read bytes => bytes = (q.held.drop offset).take room
  | .pop n room, .read bytes => bytes = q.held.take (min n room)
  | .commit _, .done | .discard _, .done => True
  | _, _ => False

def Queue.after (q : Queue) : RingOp → RingResult → Queue
  | .writeFree _ offset src, .written true => q.write offset src
  | .commit n, _ => q.commit n
  | .push _ src, .pushed n => (q.write 0 (src.take n)).commit n
  | .pop n _, _ | .discard n, _ => q.discard n
  | _, _ => q

namespace Ring

/-- The indices and the subtractions of an operation: in each pair the first may not
exceed the second. -/
def reserveBounds (fits : ℕ → Bool) (r : Ring) (stop : ℕ) : List (ℕ × ℕ) :=
  let old := r.data.length
  if stop ≤ old then []
  else
    let doubled := min (max (old * 2) stop) r.capacity
    [(old, doubled), (old, stop), (old, (r.reserve fits stop).1.data.length), (r.head, old)]

def writeFreeBounds (fits : ℕ → Bool) (r : Ring) (offset : ℕ) (src : List UInt8) : List (ℕ × ℕ) :=
  if src.isEmpty then []
  else
    reserveBounds fits r (r.len + offset + src.length) ++
      match r.reserve fits (r.len + offset + src.length) with
      | (_, false) => []
      | (r, true) =>
        let cap := r.data.length
        let start := r.index (r.len + offset)
        let first := min src.length (cap - start)
        [(start, cap), (start + first, cap), (first, src.length), (src.length - first, cap)]

def readAtBounds (r : Ring) (offset room : ℕ) : List (ℕ × ℕ) :=
  let n := min room (r.len - offset)
  if n = 0 then []
  else
    let cap := r.data.length
    let start := r.index offset
    let first := min n (cap - start)
    [(start, cap), (start + first, cap), (first, n), (n, room), (n - first, cap)]

def pushBounds (fits : ℕ → Bool) (r : Ring) (src : List UInt8) : List (ℕ × ℕ) :=
  let n := min src.length r.free
  let (grown, m) :=
    match r.reserve fits (r.len + n) with
    | (r, true) => (r, n)
    | (r, false) => (r, r.data.length - r.len)
  [(r.len, r.capacity), (grown.len, grown.data.length), (m, src.length)] ++
    reserveBounds fits r (r.len + n) ++ writeFreeBounds fits grown 0 (src.take m)

def bounds (r : Ring) : RingOp → List (ℕ × ℕ)
  | .writeFree fits offset src => writeFreeBounds fits r offset src
  | .push fits src => pushBounds fits r src
  | .readAt offset room => readAtBounds r offset room
  | .pop n room => (n, r.len) :: readAtBounds r 0 (min n room)
  | .discard n => [(n, r.len)]
  | .commit _ => []

def InRange (bounds : List (ℕ × ℕ)) : Prop := ∀ pair ∈ bounds, pair.1 ≤ pair.2

theorem reserveBounds_inRange (fits : ℕ → Bool) {r : Ring} (wf : r.WellFormed) {stop : ℕ}
    (bounded : stop ≤ r.capacity) : InRange (reserveBounds fits r stop) := by
  have head := wf.head_lt
  have data := wf.data_le
  unfold reserveBounds
  dsimp only
  split
  · nofun
  · next more =>
      have grown : r.data.length ≤ (r.reserve fits stop).1.data.length := by
        rcases reserve_cases fits wf bounded with
          ⟨failed, -⟩ | ⟨grown, zeros, done, -, -, -, -, room⟩
        · exact Nat.le_of_eq (by rw [failed])
        · rw [done]
          dsimp only
          omega
      intro pair mem
      simp only [mem_cons, not_mem_nil, or_false] at mem
      rcases mem with rfl | rfl | rfl | rfl <;> dsimp only <;> omega

theorem writeFreeBounds_inRange (fits : ℕ → Bool) {r : Ring} (wf : r.WellFormed) (offset : ℕ)
    (src : List UInt8) (bounded : r.len + offset + src.length ≤ r.capacity) :
    InRange (writeFreeBounds fits r offset src) := by
  have reserved := reserveBounds_inRange fits wf bounded
  unfold writeFreeBounds
  split
  · nofun
  · next some =>
      intro pair mem
      rcases mem_append.mp mem with mem | mem
      · exact reserved pair mem
      · rcases reserve_cases fits wf bounded with
          ⟨failed, -⟩ | ⟨grown, zeros, done, gwf, -, len, -, room⟩
        · rw [failed] at mem
          exact absurd mem not_mem_nil
        · rw [done] at mem
          have filled : 0 < src.length := by
            rw [List.isEmpty_iff] at some
            exact List.length_pos_of_ne_nil some
          have within : grown.index (grown.len + offset) < grown.data.length :=
            index_lt gwf (by omega)
          dsimp only at mem
          simp only [mem_cons, not_mem_nil, or_false] at mem
          rcases mem with rfl | rfl | rfl | rfl <;> dsimp only <;> omega

theorem readAtBounds_inRange {r : Ring} (wf : r.WellFormed) (offset room : ℕ) :
    InRange (readAtBounds r offset room) := by
  have held := wf.len_le
  unfold readAtBounds
  dsimp only
  split
  · nofun
  · next some =>
      have within : r.index offset < r.data.length := index_lt wf (by omega)
      intro pair mem
      simp only [mem_cons, not_mem_nil, or_false] at mem
      rcases mem with rfl | rfl | rfl | rfl | rfl <;> dsimp only <;> omega

theorem pushBounds_inRange (fits : ℕ → Bool) {r : Ring} (wf : r.WellFormed) (src : List UInt8) :
    InRange (pushBounds fits r src) := by
  have held := wf.len_le
  have data := wf.data_le
  have free : r.free = r.capacity - r.len := rfl
  have reserved := reserveBounds_inRange fits wf
    (show r.len + min src.length r.free ≤ r.capacity by omega)
  unfold pushBounds
  dsimp only
  rcases reserve_cases fits wf (show r.len + min src.length r.free ≤ r.capacity by omega) with
    ⟨failed, short⟩ | ⟨grown, zeros, done, gwf, -, len, capacity, room⟩
  · rw [failed]
    dsimp only
    intro pair mem
    rcases mem_append.mp mem with mem | mem
    · rcases mem_append.mp mem with mem | mem
      · simp only [mem_cons, not_mem_nil, or_false] at mem
        rcases mem with rfl | rfl | rfl <;> dsimp only <;> omega
      · exact reserved pair mem
    · refine writeFreeBounds_inRange fits wf 0 _ ?_ pair mem
      rw [length_take]
      omega
  · rw [done]
    dsimp only
    have gheld := gwf.len_le
    intro pair mem
    rcases mem_append.mp mem with mem | mem
    · rcases mem_append.mp mem with mem | mem
      · simp only [mem_cons, not_mem_nil, or_false] at mem
        rcases mem with rfl | rfl | rfl <;> dsimp only <;> omega
      · exact reserved pair mem
    · refine writeFreeBounds_inRange fits gwf 0 _ ?_ pair mem
      rw [length_take]
      omega

/-- The bytes of the queue are in the ring, those past its end as far as they are known. -/
structure Holds (r : Ring) (q : Queue) : Prop where
  wf : r.WellFormed
  held : r.contents = q.held
  scratch : ∀ i b, q.scratch i = some b → r.unrolled[r.len + i]? = some b

variable {r : Ring} {q : Queue}

theorem Holds.length (holds : r.Holds q) : q.held.length = r.len := by
  rw [← holds.held, length_contents holds.wf]

theorem Holds.grow (holds : r.Holds q) {grown : Ring} {zeros : ℕ} (wf : grown.WellFormed)
    (layout : grown.unrolled = r.unrolled ++ List.replicate zeros 0) (len : grown.len = r.len) :
    grown.Holds q where
  wf := wf
  held := by
    have short := holds.wf.len_le
    rw [← holds.held, contents, contents, layout, len, take_append_of_le_length]
    rwa [length_unrolled]
  scratch := fun i b known => by
    have here := holds.scratch i b known
    obtain ⟨within, -⟩ := List.getElem?_eq_some_iff.mp here
    rw [layout, len, List.getElem?_append_left within, here]

theorem Holds.writeFree (holds : r.Holds q) {fits : ℕ → Bool} {offset : ℕ} {src : List UInt8}
    (room : offset + src.length ≤ r.capacity - q.held.length) :
    r.writeFree fits offset src = (r, false) ∧
        r.data.length < r.len + offset + src.length ∨
      ∃ written, r.writeFree fits offset src = (written, true) ∧
        written.Holds (q.write offset src) ∧ written.capacity = r.capacity := by
  have length := holds.length
  have held := holds.wf.len_le
  have data := holds.wf.data_le
  rcases writeFree_cases fits holds.wf offset src (by omega) with
    refused | ⟨written, zeros, done, wf, layout, len, capacity, size, filled⟩
  · exact .inl refused
  · refine .inr ⟨written, done, ?_, capacity⟩
    by_cases nothing : src = []
    · subst nothing
      rw [overwrite_nil] at layout
      have same : q.write offset [] = q := by
        have never : ∀ i, ¬(offset ≤ i ∧ i < offset + ([] : List UInt8).length) := by
          intro i
          rw [length_nil]
          omega
        simp only [Queue.write, never, if_false]
      rw [same]
      exact holds.grow wf layout len
    have fitsIn : r.len + offset + src.length ≤ (r.unrolled ++ List.replicate zeros 0).length := by
      have within := filled nothing
      rw [length_append, length_unrolled, length_replicate]
      omega
    refine ⟨wf, ?_, ?_⟩
    · rw [Queue.write, ← holds.held, contents, contents, layout, len]
      apply ext_getElem?
      intro i
      rw [List.getElem?_take, List.getElem?_take]
      split
      · next before =>
          rw [getElem?_overwrite fitsIn, if_neg (by omega), List.getElem?_append_left]
          rw [length_unrolled]
          omega
      · rfl
    · intro i b known
      rw [layout, len, getElem?_overwrite fitsIn]
      unfold Queue.write at known
      dsimp only at known
      split at known
      · next inside =>
          rw [if_pos (by omega), show r.len + i - (r.len + offset) = i - offset by omega]
          exact known
      · next outside =>
          have here := holds.scratch i b known
          obtain ⟨within, -⟩ := List.getElem?_eq_some_iff.mp here
          rw [if_neg (by omega), List.getElem?_append_left within, here]

theorem take_eq_filterMap {bytes : List UInt8} {known : ℕ → Option UInt8} {n : ℕ}
    (same : ∀ i < n, ∃ b, known i = some b ∧ bytes[i]? = some b) :
    bytes.take n = (List.range n).filterMap known := by
  induction n with
  | zero => rfl
  | succ n ih =>
    obtain ⟨b, here, there⟩ := same n (Nat.lt_succ_self n)
    rw [take_add_one, ih (fun i lt => same i (Nat.lt_succ_of_lt lt)), range_succ,
      filterMap_append, there]
    simp [here]

theorem Holds.commit (holds : r.Holds q) {n : ℕ} (known : ∀ i < n, (q.scratch i).isSome) :
    (r.commit n).Holds (q.commit n) where
  wf := by
    apply commit_wellFormed holds.wf
    have held := holds.wf.len_le
    cases n with
    | zero => exact held
    | succ n =>
      obtain ⟨b, last⟩ := Option.isSome_iff_exists.mp (known n (Nat.lt_succ_self n))
      obtain ⟨within, -⟩ := List.getElem?_eq_some_iff.mp (holds.scratch n b last)
      rw [length_unrolled] at within
      omega
  held := by
    rw [contents_commit, Queue.commit, holds.held]
    congr 1
    apply take_eq_filterMap
    intro i lt
    obtain ⟨b, here⟩ := Option.isSome_iff_exists.mp (known i lt)
    refine ⟨b, here, ?_⟩
    rw [List.getElem?_drop]
    exact holds.scratch i b here
  scratch := fun i b here => by
    have there := holds.scratch (n + i) b here
    rw [unrolled_commit, Ring.commit]
    dsimp only
    rwa [Nat.add_assoc]

theorem Holds.discard (holds : r.Holds q) {n : ℕ} (few : n ≤ q.held.length) :
    (r.discard n).Holds (q.discard n) := by
  rw [holds.length] at few
  obtain ⟨layout, wf⟩ := unrolled_discard holds.wf few
  refine ⟨wf, ?_, ?_⟩
  · rw [contents_discard holds.wf few, Queue.discard, holds.held]
  · intro i b known
    have here := holds.scratch i b known
    obtain ⟨within, -⟩ := List.getElem?_eq_some_iff.mp here
    have held := holds.wf.len_le
    rw [length_unrolled] at within
    rw [layout, len_discard, List.getElem?_append_left, List.getElem?_drop]
    · rw [show n + (r.len - n + i) = r.len + i by omega]
      exact here
    · rw [length_drop, length_unrolled]
      omega

theorem reserve_refuses {fits : ℕ → Bool} {stop : ℕ} (bounded : stop ≤ r.capacity)
    (failed : r.reserve fits stop = (r, false)) : Refuses fits r.capacity := by
  unfold reserve at failed
  dsimp only at failed
  split at failed
  · exact absurd (congrArg Prod.snd failed) nofun
  · split at failed
    · next none =>
        refine ⟨stop, bounded, ?_⟩
        have refused := List.find?_eq_none.mp none stop (by simp)
        simp only [Bool.and_eq_true, decide_eq_true_eq, not_and_or, Nat.not_le,
          Bool.not_eq_true] at refused
        exact refused
    · exact absurd (congrArg Prod.snd failed) nofun

theorem writeFree_refuses {fits : ℕ → Bool} {offset : ℕ} {src : List UInt8}
    (bounded : r.len + offset + src.length ≤ r.capacity) (wf : r.WellFormed)
    (failed : (r.writeFree fits offset src).2 = false) : Refuses fits r.capacity := by
  unfold Ring.writeFree at failed
  split at failed
  · exact absurd failed nofun
  · rcases reserve_cases fits wf bounded with ⟨refused, -⟩ | ⟨grown, zeros, done, -⟩
    · exact reserve_refuses bounded refused
    · rw [done] at failed
      exact absurd failed nofun

theorem Holds.push (holds : r.Holds q) (fits : ℕ → Bool) (src : List UInt8) :
    ∃ pushed n, r.push fits src = (pushed, n) ∧
      pushed.Holds ((q.write 0 (src.take n)).commit n) ∧ pushed.capacity = r.capacity ∧
      n ≤ min src.length (r.capacity - q.held.length) ∧
      (n = min src.length (r.capacity - q.held.length) ∨ Refuses fits r.capacity) := by
  have length := holds.length
  have held := holds.wf.len_le
  have data := holds.wf.data_le
  have free : r.free = r.capacity - r.len := rfl
  -- what is left to do once there is room
  have finish : ∀ (grown : Ring) (n : ℕ), grown.Holds q → grown.capacity = r.capacity →
      n ≤ min src.length (r.capacity - q.held.length) → grown.len + n ≤ grown.data.length →
      ((grown.writeFree fits 0 (src.take n)).1.commit n).Holds
          ((q.write 0 (src.take n)).commit n) ∧
        ((grown.writeFree fits 0 (src.take n)).1.commit n).capacity = r.capacity := by
    intro grown n gholds capacity few room
    have taken : (src.take n).length = n := by
      rw [length_take]
      omega
    rcases @Holds.writeFree grown q gholds fits 0 (src.take n) (by rw [capacity]; omega) with
      ⟨-, short⟩ | ⟨written, done, wholds, same⟩
    · omega
    · rw [done]
      refine ⟨wholds.commit ?_, same.trans capacity⟩
      intro i lt
      unfold Queue.write
      dsimp only
      rw [if_pos ⟨Nat.zero_le _, by omega⟩, Nat.sub_zero, List.getElem?_eq_getElem (by omega)]
      rfl
  unfold Ring.push
  dsimp only
  have bounded : r.len + min src.length r.free ≤ r.capacity := by omega
  rcases reserve_cases fits holds.wf bounded with
    ⟨failed, short⟩ | ⟨grown, zeros, done, gwf, layout, len, capacity, room⟩
  · rw [failed]
    have few : r.data.length - r.len ≤ min src.length (r.capacity - q.held.length) := by omega
    obtain ⟨pushed, same⟩ := finish r (r.data.length - r.len) holds rfl few (by omega)
    exact ⟨_, _, rfl, pushed, same, few, .inr (reserve_refuses bounded failed)⟩
  · rw [done]
    have few : min src.length r.free ≤ min src.length (r.capacity - q.held.length) := by omega
    obtain ⟨pushed, same⟩ := finish grown (min src.length r.free)
      (holds.grow gwf layout len) capacity few (by omega)
    refine ⟨_, _, rfl, pushed, same, few, .inl ?_⟩
    dsimp only
    omega

/-- One operation: the ring gives what the queue may give, and holds what the queue then is. -/
theorem Holds.step (holds : r.Holds q) {op : RingOp} (admits : q.Admits r.capacity op) :
    q.Gives r.capacity op (r.step op).2 ∧ (r.step op).1.Holds (q.after op (r.step op).2) ∧
      (r.step op).1.capacity = r.capacity ∧ InRange (r.bounds op) := by
  have length := holds.length
  have held := holds.wf.len_le
  have data := holds.wf.data_le
  cases op with
  | writeFree fits offset src =>
    have fitsIn : offset + src.length ≤ r.capacity - q.held.length := admits
    have inRange := writeFreeBounds_inRange fits holds.wf offset src (by omega)
    have refuses := @writeFree_refuses r fits offset src (by omega) holds.wf
    rcases @Holds.writeFree r q holds fits offset src admits with
      ⟨refused, -⟩ | ⟨written, done, wholds, same⟩
    · have step : r.step (.writeFree fits offset src) = (r, .written false) := by
        simp only [Ring.step, refused]
      rw [step]
      rw [refused] at refuses
      exact ⟨.inr (refuses rfl), holds, rfl, inRange⟩
    · have step : r.step (.writeFree fits offset src) = (written, .written true) := by
        simp only [Ring.step, done]
      rw [step]
      exact ⟨.inl rfl, wholds, same, inRange⟩
  | commit n => exact ⟨trivial, holds.commit admits, rfl, nofun⟩
  | push fits src =>
    obtain ⟨pushed, n, done, pholds, same, few, most⟩ := holds.push fits src
    have inRange := pushBounds_inRange fits holds.wf src
    have step : r.step (.push fits src) = (pushed, .pushed n) := by
      simp only [Ring.step, done]
    rw [step]
    exact ⟨⟨few, most⟩, pholds, same, inRange⟩
  | readAt offset room =>
    refine ⟨?_, holds, rfl, readAtBounds_inRange holds.wf offset room⟩
    change r.readAt offset room = (q.held.drop offset).take room
    rw [readAt_eq holds.wf, holds.held]
  | pop n room =>
    refine ⟨?_, holds.discard admits, capacity_discard, ?_⟩
    · change r.readAt 0 (min n room) = q.held.take (min n room)
      rw [readAt_eq holds.wf, holds.held, drop_zero]
    · intro pair mem
      have few : n ≤ q.held.length := admits
      rcases mem_cons.mp mem with rfl | mem
      · dsimp only
        omega
      · exact readAtBounds_inRange holds.wf 0 (min n room) pair mem
  | discard n =>
    refine ⟨trivial, holds.discard admits, capacity_discard, ?_⟩
    have few : n ≤ q.held.length := admits
    intro pair mem
    rw [mem_singleton.mp mem]
    dsimp only
    omega

end Ring

inductive Paired (capacity : ℕ) : Ring → Queue → Prop
  | new : Paired capacity (Ring.new capacity) .empty
  | step {r : Ring} {q : Queue} (paired : Paired capacity r q) (op : RingOp)
      (admits : q.Admits capacity op) : Paired capacity (r.step op).1 (q.after op (r.step op).2)

theorem Paired.holds {capacity : ℕ} {r : Ring} {q : Queue} (paired : Paired capacity r q) :
    r.Holds q ∧ r.capacity = capacity := by
  induction paired with
  | new => exact ⟨⟨Ring.wellFormed_new capacity, rfl, nofun⟩, rfl⟩
  | step paired op admits ih =>
    obtain ⟨holds, rfl⟩ := ih
    obtain ⟨-, after, same, -⟩ := holds.step admits
    exact ⟨after, same⟩

/-- A ring is a queue with a scratch area: after any operations, whatever the allocator
answered, it holds the bytes of the queue, and past them those that were written; and the
next operation gives what the queue gives, with no index out of range. -/
theorem ring_is_queue {capacity : ℕ} {r : Ring} {q : Queue} (paired : Paired capacity r q) :
    (∀ offset room, r.readAt offset room = (q.held.drop offset).take room) ∧
      (∀ i b, q.scratch i = some b → r.unrolled[r.len + i]? = some b) ∧
      ∀ op, q.Admits capacity op →
        q.Gives capacity op (r.step op).2 ∧ Ring.InRange (r.bounds op) := by
  obtain ⟨holds, rfl⟩ := paired.holds
  refine ⟨fun offset room => ?_, holds.scratch, fun op admits => ?_⟩
  · rw [Ring.readAt_eq holds.wf, holds.held]
  · obtain ⟨gives, -, -, inRange⟩ := holds.step admits
    exact ⟨gives, inRange⟩

/-- Three bytes written one past the end, which a refused growth leaves where they are. -/
theorem ring_is_queue_scratch :
    let grows : ℕ → Bool := fun _ => true
    let (r, _) := (Ring.new 8).step (.writeFree grows 1 [5, 6, 7])
    r.readAt 0 4 = [] ∧ r.unrolled[2]? = some 6 ∧
      (r.step (.push (fun _ => false) [1, 2, 3, 4, 5, 6])).2 = .pushed 4 :=
  let wrote := Paired.new.step (.writeFree (fun _ => true) 1 [5, 6, 7])
    (show 1 + 3 ≤ 8 - 0 by decide)
  ⟨(ring_is_queue wrote).1 0 4, (ring_is_queue wrote).2.1 2 6 rfl, rfl⟩

end EspDevkit.Net
