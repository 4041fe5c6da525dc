import EspDevkit.Sync.RawLock
import Mathlib.Data.List.TakeWhile

/-!
# The queue of the raw lock

The links of a lock thread the waiters in its queue, and the flags of the word
are those the queue calls for.
-/

namespace EspDevkit.Sync

open Threaded List

variable {Waker : Type}

def Waiter.bare (waiter : Waiter Waker) : Waiter Waker :=
  { waiter with next := none, prev := none, linked := false }

namespace RawLock

section

variable (lock : RawLock Waker) (w other : ℕ) (at' link : Option ℕ) (linked : Bool)

@[simp]
theorem setNext_bare :
    ((lock.setNext w link).waiters other).bare = (lock.waiters other).bare := by
  by_cases here : other = w <;> simp [setNext, setWaiter, here, Waiter.bare]

@[simp]
theorem setPrev_bare :
    ((lock.setPrev w link).waiters other).bare = (lock.waiters other).bare := by
  by_cases here : other = w <;> simp [setPrev, setWaiter, here, Waiter.bare]

@[simp]
theorem linkNext_next : ((lock.linkNext at' link).waiters other).next =
    if at' = some other then link else (lock.waiters other).next := by
  cases at' with
  | none => rfl
  | some w => by_cases here : w = other <;> simp [linkNext, setNext, setWaiter, here, Ne.symm]

@[simp]
theorem linkNext_prev :
    ((lock.linkNext at' link).waiters other).prev = (lock.waiters other).prev := by
  cases at' with
  | none => rfl
  | some w => by_cases here : other = w <;> simp [linkNext, setNext, setWaiter, here]

@[simp]
theorem linkNext_linked :
    ((lock.linkNext at' link).waiters other).linked = (lock.waiters other).linked := by
  cases at' with
  | none => rfl
  | some w => by_cases here : other = w <;> simp [linkNext, setNext, setWaiter, here]

@[simp]
theorem linkNext_bare :
    ((lock.linkNext at' link).waiters other).bare = (lock.waiters other).bare := by
  cases at' with
  | none => rfl
  | some w => by_cases here : other = w <;> simp [linkNext, setNext, setWaiter, here, Waiter.bare]

@[simp]
theorem linkNext_head :
    (lock.linkNext at' link).head = if at' = none then link else lock.head := by
  cases at' <;> rfl

@[simp]
theorem linkNext_tail : (lock.linkNext at' link).tail = lock.tail := by
  cases at' <;> rfl

@[simp]
theorem linkNext_writers : (lock.linkNext at' link).writers = lock.writers := by
  cases at' <;> rfl

@[simp]
theorem linkNext_state : (lock.linkNext at' link).state = lock.state := by
  cases at' <;> rfl

@[simp]
theorem linkPrev_next :
    ((lock.linkPrev at' link).waiters other).next = (lock.waiters other).next := by
  cases at' with
  | none => rfl
  | some w => by_cases here : other = w <;> simp [linkPrev, setPrev, setWaiter, here]

@[simp]
theorem linkPrev_prev : ((lock.linkPrev at' link).waiters other).prev =
    if at' = some other then link else (lock.waiters other).prev := by
  cases at' with
  | none => rfl
  | some w => by_cases here : w = other <;> simp [linkPrev, setPrev, setWaiter, here, Ne.symm]

@[simp]
theorem linkPrev_linked :
    ((lock.linkPrev at' link).waiters other).linked = (lock.waiters other).linked := by
  cases at' with
  | none => rfl
  | some w => by_cases here : other = w <;> simp [linkPrev, setPrev, setWaiter, here]

@[simp]
theorem linkPrev_bare :
    ((lock.linkPrev at' link).waiters other).bare = (lock.waiters other).bare := by
  cases at' with
  | none => rfl
  | some w => by_cases here : other = w <;> simp [linkPrev, setPrev, setWaiter, here, Waiter.bare]

@[simp]
theorem linkPrev_head : (lock.linkPrev at' link).head = lock.head := by
  cases at' <;> rfl

@[simp]
theorem linkPrev_tail :
    (lock.linkPrev at' link).tail = if at' = none then link else lock.tail := by
  cases at' <;> rfl

@[simp]
theorem linkPrev_writers : (lock.linkPrev at' link).writers = lock.writers := by
  cases at' <;> rfl

@[simp]
theorem linkPrev_state : (lock.linkPrev at' link).state = lock.state := by
  cases at' <;> rfl

@[simp]
theorem setLinked_next : ((lock.setLinked w linked).waiters other).next = (lock.waiters other).next := by
  by_cases here : other = w <;> simp [setLinked, setWaiter, here]

@[simp]
theorem setLinked_prev : ((lock.setLinked w linked).waiters other).prev = (lock.waiters other).prev := by
  by_cases here : other = w <;> simp [setLinked, setWaiter, here]

@[simp]
theorem setLinked_linked : ((lock.setLinked w linked).waiters other).linked =
    if other = w then linked else (lock.waiters other).linked := by
  by_cases here : other = w <;> simp [setLinked, setWaiter, here]

@[simp]
theorem setLinked_bare : ((lock.setLinked w linked).waiters other).bare = (lock.waiters other).bare := by
  by_cases here : other = w <;> simp [setLinked, setWaiter, here, Waiter.bare]

@[simp]
theorem setLinked_head : (lock.setLinked w linked).head = lock.head := rfl

@[simp]
theorem setLinked_tail : (lock.setLinked w linked).tail = lock.tail := rfl

@[simp]
theorem setLinked_writers : (lock.setLinked w linked).writers = lock.writers := rfl

@[simp]
theorem setLinked_state : (lock.setLinked w linked).state = lock.state := rfl

end

theorem shared_of_bare {one two : Waiter Waker} (same : one.bare = two.bare) :
    one.shared = two.shared :=
  show one.bare.shared = two.bare.shared from congrArg Waiter.shared same

theorem state_of_bare {one two : Waiter Waker} (same : one.bare = two.bare) :
    one.state = two.state :=
  show one.bare.state = two.bare.state from congrArg Waiter.state same

theorem since_of_bare {one two : Waiter Waker} (same : one.bare = two.bare) :
    one.since = two.since :=
  show one.bare.since = two.bare.since from congrArg Waiter.since same

structure Linked (lock : RawLock Waker) (list : List ℕ) : Prop where
  threads : Threads (fun w => (lock.waiters w).prev) (fun w => (lock.waiters w).next) list
  head : lock.head = list.head?
  tail : lock.tail = list.getLast?
  linked : ∀ w, (lock.waiters w).linked ↔ w ∈ list
  writers : lock.writers = list.countP fun w => !(lock.waiters w).shared

structure Flagged (state : Word) (lock : RawLock Waker) (list : List ℕ) : Prop where
  parked : state.parked = !list.isEmpty
  writerParked : state.writerParked = decide (0 < lock.writers)

section

variable (lock : RawLock Waker) (w other : ℕ)

theorem unlink_eq : lock.unlink w =
    { ((lock.linkNext (lock.waiters w).prev (lock.waiters w).next).linkPrev
        (lock.waiters w).next (lock.waiters w).prev).setLinked w false with
      writers := if (lock.waiters w).shared then lock.writers else lock.writers - 1 } := by
  have shared : ((((lock.linkNext (lock.waiters w).prev (lock.waiters w).next).linkPrev
      (lock.waiters w).next (lock.waiters w).prev).setLinked w false).waiters w).shared =
        (lock.waiters w).shared := shared_of_bare (by simp)
  simp only [unlink, shared]
  split
  · rw [← linkNext_writers lock (lock.waiters w).prev (lock.waiters w).next,
      ← linkPrev_writers _ (lock.waiters w).next (lock.waiters w).prev]
    rfl
  · simp

@[simp]
theorem unlink_bare : ((lock.unlink w).waiters other).bare = (lock.waiters other).bare := by
  simp [unlink_eq]

@[simp]
theorem unlink_shared : ((lock.unlink w).waiters other).shared = (lock.waiters other).shared :=
  shared_of_bare (lock.unlink_bare w other)

@[simp]
theorem unlink_waiterState : ((lock.unlink w).waiters other).state = (lock.waiters other).state :=
  state_of_bare (lock.unlink_bare w other)

@[simp]
theorem unlink_linked : ((lock.unlink w).waiters other).linked =
    if other = w then false else (lock.waiters other).linked := by
  simp [unlink_eq]

@[simp]
theorem unlink_state : (lock.unlink w).state = lock.state := by
  simp [unlink_eq]

end

section

variable {lock : RawLock Waker} {list first second : List ℕ} {w : ℕ}

theorem Linked.unlink (linked : Linked lock (first ++ w :: second)) :
    Linked (lock.unlink w) (first ++ second) := by
  obtain ⟨prevEq, nextEq⟩ := linked.threads.links
  have fresh : w ∉ first ++ second :=
    (nodup_cons.mp (nodup_middle.mp linked.threads.nodup)).1
  have writers : lock.writers = (first ++ second).countP (fun w => !(lock.waiters w).shared) +
      if (lock.waiters w).shared then 0 else 1 := by
    rw [linked.writers, countP_append, countP_cons, countP_append]
    cases (lock.waiters w).shared <;> simp [Nat.add_assoc]
  refine ⟨linked.threads.unlink (fun other _ => ?_) (fun other _ => ?_), ?_, ?_, fun other => ?_, ?_⟩
  · simp [unlink_eq, prevEq, nextEq]
  · simp [unlink_eq, prevEq, nextEq]
  · have head := linked.head
    rw [unlink_eq, prevEq, nextEq]
    cases first with
    | nil => simp
    | cons one rest => simpa using head
  · have tail := linked.tail
    rw [unlink_eq, prevEq, nextEq]
    cases second with
    | nil => simp
    | cons one rest => simpa [List.getLast?_append] using tail
  · rw [unlink_linked]
    by_cases here : other = w
    · simp [here, fresh]
    · rw [if_neg here, linked.linked other]
      simp [here]
  · simp only [unlink_shared]
    rw [unlink_eq, writers]
    cases (lock.waiters w).shared <;> simp

theorem Linked.of_same (linked : Linked lock list) {lock' : RawLock Waker}
    (head : lock'.head = lock.head) (tail : lock'.tail = lock.tail)
    (writers : lock'.writers = lock.writers)
    (there : ∀ w, (lock'.waiters w).linked = (lock.waiters w).linked)
    (waiters : ∀ w ∈ list, (lock'.waiters w).next = (lock.waiters w).next ∧
      (lock'.waiters w).prev = (lock.waiters w).prev ∧
        (lock'.waiters w).shared = (lock.waiters w).shared) : Linked lock' list := by
  refine ⟨?_, head.trans linked.head, tail.trans linked.tail, fun w => ?_, ?_⟩
  · exact linked.threads.congr (fun w member => (waiters w member).2.1)
      fun w member => (waiters w member).1
  · rw [there w]
    exact linked.linked w
  · rw [writers, linked.writers]
    refine countP_congr fun w member => ?_
    rw [(waiters w member).2.2]

theorem Linked.place (linked : Linked lock list) {fuel : ℕ} (enough : list.length ≤ fuel)
    (priority : UInt32) : ∃ first second, list = first ++ second ∧
      lock.place fuel priority = (first.getLast?, second.head?) := by
  let less : ℕ → Bool := fun w => decide ((lock.waiters w).priority < priority)
  let first := (list.reverse.dropWhile less).reverse
  let second := (list.reverse.takeWhile less).reverse
  have whole : list = first ++ second := by
    rw [← reverse_append, takeWhile_append_dropWhile, reverse_reverse]
  have after : walk (fun w => (lock.waiters w).prev) less fuel lock.tail = first.getLast? := by
    rw [linked.tail, ← List.head?_reverse, walk_eq linked.threads.chain.reverse less (by simpa using enough),
      List.getLast?_reverse]
  refine ⟨first, second, whole, ?_⟩
  unfold RawLock.place
  rw [show walk (fun w => (lock.waiters w).prev)
    (fun w => decide ((lock.waiters w).priority < priority)) fuel lock.tail = first.getLast? from after]
  cases last : first.getLast? with
  | none =>
    rw [List.getLast?_eq_none_iff] at last
    refine Prod.ext rfl ?_
    change lock.head = second.head?
    rw [linked.head, whole, last, nil_append]
  | some after =>
    obtain ⟨rest, split⟩ := List.getLast?_eq_some_iff.mp last
    have threads := linked.threads
    rw [whole, split, append_assoc, singleton_append] at threads
    exact Prod.ext rfl threads.links.2

end

theorem link_eq (lock : RawLock Waker) (fuel w : ℕ) {after before : Option ℕ}
    (place : lock.place fuel (lock.waiters w).priority = (after, before)) :
    lock.link fuel w =
      { ((((lock.setPrev w after).setNext w before).linkNext after (some w)).linkPrev before
          (some w)).setLinked w true with
        writers := if (lock.waiters w).shared then lock.writers else lock.writers + 1 } := by
  have bare : ∀ other, ((((((lock.setPrev w after).setNext w before).linkNext after
      (some w)).linkPrev before (some w)).setLinked w true).waiters other).bare =
        (lock.waiters other).bare := by
    intro other
    simp
  simp only [link, place, shared_of_bare (bare w)]
  split
  · have same : ((((lock.setPrev w after).setNext w before).linkNext after
        (some w)).linkPrev before (some w)).writers = lock.writers := by
      simp [setPrev, setNext, setWaiter]
    rw [← same]
    rfl
  · simp [setPrev, setNext, setWaiter]

section

variable (lock : RawLock Waker) (fuel w other : ℕ)

@[simp]
theorem link_bare : ((lock.link fuel w).waiters other).bare = (lock.waiters other).bare := by
  rw [lock.link_eq fuel w rfl]
  simp

@[simp]
theorem link_linked : ((lock.link fuel w).waiters other).linked =
    if other = w then true else (lock.waiters other).linked := by
  rw [lock.link_eq fuel w rfl]
  by_cases here : other = w <;> simp [setPrev, setNext, setWaiter, here]

@[simp]
theorem link_state : (lock.link fuel w).state = lock.state := by
  rw [lock.link_eq fuel w rfl]
  simp [setPrev, setNext, setWaiter]

@[simp]
theorem link_shared : ((lock.link fuel w).waiters other).shared = (lock.waiters other).shared :=
  shared_of_bare (lock.link_bare fuel w other)

@[simp]
theorem link_waiterState :
    ((lock.link fuel w).waiters other).state = (lock.waiters other).state :=
  state_of_bare (lock.link_bare fuel w other)

@[simp]
theorem link_writers : (lock.link fuel w).writers =
    if (lock.waiters w).shared then lock.writers else lock.writers + 1 := by
  rw [lock.link_eq fuel w rfl]

end

theorem Linked.link {lock : RawLock Waker} {list : List ℕ} {w fuel : ℕ}
    (linked : Linked lock list) (fresh : w ∉ list) (enough : list.length ≤ fuel) :
    ∃ first second, list = first ++ second ∧
      Linked (lock.link fuel w) (first ++ w :: second) := by
  obtain ⟨first, second, rfl, place⟩ := linked.place enough (lock.waiters w).priority
  refine ⟨first, second, rfl, ?_⟩
  let bare := (lock.setPrev w first.getLast?).setNext w second.head?
  have next : ∀ other, (bare.waiters other).next =
      if other = w then second.head? else (lock.waiters other).next := by
    intro other
    by_cases here : other = w <;> simp [bare, setNext, setPrev, setWaiter, here]
  have prev : ∀ other, (bare.waiters other).prev =
      if other = w then first.getLast? else (lock.waiters other).prev := by
    intro other
    by_cases here : other = w <;> simp [bare, setNext, setPrev, setWaiter, here]
  have away : ∀ other ∈ first ++ second, other ≠ w := fun other member same =>
    fresh (same ▸ member)
  have threads : Threads (fun w => (bare.waiters w).prev) (fun w => (bare.waiters w).next)
      (first ++ second) :=
    linked.threads.congr (fun other member => by rw [prev, if_neg (away other member)])
      fun other member => by rw [next, if_neg (away other member)]
  have notLast : first.getLast? ≠ some w := fun last =>
    fresh (mem_append_left _ (mem_of_getLast? last))
  have notHead : second.head? ≠ some w := fun head =>
    fresh (mem_append_right _ (mem_of_head? head))
  refine ⟨?_, ?_, ?_, fun other => ?_, ?_⟩
  · rw [link_eq lock fuel w place]
    refine Threads.insert threads fresh ?_ ?_ ?_
    · constructor
      · simp only [setLinked_prev, linkPrev_prev, linkNext_prev, if_neg notHead]
        exact (prev w).trans (if_pos rfl)
      · simp only [setLinked_next, linkPrev_next, linkNext_next, if_neg notLast]
        exact (next w).trans (if_pos rfl)
    · intro other distinct
      simp only [setLinked_prev, linkPrev_prev, linkNext_prev]
      rfl
    · intro other distinct
      simp only [setLinked_next, linkPrev_next, linkNext_next]
      rfl
  · have head := linked.head
    rw [link_eq lock fuel w place]
    cases first with
    | nil => simp
    | cons one rest => simpa [setPrev, setNext, setWaiter] using head
  · have tail := linked.tail
    rw [link_eq lock fuel w place]
    cases second with
    | nil => simp
    | cons one rest =>
      simpa [setPrev, setNext, setWaiter, List.getLast?_append, List.getLast?_cons_cons] using tail
  · rw [link_linked]
    by_cases here : other = w
    · simp [here]
    · rw [if_neg here, linked.linked other]
      simp [here]
  · simp only [link_shared, link_writers]
    rw [linked.writers]
    cases shared : (lock.waiters w).shared <;> simp [countP_append, shared, Nat.add_assoc]

section

variable (lock : RawLock Waker) (w other : ℕ) (state : WaitState)

@[simp]
theorem tell_shared :
    ((lock.tell w state).1.waiters other).shared = (lock.waiters other).shared := by
  by_cases here : other = w <;> simp [tell, setState, setWake, setWaiter, here]

@[simp]
theorem tell_since :
    ((lock.tell w state).1.waiters other).since = (lock.waiters other).since := by
  have same : ((lock.unlink w).waiters other).since = (lock.waiters other).since :=
    since_of_bare (lock.unlink_bare w other)
  by_cases here : other = w
  · subst here
    simpa [tell, setState, setWake, setWaiter] using same
  · simpa [tell, setState, setWake, setWaiter, here] using same

@[simp]
theorem tell_waiterState : ((lock.tell w state).1.waiters other).state =
    if other = w then state else (lock.waiters other).state := by
  by_cases here : other = w <;> simp [tell, setState, setWake, setWaiter, here]

@[simp]
theorem tell_linked : ((lock.tell w state).1.waiters other).linked =
    if other = w then false else (lock.waiters other).linked := by
  by_cases here : other = w <;> simp [tell, setState, setWake, setWaiter, here]

@[simp]
theorem tell_state : (lock.tell w state).1.state = lock.state := by
  simp [tell, setState, setWake, setWaiter]

@[simp]
theorem tell_writers : (lock.tell w state).1.writers =
    if (lock.waiters w).shared then lock.writers else lock.writers - 1 := by
  simp [tell, setState, setWake, setWaiter, unlink_eq]

theorem tell_handoff (now : UInt32) :
    (lock.tell w state).1.handoff now other = lock.handoff now other := by
  simp [handoff]

end

theorem Linked.tell {lock : RawLock Waker} {first second : List ℕ} {w : ℕ}
    (linked : Linked lock (first ++ w :: second)) (state : WaitState) :
    Linked (lock.tell w state).1 (first ++ second) := by
  refine linked.unlink.of_same rfl rfl rfl (fun other => ?_) fun other _ => ?_
  · by_cases here : other = w <;> simp [RawLock.tell, setState, setWake, setWaiter, here]
  · by_cases here : other = w <;> simp [RawLock.tell, setState, setWake, setWaiter, here]

structure Told (lock after : RawLock Waker) (now : UInt32) (picked : List ℕ) : Prop where
  shared : ∀ w, (after.waiters w).shared = (lock.waiters w).shared
  told : ∀ w ∈ picked, (after.waiters w).linked = false ∧
    (after.waiters w).state = if lock.handoff now w then .granted else .retry
  others : ∀ w, w ∉ picked → (after.waiters w).linked = (lock.waiters w).linked ∧
    (after.waiters w).state = (lock.waiters w).state
  state : after.state = lock.state
  writers : after.writers = lock.writers - picked.countP fun w => !(lock.waiters w).shared

theorem Linked.tellAll {lock : RawLock Waker} {list picked : List ℕ} (now : UInt32)
    (linked : Linked lock list) (nodup : picked.Nodup) (within : ∀ w ∈ picked, w ∈ list) :
    Told lock (lock.tellAll now picked).1 now picked ∧
      ∃ list', Linked (lock.tellAll now picked).1 list' ∧
        list'.length + picked.length = list.length ∧ (∀ w, w ∈ list' ↔ w ∈ list ∧ w ∉ picked) := by
  induction picked generalizing lock list with
  | nil =>
    exact ⟨⟨fun _ => rfl, by simp, fun _ _ => ⟨rfl, rfl⟩, rfl, rfl⟩, list, linked, rfl, by simp⟩
  | cons w picked ih =>
    obtain ⟨fresh, nodup⟩ := nodup_cons.mp nodup
    obtain ⟨first, second, rfl⟩ := append_of_mem (within w (by simp))
    have alone : w ∉ first ++ second :=
      (nodup_cons.mp (nodup_middle.mp linked.threads.nodup)).1
    obtain ⟨told, list', linked', length, members⟩ := ih
      (linked.tell (if lock.handoff now w then .granted else .retry)) nodup fun other member => by
        have other' := within other (mem_cons_of_mem _ member)
        have apart : other ≠ w := fun same => fresh (same ▸ member)
        simpa [apart] using other'
    refine ⟨⟨fun other => ?_, fun other member => ?_, fun other out => ?_, ?_, ?_⟩,
      list', linked', ?_, fun other => ?_⟩
    · exact (told.shared other).trans (lock.tell_shared w other _)
    · by_cases later : other ∈ picked
      · have := told.told other later
        rwa [tell_handoff] at this
      · obtain rfl : other = w := (mem_cons.mp member).resolve_right later
        obtain ⟨linkedEq, stateEq⟩ := told.others other later
        exact ⟨linkedEq.trans (by simp), stateEq.trans (by simp)⟩
    · obtain ⟨apart, later⟩ := not_or.mp (mt mem_cons.mpr out)
      obtain ⟨linkedEq, stateEq⟩ := told.others other later
      exact ⟨linkedEq.trans (by simp [apart]), stateEq.trans (by simp [apart])⟩
    · exact told.state.trans (lock.tell_state w _)
    · refine told.writers.trans ?_
      rw [tell_writers, countP_cons]
      simp only [tell_shared]
      cases (lock.waiters w).shared <;> simp [Nat.sub_sub, Nat.add_comm]
    · simp only [length_append, length_cons] at length ⊢
      omega
    · rw [members, mem_cons, not_or]
      by_cases here : other = w
      · simp [here, alone]
      · simp [here]

section

variable {lock : RawLock Waker} {list : List ℕ} {fuel : ℕ}

theorem Linked.queue (linked : Linked lock list) (enough : list.length ≤ fuel) :
    lock.queue fuel = list := by
  rw [RawLock.queue, linked.head, along_eq linked.threads.chain, take_of_length_le enough]

inductive Picks (lock : RawLock Waker) (list : List ℕ) (held : Word) : List ℕ → Prop
  /-- Nobody can have the lock now. -/
  | none (busy : held.writer ∨ held.free = false ∧ 0 < lock.writers) : Picks lock list held []
  | writer (w : ℕ) (member : w ∈ list) (alone : (lock.waiters w).shared = false)
      (free : held.free) (writers : 0 < lock.writers) : Picks lock list held [w]
  | readers (open' : held.writer = false) (writers : lock.writers = 0) :
      Picks lock list held (list.take batch)

theorem Linked.picks (linked : Linked lock list) (enough : list.length ≤ fuel) (held : Word) :
    Picks lock list held (lock.picked fuel held) := by
  unfold RawLock.picked
  split
  · rename_i writers
    split
    · rename_i free
      have some : ∃ w ∈ list, (lock.waiters w).shared = false := by
        have count := linked.writers ▸ writers
        obtain ⟨w, member, alone⟩ := countP_pos_iff.mp count
        exact ⟨w, member, by simpa using alone⟩
      rw [linked.head, walk_eq linked.threads.chain _ enough]
      cases found : list.dropWhile fun w => (lock.waiters w).shared with
      | nil =>
        obtain ⟨w, member, alone⟩ := some
        have := dropWhile_eq_nil_iff.mp found w member
        simp [alone] at this
      | cons w rest =>
        have member : w ∈ list := (dropWhile_suffix _).subset (found ▸ mem_cons_self)
        have alone := @head_dropWhile_not _ (fun w => (lock.waiters w).shared) list
          (by simp [found])
        exact .writer w member (by simpa [found] using alone) free writers
    · rename_i busy
      exact .none (Or.inr ⟨by simpa using busy, writers⟩)
  · rename_i writers
    split
    · rename_i busy
      exact .none (Or.inl busy)
    · rename_i open'
      rw [RawLock.queue, linked.head, along_eq linked.threads.chain]
      exact .readers (by simpa using open') (Nat.eq_zero_of_not_pos writers)

/-- What a grant does to a lock, with `held` left of the word. -/
structure Granted (lock : RawLock Waker) (list : List ℕ) (held : Word) (now : UInt32)
    (grant : Grant Waker) (list' picked : List ℕ) : Prop where
  linked : Linked grant.lock list'
  flagged : Flagged grant.lock.state grant.lock list'
  nodup : picked.Nodup
  within : ∀ w ∈ picked, w ∈ list
  members : ∀ w, w ∈ list' ↔ w ∈ list ∧ w ∉ picked
  shared : ∀ w, (grant.lock.waiters w).shared = (lock.waiters w).shared
  told : ∀ w ∈ picked, (grant.lock.waiters w).linked = false ∧
    (grant.lock.waiters w).state = if lock.handoff now w then .granted else .retry
  others : ∀ w, w ∉ picked → (grant.lock.waiters w).linked = (lock.waiters w).linked ∧
    (grant.lock.waiters w).state = (lock.waiters w).state
  count : ∀ shared, grant.lock.state.count shared = held.count shared +
    picked.countP fun w => lock.handoff now w && decide ((lock.waiters w).shared = shared)
  exclusive : (held.writer → held.readers = 0) →
    grant.lock.state.writer → grant.lock.state.readers = 0
  retries : ∀ w, w ∈ grant.retries ↔ w ∈ picked ∧ lock.handoff now w = false
  writerNext : grant.lock.state.free → 0 < grant.lock.writers →
    ∃ w ∈ grant.retries, (lock.waiters w).shared = false
  next : grant.lock.state.free → list' ≠ [] → grant.more ∨ grant.retries ≠ []

namespace Picks

variable {held : Word} {picked : List ℕ} (picks : Picks lock list held picked)

include picks

theorem within : ∀ w ∈ picked, w ∈ list := by
  cases picks with
  | none => simp
  | writer w member => simpa using member
  | readers => exact fun w member => mem_of_mem_take member

theorem nodup (linked : Linked lock list) : picked.Nodup := by
  cases picks with
  | none => exact nodup_nil
  | writer w => exact nodup_singleton w
  | readers => exact linked.threads.nodup.sublist (take_sublist _ _)

theorem shared (linked : Linked lock list) :
    ∀ w ∈ picked, (lock.waiters w).shared = decide (lock.writers = 0) := by
  cases picks with
  | none => simp
  | writer w _ alone _ writers => simp [alone, Nat.ne_of_gt writers]
  | readers _ writers =>
    intro w member
    have none := linked.writers.symm.trans writers
    rw [countP_eq_zero] at none
    simpa [writers] using none w (mem_of_mem_take member)

end Picks

/-- How many are picked to be handed the lock, by how they want it. -/
theorem Picks.granted (linked : Linked lock list) {held : Word} {picked : List ℕ}
    (picks : Picks lock list held picked) (now : UInt32) (shared : Bool) :
    (picked.countP fun w => lock.handoff now w && decide ((lock.waiters w).shared = shared)) =
      if shared = decide (lock.writers = 0) then picked.countP (lock.handoff now) else 0 := by
  have alike := picks.shared linked
  split
  · rename_i same
    refine countP_congr fun w member => ?_
    simp [alike w member, same]
  · rename_i other
    rw [countP_eq_zero]
    intro w member
    simp [alike w member, Ne.symm other]

theorem Linked.grant (linked : Linked lock list) (enough : list.length ≤ fuel) (clear : Bool)
    (now : UInt32) : ∃ list' picked, Granted lock list
      (if clear then { lock.state with writer := false } else lock.state) now
      (lock.grant fuel clear now) list' picked := by
  let held := if clear then { lock.state with writer := false } else lock.state
  let picked := lock.picked fuel held
  have picks : Picks lock list held picked := linked.picks enough held
  let granted := picked.countP (lock.handoff now)
  let left := decide (picked.length < (lock.queue fuel).length)
  let writing := decide (0 < lock.writers)
  let state : Word :=
    { writer := held.writer || writing && decide (0 < granted)
      readers := if writing then held.readers else held.readers + granted
      parked := left
      writerParked := left && decide (0 < lock.writers - picked.length) }
  let bare : RawLock Waker := { lock with state }
  have before : Linked bare list :=
    linked.of_same rfl rfl rfl (fun _ => rfl) fun _ _ => ⟨rfl, rfl, rfl⟩
  obtain ⟨told, list', linked', length, members⟩ :=
    before.tellAll now (picks.nodup linked) picks.within
  have writersEq : (bare.tellAll now picked).1.writers =
      lock.writers - picked.length := by
    rw [told.writers]
    have alike := picks.shared linked
    cases Nat.eq_zero_or_pos lock.writers with
    | inl none =>
      change lock.writers - _ = _
      rw [none, Nat.zero_sub, Nat.zero_sub]
    | inr some =>
      congr 1
      rw [countP_eq_length]
      intro w member
      simpa [Nat.ne_of_gt some] using alike w member
  have word : (bare.tellAll now picked).1.state = state := told.state
  have leftEq : left = !list'.isEmpty := by
    have queue := linked.queue enough
    cases list' with
    | nil => simpa [left, queue] using Nat.le_of_eq length.symm
    | cons w rest =>
      rw [length_cons] at length
      simp only [left, queue, isEmpty_cons, Bool.not_false, decide_eq_true_eq]
      omega
  -- what keeps a lock free that was
  have again : state.free → (∃ w ∈ picked.filter (fun w => !lock.handoff now w),
      (lock.waiters w).shared = false) ∨ lock.writers - picked.length = 0 ∧
        picked = list.take batch := by
    clear_value picked held
    intro free
    cases picks with
    | none busy =>
      have busy' : state.free = held.free := by simp [state, granted, Word.free]
      rw [busy'] at free
      rcases busy with writer | ⟨busy, _⟩
      · simp [Word.free, writer] at free
      · simp [busy] at free
    | writer w member alone _ writers =>
      refine Or.inl ⟨w, ?_, alone⟩
      cases handoff : lock.handoff now w with
      | true => simp [state, Word.free, writing, granted, writers, handoff] at free
      | false => simp [handoff]
    | readers _ writers => exact Or.inr ⟨by simp [writers], rfl⟩
  refine ⟨list', picked, ?_⟩
  refine
    { linked := linked'
      flagged := ⟨?_, ?_⟩
      nodup := picks.nodup linked
      within := picks.within
      members := members
      shared := told.shared
      told := told.told
      others := told.others
      count := ?_
      exclusive := ?_
      retries := ?_
      writerNext := ?_
      next := ?_ }
  · exact (congrArg Word.parked word).trans leftEq
  · refine (congrArg Word.writerParked word).trans ?_
    change (left && decide (0 < lock.writers - picked.length)) =
      decide (0 < (bare.tellAll now picked).1.writers)
    have none : list' = [] → lock.writers - picked.length = 0 := by
      rintro rfl
      exact writersEq.symm.trans linked'.writers
    rw [writersEq, leftEq]
    cases list' with
    | nil => simp [none rfl]
    | cons w rest => simp
  · intro shared
    change (bare.tellAll now picked).1.state.count shared = held.count shared + _
    rw [word, picks.granted linked]
    clear_value picked held
    cases picks with
    | none => cases shared <;> simp [state, Word.count, granted]
    | writer w member alone free writers =>
      have idle : held.writer = false := by
        simp only [Word.free, Bool.and_eq_true, Bool.not_eq_true'] at free
        exact free.1
      cases shared <;> cases handoff : lock.handoff now w <;>
        simp [state, Word.count, granted, writing, writers, idle, handoff, Nat.ne_of_gt writers]
    | readers open' writers =>
      cases shared <;> simp [state, Word.count, granted, writing, writers, open']
  · change (held.writer → held.readers = 0) → (bare.tellAll now picked).1.state.writer →
      (bare.tellAll now picked).1.state.readers = 0
    rw [word]
    clear_value picked held
    intro exclusive
    cases picks with
    | none => simpa [state, granted] using exclusive
    | writer w member alone free writers =>
      have idle : held.readers = 0 := by
        simp only [Word.free, Bool.and_eq_true, decide_eq_true_eq] at free
        exact free.2
      intro _
      simp [state, writing, writers, idle]
    | readers open' writers => simp [state, writing, writers, open']
  · intro w
    change w ∈ picked.filter (fun w => !lock.handoff now w) ↔ _
    simp
  · change (bare.tellAll now picked).1.state.free → 0 < (bare.tellAll now picked).1.writers →
      ∃ w ∈ picked.filter (fun w => !lock.handoff now w), (lock.waiters w).shared = false
    rw [word, writersEq]
    intro free some
    exact (again free).resolve_right fun readers => Nat.ne_of_gt some readers.1
  · change (bare.tellAll now picked).1.state.free → list' ≠ [] →
      (decide (picked.length = batch) && (bare.tellAll now picked).1.head.isSome &&
        decide ((bare.tellAll now picked).1.writers = 0)) ∨
          picked.filter (fun w => !lock.handoff now w) ≠ []
    rw [word, writersEq, linked'.head]
    clear_value picked held
    intro free some
    rcases again free with ⟨w, member, _⟩ | ⟨writers, rfl⟩
    · exact Or.inr (ne_nil_of_mem member)
    · refine Or.inl ?_
      have left := length_pos_iff.mpr some
      obtain ⟨w, rest, rfl⟩ := exists_cons_of_ne_nil some
      rw [length_take] at length writers ⊢
      simp only [writers, List.head?_cons, Option.isSome_some, decide_true, Bool.and_true,
        decide_eq_true_eq]
      omega

end

end RawLock

end EspDevkit.Sync
