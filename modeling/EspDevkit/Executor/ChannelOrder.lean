import EspDevkit.Executor.Channel
import EspDevkit.Library.Transition
import Mathlib.Data.List.Perm.Subperm

/-!
# What the channel keeps

Nothing is lost, repeated or reordered between the values a channel accepts
and those it hands out, and the first future that waits is woken whenever it
need not wait any more.
-/

namespace EspDevkit.Executor

open Threaded List

variable {α Waker : Type}

namespace Queue

structure Linked (queue : Queue α Waker) (list : List ℕ) : Prop where
  threads : Threads (fun node => (queue.nodes node).prev) (fun node => (queue.nodes node).next) list
  head : queue.senders = list.head?
  waits : ∀ node, (queue.nodes node).waker.isSome ↔ node ∈ list

variable {queue : Queue α Waker} {list first second : List ℕ} {node : ℕ}

theorem unlink_out (out : (queue.nodes node).waker.isSome = false) :
    (queue.unlink node).1 = queue := by
  cases waker : (queue.nodes node).waker with
  | none => simp [unlink, waker]
  | some waker => simp_all

theorem unlink_in (waits : (queue.nodes node).waker.isSome) : (queue.unlink node).1 =
    ((queue.setWaker node none).linkNext (queue.nodes node).prev (queue.nodes node).next).linkPrev
      (queue.nodes node).next (queue.nodes node).prev := by
  obtain ⟨waker, waits⟩ := Option.isSome_iff_exists.mp waits
  simp [unlink, waits]

theorem unlink_frame (queue : Queue α Waker) (node : ℕ) :
    ∃ senders nodes, (queue.unlink node).1 = { queue with senders, nodes } := by
  cases waits : (queue.nodes node).waker.isSome with
  | false => exact ⟨_, _, unlink_out waits⟩
  | true =>
    rw [unlink_in waits]
    cases (queue.nodes node).prev <;> cases (queue.nodes node).next <;> exact ⟨_, _, rfl⟩

theorem unlink_waker (queue : Queue α Waker) (node other : ℕ) :
    ((queue.unlink node).1.nodes other).waker =
      if other = node then none else (queue.nodes other).waker := by
  cases waits : (queue.nodes node).waker.isSome with
  | false =>
    rw [unlink_out waits]
    split
    · rename_i here
      rw [here]
      simpa using waits
    · rfl
  | true =>
    rw [unlink_in waits]
    simp

theorem Linked.unlink (linked : Linked queue (first ++ node :: second)) :
    Linked (queue.unlink node).1 (first ++ second) := by
  obtain ⟨prevEq, nextEq⟩ := linked.threads.links
  have waits : (queue.nodes node).waker.isSome := (linked.waits node).mpr (by simp)
  have fresh : node ∉ first ++ second :=
    (nodup_cons.mp (nodup_middle.mp linked.threads.nodup)).1
  refine ⟨linked.threads.unlink (fun other _ => ?_) (fun other _ => ?_), ?_, fun other => ?_⟩
  · simp [unlink_in waits, prevEq, nextEq]
  · simp [unlink_in waits, prevEq, nextEq]
  · have head := linked.head
    rw [unlink_in waits, prevEq, nextEq]
    cases first with
    | nil => simp
    | cons one rest => simpa using head
  · rw [unlink_waker]
    by_cases here : other = node
    · simp [here, fresh]
    · simp only [here, if_false, linked.waits other]
      simp [here]

theorem Linked.setWaker (linked : Linked queue list) (waits : (queue.nodes node).waker.isSome)
    (new : Waker) : Linked (queue.setWaker node (some new)) list := by
  refine ⟨?_, linked.head, fun other => ?_⟩
  · simpa using linked.threads
  · rw [setWaker_waker, ← linked.waits other]
    split
    · rename_i here
      simpa [here] using waits
    · rfl

theorem Linked.linkLast (linked : Linked queue list) (out : (queue.nodes node).waker.isSome = false)
    (new : Waker) {fuel : ℕ} (enough : list.length ≤ fuel) :
    Linked ((queue.setWaker node (some new)).linkLast fuel node) (list ++ [node]) := by
  have fresh : node ∉ list := by
    intro member
    simp [(linked.waits node).mpr member] at out
  let bare := ((queue.setWaker node (some new)).setPrev node none).setNext node none
  have next : ∀ other, (bare.nodes other).next = if other = node then none else (queue.nodes other).next := by
    intro other
    by_cases here : other = node <;> simp [bare, setNext, setPrev, Queue.setWaker, here]
  have prev : ∀ other, (bare.nodes other).prev = if other = node then none else (queue.nodes other).prev := by
    intro other
    by_cases here : other = node <;> simp [bare, setNext, setPrev, Queue.setWaker, here]
  have waker : ∀ other,
      (bare.nodes other).waker = if other = node then some new else (queue.nodes other).waker := by
    intro other
    by_cases here : other = node <;> simp [bare, setNext, setPrev, Queue.setWaker, here]
  have away : ∀ other ∈ list, other ≠ node := fun other member same => fresh (same ▸ member)
  have threads : Threads (fun node => (bare.nodes node).prev) (fun node => (bare.nodes node).next) list :=
    linked.threads.congr (fun other member => by rw [prev, if_neg (away other member)])
      fun other member => by rw [next, if_neg (away other member)]
  have tail : walk (fun node => (bare.nodes node).next) (fun node => (bare.nodes node).next.isSome) fuel
      bare.senders = list.getLast? := by
    rw [show bare.senders = list.head? from linked.head]
    exact walk_last threads.chain enough
  have shape : (queue.setWaker node (some new)).linkLast fuel node =
      (bare.linkNext list.getLast? (some node)).linkPrev (some node) list.getLast? := by
    rw [← tail]
    rfl
  rw [shape]
  have last : list.getLast? ≠ some node := fun last => fresh (mem_of_getLast? last)
  refine ⟨?_, ?_, fun other => ?_⟩
  · refine Threads.insert (by simpa using threads) (by simpa using fresh) ?_ ?_ ?_
    · simp [last, next]
    · intro other distinct
      simp [Ne.symm distinct]
    · intro other distinct
      simp
  · have head : bare.senders = list.head? := linked.head
    cases list with
    | nil => simp
    | cons one rest => simpa using head
  · rw [linkPrev_waker, linkNext_waker, waker]
    by_cases here : other = node
    · simp [here]
    · simp [here, linked.waits other]

theorem linkLast_frame (queue : Queue α Waker) (fuel node : ℕ) :
    ∃ senders nodes, queue.linkLast fuel node = { queue with senders, nodes } := by
  simp only [linkLast]
  generalize walk _ _ fuel _ = tail
  cases tail <;> exact ⟨_, _, rfl⟩

theorem linkLast_waker (queue : Queue α Waker) (fuel node other : ℕ) :
    ((queue.linkLast fuel node).nodes other).waker = (queue.nodes other).waker := by
  have last : ∀ queue' : Queue α Waker, ∀ tail,
      ((queue'.setPrev node tail).nodes other).waker = (queue'.nodes other).waker :=
    fun queue' tail => linkPrev_waker queue' other (some node) tail
  simp only [linkLast]
  rw [last, linkNext_waker]
  exact (linkNext_waker _ other (some node) none).trans (last queue none)

theorem Linked.without (linked : Linked queue list) (node : ℕ) :
    Linked (queue.unlink node).1 (list.filter fun other => decide (other ≠ node)) := by
  by_cases member : node ∈ list
  · obtain ⟨first, second, rfl⟩ := append_of_mem member
    have nodup := nodup_middle.mp linked.threads.nodup
    have fresh := (nodup_cons.mp nodup).1
    have rest : (first ++ node :: second).filter (fun other => decide (other ≠ node)) =
        first ++ second := by
      have all : (first ++ second).filter (fun other => decide (other ≠ node)) = first ++ second := by
        rw [filter_eq_self]
        intro other there
        exact decide_eq_true fun same => fresh (same ▸ there)
      rw [← all, filter_append, filter_append, filter_cons]
      simp
    rw [rest]
    exact linked.unlink
  · have out : (queue.nodes node).waker.isSome = false := by
      rw [Bool.eq_false_iff]
      exact fun waits => member ((linked.waits node).mp waits)
    have all : list.filter (fun other => decide (other ≠ node)) = list := by
      rw [filter_eq_self]
      intro other there
      exact decide_eq_true fun same => member (same ▸ there)
    rw [unlink_out out, all]
    exact linked

theorem Linked.firstWaker (linked : Linked queue list) (head : list.head? = some node) :
    ∃ waker, queue.firstWaker = some waker ∧ (queue.nodes node).waker = some waker := by
  have waits := (linked.waits node).mpr (mem_of_head? head)
  obtain ⟨waker, waits⟩ := Option.isSome_iff_exists.mp waits
  exact ⟨waker, by simp [Queue.firstWaker, linked.head, head, waits], waits⟩

theorem Linked.of_same (linked : Linked queue list) {queue' : Queue α Waker}
    (nodes : queue'.nodes = queue.nodes) (senders : queue'.senders = queue.senders) :
    Linked queue' list :=
  ⟨by simpa only [nodes] using linked.threads, senders.trans linked.head,
    by simpa only [nodes] using linked.waits⟩

end Queue

namespace World

structure Inv (world : World α Waker) : Prop where
  linked : world.queue.Linked world.waiting
  arrived : world.arrivals.Nodup
  made : ∀ node, (world.values node).isSome ∨ node ∈ world.arrivals → node < world.made
  waits : ∀ node ∈ world.arrivals,
    (world.values node).isSome → (world.queue.nodes node).waker.isSome
  pending : ∀ node, (world.queue.nodes node).waker.isSome → (world.values node).isSome
  room : 0 < world.queue.capacity
  bounded : world.queue.items.length ≤ world.queue.capacity
  emptied : world.queue.closed → world.queue.items = []
  kept : world.accepted = world.received ++ world.queue.items ++ world.lost
  noneLost : world.queue.closed = false → world.lost = []
  woken : world.ready → ∀ node, world.waiting.head? = some node → world.woken node

inductive Initial : World α Waker → Prop
  | channel (capacity : ℕ) (positive : 0 < capacity) :
      Initial { queue := channel α Waker capacity }

variable {world : World α Waker} {outcome : Outcome α Waker}

theorem Inv.initial (initial : Initial world) : Inv world := by
  cases initial with
  | channel capacity positive =>
    exact ⟨⟨.nil, rfl, by simp [Executor.channel, waiting]⟩, nodup_nil, by simp, by simp,
      by simp [Executor.channel], positive, Nat.zero_le _, by simp [Executor.channel], rfl,
      fun _ => rfl, by simp [waiting]⟩

theorem Inv.few (inv : Inv world) : world.waiting.length ≤ world.made := by
  have within : world.arrivals ⊆ List.range world.made := by
    intro node member
    exact mem_range.mpr (inv.made node (Or.inr member))
  calc world.waiting.length ≤ world.arrivals.length := length_filter_le _ _
    _ ≤ (List.range world.made).length := (subperm_of_subset inv.arrived within).length_le
    _ = world.made := length_range

variable [DecidableEq Waker]

inductive Step : World α Waker → World α Waker → Prop
  | input (world : World α Waker) (input : Input α Waker) (possible : input.possible world) :
      Step world (world.step input)

abbrev Reachable : World α Waker → Prop := Transition.Reachable Initial Step

/-- A future is woken when the first that waits was told, or had been told and
is still the first. -/
theorem after_woken {polled : Option ℕ}
    (told : (world.after polled outcome).ready → ∀ node,
      (world.after polled outcome).waiting.head? = some node →
        (∃ waker, (outcome.queue.nodes node).waker = some waker ∧ waker ∈ outcome.wakes) ∨
          world.woken node ∧ polled ≠ some node) :
    (world.after polled outcome).ready → ∀ node,
      (world.after polled outcome).waiting.head? = some node →
        (world.after polled outcome).woken node := by
  intro ready node head
  simp only [after, Bool.and_eq_true, Bool.or_eq_true]
  refine ⟨⟨decide_eq_true head, ready⟩, ?_⟩
  rcases told ready node head with ⟨waker, waits, told⟩ | ⟨woken, other⟩
  · exact Or.inl (by simp [waits, told])
  · exact Or.inr ⟨woken, decide_eq_true other⟩

theorem Inv.same (inv : Inv world)
    (nodes : outcome.queue.nodes = world.queue.nodes)
    (senders : outcome.queue.senders = world.queue.senders)
    (capacity : outcome.queue.capacity = world.queue.capacity)
    (bounded : outcome.queue.items.length ≤ world.queue.capacity)
    (emptied : outcome.queue.closed → outcome.queue.items = [])
    {lost : List α}
    (kept : world.accepted ++ outcome.accepted.toList =
      world.received ++ outcome.received.toList ++ outcome.queue.items ++ lost)
    (noneLost : outcome.queue.closed = false → lost = [])
    (told : (world.after none outcome).ready → world.ready ∨
      outcome.wakes = world.queue.firstWaker.toList) :
    Inv { world.after none outcome with lost } := by
  have waiting : (world.after none outcome).waiting = world.waiting := by
    simp [after, World.waiting, nodes]
  refine ⟨?_, ?_, ?_, ?_, ?_, ?_, ?_, emptied, kept, noneLost, after_woken fun ready node head => ?_⟩
  · change outcome.queue.Linked (world.after none outcome).waiting
    rw [waiting]
    exact inv.linked.of_same nodes senders
  · simpa [after] using inv.arrived
  · simpa [after] using inv.made
  · simpa [after, nodes] using inv.waits
  · simpa [after, nodes] using inv.pending
  · simpa [after, capacity] using inv.room
  · simpa [after, capacity] using bounded
  · rw [waiting] at head
    rcases told ready with before | wakes
    · exact Or.inr ⟨inv.woken before node head, by simp⟩
    · obtain ⟨waker, first, waits⟩ := inv.linked.firstWaker head
      exact Or.inl ⟨waker, by rw [nodes]; exact waits, by rw [wakes, first]; simp⟩

theorem Inv.keeps (inv : Inv world)
    (nodes : outcome.queue.nodes = world.queue.nodes)
    (senders : outcome.queue.senders = world.queue.senders)
    (capacity : outcome.queue.capacity = world.queue.capacity)
    (closed : outcome.queue.closed = world.queue.closed)
    (bounded : outcome.queue.items.length ≤ world.queue.capacity)
    (emptied : outcome.queue.closed → outcome.queue.items = [])
    (kept : world.accepted ++ outcome.accepted.toList =
      world.received ++ outcome.received.toList ++ outcome.queue.items ++ world.lost)
    (told : (world.after none outcome).ready → world.ready ∨
      outcome.wakes = world.queue.firstWaker.toList) : Inv (world.after none outcome) :=
  inv.same nodes senders capacity bounded emptied kept
    (fun open' => inv.noneLost (closed.symm.trans open')) told

theorem head_filter_ne {list : List ℕ} {node : ℕ} (head : list.head? ≠ some node) :
    (list.filter fun other => decide (other ≠ node)).head? = list.head? := by
  cases list with
  | nil => rfl
  | cons one rest =>
    have distinct : one ≠ node := by simpa using head
    simp [distinct]

theorem Inv.without (inv : Inv world) {node : ℕ} {polled : Option ℕ}
    (mine : ∀ other, polled = some other → other = node)
    (linked : outcome.queue.Linked (world.waiting.filter fun other => decide (other ≠ node)))
    (waker : ∀ other, (outcome.queue.nodes other).waker =
      if other = node then none else (world.queue.nodes other).waker)
    (capacity : outcome.queue.capacity = world.queue.capacity)
    (closed : outcome.queue.closed = world.queue.closed)
    (bounded : outcome.queue.items.length ≤ world.queue.capacity)
    (emptied : outcome.queue.closed → outcome.queue.items = [])
    (kept : world.accepted ++ outcome.accepted.toList =
      world.received ++ outcome.received.toList ++ outcome.queue.items ++ world.lost)
    (told : (world.after polled outcome).ready →
      (∀ waker, outcome.queue.firstWaker = some waker → waker ∈ outcome.wakes) ∨
        world.ready ∧ polled = none ∧ world.waiting.head? ≠ some node) :
    Inv { world.after polled outcome with values := Function.update world.values node none } := by
  have noArrival : (polled.toList.filter fun other =>
      (world.queue.nodes other).waker.isNone && (outcome.queue.nodes other).waker.isSome) = [] := by
    rw [filter_eq_nil_iff]
    intro other member
    have here : other = node := mine other (by simpa using member)
    simp [waker, here]
  have waiting : (world.after polled outcome).waiting =
      world.waiting.filter fun other => decide (other ≠ node) := by
    simp only [after, World.waiting, noArrival, append_nil, filter_filter]
    refine filter_congr fun other _ => ?_
    by_cases here : other = node <;> simp [waker, here]
  have arrivals : (world.after polled outcome).arrivals = world.arrivals := by
    simp [after, noArrival]
  refine ⟨?_, ?_, fun other => ?_, fun other => ?_, fun other => ?_, ?_, ?_, emptied, kept,
    fun gone => inv.noneLost (closed.symm.trans gone), after_woken fun ready other head => ?_⟩
  · change outcome.queue.Linked (world.after polled outcome).waiting
    rw [waiting]
    exact linked
  · change (world.after polled outcome).arrivals.Nodup
    rw [arrivals]
    exact inv.arrived
  · change _ ∨ other ∈ (world.after polled outcome).arrivals → _
    rw [arrivals]
    rintro (value | member)
    · refine inv.made other (Or.inl ?_)
      by_cases here : other = node <;> simp [here] at value ⊢
      exact value
    · exact inv.made other (Or.inr member)
  · change other ∈ (world.after polled outcome).arrivals → _
    rw [arrivals]
    intro member value
    by_cases here : other = node
    · simp [here] at value
    · have before := inv.waits other member (by simpa [here] using value)
      simpa [after, waker, here] using before
  · intro waits
    by_cases here : other = node
    · simp [after, waker, here] at waits
    · have before := inv.pending other (by simpa [after, waker, here] using waits)
      simpa [here] using before
  · simpa [after, capacity] using inv.room
  · simpa [after, capacity] using bounded
  · rw [waiting] at head
    rcases told ready with first | ⟨before, silent, notFirst⟩
    · obtain ⟨waker, found, waits⟩ := linked.firstWaker head
      exact Or.inl ⟨waker, waits, first waker found⟩
    · rw [head_filter_ne notFirst] at head
      exact Or.inr ⟨inv.woken before other head, by simp [silent]⟩

theorem Inv.waitOn (inv : Inv world) {node : ℕ} (new : Waker)
    (waits : (world.queue.nodes node).waker.isSome)
    (blocked : world.ready → world.waiting.head? ≠ some node) :
    Inv (world.after (some node) { queue := world.queue.setWaker node (some new) }) := by
  have waker : ∀ other, ((world.queue.setWaker node (some new)).nodes other).waker.isSome =
      (world.queue.nodes other).waker.isSome := by
    intro other
    rw [Queue.setWaker_waker]
    split
    · rename_i here
      simp [here, waits]
    · rfl
  have old : (world.queue.nodes node).waker.isNone = false := by
    rw [← Option.not_isSome, waits]
    rfl
  have arrivals : (world.after (some node)
      { queue := world.queue.setWaker node (some new) }).arrivals = world.arrivals := by
    simp [after, old]
  have waiting : (world.after (some node)
      { queue := world.queue.setWaker node (some new) }).waiting = world.waiting := by
    rw [World.waiting, arrivals]
    exact filter_congr fun other _ => waker other
  refine ⟨?_, by rw [arrivals]; exact inv.arrived, by rw [arrivals]; exact inv.made,
    fun other => ?_, fun other => ?_, inv.room, inv.bounded, inv.emptied, ?_, inv.noneLost,
    after_woken fun ready other head => ?_⟩
  · rw [waiting]
    exact inv.linked.setWaker waits new
  · rw [arrivals]
    exact fun member value => (waker other).trans (inv.waits other member value)
  · exact fun waiting' => inv.pending other ((waker other).symm.trans waiting')
  · simpa [after, Queue.setWaker] using inv.kept
  · rw [waiting] at head
    refine Or.inr ⟨inv.woken ready other head, fun same => ?_⟩
    exact blocked ready (by rw [head, same])

theorem Inv.waitFirst (inv : Inv world) {node : ℕ} (new : Waker)
    (live : (world.values node).isSome) (out : (world.queue.nodes node).waker.isSome = false)
    (blocked : world.ready = false) :
    Inv (world.after (some node)
      { queue := (world.queue.setWaker node (some new)).linkLast world.made node }) := by
  generalize queueEq : (world.queue.setWaker node (some new)).linkLast world.made node = queue
  obtain ⟨senders, nodes, frame⟩ :
      ∃ senders nodes, queue = { world.queue with senders, nodes } := by
    obtain ⟨senders, nodes, frame⟩ :=
      Queue.linkLast_frame (world.queue.setWaker node (some new)) world.made node
    exact ⟨senders, nodes, by rw [← queueEq, frame]; rfl⟩
  have waker : ∀ other, (queue.nodes other).waker =
      if other = node then some new else (world.queue.nodes other).waker := by
    intro other
    rw [← queueEq, Queue.linkLast_waker, Queue.setWaker_waker]
  have old : (world.queue.nodes node).waker.isNone = true := by
    rw [← Option.not_isSome, out]
    rfl
  have fresh : node ∉ world.arrivals := by
    intro member
    rw [inv.waits node member live] at out
    cases out
  have arrivals : (world.after (some node) { queue }).arrivals = world.arrivals ++ [node] := by
    simp [after, old, waker]
  have waiting : (world.after (some node) { queue }).waiting = world.waiting ++ [node] := by
    rw [World.waiting, arrivals, filter_append]
    congr 1
    · refine filter_congr fun other member => ?_
      have distinct : other ≠ node := fun same => fresh (same ▸ member)
      simp [after, waker, distinct]
    · simp [after, waker]
  have linked : queue.Linked (world.waiting ++ [node]) := by
    rw [← queueEq]
    exact inv.linked.linkLast out new inv.few
  refine ⟨?_, ?_, fun other => ?_, fun other => ?_, fun other => ?_, ?_, ?_, ?_, ?_, ?_, ?_⟩
  · rw [waiting]
    exact linked
  · rw [arrivals, nodup_append]
    refine ⟨inv.arrived, nodup_singleton _, fun one member other here => ?_⟩
    rw [mem_singleton.mp here]
    exact fun same => fresh (same ▸ member)
  · rw [arrivals, mem_append, mem_singleton]
    rintro (value | member | rfl)
    · exact inv.made other (Or.inl value)
    · exact inv.made other (Or.inr member)
    · exact inv.made other (Or.inl live)
  · rw [arrivals, mem_append, mem_singleton]
    intro member value
    change (queue.nodes other).waker.isSome = true
    rw [waker]
    split
    · rfl
    · rename_i distinct
      exact inv.waits other (member.resolve_right distinct) value
  · intro waits
    change (queue.nodes other).waker.isSome = true at waits
    rw [waker] at waits
    split at waits
    · rename_i here
      rw [here]
      exact live
    · exact inv.pending other waits
  · simpa [after, frame] using inv.room
  · simpa [after, frame] using inv.bounded
  · simpa [after, frame] using inv.emptied
  · simpa [after, frame] using inv.kept
  · simpa [after, frame] using inv.noneLost
  · intro ready
    have same : (world.after (some node) { queue }).ready = world.ready := by
      simp [after, World.ready, frame, Queue.hasRoom]
    rw [same, blocked] at ready
    cases ready

theorem Inv.trySend (inv : Inv world) (value : α) :
    Inv (world.after none (Executor.trySend world.queue value)) := by
  have bounded := inv.bounded
  by_cases refused : world.queue.closed ∨ world.queue.items.length = world.queue.capacity
  · have same : Executor.trySend world.queue value = { queue := world.queue } := by
      simp only [Executor.trySend, Queue.push, if_pos refused]
    rw [same]
    exact inv.keeps rfl rfl rfl rfl bounded inv.emptied (by simpa using inv.kept) Or.inl
  · have taken : Executor.trySend world.queue value =
        { queue := { world.queue with items := world.queue.items ++ [value] }
          accepted := some value, wakes := world.queue.receiver.toList } := by
      simp only [Executor.trySend, Queue.push, if_neg refused]
    rw [taken]
    obtain ⟨open', room⟩ := not_or.mp refused
    have open' : world.queue.closed = false := by simpa using open'
    refine inv.keeps rfl rfl rfl rfl ?_ (fun gone => absurd gone (by simp [open'])) ?_
      fun _ => Or.inl ?_
    · rw [length_append]
      simp only [length_cons, length_nil]
      omega
    · have kept := inv.kept
      rw [inv.noneLost open'] at kept ⊢
      simp [kept]
    · have space : world.queue.items.length < world.queue.capacity := by omega
      simp [World.ready, Queue.hasRoom, space]

theorem Inv.pollSend (inv : Inv world) {node : ℕ} (new : Waker) {value : α}
    (live : world.values node = some value) :
    Inv (world.step (.pollSend node new)) := by
  have bounded := inv.bounded
  obtain ⟨senders, nodes, frame⟩ := Queue.unlink_frame world.queue node
  simp only [World.step, live, Executor.pollSend]
  generalize waiting : (world.queue.nodes node).waker.isSome = waits
  split
  · rename_i goes
    have linked := inv.linked.without node
    have waker := Queue.unlink_waker world.queue node
    -- The value goes into the queue, or nowhere once the receiver has gone.
    by_cases gone : world.queue.closed = true
    · have refused : (world.queue.unlink node).1.push value = .error value := by
        rw [frame]
        simp [Queue.push, gone]
      simp only [refused, if_true]
      refine inv.without (by simp) linked waker (by rw [frame]) (by rw [frame])
        (by rw [frame]; exact bounded) (by rw [frame]; exact inv.emptied)
        (by rw [frame]; simpa using inv.kept) fun ready => Or.inl fun first found => ?_
      have space : (world.queue.unlink node).1.hasRoom := by
        rw [frame]
        simp [Queue.hasRoom, inv.emptied gone, inv.room]
      simp [space, found]
    · have open' : world.queue.closed = false := by simpa using gone
      have room : world.queue.items.length < world.queue.capacity := by
        simp only [open', Bool.false_or, Bool.and_eq_true] at goes
        simpa [Queue.hasRoom] using goes.2
      have taken : (world.queue.unlink node).1.push value =
          .ok ({ (world.queue.unlink node).1 with items := world.queue.items ++ [value] },
            world.queue.receiver) := by
        rw [frame]
        simp [Queue.push, open', Nat.ne_of_lt room]
      simp only [taken, if_true]
      refine inv.without (by simp) (linked.of_same rfl rfl) waker (by rw [frame]) (by rw [frame])
        ?_ (fun gone => ?_) ?_ fun ready => Or.inl fun first found => ?_
      · rw [length_append]
        simp only [length_cons, length_nil]
        omega
      · rw [frame] at gone
        exact absurd gone (by simp [open'])
      · have kept := inv.kept
        rw [inv.noneLost open'] at kept ⊢
        simp [kept]
      · have space : Queue.hasRoom
            { (world.queue.unlink node).1 with items := world.queue.items ++ [value] } := by
          have closed : (world.queue.unlink node).1.closed = false := by
            rw [frame]
            exact open'
          simpa [after, World.ready, closed] using ready
        simp [space, found]
  · rename_i blocked
    simp only [Bool.or_eq_true, Bool.and_eq_true, not_or, not_and] at blocked
    obtain ⟨open', blocked⟩ := blocked
    cases waits with
    | true =>
      refine inv.waitOn new waiting fun ready head => ?_
      have room : world.queue.hasRoom := by simpa [World.ready, open'] using ready
      exact blocked (Or.inr (decide_eq_true (inv.linked.head.trans head))) room
    | false =>
      refine inv.waitFirst new (by rw [live]; rfl) waiting ?_
      have full : world.queue.hasRoom = false := by simpa using blocked (Or.inl rfl)
      simp [World.ready, open', full]

theorem Inv.dropSend (inv : Inv world) (node : ℕ) :
    Inv (world.step (.dropSend node)) := by
  obtain ⟨senders, nodes, frame⟩ := Queue.unlink_frame world.queue node
  simp only [World.step, Executor.dropSend]
  refine inv.without (by simp) (inv.linked.without node) (Queue.unlink_waker world.queue node)
    (by rw [frame]) (by rw [frame]) (by rw [frame]; exact inv.bounded)
    (by rw [frame]; exact inv.emptied) (by rw [frame]; simpa using inv.kept) fun ready => ?_
  by_cases first : world.queue.senders = some node
  · exact Or.inl fun waker found => by simp [first, found]
  · refine Or.inr ⟨?_, rfl, fun head => first (inv.linked.head.trans head)⟩
    simpa [after, World.ready, frame, Queue.hasRoom] using ready

theorem Inv.receive (inv : Inv world) (open' : world.queue.closed = false)
    {value : α} {items : List α} (front : world.queue.items = value :: items) :
    Inv (world.after none
      { queue := { world.queue with items }, received := some value
        wakes := world.queue.firstWaker.toList }) := by
  have bounded := inv.bounded
  rw [front, length_cons] at bounded
  refine inv.keeps rfl rfl rfl rfl ?_ (fun gone => absurd gone (by simp [open'])) ?_
    fun _ => Or.inr rfl
  · exact Nat.le_of_succ_le bounded
  · simpa [front] using inv.kept

theorem Inv.step {before after : World α Waker} (inv : Inv before) (step : Step before after) :
    Inv after := by
  obtain ⟨input, possible⟩ := step
  cases input with
  | trySend value => exact inv.trySend value
  | send value =>
    have unmade : before.made ∉ before.arrivals := fun member =>
      Nat.lt_irrefl _ (inv.made _ (Or.inr member))
    refine { inv with made := ?_, waits := ?_, pending := ?_ }
    · rintro node (value' | member)
      · by_cases here : node = before.made
        · simp [World.step, here]
        · have old : (before.values node).isSome := by simpa [World.step, here] using value'
          exact Nat.lt_succ_of_lt (inv.made node (Or.inl old))
      · exact Nat.lt_succ_of_lt (inv.made node (Or.inr member))
    · intro node member value'
      have here : node ≠ before.made := fun same => unmade (same ▸ member)
      exact inv.waits node member (by simpa [World.step, here] using value')
    · intro node waits
      by_cases here : node = before.made
      · simp [World.step, here]
      · simpa [World.step, here] using inv.pending node waits
  | pollSend node new =>
    obtain ⟨value, live⟩ := Option.isSome_iff_exists.mp possible
    exact inv.pollSend new live
  | dropSend node => exact inv.dropSend node
  | tryRecv =>
    have open' : before.queue.closed = false := by simpa [Input.possible] using possible
    simp only [World.step, Executor.tryRecv]
    split
    · exact inv.keeps rfl rfl rfl rfl inv.bounded inv.emptied (by simpa using inv.kept) Or.inl
    · rename_i value items front
      exact inv.receive open' front
  | pollRecv new =>
    have open' : before.queue.closed = false := by simpa [Input.possible] using possible
    simp only [World.step, Executor.pollRecv]
    split
    · exact inv.keeps rfl rfl rfl rfl inv.bounded inv.emptied (by simpa using inv.kept) Or.inl
    · rename_i value items front
      exact inv.receive open' front
  | dropReceiver =>
    have open' : before.queue.closed = false := by simpa [Input.possible] using possible
    have kept := inv.kept
    rw [inv.noneLost open'] at kept
    exact inv.same rfl rfl rfl (Nat.zero_le _) (fun _ => rfl)
      (by simpa [Executor.dropReceiver] using kept) (by simp [Executor.dropReceiver])
      fun _ => Or.inr rfl

theorem Inv.of_reachable (reachable : Reachable world) : Inv world :=
  reachable.invariant (fun _ => .initial) fun _ _ inv => inv.step

end World

def readWhileFull : World ℕ ℕ :=
  ((((World.mk (channel ℕ ℕ 1) (fun _ => none) 0 [] [] [] [] fun _ => false).step
    (.trySend 1)).step (.send 2)).step (.pollSend 0 7)).step .tryRecv

end EspDevkit.Executor
