import EspDevkit.Sync.RawLockQueue
import EspDevkit.Library.Transition
import Mathlib.Data.List.Perm.Subperm

/-!
# Runs of the raw lock

Each atomic step of a run keeps the word, the queue and what is under way in
order: the lock has one writer or readers, its flags are those of the queue,
whoever has it is counted, and whenever it is free while somebody waits, a
release is under way or a waiter was told to try again.
-/

namespace EspDevkit.Sync

open List

variable {Waker : Type}

namespace Op

def about : Op Waker → Option ℕ
  | enqueue w | blocked w | again w | poll w _ | relink w _ | tryLock w _ | pollEnqueue w
  | drop w | dropState w => some w
  | _ => none

def on (w : ℕ) (op : Op Waker) : Bool := decide (op.about = some w)

def holds (shared : Bool) : Op Waker → Bool
  | unlock other => decide (other = shared)
  | release clear => clear && !shared
  | _ => false

/-- Whether an operation is about to wake who may take the lock. -/
def releases : Op Waker → Bool
  | release _ => true
  | waking _ more => more
  | _ => false

def Fits (world : World Waker) : Op Waker → Prop
  | enqueue w => world.queued w = false ∧ (world.lock.waiters w).state = .waiting
  | blocked w | relink w _ | drop w => world.queued w
  | again w => world.queued w ∧ (world.lock.waiters w).state = .retry
  | tryLock w _ | pollEnqueue w => world.queued w = false
  | dropState w => world.queued w ∧ (world.lock.waiters w).linked = false
  | _ => True

end Op

namespace Word

theorem tryLock_some {word state : Word} {shared : Bool} (got : word.tryLock shared = some state) :
    state.free = false ∧ state.parked = word.parked ∧ state.writerParked = word.writerParked ∧
      (state.writer → state.readers = 0) ∧
        ∀ other, state.count other = word.count other + if shared = other then 1 else 0 := by
  cases shared with
  | true =>
    simp only [tryLock, if_true, tryRead] at got
    split at got
    · cases got
    · rename_i open'
      cases got
      simp only [Bool.or_eq_true, not_or, Bool.not_eq_true] at open'
      refine ⟨by simp [free], rfl, rfl, by simp [open'.1], fun other => ?_⟩
      cases other <;> simp [count]
  | false =>
    simp only [tryLock, Bool.false_eq_true, if_false, tryWrite] at got
    split at got
    · cases got
    · rename_i open'
      cases got
      simp only [Bool.or_eq_true, decide_eq_true_eq, not_or, not_not] at open'
      refine ⟨by simp [free], rfl, rfl, fun _ => open'.2, fun other => ?_⟩
      cases other <;> simp [count, open'.1]

theorem writer_of_count {word : Word} (some : 0 < word.count false) : word.writer = true := by
  cases writer : word.writer with
  | true => rfl
  | false => simp [count, writer] at some

theorem tryLock_none {word : Word} {shared : Bool} (failed : word.tryLock shared = none)
    (free : word.free) : shared = true ∧ word.writerParked = true := by
  simp only [Word.free, Bool.and_eq_true, Bool.not_eq_true', decide_eq_true_eq] at free
  cases shared with
  | true => simpa [tryLock, tryRead, free.1] using failed
  | false => simp [tryLock, tryWrite, free.1, free.2] at failed

end Word

namespace World

/-- Whether a waiter was handed the lock and did not see it yet. -/
def granted (world : World Waker) (shared : Bool) (w : ℕ) : Bool :=
  world.queued w && decide ((world.lock.waiters w).state = .granted) &&
    decide (world.shared w = shared)

def holders (world : World Waker) (ops : List (Op Waker)) (shared : Bool) : ℕ :=
  world.held shared + ops.countP (Op.holds shared) +
    (List.range world.made).countP (world.granted shared)

/-- Whether an operation, or a `LockWait` between two, is about each waiter, and
what they rely on. -/
structure Roles (world : World Waker) (ops : List (Op Waker)) : Prop where
  one : ∀ w, ops.countP (Op.on w) + (world.idle w).toNat ≤ 1
  fits : ∀ op ∈ ops, op.Fits world
  out : ∀ w, world.queued w = false →
    (world.lock.waiters w).linked = false ∧ (world.lock.waiters w).state ≠ .retry
  waiting : ∀ w, (world.lock.waiters w).linked → (world.lock.waiters w).state = .waiting
  fresh : ∀ w, world.made ≤ w →
    world.queued w = false ∧ world.idle w = false ∧ ops.countP (Op.on w) = 0

structure Solid (lock : RawLock Waker) (list : List ℕ) : Prop where
  linked : lock.Linked list
  flagged : RawLock.Flagged lock.state lock list
  exclusive : lock.state.writer → lock.state.readers = 0

/-- Somebody will take care of those that wait for a free lock, of a writer
first. -/
structure Wakes (world : World Waker) (ops : List (Op Waker)) (list : List ℕ) : Prop where
  writer : world.lock.state.free → 0 < world.lock.writers →
    (∃ op ∈ ops, op.releases) ∨ ∃ w < world.made, world.owed w ∧ world.shared w = false
  next : world.lock.state.free → list ≠ [] →
    (∃ op ∈ ops, op.releases) ∨ ∃ w < world.made, world.owed w

structure Inv (world : World Waker) (ops : List (Op Waker)) (list : List ℕ) : Prop where
  solid : Solid world.lock list
  holders : ∀ shared, world.lock.state.count shared = world.holders ops shared
  roles : world.Roles ops
  wakes : world.Wakes ops list

theorem countP_change {old new : ℕ → Bool} {w made : ℕ} (below : w < made)
    (same : ∀ other, other ≠ w → new other = old other) :
    (List.range made).countP new + (old w).toNat = (List.range made).countP old +
    (new w).toNat := by
  induction made with
  | zero => omega
  | succ made ih =>
    rw [range_succ, countP_append, countP_append, countP_singleton,
      countP_singleton]
    by_cases here : w = made
    · subst here
      have rest : (List.range w).countP new = (List.range w).countP old :=
        countP_congr fun other member => by
          rw [same other (Nat.ne_of_lt (mem_range.mp member))]
      rw [rest]
      cases old w <;> cases new w <;> simp
    · rw [same made (Ne.symm here)]
      have := ih (by omega)
      omega

theorem countP_told {old new told : ℕ → Bool} {picked : List ℕ} {made : ℕ} (nodup : picked.Nodup)
    (below : ∀ w ∈ picked, w < made) (others : ∀ w, w ∉ picked → new w = old w)
    (here : ∀ w ∈ picked, old w = false ∧ new w = told w) :
    (List.range made).countP new = (List.range made).countP old + picked.countP told := by
  induction picked generalizing old with
  | nil =>
    rw [countP_nil, Nat.add_zero]
    exact countP_congr fun w _ => by rw [others w (by simp)]
  | cons w picked ih =>
    obtain ⟨fresh, nodup⟩ := nodup_cons.mp nodup
    let between := Function.update old w (told w)
    have rest := @ih between nodup (fun other member => below other (by simp [member]))
      (fun other out => ?_) fun other member => ?_
    · have first := @countP_change old between w made (below w (by simp))
        fun other apart => Function.update_of_ne apart _ _
      rw [(here w (by simp)).1, show between w = told w from Function.update_self _ _ _,
        Bool.toNat_false, Nat.add_zero] at first
      rw [rest, first, countP_cons]
      cases told w <;> simp
      omega
    · by_cases same : other = w
      · subst same
        rw [show between other = told other from Function.update_self _ _ _]
        exact (here other (by simp)).2
      · rw [show between other = old other from Function.update_of_ne same _ _]
        exact others other (by simp [same, out])
    · have apart : other ≠ w := fun same => fresh (same ▸ member)
      rw [show between other = old other from Function.update_of_ne apart _ _]
      exact here other (by simp [member])

/-- Nothing about a waiter changes but its links. -/
structure Same (before after : World Waker) (w : ℕ) : Prop where
  idle : after.idle w = before.idle w
  queued : after.queued w = before.queued w
  linked : (after.lock.waiters w).linked = (before.lock.waiters w).linked
  state : (after.lock.waiters w).state = (before.lock.waiters w).state
  shared : after.shared w = before.shared w

theorem Same.rfl {world : World Waker}
    {w : ℕ} : Same world world w := ⟨.refl _, .refl _, .refl _, .refl _, .refl _⟩

theorem Same.granted {before after : World Waker} {w : ℕ} (same : Same before after w)
    (shared : Bool) : after.granted shared w = before.granted shared w := by
  simp only [World.granted, same.queued, same.state, same.shared]

theorem Same.fits {before after : World Waker} {w : ℕ} (same : Same before after w) {op : Op Waker}
    (about : op.about = some w) (fits : op.Fits before) : op.Fits after := by
  cases op <;> simp only [Op.about, Option.some.injEq, reduceCtorEq] at about <;> subst about <;>
    simp_all [Op.Fits, same.queued, same.state, same.linked]

theorem fits_of_about {world : World Waker} {op : Op Waker} (about : op.about = none) :
    op.Fits world := by
  cases op <;> simp_all [Op.about, Op.Fits]

section

variable {before after : World Waker} {now more others : List (Op Waker)} {w : ℕ}

theorem Roles.alone (roles : Roles before (now ++ others))
    (mine : 0 < now.countP (Op.on w) + (before.idle w).toNat) :
    others.countP (Op.on w) = 0 ∧ now.countP (Op.on w) + (before.idle w).toNat = 1 ∧
      w < before.made := by
  have one := roles.one w
  rw [countP_append] at one
  refine ⟨by omega, by omega, ?_⟩
  by_contra out
  obtain ⟨_, idle, none⟩ := roles.fresh w (Nat.le_of_not_lt out)
  rw [countP_append] at none
  rw [idle] at mine
  simp only [Bool.toNat_false] at mine
  omega

theorem countP_on_of_about {list : List (Op Waker)} {other : ℕ}
    (about : ∀ op ∈ list, op.about = some w ∨ op.about = none) (apart : other ≠ w) :
    list.countP (Op.on other) = 0 := by
  rw [countP_eq_zero]
  intro op member
  rcases about op member with about | about <;> simp [Op.on, about, Ne.symm apart]

theorem Roles.change (roles : Roles before (now ++ others))
    (about : ∀ op ∈ now ++ more, op.about = some w ∨ op.about = none)
    (alone : others.countP (Op.on w) = 0) (made : before.made ≤ after.made) (below : w < after.made)
    (count : more.countP (Op.on w) + (after.idle w).toNat ≤ 1) (fits : ∀ op ∈ more, op.Fits after)
    (out : after.queued w = false →
      (after.lock.waiters w).linked = false ∧ (after.lock.waiters w).state ≠ .retry)
    (waiting : (after.lock.waiters w).linked → (after.lock.waiters w).state = .waiting)
    (same : ∀ other, other ≠ w → Same before after other) : Roles after (more ++ others) := by
  have nowNone : ∀ other, other ≠ w → now.countP (Op.on other) = 0 := fun other apart =>
    countP_on_of_about (fun op member => about op (mem_append_left _ member)) apart
  have moreNone : ∀ other, other ≠ w → more.countP (Op.on other) = 0 := fun other apart =>
    countP_on_of_about (fun op member => about op (mem_append_right _ member)) apart
  refine ⟨fun other => ?_, fun op member => ?_, fun other => ?_, fun other => ?_, fun other above => ?_⟩
  · rw [countP_append]
    by_cases here : other = w
    · subst here
      omega
    · have one := roles.one other
      rw [countP_append, nowNone other here] at one
      rw [moreNone other here, (same other here).idle]
      exact one
  · rcases mem_append.mp member with member | member
    · exact fits op member
    · have before := roles.fits op (mem_append_right _ member)
      cases about' : op.about with
      | none => exact fits_of_about about'
      | some other =>
        have apart : other ≠ w := by
          rintro rfl
          rw [countP_eq_zero] at alone
          exact alone op member (by simp [Op.on, about'])
        exact (same other apart).fits about' before
  · by_cases here : other = w
    · subst here
      exact out
    · rw [(same other here).queued, (same other here).linked, (same other here).state]
      exact roles.out other
  · by_cases here : other = w
    · subst here
      exact waiting
    · rw [(same other here).linked, (same other here).state]
      exact roles.waiting other
  · have apart : other ≠ w := by omega
    obtain ⟨queued, idle, none⟩ := roles.fresh other (Nat.le_trans made above)
    rw [countP_append, nowNone other apart] at none
    rw [(same other apart).queued, (same other apart).idle, countP_append, moreNone other apart]
    exact ⟨queued, idle, none⟩

structure Keeps (before after : World Waker) (w : ℕ) : Prop where
  idle : after.idle w = before.idle w
  queued : after.queued w = before.queued w
  out : (before.lock.waiters w).linked = false →
    (after.lock.waiters w).linked = false ∧
      (after.lock.waiters w).state = (before.lock.waiters w).state
  stays : (after.lock.waiters w).linked → (before.lock.waiters w).linked ∧
    (after.lock.waiters w).state = (before.lock.waiters w).state

theorem Roles.beside (roles : Roles before (now ++ others))
    (about : ∀ op ∈ now ++ more, op.about = none) (made : after.made = before.made)
    (keeps : ∀ w, Keeps before after w) : Roles after (more ++ others) := by
  have nowNone : ∀ w, now.countP (Op.on w) = 0 := by
    intro w
    rw [countP_eq_zero]
    intro op member
    simp [Op.on, about op (mem_append_left _ member)]
  have moreNone : ∀ w, more.countP (Op.on w) = 0 := by
    intro w
    rw [countP_eq_zero]
    intro op member
    simp [Op.on, about op (mem_append_right _ member)]
  refine ⟨fun w => ?_, fun op member => ?_, fun w queued => ?_, fun w linked => ?_, fun w above => ?_⟩
  · have one := roles.one w
    rw [countP_append, nowNone] at one
    rw [countP_append, moreNone, (keeps w).idle]
    exact one
  · rcases mem_append.mp member with member | member
    · exact fits_of_about (about op (mem_append_right _ member))
    · have fits := roles.fits op (mem_append_right _ member)
      cases op with
      | enqueue w =>
        obtain ⟨out, _⟩ := roles.out w fits.1
        exact ⟨(keeps w).queued.trans fits.1, ((keeps w).out out).2.trans fits.2⟩
      | again w =>
        have out : (before.lock.waiters w).linked = false := by
          by_contra linked
          have := roles.waiting w (by simpa using linked)
          rw [fits.2] at this
          simp at this
        exact ⟨(keeps w).queued.trans fits.1, ((keeps w).out out).2.trans fits.2⟩
      | dropState w => exact ⟨(keeps w).queued.trans fits.1, ((keeps w).out fits.2).1⟩
      | blocked w => exact (keeps w).queued.trans fits
      | relink w _ => exact (keeps w).queued.trans fits
      | drop w => exact (keeps w).queued.trans fits
      | tryLock w _ => exact (keeps w).queued.trans fits
      | pollEnqueue w => exact (keeps w).queued.trans fits
      | _ => trivial
  · rw [(keeps w).queued] at queued
    obtain ⟨out, state⟩ := roles.out w queued
    obtain ⟨linked', state'⟩ := (keeps w).out out
    exact ⟨linked', by rw [state']; exact state⟩
  · obtain ⟨linked', state'⟩ := (keeps w).stays linked
    exact state'.trans (roles.waiting w linked')
  · obtain ⟨queued, idle, none⟩ := roles.fresh w (by omega)
    rw [countP_append, nowNone] at none
    rw [(keeps w).queued, (keeps w).idle, countP_append, moreNone]
    exact ⟨queued, idle, none⟩

theorem holders_change
    (holders : ∀ shared, before.lock.state.count shared = before.holders (now ++ others) shared)
    (made : after.made = before.made) (below : w < before.made)
    (same : ∀ other, other ≠ w → Same before after other)
    (balance : ∀ shared, after.held shared + more.countP (Op.holds shared) +
      (after.granted shared w).toNat + before.lock.state.count shared =
        before.held shared + now.countP (Op.holds shared) + (before.granted shared w).toNat +
          after.lock.state.count shared) (shared : Bool) :
    after.lock.state.count shared = after.holders (more ++ others) shared := by
  have old := holders shared
  have change := @countP_change (before.granted shared) (after.granted shared) w _ below
    fun other apart => (same other apart).granted shared
  have balance := balance shared
  simp only [World.holders, countP_append, made] at old ⊢
  omega

theorem holders_beside
    (holders : ∀ shared, before.lock.state.count shared = before.holders (now ++ others) shared)
    (made : after.made = before.made)
    (granted : ∀ shared, ∀ w < before.made, after.granted shared w = before.granted shared w)
    (balance : ∀ shared, after.held shared + more.countP (Op.holds shared) +
      before.lock.state.count shared = before.held shared + now.countP (Op.holds shared) +
        after.lock.state.count shared) (shared : Bool) :
    after.lock.state.count shared = after.holders (more ++ others) shared := by
  have old := holders shared
  have same : (List.range before.made).countP (after.granted shared) =
      (List.range before.made).countP (before.granted shared) :=
    countP_congr fun w member => by rw [granted shared w (mem_range.mp member)]
  have balance := balance shared
  simp only [World.holders, countP_append, made] at old ⊢
  omega

theorem Wakes.keep {list list' : List ℕ} (wakes : Wakes before (now ++ others) list)
    (free : after.lock.state.free → before.lock.state.free)
    (writers : 0 < after.lock.writers → 0 < before.lock.writers) (some : list' ≠ [] → list ≠ [])
    (releases : (∃ op ∈ now, op.releases) → ∃ op ∈ more, op.releases)
    (made : before.made ≤ after.made) (owed : ∀ w, before.owed w → after.owed w)
    (shared : ∀ w < before.made, after.shared w = before.shared w) :
    Wakes after (more ++ others) list' := by
  have releases' : (∃ op ∈ now ++ others, op.releases) → ∃ op ∈ more ++ others, op.releases := by
    rintro ⟨op, member, wakes⟩
    rcases mem_append.mp member with member | member
    · obtain ⟨op, member, wakes⟩ := releases ⟨op, member, wakes⟩
      exact ⟨op, mem_append_left _ member, wakes⟩
    · exact ⟨op, mem_append_right _ member, wakes⟩
  constructor
  · intro free' writers'
    refine (wakes.writer (free free') (writers writers')).imp releases' ?_
    rintro ⟨w, below, owes, alone⟩
    exact ⟨w, Nat.lt_of_lt_of_le below made, owed w owes, (shared w below).trans alone⟩
  · intro free' some'
    refine (wakes.next (free free') (some some')).imp releases' ?_
    rintro ⟨w, below, owes⟩
    exact ⟨w, Nat.lt_of_lt_of_le below made, owed w owes⟩

theorem Wakes.refused {list list' : List ℕ} (wakes : Wakes before (now ++ others) list)
    (flagged : RawLock.Flagged before.lock.state before.lock list)
    (failed : before.lock.state.tryLock (before.shared w) = none)
    (free : after.lock.state.free → before.lock.state.free)
    (releases : ∀ op ∈ now, op.releases = false) (made : before.made ≤ after.made)
    (owed : ∀ other, other ≠ w → before.owed other → after.owed other)
    (shared : ∀ other < before.made, after.shared other = before.shared other) :
    Wakes after (more ++ others) list' := by
  have there : after.lock.state.free → (∃ op ∈ more ++ others, op.releases) ∨
      ∃ other < after.made, after.owed other ∧ after.shared other = false := by
    intro free'
    obtain ⟨mine, parked⟩ := Word.tryLock_none failed (free free')
    rw [flagged.writerParked, decide_eq_true_eq] at parked
    rcases wakes.writer (free free') parked with ⟨op, member, wakes⟩ | ⟨other, below, owes, alone⟩
    · rcases mem_append.mp member with member | member
      · simp [releases op member] at wakes
      · exact Or.inl ⟨op, mem_append_right _ member, wakes⟩
    · have apart : other ≠ w := by
        rintro rfl
        simp [mine] at alone
      exact Or.inr ⟨other, Nat.lt_of_lt_of_le below made, owed other apart owes,
        (shared other below).trans alone⟩
  refine ⟨fun free _ => there free, fun free _ => (there free).imp id ?_⟩
  rintro ⟨other, below, owes, _⟩
  exact ⟨other, below, owes⟩

theorem Wakes.of_busy {list : List ℕ} {ops : List (Op Waker)}
    (busy : after.lock.state.free = false) :
    Wakes after ops list := by
  constructor <;> intro free <;> simp [busy] at free

theorem Wakes.of_releases {list : List ℕ} {ops : List (Op Waker)} (op : Op Waker)
    (member : op ∈ ops) (releases : op.releases) : Wakes after ops list :=
  ⟨fun _ _ => Or.inl ⟨op, member, releases⟩, fun _ _ => Or.inl ⟨op, member, releases⟩⟩

end

theorem hold_held (world : World Waker) (shared other : Bool) :
    (world.hold shared).held other = world.held other + if shared = other then 1 else 0 := by
  by_cases here : shared = other
  · subst here
    simp [hold, setHeld]
  · simp [hold, setHeld, here, Ne.symm here]

theorem granted_of_queued {world : World Waker} {w : ℕ} (queued : world.queued w = false)
    (shared : Bool) : world.granted shared w = false := by
  simp [granted, queued]

theorem granted_of_state {world : World Waker} {w : ℕ}
    (state : (world.lock.waiters w).state ≠ .granted) (shared : Bool) :
    world.granted shared w = false := by
  simp [granted, state]

namespace Solid

variable {lock : RawLock Waker} {list : List ℕ}

theorem word (solid : Solid lock list) {state : Word} (parked : state.parked = lock.state.parked)
    (writerParked : state.writerParked = lock.state.writerParked)
    (exclusive : state.writer → state.readers = 0) : Solid { lock with state } list :=
  ⟨solid.linked.of_same rfl rfl rfl (fun _ => rfl) fun _ _ => ⟨rfl, rfl, rfl⟩,
    ⟨parked.trans solid.flagged.parked, writerParked.trans solid.flagged.writerParked⟩, exclusive⟩

theorem setWaiter (solid : Solid lock list) {w : ℕ} {waiter : Waiter Waker}
    (links : w ∈ list → waiter.next = (lock.waiters w).next ∧
      waiter.prev = (lock.waiters w).prev ∧ waiter.shared = (lock.waiters w).shared)
    (linked : waiter.linked = (lock.waiters w).linked) : Solid (lock.setWaiter w waiter) list := by
  refine ⟨solid.linked.of_same rfl rfl rfl (fun other => ?_) fun other member => ?_,
    ⟨solid.flagged.parked, solid.flagged.writerParked⟩, solid.exclusive⟩
  · by_cases here : other = w
    · subst here
      simpa [RawLock.setWaiter] using linked
    · simp [RawLock.setWaiter, here]
  · by_cases here : other = w
    · subst here
      simpa [RawLock.setWaiter] using links member
    · simp [RawLock.setWaiter, here]

theorem enqueue (solid : Solid lock list) {w fuel : ℕ} (fresh : (lock.waiters w).linked = false)
    (enough : list.length ≤ fuel) : ∃ list', Solid (lock.enqueue fuel w).1 list' ∧
      ((lock.enqueue fuel w).2 = false → list' ≠ []) := by
  simp only [RawLock.enqueue]
  split
  · rename_i state got
    obtain ⟨_, parked, writerParked, exclusive, _⟩ := Word.tryLock_some got
    exact ⟨list, solid.word parked writerParked exclusive, by simp⟩
  · rename_i failed
    let state : Word := { lock.state with
      parked := true, writerParked := lock.state.writerParked || !(lock.waiters w).shared }
    have out : w ∉ list := by
      intro member
      simp [(solid.linked.linked w).mpr member] at fresh
    have bare : RawLock.Linked { lock with state } list :=
      solid.linked.of_same rfl rfl rfl (fun _ => rfl) fun _ _ => ⟨rfl, rfl, rfl⟩
    obtain ⟨first, second, _, linked⟩ := bare.link out enough
    refine ⟨first ++ w :: second, ⟨linked, ⟨?_, ?_⟩, ?_⟩, by simp⟩
    · rw [RawLock.link_state]
      simp
    · rw [RawLock.link_state, RawLock.link_writers]
      simp only [solid.flagged.writerParked]
      cases (lock.waiters w).shared <;> simp
    · rw [RawLock.link_state]
      exact solid.exclusive

end Solid

namespace Inv

section

variable {world : World Waker} {now others : List (Op Waker)} {list : List ℕ}

theorem few {ops : List (Op Waker)} (inv : Inv world ops list) : list.length ≤ world.made := by
  have within : list ⊆ List.range world.made := by
    intro w member
    by_contra out
    obtain ⟨queued, _, _⟩ := inv.roles.fresh w (by simpa using out)
    have := (inv.roles.out w queued).1
    simp [(inv.solid.linked.linked w).mpr member] at this
  simpa using (subperm_of_subset inv.solid.linked.threads.nodup within).length_le

theorem gain (inv : Inv world (now ++ others) list)
    (quiet : ∀ op ∈ now, op.about = none ∧ ∀ shared, op.holds shared = false) {shared : Bool}
    {state : Word} (got : world.lock.state.tryLock shared = some state) :
    Inv (hold { world with lock := { world.lock with state } } shared) ([] ++ others) list := by
  obtain ⟨busy, parked, writerParked, exclusive, count⟩ := Word.tryLock_some got
  have none : ∀ shared, now.countP (Op.holds shared) = 0 := by
    intro shared
    rw [countP_eq_zero]
    intro op member
    simp [(quiet op member).2 shared]
  refine ⟨inv.solid.word parked writerParked exclusive, ?_, ?_, .of_busy busy⟩
  · refine holders_beside inv.holders rfl (fun _ _ _ => rfl) fun other => ?_
    rw [hold_held, none]
    have := count other
    simp only [hold, setHeld, countP_nil] at this ⊢
    omega
  · exact inv.roles.beside (fun op member => (quiet op (by simpa using member)).1) rfl
      fun w => ⟨rfl, rfl, fun out => ⟨out, rfl⟩, fun stays => ⟨stays, rfl⟩⟩

theorem make {more : List (Op Waker)} (inv : Inv world (now ++ others) list)
    (quiet : ∀ op ∈ now, op.about = none ∧ (∀ shared, op.holds shared = false) ∧ op.releases = false)
    (about : ∀ op ∈ more, op.about = some world.made ∧ ∀ shared, op.holds shared = false)
    {waiter : Waiter Waker} (linked : waiter.linked = false) (state : waiter.state = .waiting)
    {idle : Bool} (fits : ∀ op ∈ more, op.Fits (world.make waiter))
    (count : more.length + idle.toNat ≤ 1) :
    Inv ((world.make waiter).setIdle world.made idle) (more ++ others) list := by
  obtain ⟨queued, idle', none⟩ := inv.roles.fresh world.made (Nat.le_refl _)
  have out := (inv.roles.out world.made queued).1
  have away : world.made ∉ list := by
    intro member
    simp [(inv.solid.linked.linked world.made).mpr member] at out
  have same : ∀ other, other ≠ world.made →
      Same world ((world.make waiter).setIdle world.made idle) other := by
    intro other apart
    constructor <;> simp [World.make, setIdle, RawLock.setWaiter, World.shared, apart]
  have nowNone : ∀ shared, now.countP (Op.holds shared) = 0 := by
    intro shared
    rw [countP_eq_zero]
    intro op member
    simp [(quiet op member).2.1 shared]
  have moreNone : ∀ shared, more.countP (Op.holds shared) = 0 := by
    intro shared
    rw [countP_eq_zero]
    intro op member
    simp [(about op member).2 shared]
  refine ⟨?_, fun shared => ?_, ?_, ?_⟩
  · exact inv.solid.setWaiter (fun member => absurd member away) (linked.trans out.symm)
  · have old := inv.holders shared
    have last : World.granted ((world.make waiter).setIdle world.made idle) shared world.made =
        false := granted_of_queued (by simpa [World.make, setIdle] using queued) shared
    have rest : (List.range world.made).countP
        (World.granted ((world.make waiter).setIdle world.made idle) shared) =
          (List.range world.made).countP (world.granted shared) :=
      countP_congr fun w member => by
        rw [(same w (Nat.ne_of_lt (mem_range.mp member))).granted]
    simp only [World.holders, countP_append, nowNone, moreNone] at old ⊢
    change world.lock.state.count shared = world.held shared + _ +
      (List.range (world.made + 1)).countP _
    rw [range_succ, countP_append, rest, countP_singleton, last]
    simpa using old
  · refine @Roles.change _ _ _ _ _ _ world.made inv.roles ?_ ?_ (Nat.le_succ _) (Nat.lt_succ_self _) ?_ ?_ ?_ ?_ same
    · intro op member
      rcases mem_append.mp member with member | member
      · exact Or.inr (quiet op member).1
      · exact Or.inl (about op member).1
    · rw [countP_append] at none
      omega
    · have : more.countP (Op.on world.made) ≤ more.length := countP_le_length
      simp only [setIdle, Function.update_self]
      omega
    · intro op member
      have := fits op member
      cases op <;> exact this
    · simp [World.make, setIdle, RawLock.setWaiter, linked, state]
    · simp [World.make, setIdle, RawLock.setWaiter, linked]
  · refine inv.wakes.keep id id id ?_ (Nat.le_succ _) (fun _ owes => owes) fun w below => ?_
    · rintro ⟨op, member, wakes⟩
      simp [(quiet op member).2.2] at wakes
    · exact (same w (Nat.ne_of_lt below)).shared

theorem spin (platform : Platform) {shared : Bool} {left : ℕ}
    (inv : Inv world ([.spin shared left] ++ others) list) :
    ∃ list', Inv (world.spin platform shared left).1
      ((world.spin platform shared left).2 ++ others) list' := by
  have block : Inv (world.block platform shared).1 ((world.block platform shared).2 ++ others) list := by
    obtain ⟨queued, idle, _⟩ := inv.roles.fresh world.made (Nat.le_refl _)
    let waiter : Waiter Waker :=
      { shared, wake := .task platform.current, priority := platform.priority
        since := platform.now }
    have made : Inv ((world.make waiter).setIdle world.made false)
        ([.enqueue world.made] ++ others) list :=
      inv.make (by simp [Op.about, Op.holds, Op.releases]) (by simp [Op.about, Op.holds]) rfl rfl
        (by simpa [Op.Fits, World.make, RawLock.setWaiter, waiter] using queued) (by simp)
    have same : Function.update world.idle world.made false = world.idle := by
      rw [← idle, Function.update_eq_self]
    simpa [World.block, setIdle, World.make, same] using made
  cases left with
  | zero => exact ⟨list, block⟩
  | succ left =>
    simp only [World.spin]
    split
    · simp only [World.take]
      split
      · rename_i state got
        exact ⟨list, inv.gain (by simp [Op.about, Op.holds]) got⟩
      · refine ⟨list, inv.solid, ?_, ?_, ?_⟩
        · exact holders_beside inv.holders rfl (fun _ _ _ => rfl) fun _ => rfl
        · exact inv.roles.beside (by simp [Op.about]) rfl
            fun w => ⟨rfl, rfl, fun out => ⟨out, rfl⟩, fun stays => ⟨stays, rfl⟩⟩
        · exact inv.wakes.keep id id id (by simp [Op.releases]) (Nat.le_refl _)
            (fun _ owes => owes) fun _ _ => rfl
    · exact ⟨list, block⟩

theorem alone {op : Op Waker} {w : ℕ} (inv : Inv world ([op] ++ others) list)
    (about : op.about = some w) : others.countP (Op.on w) = 0 ∧ w < world.made ∧
      op.Fits world ∧ world.idle w = false := by
  have here : List.countP (Op.on w) [op] = 1 := by simp [Op.on, about]
  obtain ⟨none, one, below⟩ := inv.roles.alone (w := w) (by omega)
  refine ⟨none, below, inv.roles.fits op (by simp), ?_⟩
  cases idle : world.idle w with
  | false => rfl
  | true =>
    rw [here, idle] at one
    simp at one

theorem mine_of_about {op : Op Waker} {w : ℕ} (about : op.about = some w) (idle : ℕ) :
    0 < List.countP (Op.on w) [op] + idle := by
  have here : List.countP (Op.on w) [op] = 1 := by simp [Op.on, about]
  omega

theorem about {after : World Waker} {more : List (Op Waker)} {list' : List ℕ}
    (inv : Inv world (now ++ others) list) (w : ℕ)
    (mine : 0 < now.countP (Op.on w) + (world.idle w).toNat)
    (about : ∀ op ∈ now ++ more, op.about = some w ∨ op.about = none)
    (made : after.made = world.made) (same : ∀ other, other ≠ w → Same world after other)
    (count : more.countP (Op.on w) + (after.idle w).toNat ≤ 1) (fits : ∀ op ∈ more, op.Fits after)
    (out : after.queued w = false →
      (after.lock.waiters w).linked = false ∧ (after.lock.waiters w).state ≠ .retry)
    (waiting : (after.lock.waiters w).linked → (after.lock.waiters w).state = .waiting)
    (balance : ∀ shared, after.held shared + more.countP (Op.holds shared) +
      (after.granted shared w).toNat + world.lock.state.count shared =
        world.held shared + now.countP (Op.holds shared) + (world.granted shared w).toNat +
          after.lock.state.count shared)
    (solid : Solid after.lock list') (wakes : Wakes after (more ++ others) list') :
    Inv after (more ++ others) list' := by
  obtain ⟨none, _, below⟩ := inv.roles.alone mine
  exact ⟨solid, holders_change inv.holders made below same balance,
    inv.roles.change about none (Nat.le_of_eq made.symm) (made ▸ below) count fits out waiting same,
    wakes⟩

theorem enqueue {w : ℕ} (inv : Inv world ([.enqueue w] ++ others) list) :
    ∃ list', Inv (world.enqueue w).1 ((world.enqueue w).2 ++ others) list' := by
  obtain ⟨_, below, ⟨queued, state⟩, idle⟩ := inv.alone rfl
  have out := (inv.roles.out w queued).1
  obtain ⟨list', solid, _⟩ := inv.solid.enqueue out inv.few
  refine ⟨list', ?_⟩
  have none := granted_of_queued queued
  cases got : world.lock.state.tryLock (world.lock.waiters w).shared with
  | some word =>
    obtain ⟨busy, _, _, _, counts⟩ := Word.tryLock_some got
    simp only [World.enqueue, RawLock.enqueue, got, if_true] at solid ⊢
    refine inv.about w (mine_of_about rfl _) (by simp [Op.about]) rfl (fun other apart => ?_)
      ?_ (by simp) (fun _ => ?_) (fun linked => ?_) (fun shared => ?_) solid (.of_busy busy)
    · exact ⟨rfl, rfl, rfl, rfl, rfl⟩
    · simpa [hold, setHeld, setOwed] using Bool.toNat_le _
    · exact ⟨out, by simp [hold, setHeld, setOwed, state]⟩
    · simp [hold, setHeld, setOwed, out] at linked
    · have := counts shared
      simp only [hold_held, World.granted]
      by_cases mine : (world.lock.waiters w).shared = shared <;>
        simp [hold, setHeld, setOwed, World.shared, Op.holds, queued, mine] at this ⊢ <;> omega
  | none =>
    simp only [World.enqueue, RawLock.enqueue, got, Bool.false_eq_true, if_false] at solid ⊢
    refine inv.about w (mine_of_about rfl _) (by simp [Op.about]) rfl (fun other apart => ?_)
      ?_ ?_ (fun queued => ?_) (fun linked => ?_) (fun shared => ?_) solid ?_
    · constructor <;> simp [setQueued, setOwed, World.shared, apart]
    · simp [setQueued, setOwed, idle, Op.on, Op.about]
    · simp [Op.Fits, setQueued]
    · simp [setQueued] at queued
    · simpa [setQueued, setOwed] using state
    · rw [none, granted_of_state (by simp [setQueued, setOwed, state])]
      simp [setQueued, setOwed, Op.holds, Word.count]
    · refine inv.wakes.refused inv.solid.flagged got ?_ (by simp [Op.releases]) (Nat.le_refl _)
        (fun other apart owes => ?_) fun other _ => ?_
      · simp [setQueued, setOwed, Word.free]
      · simpa [setQueued, setOwed, apart] using owes
      · simp [World.shared, setQueued, setOwed]

theorem blocked {w : ℕ} (inv : Inv world ([.blocked w] ++ others) list) :
    ∃ list', Inv (world.blocked w).1 ((world.blocked w).2 ++ others) list' := by
  obtain ⟨_, below, queued, idle⟩ := inv.alone rfl
  have queued' : world.queued w = true := queued
  simp only [World.blocked]
  split
  · exact ⟨list, inv⟩
  · rename_i state
    have out : (world.lock.waiters w).linked = false := by
      by_contra linked
      simp [inv.roles.waiting w (by simpa using linked)] at state
    refine ⟨list, inv.about w (mine_of_about rfl _) (by simp [Op.about]) rfl (fun other apart => ?_)
      ?_ (by simp) (fun _ => ?_) (fun linked => ?_) (fun shared => ?_) inv.solid ?_⟩
    · constructor <;> simp [hold, setHeld, setQueued, World.shared, apart]
    · simpa [hold, setHeld, setQueued] using Bool.toNat_le _
    · exact ⟨out, by simp [hold, setHeld, setQueued, state]⟩
    · simp [hold, setHeld, setQueued, out] at linked
    · simp only [hold_held, World.granted]
      by_cases mine : (world.lock.waiters w).shared = shared <;>
        simp [hold, setHeld, setQueued, World.shared, Op.holds, queued', state, mine]
    · exact inv.wakes.keep id id id (by simp [Op.releases]) (Nat.le_refl _) (fun _ owes => owes)
        fun _ _ => rfl
  · rename_i state
    refine ⟨list, inv.about w (mine_of_about rfl _) (by simp [Op.about]) rfl (fun _ _ => Same.rfl)
      ?_ ?_ (inv.roles.out w) (inv.roles.waiting w) (fun shared => rfl) inv.solid ?_⟩
    · simp [Op.on, Op.about, idle]
    · simpa [Op.Fits, state] using queued
    · exact inv.wakes.keep id id id (by simp [Op.releases]) (Nat.le_refl _) (fun _ owes => owes)
        fun _ _ => rfl

theorem rearm {op next : Op Waker} {w : ℕ} (inv : Inv world ([op] ++ others) list)
    (about : op.about = some w) (about' : next.about = some w)
    (holds : ∀ shared, op.holds shared = false) (holds' : ∀ shared, next.holds shared = false)
    (releases : op.releases = false) (retry : (world.lock.waiters w).state = .retry)
    (fits : next.Fits (world.rearm w)) : Inv (world.rearm w) ([next] ++ others) list := by
  obtain ⟨_, below, _, idle⟩ := inv.alone about
  have out : (world.lock.waiters w).linked = false := by
    by_contra linked
    simp [inv.roles.waiting w (by simpa using linked)] at retry
  refine inv.about w (mine_of_about about _) (by simp [about, about']) rfl (fun other apart => ?_)
    ?_ (by simpa using fits) (fun _ => ?_) (fun linked => ?_) (fun shared => ?_) ?_ ?_
  · constructor <;> simp [World.rearm, setQueued, RawLock.setState, RawLock.setWaiter, World.shared, apart]
  · simp [World.rearm, setQueued, idle, Op.on, about']
  · simp [World.rearm, RawLock.setState, RawLock.setWaiter, out]
  · simp [World.rearm, RawLock.setState, RawLock.setWaiter]
  · rw [granted_of_queued (by simp [World.rearm, setQueued]), granted_of_state (by simp [retry])]
    simp [World.rearm, setQueued, RawLock.setState, RawLock.setWaiter, holds, holds']
  · exact inv.solid.setWaiter (fun _ => ⟨rfl, rfl, rfl⟩) rfl
  · refine inv.wakes.keep id id id (by simp [releases]) (Nat.le_refl _) (fun _ owes => owes)
      fun other _ => ?_
    by_cases here : other = w <;>
      simp [World.rearm, World.shared, setQueued, RawLock.setState, RawLock.setWaiter, here]

theorem again {w : ℕ} (inv : Inv world ([.again w] ++ others) list) :
    Inv (world.rearm w) ([.enqueue w] ++ others) list := by
  obtain ⟨_, _, ⟨_, retry⟩, _⟩ := inv.alone rfl
  refine inv.rearm rfl rfl (fun _ => rfl) (fun _ => rfl) rfl retry ?_
  simp [Op.Fits, World.rearm, setQueued, RawLock.setState, RawLock.setWaiter]

theorem poll {w : ℕ} {waker : Waker} (inv : Inv world ([.poll w waker] ++ others) list) :
    ∃ list', Inv (world.poll w waker).1 ((world.poll w waker).2 ++ others) list' := by
  obtain ⟨_, below, _, idle⟩ := inv.alone rfl
  have onto : ∀ {next : Op Waker}, next.about = some w → (∀ shared, next.holds shared = false) →
      next.Fits world → Inv world ([next] ++ others) list := by
    intro next about holds fits
    have poll : (Op.poll w waker).about = some w := rfl
    have polls : ∀ shared, (Op.poll w waker).holds shared = false := fun _ => rfl
    refine inv.about w (mine_of_about rfl _) (by simp [poll, about]) rfl (fun _ _ => Same.rfl)
      ?_ (by simpa using fits) (inv.roles.out w) (inv.roles.waiting w) (fun shared => ?_) inv.solid ?_
    · simp [Op.on, about, idle]
    · simp [holds, polls]
    · exact inv.wakes.keep id id id (by simp [Op.releases]) (Nat.le_refl _) (fun _ owes => owes)
        fun _ _ => rfl
  simp only [World.poll]
  split
  · rename_i queued
    split
    · rename_i state
      have out : (world.lock.waiters w).linked = false := by
        by_contra linked
        simp [inv.roles.waiting w (by simpa using linked)] at state
      refine ⟨list, inv.about w (mine_of_about rfl _) (by simp [Op.about]) rfl (fun other apart => ?_)
        ?_ (by simp) (fun _ => ?_) (fun linked => ?_) (fun shared => ?_) inv.solid ?_⟩
      · constructor <;> simp [hold, setHeld, setQueued, setIdle, World.shared, apart]
      · simp [hold, setHeld, setQueued, setIdle]
      · exact ⟨out, by simp [hold, setHeld, setQueued, setIdle, state]⟩
      · simp [hold, setHeld, setQueued, setIdle, out] at linked
      · simp only [hold_held, World.granted]
        by_cases mine : (world.lock.waiters w).shared = shared <;>
          simp [hold, setHeld, setQueued, setIdle, World.shared, Op.holds, queued, state, mine]
      · exact inv.wakes.keep id id id (by simp [Op.releases]) (Nat.le_refl _) (fun _ owes => owes)
          fun _ _ => rfl
    · rename_i state
      refine ⟨list, inv.rearm rfl rfl (fun _ => rfl) (fun _ => rfl) rfl state ?_⟩
      simp [Op.Fits, World.rearm, setQueued]
    · exact ⟨list, onto rfl (fun _ => rfl) queued⟩
  · rename_i queued
    exact ⟨list, onto rfl (fun _ => rfl) (by simpa [Op.Fits] using queued)⟩

theorem relink {w : ℕ} {waker : Waker} (inv : Inv world ([.relink w waker] ++ others) list) :
    ∃ list', Inv (world.relink w waker).1 ((world.relink w waker).2 ++ others) list' := by
  obtain ⟨_, below, queued, idle⟩ := inv.alone rfl
  refine ⟨list, ?_⟩
  simp only [World.relink]
  split
  · rename_i linked
    have state := inv.roles.waiting w linked
    refine inv.about w (mine_of_about rfl _) (by simp [Op.about]) rfl (fun other apart => ?_)
      ?_ (by simp) (fun out => ?_) (fun linked => ?_) (fun shared => ?_) ?_ ?_
    · constructor <;> simp [setIdle, RawLock.setWake, RawLock.setWaiter, World.shared, apart]
    · simp [setIdle]
    · exact absurd out (by simpa [setIdle, Op.Fits] using queued)
    · simpa [setIdle, RawLock.setWake, RawLock.setWaiter] using state
    · simp [World.granted, setIdle, RawLock.setWake, RawLock.setWaiter, Op.holds, state]
    · exact inv.solid.setWaiter (fun _ => ⟨rfl, rfl, rfl⟩) rfl
    · refine inv.wakes.keep id id id (by simp [Op.releases]) (Nat.le_refl _) (fun _ owes => owes)
        fun other _ => ?_
      by_cases here : other = w <;>
        simp [World.shared, setIdle, RawLock.setWake, RawLock.setWaiter, here]
  · refine inv.about w (mine_of_about rfl _) (by simp [Op.about]) rfl (fun _ _ => Same.rfl)
      ?_ (by simp [Op.Fits]) (inv.roles.out w) (inv.roles.waiting w) (fun shared => rfl) inv.solid ?_
    · simp [Op.on, Op.about, idle]
    · exact inv.wakes.keep id id id (by simp [Op.releases]) (Nat.le_refl _) (fun _ owes => owes)
        fun _ _ => rfl

theorem start_same (platform : Platform) (w other : ℕ) (waker : Waker) :
    Same world (world.start platform w waker) other := by
  by_cases here : other = w
  · subst here
    cases started : world.started other <;>
      constructor <;> simp [World.start, started, RawLock.setWaiter, World.shared]
  · constructor <;> simp [World.start, RawLock.setWaiter, World.shared, here]

theorem tryLock (platform : Platform) {w : ℕ} {waker : Waker}
    (inv : Inv world ([.tryLock w waker] ++ others) list) :
    ∃ list', Inv (world.tryLock platform w waker).1
      ((world.tryLock platform w waker).2 ++ others) list' := by
  obtain ⟨_, below, queued, idle⟩ := inv.alone rfl
  have queued' : world.queued w = false := queued
  obtain ⟨out, ready⟩ := inv.roles.out w queued
  refine ⟨list, ?_⟩
  cases got : world.lock.state.tryLock (world.shared w) with
  | some word =>
    obtain ⟨busy, parked, writerParked, exclusive, counts⟩ := Word.tryLock_some got
    have got' : (world.setOwed w false).lock.state.tryLock ((world.setOwed w false).shared w) =
        some word := got
    simp only [World.tryLock, got']
    refine inv.about w (mine_of_about rfl _) (by simp [Op.about]) rfl (fun other apart => ?_)
      ?_ (by simp) (fun _ => ⟨out, ready⟩) (fun linked => ?_) (fun shared => ?_)
      (inv.solid.word parked writerParked exclusive) (.of_busy busy)
    · constructor <;> simp [hold, setHeld, setIdle, setOwed, World.shared, apart]
    · simp [hold, setHeld, setIdle]
    · simp [hold, setHeld, setIdle, setOwed, out] at linked
    · have := counts shared
      simp only [hold_held, World.granted]
      by_cases mine : (world.lock.waiters w).shared = shared <;>
        simp [hold, setHeld, setIdle, setOwed, World.shared, Op.holds, queued', mine] at this ⊢ <;>
        omega
  | none =>
    have got' : (world.setOwed w false).lock.state.tryLock ((world.setOwed w false).shared w) =
        none := got
    simp only [World.tryLock, got']
    have kept : ∀ other, Same world ((world.setOwed w false).start platform w waker) other := by
      intro other
      have := @start_same _ (world.setOwed w false) platform w other waker
      exact ⟨this.idle, this.queued, this.linked, this.state, this.shared⟩
    refine inv.about w (mine_of_about rfl _) (by simp [Op.about]) rfl (fun other apart => kept other)
      ?_ ?_ (fun _ => ?_) (fun linked => ?_) (fun shared => ?_) ?_ ?_
    · simp [(kept w).idle, idle, Op.on, Op.about]
    · simpa [Op.Fits, (kept w).queued] using queued'
    · rw [(kept w).linked, (kept w).state]
      exact ⟨out, ready⟩
    · rw [(kept w).linked, out] at linked
      cases linked
    · rw [(kept w).granted]
      rfl
    · refine inv.solid.setWaiter (fun member => ?_) ?_
      · simp [(inv.solid.linked.linked w).mpr member] at out
      · change (if world.started w then _ else _ : Waiter Waker).linked = _
        split <;> rfl
    · refine inv.wakes.refused inv.solid.flagged got id (by simp [Op.releases]) (Nat.le_refl _)
        (fun other apart owes => ?_) fun other _ => (kept other).shared
      simpa [World.start, setOwed, apart] using owes

theorem pollEnqueue {w : ℕ} (inv : Inv world ([.pollEnqueue w] ++ others) list)
    (sound : world.lock.state.tryLock (world.shared w) = none →
      (world.lock.waiters w).state ≠ .granted) :
    ∃ list', Inv (world.pollEnqueue w).1 ((world.pollEnqueue w).2 ++ others) list' := by
  obtain ⟨_, below, queued, idle⟩ := inv.alone rfl
  have queued' : world.queued w = false := queued
  obtain ⟨out, ready⟩ := inv.roles.out w queued
  obtain ⟨list', solid, _⟩ := inv.solid.enqueue out inv.few
  refine ⟨list', ?_⟩
  cases got : world.lock.state.tryLock (world.lock.waiters w).shared with
  | some word =>
    obtain ⟨busy, _, _, _, counts⟩ := Word.tryLock_some got
    simp only [World.pollEnqueue, RawLock.enqueue, got, if_true] at solid ⊢
    refine inv.about w (mine_of_about rfl _) (by simp [Op.about]) rfl (fun other apart => ?_)
      ?_ (by simp) (fun _ => ?_) (fun linked => ?_) (fun shared => ?_)
      (solid.setWaiter (fun _ => ⟨rfl, rfl, rfl⟩) rfl) (.of_busy busy)
    · constructor <;>
        simp [hold, setHeld, setIdle, RawLock.setWake, RawLock.setWaiter, World.shared, apart]
    · simp [hold, setHeld, setIdle]
    · simpa [hold, setHeld, setIdle, RawLock.setWake, RawLock.setWaiter] using ⟨out, ready⟩
    · simp [hold, setHeld, setIdle, RawLock.setWake, RawLock.setWaiter, out] at linked
    · have := counts shared
      simp only [hold_held, World.granted]
      by_cases mine : (world.lock.waiters w).shared = shared <;>
        simp [hold, setHeld, setIdle, RawLock.setWake, RawLock.setWaiter, World.shared, Op.holds,
          queued', mine] at this ⊢ <;> omega
  | none =>
    have waits : (world.lock.waiters w).state = .waiting := by
      cases state : (world.lock.waiters w).state with
      | waiting => rfl
      | retry => exact absurd state ready
      | granted => exact absurd state (sound got)
    simp only [World.pollEnqueue, RawLock.enqueue, got, Bool.false_eq_true, if_false] at solid ⊢
    refine inv.about w (mine_of_about rfl _) (by simp [Op.about]) rfl (fun other apart => ?_)
      ?_ (by simp) (fun queued => ?_) (fun linked => ?_) (fun shared => ?_) solid ?_
    · constructor <;> simp [setQueued, setIdle, World.shared, apart]
    · simp [setQueued, setIdle]
    · simp [setQueued] at queued
    · simpa [setQueued, setIdle] using waits
    · rw [granted_of_queued queued', granted_of_state (by simp [setQueued, setIdle, waits])]
      simp [setQueued, setIdle, Op.holds, Word.count]
    · refine inv.wakes.refused inv.solid.flagged got ?_ (by simp [Op.releases]) (Nat.le_refl _)
        (fun other apart owes => owes) fun other _ => ?_
      · simp [setQueued, setIdle, Word.free]
      · simp [World.shared, setQueued, setIdle]

theorem flags_eq {lock : RawLock Waker} (linked : lock.Linked list) :
    lock.flags = (!list.isEmpty, decide (0 < lock.writers)) := by
  have none : list = [] → lock.writers = 0 := by
    rintro rfl
    exact linked.writers
  rw [RawLock.flags, linked.head]
  cases list with
  | nil => simp [none rfl]
  | cons w rest =>
    cases lock.writers <;> simp

theorem drop {w : ℕ} (inv : Inv world ([.drop w] ++ others) list) :
    ∃ list', Inv (world.drop w).1 ((world.drop w).2 ++ others) list' := by
  obtain ⟨_, below, queued, idle⟩ := inv.alone rfl
  have queued' : world.queued w = true := queued
  simp only [World.drop]
  split
  · rename_i linked
    have state := inv.roles.waiting w linked
    obtain ⟨first, second, rfl⟩ := append_of_mem ((inv.solid.linked.linked w).mp linked)
    have unlinked := inv.solid.linked.unlink
    have writers : (world.lock.unlink w).writers =
        if (world.lock.waiters w).shared then world.lock.writers else world.lock.writers - 1 := by
      rw [RawLock.unlink_eq]
    have solid : Solid (RawLock.setWake
        { world.lock.unlink w with
          state :=
            { (world.lock.unlink w).state with
              parked := (world.lock.unlink w).state.parked && (world.lock.unlink w).flags.1
              writerParked :=
                (world.lock.unlink w).state.writerParked && (world.lock.unlink w).flags.2 } }
        w (.waker none)) (first ++ second) := by
      refine Solid.setWaiter ⟨?_, ⟨?_, ?_⟩, ?_⟩ (fun _ => ⟨rfl, rfl, rfl⟩) rfl
      · exact unlinked.of_same rfl rfl rfl (fun _ => rfl) fun _ _ => ⟨rfl, rfl, rfl⟩
      · simp [flags_eq unlinked, inv.solid.flagged.parked]
      · have some : 0 < (world.lock.unlink w).writers → 0 < world.lock.writers := by
          rw [writers]
          split <;> omega
        simpa [flags_eq unlinked, inv.solid.flagged.writerParked] using some
      · simpa using inv.solid.exclusive
    refine ⟨first ++ second, ?_⟩
    have holds : ∀ shared, List.countP (Op.holds shared)
        (if world.shared w then [] else [Op.release false] : List (Op Waker)) = 0 := by
      intro shared
      split <;> simp [Op.holds]
    refine inv.about w (mine_of_about rfl _) ?_ rfl (fun other apart => ?_) ?_ ?_ (fun _ => ?_)
      (fun linked => ?_) (fun shared => ?_) solid ?_
    · intro op member
      have here : op = .drop w ∨ op = .release false := by
        rcases mem_append.mp member with member | member
        · exact Or.inl (by simpa using member)
        · split at member
          · simp at member
          · exact Or.inr (by simpa using member)
      rcases here with rfl | rfl <;> simp [Op.about]
    · constructor <;> simp [setQueued, RawLock.setWake, RawLock.setWaiter, World.shared, apart]
    · cases world.shared w <;> simp [setQueued, idle, Op.on, Op.about]
    · cases world.shared w <;> simp [Op.Fits]
    · simp [RawLock.setWake, RawLock.setWaiter, state]
    · simp [RawLock.setWake, RawLock.setWaiter] at linked
    · rw [holds, granted_of_queued (by simp [setQueued]), granted_of_state (by simp [state])]
      cases shared <;>
        simp [setQueued, RawLock.setWake, RawLock.setWaiter, Op.holds, Word.count]
    · cases alone : world.shared w with
      | true =>
        refine inv.wakes.keep ?_ ?_ (fun _ => by simp) (by simp [Op.releases]) (Nat.le_refl _)
          (fun _ owes => owes) fun other _ => ?_
        · simp [RawLock.setWake, RawLock.setWaiter, Word.free]
        · change 0 < (world.lock.unlink w).writers → _
          rw [writers]
          split <;> omega
        · by_cases here : other = w <;>
            simp [World.shared, RawLock.setWake, RawLock.setWaiter, here]
      | false => exact .of_releases (.release false) (by simp) rfl
  · rename_i out
    refine ⟨list, inv.about w (mine_of_about rfl _) (by simp [Op.about]) rfl (fun _ _ => Same.rfl)
      ?_ ?_ (inv.roles.out w) (inv.roles.waiting w) (fun shared => rfl) inv.solid ?_⟩
    · simp [Op.on, Op.about, idle]
    · simpa [Op.Fits, queued'] using out
    · exact inv.wakes.keep id id id (by simp [Op.releases]) (Nat.le_refl _) (fun _ owes => owes)
        fun _ _ => rfl

theorem dropState {w : ℕ} (inv : Inv world ([.dropState w] ++ others) list) :
    ∃ list', Inv (world.dropState w).1 ((world.dropState w).2 ++ others) list' := by
  obtain ⟨_, below, ⟨queued, out⟩, idle⟩ := inv.alone rfl
  have away : w ∉ list := by
    intro member
    simp [(inv.solid.linked.linked w).mpr member] at out
  have solid : Solid (world.forget w).lock list :=
    inv.solid.setWaiter (fun member => absurd member away) out.symm
  have shared' : ∀ other, (world.forget w).shared other = world.shared other := by
    intro other
    by_cases here : other = w
    · subst here
      simp [World.forget, RawLock.setWaiter, World.shared]
    · simp [World.forget, RawLock.setWaiter, World.shared, here]
  have same : ∀ other, other ≠ w → Same world (world.forget w) other := by
    intro other apart
    constructor <;> simp [World.forget, setQueued, RawLock.setWaiter, World.shared, apart]
  simp only [World.dropState]
  split
  · rename_i state
    refine ⟨list, inv.about w (mine_of_about rfl _) (by simp [Op.about]) rfl same ?_
      (by simp [Op.Fits]) (fun _ => ?_) (fun _ => ?_) (fun shared => ?_) solid ?_⟩
    · simp [World.forget, setQueued, idle, Op.on, Op.about]
    · simp [World.forget, RawLock.setWaiter]
    · simp [World.forget, RawLock.setWaiter]
    · rw [granted_of_queued (by simp [World.forget, setQueued])]
      by_cases mine : (world.lock.waiters w).shared = shared <;>
        simp [World.granted, World.forget, setQueued, RawLock.setWaiter, Op.holds, World.shared,
          queued, state, mine]
    · exact inv.wakes.keep id id id (by simp [Op.releases]) (Nat.le_refl _) (fun _ owes => owes)
        fun other _ => shared' other
  · rename_i state
    refine ⟨list, inv.about w (mine_of_about rfl _) (by simp [Op.about]) rfl (fun other apart => ?_) ?_
      (by simp [Op.Fits]) (fun _ => ?_) (fun _ => ?_) (fun shared => ?_) solid
      (.of_releases (.release false) (by simp) rfl)⟩
    · have := same other apart
      exact ⟨this.idle, this.queued, this.linked, this.state, this.shared⟩
    · simp [World.forget, setQueued, setOwed, idle, Op.on, Op.about]
    · simp [World.forget, setOwed, RawLock.setWaiter]
    · simp [World.forget, setOwed, RawLock.setWaiter]
    · rw [granted_of_queued (by simp [World.forget, setQueued, setOwed]),
        granted_of_state (by simpa using state)]
      simp [World.forget, setQueued, setOwed, RawLock.setWaiter, Op.holds]

theorem empty_of_unparked {ops : List (Op Waker)} (inv : Inv world ops list)
    (unparked : world.lock.state.parked = false) : list = [] ∧ world.lock.writers = 0 := by
  have empty := inv.solid.flagged.parked
  rw [unparked] at empty
  have none : list = [] := by simpa using empty.symm
  subst none
  exact ⟨rfl, inv.solid.linked.writers⟩

theorem unlock {shared : Bool} (inv : Inv world ([.unlock shared] ++ others) list) :
    Inv (world.unlock shared).1 ((world.unlock shared).2 ++ others) list := by
  have holder : 0 < world.lock.state.count shared := by
    have here : List.countP (Op.holds shared) [(.unlock shared : Op Waker)] = 1 := by
      simp [Op.holds]
    rw [inv.holders shared, World.holders, countP_append, here]
    omega
  have keeps : ∀ state w, Keeps world (world.setWord state) w := fun state w =>
    ⟨rfl, rfl, fun out => ⟨out, rfl⟩, fun stays => ⟨stays, rfl⟩⟩
  cases shared with
  | true =>
    simp only [World.unlock, if_true]
    have readers : 0 < world.lock.state.readers := holder
    have open' : world.lock.state.writer = false := by
      by_contra writer
      have := inv.solid.exclusive (by simpa using writer)
      omega
    have more : ∀ op ∈ (if world.lock.state.readers = 1 ∧ world.lock.state.parked = true
        then [Op.release false] else [] : List (Op Waker)), op = .release false := by
      intro op member
      split at member
      · simpa using member
      · simp at member
    refine ⟨inv.solid.word rfl rfl (by simp [open']), ?_, ?_, ?_⟩
    · refine holders_beside inv.holders rfl (fun _ _ _ => rfl) fun shared => ?_
      have none : List.countP (Op.holds shared) (if world.lock.state.readers = 1 ∧
          world.lock.state.parked = true then [Op.release false] else [] : List (Op Waker)) = 0 := by
        rw [countP_eq_zero]
        intro op member
        simp [more op member, Op.holds]
      rw [none]
      cases shared <;> simp [setWord, Word.count, Op.holds]
      omega
    · refine inv.roles.beside (fun op member => ?_) rfl (keeps _)
      rcases mem_append.mp member with member | member
      · simp only [mem_singleton] at member
        rw [member]
        rfl
      · rw [more op member]
        rfl
    · by_cases last : world.lock.state.readers = 1
      · cases parked : world.lock.state.parked with
        | true => exact .of_releases (.release false) (by simp [last]) rfl
        | false =>
          obtain ⟨rfl, none⟩ := inv.empty_of_unparked parked
          refine ⟨fun _ some => ?_, fun _ some => absurd rfl some⟩
          change 0 < world.lock.writers at some
          omega
      · refine .of_busy ?_
        have : ¬ world.lock.state.readers - 1 = 0 := by omega
        simp [setWord, Word.free, this]
  | false =>
    simp only [World.unlock, Bool.false_eq_true, if_false]
    have writer : world.lock.state.writer = true := Word.writer_of_count holder
    split
    · rename_i only
      obtain ⟨rfl, none⟩ := inv.empty_of_unparked (by rw [only])
      refine ⟨inv.solid.word (by rw [only]) (by rw [only]) (by simp), ?_, ?_, ?_⟩
      · refine holders_beside inv.holders rfl (fun _ _ _ => rfl) fun shared => ?_
        cases shared <;> simp [setWord, Word.count, Op.holds, only]
      · exact inv.roles.beside (by simp [Op.about]) rfl (keeps _)
      · refine ⟨fun _ some => ?_, fun _ some => absurd rfl some⟩
        change 0 < world.lock.writers at some
        omega
    · refine ⟨inv.solid, ?_, ?_, .of_releases (.release true) (by simp) rfl⟩
      · refine holders_beside inv.holders rfl (fun _ _ _ => rfl) fun shared => ?_
        cases shared <;> simp [Op.holds]
      · exact inv.roles.beside (by simp [Op.about]) rfl (keeps world.lock.state)

theorem release (platform : Platform) {clear : Bool}
    (inv : Inv world ([.release clear] ++ others) list) :
    ∃ list', Inv (world.release platform clear).1
      ((world.release platform clear).2 ++ others) list' := by
  obtain ⟨list', picked, granted⟩ := inv.solid.linked.grant inv.few clear platform.now
  generalize leftEq : (if clear then { world.lock.state with writer := false }
    else world.lock.state) = left at granted
  have linkedBefore : ∀ w ∈ picked, (world.lock.waiters w).linked = true := fun w member =>
    (inv.solid.linked.linked w).mpr (granted.within w member)
  have queued : ∀ w ∈ picked, world.queued w = true := by
    intro w member
    by_contra unqueued
    have := (inv.roles.out w (by simpa using unqueued)).1
    simp [linkedBefore w member] at this
  have below : ∀ w ∈ picked, w < world.made := by
    intro w member
    by_contra out
    have := (inv.roles.fresh w (by simpa using out)).1
    simp [queued w member] at this
  refine ⟨list', ⟨granted.linked, granted.flagged, granted.exclusive ?_⟩, fun shared => ?_, ?_, ?_⟩
  · subst leftEq
    cases clear with
    | true => simp
    | false => exact inv.solid.exclusive
  · have old := inv.holders shared
    have told : (List.range world.made).countP ((world.release platform clear).1.granted shared) =
        (List.range world.made).countP (world.granted shared) + picked.countP fun w =>
          world.lock.handoff platform.now w && decide ((world.lock.waiters w).shared = shared) := by
      refine countP_told granted.nodup below (fun w out => ?_) fun w member => ?_
      · have shared' : (world.release platform clear).1.shared w = world.shared w := granted.shared w
        have state : ((world.release platform clear).1.lock.waiters w).state =
          (world.lock.waiters w).state := (granted.others w out).2
        simp only [World.granted, shared', state]
        rfl
      · refine ⟨granted_of_state (by simp [inv.roles.waiting w (linkedBefore w member)]) shared, ?_⟩
        simp only [World.granted, World.release, World.shared, (granted.told w member).2,
          granted.shared w, queued w member, Bool.true_and]
        cases world.lock.handoff platform.now w <;> simp
    have held : world.lock.state.count shared =
        left.count shared + if clear && !shared then 1 else 0 := by
      subst leftEq
      cases clear with
      | false => simp
      | true =>
        cases shared with
        | true => simp [Word.count]
        | false =>
          have : 0 < world.lock.state.count false := by
            have mine : Op.holds false (.release true : Op Waker) = true := rfl
            rw [inv.holders false, World.holders, countP_append,
              countP_cons_of_pos mine]
            omega
          have writer := Word.writer_of_count this
          simp [Word.count, writer]
    have count := granted.count shared
    have here : List.countP (Op.holds shared) [(.release clear : Op Waker)] =
        if clear && !shared then 1 else 0 := by
      simp [Op.holds]
    change (world.lock.grant world.made clear platform.now).lock.state.count shared =
      world.held shared + List.countP (Op.holds shared) (_ :: others) +
        (List.range world.made).countP ((world.release platform clear).1.granted shared)
    rw [World.holders, countP_append, here] at old
    rw [told, count, countP_cons]
    simp only [Op.holds, Bool.false_eq_true, if_false]
    omega
  · refine inv.roles.beside (by simp [Op.about, World.release]) rfl fun w => ⟨rfl, rfl, ?_, ?_⟩
    · intro out
      have away : w ∉ picked := by
        intro member
        simp [linkedBefore w member] at out
      rw [← out]
      exact granted.others w away
    · intro stays
      have away : w ∉ picked := by
        intro member
        have := (granted.told w member).1
        simp only [World.release] at stays
        simp [stays] at this
      obtain ⟨linked, state⟩ := granted.others w away
      exact ⟨linked ▸ stays, state⟩
  · have owes : ∀ w ∈ (world.lock.grant world.made clear platform.now).retries,
        w < world.made ∧ (world.release platform clear).1.owed w = true := by
      intro w member
      refine ⟨below w ((granted.retries w).mp member).1, ?_⟩
      simp [World.release, member]
    constructor
    · intro free some
      obtain ⟨w, member, alone⟩ := granted.writerNext free some
      exact Or.inr ⟨w, (owes w member).1, (owes w member).2, (granted.shared w).trans alone⟩
    · intro free some
      rcases granted.next free some with more | retries
      · exact Or.inl ⟨_, mem_append_left _ (mem_singleton_self _), more⟩
      · obtain ⟨w, member⟩ := exists_mem_of_ne_nil _ retries
        exact Or.inr ⟨w, owes w member⟩

theorem waking {wakes : List (Wake Waker)} {more : Bool}
    (inv : Inv world ([.waking wakes more] ++ others) list) :
    Inv (world.waking wakes more).1 ((world.waking wakes more).2 ++ others) list := by
  refine ⟨inv.solid, ?_, ?_, ?_⟩
  · refine holders_beside inv.holders rfl (fun _ _ _ => rfl) fun shared => ?_
    cases more <;> simp [World.waking, Op.holds]
  · refine inv.roles.beside (by cases more <;> simp [World.waking, Op.about]) rfl
      fun w => ⟨rfl, rfl, fun out => ⟨out, rfl⟩, fun stays => ⟨stays, rfl⟩⟩
  · refine inv.wakes.keep id id id ?_ (Nat.le_refl _) (fun _ owes => owes) fun _ _ => rfl
    cases more <;> simp [World.waking, Op.releases]

theorem perm {ops ops' : List (Op Waker)} (inv : Inv world ops list) (perm : ops.Perm ops') :
    Inv world ops' list := by
  have releases : (∃ op ∈ ops, op.releases) → ∃ op ∈ ops', op.releases := by
    rintro ⟨op, member, wakes⟩
    exact ⟨op, perm.mem_iff.mp member, wakes⟩
  refine ⟨inv.solid, fun shared => ?_, ⟨fun w => ?_, fun op member => ?_, inv.roles.out,
    inv.roles.waiting, fun w above => ?_⟩, ⟨fun free some => ?_, fun free some => ?_⟩⟩
  · rw [inv.holders shared, World.holders, World.holders, perm.countP_eq]
  · rw [← perm.countP_eq]
    exact inv.roles.one w
  · exact inv.roles.fits op (perm.mem_iff.mpr member)
  · rw [← perm.countP_eq]
    exact inv.roles.fresh w above
  · exact (inv.wakes.writer free some).imp releases id
  · exact (inv.wakes.next free some).imp releases id

theorem of_ops {ops : List (Op Waker)} (inv : Inv world ops list) (ops' : List (Op Waker)) :
    Inv { world with ops := ops' } ops list := by
  refine ⟨inv.solid, inv.holders, ⟨inv.roles.one, fun op member => ?_, inv.roles.out,
    inv.roles.waiting, inv.roles.fresh⟩, inv.wakes.writer, inv.wakes.next⟩
  have fits := inv.roles.fits op member
  cases op <;> exact fits

theorem begin' {begin : Begin Waker} (inv : Inv world others list)
    (possible : begin.possible world) :
    ∃ list', Inv (world.begin' begin).1 ((world.begin' begin).2 ++ others) list' := by
  have keeps : ∀ w, Keeps world world w := fun w =>
    ⟨rfl, rfl, fun out => ⟨out, rfl⟩, fun stays => ⟨stays, rfl⟩⟩
  have nothing : Inv world ([] ++ others) list := inv
  refine ⟨list, ?_⟩
  cases begin with
  | tryLock shared =>
    simp only [World.begin', World.take]
    split
    · rename_i state got
      exact nothing.gain (by simp) got
    · exact inv
  | lock shared =>
    simp only [World.begin', World.take]
    split
    · rename_i state got
      exact nothing.gain (by simp) got
    · refine ⟨inv.solid, ?_, ?_, ?_⟩
      · exact holders_beside nothing.holders rfl (fun _ _ _ => rfl) fun _ => rfl
      · exact nothing.roles.beside (by simp [Op.about]) rfl keeps
      · exact nothing.wakes.keep id id id (by simp) (Nat.le_refl _) (fun _ owes => owes)
          fun _ _ => rfl
  | unlock shared =>
    have some : 0 < world.held shared := of_decide_eq_true possible
    refine ⟨inv.solid, ?_, ?_, ?_⟩
    · refine holders_beside nothing.holders rfl (fun _ _ _ => rfl) fun other => ?_
      by_cases mine : shared = other
      · subst mine
        simp [World.begin', setHeld, Op.holds]
        omega
      · simp [World.begin', setHeld, Op.holds, mine, Ne.symm mine]
    · exact nothing.roles.beside (by simp [World.begin', Op.about]) rfl
        fun w => ⟨rfl, rfl, fun out => ⟨out, rfl⟩, fun stays => ⟨stays, rfl⟩⟩
    · exact nothing.wakes.keep id id id (by simp) (Nat.le_refl _) (fun _ owes => owes)
        fun _ _ => rfl
  | lockWait shared =>
    exact nothing.make (by simp) (by simp [World.begin']) rfl rfl (by simp [World.begin'])
      (by simp [World.begin'])
  | pollLock w waker =>
    have idle : world.idle w = true := possible
    refine nothing.about w (by simp [idle]) (by simp [World.begin', Op.about]) rfl
      (fun other apart => ?_) ?_ ?_ (inv.roles.out w) (inv.roles.waiting w) (fun shared => rfl)
      inv.solid ?_
    · constructor <;> simp [World.begin', setIdle, World.shared, apart]
    · simp [World.begin', setIdle, Op.on, Op.about]
    · simp [World.begin', Op.Fits]
    · exact nothing.wakes.keep id id id (by simp) (Nat.le_refl _) (fun _ owes => owes)
        fun _ _ => rfl
  | drop w =>
    have idle : world.idle w = true := possible
    have count : List.countP (Op.on w) (world.begin' (.drop w)).2 ≤ 1 := by
      simp only [World.begin']
      split <;> simp [Op.on, Op.about]
    refine nothing.about w (by simp [idle]) (fun op member => ?_) rfl
      (fun other apart => ?_) ?_ (fun op member => ?_) (inv.roles.out w) (inv.roles.waiting w)
      (fun shared => ?_) inv.solid ?_
    · simp only [World.begin', nil_append] at member
      split at member
      · rw [mem_singleton] at member
        exact Or.inl (by rw [member]; rfl)
      · simp at member
    · constructor <;> simp [World.begin', setIdle, World.shared, apart]
    · simpa [World.begin', setIdle] using count
    · simp only [World.begin'] at member ⊢
      split at member
      · rename_i queued
        rw [mem_singleton] at member
        subst member
        exact queued
      · simp at member
    · have none : List.countP (Op.holds shared) (world.begin' (.drop w)).2 = 0 := by
        simp only [World.begin']
        split <;> simp [Op.holds]
      rw [none]
      rfl
    · exact nothing.wakes.keep id id id (by simp) (Nat.le_refl _) (fun _ owes => owes)
        fun _ _ => rfl

end

end Inv

/-- Whether a step queues a `LockWait` that still says it was handed the lock. -/
def requeues (world : World Waker) : Act Waker → Bool
  | .begin _ => false
  | .resume op _ =>
    match world.ops[op]? with
    | some (.pollEnqueue w) =>
      (world.lock.state.tryLock (world.shared w)).isNone &&
        decide ((world.lock.waiters w).state = .granted)
    | _ => false

theorem Inv.act {before after : World Waker} {list : List ℕ} {act : Act Waker}
    (inv : Inv before before.ops list) (sound : before.requeues act = false)
    (eq : before.act act = some after) : ∃ list', Inv after after.ops list' := by
  cases act with
  | begin begin =>
    simp only [World.act] at eq
    split at eq
    · rename_i possible
      cases eq
      obtain ⟨list', inv'⟩ := inv.begin' possible
      exact ⟨list', (inv'.perm perm_append_comm).of_ops _⟩
    · cases eq
  | resume i platform =>
    simp only [World.act] at eq
    split at eq
    · cases eq
    · rename_i op found
      cases eq
      have here : before.ops.Perm ([op] ++ (before.ops.take i ++ before.ops.drop (i + 1))) := by
        obtain ⟨below, found⟩ := List.getElem?_eq_some_iff.mp found
        have split : before.ops = before.ops.take i ++ op :: before.ops.drop (i + 1) := by
          rw [← found, getElem_cons_drop, take_append_drop]
        exact (List.Perm.of_eq split).trans perm_middle
      have done : ∀ {after : World Waker} {more : List (Op Waker)}, (∃ list', Inv after
          (more ++ (before.ops.take i ++ before.ops.drop (i + 1))) list') →
            ∃ list', Inv { after with
              ops := before.ops.take i ++ more ++ before.ops.drop (i + 1) }
              (before.ops.take i ++ more ++ before.ops.drop (i + 1)) list' := by
        rintro after more ⟨list', inv'⟩
        refine ⟨list', (inv'.perm ?_).of_ops _⟩
        rw [← append_assoc]
        exact perm_append_comm.append_right _
      have inv := inv.perm here
      refine done ?_
      cases op with
      | spin shared left => exact inv.spin platform
      | enqueue w => exact inv.enqueue
      | blocked w => exact inv.blocked
      | again w => exact ⟨list, inv.again⟩
      | poll w waker => exact inv.poll
      | relink w waker => exact inv.relink
      | tryLock w waker => exact inv.tryLock platform
      | pollEnqueue w =>
        refine inv.pollEnqueue fun failed granted => ?_
        simp [requeues, found, failed, granted] at sound
      | drop w => exact inv.drop
      | dropState w => exact inv.dropState
      | unlock shared => exact ⟨list, inv.unlock⟩
      | release clear => exact inv.release platform
      | waking wakes more => exact ⟨list, inv.waking⟩

inductive Initial : World Waker → Prop
  | new : Initial {}

abbrev Reachable : World Waker → Prop :=
  Transition.Reachable Initial fun before after => ∃ act, before.act act = some after

/-- The states of runs that queue no `LockWait` that still says it was handed
the lock. -/
abbrev SoundReachable : World Waker → Prop :=
  Transition.Reachable Initial fun before after =>
    ∃ act, before.requeues act = false ∧ before.act act = some after

theorem Inv.of_reachable {world : World Waker} (reachable : SoundReachable world) :
    ∃ list, Inv world world.ops list := by
  refine @Transition.Reachable.invariant _ _ _ (fun world => ∃ list, Inv world world.ops list)
    ?_ ?_ _ reachable
  · rintro _ ⟨⟩
    refine ⟨[], ⟨⟨.nil, rfl, rfl, by simp, rfl⟩, ⟨rfl, rfl⟩, by simp⟩, ?_, ?_, ?_⟩
    · intro shared
      cases shared <;> rfl
    · exact ⟨by simp, by simp, by simp, by simp, by simp⟩
    · exact ⟨by simp, by simp⟩
  · rintro before after ⟨list, inv⟩ ⟨act, sound, eq⟩
    exact inv.act sound eq

def queue (world : World Waker) : List ℕ := world.lock.queue world.made

end World

namespace World

def run (world : World Waker) : List (Act Waker) → Option (World Waker)
  | [] => some world
  | act :: acts => (world.act act).bind fun world => world.run acts

theorem reachable_of_run {world after : World Waker} (reachable : Reachable world)
    {acts : List (Act Waker)} (run : world.run acts = some after) : Reachable after := by
  induction acts generalizing world with
  | nil =>
    cases run
    exact reachable
  | cons act acts ih =>
    obtain ⟨between, eq, run⟩ := Option.bind_eq_some_iff.mp run
    exact ih (.next reachable ⟨act, eq⟩) run

def soundRun (world : World Waker) : List (Act Waker) → Option (World Waker)
  | [] => some world
  | act :: acts =>
    if world.requeues act then none else (world.act act).bind fun world => world.soundRun acts

theorem reachable_of_soundRun {world after : World Waker} (reachable : SoundReachable world)
    {acts : List (Act Waker)} (run : world.soundRun acts = some after) : SoundReachable after := by
  induction acts generalizing world with
  | nil =>
    cases run
    exact reachable
  | cons act acts ih =>
    simp only [soundRun] at run
    split at run
    · cases run
    · rename_i sound
      obtain ⟨between, eq, run⟩ := Option.bind_eq_some_iff.mp run
      exact ih (.next reachable ⟨act, by simpa using sound, eq⟩) run

end World

open World in
def releasing : List (Act ℕ) :=
  let step := Act.resume 0 {}
  [.begin (.tryLock false), .begin (.lockWait false), .begin (.pollLock 0 7), step, step, step,
    .begin (.lockWait false), .begin (.pollLock 1 8), step, step, step, .begin (.unlock false), step,
    step, step]

open World in
/-- A `LockWait` that waited for a writer is handed the lock and polled twice
more. -/
def polledAgain : List (Act ℕ) :=
  let step := Act.resume 0 { now := 1000 }
  [.begin (.tryLock false), .begin (.lockWait false), .begin (.pollLock 0 7), .resume 0 {},
    .resume 0 {}, step, .begin (.unlock false), step, step, step, .begin (.pollLock 0 7), step,
    .begin (.pollLock 0 7), step, step, step, .begin (.pollLock 0 7), step]

end EspDevkit.Sync
