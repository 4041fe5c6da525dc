import Mathlib.Data.List.Nodup
import Mathlib.Data.Option.Basic
import Mathlib.Logic.Function.Basic

/-!
# One-shot callbacks

Callbacks are kept in one slot until a thread moves them out and then calls
them.  A ledger says where each of them is; the moves of a ledger keep each in
one place, and lose none unless one is dropped.
-/

namespace OneShot

open List Function

/-- Where the callbacks numbered below `issued` are: in the slot, moved out by
a thread, or called. -/
structure Ledger (Thread : Type*) where
  issued : ℕ
  held : Option ℕ
  moved : Thread → List ℕ
  called : List ℕ

namespace Ledger

variable {Thread : Type*}

def empty : Ledger Thread := ⟨0, none, fun _ => [], []⟩

def refuse (ledger : Ledger Thread) : Ledger Thread :=
  { ledger with issued := ledger.issued + 1, called := ledger.called ++ [ledger.issued] }

def drop (ledger : Ledger Thread) : Ledger Thread := { ledger with held := none }

structure Once (ledger : Ledger Thread) : Prop where
  held_lt : ∀ callback, ledger.held = some callback → callback < ledger.issued
  moved_lt : ∀ thread, ∀ callback ∈ ledger.moved thread, callback < ledger.issued
  called_lt : ∀ callback ∈ ledger.called, callback < ledger.issued
  moved_nodup : ∀ thread, (ledger.moved thread).Nodup
  called_nodup : ledger.called.Nodup
  apart : ∀ thread other callback, callback ∈ ledger.moved thread →
    callback ∈ ledger.moved other → thread = other
  held_moved : ∀ callback, ledger.held = some callback → ∀ thread, callback ∉ ledger.moved thread
  held_called : ∀ callback, ledger.held = some callback → callback ∉ ledger.called
  moved_called : ∀ thread, ∀ callback ∈ ledger.moved thread, callback ∉ ledger.called

def Kept (ledger : Ledger Thread) : Prop :=
  ∀ callback < ledger.issued, ledger.held = some callback ∨
    (∃ thread, callback ∈ ledger.moved thread) ∨ callback ∈ ledger.called

def Waits (ledger : Ledger Thread) (callback : ℕ) : Prop :=
  ledger.held = some callback ∧ (∀ thread, callback ∉ ledger.moved thread) ∧
    callback ∉ ledger.called

def AboutToBeCalled (ledger : Ledger Thread) (callback : ℕ) : Prop :=
  callback ∉ ledger.called ∧ ∃ thread, (ledger.moved thread).count callback = 1 ∧
    ∀ other ≠ thread, callback ∉ ledger.moved other

def IsCalled (ledger : Ledger Thread) (callback : ℕ) : Prop :=
  ledger.called.count callback = 1 ∧ ledger.held ≠ some callback ∧
    ∀ thread, callback ∉ ledger.moved thread

variable {ledger : Ledger Thread}

namespace Once

theorem empty : (empty : Ledger Thread).Once where
  held_lt _ held := nomatch held
  moved_lt _ _ mem := nomatch mem
  called_lt _ mem := nomatch mem
  moved_nodup _ := nodup_nil
  called_nodup := nodup_nil
  apart _ _ _ mem := nomatch mem
  held_moved _ held := nomatch held
  held_called _ held := nomatch held
  moved_called _ _ mem := nomatch mem

theorem drop (once : ledger.Once) : ledger.drop.Once where
  held_lt _ held := nomatch held
  moved_lt := once.moved_lt
  called_lt := once.called_lt
  moved_nodup := once.moved_nodup
  called_nodup := once.called_nodup
  apart := once.apart
  held_moved _ held := nomatch held
  held_called _ held := nomatch held
  moved_called := once.moved_called

theorem place (once : ledger.Once) :
    ({ ledger with issued := ledger.issued + 1, held := some ledger.issued } :
      Ledger Thread).Once where
  held_lt callback held := by
    cases held
    exact Nat.lt_succ_self _
  moved_lt other callback mem := Nat.lt_succ_of_lt (once.moved_lt other callback mem)
  called_lt callback mem := Nat.lt_succ_of_lt (once.called_lt callback mem)
  moved_nodup := once.moved_nodup
  called_nodup := once.called_nodup
  apart := once.apart
  held_moved callback held other mem := by
    cases held
    exact Nat.lt_irrefl _ (once.moved_lt other _ mem)
  held_called callback held mem := by
    cases held
    exact Nat.lt_irrefl _ (once.called_lt _ mem)
  moved_called := once.moved_called

theorem refuse (once : ledger.Once) : ledger.refuse.Once where
  held_lt callback held := Nat.lt_succ_of_lt (once.held_lt callback held)
  moved_lt other callback mem := Nat.lt_succ_of_lt (once.moved_lt other callback mem)
  called_lt callback mem := by
    rcases mem_append.mp mem with old | new
    · exact Nat.lt_succ_of_lt (once.called_lt callback old)
    · rw [mem_singleton.mp new]
      exact Nat.lt_succ_self _
  moved_nodup := once.moved_nodup
  called_nodup := by
    refine nodup_append.mpr ⟨once.called_nodup, nodup_singleton _, ?_⟩
    intro callback old other new same
    rw [mem_singleton.mp new] at same
    exact Nat.lt_irrefl _ (same ▸ once.called_lt callback old)
  apart := once.apart
  held_moved := once.held_moved
  held_called callback held mem := by
    rcases mem_append.mp mem with old | new
    · exact once.held_called callback held old
    · rw [mem_singleton.mp new] at held
      exact Nat.lt_irrefl _ (once.held_lt _ held)
  moved_called other callback mem mem' := by
    rcases mem_append.mp mem' with old | new
    · exact once.moved_called other callback mem old
    · rw [mem_singleton.mp new] at mem
      exact Nat.lt_irrefl _ (once.moved_lt other _ mem)

theorem place_of_mem (once : ledger.Once) {callback : ℕ}
    (place : ledger.held = some callback ∨ (∃ thread, callback ∈ ledger.moved thread) ∨
      callback ∈ ledger.called) :
    ledger.Waits callback ∨ ledger.AboutToBeCalled callback ∨ ledger.IsCalled callback := by
  rcases place with held | ⟨thread, mem⟩ | called
  · exact .inl ⟨held, once.held_moved callback held, once.held_called callback held⟩
  · refine .inr (.inl ⟨once.moved_called thread callback mem, thread, ?_, ?_⟩)
    · exact count_eq_one_of_mem (once.moved_nodup thread) mem
    · exact fun other differs mem' => differs (once.apart other thread callback mem' mem)
  · refine .inr (.inr ⟨count_eq_one_of_mem once.called_nodup called, ?_, ?_⟩)
    · exact fun held => once.held_called callback held called
    · exact fun thread mem => once.moved_called thread callback mem called

end Once

namespace Kept

theorem drop (kept : ledger.Kept) (none : ledger.held = none) : ledger.drop.Kept := by
  intro callback lt
  rcases kept callback lt with held | rest
  · rw [none] at held
    cases held
  · exact .inr rest

theorem refuse (kept : ledger.Kept) : ledger.refuse.Kept := by
  intro callback lt
  by_cases last : callback = ledger.issued
  · right
    right
    rw [last]
    exact mem_append_right _ (mem_singleton.mpr rfl)
  · have lt' : callback < ledger.issued := by
      have bound : callback < ledger.issued + 1 := lt
      omega
    exact (kept callback lt').imp id (Or.imp id (mem_append_left _))

end Kept

variable [DecidableEq Thread]

def issue (ledger : Ledger Thread) (thread : Thread) : Ledger Thread where
  issued := ledger.issued + 1
  held := some ledger.issued
  moved := Function.update ledger.moved thread (ledger.held.toList ++ ledger.moved thread)
  called := ledger.called

def take (ledger : Ledger Thread) (thread : Thread) : Ledger Thread where
  issued := ledger.issued
  held := none
  moved := Function.update ledger.moved thread (ledger.held.toList ++ ledger.moved thread)
  called := ledger.called

def call (ledger : Ledger Thread) (thread : Thread) : Ledger Thread where
  issued := ledger.issued
  held := ledger.held
  moved := Function.update ledger.moved thread (ledger.moved thread).tail
  called := ledger.called ++ (ledger.moved thread).head?.toList

variable {thread : Thread}

namespace Once

theorem mem_moved {callback : ℕ} {other : Thread}
    (mem : callback ∈ Function.update ledger.moved thread
      (ledger.held.toList ++ ledger.moved thread) other) :
    (other = thread ∧ ledger.held = some callback) ∨ callback ∈ ledger.moved other := by
  by_cases same : other = thread
  · subst same
    rw [update_self, mem_append, Option.mem_toList] at mem
    exact mem.imp (fun held => ⟨rfl, held⟩) id
  · rw [update_of_ne same] at mem
    exact .inr mem

theorem take (once : ledger.Once) (thread : Thread) : (ledger.take thread).Once where
  held_lt _ held := nomatch held
  moved_lt other callback mem := by
    rcases mem_moved mem with ⟨_, held⟩ | mem
    · exact once.held_lt callback held
    · exact once.moved_lt other callback mem
  called_lt := once.called_lt
  moved_nodup other := by
    by_cases same : other = thread
    · subst same
      show (Function.update ledger.moved other _ other).Nodup
      rw [update_self]
      cases held : ledger.held with
      | none => exact once.moved_nodup other
      | some callback =>
        exact nodup_cons.mpr
          ⟨once.held_moved callback held other, once.moved_nodup other⟩
    · show (Function.update ledger.moved thread _ other).Nodup
      rw [update_of_ne same]
      exact once.moved_nodup other
  called_nodup := once.called_nodup
  apart first second callback mem mem' := by
    rcases mem_moved mem with ⟨same, held⟩ | mem
    · rcases mem_moved mem' with ⟨same', _⟩ | mem'
      · exact same.trans same'.symm
      · exact absurd mem' (once.held_moved callback held second)
    · rcases mem_moved mem' with ⟨_, held⟩ | mem'
      · exact absurd mem (once.held_moved callback held first)
      · exact once.apart first second callback mem mem'
  held_moved _ held := nomatch held
  held_called _ held := nomatch held
  moved_called other callback mem := by
    rcases mem_moved mem with ⟨_, held⟩ | mem
    · exact once.held_called callback held
    · exact once.moved_called other callback mem

theorem issue (once : ledger.Once) (thread : Thread) : (ledger.issue thread).Once :=
  (once.take thread).place

theorem call (once : ledger.Once) (thread : Thread) : (ledger.call thread).Once := by
  cases first : ledger.moved thread with
  | nil =>
    have same : ledger.call thread = ledger := by
      rw [Ledger.call, first]
      have still : Function.update ledger.moved thread [] = ledger.moved := by
        rw [← first]
        exact update_eq_self _ _
      simp [still]
    rw [same]
    exact once
  | cons callback rest =>
    have mem : ∀ {other : Thread} {callback' : ℕ},
        callback' ∈ Function.update ledger.moved thread rest other →
          callback' ∈ ledger.moved other ∧ (callback' = callback → False) := by
      intro other callback' mem
      have nodup := once.moved_nodup thread
      rw [first] at nodup
      by_cases same : other = thread
      · subst same
        rw [update_self] at mem
        rw [first]
        exact ⟨mem_cons_of_mem _ mem, fun same => (nodup_cons.mp nodup).1 (same ▸ mem)⟩
      · rw [update_of_ne same] at mem
        refine ⟨mem, fun same' => same (once.apart other thread callback' mem ?_)⟩
        rw [first, same']
        exact mem_cons_self ..
    have here : callback ∈ ledger.moved thread := by
      rw [first]
      exact mem_cons_self ..
    have result : ledger.call thread =
        ⟨ledger.issued, ledger.held, Function.update ledger.moved thread rest,
          ledger.called ++ [callback]⟩ := by
      rw [Ledger.call, first]
      rfl
    rw [result]
    exact
      { held_lt := once.held_lt
        moved_lt := fun other callback' mem' => once.moved_lt other callback' (mem mem').1
        called_lt := fun callback' mem' => by
          rcases mem_append.mp mem' with old | new
          · exact once.called_lt callback' old
          · rw [mem_singleton.mp new]
            exact once.moved_lt thread callback here
        moved_nodup := fun other => by
          by_cases same : other = thread
          · subst same
            have nodup := once.moved_nodup other
            rw [first] at nodup
            dsimp only
            rw [update_self]
            exact (nodup_cons.mp nodup).2
          · dsimp only
            rw [update_of_ne same]
            exact once.moved_nodup other
        called_nodup := by
          refine nodup_append.mpr ⟨once.called_nodup, nodup_singleton _, ?_⟩
          intro callback' old other new same
          rw [mem_singleton.mp new] at same
          exact once.moved_called thread callback here (same ▸ old)
        apart := fun left right callback' mem' mem'' =>
          once.apart left right callback' (mem mem').1 (mem mem'').1
        held_moved := fun callback' held other mem' =>
          once.held_moved callback' held other (mem mem').1
        held_called := fun callback' held mem' => by
          rcases mem_append.mp mem' with old | new
          · exact once.held_called callback' held old
          · rw [mem_singleton.mp new] at held
            exact once.held_moved callback held thread here
        moved_called := fun other callback' mem' mem'' => by
          rcases mem_append.mp mem'' with old | new
          · exact once.moved_called other callback' (mem mem').1 old
          · exact (mem mem').2 (mem_singleton.mp new) }

end Once

namespace Kept

theorem take (kept : ledger.Kept) (thread : Thread) : (ledger.take thread).Kept := by
  intro callback lt
  right
  rcases kept callback lt with held | ⟨other, mem⟩ | called
  · left
    refine ⟨thread, ?_⟩
    show callback ∈ Function.update ledger.moved thread _ thread
    rw [update_self, held]
    exact mem_cons_self ..
  · left
    refine ⟨other, ?_⟩
    show callback ∈ Function.update ledger.moved thread _ other
    by_cases same : other = thread
    · subst same
      rw [update_self]
      exact mem_append_right _ mem
    · rwa [update_of_ne same]
  · exact .inr called

theorem issue (kept : ledger.Kept) (thread : Thread) : (ledger.issue thread).Kept := by
  intro callback lt
  by_cases last : callback = ledger.issued
  · left
    rw [last]
    rfl
  · right
    have lt' : callback < ledger.issued := by
      have bound : callback < ledger.issued + 1 := lt
      omega
    exact (kept.take thread callback lt').resolve_left nofun

theorem call (kept : ledger.Kept) (thread : Thread) : (ledger.call thread).Kept := by
  intro callback lt
  rcases kept callback lt with held | ⟨other, mem⟩ | called
  · exact .inl held
  · right
    by_cases same : other = thread
    · subst same
      cases first : ledger.moved other with
      | nil =>
        rw [first] at mem
        cases mem
      | cons head rest =>
        rw [first] at mem
        rcases mem_cons.mp mem with rfl | mem
        · right
          show callback ∈ ledger.called ++ (ledger.moved other).head?.toList
          rw [first]
          exact mem_append_right _ (mem_singleton.mpr rfl)
        · left
          refine ⟨other, ?_⟩
          show callback ∈ Function.update ledger.moved other _ other
          rw [update_self, first]
          exact mem
    · left
      refine ⟨other, ?_⟩
      show callback ∈ Function.update ledger.moved thread _ other
      rwa [update_of_ne same]
  · exact .inr (.inr (mem_append_left _ called))

end Kept

inductive Move where
  | stay
  | issue
  | take
  | call
  | refuse
  | drop

def after (ledger : Ledger Thread) (thread : Thread) : Move → Ledger Thread
  | .stay => ledger
  | .issue => ledger.issue thread
  | .take => ledger.take thread
  | .call => ledger.call thread
  | .refuse => ledger.refuse
  | .drop => ledger.drop

theorem Once.after (once : ledger.Once) (thread : Thread) :
    ∀ move, (ledger.after thread move).Once
  | .stay => once
  | .issue => once.issue thread
  | .take => once.take thread
  | .call => once.call thread
  | .refuse => once.refuse
  | .drop => once.drop

theorem Kept.after (kept : ledger.Kept) (thread : Thread) :
    ∀ move, (move = .drop → ledger.held = none) → (ledger.after thread move).Kept
  | .stay, _ => kept
  | .issue, _ => kept.issue thread
  | .take, _ => kept.take thread
  | .call, _ => kept.call thread
  | .refuse, _ => kept.refuse
  | .drop, empty => kept.drop (empty rfl)

def closed (issued : ℕ) (held : Option ℕ) (called : List ℕ) : Ledger Unit :=
  ⟨issued, held, fun _ => [], called⟩

theorem closed_take_call (issued : ℕ) (held : Option ℕ) (called : List ℕ) :
    ((closed issued held called).take ()).call () = closed issued none (called ++ held.toList) := by
  cases held <;> simp [closed, take, call, Function.update]

theorem closed_issue_call (issued : ℕ) (held : Option ℕ) (called : List ℕ) :
    ((closed issued held called).issue ()).call () =
      closed (issued + 1) (some issued) (called ++ held.toList) := by
  cases held <;> simp [closed, issue, call, Function.update]

end Ledger

@[ext]
structure Account (Argument : Type*) where
  issued : ℕ
  held : Option ℕ
  called : List (ℕ × Argument)

namespace Account

variable {Thread Job Argument : Type*} {pick : Job → Option (ℕ × Argument)}
  {before after : Account Argument} {jobs : Thread → List Job}

/-- The callbacks moved out are those that the jobs of the threads call. -/
def ledger (account : Account Argument) (pick : Job → Option (ℕ × Argument))
    (jobs : Thread → List Job) : Ledger Thread where
  issued := account.issued
  held := account.held
  moved thread := ((jobs thread).filterMap pick).map Prod.fst
  called := account.called.map Prod.fst

/-- What a job does that itself makes the call `own`, and leaves its thread
with the calls `new`. -/
def Effect (before after : Account Argument) (own : Option (ℕ × Argument))
    (new : List (ℕ × Argument)) : Ledger.Move → Prop
  | .stay => own = none ∧ new = [] ∧ after = before
  | .issue => own = none ∧ new.map Prod.fst = before.held.toList ∧
      after = ⟨before.issued + 1, some before.issued, before.called⟩
  | .take => own = none ∧ new.map Prod.fst = before.held.toList ∧
      after = ⟨before.issued, none, before.called⟩
  | .call => new = [] ∧ ∃ call, own = some call ∧
      after = ⟨before.issued, before.held, before.called ++ [call]⟩
  | .refuse => own = none ∧ new = [] ∧ ∃ argument,
      after = ⟨before.issued + 1, before.held, before.called ++ [(before.issued, argument)]⟩
  | .drop => own = none ∧ new = [] ∧ after = ⟨before.issued, none, before.called⟩

variable [DecidableEq Thread] {thread : Thread} {job : Job} {new rest : List Job}

/-- The calls of the threads, once one of them has gone from a job to others. -/
theorem moved_next (head : jobs thread = job :: rest) (own : pick job = none) :
    (fun other => ((Function.update jobs thread (new ++ rest) other).filterMap pick).map
        Prod.fst) =
      Function.update (fun other => ((jobs other).filterMap pick).map Prod.fst) thread
        ((new.filterMap pick).map Prod.fst ++ ((jobs thread).filterMap pick).map Prod.fst) := by
  funext other
  by_cases same : other = thread
  · subst same
    rw [update_self, update_self, head, filterMap_append,
      map_append, filterMap_cons, own]
  · rw [update_of_ne same, update_of_ne same]

theorem moved_call {call : ℕ × Argument} (head : jobs thread = job :: rest)
    (own : pick job = some call) (quiet : new.filterMap pick = []) :
    (fun other => ((Function.update jobs thread (new ++ rest) other).filterMap pick).map
        Prod.fst) =
      Function.update (fun other => ((jobs other).filterMap pick).map Prod.fst) thread
        (((jobs thread).filterMap pick).map Prod.fst).tail := by
  funext other
  by_cases same : other = thread
  · subst same
    rw [update_self, update_self, head, filterMap_append, quiet,
      filterMap_cons, own]
    rfl
  · rw [update_of_ne same, update_of_ne same]

theorem ledger_enter (account : Account Argument) (quiet : new.filterMap pick = []) :
    account.ledger pick (Function.update jobs thread (new ++ jobs thread)) =
      account.ledger pick jobs := by
  have still : ∀ other, (Function.update jobs thread (new ++ jobs thread) other).filterMap pick =
      (jobs other).filterMap pick := by
    intro other
    by_cases same : other = thread
    · subst same
      rw [update_self, filterMap_append, quiet, nil_append]
    · rw [update_of_ne same]
  simp only [ledger, still]

theorem Effect.ledger {move : Ledger.Move} (head : jobs thread = job :: rest)
    (effect : before.Effect after (pick job) (new.filterMap pick) move) :
    after.ledger pick (Function.update jobs thread (new ++ rest)) =
      (before.ledger pick jobs).after thread move := by
  cases move with
  | stay =>
    obtain ⟨own, quiet, rfl⟩ := effect
    simp only [Account.ledger, moved_next head own, quiet, Ledger.after, map_nil,
      nil_append]
    congr 1
    exact update_eq_self thread _
  | issue =>
    obtain ⟨own, taken, rfl⟩ := effect
    simp only [Account.ledger, moved_next head own, taken, Ledger.after, Ledger.issue]
  | take =>
    obtain ⟨own, taken, rfl⟩ := effect
    simp only [Account.ledger, moved_next head own, taken, Ledger.after, Ledger.take]
  | call =>
    obtain ⟨quiet, call, own, rfl⟩ := effect
    have first : (((jobs thread).filterMap pick).map Prod.fst).head? = some call.1 := by
      rw [head, filterMap_cons, own]
      rfl
    simp only [Account.ledger, moved_call head own quiet, Ledger.after, Ledger.call, first,
      map_append]
    rfl
  | refuse =>
    obtain ⟨own, quiet, argument, rfl⟩ := effect
    simp only [Account.ledger, moved_next head own, quiet, Ledger.after, Ledger.refuse,
      map_nil, nil_append, map_append, map_cons]
    congr 1
    exact update_eq_self thread _
  | drop =>
    obtain ⟨own, quiet, rfl⟩ := effect
    simp only [Account.ledger, moved_next head own, quiet, Ledger.after, Ledger.drop,
      map_nil, nil_append]
    congr 1
    exact update_eq_self thread _

end Account

end OneShot
