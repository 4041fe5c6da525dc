import EspDevkit.Library.Transition
import Mathlib.Algebra.Group.Nat.Defs
import Mathlib.Data.Nat.Notation
import Mathlib.Tactic.Common

/-!
# The joining loop of the Wi-Fi manager

The loop reads the saved networks, scans and tries them, and then waits.  What changes the
networks kicks it.  `wait` looks at the version of the kick when it begins, not when the
step did, so that a kick between the reading of the networks and the wait is lost, unless
the step is cancelled as well.
-/

namespace EspDevkit.Net.WifiManager.Joining

open Transition

def backoffFirst : ℕ := 10
def backoffMax : ℕ := 300

/-- The version of a `Watch` that was set so many times. -/
def version (sets : ℕ) : UInt32 := UInt32.ofNat sets

inductive WifiState
  | stopped
  | connecting
  | connected
  | disconnected
  deriving DecidableEq

structure Inner where
  saved : List (List UInt8)
  enabled : Bool
  paused : Bool
  preempting : ℕ
  resetBackoff : Bool

/-- Where the loop is.  `cancelled` and `kicked` count how often either watch had been set
when the step looked at it. -/
inductive Point
  /-- `run` begins a step. -/
  | idle
  | step (cancelled : ℕ)
  | look (cancelled kicked : ℕ)
  /-- `wait_kick`. -/
  | waitKick (cancelled kicked : ℕ)
  | dispatch (cancelled kicked : ℕ) (paused : Bool)
  | starting (cancelled kicked : ℕ)
  /-- It waits for a change of the Wi-Fi state. -/
  | following (cancelled kicked : ℕ)
  | disconnected (cancelled kicked : ℕ) (paused : Bool)
  /-- It scans or tries networks. -/
  | trying (cancelled kicked : ℕ)
  /-- `wait` begins. -/
  | wait (cancelled kicked : ℕ)
  | sleeping (cancelled kicked seen : ℕ)
  deriving DecidableEq

structure State where
  inner : Inner
  wifi : WifiState
  kicks : ℕ
  cancels : ℕ
  backoff : ℕ
  point : Point
  /-- How often the loop had been kicked when this step read the saved networks. -/
  read : Option ℕ

inductive Action
  /-- Another task changes what is under the lock. -/
  | change (inner : Inner)
  | setWifi (wifi : WifiState)
  | kick
  | cancel
  /-- The loop goes on; `ok` if the call that it waited for went well. -/
  | go (ok : Bool)
  /-- The loop scans or tries on. -/
  | tryOn
  | timeUp
  /-- `until` in `run` drops the step. -/
  | drop

namespace State

def kickedSince (s : State) (seen : ℕ) : Bool := decide (version s.kicks ≠ version seen)

def cancelledSince (s : State) (seen : ℕ) : Bool := decide (version s.cancels ≠ version seen)

def finish (s : State) : State := { s with point := .idle, read := none }

def go (s : State) (ok : Bool) : Option State :=
  match s.point with
  | .idle => some { s with point := .step s.cancels }
  | .step cancelled => some { s with point := .look cancelled s.kicks }
  | .look cancelled kicked =>
    let s := { s with
      backoff := if s.inner.resetBackoff then backoffFirst else s.backoff
      inner := { s.inner with resetBackoff := false } }
    if 0 < s.inner.preempting ∨ ¬s.inner.enabled then
      some { s with point := .waitKick cancelled kicked }
    else some { s with point := .dispatch cancelled kicked s.inner.paused }
  | .waitKick _ kicked => if s.kickedSince kicked then some s.finish else none
  | .dispatch cancelled kicked paused =>
    match s.wifi with
    | .stopped => some { s with point := .starting cancelled kicked }
    | .connecting => some { s with point := .following cancelled kicked }
    | .connected => some { s with backoff := backoffFirst, point := .following cancelled kicked }
    | .disconnected => some { s with point := .disconnected cancelled kicked paused }
  | .starting cancelled kicked =>
    if ok then some s.finish else some { s with point := .wait cancelled kicked }
  | .following _ _ => some s.finish
  | .disconnected cancelled kicked paused =>
    let s := { s with read := some s.kicks }
    if paused ∨ s.inner.saved = [] then some { s with point := .waitKick cancelled kicked }
    else some { s with point := .trying cancelled kicked }
  | .trying cancelled kicked =>
    if ok then some s.finish else some { s with point := .wait cancelled kicked }
  | .wait cancelled kicked => some { s with point := .sleeping cancelled kicked s.kicks }
  | .sleeping _ _ seen =>
    if s.kickedSince seen then some { s.finish with backoff := min (s.backoff * 2) backoffMax }
    else none

def snapshot (s : State) : Option (ℕ × ℕ) :=
  match s.point with
  | .idle => none
  | .step cancelled => some (cancelled, s.kicks)
  | .look cancelled kicked | .waitKick cancelled kicked | .dispatch cancelled kicked _
  | .starting cancelled kicked | .following cancelled kicked | .disconnected cancelled kicked _
  | .trying cancelled kicked | .wait cancelled kicked | .sleeping cancelled kicked _ =>
    some (cancelled, kicked)

def step (s : State) : Action → Option State
  | .change inner => some { s with inner := inner }
  | .setWifi wifi => some { s with wifi := wifi }
  | .kick => some { s with kicks := s.kicks + 1 }
  | .cancel => some { s with cancels := s.cancels + 1 }
  | .go ok => s.go ok
  | .tryOn => some s
  | .timeUp =>
    match s.point with
    | .sleeping _ _ _ => some { s.finish with backoff := min (s.backoff * 2) backoffMax }
    | _ => none
  | .drop =>
    match s.snapshot with
    | some (cancelled, _) => if s.cancelledSince cancelled then some s.finish else none
    | none => none

def Initial (s : State) : Prop :=
  s.kicks = 0 ∧ s.cancels = 0 ∧ s.backoff = backoffFirst ∧ s.point = .idle ∧ s.read = none

/-- A wait of the step is over, if the loop was kicked since the step read the networks. -/
def AtOnce (s : State) : Prop :=
  ∀ read, s.read = some read → read < s.kicks →
    match s.point with
    | .waitKick cancelled seen | .sleeping cancelled _ seen =>
      s.kickedSince seen = true ∨ s.cancelledSince cancelled = true
    | _ => True

/-- No kick comes, without a cancel, between the reading of the networks and the look of
`wait` at the kicks, and no version comes round in a step. -/
def Calm (s : State) : Action → Prop
  | .kick =>
    (∀ cancelled kicked, s.snapshot = some (cancelled, kicked) → s.kicks + 1 < kicked + 2 ^ 32) ∧
      match s.point with
      | .trying cancelled _ | .wait cancelled _ =>
        s.read.isSome = true → s.cancelledSince cancelled = true
      | _ => True
  | .cancel => ∀ cancelled kicked, s.snapshot = some (cancelled, kicked) →
      s.cancels + 1 < cancelled + 2 ^ 32
  | _ => True

theorem version_ne {now seen : ℕ} (after : seen < now) (near : now < seen + 2 ^ 32) :
    version now ≠ version seen := by
  intro same
  have numbers := congrArg UInt32.toNat same
  unfold version at numbers
  rw [UInt32.toNat_ofNat', UInt32.toNat_ofNat'] at numbers
  omega

structure Inv (s : State) : Prop where
  kicks : ∀ cancelled kicked, s.snapshot = some (cancelled, kicked) →
    kicked ≤ s.kicks ∧ s.kicks < kicked + 2 ^ 32
  cancels : ∀ cancelled kicked, s.snapshot = some (cancelled, kicked) →
    cancelled ≤ s.cancels ∧ s.cancels < cancelled + 2 ^ 32
  read : ∀ read, s.read = some read → read ≤ s.kicks ∧
    ∃ cancelled kicked, s.snapshot = some (cancelled, kicked) ∧ kicked ≤ read ∧
      match s.point with
      | .trying _ _ | .wait _ _ => s.kicks = read ∨ s.cancelledSince cancelled = true
      | .sleeping _ _ seen => kicked ≤ seen ∧
          (seen = read ∨ s.cancelledSince cancelled = true)
      | .waitKick _ _ => True
      | _ => False

variable {s : State}

theorem Inv.atOnce (inv : s.Inv) : s.AtOnce := by
  intro read was later
  obtain ⟨-, cancelled, kicked, snapshot, before, at_⟩ := inv.read read was
  have near := inv.kicks cancelled kicked snapshot
  unfold State.snapshot at snapshot
  cases point : s.point with
  | waitKick cancelled' kicked' =>
    rw [point] at snapshot
    obtain ⟨rfl, rfl⟩ := Prod.mk.inj (Option.some.inj snapshot)
    exact .inl (decide_eq_true (version_ne (by omega) near.2))
  | sleeping cancelled' kicked' seen =>
    rw [point] at snapshot at_
    obtain ⟨rfl, rfl⟩ := Prod.mk.inj (Option.some.inj snapshot)
    rcases at_.2 with rfl | dropped
    · exact .inl (decide_eq_true (version_ne later (by omega)))
    · exact .inr dropped
  | _ => trivial

theorem finish_inv (s : State) : s.finish.Inv where
  kicks := nofun
  cancels := nofun
  read := nofun

/-- The snapshot of a step is not later than the watches, and not too old. -/
def Near (s : State) : Prop := ∀ cancelled kicked, s.snapshot = some (cancelled, kicked) →
  (kicked ≤ s.kicks ∧ s.kicks < kicked + 2 ^ 32) ∧ cancelled ≤ s.cancels ∧
    s.cancels < cancelled + 2 ^ 32

theorem Inv.near (inv : s.Inv) : s.Near := fun cancelled kicked snapshot =>
  ⟨inv.kicks cancelled kicked snapshot, inv.cancels cancelled kicked snapshot⟩

theorem Near.inv (near : s.Near) (unread : s.read = none) : s.Inv where
  kicks := fun cancelled kicked snapshot => (near cancelled kicked snapshot).1
  cancels := fun cancelled kicked snapshot => (near cancelled kicked snapshot).2
  read := fun read was => by
    rw [unread] at was
    exact absurd was nofun

theorem Inv.unread (inv : s.Inv)
    (early : ∀ cancelled kicked, s.snapshot = some (cancelled, kicked) →
      match s.point with
      | .trying _ _ | .wait _ _ | .sleeping _ _ _ | .waitKick _ _ => False
      | _ => True) : s.read = none := by
  cases was : s.read with
  | none => rfl
  | some read =>
    obtain ⟨-, cancelled, kicked, snapshot, -, at_⟩ := inv.read read was
    have here := early cancelled kicked snapshot
    cases point : s.point <;> rw [point] at here at_ <;>
      first | exact here.elim | exact at_.elim

theorem go_inv {s' : State} {ok : Bool} (inv : s.Inv) (goes : s.go ok = some s') : s'.Inv := by
  have near := inv.near
  unfold go at goes
  cases point : s.point with
  | idle =>
    have unread := inv.unread (by rw [point]; exact fun _ _ _ => trivial)
    rw [point] at goes
    obtain rfl := Option.some.inj goes
    refine Near.inv ?_ unread
    rintro _ _ ⟨⟩
    dsimp only
    omega
  | step cancelled =>
    have unread := inv.unread (by rw [point]; exact fun _ _ _ => trivial)
    have bounds := near cancelled s.kicks (by unfold snapshot; rw [point])
    rw [point] at goes
    obtain rfl := Option.some.inj goes
    refine Near.inv ?_ unread
    rintro _ _ ⟨⟩
    exact bounds
  | look cancelled kicked =>
    have unread := inv.unread (by rw [point]; exact fun _ _ _ => trivial)
    have bounds := near cancelled kicked (by unfold snapshot; rw [point])
    rw [point] at goes
    dsimp only at goes
    split at goes <;> obtain rfl := Option.some.inj goes
    all_goals
      refine Near.inv ?_ unread
      rintro _ _ ⟨⟩
      exact bounds
  | waitKick cancelled kicked =>
    rw [point] at goes
    dsimp only at goes
    split at goes
    · obtain rfl := Option.some.inj goes
      exact finish_inv s
    · exact absurd goes nofun
  | dispatch cancelled kicked paused =>
    have unread := inv.unread (by rw [point]; exact fun _ _ _ => trivial)
    have bounds := near cancelled kicked (by unfold snapshot; rw [point])
    rw [point] at goes
    dsimp only at goes
    split at goes <;> obtain rfl := Option.some.inj goes
    all_goals
      refine Near.inv ?_ unread
      rintro _ _ ⟨⟩
      exact bounds
  | starting cancelled kicked =>
    have unread := inv.unread (by rw [point]; exact fun _ _ _ => trivial)
    have bounds := near cancelled kicked (by unfold snapshot; rw [point])
    rw [point] at goes
    dsimp only at goes
    split at goes <;> obtain rfl := Option.some.inj goes
    · exact finish_inv s
    · refine Near.inv ?_ unread
      rintro _ _ ⟨⟩
      exact bounds
  | following cancelled kicked =>
    rw [point] at goes
    obtain rfl := Option.some.inj goes
    exact finish_inv s
  | disconnected cancelled kicked paused =>
    have bounds := near cancelled kicked (by unfold snapshot; rw [point])
    rw [point] at goes
    dsimp only at goes
    split at goes <;> obtain rfl := Option.some.inj goes
    · refine ⟨?_, ?_, ?_⟩
      · rintro _ _ ⟨⟩
        exact bounds.1
      · rintro _ _ ⟨⟩
        exact bounds.2
      · rintro _ ⟨⟩
        exact ⟨Nat.le_refl _, cancelled, kicked, rfl, bounds.1.1, trivial⟩
    · refine ⟨?_, ?_, ?_⟩
      · rintro _ _ ⟨⟩
        exact bounds.1
      · rintro _ _ ⟨⟩
        exact bounds.2
      · rintro _ ⟨⟩
        exact ⟨Nat.le_refl _, cancelled, kicked, rfl, bounds.1.1, .inl rfl⟩
  | trying cancelled kicked =>
    have bounds := near cancelled kicked (by unfold snapshot; rw [point])
    rw [point] at goes
    dsimp only at goes
    split at goes <;> obtain rfl := Option.some.inj goes
    · exact finish_inv s
    · refine ⟨?_, ?_, ?_⟩
      · rintro _ _ ⟨⟩
        exact bounds.1
      · rintro _ _ ⟨⟩
        exact bounds.2
      · intro read was
        obtain ⟨early, cancelled', kicked', snapshot, before, at_⟩ := inv.read read was
        unfold State.snapshot at snapshot
        rw [point] at snapshot at_
        obtain ⟨rfl, rfl⟩ := Prod.mk.inj (Option.some.inj snapshot)
        exact ⟨early, _, _, rfl, before, at_⟩
  | wait cancelled kicked =>
    have bounds := near cancelled kicked (by unfold snapshot; rw [point])
    rw [point] at goes
    obtain rfl := Option.some.inj goes
    refine ⟨?_, ?_, ?_⟩
    · rintro _ _ ⟨⟩
      exact bounds.1
    · rintro _ _ ⟨⟩
      exact bounds.2
    · intro read was
      obtain ⟨early, cancelled', kicked', snapshot, before, at_⟩ := inv.read read was
      unfold State.snapshot at snapshot
      rw [point] at snapshot at_
      obtain ⟨rfl, rfl⟩ := Prod.mk.inj (Option.some.inj snapshot)
      exact ⟨early, _, _, rfl, before, bounds.1.1, at_⟩
  | sleeping cancelled kicked seen =>
    rw [point] at goes
    dsimp only at goes
    split at goes
    · obtain rfl := Option.some.inj goes
      exact { finish_inv s with }
    · exact absurd goes nofun

theorem snapshot_kick (stepping : ∀ cancelled, s.point ≠ .step cancelled) (kicks : ℕ) :
    snapshot { s with kicks := kicks } = s.snapshot := by
  unfold snapshot
  cases point : s.point with
  | step cancelled => exact absurd point (stepping cancelled)
  | _ => rfl

theorem kick_inv (inv : s.Inv) (calm : s.Calm .kick) :
    Inv { s with kicks := s.kicks + 1 } := by
  obtain ⟨room, window⟩ := calm
  have near : Near { s with kicks := s.kicks + 1 } := by
    intro cancelled kicked snapshot
    by_cases stepping : ∃ cancelled, s.point = .step cancelled
    · obtain ⟨cancelled', point⟩ := stepping
      have old : s.snapshot = some (cancelled', s.kicks) := by
        unfold State.snapshot
        rw [point]
      unfold State.snapshot at snapshot
      rw [point] at snapshot
      obtain ⟨rfl, rfl⟩ := Prod.mk.inj (Option.some.inj snapshot)
      exact ⟨⟨Nat.le_refl _, Nat.lt_add_of_pos_right (Nat.two_pow_pos 32)⟩, (inv.near _ _ old).2⟩
    · rw [snapshot_kick (not_exists.mp stepping)] at snapshot
      have bounds := inv.near cancelled kicked snapshot
      exact ⟨⟨Nat.le_succ_of_le bounds.1.1, room cancelled kicked snapshot⟩, bounds.2⟩
  refine ⟨fun c k snapshot => (near c k snapshot).1, fun c k snapshot => (near c k snapshot).2, ?_⟩
  intro read was
  obtain ⟨early, cancelled, kicked, snapshot, before, at_⟩ := inv.read read was
  refine ⟨Nat.le_succ_of_le early, cancelled, kicked, ?_, before, ?_⟩
  · rw [snapshot_kick fun cancelled point => ?_]
    · exact snapshot
    · rw [point] at at_
      exact at_
  · have isSome : s.read.isSome = true := by
      rw [show s.read = some read from was]
      rfl
    unfold State.snapshot at snapshot
    cases point : s.point with
    | trying cancelled' kicked' =>
      rw [point] at snapshot window
      obtain ⟨rfl, rfl⟩ := Prod.mk.inj (Option.some.inj snapshot)
      exact .inr (window isSome)
    | wait cancelled' kicked' =>
      rw [point] at snapshot window
      obtain ⟨rfl, rfl⟩ := Prod.mk.inj (Option.some.inj snapshot)
      exact .inr (window isSome)
    | _ =>
      rw [point] at at_
      exact at_

theorem cancelledSince_cancel {cancelled kicked : ℕ}
    (snapshot : s.snapshot = some (cancelled, kicked)) (inv : s.Inv) (calm : s.Calm .cancel) :
    { s with cancels := s.cancels + 1 }.cancelledSince cancelled = true := by
  have bounds := inv.cancels cancelled kicked snapshot
  have room := calm cancelled kicked snapshot
  exact decide_eq_true (version_ne (Nat.lt_succ_of_le bounds.1) room)

theorem cancel_inv (inv : s.Inv) (calm : s.Calm .cancel) :
    Inv { s with cancels := s.cancels + 1 } := by
  refine ⟨inv.kicks, ?_, ?_⟩
  · intro cancelled kicked snapshot
    exact ⟨Nat.le_succ_of_le (inv.cancels cancelled kicked snapshot).1,
      calm cancelled kicked snapshot⟩
  · intro read was
    obtain ⟨early, cancelled, kicked, snapshot, before, at_⟩ := inv.read read was
    have dropped := cancelledSince_cancel snapshot inv calm
    refine ⟨early, cancelled, kicked, snapshot, before, ?_⟩
    cases point : s.point with
    | trying cancelled' kicked' => exact .inr dropped
    | wait cancelled' kicked' => exact .inr dropped
    | sleeping cancelled' kicked' seen =>
      rw [point] at at_
      exact ⟨at_.1, .inr dropped⟩
    | _ =>
      rw [point] at at_
      exact at_

theorem step_inv {s' : State} {action : Action} (inv : s.Inv) (calm : s.Calm action)
    (steps : s.step action = some s') : s'.Inv := by
  cases action with
  | change inner =>
    obtain rfl := Option.some.inj steps
    exact { inv with }
  | setWifi wifi =>
    obtain rfl := Option.some.inj steps
    exact { inv with }
  | kick =>
    obtain rfl := Option.some.inj steps
    exact kick_inv inv calm
  | cancel =>
    obtain rfl := Option.some.inj steps
    exact cancel_inv inv calm
  | go ok => exact go_inv inv steps
  | tryOn =>
    obtain rfl := Option.some.inj steps
    exact inv
  | timeUp =>
    simp only [step] at steps
    split at steps
    · obtain rfl := Option.some.inj steps
      exact { finish_inv s with }
    · exact absurd steps nofun
  | drop =>
    simp only [step] at steps
    split at steps
    · split at steps
      · obtain rfl := Option.some.inj steps
        exact finish_inv s
      · exact absurd steps nofun
    · exact absurd steps nofun

theorem initial_inv (initial : s.Initial) : s.Inv := by
  obtain ⟨-, -, -, point, unread⟩ := initial
  refine Near.inv ?_ unread
  intro cancelled kicked snapshot
  unfold State.snapshot at snapshot
  rw [point] at snapshot
  exact absurd snapshot nofun

end State

/-- In the calm runs every kick since the networks were read ends the wait at once. -/
theorem kicks_end_wait {s : State}
    (reachable : Reachable State.Initial (Allowed State.step State.Calm) s) : s.AtOnce := by
  have inv : s.Inv := by
    refine reachable.invariant (fun s => State.initial_inv) ?_
    rintro before after inv ⟨action, steps, calm⟩
    exact State.step_inv inv calm steps
  exact inv.atOnce

def begun : State :=
  { inner := { saved := [[0x61]], enabled := true, paused := false, preempting := 0,
               resetBackoff := false }
    wifi := .disconnected, kicks := 0, cancels := 0, backoff := backoffFirst, point := .idle,
    read := none }

theorem begun_initial : begun.Initial := ⟨rfl, rfl, rfl, rfl, rfl⟩

def scanning : State := { begun with point := .trying 0 0, read := some 0 }

theorem scanning_reachable (allows : State → Action → Prop)
    (goes : ∀ s, allows s (.go true)) :
    Reachable State.Initial (Allowed State.step allows) scanning :=
  have start : Reachable State.Initial (Allowed State.step allows) begun := .start begun_initial
  have entered := start.next ⟨.go true, rfl, goes _⟩
  have kicked := entered.next ⟨.go true, rfl, goes _⟩
  have looked := kicked.next ⟨.go true, rfl, goes _⟩
  have parted := looked.next ⟨.go true, rfl, goes _⟩
  parted.next ⟨.go true, rfl, goes _⟩

/-- A kick in the back-off ends it. -/
theorem kick_in_sleep_ends_wait :
    State.AtOnce { scanning with point := .sleeping 0 0 0, kicks := 1 } := by
  have scanned := scanning_reachable State.Calm fun _ => trivial
  have waits := scanned.next ⟨.go false, rfl, trivial⟩
  have sleeps := waits.next ⟨.go true, rfl, trivial⟩
  refine kicks_end_wait (sleeps.next ⟨.kick, rfl, ?_, trivial⟩)
  rintro _ _ ⟨⟩
  decide

/-- A kick in the scan, when another network is saved, does not. -/
theorem kick_in_scan_lost :
    ∃ s, Reachable State.Initial (Allowed State.step fun _ _ => True) s ∧ ¬s.AtOnce := by
  have scanned := scanning_reachable (fun _ _ => True) fun _ => trivial
  have saved := scanned.next
    ⟨.change { begun.inner with saved := [[0x61], [0x62]] }, rfl, trivial⟩
  have kicked := saved.next ⟨.kick, rfl, trivial⟩
  have waits := kicked.next ⟨.go false, rfl, trivial⟩
  have sleeps := waits.next ⟨.go true, rfl, trivial⟩
  refine ⟨_, sleeps, fun atOnce => ?_⟩
  rcases atOnce 0 rfl Nat.one_pos with ended | dropped
  · exact absurd ended (by decide)
  · exact absurd dropped (by decide)

end EspDevkit.Net.WifiManager.Joining
