import Mathlib.Data.Nat.Notation
import Mathlib.Control.Basic
import Mathlib.Order.Defs.Unbundled

/-!
# Stateful computations that may stop

A computation reads and writes a state and gives a value or stops.  It leaves a
state in both cases: what was written before it stopped stays written.
-/

/-- What stops a computation: an error that it reports, or a fault in its code. -/
inductive Stop (ε : Type)
  | error (e : ε)
  | fault
  deriving DecidableEq, Repr

def Fallible (σ ε α : Type) : Type := σ → Except (Stop ε) α × σ

namespace Fallible

variable {σ ε α β : Type}

protected def pure (a : α) : Fallible σ ε α := fun s => (.ok a, s)

protected def bind (x : Fallible σ ε α) (next : α → Fallible σ ε β) : Fallible σ ε β := fun s =>
  match x s with
  | (.ok a, s) => next a s
  | (.error e, s) => (.error e, s)

instance : Monad (Fallible σ ε) where
  pure := Fallible.pure
  bind := Fallible.bind

def get : Fallible σ ε σ := fun s => (.ok s, s)

def modify (change : σ → σ) : Fallible σ ε Unit := fun s => (.ok (), change s)

def stop (e : ε) : Fallible σ ε α := fun s => (.error (.error e), s)

def fault : Fallible σ ε α := fun s => (.error .fault, s)

def lift (x : Except ε α) : Fallible σ ε α :=
  match x with
  | .ok a => pure a
  | .error e => stop e

def unwrap (x : Option α) : Fallible σ ε α :=
  match x with
  | some a => pure a
  | none => fault

def require (condition : Prop) [Decidable condition] (e : ε) : Fallible σ ε Unit :=
  if condition then pure () else stop e

/-- From this state the computation ends in one of these ways, with no fault. -/
def Ensures (x : Fallible σ ε α) (post : α → σ → Prop) (stops : ε → σ → Prop) (s : σ) : Prop :=
  match x s with
  | (.ok a, s) => post a s
  | (.error (.error e), s) => stops e s
  | (.error .fault, _) => False

variable {post : α → σ → Prop} {stops : ε → σ → Prop} {s : σ}

variable {a : α} {x : Fallible σ ε β} {e : ε} {condition : Prop}

@[simp]
theorem ensures_pure : Ensures (pure a) post stops s ↔ post a s := Iff.rfl

@[simp]
theorem ensures_bind {next : β → Fallible σ ε α} :
    Ensures (x >>= next) post stops s ↔
      Ensures x (fun b s => Ensures (next b) post stops s) stops s := by
  change Ensures (Fallible.bind x next) post stops s ↔ _
  unfold Ensures Fallible.bind
  rcases x s with ⟨⟨e | _⟩ | b, s'⟩ <;> rfl

@[simp]
theorem ensures_get {post : σ → σ → Prop} :
    Ensures (get : Fallible σ ε σ) post stops s ↔ post s s := Iff.rfl

@[simp]
theorem ensures_modify {change : σ → σ} {post : Unit → σ → Prop} :
    Ensures (modify change : Fallible σ ε Unit) post stops s ↔ post () (change s) := Iff.rfl

theorem ensures_lift {x : Except ε α} (given : ∀ a, x = .ok a → post a s)
    (failed : ∀ e, x = .error e → stops e s) : Ensures (lift x) post stops s := by
  cases x with
  | ok a => exact given a rfl
  | error e => exact failed e rfl

theorem ensures_unwrap {x : Option α} (there : x = some a) (given : post a s) :
    Ensures (unwrap x) post stops s := by
  subst there
  exact given

theorem ensures_require [Decidable condition]
    {post : Unit → σ → Prop} (holds : condition → post () s) (fails : ¬condition → stops e s) :
    Ensures (require condition e) post stops s := by
  unfold require
  split
  · next condition => exact holds condition
  · next condition => exact fails condition

theorem Ensures.mono {x : Fallible σ ε α} {post' : α → σ → Prop} {stops' : ε → σ → Prop}
    (ensures : Ensures x post stops s) (value : ∀ a s, post a s → post' a s)
    (stopped : ∀ e s, stops e s → stops' e s) : Ensures x post' stops' s := by
  unfold Ensures at *
  revert ensures
  rcases x s with ⟨⟨e | _⟩ | a, s'⟩
  · exact stopped e s'
  · exact id
  · exact value a s'

theorem Ensures.apply {x : Fallible σ ε α} (ensures : Ensures x post stops s) :
    (∃ a, (x s).1 = .ok a ∧ post a (x s).2) ∨ ∃ e, (x s).1 = .error (.error e) ∧ stops e
    (x s).2 := by
  unfold Ensures at ensures
  rcases result : x s with ⟨⟨e | _⟩ | a, s'⟩
  · rw [result] at ensures
    exact .inr ⟨e, rfl, ensures⟩
  · rw [result] at ensures
    exact ensures.elim
  · rw [result] at ensures
    exact .inl ⟨a, rfl, ensures⟩

theorem bind_ok {next : β → Fallible σ ε α} {b : β} {s' : σ}
    (first : x s = (.ok b, s')) : (x >>= next) s = next b s' := by
  change Fallible.bind x next s = next b s'
  unfold Fallible.bind
  rw [first]

theorem bind_error {next : β → Fallible σ ε α} {e : Stop ε} {s' : σ}
    (first : x s = (.error e, s')) : (x >>= next) s = (.error e, s') := by
  change Fallible.bind x next s = (.error e, s')
  unfold Fallible.bind
  rw [first]

theorem bind_ne {next : β → Fallible σ ε α}
    (rest : ∀ b s, (next b s).1 ≠ .ok a) : ((x >>= next) s).1 ≠ .ok a := by
  change (Fallible.bind x next s).1 ≠ .ok a
  unfold Fallible.bind
  rcases x s with ⟨e | b, s'⟩
  · nofun
  · exact rest b s'

/-- From this state the computation runs as it does beside a change of the state: it gives
the same and leaves the change in what it leaves. -/
def Commutes (change : σ → σ) (x : Fallible σ ε α) (s : σ) : Prop :=
  x (change s) = ((x s).1, change (x s).2)

variable {change : σ → σ}

@[simp]
theorem commutes_pure : Commutes change (pure a : Fallible σ ε α) s := rfl

@[simp]
theorem commutes_stop : Commutes change (stop e : Fallible σ ε α) s := rfl

@[simp]
theorem commutes_fault : Commutes change (fault : Fallible σ ε α) s := rfl

@[simp]
theorem commutes_require [Decidable condition] :
    Commutes change (require condition e : Fallible σ ε Unit) s := by
  unfold require
  split
  · exact commutes_pure
  · exact commutes_stop

theorem commutes_modify {update : σ → σ} (swaps : update (change s) = change (update s)) :
    Commutes change (modify update : Fallible σ ε Unit) s :=
  Prod.ext rfl swaps

theorem Commutes.bind {next : β → Fallible σ ε α} (first : Commutes change x s)
    (rest : ∀ b s', x s = (.ok b, s') → Commutes change (next b) s') :
    Commutes change (x >>= next) s := by
  change Fallible.bind x next (change s) = ((Fallible.bind x next s).1, change (Fallible.bind x next s).2)
  unfold Commutes at first
  unfold Fallible.bind
  rw [first]
  rcases result : x s with ⟨e | b, s'⟩
  · rfl
  · exact rest b s' result

theorem Commutes.get {next : σ → Fallible σ ε α}
    (same : next (change s) (change s) = next s (change s))
    (rest : Commutes change (next s) s) : Commutes change (Fallible.get >>= next) s := by
  change next (change s) (change s) = ((next s s).1, change (next s s).2)
  rw [same]
  exact rest

theorem Commutes.require [Decidable condition]
    {next : Unit → Fallible σ ε α} (rest : condition → Commutes change (next ()) s) :
    Commutes change (Fallible.require condition e >>= next) s := by
  unfold Fallible.require
  split
  · next condition => exact rest condition
  · rfl

theorem Commutes.unwrap {x : Option β} {next : β → Fallible σ ε α}
    (rest : ∀ b, x = some b → Commutes change (next b) s) :
    Commutes change (Fallible.unwrap x >>= next) s := by
  cases x with
  | some b => exact rest b rfl
  | none => rfl

theorem Commutes.lift {x : Except ε β} {next : β → Fallible σ ε α}
    (rest : ∀ b, x = .ok b → Commutes change (next b) s) :
    Commutes change (Fallible.lift x >>= next) s := by
  cases x with
  | ok b => exact rest b rfl
  | error e => rfl

theorem Commutes.modify {update : σ → σ} {next : Unit → Fallible σ ε α}
    (swaps : update (change s) = change (update s)) (rest : Commutes change (next ()) (update s)) :
    Commutes change (Fallible.modify update >>= next) s := by
  apply (commutes_modify swaps).bind
  rintro _ _ ⟨⟩
  exact rest

/-- The state that the computation leaves, whether it gives a value or stops, is related to this
one. -/
def Within (R : σ → σ → Prop) (x : Fallible σ ε α) (s : σ) : Prop := R s (x s).2

theorem within_iff {R : σ → σ → Prop} {x : Fallible σ ε α} : Within R x s ↔ R s (x s).2 := Iff.rfl

section Within

variable {R : σ → σ → Prop} [IsPreorder σ R]

theorem within_pure : Within R (pure a : Fallible σ ε α) s := refl_of R s

theorem within_stop : Within R (stop e : Fallible σ ε α) s := refl_of R s

theorem within_fault : Within R (fault : Fallible σ ε α) s := refl_of R s

theorem within_require [Decidable condition] :
    Within R (require condition e : Fallible σ ε Unit) s := by
  unfold require
  split
  · exact within_pure
  · exact within_stop

omit [IsPreorder σ R] in
theorem within_modify {update : σ → σ} (changed : R s (update s)) :
    Within R (modify update : Fallible σ ε Unit) s := changed

theorem Within.bind {next : β → Fallible σ ε α} (first : Within R x s)
    (rest : ∀ b s', x s = (.ok b, s') → Within R (next b) s') : Within R (x >>= next) s := by
  change R s (Fallible.bind x next s).2
  unfold Within at first
  unfold Fallible.bind
  rcases result : x s with ⟨e | b, s'⟩
  · rw [result] at first
    exact first
  · rw [result] at first
    exact trans_of R first (rest b s' result)

omit [IsPreorder σ R] in
theorem Within.get {next : σ → Fallible σ ε α} (rest : Within R (next s) s) :
    Within R (Fallible.get >>= next) s := rest

theorem Within.modify {update : σ → σ} {next : Unit → Fallible σ ε α} (changed : R s (update s))
    (rest : Within R (next ()) (update s)) : Within R (Fallible.modify update >>= next) s :=
  trans_of R changed rest

theorem Within.require [Decidable condition]
    {next : Unit → Fallible σ ε α} (rest : condition → Within R (next ()) s) :
    Within R (Fallible.require condition e >>= next) s := by
  unfold Fallible.require
  split
  · next condition => exact rest condition
  · exact refl_of R s

theorem Within.unwrap {x : Option β} {next : β → Fallible σ ε α}
    (rest : ∀ b, x = some b → Within R (next b) s) :
    Within R (Fallible.unwrap x >>= next) s := by
  cases x with
  | some b => exact rest b rfl
  | none => exact refl_of R s

theorem Within.lift {x : Except ε β} {next : β → Fallible σ ε α}
    (rest : ∀ b, x = .ok b → Within R (next b) s) : Within R (Fallible.lift x >>= next) s := by
  cases x with
  | ok b => exact rest b rfl
  | error e => exact refl_of R s

end Within

end Fallible
