import EspDevkit.Executor.Tasks

/-!
# One task in numbers

What is under way on a task counts as shares: of the right to run it, of its
handle, and of dropping what is left of it.
-/

namespace EspDevkit.Executor

variable {Waker : Type}

/-- How many operations have the right to run the task or bring it to the
queue, how many of these run it, and finish it; how many ask on behalf of its
handle, or take the output; how many let go of the handle; and how many drop
the future of an aborted task, and what is left once a task is complete. -/
@[ext]
structure Share where
  owns : ℕ := 0
  runs : ℕ := 0
  ends : ℕ := 0
  asks : ℕ := 0
  takes : ℕ := 0
  lets : ℕ := 0
  dies : ℕ := 0
  drops : ℕ := 0

instance : Zero Share := ⟨{}⟩

instance : Add Share where
  add one two :=
    { owns := one.owns + two.owns
      runs := one.runs + two.runs
      ends := one.ends + two.ends
      asks := one.asks + two.asks
      takes := one.takes + two.takes
      lets := one.lets + two.lets
      dies := one.dies + two.dies
      drops := one.drops + two.drops }

namespace Share

theorem add_mk (share : Share) (owns runs ends asks takes lets dies drops : ℕ) :
    share + ⟨owns, runs, ends, asks, takes, lets, dies, drops⟩ =
      ⟨share.owns + owns, share.runs + runs, share.ends + ends, share.asks + asks,
        share.takes + takes, share.lets + lets, share.dies + dies, share.drops + drops⟩ := rfl

theorem add_assoc (one two three : Share) : one + two + three = one + (two + three) := by
  ext <;> exact Nat.add_assoc _ _ _

theorem add_comm (one two : Share) : one + two = two + one := by
  ext <;> exact Nat.add_comm _ _

@[simp]
theorem zero_add (share : Share) : 0 + share = share := by
  ext <;> exact Nat.zero_add _

@[simp]
theorem add_zero (share : Share) : share + 0 = share := rfl

structure Sound (share : Share) : Prop where
  runs : share.runs ≤ share.owns
  ends : share.ends ≤ share.runs
  takes : share.takes ≤ share.asks

theorem Sound.add {one two : Share} (first : one.Sound) (second : two.Sound) :
    (one + two).Sound :=
  ⟨Nat.add_le_add first.runs second.runs, Nat.add_le_add first.ends second.ends,
    Nat.add_le_add first.takes second.takes⟩

end Share

namespace Op

def task : Op Waker → ℕ
  | runTask task | polling task | dropping task | suspending task | finish task
  | finished task _ _ | enqueue task _ | register task _ | takeOutput task | detach task
  | dropOutput task => task

def share : Op Waker → Share
  | runTask _ => { owns := 1 }
  | polling _ | suspending _ => { owns := 1, runs := 1 }
  | dropping _ => { owns := 1, runs := 1, dies := 1 }
  | finish _ => { owns := 1, runs := 1, ends := 1 }
  | finished _ handle _ => { drops := if handle then 0 else 1 }
  | enqueue _ abort => { owns := 1, lets := if abort then 1 else 0 }
  | register _ _ => { asks := 1 }
  | takeOutput _ => { asks := 1, takes := 1 }
  | detach _ => { lets := 1 }
  | dropOutput _ => { drops := 1 }

theorem share_sound (op : Op Waker) : op.share.Sound := by
  cases op <;> exact ⟨by simp [share], by simp [share], by simp [share]⟩

end Op

def census (task : ℕ) : List (Op Waker) → Share
  | [] => 0
  | op :: ops => (if op.task = task then op.share else 0) + census task ops

section

variable (task : ℕ)

@[simp]
theorem census_nil : census task ([] : List (Op Waker)) = 0 := rfl

theorem census_cons (op : Op Waker) (ops : List (Op Waker)) :
    census task (op :: ops) = (if op.task = task then op.share else 0) + census task ops := rfl

theorem census_append (first rest : List (Op Waker)) :
    census task (first ++ rest) = census task first + census task rest := by
  induction first with
  | nil => simp
  | cons op ops ih => rw [List.cons_append, census_cons, census_cons, ih, Share.add_assoc]

theorem census_sound (ops : List (Op Waker)) : (census task ops).Sound := by
  induction ops with
  | nil => exact ⟨Nat.le_refl _, Nat.le_refl _, Nat.le_refl _⟩
  | cons op ops ih =>
    rw [census_cons]
    refine .add ?_ ih
    split
    · exact op.share_sound
    · exact ⟨Nat.le_refl _, Nat.le_refl _, Nat.le_refl _⟩

theorem census_replace (first more rest : List (Op Waker)) :
    census task (first ++ more ++ rest) = census task (first ++ rest) + census task more := by
  rw [census_append, census_append, census_append, Share.add_assoc, Share.add_assoc,
    Share.add_comm (census task more)]

theorem exists_of_census {count : Share → ℕ} (zero : count 0 = 0)
    (add : ∀ one two, count (one + two) = count one + count two) {ops : List (Op Waker)}
    (some : 0 < count (census task ops)) : ∃ op ∈ ops, op.task = task ∧ 0 < count op.share := by
  induction ops with
  | nil => simp [zero] at some
  | cons op ops ih =>
    rw [census_cons, add] at some
    by_cases here : op.task = task ∧ 0 < count op.share
    · exact ⟨op, by simp, here⟩
    · have none : count (if op.task = task then op.share else 0) = 0 := by
        split
        · rename_i same
          have := not_and.mp here same
          omega
        · exact zero
      obtain ⟨other, member, found⟩ := ih (by omega)
      exact ⟨other, List.mem_cons_of_mem _ member, found⟩

theorem countP_le_census {count : Share → ℕ}
    (add : ∀ one two, count (one + two) = count one + count two) {kind : Op Waker → Bool}
    (counts : ∀ op, kind op → op.task = task ∧ 0 < count op.share) (ops : List (Op Waker)) :
    ops.countP kind ≤ count (census task ops) := by
  induction ops with
  | nil => simp
  | cons op ops ih =>
    rw [List.countP_cons, census_cons, add]
    split
    · rename_i wanted
      obtain ⟨here, some⟩ := counts op wanted
      rw [if_pos here]
      omega
    · omega

end

def Stage.used : Stage → ℕ
  | .consumed => 1
  | _ => 0

structure View where
  flags : Flags
  stage : Stage
  share : Share
  queued : ℕ
  registered : ℕ
  held : Bool
  woken : Bool
  joining : Bool
  consumed : ℕ
  made : Bool

namespace Inner

def view (inner : Inner Waker) (ops : List (Op Waker)) (task : ℕ) : View where
  flags := inner.flags task
  stage := (inner.tasks task).stage
  share := census task ops
  queued := inner.queue.count task
  registered := inner.all.count task
  held := inner.held task
  woken := inner.woken task
  joining := (inner.tasks task).joinWaker.isSome
  consumed := inner.consumed task
  made := decide (task < inner.made)

end Inner

namespace View

def plus (view : View) (share : Share) : View := { view with share := view.share + share }

structure Inv (view : View) : Prop where
  place : view.queued + view.share.owns =
    (!view.flags.complete && (view.flags.scheduled || view.flags.running)).toNat
  runs : view.share.runs = (!view.flags.complete && view.flags.running).toNat
  handle : view.share.asks + view.share.lets + view.held.toNat = view.flags.handle.toNat
  aborted : view.flags.aborted → view.share.asks + view.held.toNat = 0
  ended : view.stage = .running ↔ view.flags.complete = false ∧ view.share.ends = 0
  output : 0 < view.share.ends → view.flags.aborted = false → view.stage = .finished
  kept : view.flags.complete → view.flags.handle → view.flags.aborted = false →
    view.share.lets = 0 → view.stage = .finished
  takes : 0 < view.share.takes → view.flags.complete
  dies : 0 < view.share.dies → view.flags.aborted
  drops : view.share.drops ≤ (view.flags.complete && !view.flags.handle).toNat
  gone : view.flags.complete → view.flags.handle = false → view.share.drops = 0 →
    view.stage = .consumed
  woken : view.woken → view.flags.complete ∨ view.flags.scheduled
  joining : view.joining → view.flags.complete = false
  consumed : view.consumed = view.stage.used
  registered : view.registered = (view.made && !view.flags.complete).toNat
  fresh : view.made = false → view.flags = {}

end View

namespace View.Inv

variable {view : View}

/-- The right to run a task is one operation's, and the task waits in no queue. -/
theorem owned {share : Share} (inv : (view.plus share).Inv) (some : 0 < share.owns) :
    view.queued = 0 ∧ view.share.owns = 0 ∧ view.flags.complete = false ∧
      (view.flags.scheduled || view.flags.running) = true := by
  have place : view.queued + (view.share.owns + share.owns) =
      (!view.flags.complete && (view.flags.scheduled || view.flags.running)).toNat := inv.place
  cases active : (!view.flags.complete && (view.flags.scheduled || view.flags.running)) with
  | false =>
    rw [active, Bool.toNat_false] at place
    omega
  | true =>
    rw [active, Bool.toNat_true] at place
    rw [Bool.and_eq_true, Bool.not_eq_true'] at active
    exact ⟨by omega, by omega, active⟩

theorem polled {share : Share} (inv : (view.plus share).Inv) (some : 0 < share.runs) :
    view.share.runs = 0 ∧ view.flags.complete = false ∧ view.flags.running = true := by
  have runs : view.share.runs + share.runs =
      (!view.flags.complete && view.flags.running).toNat := inv.runs
  cases active : (!view.flags.complete && view.flags.running) with
  | false =>
    rw [active, Bool.toNat_false] at runs
    omega
  | true =>
    rw [active, Bool.toNat_true] at runs
    rw [Bool.and_eq_true, Bool.not_eq_true'] at active
    exact ⟨by omega, active⟩

theorem handled (inv : view.Inv)
    (some : 0 < view.share.asks + view.share.lets + view.held.toNat) :
    view.share.asks + view.share.lets + view.held.toNat = 1 ∧ view.flags.handle = true := by
  have handle := inv.handle
  cases kept : view.flags.handle with
  | false =>
    rw [kept, Bool.toNat_false] at handle
    omega
  | true =>
    rw [kept, Bool.toNat_true] at handle
    exact ⟨handle, rfl⟩

theorem made_of_flag (inv : view.Inv) (flag : view.flags ≠ {}) : view.made = true := by
  by_contra unmade
  exact flag (inv.fresh (eq_false_of_ne_true unmade))

theorem made_of_running (inv : view.Inv) (running : view.flags.running = true) :
    view.made = true :=
  inv.made_of_flag fun none => by simp [none] at running

theorem made_of_handle (inv : view.Inv) (handle : view.flags.handle = true) :
    view.made = true :=
  inv.made_of_flag fun none => by simp [none] at handle

theorem ends_of_runs (sound : view.share.Sound) (idle : view.share.runs = 0) :
    view.share.ends = 0 :=
  Nat.le_zero.mp (idle ▸ sound.ends)

theorem runTask_open (inv : (view.plus { owns := 1 }).Inv) : view.flags.complete = false :=
  (inv.owned (Nat.succ_pos _)).2.2.1

theorem runTask {dies : ℕ} (inv : (view.plus { owns := 1 }).Inv) (sound : view.share.Sound)
    (aborts : 0 < dies → view.flags.aborted) :
    View.Inv ({ view with
      flags := { view.flags with scheduled := false, running := true }, woken := false }.plus
        { owns := 1, runs := 1, dies }) := by
  obtain ⟨queued, owns, live, active⟩ := inv.owned (Nat.succ_pos _)
  have idle : view.share.runs = 0 := Nat.le_zero.mp (owns ▸ sound.runs)
  have made : view.made = true := inv.made_of_flag fun none => by
    rw [show view.flags = {} from none] at active
    cases active
  exact
    { inv with
      place := by simp [plus, Share.add_mk, queued, owns, live]
      runs := by simp [plus, Share.add_mk, idle, live]
      dies := fun some => (Nat.add_pos_iff_pos_or_pos.mp some).elim inv.dies aborts
      woken := nofun
      fresh := fun unmade => absurd (made.symm.trans unmade) (by simp) }

theorem polling (inv : (view.plus { owns := 1, runs := 1 }).Inv) (sound : view.share.Sound) :
    view.stage = .running ∧ view.flags.complete = false := by
  obtain ⟨idle, live, -⟩ := inv.polled (Nat.succ_pos _)
  have none : view.share.ends = 0 := ends_of_runs sound idle
  exact ⟨inv.ended.mpr ⟨live, none⟩, live⟩

theorem ready (inv : (view.plus { owns := 1, runs := 1 }).Inv) (sound : view.share.Sound) :
    View.Inv ({ view with stage := .finished }.plus { owns := 1, runs := 1, ends := 1 }) := by
  obtain ⟨whole, live⟩ := inv.polling sound
  have unused : view.consumed = view.stage.used := inv.consumed
  exact
    { inv with
      ended := by simp [plus, Share.add_mk]
      output := fun _ _ => rfl
      kept := fun _ _ _ _ => rfl
      gone := fun complete => absurd (live.symm.trans complete) (by simp)
      consumed := by rw [whole] at unused; exact unused }

theorem suspend (inv : (view.plus { owns := 1, runs := 1 }).Inv) :
    View.Inv ({ view with flags := { view.flags with running := false } }.plus
      { owns := if view.flags.scheduled then 1 else 0 }) := by
  obtain ⟨queued, owns, -, -⟩ := inv.owned (Nat.succ_pos _)
  obtain ⟨idle, live, running⟩ := inv.polled (Nat.succ_pos _)
  have made : view.made = true := inv.made_of_running running
  exact
    { inv with
      place := by
        cases next : view.flags.scheduled <;>
          simp [plus, Share.add_mk, queued, owns, live, next]
      runs := by simp [plus, Share.add_mk, idle]
      fresh := fun unmade => absurd (made.symm.trans unmade) (by simp) }

theorem dropAborted (inv : (view.plus { owns := 1, runs := 1, dies := 1 }).Inv)
    (sound : view.share.Sound) :
    view.stage = .running ∧
      View.Inv ({ view with stage := .consumed, consumed := view.consumed + 1 }.plus
        { owns := 1, runs := 1, ends := 1 }) := by
  obtain ⟨idle, live, -⟩ := inv.polled (Nat.succ_pos _)
  have none : view.share.ends = 0 := ends_of_runs sound idle
  have whole : view.stage = .running := inv.ended.mpr ⟨live, none⟩
  have aborted : view.flags.aborted = true := inv.dies (Nat.succ_pos _)
  have unused : view.consumed = view.stage.used := inv.consumed
  refine ⟨whole, ?_⟩
  exact
    { inv with
      ended := by simp [plus, Share.add_mk]
      output := fun _ kept => absurd (aborted.symm.trans kept) (by simp)
      kept := fun complete => absurd (live.symm.trans complete) (by simp)
      dies := fun _ => aborted
      gone := fun _ _ _ => rfl
      consumed := by
        rw [whole] at unused
        exact congrArg Nat.succ unused }

theorem finish (inv : (view.plus { owns := 1, runs := 1, ends := 1 }).Inv)
    (sound : view.share.Sound) :
    View.Inv ({ view with
      flags := { view.flags with running := false, scheduled := false, complete := true }
      joining := false, registered := view.registered - 1 }.plus
        { drops := if view.flags.handle then 0 else 1 }) := by
  obtain ⟨queued, owns, -, -⟩ := inv.owned (Nat.succ_pos _)
  obtain ⟨idle, live, running⟩ := inv.polled (Nat.succ_pos _)
  have made : view.made = true := inv.made_of_running running
  have none : view.share.ends = 0 := ends_of_runs sound idle
  have notWhole : view.stage ≠ .running := fun whole => Nat.succ_ne_zero _ (inv.ended.mp whole).2
  have undropped : view.share.drops = 0 := by
    have drops : view.share.drops ≤ (view.flags.complete && !view.flags.handle).toNat := inv.drops
    simpa [live] using drops
  have listed : view.registered = (view.made && !view.flags.complete).toNat := inv.registered
  exact
    { inv with
      place := by simp [plus, Share.add_mk, queued, owns]
      runs := by simp [plus, Share.add_mk, idle]
      ended := by simp [plus, Share.add_mk, notWhole]
      output := fun some => absurd none (Nat.ne_of_gt some)
      kept := fun _ _ kept _ => inv.output (Nat.succ_pos _) kept
      takes := fun _ => rfl
      drops := by cases kept : view.flags.handle <;> simp [plus, Share.add_mk, undropped, kept]
      gone := fun _ lost none => by
        have lost : view.flags.handle = false := lost
        simp [plus, Share.add_mk, lost] at none
      woken := fun _ => .inl rfl
      joining := by rintro ⟨⟩
      registered := by simp [plus, listed, live, made]
      fresh := fun unmade => absurd (made.symm.trans unmade) (by simp) }

theorem dropLeft (inv : (view.plus { drops := 1 }).Inv) (sound : view.share.Sound) :
    View.Inv { view with
      stage := .consumed
      consumed := view.consumed + (1 - view.stage.used) } := by
  have drops : view.share.drops + 1 ≤ (view.flags.complete && !view.flags.handle).toNat :=
    inv.drops
  obtain ⟨done, lost⟩ : view.flags.complete = true ∧ view.flags.handle = false := by
    cases complete : view.flags.complete <;> cases handle : view.flags.handle <;>
      simp [complete, handle] at drops ⊢
  have idle : view.share.runs = 0 := by
    have runs : view.share.runs = (!view.flags.complete && view.flags.running).toNat := inv.runs
    simpa [done] using runs
  have none : view.share.ends = 0 := ends_of_runs sound idle
  have consumed : view.consumed = view.stage.used := inv.consumed
  exact
    { inv with
      ended := by simp [done]
      output := fun some => absurd none (Nat.ne_of_gt some)
      kept := fun _ kept => absurd (lost.symm.trans kept) (by simp)
      drops := Nat.le_of_succ_le drops
      gone := fun _ _ _ => rfl
      consumed := by cases stage : view.stage <;> simp [consumed, stage, Stage.used] }

theorem enqueue {more : ℕ} (inv : (view.plus { owns := 1, lets := more }).Inv) :
    View.Inv ({ view with queued := view.queued + 1 }.plus { lets := more }) := by
  obtain ⟨queued, owns, live, active⟩ := inv.owned (Nat.succ_pos _)
  exact
    { inv with
      place := by simp [plus, Share.add_mk, queued, owns, live, active] }

theorem register (inv : (view.plus { asks := 1 }).Inv) (sound : view.share.Sound)
    (waits : view.flags.complete = false) :
    View.Inv { view with joining := true, held := true } := by
  obtain ⟨one, kept⟩ : view.share.asks + 1 + view.share.lets + view.held.toNat = 1 ∧
      view.flags.handle = true := inv.handled (by simp only [plus, Share.add_mk]; omega)
  have noTakes : view.share.takes = 0 := Nat.le_zero.mp (Nat.le_trans sound.takes (by omega))
  exact
    { inv with
      handle := by
        change view.share.asks + view.share.lets + 1 = view.flags.handle.toNat
        rw [kept, Bool.toNat_true]
        omega
      aborted := fun aborted => absurd (inv.aborted aborted) (by simp [plus, Share.add_mk])
      takes := fun some => absurd noTakes (Nat.ne_of_gt some)
      joining := fun _ => waits }

theorem registerLate (inv : (view.plus { asks := 1 }).Inv) (done : view.flags.complete) :
    View.Inv (view.plus { asks := 1, takes := 1 }) :=
  { inv with takes := fun _ => done }

theorem takeOutput (inv : (view.plus { asks := 1, takes := 1 }).Inv) (sound : view.share.Sound) :
    view.stage = .finished ∧
      View.Inv ({ view with stage := .consumed, consumed := view.consumed + 1 }.plus
        { lets := 1 }) := by
  have done : view.flags.complete = true := inv.takes (Nat.succ_pos _)
  obtain ⟨one, kept⟩ : view.share.asks + 1 + view.share.lets + view.held.toNat = 1 ∧
      view.flags.handle = true := inv.handled (by simp only [plus, Share.add_mk]; omega)
  have noAborts : view.flags.aborted = false := by
    by_contra aborted
    have none := inv.aborted (eq_true_of_ne_false aborted)
    simp [plus, Share.add_mk] at none
  have noLets : view.share.lets = 0 := by omega
  have finished : view.stage = .finished := inv.kept done kept noAborts noLets
  have noTakes : view.share.takes = 0 := Nat.le_zero.mp (Nat.le_trans sound.takes (by omega))
  have unused : view.consumed = view.stage.used := inv.consumed
  have runs : view.share.runs = (!view.flags.complete && view.flags.running).toNat := inv.runs
  have none : view.share.ends = 0 := ends_of_runs sound (by simpa [done] using runs)
  refine ⟨finished, ?_⟩
  exact
    { inv with
      handle := by
        change view.share.asks + (view.share.lets + 1) + view.held.toNat = view.flags.handle.toNat
        rw [kept, Bool.toNat_true]
        omega
      aborted := fun aborted => absurd (noAborts.symm.trans aborted) (by simp)
      ended := by simp [plus, done]
      output := fun some => absurd none (Nat.ne_of_gt some)
      kept := fun _ _ _ none => absurd none (Nat.succ_ne_zero _)
      takes := fun _ => done
      gone := fun _ _ _ => rfl
      consumed := by
        rw [finished] at unused
        exact congrArg Nat.succ unused }

theorem detach (inv : (view.plus { lets := 1 }).Inv) :
    View.Inv ({ view with flags := { view.flags with handle := false }, joining := false }.plus
      { drops := if view.flags.complete then 1 else 0 }) := by
  obtain ⟨one, kept⟩ : view.share.asks + (view.share.lets + 1) + view.held.toNat = 1 ∧
      view.flags.handle = true := inv.handled (by simp only [plus, Share.add_mk]; omega)
  have made : view.made = true := inv.made_of_handle kept
  have undropped : view.share.drops = 0 := by
    have drops : view.share.drops ≤ (view.flags.complete && !view.flags.handle).toNat := inv.drops
    simpa [kept] using drops
  exact
    { inv with
      handle := by
        change view.share.asks + view.share.lets + view.held.toNat = 0
        omega
      aborted := fun _ => by
        change view.share.asks + view.held.toNat = 0
        omega
      kept := nofun
      drops := by cases done : view.flags.complete <;> simp [plus, Share.add_mk, undropped, done]
      gone := fun done _ none => by
        have done : view.flags.complete = true := done
        simp [plus, Share.add_mk, done] at none
      joining := nofun
      fresh := fun unmade => absurd (made.symm.trans unmade) (by simp) }

theorem spawn (inv : view.Inv) (sound : view.share.Sound) (fresh : view.made = false) :
    View.Inv { view with
      flags := { scheduled := true, handle := true }
      queued := view.queued + 1, registered := view.registered + 1
      held := true, made := true } := by
  have clear : view.flags = {} := inv.fresh fresh
  have place := inv.place
  have runs := inv.runs
  have handle := inv.handle
  have ended := inv.ended
  have drops := inv.drops
  have listed := inv.registered
  simp only [clear, fresh, Bool.not_false, Bool.or_self, Bool.and_false,
    Bool.toNat_false, Bool.false_and] at place runs handle ended drops listed
  exact
    { inv with
      place := by
        change view.queued + 1 + view.share.owns = 1
        omega
      runs := runs
      handle := by
        change view.share.asks + view.share.lets + 1 = 1
        omega
      aborted := nofun
      ended := ended.trans (and_congr_left' (by simp))
      output := fun some => absurd (Nat.lt_of_lt_of_le some sound.ends) (by simp [runs])
      kept := nofun
      takes := fun some => by
        have few := Nat.lt_of_lt_of_le some sound.takes
        change 0 < view.share.asks at few
        omega
      dies := fun some => absurd (inv.dies some) (by simp [clear])
      drops := drops
      gone := nofun
      woken := fun _ => .inr rfl
      joining := fun _ => rfl
      registered := congrArg Nat.succ listed
      fresh := nofun }

theorem next {queued : ℕ} (inv : View.Inv { view with queued := queued + 1 }) :
    View.Inv ({ view with queued }.plus { owns := 1 }) :=
  { inv with
    place := by
      have moved : queued + (view.share.owns + 1) = queued + 1 + view.share.owns := by omega
      exact moved.trans inv.place }

theorem place_scheduled (inv : view.Inv) :
    view.queued + (view.share.owns + if view.flags.quiet then 1 else 0) =
      (!view.flags.complete && (true || view.flags.running)).toNat := by
  have place := inv.place
  unfold Flags.quiet
  revert place
  cases view.flags.complete <;> cases view.flags.scheduled <;> cases view.flags.running <;>
    simp <;> omega

theorem wake (inv : view.Inv) (made : view.made) :
    View.Inv ({ view with flags := { view.flags with scheduled := true }, woken := true }.plus
      { owns := if view.flags.quiet then 1 else 0 }) :=
  { inv with
    place := inv.place_scheduled
    woken := fun _ => .inr rfl
    fresh := fun unmade => absurd (made.symm.trans unmade) (by simp) }

theorem abort (inv : view.Inv) (mine : view.held) (made : view.made) :
    View.Inv ({ view with
      flags := { view.flags with aborted := true, scheduled := true }, held := false }.plus
        { owns := if view.flags.quiet then 1 else 0, lets := 1 }) :=
  have handle : view.share.asks + view.share.lets + 1 = view.flags.handle.toNat := by
    simpa [mine] using inv.handle
  have alone : view.share.asks = 0 := by
    cases held : view.flags.handle <;> simp [held] at handle
    exact handle.1
  { inv with
    place := inv.place_scheduled
    handle := handle
    aborted := fun _ => alone
    output := fun _ kept => nomatch (kept : true = false)
    kept := fun _ _ kept => nomatch (kept : true = false)
    dies := fun _ => rfl
    woken := fun _ => .inr rfl
    fresh := fun unmade => absurd (made.symm.trans unmade) (by simp) }

theorem made_of_held (inv : view.Inv) (mine : view.held) : view.made :=
  inv.made_of_handle (inv.handled (by simp [mine])).2

theorem pollHandle (inv : view.Inv) (mine : view.held) :
    View.Inv ({ view with held := false }.plus
      { asks := 1, takes := if view.flags.complete then 1 else 0 }) := by
  obtain ⟨one, kept⟩ := inv.handled (by simp [mine])
  have noAborts : view.flags.aborted = false := by
    by_contra aborted
    have none := inv.aborted (eq_true_of_ne_false aborted)
    simp [mine] at none
  rw [mine, Bool.toNat_true] at one
  exact
    { inv with
      handle := by
        change view.share.asks + 1 + view.share.lets + 0 = view.flags.handle.toNat
        rw [kept, Bool.toNat_true]
        omega
      aborted := fun aborted => absurd (noAborts.symm.trans aborted) (by simp)
      takes := fun some => by
        cases done : view.flags.complete with
        | false => exact done ▸ inv.takes (by simpa [plus, Share.add_mk, done] using some)
        | true => exact done }

theorem dropHandle (inv : view.Inv) (mine : view.held) :
    View.Inv ({ view with held := false }.plus { lets := 1 }) := by
  obtain ⟨one, kept⟩ := inv.handled (by simp [mine])
  rw [mine, Bool.toNat_true] at one
  exact
    { inv with
      handle := by
        change view.share.asks + (view.share.lets + 1) + 0 = view.flags.handle.toNat
        rw [kept, Bool.toNat_true]
        omega
      aborted := fun _ => by
        change view.share.asks + 0 = 0
        omega
      kept := fun _ _ _ none => absurd none (Nat.succ_ne_zero _) }

end View.Inv

end EspDevkit.Executor
