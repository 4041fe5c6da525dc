import EspDevkit.Epd.Lifecycle

/-!
# Runs of the refresh engine

What fits before an action fits after it, whatever the task that acts.
-/

namespace EspDevkit.Epd

open Transition Function

variable {panel : Panel} {Task : Type} {rows : Rows}

namespace Driver

variable {epd before after : Driver panel Task} {action : Action Task}

structure PixelStep (rows : Rows) (before : Driver panel Task) (action : Action Task)
    (after : Driver panel Task) (y : Fin panel.height) (x : Fin panel.width) : Prop where
  armed : (before.data.state y x).isActive = false → (after.data.state y x).isActive = true →
    after.played y x = []
  flies : (before.data.state y x).isActive = true → (after.data.state y x).isActive = true →
    after.data.state y x = before.data.state y x ∧
      after.data.wf (slotOf (before.data.state y x).b1) =
        before.data.wf (slotOf (before.data.state y x).b1) ∧
      (action = .begin →
        after.played y x = before.played y x ++ [(before.played y x).length]) ∧
      (action ≠ .begin → after.played y x = before.played y x)
  retires : (before.data.state y x).isActive = true → (after.data.state y x).isActive = false →
    after.data.state y x =
        ⟨EPD_B1_IDLE, (before.data.state y x).target, (before.data.state y x).target⟩ ∧
      ∃ frame w, before.engine = .retiring frame ∧
        before.data.wf (slotOf (before.data.state y x).b1) = some w ∧
        before.played y x = List.range (before.played y x).length ∧
        frame.Finishes rows w (before.played y x).length

theorem PixelStep.of_same {y : Fin panel.height} {x : Fin panel.width}
    (state : after.data.state = before.data.state) (wf : after.data.wf = before.data.wf)
    (played : (before.data.state y x).isActive = true → after.played y x = before.played y x)
    (notBegin : action ≠ .begin) : PixelStep rows before action after y x where
  armed rests flies := by
    rw [state, rests] at flies
    cases flies
  flies flies _ :=
    ⟨by rw [state], by rw [wf], fun begins => absurd begins notBegin, fun _ => played flies⟩
  retires flies rests := by
    rw [state, flies] at rests
    cases rests

namespace Inv

theorem keep (inv : before.Inv rows) (data : after.data = before.data)
    (writing : after.writing = before.writing) (played : after.played = before.played)
    (frame : after.engine.frame = before.engine.frame)
    (starting : after.engine = .starting → before.engine = .starting)
    (callers : ∀ task op, (after.callers task).op = some op →
      (before.callers task).op = some op ∨ ∀ d : Data panel, (∀ slot, before.data.wf slot ≠ none →
        d.wf slot ≠ none) → op.Ok rows d) : after.Inv rows where
  now := by
    rw [data]
    refine inv.now.keep played frame (fun starts => inv.now.starting (starting starts)) ?_
    intro task op held
    rcases callers task op held with old | ok
    · exact inv.now.callers task op old
    · exact ok _ fun _ bound => bound
  next held writes := by
    rw [writing] at writes
    have fits := inv.next held writes
    refine fits.keep played frame (fun starts => fits.starting (starting starts)) ?_
    intro task op held'
    rcases callers task op held' with old | ok
    · exact fits.callers task op old
    · exact ok _ (inv.leads held writes).bound
  leads held writes := by
    rw [writing] at writes
    rw [data]
    exact inv.leads held writes
  op held writes := by
    rw [writing] at writes
    exact inv.op held writes

theorem move [DecidableEq Task] (inv : before.Inv rows) {task : Task} {caller : Caller}
    {changed : Driver panel Task}
    (changes : changed.data = before.data ∧ changed.writing = before.writing ∧
      changed.played = before.played ∧ changed.engine = before.engine ∧
      changed.callers = before.callers)
    (ok : ∀ op, caller.op = some op →
      (before.callers task).op = some op ∨ ∀ d : Data panel, (∀ slot, before.data.wf slot ≠ none →
        d.wf slot ≠ none) → op.Ok rows d) : (changed.move task caller).Inv rows := by
  obtain ⟨data, writing, played, engine, callers⟩ := changes
  refine inv.keep data writing played (by rw [Driver.move, engine])
    (fun starts => by rwa [Driver.move, engine] at starts) ?_
  intro other op held
  rw [Driver.move] at held
  dsimp only at held
  rw [callers] at held
  by_cases same : other = task
  · subst same
    rw [update_self] at held
    exact ok op held
  · rw [update_of_ne same] at held
    exact .inl held

theorem lockWith (inv : before.Inv rows) {task : Task} {op : Op} (waiters : ℕ)
    (held : (before.callers task).op = some op) :
    (before.lockWith task op { before.data with waiters }).Inv rows := by
  have fits : before.Fits rows { before.data with waiters } :=
    inv.now.adjust waiters before.data.running
  have ok : op.Ok rows { before.data with waiters } := fits.callers task op held
  obtain ⟨sound, leads⟩ := fits.sound.attempt ok
  exact
    { now :=
        { sound := inv.now.sound
          replay := fun y x flies => by
            obtain ⟨w, bound, steps, le, lt⟩ := inv.now.replay y x flies
            refine ⟨w, bound, ?_, le, lt⟩
            have flies' : (before.data.state y x).isActive = true := flies
            simp only [Driver.lockWith, flies', Bool.not_true, Bool.false_and, Bool.false_eq_true,
              if_false]
            exact steps
          underway := inv.now.underway
          starting := inv.now.starting
          callers := inv.now.callers }
      next := fun _ writes => by
        cases writes
        exact fits.section_result sound leads rfl rfl fun _ _ => rfl
      leads := fun _ writes => by
        cases writes
        exact ⟨leads.flying, leads.armed, leads.busy, leads.bound⟩
      op := fun _ writes => by
        cases writes
        exact ok.mono leads.bound }

theorem unlock [DecidableEq Task] (inv : before.Inv rows) {held : Section panel Task}
    (writes : before.writing = some held) :
    ({ before with data := held.result, writing := none }.move held.task
        (Driver.after held.op held.outcome)).Inv rows where
  now := by
    have fits := inv.next held writes
    refine fits.keep rfl rfl fits.starting ?_
    intro other op holds
    simp only [Driver.move] at holds
    by_cases same : other = held.task
    · subst same
      rw [update_self] at holds
      cases outcome : held.outcome with
      | waits =>
        rw [outcome] at holds
        cases holds
        exact inv.op held writes
      | done wake =>
        rw [outcome] at holds
        cases wake with
        | true => cases holds
        | false =>
          simp only [Driver.after] at holds
          split at holds <;> cases holds
    · rw [update_of_ne same] at holds
      exact fits.callers other op holds
  next _ writes := by cases writes
  leads _ writes := by cases writes
  op _ writes := by cases writes

theorem of_free (fits : epd.Fits rows epd.data) (free : epd.writing = none) : epd.Inv rows where
  now := fits
  next _ writes := by
    rw [free] at writes
    cases writes
  leads _ writes := by
    rw [free] at writes
    cases writes
  op _ writes := by
    rw [free] at writes
    cases writes

end Inv

theorem enterRefresh_ok {d d' : Data panel} {area : Area} {mode : Mode} {op : Op}
    (entered : d.enterRefresh area mode = some op)
    (bound : ∀ slot, d.wf slot ≠ none → d'.wf slot ≠ none) : op.Ok rows d' := by
  unfold Data.enterRefresh at entered
  split at entered
  · cases entered
  · rename_i slot named
    split at entered
    · cases entered
    · rename_i held
      dsimp only at entered
      split at entered
      · cases entered
      · cases entered
        refine ⟨?_, bound slot held⟩
        unfold modeToWf at named
        split at named <;> cases named <;> decide

theorem enter_ok {call : Call} {op : Op} (entered : epd.enter rows call = some op) {d : Data panel}
    (bound : ∀ slot, epd.data.wf slot ≠ none → d.wf slot ≠ none) : op.Ok rows d := by
  cases call with
  | drawBitmap image =>
    simp only [enter] at entered
    split at entered
    · cases entered
    · split at entered <;> cases entered <;> trivial
  | refresh area mode => exact enterRefresh_ok entered bound
  | clear =>
    cases entered
    trivial
  | waitDraw =>
    cases entered
    trivial
  | swap slot lut steps =>
    obtain ⟨w, init, rfl⟩ := Option.map_eq_some_iff.mp entered
    exact Waveform.valid_of_init init

theorem played_lockWith {task : Task} {op : Op} {d : Data panel} {y : Fin panel.height}
    {x : Fin panel.width} (flies : (before.data.state y x).isActive = true) :
    (before.lockWith task op d).played y x = before.played y x := by
  simp only [Driver.lockWith, flies, Bool.not_true, Bool.false_and, Bool.false_eq_true, if_false]

variable [DecidableEq Task]

/-- Every step keeps the invariant and does to a pixel what its life allows. -/
theorem Inv.step (inv : before.Inv rows) (stepTo : before.step rows action = some after) :
    after.Inv rows ∧ ∀ y x, PixelStep rows before action after y x := by
  cases moves stepTo with
  | setMode =>
    exact ⟨inv.keep rfl rfl rfl rfl id fun _ _ held => .inl held,
      fun _ _ => .of_same rfl rfl (fun _ => rfl) nofun⟩
  | called _ entered =>
    refine ⟨inv.move ⟨rfl, rfl, rfl, rfl, rfl⟩ fun op held => ?_,
      fun _ _ => .of_same rfl rfl (fun _ => rfl) nofun⟩
    cases held
    exact .inr fun d bound => enter_ok entered bound
  | returned => exact ⟨inv, fun _ _ => .of_same rfl rfl (fun _ => rfl) nofun⟩
  | locked pc =>
    exact ⟨inv.lockWith before.data.waiters (by rw [pc]; rfl),
      fun _ _ => .of_same rfl rfl played_lockWith nofun⟩
  | relocked pc =>
    exact ⟨inv.lockWith (before.data.waiters - 1) (by rw [pc]; rfl),
      fun _ _ => .of_same rfl rfl played_lockWith nofun⟩
  | @unlocked held writes =>
    have leads := inv.leads held writes
    refine ⟨inv.unlock writes, fun y x => ?_⟩
    exact
      { armed := fun rests flies => by
          have arms : (held.result.state y x).isActive = true := flies
          obtain ⟨slot, _, byte⟩ := leads.armed y x rests arms
          obtain ⟨w, _, steps, _, _⟩ := (inv.next held writes).replay y x arms
          rw [byte, stepAt_b1Armed] at steps
          exact steps
        flies := fun flies _ => by
          obtain ⟨wf, _⟩ := leads.busy (inv.now.sound.counted.busy_of_active flies)
          exact ⟨leads.flying y x flies, congrFun wf _, nofun, fun _ => rfl⟩
        retires := fun flies rests => by
          have same : held.result.state y x = before.data.state y x := leads.flying y x flies
          have rests : (held.result.state y x).isActive = false := rests
          rw [same, flies] at rests
          cases rests }
  | @tookEvent task op pc =>
    refine ⟨inv.move ⟨rfl, rfl, rfl, rfl, rfl⟩ fun op held => ?_,
      fun _ _ => .of_same rfl rfl (fun _ => rfl) nofun⟩
    rw [pc]
    exact .inl held
  | notified | refreshed =>
    exact ⟨inv.move ⟨rfl, rfl, rfl, rfl, rfl⟩ fun _ held => (nomatch held),
      fun _ _ => .of_same rfl rfl (fun _ => rfl) nofun⟩
  | refreshes _ entered =>
    refine ⟨inv.move ⟨rfl, rfl, rfl, rfl, rfl⟩ fun op held => ?_,
      fun _ _ => .of_same rfl rfl (fun _ => rfl) nofun⟩
    cases held
    exact .inr fun d bound => enterRefresh_ok entered bound
  | sleeps free deciding =>
    refine ⟨.of_free ?_ free, fun _ _ => .of_same rfl rfl (fun _ => rfl) nofun⟩
    exact (inv.now.adjust before.data.waiters false).keep rfl (by rw [deciding]; rfl) nofun
      (inv.now.adjust before.data.waiters false).callers
  | starts free deciding busy =>
    refine ⟨.of_free ?_ free, fun _ _ => .of_same rfl rfl (fun _ => rfl) nofun⟩
    exact inv.now.keep rfl (by rw [deciding]; rfl) (fun _ => busy) inv.now.callers
  | woken rests | scans _ rests | sends _ rests | scanned rests | posts rests =>
    exact ⟨inv.keep rfl rfl rfl (by rw [rests]; rfl) nofun fun _ _ held => .inl held,
      fun _ _ => .of_same rfl rfl (fun _ => rfl) nofun⟩
  | begins free starting =>
    obtain ⟨fits, played⟩ := inv.now.begins
      { before with
        data := (before.data.buildFrame rows).1
        engine := .scanning (before.data.buildFrame rows).2 0 .first []
        played := fun y x =>
          let px := (before.data.buildFrame rows).1.state y x
          if px.isActive && decide (stepAt (before.data.buildFrame rows).1.frame px.b1 ≠ 63) then
            before.played y x ++ [stepAt (before.data.buildFrame rows).1.frame px.b1]
          else before.played y x }
      starting rfl rfl fun _ _ => rfl
    refine ⟨.of_free fits free, fun y x => ?_⟩
    exact
      { armed := fun rests flies => by
          have same : (before.data.state y x).isActive = true := flies
          rw [same] at rests
          cases rests
        flies := fun flies _ => ⟨rfl, rfl, fun _ => played y x flies, fun none => absurd rfl none⟩
        retires := fun flies rests => by
          have same : (before.data.state y x).isActive = false := rests
          rw [same] at flies
          cases flies }
  | @skipped fresh frame y part sent scanning quiet =>
    have held : before.engine.frame = some frame := by
      rw [scanning]
      rfl
    have quiet := Bool.eq_false_iff.mpr quiet
    refine ⟨?_, fun _ _ => .of_same rfl rfl (fun _ => rfl) nofun⟩
    exact
      { now := inv.now.none_retires held quiet rfl nofun rfl rfl
        next := fun other writes =>
          (inv.next other writes).none_retires held quiet rfl nofun rfl rfl
        leads := inv.leads
        op := inv.op }
  | @retires frame free retiring =>
    have held : before.engine.frame = some frame := by
      rw [retiring]
      rfl
    obtain ⟨fits, state⟩ := inv.now.retires
      { before with
        data := (before.data.retirePass frame.retireTab).1
        engine := .posting (before.data.retirePass frame.retireTab).2 }
      held rfl nofun rfl rfl
    refine ⟨.of_free fits free, fun y x => ?_⟩
    have now : ∀ {px : Px}, (retirePx frame.retireTab px).isActive = true →
        px.isActive = true ∧ retirePx frame.retireTab px = px := by
      intro px flies
      unfold retirePx at flies ⊢
      split at flies
      · cases flies
      · rename_i stays
        rw [if_neg stays]
        exact ⟨flies, rfl⟩
    have after : ∀ y x, (before.data.retirePass frame.retireTab).1.state y x =
      retirePx frame.retireTab (before.data.state y x) := state
    exact
      { armed := fun rests flies => by
          dsimp only at flies
          rw [after] at flies
          rw [(now flies).1] at rests
          cases rests
        flies := fun _ flies => by
          dsimp only at flies ⊢
          rw [after] at flies ⊢
          exact ⟨(now flies).2, rfl, nofun, fun _ => rfl⟩
        retires := fun flies rests => by
          dsimp only at rests ⊢
          rw [after] at rests ⊢
          obtain ⟨w, bound, steps, finishes, _⟩ := inv.now.finished held flies
          have goes : frame.retireTab (before.data.state y x).b1 = true := by
            by_contra stays
            rw [retirePx, if_neg stays, flies] at rests
            cases rests
          refine ⟨by rw [retirePx, if_pos goes], frame, w, retiring, bound, ?_, ?_⟩
          · rw [steps, List.length_range]
          · rw [steps, List.length_range]
            exact finishes goes }

end Driver

end EspDevkit.Epd
