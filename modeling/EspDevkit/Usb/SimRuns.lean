import EspDevkit.Library.Transition
import EspDevkit.Usb.SimReplies

/-!
# Runs of a session

A request that the simulated host controller accepts is completed once.
-/

namespace EspDevkit.Usb.Sim

open Transition List Function Option

namespace State

variable {table : ℕ → Request} {state after : State}

structure Kept (table : ℕ → Request) (state : State) : Prop where
  placed : state.Placed
  told : state.Told table
  wired : state.rx.live = true → ∃ frames, state.Wired table frames

variable {request actual : ℕ} {status : Status}

theorem Placed.takeBack (placed : state.Placed)
    (others : ∀ other, other ≠ request → after.phase other = state.phase other)
    (taken : (after.phase request).given = false)
    (present : List.Perm state.present (request :: after.present))
    (emptied : after.rx.live = false → after.inflight = []) : after.Placed := by
  have once := present.nodup_iff.mp placed.once
  rw [nodup_cons] at once
  refine ⟨once.2, fun other => ?_, emptied⟩
  by_cases same : other = request
  · subst same
    rw [taken]
    exact iff_of_false once.1 Bool.false_ne_true
  · rw [others other same, ← placed.given, present.mem_iff, mem_cons]
    exact (or_iff_right same).symm

theorem Placed.absent (placed : state.Placed)
    (fresh : (state.phase request).given = false) :
    ∀ entry ∈ state.inflight, entry.2 ≠ request := by
  rintro entry mem rfl
  have present : entry.2 ∈ state.present :=
    mem_append_left _ (mem_append_left _ (mem_map_of_mem mem))
  rw [placed.given, fresh] at present
  cases present

theorem Kept.moveSubmit (kept : state.Kept table) {phase : Phase}
    (given : (state.phase request).given = phase.given)
    (quiet : ∀ seqnum, phase ≠ .inserted seqnum ∧ phase ≠ .failed seqnum)
    (keeps : state.phase request = .accepted → phase = .accepted)
    (absent : phase = .accepted → state.ended = false → ∀ entry ∈ state.inflight,
      entry.2 ≠ request) :
    (state.moveSubmit request phase).Kept table where
  placed := kept.placed.moveSubmit given
  told := { kept.told with }
  wired live := by
    obtain ⟨frames, wired⟩ := kept.wired live
    exact ⟨frames, wired.moveSubmit quiet keeps absent⟩

theorem Due.mono {result : Outcome} (due : state.Due table request result)
    (answered : ∀ answer ∈ state.answered, answer ∈ after.answered) :
    after.Due table request result := by
  rcases due with gone | canceled | ⟨status, actual, mem, same⟩ | address
  · exact .inl gone
  · exact .inr (.inl canceled)
  · exact .inr (.inr (.inl ⟨status, actual, answered _ mem, same⟩))
  · exact .inr (.inr (.inr address))

theorem Told.complete (told : state.Told table) {result : Outcome}
    (due : state.Due table request result) : (state.complete request result).Told table :=
  { told with
    completed := by
      intro entry mem
      rcases mem_append.mp mem with mem | mem
      · exact told.completed entry mem
      · cases mem_singleton.mp mem
        exact due }

theorem Kept.setAddress (kept : state.Kept table)
    (new : state.phase request = .new) (address : (table request).setAddress = true) :
    ((state.complete request (.ok 0)).moveSubmit request .accepted).Kept table where
  placed := by
    refine kept.placed.hand (fun other same => update_of_ne same _ _)
      (update_self ..) rfl (by rw [new]; rfl) ?_ kept.placed.emptied
    show List.Perm (state.inflight.map Prod.snd ++ state.rx.hand ++
      (state.completed ++ [(request, Outcome.ok 0)]).map Prod.fst) _
    rw [map_append, ← append_assoc]
    exact perm_append_singleton request _
  told := { kept.told.complete (.inr (.inr (.inr ⟨address, rfl⟩))) with }
  wired live := by
    obtain ⟨frames, wired⟩ := kept.wired live
    have moved : (state.moveSubmit request .accepted).Wired table frames :=
      wired.moveSubmit (fun _ => ⟨nofun, nofun⟩) (fun _ => rfl) fun _ _ =>
        kept.placed.absent (by rw [new]; rfl)
    exact ⟨frames,
      { moved with
        canceled := fun number mem target linked =>
          { moved.canceled number mem target linked with }
        taking := fun target takes => { moved.taking target takes with } }⟩

theorem Kept.insert (kept : state.Kept table)
    (holding : state.phase request = .holding) (live : state.rx.live = true) :
    State.Kept table
      ({ state with
        nextSeqnum := state.nextSeqnum + 1
        inflight := withEntry state.inflight state.nextSeqnum request }.moveSubmit request
          (.inserted state.nextSeqnum)) := by
  obtain ⟨frames, wired⟩ := kept.wired live
  refine ⟨?_, { kept.told with }, fun _ => ⟨frames, wired.insert holding⟩⟩
  refine kept.placed.hand (fun other same => update_of_ne same _ _)
    (update_self ..) rfl (by rw [holding]; rfl) ?_ ?_
  · show List.Perm ((withEntry state.inflight state.nextSeqnum request).map Prod.snd ++ _ ++ _) _
    rw [withEntry_fresh request wired.drawn]
    exact List.Perm.refl _
  · intro notLive
    exact absurd live (by rw [show state.rx.live = false from notLive]; decide)

theorem Kept.reject (kept : state.Kept table) {seqnum other : ℕ}
    (failed : state.phase request = .failed seqnum)
    (found : state.inflight.lookup seqnum = some other) :
    State.Kept table
      ({ state with inflight := Sim.without state.inflight seqnum }.moveSubmit request
        .rejected) := by
  have live : state.rx.live = true := by
    by_contra notLive
    rw [kept.placed.emptied (Bool.eq_false_iff.mpr notLive)] at found
    cases found
  obtain ⟨frames, wired⟩ := kept.wired live
  have mem := wired.unsent request seqnum (.inr failed)
  refine ⟨?_, { kept.told with }, fun _ => ⟨frames, ?_⟩⟩
  · refine kept.placed.takeBack (fun other same => update_of_ne same _ _) ?_ ?_ ?_
    · show (Function.update state.phase request .rejected request).given = false
      rw [update_self]
      rfl
    · have perm := (perm_without wired.keys mem).map Prod.snd
      exact (perm.append_right state.rx.hand).append_right (state.completed.map Prod.fst)
    · intro notLive
      exact absurd live (by rw [show state.rx.live = false from notLive]; decide)
  · have moved : (state.moveSubmit request .rejected).Wired table frames := by
      refine wired.moveSubmit (fun _ => ⟨nofun, nofun⟩) (fun accepted => ?_) nofun
      rw [failed] at accepted
      cases accepted
    have out := moved.without (wired.not_pending (.inr failed)) fun other => by
      by_cases same : other = request
      · subst same
        rw [State.moveSubmit]
        simp only [update_self]
        exact ⟨nofun, nofun⟩
      · rw [State.moveSubmit]
        simp only [update_of_ne same]
        rw [← not_or]
        intro now
        exact same (value_unique wired.keys (wired.unsent other seqnum now) mem)
    exact
      { out with
        canceled := fun number mem target linked =>
          { out.canceled number mem target linked with }
        taking := fun target takes => { out.taking target takes with } }

theorem submit_kept (kept : state.Kept table) {sends : Bool}
    (calm : state.Calm (.submit request sends))
    (step : state.submit table request sends = some after) : after.Kept table := by
  rw [State.submit] at step
  split at step
  · rename_i new
    split at step
    · split at step
      · rename_i address
        cases step
        exact kept.setAddress new address
      · cases step
        exact kept.moveSubmit (by rw [new]; rfl) (fun _ => ⟨nofun, nofun⟩) (by rw [new]; nofun)
          nofun
    · cases step
      exact kept.moveSubmit (by rw [new]; rfl) (fun _ => ⟨nofun, nofun⟩) (by rw [new]; nofun) nofun
  · rename_i holding
    obtain ⟨live, drawn⟩ := calm holding
    cases step
    rw [State.seqnum, Nat.mod_eq_of_lt drawn]
    exact kept.insert holding live
  · rename_i seqnum inserted
    have given : (state.phase request).given = true := by
      rw [inserted]
      rfl
    split at step
    · cases step
      split
      · rename_i ended
        refine kept.moveSubmit given (fun _ => ⟨nofun, nofun⟩) (fun _ => rfl) fun _ running => ?_
        rw [ended] at running
        cases running
      · have placed : (state.moveSubmit request .accepted).Placed :=
          kept.placed.moveSubmit given
        refine ⟨{ placed with }, { kept.told with }, fun live => ?_⟩
        obtain ⟨frames, wired⟩ := kept.wired live
        exact ⟨frames, wired.deliver inserted kept.placed.once.of_append_left.of_append_left⟩
    · split at step
      · cases step
        refine ⟨kept.placed.moveSubmit given, { kept.told with }, fun live => ?_⟩
        obtain ⟨frames, wired⟩ := kept.wired live
        exact ⟨frames, wired.fail inserted⟩
      · cases step
  · rename_i seqnum failed
    split at step
    · rename_i found
      cases step
      exact kept.reject failed found
    · rename_i noEntry
      cases step
      refine kept.moveSubmit (by rw [failed]; rfl) (fun _ => ⟨nofun, nofun⟩) (fun _ => rfl) ?_
      intro _ _ entry mem same
      -- a map that still has requests has this one under its number
      have live : state.rx.live = true := by
        by_contra notLive
        rw [kept.placed.emptied (Bool.eq_false_iff.mpr notLive)] at mem
        cases mem
      obtain ⟨frames, wired⟩ := kept.wired live
      rw [lookup_eq_some_of_mem wired.keys (wired.unsent request seqnum (.inr failed))] at noEntry
      cases noEntry
  · cases step
  · cases step

theorem Kept.moveCancel (kept : state.Kept table) {call : ℕ} {phase : Cancel}
    (quiet : ∀ seqnum target, phase ≠ .linked seqnum target) :
    (state.moveCancel call phase).Kept table where
  placed := { kept.placed with }
  told := { kept.told with }
  wired live := by
    obtain ⟨frames, wired⟩ := kept.wired live
    exact ⟨frames, wired.moveCancel quiet⟩

theorem find_kept (kept : state.Kept table) {call : ℕ}
    (step : state.find table call request = some after) : after.Kept table := by
  rw [State.find] at step
  split at step
  · cases step
  · split at step
    · split at step
      · cases step
        exact kept.moveCancel nofun
      · cases step
        exact kept
    · cases step
      exact kept

theorem unlink_kept (kept : state.Kept table) {call : ℕ} {sends : Bool}
    (calm : state.Calm (.unlink call sends)) (step : state.unlink call sends = some after) :
    after.Kept table := by
  rw [State.unlink] at step
  split at step
  · cases step
  · rename_i target found
    cases step
    rw [State.seqnum, Nat.mod_eq_of_lt calm]
    refine ⟨{ kept.placed with }, { kept.told with }, fun live => ?_⟩
    obtain ⟨frames, wired⟩ := kept.wired live
    exact ⟨frames, wired.link call target⟩
  · rename_i seqnum target linked
    split at step
    · cases step
      split
      · exact kept.moveCancel nofun
      · refine ⟨{ kept.placed with }, { kept.told with }, fun live => ?_⟩
        obtain ⟨frames, wired⟩ := kept.wired live
        exact ⟨frames, wired.ask linked⟩
    · split at step
      · cases step
        exact kept.moveCancel nofun
      · cases step

theorem Kept.turn (kept : state.Kept table) {rx : Rx} (live : rx.live = state.rx.live)
    (hand : rx.hand = state.rx.hand) (owed : rx.owed table = state.rx.owed table)
    (taken : ∀ target, state.rx = .unlinking target → target ∉ state.inflight.map Prod.fst)
    (quiet : ∀ target, rx ≠ .unlinking target) (completing : ∀ request result goesOn,
      rx ≠ .completing request result goesOn)
    (data : ∀ request status actual, rx ≠ .data request status actual) (followed : rx ≠ .lost) :
    State.Kept table { state with rx } where
  placed := by
    refine kept.placed.of_perm rfl ?_ fun notLive => kept.placed.emptied (live ▸ notLive)
    show List.Perm (state.inflight.map Prod.snd ++ rx.hand ++ _) _
    rw [hand]
    exact List.Perm.refl _
  told :=
    { kept.told with
      completing := fun request result goesOn same => absurd same (completing request result goesOn)
      data := fun request status actual same => absurd same (data (some request) status actual) }
  wired now := by
    obtain ⟨frames, wired⟩ := kept.wired (live ▸ now)
    exact ⟨frames, wired.turn owed quiet taken (fun status actual => data none status actual)
      followed⟩

theorem retSubmit_kept (kept : state.Kept table) {seqnum : ℕ}
    (step : state.retSubmit table seqnum status actual = some after) : after.Kept table := by
  rw [State.retSubmit] at step
  split at step
  · rename_i request found
    split at step
    · cases step
    · rename_i running
      cases step
      have grows : ∀ answer ∈ state.answered,
          answer ∈ state.answered ++ [(request, status, actual)] :=
        fun answer => mem_append_left _
      refine ⟨{ kept.placed with }, ?_, fun live => ?_⟩
      · exact
          { completed := fun entry mem => (kept.told.completed entry mem).mono grows
            completing := fun other result goesOn same =>
              (kept.told.completing other result goesOn same).mono grows
            data := fun other status' actual' same =>
              grows _ (kept.told.data other status' actual' same) }
      · obtain ⟨frames, wired⟩ := kept.wired live
        exact ⟨_, wired.retSubmit (mem_of_lookup found) (Bool.eq_false_iff.mpr running)⟩
  · cases step

theorem retUnlink_kept (kept : state.Kept table) {seqnum : ℕ}
    (step : state.retUnlink seqnum status = some after) : after.Kept table := by
  rw [State.retUnlink] at step
  split at step
  · rename_i target found
    dsimp only at step
    split at step
    · cases step
    · rename_i may
      cases step
      rw [Bool.or_eq_true, Bool.and_eq_true, not_or, not_and, decide_eq_true_eq] at may
      obtain ⟨running, may⟩ := may
      refine ⟨{ kept.placed with }, { kept.told with }, fun live => ?_⟩
      obtain ⟨frames, wired⟩ := kept.wired live
      refine ⟨_, wired.retUnlink (mem_of_lookup found) (Bool.eq_false_iff.mpr running)
        fun canceled => ?_⟩
      cases held : state.server.submits.lookup target with
      | none =>
        rw [held] at may
        exact absurd rfl (may canceled)
      | some request => exact ⟨request, mem_of_lookup held⟩
  · cases step

theorem Kept.takeSubmit (kept : state.Kept table) (reading : state.rx = .reading)
    {seqnum : ℕ} {stream : List Token}
    (header : state.stream = .header (.RetSubmit seqnum status actual) :: stream) :
    State.Kept table
      { state with
        stream
        inflight := Sim.without state.inflight seqnum
        rx := .data (state.inflight.lookup seqnum) status actual } := by
  obtain ⟨frames, wired⟩ := kept.wired (by rw [reading]; rfl)
  have due := wired.stream
  rw [reading, header] at due
  obtain ⟨frame, later, rfl, data, tokens, due⟩ := frame_of_header due
  cases frame with
  | unlink number status' => cases tokens
  | submit number request status' actual' =>
    cases tokens
    have mem : (seqnum, request) ∈ state.inflight :=
      (wired.waiting (seqnum, request) (mem_append_right _ mem_cons_self)).1
    rw [lookup_eq_some_of_mem wired.keys mem]
    refine ⟨?_, ?_, fun _ => ⟨later, wired.takeSubmit reading header due⟩⟩
    · refine kept.placed.of_perm rfl ?_ nofun
      have perm := (perm_without wired.keys mem).map Prod.snd
      have hand : state.rx.hand = [] := by
        rw [reading]
        rfl
      show List.Perm ((Sim.without state.inflight seqnum).map Prod.snd ++ [request] ++ _) _
      rw [State.present, hand, append_nil]
      exact ((perm_append_singleton request _).trans perm.symm).append_right _
    · exact
        { kept.told with
          completing := nofun
          data := fun other status' actual' same => by
            cases same
            exact wired.answered seqnum _ _ _ mem_cons_self }

theorem Kept.takeUnlink (kept : state.Kept table) (reading : state.rx = .reading)
    {seqnum : ℕ} {stream : List Token} {rx : Rx}
    (header : state.stream = .header (.RetUnlink seqnum status) :: stream)
    (next : rx = .reading ∧ (status = .ECONNRESET → ∀ target, (seqnum, target) ∉ state.unlinks) ∨
      status = .ECONNRESET ∧ ∃ target, (seqnum, target) ∈ state.unlinks ∧ rx = .unlinking target) :
    State.Kept table
      { state with stream, unlinks := Sim.without state.unlinks seqnum, rx } := by
  obtain ⟨frames, wired⟩ := kept.wired (by rw [reading]; rfl)
  have due := wired.stream
  rw [reading, header] at due
  obtain ⟨frame, later, rfl, data, tokens, due⟩ := frame_of_header due
  have idle : rx.hand = state.rx.hand ∧ rx.live = true ∧
      (∀ request result goesOn, rx ≠ .completing request result goesOn) ∧
      ∀ request status actual, rx ≠ .data request status actual := by
    rw [reading]
    rcases next with ⟨rfl, -⟩ | ⟨-, target, -, rfl⟩
    · exact ⟨rfl, rfl, nofun, nofun⟩
    · exact ⟨rfl, rfl, nofun, nofun⟩
  obtain ⟨hand, live, completing, taking⟩ := idle
  cases frame with
  | submit number request status' actual' => cases tokens
  | unlink number status' =>
    cases tokens
    refine ⟨?_, ?_, fun _ => ⟨later, wired.takeUnlink reading header due next⟩⟩
    · refine kept.placed.of_perm rfl ?_ fun notLive => ?_
      · show List.Perm (state.inflight.map Prod.snd ++ rx.hand ++ _) _
        rw [hand]
        exact List.Perm.refl _
      · rw [show rx.live = false from notLive] at live
        cases live
    · exact
        { kept.told with
          completing := fun request result goesOn same =>
            absurd same (completing request result goesOn)
          data := fun request status actual same =>
            absurd same (taking (some request) status actual) }

theorem Kept.endData (kept : state.Kept table)
    (data : state.rx = .data (some request) status actual) {result : Outcome} {goesOn : Bool}
    {stream : List Token} (due : state.Due table request result)
    (wired : ∃ frames, State.Wired table
      { state with stream, rx := .completing request result goesOn } frames) :
    State.Kept table { state with stream, rx := .completing request result goesOn } := by
  refine ⟨?_, ?_, fun _ => wired⟩
  · refine kept.placed.of_perm rfl ?_ nofun
    rw [State.present, State.present, data]
    exact List.Perm.refl _
  · exact
      { kept.told with
        completing := fun other result' goesOn' same => by
          cases same
          exact due
        data := nofun }

theorem Kept.readData (kept : state.Kept table)
    (data : state.rx = .data (some request) status actual)
    (step : state.receive table = some after) : after.Kept table := by
  obtain ⟨frames, wired⟩ := kept.wired (by rw [data]; rfl)
  have stream := wired.stream
  have whole := wired.whole
  have answer := kept.told.data request status actual data
  have notUnlinking : ∀ target, state.rx ≠ .unlinking target := by
    rw [data]
    exact nofun
  rw [data] at stream whole
  rw [State.receive, data] at step
  dsimp only [all_some, elim_some] at step
  split at step
  · rename_i isIn
    have owed : (Rx.data (some request) status actual).owed table = actual := by
      rw [Rx.owed, if_pos isIn]
    rw [owed] at stream whole
    split at step
    · rename_i rest read
      cases step
      have due : state.Due table request
          (if decide ((table request).len < actual) && decide (status = .ok) then
            .error .Overflow else status.result actual) := by
        refine .inr (.inr (.inl ⟨status, actual, answer, ?_⟩))
        simp only [Bool.and_eq_true, decide_eq_true_eq, isIn, true_and]
      refine kept.endData data due ⟨frames, wired.endData notUnlinking ?_ fun running => ?_⟩
      · rcases readBytes_of_prefix stream with short | ⟨after, isDone, due⟩
        · rw [short] at read
          cases read
        · rw [isDone] at read
          cases read
          exact due
      · rw [whole running, readBytes_append] at read
        cases read
        rfl
    · split at step
      · rename_i ended
        cases step
        refine kept.endData data (.inl rfl) 
          ⟨frames, wired.endData notUnlinking nil_prefix ?_⟩
        intro running
        rw [ended] at running
        cases running
      · cases step
    · rename_i read
      rcases readBytes_of_prefix stream with short | ⟨after, isDone, due⟩
      · rw [short] at read
        cases read
      · rw [isDone] at read
        cases read
  · rename_i isOut
    cases step
    have owed : (Rx.data (some request) status actual).owed table = 0 := by
      rw [Rx.owed, if_neg isOut]
    rw [owed] at stream whole
    have due : state.Due table request (status.result actual) := by
      refine .inr (.inr (.inl ⟨status, actual, answer, ?_⟩))
      rw [if_neg fun tooLong => isOut tooLong.1]
    exact kept.endData data due ⟨frames, wired.endData notUnlinking stream whole⟩

theorem Kept.takeTarget (kept : state.Kept table) {target : ℕ}
    (unlinking : state.rx = .unlinking target)
    (found : state.inflight.lookup target = some request) :
    State.Kept table
      { state with
        inflight := Sim.without state.inflight target
        rx := .completing request (.error .Canceled) true } := by
  obtain ⟨frames, wired⟩ := kept.wired (by rw [unlinking]; rfl)
  have settled := wired.taking target unlinking
  refine ⟨?_, ?_, fun _ => ⟨frames, ?_⟩⟩
  · refine kept.placed.of_perm rfl ?_ nofun
    have perm := (perm_without wired.keys (mem_of_lookup found)).map Prod.snd
    have hand : state.rx.hand = [] := by
      rw [unlinking]
      rfl
    show List.Perm ((Sim.without state.inflight target).map Prod.snd ++ [request] ++ _) _
    rw [State.present, hand, append_nil]
    exact ((perm_append_singleton request _).trans perm.symm).append_right _
  · exact
      { kept.told with
        completing := fun other result goesOn same => by
          cases same
          exact .inr (.inl rfl)
        data := nofun }
  · have out := wired.without settled.absent settled.sent
    have owed : state.rx.owed table = 0 := by
      rw [unlinking]
      rfl
    refine out.turn owed.symm nofun (fun other same => ?_) nofun nofun
    cases unlinking.symm.trans same
    exact not_mem_without _ _

theorem Kept.complete (kept : state.Kept table) {result : Outcome} {goesOn : Bool}
    (completing : state.rx = .completing request result goesOn) :
    State.Kept table
      { state.complete request result with rx := if goesOn then .reading else .failing } := by
  have next : (if goesOn then .reading else .failing : Rx) = .reading ∨
      (if goesOn then .reading else .failing : Rx) = .failing := by
    cases goesOn
    · exact .inr rfl
    · exact .inl rfl
  generalize (if goesOn then .reading else .failing : Rx) = rx at next
  obtain ⟨frames, wired⟩ := kept.wired (by rw [completing]; rfl)
  have due := kept.told.completing request result goesOn completing
  have owed : rx.owed table = state.rx.owed table := by
    rw [completing]
    rcases next with rfl | rfl <;> rfl
  have hand : rx.hand = [] := by
    rcases next with rfl | rfl <;> rfl
  have idle : (∀ target, rx ≠ .unlinking target) ∧
      (∀ request result goesOn, rx ≠ .completing request result goesOn) ∧
      (∀ request status actual, rx ≠ .data request status actual) ∧ rx ≠ .lost ∧
      rx.live = true := by
    rcases next with rfl | rfl
    · exact ⟨nofun, nofun, nofun, nofun, rfl⟩
    · exact ⟨nofun, nofun, nofun, nofun, rfl⟩
  obtain ⟨quiet, completes, data, followed, live⟩ := idle
  refine ⟨?_, ?_, fun _ => ⟨frames, ?_⟩⟩
  · refine kept.placed.of_perm rfl ?_ fun notLive => ?_
    · show List.Perm (state.inflight.map Prod.snd ++ rx.hand ++
        (state.completed ++ [(request, result)]).map Prod.fst) _
      rw [State.present, completing, hand, map_append, append_nil, append_assoc]
      exact (perm_append_comm).append_left _
    · rw [show rx.live = false from notLive] at live
      cases live
  · exact
      { kept.told.complete due with
        completing := fun request result goesOn same =>
          absurd same (completes request result goesOn)
        data := fun request status actual same => absurd same (data (some request) status actual) }
  · have turned := wired.turn owed quiet (by rw [completing]; exact nofun)
      (fun status actual => data none status actual) followed
    exact
      { turned with
        canceled := fun number mem target linked =>
          { turned.canceled number mem target linked with }
        taking := fun target takes => { turned.taking target takes with } }

theorem Kept.drain (kept : state.Kept table) (failing : state.rx = .failing) :
    State.Kept table
      { state with inflight := [], rx := .draining (state.inflight.map Prod.snd) } where
  placed := by
    refine kept.placed.of_perm rfl ?_ fun _ => rfl
    have hand : state.rx.hand = [] := by
      rw [failing]
      rfl
    rw [State.present, State.present, hand, append_nil]
    exact List.Perm.refl _
  told := { kept.told with completing := nofun, data := nofun }
  wired := nofun

theorem Kept.drainOne (kept : state.Kept table) {requests : List ℕ}
    (draining : state.rx = .draining (request :: requests)) :
    State.Kept table
      { state.complete request (.error .NoDevice) with rx := .draining requests } where
  placed := by
    refine kept.placed.of_perm rfl ?_ fun _ => kept.placed.emptied (by rw [draining]; rfl)
    show List.Perm (state.inflight.map Prod.snd ++ requests ++
      (state.completed ++ [(request, Outcome.error .NoDevice)]).map Prod.fst) _
    rw [State.present, draining, map_append, ← append_assoc]
    refine (perm_append_singleton request _).trans ?_
    show List.Perm _ (state.inflight.map Prod.snd ++ request :: requests ++ _)
    exact (perm_middle.append_right _).symm
  told :=
    { kept.told.complete (.inl rfl) with
      completing := nofun
      data := nofun }
  wired := nofun

theorem receive_kept (kept : state.Kept table) (step : state.receive table = some after) :
    after.Kept table := by
  cases rx : state.rx with
  | reading =>
    obtain ⟨frames, wired⟩ := kept.wired (by rw [rx]; rfl)
    rw [State.receive, rx] at step
    dsimp only at step
    split at step
    · split at step
      · cases step
        exact kept.turn (by rw [rx]; rfl) (by rw [rx]; rfl) (by rw [rx]; rfl)
          (by rw [rx]; exact nofun) nofun nofun nofun nofun
      · cases step
    · rename_i stream header
      have due := wired.stream
      rw [rx, header] at due
      exact absurd due not_byte_prefix
    · rename_i seqnum status actual stream header
      cases step
      exact kept.takeSubmit rx header
    · rename_i seqnum status stream header
      split at step
      · rename_i target found
        cases step
        exact kept.takeUnlink rx header (.inr ⟨rfl, target, mem_of_lookup found, rfl⟩)
      · rename_i noTarget
        cases step
        refine kept.takeUnlink rx header (.inl ⟨rfl, fun canceled target mem => ?_⟩)
        exact noTarget target canceled (lookup_eq_some_of_mem wired.unlinkKeys mem)
  | data request status actual =>
    cases request with
    | none =>
      obtain ⟨frames, wired⟩ := kept.wired (by rw [rx]; rfl)
      exact absurd rx (wired.found status actual)
    | some request => exact kept.readData rx step
  | unlinking target =>
    rw [State.receive, rx] at step
    dsimp only at step
    split at step
    · rename_i request found
      cases step
      exact kept.takeTarget rx found
    · rename_i noEntry
      cases step
      refine kept.turn (by rw [rx]; rfl) (by rw [rx]; rfl) (by rw [rx]; rfl) ?_
        nofun nofun nofun nofun
      intro other same mem
      cases rx.symm.trans same
      obtain ⟨entry, mem, isTarget⟩ := mem_map.mp mem
      obtain ⟨frames, wired⟩ := kept.wired (by rw [rx]; rfl)
      rw [← isTarget, lookup_eq_some_of_mem wired.keys mem] at noEntry
      cases noEntry
  | completing request result goesOn =>
    rw [State.receive, rx] at step
    cases step
    exact kept.complete rx
  | failing =>
    rw [State.receive, rx] at step
    cases step
    exact kept.drain rx
  | draining requests =>
    rw [State.receive, rx] at step
    cases requests with
    | nil =>
      cases step
      exact kept.turn (by rw [rx]; rfl) (by rw [rx]; rfl) (by rw [rx]; rfl)
        (by rw [rx]; exact nofun) nofun nofun nofun nofun
    | cons request requests =>
      cases step
      exact kept.drainOne rx
  | closing =>
    rw [State.receive, rx] at step
    cases step
    exact kept.turn (by rw [rx]; rfl) (by rw [rx]; rfl) (by rw [rx]; rfl)
      (by rw [rx]; exact nofun) nofun nofun nofun nofun
  | leaving =>
    rw [State.receive, rx] at step
    cases step
    have turned : State.Kept table { state with rx := .gone } :=
      kept.turn (by rw [rx]; rfl) (by rw [rx]; rfl) (by rw [rx]; rfl)
        (by rw [rx]; exact nofun) nofun nofun nofun nofun
    exact ⟨{ turned.placed with }, { turned.told with }, nofun⟩
  | gone =>
    rw [State.receive, rx] at step
    cases step
  | lost =>
    rw [State.receive, rx] at step
    cases step

theorem init_kept : init.Kept table where
  placed := ⟨nodup_nil, fun _ => ⟨nofun, nofun⟩, nofun⟩
  told := ⟨(fun _ mem => nomatch mem), nofun, nofun⟩
  wired _ :=
    ⟨[],
      { keys := nodup_nil
        drawn := fun _ mem => nomatch mem
        unsent := fun _ _ unsent => by rcases unsent with unsent | unsent <;> cases unsent
        distinct := nodup_nil
        waiting := fun _ mem => nomatch mem
        unlinkKeys := nodup_nil
        unlinkDrawn := fun _ mem => nomatch mem
        asked := fun _ mem => nomatch mem
        linked := nofun
        calls := nofun
        apart := nodup_nil
        unlinkingDrawn := fun _ mem => nomatch mem
        canceled := fun _ mem => nomatch mem
        taking := nofun
        stream := prefix_rfl
        answered := fun _ _ _ _ mem => nomatch mem
        whole := fun _ => rfl
        awaited := fun _ _ mem => nomatch mem
        found := nofun
        followed := nofun }⟩

theorem step_kept (kept : state.Kept table) {action : Action} (calm : state.Calm action)
    (step : state.step table action = some after) : after.Kept table := by
  cases action with
  | pipeAlloc pipe =>
    cases step
    refine ⟨{ kept.placed with }, { kept.told with }, fun live => ?_⟩
    obtain ⟨frames, wired⟩ := kept.wired live
    exact ⟨frames, wired.pipes _⟩
  | pipeFree pipe =>
    cases step
    refine ⟨{ kept.placed with }, { kept.told with }, fun live => ?_⟩
    obtain ⟨frames, wired⟩ := kept.wired live
    exact ⟨frames, wired.pipes _⟩
  | submit request sends => exact submit_kept kept calm step
  | cancel call request => exact find_kept kept step
  | unlink call sends => exact unlink_kept kept calm step
  | receive => exact receive_kept kept step
  | retSubmit seqnum status actual => exact retSubmit_kept kept step
  | retUnlink seqnum status => exact retUnlink_kept kept step
  | finish amount =>
    cases step
    refine ⟨{ kept.placed with }, { kept.told with }, fun live => ?_⟩
    obtain ⟨frames, wired⟩ := kept.wired live
    exact ⟨frames, wired.finish amount⟩

instance (state : State) : ∀ action, Decidable (state.Calm action)
  | .submit request _ => inferInstanceAs (Decidable (state.phase request = .holding →
      state.rx.live = true ∧ state.nextSeqnum < 2 ^ 32))
  | .unlink _ _ => inferInstanceAs (Decidable (state.nextSeqnum < 2 ^ 32))
  | .pipeAlloc _ | .pipeFree _ | .cancel _ _ | .receive | .retSubmit _ _ _ | .retUnlink _ _
  | .finish _ => .isTrue trivial

def reads : ℕ → Request := fun _ => ⟨0, true, 8, false⟩

def session : List Action :=
  .pipeAlloc 0 :: List.replicate 3 (.submit 0 true) ++ List.replicate 3 (.submit 1 true) ++
    [.retSubmit 1 .ok 2, .cancel 0 1, .unlink 0 true, .unlink 0 true, .retUnlink 3 .ECONNRESET] ++
    List.replicate 6 .receive ++ [.finish 0] ++ List.replicate 5 .receive

def crosses : List Action :=
  [.pipeAlloc 0, .submit 0 true, .finish 0] ++ List.replicate 3 .receive ++
    [.submit 0 true, .submit 0 true] ++ List.replicate 2 .receive

end State

end EspDevkit.Usb.Sim
