import EspDevkit.Crypto.Tls.RecordSplits

/-!
# Reading

Where processing stops, what a read then gives, and that the buffer has room for the
peer's bytes whenever nothing waits to be read.
-/

namespace EspDevkit.Crypto.Tls

open List

open X509 (Bytes)
open Fallible

variable {prim : Primitives} {c c' : Inner prim}

theorem Inner.Idle.not_waiting (idle : c.Idle) : ¬c.waiting := by
  unfold Inner.Idle at idle
  simp [Inner.waiting, idle]

theorem process_failed {e : Error} (failed : c.session.failed = some e) :
    process c = (.error (.error e), c) := by
  rw [process, bind_ok (rfl : Fallible.get c = (.ok c, c)), failed]
  rfl

theorem process_runs (runs : c.session.failed = none) :
    process c = processLoop (c.rx.length + 1) c := by
  rw [process, bind_ok (rfl : Fallible.get c = (.ok c, c)), runs]

/-- What stops the loop of `process`. -/
def Rests : Except (Stop Error) Unit × Inner prim → Prop
  | (.ok _, c) => c.waiting ∨ c.session.peerClosed ∨ nextRecord c = (.ok false, c)
  | (.error (.error _), c) => ¬c.waiting ∧ c.session.failed ≠ none
  | (.error .fault, _) => True

theorem processLoop_rests {fuel : ℕ} (sound : c.Sound) (runs : c.session.failed = none) :
    Rests (processLoop fuel c) := by
  induction fuel generalizing c with
  | zero => trivial
  | succ fuel ih =>
    unfold processLoop
    by_cases done : c.waiting ∨ c.session.peerClosed
    · simp only [done, if_true]
      exact done.imp_right .inl
    · simp only [done, if_false]
      rw [not_or] at done
      have step := (nextRecord_ensures (sound.progress runs) (Inner.not_waiting sound done.1)).apply
      rcases result : nextRecord c with ⟨r, c'⟩
      rw [result] at step
      rcases step with ⟨more, rfl, left⟩ | ⟨f, rfl, -, -, idle⟩
      · cases more with
        | false =>
          obtain rfl : c' = c := left
          exact .inr (.inr result)
        | true =>
          have took : Took c c' := left
          exact ih took.sound (took.failed.trans runs)
      · exact ⟨Inner.Idle.not_waiting (c := c') idle, (Session.fail_spec f).2.1⟩

theorem process_rests (sound : c.Sound) (idle : ¬c.waiting) : Rests (process c) := by
  cases failed : c.session.failed with
  | none =>
    rw [process_runs failed]
    exact processLoop_rests sound failed
  | some e =>
    rw [process_failed failed]
    exact ⟨idle, by rw [failed]; nofun⟩

theorem receive_snd : (receive data c).2 = (commitRx data c).2 := by
  have eq : receive data c = (commitRx data >>= fun _ =>
      pure (min (rxCap - c.rx.length) data.length) : Move prim Error ℕ) c := rfl
  rw [eq]
  rcases result : commitRx data c with ⟨e | _, c'⟩
  · rw [bind_error result]
  · rw [bind_ok result]
    rfl

def Inner.content (c : Inner prim) : Bytes := (c.rx.take c.app.2.1).drop c.app.1

def Inner.dropped (c : Inner prim) : Inner prim :=
  { c with rx := c.rx.drop c.app.2.2, app := (0, 0, 0) }

variable {room : ℕ} {α : Type}

theorem copyOut_pending (pending : c.Pending) :
    copyOut room c =
      (.ok (c.content.take (min room c.content.length)),
        if c.app.1 + min room c.content.length = c.app.2.1 then c.dropped
        else { c with app := (c.app.1 + min room c.content.length, c.app.2.1, c.app.2.2) }) := by
  obtain ⟨session, rx, start, plainEnd, stop⟩ := c
  have some : start < plainEnd := pending.some
  have content : plainEnd ≤ stop := pending.content
  have record : stop ≤ rx.length := pending.record
  show ((unwrap (slice start plainEnd rx) >>= _ : Move prim Error Bytes)) _ = _
  rw [slice_some some.le (content.trans record)]
  show (if start + min room ((rx.take plainEnd).drop start).length = plainEnd then
      (unwrap (slice stop rx.length rx) >>= _ : Move prim Error Bytes) else _) _ = _
  rw [slice_tail record]
  unfold Inner.content
  split
  · rfl
  · rfl

theorem copyOut_idle (idle : c.Idle) : copyOut room c = (.ok [], c) := by
  obtain ⟨session, rx, app⟩ := c
  cases idle
  have none : slice 0 0 rx = some [] := slice_some (le_refl 0) (Nat.zero_le _)
  have all : slice 0 rx.length rx = some rx := slice_tail (Nat.zero_le _)
  have eq : copyOut room { session, rx, app := (0, 0, 0) } =
      (unwrap (slice 0 0 rx) >>= fun data =>
        if 0 + min room data.length = 0 then
          unwrap (slice 0 rx.length rx) >>= fun rest =>
            modify (fun c => { c with rx := rest, app := (0, 0, 0) }) >>= fun _ =>
              pure (data.take (min room data.length))
        else
          modify (fun c => { c with app := (0 + min room data.length, 0, 0) }) >>= fun _ =>
            pure (data.take (min room data.length)) : Move prim Error Bytes)
        { session, rx, app := (0, 0, 0) } := rfl
  have zero : min room ([] : Bytes).length = 0 := Nat.min_zero room
  rw [eq, none, all]
  show (if 0 + min room ([] : Bytes).length = 0 then _ else _ : Move prim Error Bytes) _ = _
  rw [zero]
  rfl

theorem content_rest {n : ℕ} :
    c.content.take n ++ Inner.content { c with app := (c.app.1 + n, c.app.2.1, c.app.2.2) } =
      c.content := by
  show c.content.take n ++ (c.rx.take c.app.2.1).drop (c.app.1 + n) = c.content
  rw [← drop_drop]
  exact take_append_drop n c.content

def Inner.ready (c : Inner prim) : Inner prim := (processUnlessWaiting c).2

theorem ready_sound (sound : c.Sound) : c.ready.Sound := by
  unfold Inner.ready
  rcases (processUnlessWaiting_ensures sound).apply with ⟨_, -, keeps⟩ | ⟨_, -, keeps⟩
  · exact keeps.1
  · exact keeps.1

theorem ready_waiting (waits : c.waiting) : processUnlessWaiting c = (.ok (), c) := by
  show (if c.waiting then pure () else process : Move prim Error Unit) c = _
  rw [if_pos waits]
  rfl

theorem ready_idle (idle : ¬c.waiting) : processUnlessWaiting c = process c := by
  show (if c.waiting then pure () else process : Move prim Error Unit) c = _
  rw [if_neg idle]

theorem ready_rests (sound : c.Sound) : Rests (processUnlessWaiting c) := by
  by_cases waits : c.waiting
  · rw [ready_waiting waits]
    exact .inl waits
  · rw [ready_idle waits]
    exact process_rests sound waits

/-- A read gives the data that is ready, or stops where it is. -/
theorem read_cases (room : ℕ) (sound : c.Sound) :
    (¬c.ready.waiting ∧ c.ready.session.failed ≠ none ∧ ∃ e, read room c = (.error e, c.ready)) ∨
      (c.ready.waiting ∨ c.ready.session.peerClosed ∨ nextRecord c.ready = (.ok false, c.ready)) ∧
        read room c = copyOut room c.ready := by
  have rests := ready_rests sound
  have keeps := processUnlessWaiting_ensures sound
  unfold Inner.ready
  unfold Ensures at keeps
  rcases result : processUnlessWaiting c with ⟨r, c'⟩
  rw [result] at rests keeps
  rcases r with ⟨e | _⟩ | _
  · exact .inl ⟨rests.1, rests.2, .error e, bind_error result⟩
  · exact keeps.elim
  · rw [read, bind_ok result, bind_ok (rfl : Fallible.get c' = (.ok c', c'))]
    dsimp only
    cases failed : c'.session.failed with
    | none => exact .inr ⟨rests, rfl⟩
    | some e =>
      cases waits : c'.waiting with
      | false => exact .inl ⟨by simp, by simp, .error e, rfl⟩
      | true => exact .inr ⟨.inl rfl, rfl⟩

/-- The length of `rx_space`. -/
def Inner.rxSpace (c : Inner prim) : ℕ := rxCap - c.rx.length

/-- Unless a failure or the peer ended the connection, the buffer has room or holds data
that waits. -/
def Inner.Roomy (c : Inner prim) : Prop :=
  c.session.failed ≠ none ∨
    c.rx.length ≤ rxCap ∧ (c.waiting ∨ c.session.peerClosed ∨ c.rx.length < rxCap)

theorem processLoop_shrinks (fuel : ℕ) (sound : c.Sound) (runs : c.session.failed = none) :
    (processLoop fuel c).1 = .error .fault ∨ (processLoop fuel c).2.session.failed ≠ none ∨
      (processLoop fuel c).2.rx.length ≤ c.rx.length := by
  induction fuel generalizing c with
  | zero => exact .inl rfl
  | succ fuel ih =>
    unfold processLoop
    by_cases done : c.waiting ∨ c.session.peerClosed
    · simp only [done, if_true]
      exact .inr (.inr (le_refl _))
    · simp only [done, if_false]
      rw [not_or] at done
      have step := (nextRecord_ensures (sound.progress runs) (Inner.not_waiting sound done.1)).apply
      rcases result : nextRecord c with ⟨r, c'⟩
      rw [result] at step
      rcases step with ⟨more, rfl, left⟩ | ⟨f, rfl, -, -, -⟩
      · cases more with
        | false =>
          obtain rfl : c' = c := left
          exact .inr (.inr (le_refl _))
        | true =>
          have took : Took c c' := left
          have shorter : c'.rx.length ≤ c.rx.length := by
            rcases took.less with ⟨-, less⟩ | ⟨-, same⟩
            · exact less.le
            · exact same.le
          rcases ih took.sound (took.failed.trans runs) with fault | failed | short
          · exact .inl fault
          · exact .inr (.inl failed)
          · exact .inr (.inr (short.trans shorter))
      · exact .inr (.inl (Session.fail_spec f).2.1)

theorem process_roomy (sound : c.Sound)
    (fits : c.session.failed ≠ none ∨ c.rx.length ≤ rxCap) : (process c).2.Roomy := by
  cases failed : c.session.failed with
  | some e =>
    rw [process_failed failed]
    exact .inl (by rw [failed]; nofun)
  | none =>
    have fits := fits.resolve_left (not_not_intro failed)
    have keeps := process_ensures sound
    unfold Ensures at keeps
    rw [process_runs failed] at keeps ⊢
    have rests : Rests (processLoop (c.rx.length + 1) c) := processLoop_rests sound failed
    have shrinks := processLoop_shrinks (c.rx.length + 1) sound failed
    rcases result : processLoop (c.rx.length + 1) c with ⟨⟨e | _⟩ | _, c'⟩ <;>
      rw [result] at keeps rests shrinks
    · exact .inl rests.2
    · exact keeps.elim
    · rcases shrinks with fault | fails | short
      · cases fault
      · exact .inl fails
      · refine .inr ⟨short.trans fits, rests.imp_right (Or.imp_right ?_)⟩
        intro waits
        exact nextRecord_room (congrArg Prod.fst waits)

def Inner.Beside {α : Type} (c : Inner prim) (_ : α) (c' : Inner prim) : Prop :=
  c'.session.failed = c.session.failed ∧ c'.session.peerClosed = c.session.peerClosed ∧
    c'.rx = c.rx ∧ c'.app = c.app

theorem Inner.Roomy.beside {a : α} (roomy : c.Roomy) (beside : c.Beside a c') :
    c'.Roomy := by
  obtain ⟨failed, closed, rx, app⟩ := beside
  unfold Inner.Roomy Inner.waiting at *
  rw [failed, closed, rx, app]
  exact roomy

theorem commitRx_roomy {bytes : Bytes} (sound : c.Sound) (roomy : c.Roomy) :
    (commitRx bytes c).2.Roomy := by
  apply process_roomy (sound.arrive (bytes.take (rxCap - c.rx.length)))
  rcases roomy with failed | ⟨fits, -⟩
  · exact .inl failed
  · apply Or.inr
    simp only [length_append, length_take]
    omega

theorem length_content (pending : c.Pending) : c.content.length = c.app.2.1 - c.app.1 := by
  have content := pending.content
  have record := pending.record
  unfold Inner.content
  rw [length_drop, length_take]
  omega

theorem dropped_room (pending : c.Pending) (fits : c.rx.length ≤ rxCap) :
    c.dropped.rx.length < rxCap := by
  have some := pending.some
  have content := pending.content
  have record := pending.record
  show (c.rx.drop c.app.2.2).length < rxCap
  rw [length_drop]
  omega

theorem copyOut_roomy (sound : c.Sound) (roomy : c.Roomy) :
    (copyOut room c).2.Roomy := by
  rcases sound.data with idle | pending
  · rw [copyOut_idle idle]
    exact roomy
  · rw [copyOut_pending pending]
    rcases roomy with failed | ⟨fits, -⟩
    · dsimp only
      split
      · exact .inl failed
      · exact .inl failed
    · dsimp only
      split
      · next => exact .inr ⟨(dropped_room pending fits).le, .inr (.inr (dropped_room pending fits))⟩
      · next part => exact .inr ⟨fits, .inl (by simpa [Inner.waiting] using part)⟩

theorem read_roomy (sound : c.Sound) (roomy : c.Roomy) : (read room c).2.Roomy := by
  have ready : c.ready.Roomy := by
    unfold Inner.ready
    by_cases waits : c.waiting
    · rw [ready_waiting waits]
      exact roomy
    · rw [ready_idle waits]
      exact process_roomy sound (roomy.imp_right And.left)
  rcases read_cases room sound with ⟨-, -, e, stops⟩ | ⟨-, copies⟩
  · rw [stops]
    exact ready
  · rw [copies]
    exact copyOut_roomy (ready_sound sound) ready

theorem beside_wrote {s' : Session prim} {a : α} (wrote : Wrote c.session s') :
    c.Beside a { c with session := s' } := by
  obtain ⟨tx, cipher, rfl⟩ := wrote
  exact ⟨rfl, rfl, rfl, rfl⟩

theorem write_beside {data : Bytes} : Ensures (write data) c.Beside c.Beside c := by
  simp only [write, ensures_bind, ensures_get]
  split
  · exact ⟨rfl, rfl, rfl, rfl⟩
  · split
    · exact ⟨rfl, rfl, rfl, rfl⟩
    split
    · exact ⟨rfl, rfl, rfl, rfl⟩
    · rw [ensures_inSession]
      apply writeAll_wrote.mono
      · intro _ s' wrote
        exact beside_wrote wrote
      · intro _ s' wrote
        exact beside_wrote wrote

theorem close_beside : Ensures close c.Beside c.Beside c := by
  simp only [close, ensures_bind, ensures_get]
  split
  · have written : Ensures (writeRecord ContentType.alert [1, Alert.closeNotify])
        (fun _ s' => Wrote { c.session with closing := true } s')
        (fun _ s' => Wrote { c.session with closing := true } s')
        { c.session with closing := true } := writeRecord_wrote
    have closing : ∀ {s' : Session prim}, Wrote { c.session with closing := true } s' →
        c.Beside () { c with session := s' } := by
      rintro s' ⟨tx, cipher, rfl⟩
      exact ⟨rfl, rfl, rfl, rfl⟩
    rcases written.apply with ⟨_, -, wrote⟩ | ⟨_, -, wrote⟩
    · exact closing wrote
    · exact closing wrote
  · exact ⟨rfl, rfl, rfl, rfl⟩

theorem Inner.Roomy.after_beside {x : Move prim Error α} (roomy : c.Roomy)
    (beside : Ensures x c.Beside c.Beside c) : (x c).2.Roomy := by
  rcases beside.apply with ⟨_, -, beside⟩ | ⟨_, -, beside⟩
  · exact roomy.beside beside
  · exact roomy.beside beside

theorem quiet_snd {x : Move prim Error α} :
    ((x >>= fun _ => pure [] : Move prim Error Bytes) c).2 = (x c).2 := by
  rcases result : x c with ⟨e | _, c'⟩
  · rw [bind_error result]
  · rw [bind_ok result]
    rfl

theorem call_roomy (sound : c.Sound) (roomy : c.Roomy) (call : Call) : (call.move c).2.Roomy := by
  cases call with
  | commitRx bytes =>
    show ((commitRx bytes >>= fun _ => pure [] : Move prim Error Bytes) c).2.Roomy
    rw [quiet_snd]
    exact commitRx_roomy sound roomy
  | receive data =>
    show ((receive data >>= fun _ => pure [] : Move prim Error Bytes) c).2.Roomy
    rw [quiet_snd, receive_snd]
    exact commitRx_roomy sound roomy
  | read room => exact read_roomy sound roomy
  | write data =>
    show ((write data >>= fun _ => pure [] : Move prim Error Bytes) c).2.Roomy
    rw [quiet_snd]
    exact roomy.after_beside write_beside
  | close =>
    show ((close >>= fun _ => pure [] : Move prim Error Bytes) c).2.Roomy
    rw [quiet_snd]
    exact roomy.after_beside close_beside
  | consumeTx n => exact roomy

theorem client_roomy {config : Config prim} {serverName : Option Bytes} {sessionId random : Bytes}
    (begins : client config serverName sessionId random = .ok c) : c.Roomy := by
  unfold client at begins
  split at begins
  · cases begins
  · cases begins
  · obtain ⟨share, -, begins⟩ := ok_of_bind begins
    obtain ⟨pubkey, -, begins⟩ := ok_of_bind begins
    cases begins
    have some : 0 < rxCap := by decide
    exact .inr ⟨Nat.zero_le _, .inr (.inr some)⟩

theorem Inner.Roomy.run (sound : c.Sound) (roomy : c.Roomy) (calls : List Call) :
    (c.run calls).Roomy := by
  induction calls generalizing c with
  | nil => exact roomy
  | cons call calls ih => exact ih (sound.run [call]).1 (call_roomy sound roomy call)

theorem read_makes_room (sound : c.Sound) (waits : c.waiting) (fits : c.rx.length ≤ rxCap)
    (enough : c.content.length ≤ room) :
    (read room c).1 = .ok c.content ∧ 0 < (read room c).2.rxSpace := by
  have pending : c.Pending := by
    rcases sound.data with idle | pending
    · exact absurd waits (Inner.Idle.not_waiting idle)
    · exact pending
  have ready : c.ready = c := congrArg Prod.snd (ready_waiting waits)
  rcases read_cases room sound with ⟨idle, -⟩ | ⟨-, copies⟩
  · rw [ready] at idle
    exact absurd waits idle
  · have ends : c.app.1 + c.content.length = c.app.2.1 := by
      have some := pending.some
      rw [length_content pending]
      omega
    rw [ready, copyOut_pending pending, Nat.min_eq_right enough, take_length, if_pos ends] at copies
    rw [copies]
    exact ⟨rfl, Nat.sub_pos_of_lt (dropped_room pending fits)⟩

end EspDevkit.Crypto.Tls
