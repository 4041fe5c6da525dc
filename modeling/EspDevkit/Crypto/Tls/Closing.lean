import EspDevkit.Crypto.Tls.Handlers

/-!
# After close

Which messages a closed connection still answers, and that it sends nothing as long as none of
them comes and no record is refused.
-/

namespace EspDevkit.Crypto.Tls

open List

open X509 (Bytes)
open Fallible

variable {prim : Primitives} {s s' : Session prim} {c c' : Inner prim}

/-- Whether a message of the server's is one that the handshake answers: a Finished, or a
ServerHello that asks for a retry. -/
def answered (msg : Bytes) : Bool :=
  msg[0]? = some HandshakeType.finished ∨
    (msg[0]? = some HandshakeType.serverHello ∧ (msg.drop 6).take 32 = hrrRandom)

/-- Whether the next record is refused with an alert, or has a message that is answered. -/
def Inner.answers (c : Inner prim) : Bool :=
  (match (nextRecord c).1 with
    | .error (.error f) => !f.quiet
    | _ => false) ||
  ((nextRecord c).2.session.taken.drop c.session.taken.length).any answered

/-- Whether `processLoop` comes to such a record. -/
def Inner.answersOne : ℕ → Inner prim → Bool
  | 0, _ => false
  | fuel + 1, c =>
    if c.waiting ∨ c.session.peerClosed then false
    else
      c.answers ||
        match nextRecord c with
        | (.ok true, c) => c.answersOne fuel
        | _ => false

/-- Whether `process` comes to such a record. -/
def Inner.answersAny (c : Inner prim) : Bool :=
  match c.session.failed with
  | some _ => false
  | none => c.answersOne (c.rx.length + 1)

def Inner.arrive (c : Inner prim) (bytes : Bytes) : Inner prim :=
  { c with rx := c.rx ++ bytes.take (rxCap - c.rx.length) }

def Call.provokes (c : Inner prim) : Call → Bool
  | .commitRx bytes => (c.arrive bytes).answersAny
  | .receive data => (c.arrive data).answersAny
  | .read _ => !c.waiting && c.answersAny
  | .write _ | .close | .consumeTx _ => false

def Inner.undisturbed : Inner prim → List Call → Bool
  | _, [] => true
  | c, call :: calls => !call.provokes c && Inner.undisturbed (call.move c).2 calls

/-- Messages are taken, and where none of them is answered, a closed connection sends nothing. -/
structure Calm (s s' : Session prim) : Prop where
  taken : s.taken <+: s'.taken
  closing : s'.closing = s.closing
  sends : s.closing = true → (∀ msg ∈ s'.taken.drop s.taken.length, answered msg = false) →
    s'.tx = s.tx ∧ s'.earlyWrites = s.earlyWrites

instance : IsPreorder (Session prim) Calm where
  refl _ := ⟨prefix_refl _, rfl, fun _ _ => ⟨rfl, rfl⟩⟩
  trans s₁ s₂ s₃ first second := by
    obtain ⟨more, taken⟩ := first.taken
    obtain ⟨more', taken'⟩ := second.taken
    refine ⟨first.taken.trans second.taken, second.closing.trans first.closing, ?_⟩
    intro closed silent
    rw [← taken', ← taken, append_assoc, drop_left] at silent
    have sends := first.sends closed (by
      rw [← taken, drop_left]
      exact fun msg member => silent msg (mem_append_left _ member))
    have sends' := second.sends (first.closing.trans closed) (by
      rw [← taken', drop_left]
      exact fun msg member => silent msg (mem_append_right _ member))
    exact ⟨sends'.1.trans sends.1, sends'.2.trans sends.2⟩

theorem Mute.calm (mute : Mute s s') : Calm s s' :=
  ⟨mute.taken ▸ prefix_refl _, mute.closing,
    fun closed _ => ⟨mute.tx closed, mute.earlyWrites closed⟩⟩

theorem Calm.of_eq (taken : s'.taken = s.taken) (closing : s'.closing = s.closing)
    (tx : s'.tx = s.tx) (earlyWrites : s'.earlyWrites = s.earlyWrites) : Calm s s' :=
  (Mute.of_eq taken closing tx earlyWrites).calm

def Handled (msg : Bytes) (s s' : Session prim) : Prop :=
  SameTaken s s' ∧ (answered msg = false → Mute s s')

theorem Mute.handled {msg : Bytes} (mute : Mute s s') : Handled msg s s' :=
  ⟨Prod.ext mute.taken mute.closing, fun _ => mute⟩

instance {msg : Bytes} : IsPreorder (Session prim) (Handled msg) where
  refl _ := ⟨rfl, fun _ => refl_of Mute _⟩
  trans _ _ _ first second :=
    ⟨trans_of SameTaken first.1 second.1,
      fun silent => trans_of Mute (first.2 silent) (second.2 silent)⟩

theorem retry_of_readServerHello {offered : List CipherSuite} {sessionId msg : Bytes}
    {agreed : Option CipherSuite} {hello : Hello}
    (said : readServerHello offered sessionId agreed msg = .ok hello) :
    hello.retry = decide ((msg.drop 6).take 32 = hrrRandom) := by
  unfold readServerHello at said
  obtain ⟨⟨version, r⟩, front, said⟩ := ok_of_bind said
  obtain ⟨_, -, said⟩ := ok_of_bind said
  obtain ⟨⟨random, r'⟩, bytes, said⟩ := ok_of_bind said
  obtain ⟨⟨session, _⟩, -, said⟩ := ok_of_bind said
  obtain ⟨⟨suiteId, _⟩, -, said⟩ := ok_of_bind said
  obtain ⟨⟨compression, _⟩, -, said⟩ := ok_of_bind said
  obtain ⟨⟨exts, _⟩, -, said⟩ := ok_of_bind said
  obtain ⟨_, -, said⟩ := ok_of_bind said
  obtain ⟨_, -, said⟩ := ok_of_bind said
  obtain ⟨suite, -, said⟩ := ok_of_bind said
  obtain ⟨_, -, said⟩ := ok_of_bind said
  obtain ⟨read, -, said⟩ := ok_of_bind said
  obtain ⟨_, -, said⟩ := ok_of_bind said
  cases said
  have behind : r = msg.drop 6 := by
    obtain ⟨⟨_, rest⟩, taken, same⟩ := Option.map_eq_some_iff.mp (some_of_orFatal front)
    cases same
    unfold takeBytes at taken
    split at taken
    · cases taken
      rw [drop_drop]
    · cases taken
  have part := some_of_orFatal bytes
  unfold takeBytes at part
  split at part
  · cases part
    rw [behind]
  · cases part

theorem serverHello_handled {msg : Bytes} (type : msg[0]? = some HandshakeType.serverHello) :
    Within (Handled msg) (serverHello msg) s := by
  apply Within.get
  apply Within.lift
  intro hello said
  refine Within.modify ⟨rfl, fun _ => .of_eq rfl rfl rfl rfl⟩ ?_
  split
  · next retry =>
      refine ⟨helloRetry_takes _, fun silent => absurd silent ?_⟩
      rw [retry_of_readServerHello said, decide_eq_true_iff] at retry
      simp [answered, type, retry]
  · exact agree_mute.handled

theorem message_calm {msg : Bytes} : Within Calm (message msg) s := by
  suffices handled : Handled msg (s.took msg) (message msg s).2 by
    obtain ⟨same, mute⟩ := handled
    obtain ⟨taken, closing⟩ := Prod.mk.inj same
    refine ⟨taken ▸ prefix_append _ _, closing, fun closed silent => ?_⟩
    rw [taken, Session.took, drop_left] at silent
    have mute := mute (silent msg (mem_singleton_self msg))
    exact ⟨mute.tx closed, mute.earlyWrites closed⟩
  unfold message
  rw [bind_ok (rfl : modify _ s = (.ok (), s.took msg))]
  apply within_iff.mp
  apply Within.get
  apply Within.unwrap
  intro ty type
  apply Within.unwrap
  intro body _
  split
  · next here =>
      rw [here.2] at type
      exact serverHello_handled type
  split
  · exact (advance_mute encryptedExtensions_mute).handled
  split
  · exact (advance_mute certificateRequest_mute).handled
  split
  · exact (advance_mute certificate_mute).handled
  split
  · exact (advance_mute certificateVerify_mute).handled
  split
  · next here =>
      rw [here.2] at type
      have loud : answered msg = true := by simp [answered, type]
      have finishes : Within (Handled msg) (finished msg) (s.took msg) :=
        ⟨finished_takes _, fun silent => absurd (loud.symm.trans silent) (by rintro ⟨⟩)⟩
      apply finishes.bind
      intro _ _ _
      exact within_pure
  split
  · exact within_pure
  split
  · have handles : Within (Handled msg) (keyUpdate body) (s.took msg) := keyUpdate_mute.handled
    apply handles.bind
    intro _ _ _
    exact within_pure
  · exact within_stop

theorem messages_calm {fuel : ℕ} : Within Calm (messages fuel) s := by
  induction fuel generalizing s with
  | zero => exact within_fault
  | succ fuel ih =>
    apply Within.get
    split
    · exact within_pure
    · apply Within.unwrap
      intro len _
      apply Within.require
      intro _
      split
      · exact within_pure
      · apply Within.unwrap
        intro msg _
        apply Within.modify (.of_eq rfl rfl rfl rfl)
        apply message_calm.bind
        intro change s' _
        apply Within.get
        apply Within.require
        intro _
        exact ih

theorem handshakeData_calm {data : Bytes} : Within Calm (handshakeData data) s := by
  apply Within.modify (.of_eq rfl rfl rfl rfl)
  apply Within.get
  exact messages_calm

theorem alertRecord_calm {body : Bytes} : Within Calm (alertRecord body) s := by
  apply Within.unwrap
  intro code _
  split
  · exact within_modify (.of_eq rfl rfl rfl rfl)
  · exact within_stop

theorem unprotect_calm {ty : UInt8} {head body : Bytes} :
    Within Calm (unprotect ty head body) s := by
  apply Within.get
  split
  · apply Within.require
    intro _
    exact within_pure
  · apply Within.require
    intro _
    apply Within.lift
    rintro ⟨nonce, cipher⟩ _
    apply Within.modify (.of_eq rfl rfl rfl rfl)
    apply Within.lift
    intro plain _
    apply Within.lift
    intro last _
    apply Within.require
    intro _
    apply Within.unwrap
    intro content _
    exact within_pure

def Inner.Calm (c c' : Inner prim) : Prop := Tls.Calm c.session c'.session

instance : IsPreorder (Inner prim) Inner.Calm where
  refl c := refl_of Tls.Calm c.session
  trans _ _ _ first second := trans_of Tls.Calm first second

theorem inSession_calm {α : Type} {x : Step prim α} (calm : Within Calm x c.session) :
    Within Inner.Calm (inSession x) c := calm

theorem dropRecord_calm {stop : ℕ} : Within Inner.Calm (dropRecord stop) c := by
  apply Within.get
  apply Within.unwrap
  intro rest _
  exact within_modify (refl_of Tls.Calm c.session)

theorem takeRecord_calm {content : UInt8} {plainEnd stop : ℕ} :
    Within Inner.Calm (takeRecord content plainEnd stop) c := by
  apply Within.get
  apply Within.require
  intro _
  split
  · apply Within.require
    intro _
    apply Within.unwrap
    intro data _
    apply dropRecord_calm.bind
    intro _ c' _
    exact inSession_calm handshakeData_calm
  split
  · apply Within.unwrap
    intro body _
    apply Within.require
    intro _
    apply dropRecord_calm.bind
    intro _ c' _
    exact inSession_calm alertRecord_calm
  split
  · apply Within.require
    intro _
    split
    · exact dropRecord_calm
    · exact within_modify (refl_of Tls.Calm c.session)
  · exact within_stop

theorem nextRecord_calm : Within Inner.Calm nextRecord c := by
  apply Within.get
  split
  · exact within_pure
  · apply Within.unwrap
    intro head _
    apply Within.unwrap
    intro ty _
    apply Within.unwrap
    intro field _
    apply Within.require
    intro _
    split
    · exact within_pure
    · apply Within.unwrap
      intro body _
      split
      · apply Within.require
        intro _
        apply dropRecord_calm.bind
        intro _ c' _
        exact within_pure
      · apply (inSession_calm unprotect_calm).bind
        rintro ⟨content, plain, last⟩ c' _
        apply Within.modify (refl_of Tls.Calm c'.session)
        apply takeRecord_calm.bind
        intro _ c'' _
        exact within_pure

structure Inner.Silent (c c' : Inner prim) : Prop where
  closing : c'.session.closing = true
  tx : c'.session.tx = c.session.tx
  earlyWrites : c'.session.earlyWrites = c.session.earlyWrites

theorem Inner.Silent.trans {c'' : Inner prim} (first : c.Silent c') (second : c'.Silent c'') :
    c.Silent c'' :=
  ⟨second.closing, second.tx.trans first.tx, second.earlyWrites.trans first.earlyWrites⟩

theorem nextRecord_silent (closed : c.session.closing = true) (unanswered : c.answers = false) :
    c.Silent (nextRecord c).2 := by
  have calm : Calm c.session (nextRecord c).2.session := nextRecord_calm
  unfold Inner.answers at unanswered
  rw [Bool.or_eq_false_iff, any_eq_false] at unanswered
  obtain ⟨tx, earlyWrites⟩ := calm.sends closed fun msg member =>
    Bool.eq_false_of_not_eq_true (unanswered.2 msg member)
  exact ⟨calm.closing.trans closed, tx, earlyWrites⟩

theorem fail_silent {f : Fatal} (quiet : f.quiet = true) (silent : c.Silent c') :
    c.Silent (c'.fail f) := by
  unfold Inner.fail Session.fail
  split
  · refine ⟨?_, ?_, ?_⟩ <;>
      simp only [Session.sendAlert, quiet, if_true]
    · exact silent.closing
    · exact silent.tx
    · exact silent.earlyWrites
  · exact silent

theorem processLoop_silent {fuel : ℕ} (closed : c.session.closing = true)
    (unanswered : c.answersOne fuel = false) : c.Silent (processLoop fuel c).2 := by
  induction fuel generalizing c with
  | zero => exact ⟨closed, rfl, rfl⟩
  | succ fuel ih =>
    rw [Inner.answersOne] at unanswered
    by_cases done : c.waiting ∨ c.session.peerClosed
    · simp only [processLoop, done, if_true]
      exact ⟨closed, rfl, rfl⟩
    · rw [if_neg done, Bool.or_eq_false_iff] at unanswered
      simp only [processLoop, done, if_false]
      have step := nextRecord_silent closed unanswered.1
      have refused := unanswered.1
      unfold Inner.answers at refused
      rcases next : nextRecord c with ⟨(f | _) | more, c'⟩
      · rw [next] at step refused
        have quiet : f.quiet = true := by simpa using (Bool.or_eq_false_iff.mp refused).1
        exact fail_silent quiet step
      · rw [next] at step
        exact step
      · rw [next] at step unanswered
        cases more with
        | true => exact step.trans (ih step.closing unanswered.2)
        | false => exact step

theorem process_silent (closed : c.session.closing = true) (unanswered : c.answersAny = false) :
    c.Silent (process c).2 := by
  have step : process c = (match c.session.failed with
      | some e => stop e
      | none => processLoop (c.rx.length + 1) : Move prim Error Unit) c := rfl
  unfold Inner.answersAny at unanswered
  rw [step]
  cases failed : c.session.failed with
  | some e => exact ⟨closed, rfl, rfl⟩
  | none =>
    rw [failed] at unanswered
    exact processLoop_silent closed unanswered

def Inner.Hushed (c c' : Inner prim) : Prop := c.session.closing = true → c.Silent c'

instance : IsPreorder (Inner prim) Inner.Hushed where
  refl _ closed := ⟨closed, rfl, rfl⟩
  trans _ _ _ first second closed :=
    (first closed).trans (second (first closed).closing)

theorem Inner.hushed_of_session (same : c'.session = c.session) : c.Hushed c' := fun closed =>
  ⟨(congrArg Session.closing same).trans closed, congrArg Session.tx same,
    congrArg Session.earlyWrites same⟩

theorem copyOut_hushed {room : ℕ} : Within Inner.Hushed (copyOut room) c := by
  apply Within.get
  dsimp only
  apply Within.unwrap
  intro data _
  split
  · apply Within.unwrap
    intro rest _
    apply Within.modify (Inner.hushed_of_session rfl)
    exact within_pure
  · apply Within.modify (Inner.hushed_of_session rfl)
    exact within_pure

theorem read_hushed {room : ℕ} (unanswered : (!c.waiting && c.answersAny) = false) :
    Within Inner.Hushed (read room) c := by
  have first : Within Inner.Hushed processUnlessWaiting c := by
    apply Within.get
    split
    · exact within_pure
    · next idle =>
        intro closed
        exact process_silent closed (by simpa [idle] using unanswered)
  apply first.bind
  intro _ c' _
  apply Within.get
  split
  · exact within_stop
  · exact copyOut_hushed

theorem arrive_hushed {bytes : Bytes} (unanswered : (c.arrive bytes).answersAny = false) :
    Within Inner.Hushed (commitRx bytes) c := by
  refine Within.modify (Inner.hushed_of_session rfl) ?_
  intro closed
  exact process_silent closed unanswered

theorem receive_hushed {data : Bytes} (unanswered : (c.arrive data).answersAny = false) :
    Within Inner.Hushed (receive data) c := by
  apply Within.get
  apply (arrive_hushed unanswered).bind
  intro _ _ _
  exact within_pure

theorem write_hushed {data : Bytes} : Within Inner.Hushed (write data) c := by
  apply Within.get
  split
  · exact within_stop
  · split
    · exact within_stop
    · next working =>
        intro closed
        exact absurd closed working

theorem close_hushed : Within Inner.Hushed close c := by
  apply Within.get
  split
  · next working =>
      intro closed
      exact absurd (working.1.symm.trans closed) nofun
  · exact within_pure

theorem hushed_quiet {x : Move prim Error Unit} (hushed : Within Inner.Hushed x c) :
    Within Inner.Hushed (do x; return ([] : Bytes)) c := by
  apply hushed.bind
  intro _ _ _
  exact within_pure

theorem call_silent {call : Call} (closed : c.session.closing = true)
    (calm : call.provokes c = false) :
    (call.move c).2.session.closing = true ∧
      (call.move c).2.session.tx <:+ c.session.tx ∧
      (call.move c).2.session.earlyWrites = c.session.earlyWrites := by
  have of_hushed (hushed : Within Inner.Hushed call.move c) :
      (call.move c).2.session.closing = true ∧ (call.move c).2.session.tx <:+ c.session.tx ∧
        (call.move c).2.session.earlyWrites = c.session.earlyWrites := by
    have silent := hushed closed
    exact ⟨silent.closing, silent.tx ▸ suffix_refl _, silent.earlyWrites⟩
  cases call with
  | commitRx bytes => exact of_hushed (hushed_quiet (arrive_hushed calm))
  | receive data =>
    apply of_hushed
    apply (receive_hushed calm).bind
    intro _ _ _
    exact within_pure
  | read room => exact of_hushed (read_hushed calm)
  | write data => exact of_hushed (hushed_quiet write_hushed)
  | close => exact of_hushed (hushed_quiet close_hushed)
  | consumeTx n => exact ⟨closed, drop_suffix n _, rfl⟩

theorem run_silent {calls : List Call} (closed : c.session.closing = true)
    (calm : c.undisturbed calls = true) :
    (c.run calls).session.tx <:+ c.session.tx ∧
      (c.run calls).session.earlyWrites = c.session.earlyWrites := by
  induction calls generalizing c with
  | nil => exact ⟨suffix_refl _, rfl⟩
  | cons call calls ih =>
    rw [Inner.undisturbed, Bool.and_eq_true, Bool.not_eq_true'] at calm
    obtain ⟨closed', tx, earlyWrites⟩ := call_silent closed calm.1
    obtain ⟨tx', earlyWrites'⟩ := ih closed' calm.2
    exact ⟨tx'.trans tx, earlyWrites'.trans earlyWrites⟩

theorem close_closing (works : c.session.failed = none) :
    (c.run [.close]).session.closing = true := by
  have alone : c.run [.close] = (close c).2 := by
    change ((do close; return ([] : Bytes) : Move prim Error Bytes) c).2 = _
    rcases done : close c with ⟨e | _, c'⟩
    · rw [bind_error done]
    · rw [bind_ok done]
      rfl
  rw [alone]
  by_cases closing : c.session.closing = false
  · have moves : (close c).2.session = (writeRecord ContentType.alert [1, Alert.closeNotify]
        { c.session with closing := true }).2 := by
      change ((if c.session.closing = false ∧ c.session.failed = none then _ else _ :
        Move prim Error Unit) c).2.session = _
      rw [if_pos ⟨closing, works⟩]
      rfl
    rw [moves]
    exact (Prod.mk.inj (writeChunks_takes _)).2
  · have closed := Bool.eq_true_of_not_eq_false closing
    exact ((close_hushed : Within Inner.Hushed close c) closed).closing

/-- Once a connection that works is closed, and as long as no message comes that the handshake
answers and no record is refused with an alert, nothing follows what the close put there, and what
was written before the handshake was over stays unsent. -/
theorem nothing_follows_close {c : Inner prim} (works : c.session.failed = none)
    {after : List Call} (calm : (c.run [.close]).undisturbed after = true) :
    ((c.run [.close]).run after).session.tx <:+ (c.run [.close]).session.tx ∧
      ((c.run [.close]).run after).session.earlyWrites = (c.run [.close]).session.earlyWrites :=
  run_silent (close_closing works) calm

/-- A connection that was made and is closed, with data that still waits, and an alert of the
server's after it. -/
theorem nothing_follows_close_greeting : ∃ start : Inner transparent,
    client anyServer none (List.replicate 32 5) (List.replicate 32 6) = .ok start ∧
      let closed := (start.run [.receive greeting]).run [.close]
      let after : List Call := [.write [1], .read 2, .consumeTx 3]
      (closed.run after).session.tx <:+ closed.session.tx ∧
        (closed.run after).session.earlyWrites = closed.session.earlyWrites :=
  ⟨_, rfl, nothing_follows_close (by decide +kernel) (by decide +kernel)⟩

/-- Data written before the handshake was over is sent after the close, behind the rest of the
handshake; and a record that is refused gets an alert after the close. -/
theorem close_overtaken : ∃ start made : Inner transparent,
    client anyServer none (List.replicate 32 5) (List.replicate 32 6) = .ok start ∧
      (start.run [.write [0x41], .close]).session.closing = true ∧
      ¬((start.run [.write [0x41], .close, .receive greeting]).session.tx <:+
        (start.run [.write [0x41], .close]).session.tx) ∧
      (start.run [.write [0x41], .close]).session.earlyWrites = [0x41] ∧
      (start.run [.write [0x41], .close, .receive greeting]).session.earlyWrites = [] ∧
      made = start.run [.receive greeting, .read 2] ∧ made.session.state = .connected ∧
      (made.run [.close]).session.closing = true ∧
      ¬((made.run [.close, .receive [23, 3, 3, 0xff, 0xff]]).session.tx <:+
        (made.run [.close]).session.tx) :=
  ⟨_, _, rfl, by decide +kernel, by decide +kernel, by decide +kernel, by decide +kernel, rfl,
    by decide +kernel, by decide +kernel, by decide +kernel⟩

end EspDevkit.Crypto.Tls
