import EspDevkit.Crypto.Tls.HandshakeSteps

/-!
# From the server's parameters to its Finished

The messages after the ServerHello: each handler keeps what the messages before it
left, and a message that no handler expects ends the connection.
-/

namespace EspDevkit.Crypto.Tls

open Option

open X509 (Bytes)
open Fallible

variable {prim : Primitives} {c : Setup prim} {s s' : Session prim}

def Told (s s' : Session prim) : Prop :=
  ∃ alpn certificateRequested peerKey peerChain,
    s' = { s with alpn, certificateRequested, peerKey, peerChain }

theorem Told.refl (s : Session prim) : Told s s :=
  ⟨s.alpn, s.certificateRequested, s.peerKey, s.peerChain, rfl⟩

theorem Told.trans {s'' : Session prim} (first : Told s s')
    (second : Told s' s'') : Told s s'' := by
  obtain ⟨_, _, _, _, rfl⟩ := first
  obtain ⟨alpn, requested, key, chain, rfl⟩ := second
  exact ⟨alpn, requested, key, chain, rfl⟩

/-- A handler that tells about the server takes the handshake to its next state. -/
theorem advance_ensures {handle : Step prim Unit} {msg : Bytes} {state : State} {h : Hellos}
    {seen : List Bytes} (agrees : s.Agrees h seen) (going : s.state ≠ .connected)
    (handled : Ensures handle
      (fun _ s' => Told (s.took msg) s' ∧ Seen s.setup h s'.peerKey state (seen ++ [msg]))
      (fun _ s' => Told (s.took msg) s') (s.took msg)) :
    Ensures (advance handle msg state) s.Worked s.Broken (s.took msg) := by
  simp only [advance, ensures_bind, ensures_modify, ensures_pure]
  apply handled.mono
  · rintro _ _ ⟨⟨alpn, requested, key, chain, rfl⟩, inState⟩
    apply record_ensures
    · exact agrees.transcript
    refine ⟨?_, rfl, rfl, rfl⟩
    apply Session.Progress.agrees
    · show Session.Agrees _ h (seen ++ [msg])
      exact {
        valid := agrees.valid
        taken := by simp [Session.took, agrees.taken]
        transcript := by simp [Session.took, Hellos.transcript, Transcript.update]
        suite := agrees.suite
        hash := agrees.hash
        handshakeSecret := agrees.handshakeSecret
        serverSecret := agrees.serverSecret
        clientSecret := agrees.clientSecret }
    · exact inState
  · rintro f _ ⟨alpn, requested, key, chain, rfl⟩
    exact broken rfl going

theorem readExtensions_told {fuel : ℕ} {exts : Bytes} :
    Ensures (readExtensions fuel exts) (fun _ s' => Told s s') (fun _ s' => Told s s') s := by
  induction fuel generalizing s exts with
  | zero => exact Told.refl s
  | succ fuel ih =>
    change Ensures (if exts = [] then _ else _) _ _ s
    split
    · exact Told.refl s
    · simp only [ensures_bind, ensures_get]
      apply ensures_lift
      · rintro ⟨id, data, r⟩ -
        dsimp only
        split
        · exact ih
        · split
          · simp only [ensures_bind, ensures_modify]
            apply ensures_lift
            · rintro ⟨list, _⟩ -
              apply ensures_lift
              · rintro ⟨proto, list⟩ -
                apply ensures_require
                · intro _
                  have told : Told s { s with alpn := some proto } := ⟨_, _, _, _, rfl⟩
                  exact ih.mono (fun _ _ => told.trans) fun _ _ => told.trans
                · intro _
                  exact Told.refl s
              · intro _ _
                exact Told.refl s
            · intro _ _
              exact Told.refl s
          · exact Told.refl s
      · intro _ _
        exact Told.refl s

variable {body : Bytes} {f : Flight}

theorem encryptedExtensions_told :
    Ensures (encryptedExtensions body) (fun _ s' => Told s s') (fun _ s' => Told s s') s := by
  simp only [encryptedExtensions, ensures_bind]
  apply ensures_lift
  · rintro ⟨exts, r⟩ -
    apply ensures_require
    · intro _
      exact readExtensions_told
    · intro _
      exact Told.refl s
  · intro _ _
    exact Told.refl s

theorem certificateRequest_told :
    Ensures (certificateRequest body) (fun _ s' => Told s s') (fun _ s' => Told s s') s := by
  simp only [certificateRequest, ensures_bind, ensures_modify]
  apply ensures_lift
  · intro requested _
    exact ⟨_, _, _, _, rfl⟩
  · intro _ _
    exact Told.refl s

theorem readCertificate_ne {chain : List Bytes}
    (read : readCertificate body = .ok chain) : chain ≠ [] := by
  unfold readCertificate at read
  obtain ⟨⟨context, r⟩, -, read⟩ := ok_of_bind read
  obtain ⟨⟨list, r⟩, -, read⟩ := ok_of_bind read
  obtain ⟨_, -, read⟩ := ok_of_bind read
  obtain ⟨read', -, read⟩ := ok_of_bind read
  obtain ⟨_, some, read⟩ := ok_of_bind read
  cases read
  exact holds_of_check some

theorem certificate_told {msg : Bytes} (type : IsA HandshakeType.certificate msg) :
    Ensures (certificate (msg.drop 4))
      (fun _ s' => Told s s' ∧ ∃ key, s'.peerKey = some key ∧ s.setup.Accepts msg key)
      (fun _ s' => Told s s') s := by
  simp only [certificate, ensures_bind, ensures_get, ensures_modify]
  apply ensures_lift
  · intro chain read
    obtain ⟨der, rest, rfl⟩ := List.exists_cons_of_ne_nil (readCertificate_ne read)
    apply ensures_unwrap rfl
    apply orFail_ensures
    · intro leaf parsed
      apply orFail_ensures
      · intro key has
        apply orFail_ensures
        · intro _ accepted
          have parses := ok_of_mapError parsed
          exact ⟨⟨_, _, _, _, rfl⟩, key, rfl, type, der, rest, leaf, read, parses, has, accepted⟩
        · intro _
          exact Told.refl s
      · intro _
        exact Told.refl s
    · intro _
      exact Told.refl s
  · intro _ _
    exact Told.refl s

theorem certificateVerify_told {msg : Bytes} {key : prim.Key} {t : Transcript}
    (type : IsA HandshakeType.certificateVerify msg) (has : s.peerKey = some key)
    (transcript : s.transcript = some t) :
    Ensures (certificateVerify (msg.drop 4))
      (fun _ s' => s' = s ∧ Signs key (t.current prim) msg) (fun _ s' => Told s s') s := by
  simp only [certificateVerify, ensures_bind, ensures_get]
  apply ensures_lift
  · rintro ⟨scheme, signature⟩ read
    apply ensures_unwrap has
    apply ensures_lift
    · intro alg offered
      apply ensures_unwrap transcript
      apply ensures_require
      · intro verified
        exact ⟨rfl, type, scheme, signature, alg, read, some_of_orFatal offered, verified⟩
      · intro _
        exact Told.refl s
    · intro _ _
      exact Told.refl s
  · intro _ _
    exact Told.refl s

def Sent (s s' : Session prim) : Prop :=
  ∃ t certificateRequested tx writeCipher,
    s' = { s with transcript := some t, certificateRequested, tx, writeCipher }

theorem Sent.trans {s'' : Session prim} (first : Sent s s')
    (second : Sent s' s'') : Sent s s'' := by
  obtain ⟨_, _, _, _, rfl⟩ := first
  obtain ⟨t, requested, tx, cipher, rfl⟩ := second
  exact ⟨t, requested, tx, cipher, rfl⟩

theorem Sent.of_wrote {t : Transcript} (there : s.transcript = some t) (wrote : Wrote s s') :
    Sent s s' := by
  obtain ⟨tx, cipher, rfl⟩ := wrote
  exact ⟨t, s.certificateRequested, tx, cipher, by rw [← there]⟩

theorem sendHandshake_sent {msg : Bytes} (there : s.transcript.isSome) :
    Ensures (sendHandshake msg) (fun _ s' => Sent s s') (fun _ s' => Sent s s') s := by
  obtain ⟨t, transcript⟩ := isSome_iff_exists.mp there
  simp only [sendHandshake, ensures_bind]
  apply record_ensures
  · exact transcript
  have sent : Sent s { s with transcript := some (t.update msg) } := ⟨_, _, _, _, rfl⟩
  apply writeRecord_wrote.mono
  · intro _ s' wrote
    exact sent.trans (Sent.of_wrote rfl wrote)
  · intro _ s' wrote
    exact sent.trans (Sent.of_wrote rfl wrote)

theorem sendChange_wrote :
    Ensures sendChange (fun _ s' => Wrote s s') (fun _ s' => Wrote s s') s := by
  simp only [sendChange, ensures_bind, ensures_get]
  split
  · exact writePlain_wrote
  · exact Wrote.refl s

theorem clientCertificate_sent {context : Bytes} {schemes : List ℕ} (there : s.transcript.isSome) :
    Ensures (clientCertificate context schemes) (fun _ s' => Sent s s') (fun _ s' => Sent s s') s := by
  simp only [clientCertificate, ensures_bind, ensures_get]
  apply (sendHandshake_sent there).mono
  · intro _ s' sent
    split
    · exact sent
    · simp only [ensures_bind, ensures_get]
      apply ensures_lift
      · intro scheme _
        obtain ⟨t, requested, tx, cipher, rfl⟩ := sent
        apply ensures_unwrap rfl
        have so : Sent s { s with
          transcript := some t, certificateRequested := requested, tx, writeCipher := cipher } :=
          ⟨t, requested, tx, cipher, rfl⟩
        apply orFail_ensures
        · intro signature _
          exact (sendHandshake_sent rfl).mono (fun _ _ => so.trans) fun _ _ => so.trans
        · intro _
          exact so
      · intro _ _
        exact sent
  · intro _ s' sent
    exact sent

theorem answerRequest_sent (there : s.transcript.isSome) :
    Ensures answerRequest (fun _ s' => Sent s s') (fun _ s' => Sent s s') s := by
  obtain ⟨t, transcript⟩ := isSome_iff_exists.mp there
  simp only [answerRequest, ensures_bind, ensures_get]
  split
  · exact Sent.of_wrote transcript (Wrote.refl s)
  · have sent : Sent s { s with certificateRequested := none } :=
      ⟨t, none, s.tx, s.writeCipher, by rw [← transcript]⟩
    simp only [ensures_bind, ensures_modify]
    refine (clientCertificate_sent ?_).mono (fun _ _ => sent.trans) fun _ _ => sent.trans
    exact there

structure Session.Finishes (s : Session prim) (h : Hellos) (f : Flight) : Prop where
  state : s.state = .finished
  authenticated : s.setup.Authenticated h f
  taken : s.taken = h.messages ++ f.messages
  suite : s.suite = some h.suite
  hash : s.hash = h.kind
  keys : ∃ secret, AppSecret s.setup h f secret ∧ s.serverSecret = some secret ∧
    s.readCipher = some (cipherOf prim h.suite secret)
  clientSecret : s.clientSecret.isSome
  transcript : s.transcript.isSome

theorem Seen.authenticated {h : Hellos} {key : Option prim.Key} {state : State} {seen : List Bytes}
    (inState : Seen c h key state seen) (finished : state = .finished) (valid : h.Valid c)
    {msg : Bytes} (type : IsA HandshakeType.finished msg)
    (mac : msg.drop 4 =
      finishedMac prim h.kind (h.serverTraffic prim c.first) (h.hash prim c.first seen)) :
    ∃ f : Flight, c.Authenticated h f ∧ f.messages = seen ++ [msg] := by
  cases inState with
  | nothing => cases finished
  | extensions => cases finished
  | request => cases finished
  | certificate => cases finished
  | @verify key ee cert cv cr extensions asks accepts signs =>
    let f : Flight := { extensions := ee, request := cr, certificate := cert, verify := cv, finished := msg }
    have authenticated : c.Authenticated h f := {
      hellos := valid
      extensions
      request := asks
      certificate := ⟨key, accepts, signs⟩
      type
      mac }
    exact ⟨f, authenticated, rfl⟩

theorem slice_tail {start : ℕ} {bytes : Bytes} (long : start ≤ bytes.length) :
    slice start bytes.length bytes = some (bytes.drop start) := by
  simp [slice, long]

theorem new_eq {suite : CipherSuite} {secret : Bytes} {cipher : RecordCipher}
    (made : RecordCipher.new prim suite secret = .ok cipher) : cipher = cipherOf prim suite secret := by
  unfold RecordCipher.new at made
  dsimp only at made
  split at made
  · exact (Except.ok.inj made).symm
  · cases made

theorem takeFinished_ensures {msg : Bytes} {h : Hellos} {seen : List Bytes}
    (agrees : s.Agrees h seen) (inState : Seen s.setup h s.peerKey s.state seen)
    (state : s.state = .finished) (type : IsA HandshakeType.finished msg) (long : 4 ≤ msg.length) :
    Ensures (takeFinished msg) (fun _ s' => (∃ f, s'.Finishes h f) ∧ Beside s s') s.Broken
      (s.took msg) := by
  have going : s.state ≠ .connected := by rw [state]; nofun
  simp only [takeFinished, ensures_bind, ensures_get, ensures_modify]
  apply ensures_unwrap
  · exact agrees.transcript
  apply ensures_unwrap
  · exact agrees.serverSecret
  apply ensures_unwrap
  · exact slice_tail long
  apply ensures_require
  · intro mac
    apply record_ensures
    · exact agrees.transcript
    apply ensures_unwrap
    · exact agrees.handshakeSecret
    apply ensures_unwrap
    · exact agrees.suite
    apply orFail_ensures
    · intro cipher made
      obtain ⟨f, authenticated, messages⟩ :=
        inState.authenticated state agrees.valid type (by
          rw [← mac]
          simp [Session.took, Session.setup, agrees.hash, Transcript.current, Hellos.hash])
      have cipherEq := new_eq made
      refine ⟨⟨f, ?_⟩, rfl, rfl, rfl⟩
      exact {
        state
        authenticated
        taken := by simp [Session.took, agrees.taken, messages]
        suite := agrees.suite
        hash := agrees.hash
        keys := by
          refine ⟨_, ?_, rfl, congrArg some cipherEq⟩
          convert AppSecret.first
          · simp [Session.took, agrees.hash]
          · simp [Session.took, agrees.hash]
          · simp [messages, Session.took, Session.setup, Transcript.current, Transcript.update,
              Hellos.hash, Hellos.transcript]
        clientSecret := agrees.clientSecret
        transcript := rfl }
    · intro _
      exact broken rfl going
  · intro _
    exact broken rfl going

theorem Session.Finishes.sent {h : Hellos} (finishes : s.Finishes h f)
    (sent : Sent s s') : s'.Finishes h f ∧ Beside s s' := by
  obtain ⟨t, requested, tx, cipher, rfl⟩ := sent
  exact ⟨{ finishes with transcript := rfl }, rfl, rfl, rfl⟩

theorem Session.Finishes.broken {h : Hellos} (finishes : s.Finishes h f) {e : Fatal}
    (setup : s'.setup = s.setup) (state : s'.state = s.state) : s.Broken e s' :=
  Tls.broken setup (by rw [state, finishes.state]; nofun)

theorem sendFinished_ensures {clientApp : Bytes} {h : Hellos}
    (finishes : s.Finishes h f) :
    Ensures (sendFinished clientApp) (fun _ s' => s'.Connects h f ∧ Beside s s') s.Broken s := by
  obtain ⟨client, has⟩ := isSome_iff_exists.mp finishes.clientSecret
  obtain ⟨t, there⟩ := isSome_iff_exists.mp finishes.transcript
  simp only [sendFinished, ensures_bind, ensures_get, ensures_modify]
  apply ensures_unwrap has
  apply ensures_unwrap there
  refine (sendHandshake_sent ?_).mono ?_ ?_
  · exact finishes.transcript
  · rintro _ _ ⟨t, requested, tx, cipher, rfl⟩
    apply ensures_unwrap finishes.suite
    apply orFail_ensures
    · intro own _
      refine ⟨?_, rfl, rfl, rfl⟩
      obtain ⟨secret, application, is, read⟩ := finishes.keys
      exact {
        state := rfl
        authenticated := finishes.authenticated
        taken := ⟨[], by simp [finishes.taken], (by rintro _ ⟨⟩)⟩
        suite := finishes.suite
        hash := finishes.hash
        keys := ⟨secret, 0, application, is, read⟩
        clientSecret := rfl }
    · intro _
      exact finishes.broken rfl rfl
  · rintro _ _ ⟨t, requested, tx, cipher, rfl⟩
    exact finishes.broken rfl rfl

theorem Session.Connects.honest {h : Hellos} (connects : s.Connects h f) : s.Honest :=
  (Session.Progress.connects connects).honest

theorem Session.Connects.wrote {h : Hellos} (connects : s.Connects h f)
    (wrote : Wrote s s') : s'.Connects h f ∧ Beside s s' := by
  obtain ⟨tx, cipher, rfl⟩ := wrote
  exact ⟨{ connects with }, rfl, rfl, rfl⟩

theorem sendEarly_ensures {h : Hellos} (connects : s.Connects h f) :
    Ensures sendEarly s.Worked s.Broken s := by
  simp only [sendEarly, ensures_bind, ensures_get, ensures_modify]
  have without : Session.Connects { s with earlyWrites := [] } h f := { connects with }
  apply writeChunks_wrote.mono
  · intro _ s' wrote
    obtain ⟨connects', beside⟩ := without.wrote wrote
    exact ⟨.connects connects', beside.setup, beside.handshake, beside.failed⟩
  · intro _ s' wrote
    obtain ⟨connects', beside⟩ := without.wrote wrote
    exact ⟨beside.setup, connects'.honest⟩

theorem finished_ensures {msg : Bytes} {h : Hellos} {seen : List Bytes}
    (agrees : s.Agrees h seen) (inState : Seen s.setup h s.peerKey s.state seen)
    (state : s.state = .finished) (type : IsA HandshakeType.finished msg) (long : 4 ≤ msg.length) :
    Ensures (finished msg) s.Worked s.Broken (s.took msg) := by
  simp only [finished, ensures_bind]
  refine (takeFinished_ensures agrees inState state type long).mono ?_ fun _ _ broken => broken
  rintro clientApp s₁ ⟨⟨f, finishes⟩, beside₁⟩
  apply sendChange_wrote.mono
  · intro _ s₂ wrote
    obtain ⟨t, there⟩ := isSome_iff_exists.mp finishes.transcript
    obtain ⟨finishes, beside₂⟩ := finishes.sent (Sent.of_wrote there wrote)
    have beside₂ := beside₁.trans beside₂
    apply (answerRequest_sent finishes.transcript).mono
    · intro _ s₃ sent
      obtain ⟨finishes, beside₃⟩ := finishes.sent sent
      have beside₃ := beside₂.trans beside₃
      apply (sendFinished_ensures finishes).mono
      · rintro _ s₄ ⟨connects, beside₄⟩
        have beside₄ := beside₃.trans beside₄
        exact relative beside₄ (sendEarly_ensures connects)
      · intro _ s₄ broken
        exact ⟨broken.1.trans beside₃.setup, broken.2⟩
    · intro e s₃ sent
      obtain ⟨finishes, beside₃⟩ := finishes.sent sent
      exact ⟨(beside₂.trans beside₃).setup, (finishes.broken (e := e) rfl rfl).2⟩
  · intro e s₂ wrote
    obtain ⟨t, there⟩ := isSome_iff_exists.mp finishes.transcript
    obtain ⟨finishes, beside₂⟩ := finishes.sent (Sent.of_wrote there wrote)
    exact ⟨(beside₁.trans beside₂).setup, (finishes.broken (e := e) rfl rfl).2⟩

theorem Session.Honest.took (honest : s.Honest) (msg : Bytes) : (s.took msg).Honest := by
  intro connected
  obtain ⟨h, f, authenticated, taken⟩ := honest connected
  exact ⟨h, f, authenticated, taken.trans (List.prefix_append _ _)⟩

theorem Session.Connects.took {msg : Bytes} {h : Hellos} (connects : s.Connects h f)
    (type : IsA HandshakeType.newSessionTicket msg ∨ IsA HandshakeType.keyUpdate msg) :
    (s.took msg).Connects h f := by
  obtain ⟨later, taken, types⟩ := connects.taken
  refine { connects with taken := ⟨later ++ [msg], by simp [Session.took, taken], ?_⟩ }
  intro other inLater
  rcases List.mem_append.mp inLater with old | new
  · exact types other old
  · exact List.mem_singleton.mp new ▸ type

theorem updateOwn_ensures {h : Hellos} (connects : s.Connects h f) :
    Ensures (updateOwn h.suite) s.Worked s.Broken s := by
  simp only [updateOwn, ensures_bind, ensures_get, ensures_modify]
  apply writeRecord_wrote.mono
  · intro _ s' wrote
    obtain ⟨connects', beside⟩ := connects.wrote wrote
    obtain ⟨client, has⟩ := isSome_iff_exists.mp connects'.clientSecret
    apply ensures_unwrap has
    have honest := connects'.honest
    apply orFail_ensures
    · intro cipher _
      have updated : Session.Connects
          { s' with
            clientSecret := some (updateSecret prim s'.hash client)
            writeCipher := some cipher } h f :=
        { connects' with clientSecret := rfl }
      exact ⟨.connects updated, beside.setup, beside.handshake, beside.failed⟩
    · intro _
      exact ⟨beside.setup, honest⟩
  · intro _ s' wrote
    obtain ⟨connects', beside⟩ := connects.wrote wrote
    exact ⟨beside.setup, connects'.honest⟩

theorem keyUpdate_ensures {h : Hellos} (connects : s.Connects h f) :
    Ensures (keyUpdate body) s.Worked s.Broken s := by
  obtain ⟨secret, seq, application, is, read⟩ := connects.keys
  have honest := connects.honest
  simp only [keyUpdate, ensures_bind, ensures_get, ensures_modify]
  apply ensures_require
  · intro _
    apply ensures_unwrap connects.suite
    apply ensures_unwrap is
    apply orFail_ensures
    · intro cipher made
      have cipherEq := new_eq made
      rw [connects.hash] at cipherEq
      have updated : Session.Connects
          { s with
            serverSecret := some (updateSecret prim s.hash secret)
            readCipher := some cipher } h f := {
        connects with
        keys := by
          refine ⟨_, 0, .update application, ?_, ?_⟩
          · simp [connects.hash]
          · simp [cipherEq, cipherOf] }
      split
      · apply relative
        · exact ⟨rfl, rfl, rfl⟩
        exact updateOwn_ensures updated
      · exact ⟨.connects updated, rfl, rfl, rfl⟩
    · intro _
      exact ⟨rfl, honest⟩
  · intro _
    exact ⟨rfl, honest⟩

theorem Session.Progress.greets_of (progress : s.Progress) (state : s.state = .serverHello) :
    ∃ retry, s.Greets retry := by
  cases progress with
  | greets greets => exact ⟨_, greets⟩
  | agrees agrees inState =>
    generalize s.peerKey = key at inState
    rw [state] at inState
    cases inState
  | connects connects =>
    rw [connects.state] at state
    cases state

theorem Session.Progress.connects_of (progress : s.Progress) (state : s.state = .connected) :
    ∃ h f, s.Connects h f := by
  cases progress with
  | greets greets =>
    rw [greets.state] at state
    cases state
  | agrees agrees inState => exact absurd state inState.not_connected
  | connects connects => exact ⟨_, _, connects⟩

theorem Session.Progress.agrees_of (progress : s.Progress) {here : State}
    (state : s.state = here) (begun : here ≠ .serverHello) (going : here ≠ .connected) :
    ∃ h seen, s.Agrees h seen ∧ Seen s.setup h s.peerKey s.state seen := by
  subst state
  cases progress with
  | greets greets => exact absurd greets.state begun
  | agrees agrees inState => exact ⟨_, _, agrees, inState⟩
  | connects connects => exact absurd connects.state going

section Expected

variable {h : Hellos} {seen : List Bytes} {msg : Bytes}

theorem extensions_ensures (agrees : s.Agrees h seen)
    (inState : Seen s.setup h s.peerKey s.state seen) (state : s.state = .encryptedExtensions)
    (type : IsA HandshakeType.encryptedExtensions msg) :
    Ensures (advance (encryptedExtensions (msg.drop 4)) msg .certificateOrRequest) s.Worked s.Broken
      (s.took msg) := by
  apply advance_ensures agrees inState.not_connected
  refine encryptedExtensions_told.mono ?_ fun _ _ told => told
  intro _ s' told
  refine ⟨told, ?_⟩
  generalize s.peerKey = key at inState
  rw [state] at inState
  cases inState with
  | nothing => exact .extensions type

theorem request_ensures (agrees : s.Agrees h seen)
    (inState : Seen s.setup h s.peerKey s.state seen) (state : s.state = .certificateOrRequest)
    (type : IsA HandshakeType.certificateRequest msg) :
    Ensures (advance (certificateRequest (msg.drop 4)) msg .certificate) s.Worked s.Broken
      (s.took msg) := by
  apply advance_ensures agrees inState.not_connected
  refine certificateRequest_told.mono ?_ fun _ _ told => told
  intro _ s' told
  refine ⟨told, ?_⟩
  generalize s.peerKey = key at inState
  rw [state] at inState
  cases inState with
  | extensions extensions => exact .request extensions type

theorem certificate_ensures (agrees : s.Agrees h seen)
    (inState : Seen s.setup h s.peerKey s.state seen)
    (state : s.state = .certificateOrRequest ∨ s.state = .certificate)
    (type : IsA HandshakeType.certificate msg) :
    Ensures (advance (certificate (msg.drop 4)) msg .certificateVerify) s.Worked s.Broken
      (s.took msg) := by
  apply advance_ensures agrees inState.not_connected
  refine (certificate_told type).mono ?_ fun _ _ told => told
  rintro _ s' ⟨told, key, has, accepts⟩
  refine ⟨told, ?_⟩
  rw [has]
  generalize s.peerKey = before at inState
  rcases state with state | state
  · rw [state] at inState
    cases inState with
    | @extensions _ ee extensions =>
      have asks : ∀ msg ∈ (none : Option Bytes), IsA HandshakeType.certificateRequest msg := nofun
      exact Seen.certificate extensions asks accepts
  · rw [state] at inState
    cases inState with
    | @request _ ee cr extensions asked =>
      have asks : ∀ msg ∈ some cr, IsA HandshakeType.certificateRequest msg := by
        rintro _ ⟨⟩
        exact asked
      exact Seen.certificate extensions asks accepts

theorem verify_ensures (agrees : s.Agrees h seen)
    (inState : Seen s.setup h s.peerKey s.state seen) (state : s.state = .certificateVerify)
    (type : IsA HandshakeType.certificateVerify msg) :
    Ensures (advance (certificateVerify (msg.drop 4)) msg .finished) s.Worked s.Broken
      (s.took msg) := by
  have going := inState.not_connected
  generalize has : s.peerKey = before at inState
  rw [state] at inState
  cases inState with
  | @certificate key ee cert cr extensions asks accepts =>
    apply advance_ensures agrees going
    have hasKey : (s.took msg).peerKey = some key := has
    have there : (s.took msg).transcript = _ := agrees.transcript
    refine (certificateVerify_told type hasKey there).mono ?_ fun _ _ told => told
    rintro _ _ ⟨rfl, signs⟩
    refine ⟨Told.refl _, ?_⟩
    rw [hasKey]
    exact Seen.verify extensions asks accepts signs

end Expected

/-- A handler for each message that a state expects, and a failure for all others. -/
theorem message_ensures {msg : Bytes} (progress : s.Progress) (long : 4 ≤ msg.length) :
    Ensures (message msg) s.Worked s.Broken s := by
  obtain ⟨ty, type⟩ : ∃ ty, msg[0]? = some ty := ⟨msg[0], List.getElem?_eq_getElem (by omega)⟩
  have honest := progress.honest.took msg
  simp only [message, ensures_bind, ensures_modify, ensures_get]
  apply ensures_unwrap type
  apply ensures_unwrap (slice_tail long)
  split
  · next expected =>
      obtain ⟨retry, greets⟩ := progress.greets_of expected.1
      exact serverHello_ensures greets
  split
  · next expected =>
      obtain ⟨h, seen, agrees, inState⟩ := progress.agrees_of expected.1 (by rintro ⟨⟩) (by rintro ⟨⟩)
      exact extensions_ensures agrees inState expected.1 (expected.2 ▸ type)
  split
  · next expected =>
      obtain ⟨h, seen, agrees, inState⟩ := progress.agrees_of expected.1 (by rintro ⟨⟩) (by rintro ⟨⟩)
      exact request_ensures agrees inState expected.1 (expected.2 ▸ type)
  split
  · next expected =>
      obtain ⟨h, seen, agrees, inState⟩ := progress.agrees_of rfl
        (by rcases expected.1 with state | state <;> rw [state] <;> rintro ⟨⟩)
        (by rcases expected.1 with state | state <;> rw [state] <;> rintro ⟨⟩)
      exact certificate_ensures agrees inState expected.1 (expected.2 ▸ type)
  split
  · next expected =>
      obtain ⟨h, seen, agrees, inState⟩ := progress.agrees_of expected.1 (by rintro ⟨⟩) (by rintro ⟨⟩)
      exact verify_ensures agrees inState expected.1 (expected.2 ▸ type)
  split
  · next expected =>
      obtain ⟨h, seen, agrees, inState⟩ := progress.agrees_of expected.1 (by rintro ⟨⟩) (by rintro ⟨⟩)
      simp only [ensures_bind, ensures_pure]
      exact finished_ensures agrees inState expected.1 (expected.2 ▸ type) long
  split
  · next expected =>
      obtain ⟨h, f, connects⟩ := progress.connects_of expected.1
      exact ⟨.connects (connects.took (.inl (expected.2 ▸ type))), rfl, rfl, rfl⟩
  split
  · next expected =>
      obtain ⟨h, f, connects⟩ := progress.connects_of expected.1
      simp only [ensures_bind, ensures_pure]
      have took := connects.took (.inr (expected.2 ▸ type))
      apply relative
      · exact ⟨rfl, rfl, rfl⟩
      exact keyUpdate_ensures took
  · exact ⟨rfl, honest⟩

end EspDevkit.Crypto.Tls
