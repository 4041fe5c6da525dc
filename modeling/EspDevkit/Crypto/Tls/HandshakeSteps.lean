import EspDevkit.Crypto.Tls.Connection

/-!
# What an authenticated handshake is

The messages of the server's that make a connection, in their order, and what each of
them has to say.  Nothing here looks at how the client keeps its state.
-/

namespace EspDevkit.Crypto.Tls

open X509 (Bytes Certificate SignatureAlgorithm)

variable {prim : Primitives}

structure Setup (prim : Primitives) where
  config : Config prim
  serverName : Option Bytes
  sessionId : Bytes
  random : Bytes
  /-- The first ClientHello. -/
  first : Bytes

def Session.setup (s : Session prim) : Setup prim :=
  { config := s.config, serverName := s.serverName, sessionId := s.sessionId, random := s.random
    first := s.clientHello }

structure Hellos where
  /-- A HelloRetryRequest and the ClientHello that answers it. -/
  retry : Option (Bytes × Bytes)
  hello : Bytes
  suite : CipherSuite
  shared : Bytes

def helloMessages (prim : Primitives) (kind : HashKind) (first : Bytes)
    (retry : Option (Bytes × Bytes)) : Bytes :=
  match retry with
  | none => first
  | some (msg, second) =>
    [HandshakeType.messageHash, 0, 0, UInt8.ofNat kind.len] ++ prim.digest kind first ++ msg ++ second

structure Setup.Retries (c : Setup prim) (suite : CipherSuite) (retry : Bytes × Bytes) : Prop where
  reads : ∃ said, readServerHello c.config.cipherSuites c.sessionId none retry.1 = .ok said ∧
    said.retry = true ∧ said.suite = suite
  answer : ∃ group pubkey cookie,
    retry.2 = buildClientHello c.config c.serverName c.random c.sessionId group pubkey cookie

namespace Hellos

variable (prim : Primitives) (h : Hellos)

def kind : HashKind := h.suite.hash

def messages : List Bytes := h.retry.toList.map Prod.fst ++ [h.hello]

def transcript (first : Bytes) (seen : List Bytes) : Bytes :=
  helloMessages prim h.kind first h.retry ++ h.hello ++ seen.flatten

def hash (first : Bytes) (seen : List Bytes) : Bytes := prim.digest h.kind (h.transcript prim first seen)

def serverTraffic (first : Bytes) : Bytes :=
  derive prim h.kind (handshakeSecret prim h.kind h.shared) "s hs traffic" (h.hash prim first [])

end Hellos

structure Hellos.Valid (h : Hellos) (c : Setup prim) : Prop where
  reads : ∃ agreed said, readServerHello c.config.cipherSuites c.sessionId agreed h.hello = .ok said ∧
    said.retry = false ∧ said.suite = h.suite
  retries : ∀ retry ∈ h.retry, c.Retries h.suite retry

structure Flight where
  extensions : Bytes
  request : Option Bytes
  certificate : Bytes
  verify : Bytes
  finished : Bytes

namespace Flight

variable (f : Flight)

def toCertificate : List Bytes := [f.extensions] ++ f.request.toList ++ [f.certificate]
def toVerify : List Bytes := f.toCertificate ++ [f.verify]
def messages : List Bytes := f.toVerify ++ [f.finished]

end Flight

def IsA (ty : UInt8) (msg : Bytes) : Prop := msg[0]? = some ty

structure Setup.Accepts (c : Setup prim) (msg : Bytes) (key : prim.Key) : Prop where
  type : IsA HandshakeType.certificate msg
  accepted : ∃ der rest leaf, readCertificate (msg.drop 4) = .ok (der :: rest) ∧
    Certificate.parse der = .ok leaf ∧ prim.fromSpki leaf.spki = .ok key ∧
      c.config.accepts c.serverName (der :: rest) leaf = .ok ()

structure Signs (key : prim.Key) (hash : Bytes) (msg : Bytes) : Prop where
  type : IsA HandshakeType.certificateVerify msg
  verified : ∃ scheme signature alg, readCertificateVerify (msg.drop 4) = .ok (scheme, signature) ∧
    verifyAlgorithm scheme (prim.kind key) = some alg ∧
      prim.verify key alg (signedContent serverContext hash) signature = true

/-- The messages of the server's that a connection was made by, in their order. -/
structure Setup.Authenticated (c : Setup prim) (h : Hellos) (f : Flight) : Prop where
  hellos : h.Valid c
  extensions : IsA HandshakeType.encryptedExtensions f.extensions
  request : ∀ msg ∈ f.request, IsA HandshakeType.certificateRequest msg
  certificate : ∃ key, c.Accepts f.certificate key ∧
    Signs key (h.hash prim c.first f.toCertificate) f.verify
  type : IsA HandshakeType.finished f.finished
  mac : f.finished.drop 4 =
    finishedMac prim h.kind (h.serverTraffic prim c.first) (h.hash prim c.first f.toVerify)

inductive AppSecret (c : Setup prim) (h : Hellos) (f : Flight) : Bytes → Prop
  | first : AppSecret c h f
      (derive prim h.kind (masterSecret prim h.kind (handshakeSecret prim h.kind h.shared))
        "s ap traffic" (h.hash prim c.first f.messages))
  | update {secret : Bytes} : AppSecret c h f secret →
      AppSecret c h f (updateSecret prim h.kind secret)

def Setup.Opened (c : Setup prim) (h : Hellos) (f : Flight) (data : Bytes) : Prop :=
  ∃ secret seq nonce next head body plain, AppSecret c h f secret ∧
    ({ cipherOf prim h.suite secret with seq } : RecordCipher).nonce = .ok (nonce, next) ∧
      (cipherOf prim h.suite secret).openInPlace prim nonce head body = some plain ∧ data <:+: plain

end EspDevkit.Crypto.Tls

/-!
## What each message does

The messages that were taken in each state of the handshake, and what they left: the
transcript is theirs, the secrets come from it, and what the next handler takes out of
an option is there.
-/

namespace EspDevkit.Crypto.Tls

open X509 (Bytes)
open Fallible

variable {prim : Primitives} {c : Setup prim} {s s' : Session prim}

structure Session.Greets (s : Session prim) (retry : Option (Bytes × Bytes)) : Prop where
  state : s.state = .serverHello
  taken : s.taken = retry.toList.map Prod.fst
  share : s.share.isSome
  retried : s.retried = retry.isSome
  fresh : retry = none → s.suite = none ∧ s.transcript = none
  again : ∀ r ∈ retry, ∃ suite, s.suite = some suite ∧ s.setup.Retries suite r ∧
    s.transcript = some
      { kind := suite.hash, messages := helloMessages prim suite.hash s.clientHello (some r) }

structure Session.Agrees (s : Session prim) (h : Hellos) (seen : List Bytes) : Prop where
  valid : h.Valid s.setup
  taken : s.taken = h.messages ++ seen
  transcript : s.transcript =
    some { kind := h.kind, messages := h.transcript prim s.clientHello seen }
  suite : s.suite = some h.suite
  hash : s.hash = h.kind
  handshakeSecret : s.handshakeSecret = some (Tls.handshakeSecret prim h.kind h.shared)
  serverSecret : s.serverSecret = some (h.serverTraffic prim s.clientHello)
  clientSecret : s.clientSecret.isSome

inductive Seen (c : Setup prim) (h : Hellos) : Option prim.Key → State → List Bytes → Prop
  | nothing {key : Option prim.Key} : Seen c h key .encryptedExtensions []
  | extensions {key : Option prim.Key} {ee : Bytes} (type : IsA HandshakeType.encryptedExtensions ee) :
      Seen c h key .certificateOrRequest [ee]
  | request {key : Option prim.Key} {ee cr : Bytes} (type : IsA HandshakeType.encryptedExtensions ee)
      (asks : IsA HandshakeType.certificateRequest cr) : Seen c h key .certificate [ee, cr]
  | certificate {key : prim.Key} {ee cert : Bytes} {cr : Option Bytes}
      (type : IsA HandshakeType.encryptedExtensions ee)
      (asks : ∀ msg ∈ cr, IsA HandshakeType.certificateRequest msg) (accepts : c.Accepts cert key) :
      Seen c h (some key) .certificateVerify ([ee] ++ cr.toList ++ [cert])
  | verify {key : prim.Key} {ee cert cv : Bytes} {cr : Option Bytes}
      (type : IsA HandshakeType.encryptedExtensions ee)
      (asks : ∀ msg ∈ cr, IsA HandshakeType.certificateRequest msg) (accepts : c.Accepts cert key)
      (signs : Signs key (h.hash prim c.first ([ee] ++ cr.toList ++ [cert])) cv) :
      Seen c h (some key) .finished ([ee] ++ cr.toList ++ [cert] ++ [cv])

theorem Seen.not_connected {h : Hellos} {key : Option prim.Key} {state : State} {seen : List Bytes}
    (inState : Seen c h key state seen) : state ≠ .connected := by
  cases inState <;> nofun

/-- After the handshake: the keys are those of the last update. -/
structure Session.Connects (s : Session prim) (h : Hellos) (f : Flight) : Prop where
  state : s.state = .connected
  authenticated : s.setup.Authenticated h f
  taken : ∃ later, s.taken = h.messages ++ f.messages ++ later ∧
    ∀ msg ∈ later, IsA HandshakeType.newSessionTicket msg ∨ IsA HandshakeType.keyUpdate msg
  suite : s.suite = some h.suite
  hash : s.hash = h.kind
  keys : ∃ secret seq, AppSecret s.setup h f secret ∧ s.serverSecret = some secret ∧
    s.readCipher = some { cipherOf prim h.suite secret with seq }
  clientSecret : s.clientSecret.isSome

inductive Session.Progress (s : Session prim) : Prop
  | greets {retry : Option (Bytes × Bytes)} (greets : s.Greets retry)
  | agrees {h : Hellos} {seen : List Bytes} (agrees : s.Agrees h seen)
      (inState : Seen s.setup h s.peerKey s.state seen)
  | connects {h : Hellos} {f : Flight} (connects : s.Connects h f)

/-- What holds of every connection: it is connected by an authenticated handshake. -/
def Session.Honest (s : Session prim) : Prop :=
  s.state = .connected →
    ∃ h f, s.setup.Authenticated h f ∧ (h.messages ++ f.messages) <+: s.taken

theorem Session.Progress.honest (progress : s.Progress) : s.Honest := by
  intro connected
  cases progress with
  | greets greets =>
    rw [greets.state] at connected
    cases connected
  | agrees agrees inState =>
    exact absurd connected inState.not_connected
  | connects connects =>
    obtain ⟨later, taken, -⟩ := connects.taken
    exact ⟨_, _, connects.authenticated, taken ▸ List.prefix_append _ _⟩

structure Beside (s s' : Session prim) : Prop where
  setup : s'.setup = s.setup
  handshake : s'.handshake = s.handshake
  failed : s'.failed = s.failed

theorem Beside.rfl : Beside s s := ⟨Eq.refl _, Eq.refl _, Eq.refl _⟩

theorem Beside.trans {s'' : Session prim} (first : Beside s s') (second : Beside s' s'') :
    Beside s s'' :=
  ⟨second.setup.trans first.setup, second.handshake.trans first.handshake,
    second.failed.trans first.failed⟩

def Session.Broken (s : Session prim) (_ : Fatal) (s' : Session prim) : Prop :=
  s'.setup = s.setup ∧ s'.Honest

def Wrote (s s' : Session prim) : Prop :=
  ∃ tx writeCipher, s' = { s with tx, writeCipher }

theorem Wrote.refl (s : Session prim) : Wrote s s := ⟨s.tx, s.writeCipher, rfl⟩

theorem Wrote.trans {s'' : Session prim} (first : Wrote s s') (second : Wrote s' s'') :
    Wrote s s'' := by
  obtain ⟨tx, cipher, rfl⟩ := first
  obtain ⟨tx', cipher', rfl⟩ := second
  exact ⟨tx', cipher', rfl⟩

variable {ty : UInt8} {α : Type} {hello : Hello} {msg : Bytes}
  {stops : Fatal → Session prim → Prop}

theorem writePlain_wrote {payload : Bytes} {version : ℕ} :
    Ensures (writePlain ty payload version) (fun _ s' => Wrote s s') (fun _ s' => Wrote s s') s :=
  ⟨_, _, rfl⟩

theorem writeChunk_wrote {chunk : Bytes} :
    Ensures (writeChunk ty chunk) (fun _ s' => Wrote s s') (fun _ s' => Wrote s s') s := by
  simp only [writeChunk, ensures_bind, ensures_get]
  split
  · exact writePlain_wrote
  · next cipher has =>
      split
      · exact ⟨_, _, rfl⟩
      · simp only [ensures_bind, ensures_modify]
        split
        · exact ⟨_, _, rfl⟩
        · exact ⟨_, _, rfl⟩

theorem writeChunks_wrote {chunks : List Bytes} :
    Ensures (writeChunks ty chunks) (fun _ s' => Wrote s s') (fun _ s' => Wrote s s') s := by
  induction chunks generalizing s with
  | nil => exact Wrote.refl s
  | cons chunk chunks ih =>
    simp only [writeChunks, ensures_bind]
    apply writeChunk_wrote.mono
    · intro _ s' wrote
      exact ih.mono (fun _ _ => wrote.trans) fun _ _ => wrote.trans
    · intro _ s' wrote
      exact wrote

theorem writeRecord_wrote {payload : Bytes} :
    Ensures (writeRecord ty payload) (fun _ s' => Wrote s s') (fun _ s' => Wrote s s') s :=
  writeChunks_wrote

theorem ok_of_bind {ε β : Type} {x : Except ε α} {next : α → Except ε β} {b : β}
    (ok : (x >>= next) = .ok b) : ∃ a, x = .ok a ∧ next a = .ok b := by
  cases x with
  | error e => cases ok
  | ok a => exact ⟨a, rfl, ok⟩

theorem holds_of_check {condition : Prop} [Decidable condition] {alert : UInt8} {u : Unit}
    (ok : check condition alert = .ok u) : condition := by
  unfold check at ok
  split at ok
  · next holds => exact holds
  · cases ok

theorem ok_of_mapError {ε ε' : Type} {x : Except ε α} {map : ε → ε'} {a : α}
    (ok : x.mapError map = .ok a) : x = .ok a := by
  cases x with
  | error e => cases ok
  | ok b => exact congrArg Except.ok (Except.ok.inj ok)

theorem some_of_orFatal {x : Option α} {alert : UInt8} {a : α}
    (ok : orFatal alert x = .ok a) : x = some a := by
  cases x with
  | none => cases ok
  | some b => exact congrArg some (Except.ok.inj ok)

theorem readServerHello_suite {offered : List CipherSuite} {sessionId : Bytes}
    {agreed : Option CipherSuite}
    (said : readServerHello offered sessionId agreed msg = .ok hello) :
    ∀ suite ∈ agreed, suite = hello.suite := by
  unfold readServerHello at said
  obtain ⟨⟨version, r⟩, -, said⟩ := ok_of_bind said
  obtain ⟨_, -, said⟩ := ok_of_bind said
  obtain ⟨⟨random, r⟩, -, said⟩ := ok_of_bind said
  obtain ⟨⟨session, r⟩, -, said⟩ := ok_of_bind said
  obtain ⟨⟨suiteId, r⟩, -, said⟩ := ok_of_bind said
  obtain ⟨⟨compression, r⟩, -, said⟩ := ok_of_bind said
  obtain ⟨⟨exts, r⟩, -, said⟩ := ok_of_bind said
  obtain ⟨_, -, said⟩ := ok_of_bind said
  obtain ⟨_, -, said⟩ := ok_of_bind said
  obtain ⟨suite, -, said⟩ := ok_of_bind said
  obtain ⟨_, same, said⟩ := ok_of_bind said
  obtain ⟨read, -, said⟩ := ok_of_bind said
  obtain ⟨_, -, said⟩ := ok_of_bind said
  cases said
  exact holds_of_check same

def Session.took (s : Session prim) (msg : Bytes) : Session prim :=
  { s with taken := s.taken ++ [msg] }

theorem broken {f : Fatal} (setup : s'.setup = s.setup) (state : s'.state ≠ .connected) :
    s.Broken f s' :=
  ⟨setup, fun connected => absurd connected state⟩

def Session.Worked {α : Type} (s : Session prim) (_ : α) (s' : Session prim) : Prop :=
  s'.Progress ∧ Beside s s'

theorem relative {x : Step prim α} (beside : Beside s s')
    (ensures : Ensures x s'.Worked s'.Broken s') : Ensures x s.Worked s.Broken s' := by
  apply ensures.mono
  · intro a s'' worked
    exact ⟨worked.1, beside.trans worked.2⟩
  · intro f s'' broken
    exact ⟨broken.1.trans beside.setup, broken.2⟩

theorem orFail_ensures {x : Except Error α} {post : α → Session prim → Prop}
    (given : ∀ a, x = .ok a → post a s)
    (failed : ∀ f, stops f s) : Ensures (orFail x) post stops s := by
  apply ensures_lift
  · intro a ok
    exact given a (ok_of_mapError ok)
  · intro f _
    exact failed f

theorem record_ensures {t : Transcript} {post : Unit → Session prim → Prop}
    (there : s.transcript = some t)
    (given : post () { s with transcript := some (t.update msg) }) :
    Ensures (record msg) post stops s := by
  simp only [record, ensures_bind, ensures_get]
  exact ensures_unwrap there given

theorem clientHello_ensures {cookie : Option Bytes} {group : Group} {share : prim.Ephemeral}
    {post : Bytes → Session prim → Prop}
    (there : s.share = some (group, share))
    (given : ∀ pubkey, post
      (buildClientHello s.config s.serverName s.random s.sessionId group pubkey cookie) s)
    (failed : ∀ f, stops f s) : Ensures (clientHello cookie) post stops s := by
  simp only [clientHello, ensures_bind, ensures_get]
  apply ensures_unwrap there
  exact orFail_ensures (fun pubkey _ => given pubkey) failed

theorem helloRetry_ensures
    (said : readServerHello s.config.cipherSuites s.sessionId none msg = .ok hello)
    (retry : hello.retry = true) (state : s.state = .serverHello) (taken : s.taken = [msg])
    (suite : s.suite = some hello.suite) (hash : s.hash = hello.suite.hash) :
    Ensures (helloRetry msg hello.selectedGroup hello.cookie) s.Worked s.Broken s := by
  have going : s.state ≠ .connected := by rw [state]; rintro ⟨⟩
  simp only [helloRetry, ensures_bind, ensures_get, ensures_modify]
  apply ensures_require
  · intro _
    apply ensures_lift
    · intro id _
      apply ensures_lift
      · intro group _
        apply orFail_ensures
        · intro share _
          apply clientHello_ensures rfl
          · intro pubkey
            apply record_ensures rfl
            simp only [writePlain, append, ensures_modify, ensures_pure]
            refine ⟨?_, rfl, rfl, rfl⟩
            let second :=
              buildClientHello s.config s.serverName s.random s.sessionId group pubkey hello.cookie
            apply Session.Progress.greets
            show Session.Greets _ (some (msg, second))
            exact {
              state
              taken
              share := rfl
              retried := rfl
              fresh := by rintro ⟨⟩
              again := by
                rintro _ ⟨⟩
                refine ⟨hello.suite, suite, ⟨⟨hello, said, retry, rfl⟩, group, pubkey, _, rfl⟩, ?_⟩
                simp [hash, helloMessages, Transcript.update, second] }
          · intro f
            exact broken rfl going
        · intro f
          exact broken rfl going
      · intro f _
        exact broken rfl going
    · intro f _
      exact broken rfl going
  · intro _
    exact broken rfl going

theorem agree_ensures {retry : Option (Bytes × Bytes)}
    {agreed : Option CipherSuite}
    (said : readServerHello s.config.cipherSuites s.sessionId agreed msg = .ok hello)
    (final : hello.retry = false) (state : s.state = .serverHello)
    (taken : s.taken = retry.toList.map Prod.fst ++ [msg]) (share : s.share.isSome)
    (suite : s.suite = some hello.suite) (hash : s.hash = hello.suite.hash)
    (transcript : s.transcript = some
      { kind := hello.suite.hash
        messages := helloMessages prim hello.suite.hash s.clientHello retry })
    (retries : ∀ r ∈ retry, s.setup.Retries hello.suite r) :
    Ensures (agree msg hello.suite hello.keyShare) s.Worked s.Broken s := by
  have going : s.state ≠ .connected := by rw [state]; nofun
  obtain ⟨⟨group, share⟩, there⟩ := Option.isSome_iff_exists.mp share
  simp only [agree, ensures_bind, ensures_get, ensures_modify]
  apply ensures_unwrap there
  apply ensures_lift
  · rintro ⟨id, peer⟩ -
    apply ensures_require
    · intro _
      apply ensures_lift
      · intro shared _
        apply ensures_require
        · intro _
          apply record_ensures
          · exact transcript
          apply ensures_unwrap rfl
          apply orFail_ensures
          · intro read _
            apply orFail_ensures
            · intro write _
              refine ⟨?_, rfl, rfl, rfl⟩
              let h : Hellos := { retry, hello := msg, suite := hello.suite, shared }
              apply Session.Progress.agrees
              · show Session.Agrees _ h []
                exact {
                  valid := ⟨⟨agreed, hello, said, final, rfl⟩, retries⟩
                  taken := by simp [taken, h, Hellos.messages]
                  transcript := by simp [h, Hellos.kind, Hellos.transcript, Transcript.update]
                  suite
                  hash
                  handshakeSecret := by simp [h, hash, Hellos.kind]
                  serverSecret := by
                    simp [h, hash, Hellos.kind, Hellos.serverTraffic, Hellos.hash, Hellos.transcript,
                      Transcript.current, Transcript.update]
                  clientSecret := rfl }
              · exact Seen.nothing
            · intro f
              exact broken rfl going
          · intro f
            exact broken rfl going
        · intro _
          exact broken rfl going
      · intro f _
        exact broken rfl going
    · intro _
      exact broken rfl going
  · intro f _
    exact broken rfl going

theorem helloRetry_refused {group : Option ℕ} {cookie : Option Bytes}
    (retried : s.retried = true) (going : s.state ≠ .connected) :
    Ensures (helloRetry msg group cookie) s.Worked s.Broken s := by
  simp only [helloRetry, ensures_bind, ensures_get]
  apply ensures_require
  · intro fresh
    rw [retried] at fresh
    cases fresh
  · intro _
    exact broken rfl going

theorem serverHello_ensures {retry : Option (Bytes × Bytes)} (greets : s.Greets retry) :
    Ensures (serverHello msg) s.Worked s.Broken (s.took msg) := by
  have going : s.state ≠ .connected := by rw [greets.state]; rintro ⟨⟩
  have taken : (s.took msg).taken = retry.toList.map Prod.fst ++ [msg] := by
    simp [Session.took, greets.taken]
  simp only [serverHello, ensures_bind, ensures_get, ensures_modify]
  apply ensures_lift
  · intro hello said
    have agreed := readServerHello_suite said
    cases retry with
    | none =>
      obtain ⟨suite, transcript⟩ := greets.fresh rfl
      split
      · next again =>
          apply relative
          · exact ⟨rfl, rfl, rfl⟩
          apply helloRetry_ensures
          · rw [← suite]
            exact said
          · exact again
          · exact greets.state
          · exact taken
          · rfl
          · rfl
      · next final =>
          apply relative
          · exact ⟨rfl, rfl, rfl⟩
          apply agree_ensures
          · exact said
          · simpa using final
          · exact greets.state
          · exact taken
          · exact greets.share
          · rfl
          · rfl
          · simp [Session.took, transcript, helloMessages]
          · rintro _ ⟨⟩
    | some r =>
      obtain ⟨suite, is, retries, transcript⟩ := greets.again r rfl
      have same : suite = hello.suite := agreed suite is
      subst same
      split
      · next again =>
          apply relative
          · exact ⟨rfl, rfl, rfl⟩
          exact helloRetry_refused greets.retried going
      · next final =>
          apply relative
          · exact ⟨rfl, rfl, rfl⟩
          apply agree_ensures
          · exact said
          · simpa using final
          · exact greets.state
          · exact taken
          · exact greets.share
          · rfl
          · rfl
          · simp [Session.took, transcript]
          · rintro _ ⟨⟩
            exact retries
  · intro f _
    exact broken rfl going

end EspDevkit.Crypto.Tls
