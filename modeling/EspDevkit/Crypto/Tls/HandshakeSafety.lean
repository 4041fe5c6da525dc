import EspDevkit.Crypto.Tls.RecordSteps

/-!
# A handshake is authenticated before it gives data

Calls in any order, with any bytes of the peer's: a connection is only made by an
authenticated handshake, what a read gives was decrypted under its application keys,
and no call meets a fault.
-/

namespace EspDevkit.Crypto.Tls

open List

open X509 (Bytes)
open Fallible

variable {prim : Primitives} {s s' : Session prim} {c c' : Inner prim}

structure Inner.Sound (c : Inner prim) : Prop where
  honest : c.session.Honest
  progress : c.session.failed = none → c.session.Progress
  data : c.Idle ∨ c.Pending

theorem sendAlert_wrote (f : Fatal) : Wrote s (s.sendAlert f) := by
  unfold Session.sendAlert
  split
  · exact Wrote.refl s
  · have written : Ensures (writeRecord ContentType.alert [2, f.alert]) (fun _ s' => Wrote s s')
        (fun _ s' => Wrote s s') s := writeRecord_wrote
    rcases written.apply with ⟨_, -, wrote⟩ | ⟨_, -, wrote⟩
    · exact wrote
    · exact wrote

theorem Session.fail_spec (f : Fatal) :
    (s.fail f).setup = s.setup ∧ (s.fail f).failed ≠ none ∧ (s.Honest → (s.fail f).Honest) := by
  unfold Session.fail
  split
  · obtain ⟨tx, cipher, eq⟩ := sendAlert_wrote (s := s) f
    rw [eq]
    exact ⟨rfl, nofun, id⟩
  · next failed => exact ⟨rfl, by simp [failed], id⟩

def Inner.Keeps {α : Type} (c : Inner prim) (_ : α) (c' : Inner prim) : Prop :=
  c'.Sound ∧ c'.session.setup = c.session.setup

theorem Inner.not_waiting (sound : c.Sound) (none : ¬c.waiting) : c.Idle := by
  rcases sound.data with idle | pending
  · exact idle
  · exact absurd (by simpa [Inner.waiting] using pending.some.ne) none

theorem Took.sound (took : Took c c') : c'.Sound := by
  refine ⟨took.progress.honest, fun _ => took.progress, ?_⟩
  rcases took.less with ⟨idle, -⟩ | ⟨pending, -⟩
  · exact .inl idle
  · exact .inr pending

theorem Inner.Pending.waiting (pending : c.Pending) : c.waiting := by
  simpa [Inner.waiting] using pending.some.ne

theorem processLoop_ensures {fuel : ℕ} (sound : c.Sound) (works : c.session.failed = none)
    (enough : c.rx.length < fuel ∨ (c.waiting ∧ 0 < fuel)) :
    Ensures (processLoop fuel) c.Keeps c.Keeps c := by
  induction fuel generalizing c with
  | zero => omega
  | succ fuel ih =>
    unfold Ensures processLoop
    by_cases done : c.waiting ∨ c.session.peerClosed
    · simp only [done, if_true]
      exact ⟨sound, rfl⟩
    · simp only [done, if_false]
      rw [not_or] at done
      have idle := Inner.not_waiting sound done.1
      have enough := enough.resolve_right fun waits => done.1 waits.1
      have step := (nextRecord_ensures (sound.progress works) idle).apply
      revert step
      rcases nextRecord c with ⟨result, c'⟩
      rintro (⟨more, rfl, left⟩ | ⟨f, rfl, setup, honest, idle'⟩)
      · cases more with
        | false =>
          obtain rfl : c' = c := left
          exact ⟨sound, rfl⟩
        | true =>
          have took : Took c c' := left
          have further : Ensures (processLoop fuel) c'.Keeps c'.Keeps c' := by
            apply ih took.sound (took.failed.trans works)
            rcases took.less with ⟨-, less⟩ | ⟨pending, same⟩
            · omega
            · have := pending.some
              have := pending.content
              have := pending.record
              exact .inr ⟨pending.waiting, by omega⟩
          apply further.mono
          · rintro _ c'' ⟨sound', setup⟩
            exact ⟨sound', setup.trans took.setup⟩
          · rintro _ c'' ⟨sound', setup⟩
            exact ⟨sound', setup.trans took.setup⟩
      · obtain ⟨setup', failed, honest'⟩ := Session.fail_spec (s := c'.session) f
        have sound' : (c'.fail f).Sound :=
          ⟨honest' honest, fun works => absurd works failed, .inl idle'⟩
        exact ⟨sound', setup'.trans setup⟩

theorem process_ensures (sound : c.Sound) : Ensures process c.Keeps c.Keeps c := by
  simp only [process, ensures_bind, ensures_get]
  split
  · exact ⟨sound, rfl⟩
  · next works => exact processLoop_ensures sound works (.inl (Nat.lt_succ_self _))

theorem Inner.Sound.arrive (sound : c.Sound) (bytes : Bytes) :
    Inner.Sound { c with rx := c.rx ++ bytes } := by
  refine ⟨sound.honest, sound.progress, ?_⟩
  rcases sound.data with idle | pending
  · exact .inl idle
  · have content := pending.content
    have record := pending.record
    refine .inr { pending with record := ?_, opened := ?_ }
    · rw [length_append]
      exact Nat.le_add_right_of_le record
    · rw [take_append_of_le_length (content.trans record)]
      exact pending.opened

theorem commitRx_ensures {bytes : Bytes} (sound : c.Sound) :
    Ensures (commitRx bytes) c.Keeps c.Keeps c := by
  simp only [commitRx, ensures_bind, ensures_modify]
  exact process_ensures (sound.arrive _)

theorem receive_ensures {data : Bytes} (sound : c.Sound) :
    Ensures (receive data) c.Keeps c.Keeps c := by
  simp only [receive, ensures_bind, ensures_get, ensures_pure]
  exact commitRx_ensures sound

/-- What a read gives is from a record under an application key, after an authenticated
handshake. -/
def Inner.Gives (c : Inner prim) (data : Bytes) (c' : Inner prim) : Prop :=
  c'.Sound ∧ c'.session.setup = c.session.setup ∧
    (data ≠ [] → ∃ h f, c.session.setup.Authenticated h f ∧
      (h.messages ++ f.messages) <+: c'.session.taken ∧ c.session.setup.Opened h f data)

theorem copyOut_ensures {room : ℕ} (sound : c.Sound) :
    Ensures (copyOut room) c.Gives (fun _ _ => False) c := by
  obtain ⟨session, rx, start, plainEnd, stop⟩ := c
  simp only [copyOut, ensures_bind, ensures_get]
  rcases sound.data with idle | pending
  · cases idle
    apply ensures_unwrap
    · exact slice_some (le_refl 0) (Nat.zero_le _)
    simp only [take_zero, drop_nil, length_nil, Nat.min_zero, if_true, ensures_bind,
      ensures_modify, ensures_pure]
    apply ensures_unwrap
    · exact slice_some (Nat.zero_le _) (le_refl _)
    exact ⟨⟨sound.honest, sound.progress, .inl rfl⟩, rfl, fun some => absurd rfl some⟩
  · have some : start < plainEnd := pending.some
    have content : plainEnd ≤ stop := pending.content
    have record : stop ≤ rx.length := pending.record
    obtain ⟨h, f, authenticated, taken, opened⟩ := pending.opened
    have length : ((rx.take plainEnd).drop start).length = plainEnd - start := by
      rw [length_drop, length_take]
      omega
    have given : session.setup.Opened h f
        (((rx.take plainEnd).drop start).take (min room ((rx.take plainEnd).drop start).length)) :=
      opened.part (List.take_prefix _ _).isInfix
    apply ensures_unwrap
    · exact slice_some some.le (content.trans record)
    split
    · simp only [ensures_bind, ensures_modify, ensures_pure]
      apply ensures_unwrap
      · exact slice_tail record
      exact ⟨⟨sound.honest, sound.progress, .inl rfl⟩, rfl, fun _ => ⟨h, f, authenticated, taken, given⟩⟩
    · next more =>
        simp only [ensures_bind, ensures_modify, ensures_pure]
        refine ⟨⟨sound.honest, sound.progress, .inr ?_⟩, rfl,
          fun _ => ⟨h, f, authenticated, taken, given⟩⟩
        rw [length] at more ⊢
        refine { some := ?_, content, record, connected := pending.connected, opened := ?_ }
        · dsimp only
          omega
        · refine ⟨h, f, authenticated, taken, opened.part ?_⟩
          rw [← drop_drop]
          exact (drop_suffix _ _).isInfix

theorem processUnlessWaiting_ensures (sound : c.Sound) :
    Ensures processUnlessWaiting c.Keeps c.Keeps c := by
  simp only [processUnlessWaiting, ensures_bind, ensures_get]
  split
  · exact ⟨sound, rfl⟩
  · exact process_ensures sound

theorem read_ensures {room : ℕ} (sound : c.Sound) :
    Ensures (read room) c.Gives c.Keeps c := by
  simp only [read, ensures_bind]
  apply (processUnlessWaiting_ensures sound).mono
  · rintro _ c' ⟨sound', setup⟩
    simp only [ensures_get]
    split
    · exact ⟨sound', setup⟩
    · apply (copyOut_ensures sound').mono
      · rintro data c'' ⟨sound'', setup'', gives⟩
        rw [setup] at setup'' gives
        exact ⟨sound'', setup'', gives⟩
      · intro _ _ never
        exact never.elim
  · intro _ c' keeps
    exact keeps

theorem Inner.Sound.wrote (sound : c.Sound) (wrote : Wrote c.session s') :
    c.Keeps () { c with session := s' } := by
  obtain ⟨tx, cipher, rfl⟩ := wrote
  refine ⟨⟨sound.honest, ?_, ?_⟩, rfl⟩
  · intro works
    exact (sound.progress works).aside _ _ _ _ _ _
  · rcases sound.data with idle | pending
    · exact .inl idle
    · exact .inr { pending with }

theorem writeAll_wrote {data : Bytes} :
    Ensures (writeAll data) (fun _ s' => Wrote s s') (fun _ s' => Wrote s s') s := by
  have written : Ensures (writeRecord ContentType.applicationData data) (fun _ s' => Wrote s s')
      (fun _ s' => Wrote s s') s := writeRecord_wrote
  unfold Ensures writeAll at *
  revert written
  rcases writeRecord ContentType.applicationData data s with ⟨⟨e | _⟩ | _, s'⟩
  · exact id
  · exact id
  · exact id

theorem write_ensures {data : Bytes} (sound : c.Sound) :
    Ensures (write data) c.Keeps c.Keeps c := by
  simp only [write, ensures_bind, ensures_get]
  split
  · exact ⟨sound, rfl⟩
  · split
    · exact ⟨sound, rfl⟩
    split
    · refine ⟨⟨sound.honest, fun works => (sound.progress works).aside _ _ _ _ _ _, ?_⟩, rfl⟩
      rcases sound.data with idle | pending
      · exact .inl idle
      · exact .inr { pending with }
    · rw [ensures_inSession]
      apply writeAll_wrote.mono
      · intro _ s' wrote
        exact sound.wrote wrote
      · intro _ s' wrote
        exact sound.wrote wrote

theorem close_ensures (sound : c.Sound) : Ensures close c.Keeps c.Keeps c := by
  simp only [close, ensures_bind, ensures_get]
  split
  · have closing : Inner.Sound { c with session := { c.session with closing := true } } := by
      refine ⟨sound.honest, fun works => (sound.progress works).aside _ _ _ _ _ _, ?_⟩
      rcases sound.data with idle | pending
      · exact .inl idle
      · exact .inr { pending with }
    have written : Ensures (writeRecord ContentType.alert [1, Alert.closeNotify])
        (fun _ s' => Wrote { c.session with closing := true } s')
        (fun _ s' => Wrote { c.session with closing := true } s')
        { c.session with closing := true } := writeRecord_wrote
    rcases written.apply with ⟨_, -, wrote⟩ | ⟨_, -, wrote⟩
    · exact closing.wrote wrote
    · exact closing.wrote wrote
  · exact ⟨sound, rfl⟩

theorem consumeTx_ensures {n : ℕ} (sound : c.Sound) : Ensures (consumeTx n) c.Keeps c.Keeps c :=
  sound.wrote ⟨_, _, rfl⟩

theorem quiet_ensures {α : Type} {x : Move prim Error α}
    (kept : Ensures x c.Keeps c.Keeps c) :
    Ensures (x >>= fun _ => pure []) c.Gives c.Keeps c := by
  rw [ensures_bind]
  apply kept.mono
  · rintro _ c' ⟨sound, setup⟩
    exact ⟨sound, setup, fun some => absurd rfl some⟩
  · intro _ _ keeps
    exact keeps

theorem call_ensures (sound : c.Sound) (call : Call) : Ensures call.move c.Gives c.Keeps c := by
  cases call with
  | commitRx bytes => exact quiet_ensures (commitRx_ensures sound)
  | receive data => exact quiet_ensures (receive_ensures sound)
  | read room => exact read_ensures sound
  | write data => exact quiet_ensures (write_ensures sound)
  | close => exact quiet_ensures (close_ensures sound)
  | consumeTx n => exact quiet_ensures (consumeTx_ensures sound)

theorem Inner.Sound.run (sound : c.Sound) (calls : List Call) :
    (c.run calls).Sound ∧ (c.run calls).session.setup = c.session.setup := by
  induction calls generalizing c with
  | nil => exact ⟨sound, rfl⟩
  | cons call calls ih =>
    have step : (call.move c).2.Sound ∧ (call.move c).2.session.setup = c.session.setup := by
      rcases (call_ensures sound call).apply with ⟨_, -, gives⟩ | ⟨_, -, keeps⟩
      · exact ⟨gives.1, gives.2.1⟩
      · exact keeps
    obtain ⟨sound', setup⟩ := ih step.1
    exact ⟨sound', setup.trans step.2⟩

theorem client_sound {config : Config prim} {serverName : Option Bytes} {sessionId random : Bytes}
    (begins : client config serverName sessionId random = .ok c) : c.Sound := by
  unfold client at begins
  split at begins
  · cases begins
  · cases begins
  · obtain ⟨share, -, begins⟩ := ok_of_bind begins
    obtain ⟨pubkey, -, begins⟩ := ok_of_bind begins
    cases begins
    refine ⟨nofun, fun _ => ?_, .inl rfl⟩
    apply Session.Progress.greets
    show Session.Greets _ none
    exact {
      state := rfl
      taken := rfl
      share := rfl
      retried := rfl
      fresh := fun _ => ⟨rfl, rfl⟩
      again := nofun }

/-- Primitives that hide nothing: every secret is one byte, and a record is its plaintext
before an empty tag. -/
def transparent : Primitives where
  digest _ _ := []
  hmac _ _ _ := [9]
  importKey _ _ := .ok ()
  encrypt _ _ _ _ plain := some (plain ++ List.replicate tagLen 0)
  decrypt _ _ _ _ body := some (body.take (body.length - tagLen))
  Ephemeral := Unit
  generate _ _ := .ok ()
  exportPublic _ := .ok [1]
  agree _ _ := .ok [1]
  Key := Unit
  kind _ := .ed25519
  fromSpki _ := .ok ()
  verify _ _ _ signature := signature = [7]
  SigningKey := Unit
  sign _ _ _ := .ok [7]
  parseIp _ := none

def anyServer : Config transparent :=
  { verify := .none, clock := none, alpn := [], identity := none
    cipherSuites := [.chaCha20Poly1305Sha256], groups := [.x25519] }

def greeting : Bytes :=
  let tlv := fun (tag : UInt8) (content : Bytes) => tag :: UInt8.ofNat content.length :: content
  let date := tlv 0x17 [0x32, 0x30, 0x30, 0x31, 0x30, 0x31, 0x30, 0x30, 0x30, 0x30, 0x30, 0x30, 0x5a]
  let alg := tlv 0x30 (tlv 0x06 X509.Oid.ed25519)
  let certificate :=
    tlv 0x30 (tlv 0x30 (tlv 0xa0 (tlv 0x02 [2]) ++ tlv 0x02 [1] ++ alg ++ tlv 0x30 [1] ++
      tlv 0x30 (date ++ date) ++ tlv 0x30 [1] ++ tlv 0x30 [1]) ++ alg ++ tlv 0x03 [0])
  let record := fun (ty : UInt8) (body : Bytes) => [ty, 3, 3] ++ withLen 2 body
  let hidden := fun (ty : UInt8) (plain : Bytes) =>
    record ContentType.applicationData (plain ++ [ty] ++ List.replicate tagLen 0)
  let message := fun (ty : UInt8) (body : Bytes) => ty :: withLen 3 body
  record ContentType.handshake
      (message HandshakeType.serverHello
        (putU16 0x0303 ++ List.replicate 32 0 ++ withLen 1 (List.replicate 32 5) ++ putU16 0x1303 ++
          [0] ++ withLen 2 (extension Extension.supportedVersions (putU16 tls13) ++
            extension Extension.keyShare (putU16 0x001d ++ withLen 2 [2])))) ++
    hidden ContentType.handshake
      (message HandshakeType.encryptedExtensions (withLen 2 []) ++
        message HandshakeType.certificate
          (withLen 1 [] ++ withLen 3 (withLen 3 certificate ++ withLen 2 [])) ++
        message HandshakeType.certificateVerify (putU16 Scheme.ed25519 ++ withLen 2 [7])) ++
    hidden ContentType.handshake (message HandshakeType.finished [9]) ++
    hidden ContentType.applicationData [0x68, 0x69]

end EspDevkit.Crypto.Tls
