import EspDevkit.Crypto.Tls.RecordSteps

/-!
# What goes out

Nothing that the connection does depends on the bytes that wait to be sent: each step only
puts bytes behind them.
-/

namespace EspDevkit.Crypto.Tls

open X509 (Bytes)
open Fallible

variable {prim : Primitives} {s : Session prim}

def Session.after (sent : Bytes) (s : Session prim) : Session prim :=
  { s with tx := sent ++ s.tx }

variable {sent : Bytes}

variable (prim) in
def Outgoing {α : Type} (sent : Bytes) (x : Step prim α) : Prop :=
  ∀ s, Commutes (Session.after sent) x s

theorem append_outgoing {bytes : Bytes} : Outgoing prim sent (append bytes) := by
  intro s
  apply commutes_modify
  simp only [Session.after, List.append_assoc]

variable {ty : UInt8} {msg body : Bytes}

theorem writeChunk_outgoing {chunk : Bytes} :
    Outgoing prim sent (writeChunk ty chunk) := by
  intro s
  apply Commutes.get rfl
  split
  · exact append_outgoing s
  · dsimp only
    split
    · apply (append_outgoing s).bind
      intro _ _ _
      exact commutes_stop
    · apply Commutes.modify (by rfl)
      split
      · apply (append_outgoing _).bind
        intro _ _ _
        exact commutes_stop
      · exact append_outgoing _

theorem writeChunks_outgoing {chunks : List Bytes} :
    Outgoing prim sent (writeChunks ty chunks) := by
  induction chunks with
  | nil =>
    intro s
    exact commutes_pure
  | cons chunk chunks ih =>
    intro s
    apply (writeChunk_outgoing s).bind
    intro _ s' _
    exact ih s'

theorem writeRecord_outgoing {payload : Bytes} :
    Outgoing prim sent (writeRecord ty payload) :=
  writeChunks_outgoing

theorem record_outgoing : Outgoing prim sent (record msg) := by
  intro s
  apply Commutes.get rfl
  apply Commutes.unwrap
  intro t _
  exact commutes_modify (by rfl)

theorem sendHandshake_outgoing :
    Outgoing prim sent (sendHandshake msg) := by
  intro s
  apply (record_outgoing s).bind
  intro _ s' _
  exact writeRecord_outgoing s'

theorem after_fail {f : Fatal} : (s.after sent).fail f = (s.fail f).after sent := by
  have same : (s.after sent).failed = s.failed := rfl
  unfold Session.fail
  rw [same]
  split
  · have alert : (s.after sent).sendAlert f = (s.sendAlert f).after sent := by
      unfold Session.sendAlert
      split
      · rfl
      · exact congrArg Prod.snd (writeRecord_outgoing s)
    rw [alert]
    rfl
  · rfl

theorem clientHello_outgoing {cookie : Option Bytes} :
    Outgoing prim sent (clientHello cookie) := by
  intro s
  apply Commutes.get rfl
  apply Commutes.unwrap
  rintro ⟨group, share⟩ _
  apply Commutes.lift
  intro pubkey _
  exact commutes_pure

theorem helloRetry_outgoing {group : Option ℕ} {cookie : Option Bytes} :
    Outgoing prim sent (helloRetry msg group cookie) := by
  intro s
  apply Commutes.get rfl
  apply Commutes.require
  intro _
  apply Commutes.modify (by rfl)
  apply Commutes.lift
  intro id _
  apply Commutes.lift
  intro group _
  apply Commutes.modify (by rfl)
  apply Commutes.lift
  intro share _
  apply Commutes.modify (by rfl)
  apply (clientHello_outgoing _).bind
  intro hello s₁ _
  apply (record_outgoing s₁).bind
  intro _ s₂ _
  apply (append_outgoing s₂).bind
  intro _ s₃ _
  apply (append_outgoing s₃).bind
  intro _ _ _
  exact commutes_pure

theorem agree_outgoing {suite : CipherSuite} {keyShare : Option (ℕ × Bytes)} :
    Outgoing prim sent (agree msg suite keyShare) := by
  intro s
  apply Commutes.get rfl
  apply Commutes.unwrap
  rintro ⟨group, share⟩ _
  apply Commutes.modify (by rfl)
  apply Commutes.lift
  rintro ⟨id, peer⟩ _
  apply Commutes.require
  intro _
  apply Commutes.lift
  intro shared _
  apply Commutes.require
  intro _
  apply (record_outgoing _).bind
  intro _ s' _
  apply Commutes.get rfl
  apply Commutes.unwrap
  intro t _
  apply Commutes.lift
  intro cipher _
  apply Commutes.modify (by rfl)
  apply Commutes.lift
  intro cipher _
  apply Commutes.modify (by rfl)
  exact commutes_pure

theorem serverHello_outgoing : Outgoing prim sent (serverHello msg) := by
  intro s
  apply Commutes.get rfl
  apply Commutes.lift
  intro hello _
  apply Commutes.modify (by rfl)
  split
  · exact helloRetry_outgoing _
  · exact agree_outgoing _

theorem readExtensions_outgoing {fuel : ℕ} {exts : Bytes} :
    Outgoing prim sent (readExtensions fuel exts) := by
  induction fuel generalizing exts with
  | zero =>
    intro s
    exact commutes_pure
  | succ fuel ih =>
    intro s
    change Commutes _ (if exts = [] then _ else _) s
    split
    · exact commutes_pure
    · apply Commutes.lift
      rintro ⟨id, data, r⟩ _
      apply Commutes.get (by rfl)
      split
      · exact ih s
      split
      · apply Commutes.lift
        rintro ⟨list, _⟩ _
        apply Commutes.lift
        rintro ⟨proto, list⟩ _
        apply Commutes.require
        intro _
        apply Commutes.modify (by rfl)
        exact ih _
      · exact commutes_stop

theorem encryptedExtensions_outgoing :
    Outgoing prim sent (encryptedExtensions body) := by
  intro s
  apply Commutes.lift
  rintro ⟨exts, r⟩ _
  apply Commutes.require
  intro _
  exact readExtensions_outgoing s

theorem certificateRequest_outgoing :
    Outgoing prim sent (certificateRequest body) := by
  intro s
  apply Commutes.lift
  intro requested _
  exact commutes_modify (by rfl)

theorem certificate_outgoing : Outgoing prim sent (certificate body) := by
  intro s
  apply Commutes.lift
  intro chain _
  apply Commutes.get (by rfl)
  apply Commutes.unwrap
  intro first _
  apply Commutes.lift
  intro leaf _
  apply Commutes.lift
  intro key _
  apply Commutes.lift
  intro _ _
  exact commutes_modify (by rfl)

theorem certificateVerify_outgoing :
    Outgoing prim sent (certificateVerify body) := by
  intro s
  apply Commutes.lift
  rintro ⟨scheme, signature⟩ _
  apply Commutes.get (by rfl)
  apply Commutes.unwrap
  intro key _
  apply Commutes.lift
  intro alg _
  apply Commutes.unwrap
  intro t _
  exact commutes_require

theorem clientCertificate_outgoing {context : Bytes} {schemes : List ℕ} :
    Outgoing prim sent (clientCertificate context schemes) := by
  intro s
  apply Commutes.get (by rfl)
  apply (sendHandshake_outgoing s).bind
  intro _ s' _
  split
  · exact commutes_pure
  · apply Commutes.lift
    intro scheme _
    apply Commutes.get (by rfl)
    apply Commutes.unwrap
    intro t _
    apply Commutes.lift
    intro signature _
    exact sendHandshake_outgoing s'

theorem takeFinished_outgoing :
    Outgoing prim sent (takeFinished msg) := by
  intro s
  apply Commutes.get (by rfl)
  apply Commutes.unwrap
  intro t _
  apply Commutes.unwrap
  intro server _
  apply Commutes.modify (by rfl)
  apply Commutes.unwrap
  intro mac _
  apply Commutes.require
  intro _
  apply (record_outgoing _).bind
  intro _ s' _
  apply Commutes.unwrap
  intro handshake _
  apply Commutes.modify (by rfl)
  apply Commutes.unwrap
  intro suite _
  apply Commutes.lift
  intro cipher _
  apply Commutes.modify (by rfl)
  exact commutes_pure

theorem answerRequest_outgoing : Outgoing prim sent answerRequest := by
  intro s
  apply Commutes.get (by rfl)
  split
  · exact commutes_pure
  · apply Commutes.modify (by rfl)
    exact clientCertificate_outgoing _

theorem sendFinished_outgoing {clientApp : Bytes} :
    Outgoing prim sent (sendFinished clientApp) := by
  intro s
  apply Commutes.get (by rfl)
  apply Commutes.unwrap
  intro client _
  apply Commutes.modify (by rfl)
  apply Commutes.unwrap
  intro t _
  apply (sendHandshake_outgoing _).bind
  intro _ s' _
  apply Commutes.unwrap
  intro suite _
  apply Commutes.lift
  intro cipher _
  exact commutes_modify (by rfl)

theorem sendChange_outgoing : Outgoing prim sent sendChange := by
  intro s
  apply Commutes.get (by rfl)
  split
  · exact append_outgoing s
  · exact commutes_pure

theorem sendEarly_outgoing : Outgoing prim sent sendEarly := by
  intro s
  apply Commutes.get (by rfl)
  apply Commutes.modify (by rfl)
  exact writeChunks_outgoing _

theorem finished_outgoing : Outgoing prim sent (finished msg) := by
  intro s
  apply (takeFinished_outgoing s).bind
  intro clientApp s₁ _
  apply (sendChange_outgoing s₁).bind
  intro _ s₂ _
  apply (answerRequest_outgoing s₂).bind
  intro _ s₃ _
  apply (sendFinished_outgoing s₃).bind
  intro _ s₄ _
  exact sendEarly_outgoing s₄

theorem updateOwn_outgoing {suite : CipherSuite} :
    Outgoing prim sent (updateOwn suite) := by
  intro s
  apply (writeRecord_outgoing s).bind
  intro _ s' _
  apply Commutes.get (by rfl)
  apply Commutes.unwrap
  intro client _
  apply Commutes.modify (by rfl)
  apply Commutes.lift
  intro cipher _
  exact commutes_modify (by rfl)

theorem keyUpdate_outgoing : Outgoing prim sent (keyUpdate body) := by
  intro s
  apply Commutes.require
  intro _
  apply Commutes.get (by rfl)
  apply Commutes.unwrap
  intro suite _
  apply Commutes.unwrap
  intro server _
  apply Commutes.modify (by rfl)
  apply Commutes.lift
  intro cipher _
  apply Commutes.modify (by rfl)
  split
  · exact updateOwn_outgoing _
  · exact commutes_pure

theorem advance_outgoing {handle : Step prim Unit} {state : State}
    (handles : Outgoing prim sent handle) :
    Outgoing prim sent (advance handle msg state) := by
  intro s
  apply (handles s).bind
  intro _ s' _
  apply (record_outgoing s').bind
  intro _ s'' _
  apply Commutes.modify (by rfl)
  exact commutes_pure

theorem message_outgoing : Outgoing prim sent (message msg) := by
  intro s
  apply Commutes.modify (by rfl)
  apply Commutes.get (by rfl)
  apply Commutes.unwrap
  intro ty _
  apply Commutes.unwrap
  intro body _
  split
  · exact serverHello_outgoing _
  split
  · exact advance_outgoing encryptedExtensions_outgoing _
  split
  · exact advance_outgoing certificateRequest_outgoing _
  split
  · exact advance_outgoing certificate_outgoing _
  split
  · exact advance_outgoing certificateVerify_outgoing _
  split
  · apply (finished_outgoing _).bind
    intro _ _ _
    exact commutes_pure
  split
  · exact commutes_pure
  split
  · apply (keyUpdate_outgoing _).bind
    intro _ _ _
    exact commutes_pure
  · exact commutes_stop

theorem messages_outgoing {fuel : ℕ} : Outgoing prim sent (messages fuel) := by
  induction fuel with
  | zero =>
    intro s
    exact commutes_fault
  | succ fuel ih =>
    intro s
    apply Commutes.get (by rfl)
    split
    · exact commutes_pure
    · apply Commutes.unwrap
      intro len _
      apply Commutes.require
      intro _
      split
      · exact commutes_pure
      · apply Commutes.unwrap
        intro msg _
        apply Commutes.modify (by rfl)
        apply (message_outgoing _).bind
        intro change s' _
        apply Commutes.get (by rfl)
        apply Commutes.require
        intro _
        exact ih s'

theorem handshakeData_outgoing {data : Bytes} :
    Outgoing prim sent (handshakeData data) := by
  intro s
  apply Commutes.modify (by rfl)
  apply Commutes.get (by rfl)
  exact messages_outgoing _

theorem alertRecord_outgoing : Outgoing prim sent (alertRecord body) := by
  intro s
  apply Commutes.unwrap
  intro code _
  split
  · exact commutes_modify (by rfl)
  · exact commutes_stop

theorem unprotect_outgoing {head : Bytes} :
    Outgoing prim sent (unprotect ty head body) := by
  intro s
  apply Commutes.get (by rfl)
  split
  · apply Commutes.require
    intro _
    exact commutes_pure
  · apply Commutes.require
    intro _
    apply Commutes.lift
    rintro ⟨nonce, cipher⟩ _
    apply Commutes.modify (by rfl)
    apply Commutes.lift
    intro plain _
    apply Commutes.lift
    intro last _
    apply Commutes.require
    intro _
    apply Commutes.unwrap
    intro content _
    exact commutes_pure

end EspDevkit.Crypto.Tls
