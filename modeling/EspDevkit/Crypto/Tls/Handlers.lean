import EspDevkit.Crypto.Tls.HandshakeSafety

/-!
# What handlers leave alone

No handler counts a message as taken or closes the connection, and those that are not the
handshake's answers send nothing on a closed one.
-/

namespace EspDevkit.Crypto.Tls

open X509 (Bytes)
open Fallible

variable {prim : Primitives} {s s' : Session prim}

def SameTaken (s s' : Session prim) : Prop := (s'.taken, s'.closing) = (s.taken, s.closing)

instance : IsPreorder (Session prim) SameTaken where
  refl _ := rfl
  trans _ _ _ first second := second.trans first

variable (prim) in
abbrev TakesNone {α : Type} (x : Step prim α) : Prop := ∀ s, Within SameTaken x s

theorem append_takes {bytes : Bytes} : TakesNone prim (append bytes) := fun _ => rfl

theorem writeChunk_takes {ty : UInt8} {chunk : Bytes} : TakesNone prim (writeChunk ty chunk) := by
  intro s
  apply Within.get
  split
  · exact append_takes s
  · dsimp only
    split
    · apply (append_takes s).bind
      intro _ _ _
      exact within_stop
    · apply Within.modify (by rfl)
      split
      · apply (append_takes _).bind
        intro _ _ _
        exact within_stop
      · exact append_takes _

theorem writeChunks_takes {ty : UInt8} {chunks : List Bytes} :
    TakesNone prim (writeChunks ty chunks) := by
  induction chunks with
  | nil =>
    intro s
    exact within_pure
  | cons chunk chunks ih =>
    intro s
    apply (writeChunk_takes s).bind
    intro _ s' _
    exact ih s'

variable {msg body : Bytes}

theorem record_takes : TakesNone prim (record msg) := by
  intro s
  apply Within.get
  apply Within.unwrap
  intro t _
  exact within_modify (by rfl)

theorem sendHandshake_takes : TakesNone prim (sendHandshake msg) := by
  intro s
  apply (record_takes s).bind
  intro _ s' _
  exact writeChunks_takes s'

theorem clientHello_takes {cookie : Option Bytes} : TakesNone prim (clientHello cookie) := by
  intro s
  apply Within.get
  apply Within.unwrap
  rintro ⟨group, share⟩ _
  apply Within.lift
  intro pubkey _
  exact within_pure

theorem helloRetry_takes {group : Option ℕ} {cookie : Option Bytes} :
    TakesNone prim (helloRetry msg group cookie) := by
  intro s
  apply Within.get
  apply Within.require
  intro _
  apply Within.modify (by rfl)
  apply Within.lift
  intro id _
  apply Within.lift
  intro group _
  apply Within.modify (by rfl)
  apply Within.lift
  intro share _
  apply Within.modify (by rfl)
  apply (clientHello_takes _).bind
  intro hello s₁ _
  apply (record_takes s₁).bind
  intro _ s₂ _
  apply (append_takes s₂).bind
  intro _ s₃ _
  apply (append_takes s₃).bind
  intro _ _ _
  exact within_pure

theorem clientCertificate_takes {context : Bytes} {schemes : List ℕ} :
    TakesNone prim (clientCertificate context schemes) := by
  intro s
  apply Within.get
  apply (sendHandshake_takes s).bind
  intro _ s' _
  split
  · exact within_pure
  · apply Within.lift
    intro scheme _
    apply Within.get
    apply Within.unwrap
    intro t _
    apply Within.lift
    intro signature _
    exact sendHandshake_takes s'

theorem takeFinished_takes : TakesNone prim (takeFinished msg) := by
  intro s
  apply Within.get
  apply Within.unwrap
  intro t _
  apply Within.unwrap
  intro server _
  apply Within.modify (by rfl)
  apply Within.unwrap
  intro mac _
  apply Within.require
  intro _
  apply (record_takes _).bind
  intro _ s' _
  apply Within.unwrap
  intro handshake _
  apply Within.modify (by rfl)
  apply Within.unwrap
  intro suite _
  apply Within.lift
  intro cipher _
  apply Within.modify (by rfl)
  exact within_pure

theorem answerRequest_takes : TakesNone prim answerRequest := by
  intro s
  apply Within.get
  split
  · exact within_pure
  · apply Within.modify (by rfl)
    exact clientCertificate_takes _

theorem sendFinished_takes {clientApp : Bytes} : TakesNone prim (sendFinished clientApp) := by
  intro s
  apply Within.get
  apply Within.unwrap
  intro client _
  apply Within.modify (by rfl)
  apply Within.unwrap
  intro t _
  apply (sendHandshake_takes _).bind
  intro _ s' _
  apply Within.unwrap
  intro suite _
  apply Within.lift
  intro cipher _
  exact within_modify (by rfl)

theorem finished_takes : TakesNone prim (finished msg) := by
  intro s
  apply (takeFinished_takes s).bind
  intro clientApp s₁ _
  have change : TakesNone prim sendChange := by
    intro s
    apply Within.get
    split
    · exact append_takes s
    · exact within_pure
  apply (change s₁).bind
  intro _ s₂ _
  apply (answerRequest_takes s₂).bind
  intro _ s₃ _
  apply (sendFinished_takes s₃).bind
  intro _ s₄ _
  apply Within.get
  apply Within.modify (by rfl)
  exact writeChunks_takes _

theorem updateOwn_takes {suite : CipherSuite} : TakesNone prim (updateOwn suite) := by
  intro s
  apply (writeChunks_takes s).bind
  intro _ s' _
  apply Within.get
  apply Within.unwrap
  intro client _
  apply Within.modify (by rfl)
  apply Within.lift
  intro cipher _
  exact within_modify (by rfl)

/-- No message is taken, and a closed connection sends nothing. -/
structure Mute (s s' : Session prim) : Prop where
  taken : s'.taken = s.taken
  closing : s'.closing = s.closing
  tx : s.closing = true → s'.tx = s.tx
  earlyWrites : s.closing = true → s'.earlyWrites = s.earlyWrites

instance : IsPreorder (Session prim) Mute where
  refl _ := ⟨rfl, rfl, fun _ => rfl, fun _ => rfl⟩
  trans _ _ _ first second :=
    ⟨second.taken.trans first.taken, second.closing.trans first.closing,
      fun closing => (second.tx (first.closing.trans closing)).trans (first.tx closing),
      fun closing =>
        (second.earlyWrites (first.closing.trans closing)).trans (first.earlyWrites closing)⟩

theorem Mute.of_eq (taken : s'.taken = s.taken) (closing : s'.closing = s.closing)
    (tx : s'.tx = s.tx) (earlyWrites : s'.earlyWrites = s.earlyWrites) : Mute s s' :=
  ⟨taken, closing, fun _ => tx, fun _ => earlyWrites⟩

theorem record_mute : Within Mute (record msg) s := by
  apply Within.get
  apply Within.unwrap
  intro t _
  exact within_modify (.of_eq rfl rfl rfl rfl)

theorem agree_mute {suite : CipherSuite} {keyShare : Option (ℕ × Bytes)} :
    Within Mute (agree msg suite keyShare) s := by
  apply Within.get
  apply Within.unwrap
  rintro ⟨group, share⟩ _
  apply Within.modify (.of_eq rfl rfl rfl rfl)
  apply Within.lift
  rintro ⟨id, peer⟩ _
  apply Within.require
  intro _
  apply Within.lift
  intro shared _
  apply Within.require
  intro _
  apply record_mute.bind
  intro _ s' _
  apply Within.get
  apply Within.unwrap
  intro t _
  apply Within.lift
  intro cipher _
  apply Within.modify (.of_eq rfl rfl rfl rfl)
  apply Within.lift
  intro cipher _
  apply Within.modify (.of_eq rfl rfl rfl rfl)
  exact within_pure

theorem readExtensions_mute {fuel : ℕ} {exts : Bytes} :
    Within Mute (readExtensions fuel exts) s := by
  induction fuel generalizing exts s with
  | zero => exact within_pure
  | succ fuel ih =>
    change Within Mute (if exts = [] then _ else _) s
    split
    · exact within_pure
    · apply Within.lift
      rintro ⟨id, data, r⟩ _
      apply Within.get
      split
      · exact ih
      split
      · apply Within.lift
        rintro ⟨list, _⟩ _
        apply Within.lift
        rintro ⟨proto, list⟩ _
        apply Within.require
        intro _
        apply Within.modify (.of_eq rfl rfl rfl rfl)
        exact ih
      · exact within_stop

theorem encryptedExtensions_mute : Within Mute (encryptedExtensions body) s := by
  apply Within.lift
  rintro ⟨exts, r⟩ _
  apply Within.require
  intro _
  exact readExtensions_mute

theorem certificateRequest_mute : Within Mute (certificateRequest body) s := by
  apply Within.lift
  intro requested _
  exact within_modify (.of_eq rfl rfl rfl rfl)

theorem certificate_mute : Within Mute (certificate body) s := by
  apply Within.lift
  intro chain _
  apply Within.get
  apply Within.unwrap
  intro first _
  apply Within.lift
  intro leaf _
  apply Within.lift
  intro key _
  apply Within.lift
  intro _ _
  exact within_modify (.of_eq rfl rfl rfl rfl)

theorem certificateVerify_mute : Within Mute (certificateVerify body) s := by
  apply Within.lift
  rintro ⟨scheme, signature⟩ _
  apply Within.get
  apply Within.unwrap
  intro key _
  apply Within.lift
  intro alg _
  apply Within.unwrap
  intro t _
  exact within_require

theorem advance_mute {handle : Step prim Unit} {state : State}
    (handles : Within Mute handle s) : Within Mute (advance handle msg state) s := by
  apply handles.bind
  intro _ s' _
  apply record_mute.bind
  intro _ s'' _
  apply Within.modify (.of_eq rfl rfl rfl rfl)
  exact within_pure

theorem keyUpdate_mute : Within Mute (keyUpdate body) s := by
  apply Within.require
  intro _
  apply Within.get
  apply Within.unwrap
  intro suite _
  apply Within.unwrap
  intro server _
  apply Within.modify (.of_eq rfl rfl rfl rfl)
  apply Within.lift
  intro cipher _
  refine Within.modify (.of_eq rfl rfl rfl rfl) ?_
  split
  · next open_ =>
      have same : Within SameTaken (updateOwn suite) _ := updateOwn_takes
        { s with readCipher := some cipher
                 serverSecret := some (updateSecret prim s.hash server) }
      obtain ⟨taken, closing⟩ := Prod.mk.inj same
      exact ⟨taken, closing, fun closed => absurd (open_.2.symm.trans closed) nofun,
        fun closed => absurd (open_.2.symm.trans closed) nofun⟩
  · exact within_pure

end EspDevkit.Crypto.Tls
