import EspDevkit.Crypto.Tls.MessageSteps

/-!
# Records and calls

Messages are put together from records, and records from the bytes that arrive.  Every
index is in bounds and every option that is unwrapped is there, for any bytes of the
peer's.
-/

namespace EspDevkit.Crypto.Tls

open List

open X509 (Bytes)
open Fallible

variable {prim : Primitives} {s s' : Session prim}

theorem Session.Progress.aside (progress : s.Progress) (handshake tx earlyWrites : Bytes)
    (writeCipher : Option RecordCipher) (peerClosed closing : Bool) :
    Session.Progress { s with handshake, tx, earlyWrites, writeCipher, peerClosed, closing } := by
  cases progress with
  | greets greets => exact .greets { greets with }
  | agrees agrees inState => exact .agrees { agrees with } inState
  | connects connects => exact .connects { connects with }

def Session.Handled {α : Type} (s : Session prim) (_ : α) (s' : Session prim) : Prop :=
  s'.Progress ∧ s'.setup = s.setup ∧ s'.failed = s.failed

theorem slice_some {start stop : ℕ} {bytes : Bytes} (order : start ≤ stop)
    (inside : stop ≤ bytes.length) : slice start stop bytes = some ((bytes.take stop).drop start) := by
  simp [slice, order, inside]

/-- Each round takes a whole message, so that there are fewer rounds than bytes. -/
theorem messages_ensures {fuel : ℕ} (progress : s.Progress) (enough : s.handshake.length < fuel) :
    Ensures (messages fuel) s.Handled s.Broken s := by
  induction fuel generalizing s with
  | zero => omega
  | succ fuel ih =>
    have honest := progress.honest
    simp only [messages, ensures_bind, ensures_get]
    split
    · exact ⟨progress, rfl, rfl⟩
    · next long =>
        simp only [ensures_bind]
        apply ensures_unwrap
        · exact slice_some (by omega) (by omega)
        apply ensures_require
        · intro _
          split
          · exact ⟨progress, rfl, rfl⟩
          · next whole =>
              simp only [ensures_bind, ensures_modify, ensures_get]
              apply ensures_unwrap
              · exact slice_some (by omega) (by omega)
              refine (message_ensures (progress.aside _ _ _ _ _ _) ?_).mono ?_ ?_
              · simp only [drop_zero, length_take]
                omega
              · rintro change s₁ ⟨worked, beside⟩
                apply ensures_require
                · intro _
                  refine (ih worked ?_).mono ?_ ?_
                  · rw [beside.handshake]
                    simp only [length_drop]
                    omega
                  · rintro _ s₂ ⟨progress₂, setup, failed⟩
                    exact ⟨progress₂, setup.trans beside.setup, failed.trans beside.failed⟩
                  · rintro _ s₂ ⟨setup, honest⟩
                    exact ⟨setup.trans beside.setup, honest⟩
                · intro _
                  exact ⟨beside.setup, worked.honest⟩
              · rintro _ s₁ ⟨setup, honest⟩
                exact ⟨setup, honest⟩
        · intro _
          exact ⟨rfl, honest⟩

theorem handshakeData_ensures {data : Bytes} (progress : s.Progress) :
    Ensures (handshakeData data) s.Handled s.Broken s := by
  simp only [handshakeData, ensures_bind, ensures_modify, ensures_get]
  exact messages_ensures (progress.aside _ _ _ _ _ _) (Nat.lt_succ_self _)

structure Unprotected (s : Session prim) (body : Bytes) (r : UInt8 × Bytes × ℕ) (s' : Session prim) :
    Prop where
  progress : s'.Progress
  beside : Beside s s'
  fits : r.2.2 ≤ r.2.1.length
  inside : r.2.1.length ≤ body.length
  opened : s'.state = .connected → ∃ h f, s'.Connects h f ∧ s'.setup.Opened h f r.2.1

variable {cipher : RecordCipher} {f : Flight} {h : Hellos} {body : Bytes}

theorem nonce_eq {next : RecordCipher} {nonce : Bytes}
    (counted : cipher.nonce = .ok (nonce, next)) : next = { cipher with seq := cipher.seq + 1 } := by
  unfold RecordCipher.nonce at counted
  dsimp only at counted
  split at counted
  · cases counted
    rfl
  · cases counted

theorem Session.Connects.withCipher (connects : s.Connects h f)
    {next : RecordCipher} {nonce : Bytes} (has : s.readCipher = some cipher)
    (counted : cipher.nonce = .ok (nonce, next)) :
    Session.Connects { s with readCipher := some next } h f := by
  obtain ⟨secret, seq, application, is, read⟩ := connects.keys
  refine { connects with keys := ⟨secret, seq + 1, application, is, ?_⟩ }
  rw [has] at read
  cases read
  rw [nonce_eq counted]

theorem Session.Progress.withCipher (progress : s.Progress) {next : RecordCipher}
    {nonce : Bytes} (has : s.readCipher = some cipher)
    (counted : cipher.nonce = .ok (nonce, next)) :
    Session.Progress { s with readCipher := some next } := by
  cases progress with
  | greets greets => exact .greets { greets with }
  | agrees agrees inState => exact .agrees { agrees with } inState
  | connects connects => exact .connects (connects.withCipher has counted)

theorem openInPlace_length {nonce head plain : Bytes}
    (opened : cipher.openInPlace prim nonce head body = some plain) :
    plain.length ≤ body.length := by
  unfold RecordCipher.openInPlace at opened
  split at opened
  · cases opened
  · obtain ⟨whole, -, rfl⟩ := Option.map_eq_some_iff.mp opened
    rw [length_take]
    omega

/-- A record that the cipher of a connection decrypts is under an application key. -/
theorem Session.Connects.opened (connects : s.Connects h f)
    {next : RecordCipher} {nonce head plain : Bytes} (has : s.readCipher = some cipher)
    (counted : cipher.nonce = .ok (nonce, next))
    (opened : next.openInPlace prim nonce head body = some plain) :
    s.setup.Opened h f plain := by
  obtain ⟨secret, seq, application, -, read⟩ := connects.keys
  rw [nonce_eq counted] at opened
  rw [has] at read
  cases read
  exact ⟨secret, seq, nonce, next, head, body, plain, application, counted, opened, infix_rfl⟩

theorem unprotect_ensures {ty : UInt8} {head : Bytes} (progress : s.Progress) :
    Ensures (unprotect ty head body) (Unprotected s body) s.Broken s := by
  have honest := progress.honest
  simp only [unprotect, ensures_bind, ensures_get]
  split
  · next none =>
      simp only [ensures_bind, ensures_pure]
      apply ensures_require
      · intro _
        refine ⟨progress, Beside.rfl, le_refl _, le_refl _, ?_⟩
        intro connected
        obtain ⟨h, f, connects⟩ := progress.connects_of connected
        obtain ⟨_, _, _, _, read⟩ := connects.keys
        rw [none] at read
        cases read
      · intro _
        exact ⟨rfl, honest⟩
  · next cipher has =>
      simp only [ensures_bind, ensures_modify, ensures_pure]
      apply ensures_require
      · intro _
        apply ensures_lift
        · rintro ⟨nonce, next⟩ counted
          have progress' := progress.withCipher has counted
          apply ensures_lift
          · intro plain opened
            have opened := some_of_orFatal opened
            apply ensures_lift
            · intro last found
              have found := some_of_orFatal found
              have inside := mem_of_find?_eq_some found
              rw [mem_reverse, mem_range] at inside
              apply ensures_require
              · intro _
                apply ensures_unwrap
                · exact List.getElem?_eq_getElem inside
                refine ⟨progress', ⟨rfl, rfl, rfl⟩, inside.le, openInPlace_length opened, ?_⟩
                intro connected
                obtain ⟨h, f, connects⟩ := progress.connects_of connected
                exact ⟨h, f, connects.withCipher has counted, connects.opened has counted opened⟩
              · intro _
                exact ⟨rfl, progress'.honest⟩
            · intro _ _
              exact ⟨rfl, progress'.honest⟩
          · intro _ _
            exact ⟨rfl, progress'.honest⟩
        · intro _ _
          exact ⟨rfl, honest⟩
      · intro _
        exact ⟨rfl, honest⟩

theorem Setup.Opened.part {c : Setup prim} {data part : Bytes}
    (opened : c.Opened h f data) (within : part <:+: data) : c.Opened h f part := by
  obtain ⟨secret, seq, nonce, next, head, body, plain, application, counted, decrypts, inPlain⟩ := opened
  exact ⟨secret, seq, nonce, next, head, body, plain, application, counted, decrypts,
    within.trans inPlain⟩

theorem alertRecord_ensures (progress : s.Progress) (two : body.length = 2) :
    Ensures (alertRecord body) s.Handled s.Broken s := by
  have honest := progress.honest
  simp only [alertRecord, ensures_bind]
  apply ensures_unwrap
  · exact List.getElem?_eq_getElem (by omega)
  split
  · exact ⟨progress.aside _ _ _ _ _ _, rfl, rfl⟩
  · exact ⟨rfl, honest⟩

variable {c c' : Inner prim}

theorem ensures_inSession {ε α : Type} {x : Fallible (Session prim) ε α}
    {post : α → Inner prim → Prop} {stops : ε → Inner prim → Prop} :
    Ensures (inSession x) post stops c ↔
      Ensures x (fun a s => post a { c with session := s }) (fun e s => stops e { c with session := s })
        c.session := by
  unfold Ensures inSession
  dsimp only
  rcases x c.session with ⟨⟨e | _⟩ | a, s⟩ <;> rfl

structure Inner.Pending (c : Inner prim) : Prop where
  some : c.app.1 < c.app.2.1
  content : c.app.2.1 ≤ c.app.2.2
  record : c.app.2.2 ≤ c.rx.length
  connected : c.session.state = .connected
  opened : ∃ h f, c.session.setup.Authenticated h f ∧ (h.messages ++ f.messages) <+: c.session.taken ∧
    c.session.setup.Opened h f ((c.rx.take c.app.2.1).drop c.app.1)

def Inner.Idle (c : Inner prim) : Prop := c.app = (0, 0, 0)

structure Took (c c' : Inner prim) : Prop where
  progress : c'.session.Progress
  setup : c'.session.setup = c.session.setup
  failed : c'.session.failed = c.session.failed
  less : (c'.Idle ∧ c'.rx.length < c.rx.length) ∨ (c'.Pending ∧ c'.rx.length = c.rx.length)

def Inner.Broken (c : Inner prim) (_ : Fatal) (c' : Inner prim) : Prop :=
  c'.session.setup = c.session.setup ∧ c'.session.Honest ∧ c'.Idle

theorem dropRecord_ensures {stop : ℕ} {post : Unit → Inner prim → Prop}
    {stops : Fatal → Inner prim → Prop} (inside : stop ≤ c.rx.length)
    (given : post () { c with rx := c.rx.drop stop }) : Ensures (dropRecord stop) post stops c := by
  simp only [dropRecord, ensures_bind, ensures_get, ensures_modify]
  apply ensures_unwrap
  · exact slice_tail inside
  exact given

theorem takeRecord_ensures {content : UInt8} {plainEnd stop : ℕ} (progress : c.session.Progress)
    (idle : c.Idle) (starts : headerLen ≤ plainEnd) (ends : plainEnd ≤ stop)
    (inside : stop ≤ c.rx.length)
    (opened : c.session.state = .connected → ∃ h f, c.session.Connects h f ∧
      c.session.setup.Opened h f ((c.rx.take plainEnd).drop headerLen)) :
    Ensures (takeRecord content plainEnd stop) (fun _ c' => Took c c') c.Broken c := by
  have honest := progress.honest
  have header : headerLen = 5 := rfl
  have shorter : (c.rx.drop stop).length < c.rx.length := by
    rw [length_drop]
    omega
  simp only [takeRecord, ensures_bind, ensures_get]
  apply ensures_require
  · intro _
    split
    · simp only [ensures_bind]
      apply ensures_require
      · intro _
        apply ensures_unwrap
        · exact slice_some starts (ends.trans inside)
        apply dropRecord_ensures inside
        rw [ensures_inSession]
        apply (handshakeData_ensures progress).mono
        · rintro _ s' ⟨progress', setup, failed⟩
          exact ⟨progress', setup, failed, .inl ⟨idle, shorter⟩⟩
        · rintro _ s' ⟨setup, honest'⟩
          exact ⟨setup, honest', idle⟩
      · intro _
        exact ⟨rfl, honest, idle⟩
    split
    · simp only [ensures_bind]
      apply ensures_unwrap
      · exact slice_some starts (ends.trans inside)
      apply ensures_require
      · intro two
        apply dropRecord_ensures inside
        rw [ensures_inSession]
        apply (alertRecord_ensures progress two).mono
        · rintro _ s' ⟨progress', setup, failed⟩
          exact ⟨progress', setup, failed, .inl ⟨idle, shorter⟩⟩
        · rintro _ s' ⟨setup, honest'⟩
          exact ⟨setup, honest', idle⟩
      · intro _
        exact ⟨rfl, honest, idle⟩
    split
    · simp only [ensures_bind]
      apply ensures_require
      · intro connected
        split
        · apply dropRecord_ensures inside
          exact ⟨progress, rfl, rfl, .inl ⟨idle, shorter⟩⟩
        · next some =>
            obtain ⟨h, f, connects, opens⟩ := opened connected
            obtain ⟨later, taken, -⟩ := connects.taken
            have pending : Inner.Pending { c with app := (headerLen, plainEnd, stop) } := {
              some := by dsimp only; omega
              content := ends
              record := inside
              connected
              opened := ⟨h, f, connects.authenticated, taken ▸ prefix_append _ _, opens⟩ }
            exact ⟨progress, rfl, rfl, .inr ⟨pending, rfl⟩⟩
      · intro _
        exact ⟨rfl, honest, idle⟩
    · exact ⟨rfl, honest, idle⟩
  · intro _
    exact ⟨rfl, honest, idle⟩

theorem length_decrypted {head plain rx : Bytes} (header : head.length = headerLen)
    (inside : headerLen + plain.length ≤ rx.length) :
    (head ++ plain ++ rx.drop (headerLen + plain.length)).length = rx.length := by
  simp only [length_append, length_drop, header]
  omega

theorem content_decrypted {head plain rest : Bytes} {last : ℕ} (header : head.length = headerLen) :
    ((head ++ plain ++ rest).take (headerLen + last)).drop headerLen =
    (plain ++ rest).take last := by
  rw [append_assoc, ← header, take_length_add_append, drop_left]

theorem nextRecord_ensures (progress : c.session.Progress) (idle : c.Idle) :
    Ensures nextRecord (fun more c' => if more then Took c c' else c' = c) c.Broken c := by
  have honest := progress.honest
  simp only [nextRecord, ensures_bind, ensures_get]
  split
  · rfl
  · next some =>
      have header : ((c.rx.take headerLen).drop 0).length = headerLen := by
        rw [drop_zero, length_take]
        omega
      have five : headerLen = 5 := rfl
      simp only [ensures_bind]
      apply ensures_unwrap
      · exact slice_some (Nat.zero_le _) (by omega)
      apply ensures_unwrap
      · exact List.getElem?_eq_getElem (by omega)
      apply ensures_unwrap
      · exact slice_some (by omega) (by omega)
      apply ensures_require
      · intro _
        split
        · rfl
        · next whole =>
            simp only [ensures_bind]
            generalize LittleEndian.ofBytes _ = len at whole ⊢
            apply ensures_unwrap
            · exact slice_some (by omega) (by omega)
            have bodyLength : ((c.rx.take (headerLen + len)).drop headerLen).length = len := by
              rw [length_drop, length_take]
              omega
            split
            · simp only [ensures_bind, ensures_pure]
              apply ensures_require
              · intro _
                apply dropRecord_ensures (by omega)
                have shorter : (c.rx.drop (headerLen + len)).length < c.rx.length := by
                  rw [length_drop]
                  omega
                exact ⟨progress, rfl, rfl, .inl ⟨idle, shorter⟩⟩
              · intro _
                exact ⟨rfl, honest, idle⟩
            · simp only [ensures_bind, ensures_modify, ensures_pure]
              rw [ensures_inSession]
              apply (unprotect_ensures progress).mono
              · rintro ⟨content, plain, last⟩ s' unprotected
                have fits := unprotected.fits
                have inside := unprotected.inside
                rw [bodyLength] at inside
                dsimp only at fits inside ⊢
                let decrypted : Inner prim :=
                  { session := s', app := c.app
                    rx := (c.rx.take headerLen).drop 0 ++ plain ++ c.rx.drop (headerLen + plain.length) }
                have length : decrypted.rx.length = c.rx.length :=
                  length_decrypted header (by omega)
                have setup : decrypted.session.setup = c.session.setup := unprotected.beside.setup
                have idle' : decrypted.Idle := idle
                have opened : decrypted.session.state = .connected →
                    ∃ h f, decrypted.session.Connects h f ∧ decrypted.session.setup.Opened h f
                      ((decrypted.rx.take (headerLen + last)).drop headerLen) := by
                  intro connected
                  obtain ⟨h, f, connects, opens⟩ := unprotected.opened connected
                  refine ⟨h, f, connects, opens.part ?_⟩
                  rw [content_decrypted header, take_append_of_le_length fits]
                  exact (List.take_prefix last plain).isInfix
                have taken : Ensures (takeRecord content (headerLen + last) (headerLen + len))
                    (fun _ c' => Took decrypted c') decrypted.Broken decrypted :=
                  takeRecord_ensures unprotected.progress idle' (Nat.le_add_right _ _) (by omega)
                    (by omega) opened
                apply taken.mono
                · rintro _ c' took
                  have less := took.less
                  rw [length] at less
                  exact ⟨took.progress, took.setup.trans setup,
                    took.failed.trans unprotected.beside.failed, less⟩
                · rintro _ c' ⟨setup', honest', idle''⟩
                  exact ⟨setup'.trans setup, honest', idle''⟩
              · rintro _ s' ⟨setup, honest'⟩
                exact ⟨setup, honest', idle⟩
      · intro _
        exact ⟨rfl, honest, idle⟩

end EspDevkit.Crypto.Tls
