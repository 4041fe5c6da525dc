import EspDevkit.Crypto.Tls.HandshakeSafety
import EspDevkit.Crypto.Tls.Outgoing

/-!
# Records, whatever follows them

A record is handled in the same way whether or not bytes follow it in the buffer and
whatever waits to be sent.
-/

namespace EspDevkit.Crypto.Tls

open List

open X509 (Bytes)
open Fallible

variable {prim : Primitives} {s s' : Session prim} {c c' : Inner prim}

def Inner.more (bytes : Bytes) (c : Inner prim) : Inner prim :=
  { c with rx := c.rx ++ bytes }

variable {bytes : Bytes}

@[simp]
theorem more_session : (c.more bytes).session = c.session := rfl

@[simp]
theorem more_rx : (c.more bytes).rx = c.rx ++ bytes := rfl

@[simp]
theorem more_nil : c.more [] = c := by
  unfold Inner.more
  rw [append_nil]

theorem more_more {first second : Bytes} :
    (c.more first).more second = c.more (first ++ second) := by
  unfold Inner.more
  rw [append_assoc]

theorem slice_append {start stop : ℕ} {data : Bytes} (inside : stop ≤ data.length) :
    slice start stop (data ++ bytes) = slice start stop data := by
  unfold slice
  have longer : stop ≤ (data ++ bytes).length := by
    rw [length_append]
    omega
  simp only [inside, longer, and_true, take_append_of_le_length inside]

theorem commutes_inSession {ε α : Type} {x : Fallible (Session prim) ε α} :
    Commutes (Inner.more bytes) (inSession x) c := rfl

theorem dropRecord_eq {stop : ℕ} (inside : stop ≤ c.rx.length) :
    dropRecord stop c = (.ok (), { c with rx := c.rx.drop stop }) := by
  have sliced := slice_tail inside
  show ((unwrap (slice stop c.rx.length c.rx) >>= fun rest =>
    modify fun c : Inner prim => { c with rx := rest } : Move prim Fatal Unit) c) = _
  rw [sliced]
  rfl

theorem dropRecord_more {stop : ℕ} (inside : stop ≤ c.rx.length) :
    Commutes (Inner.more bytes) (dropRecord stop) c := by
  have longer : stop ≤ (c.rx ++ bytes).length := by
    rw [length_append]
    omega
  unfold Commutes
  rw [dropRecord_eq inside, dropRecord_eq (c := c.more bytes) longer]
  simp only [Inner.more, drop_append_of_le_length inside]

theorem takeRecord_more {content : UInt8} {plainEnd stop : ℕ} (ends : plainEnd ≤ stop)
    (inside : stop ≤ c.rx.length) :
    Commutes (Inner.more bytes) (takeRecord content plainEnd stop) c := by
  have sliced : slice headerLen plainEnd (c.rx ++ bytes) = slice headerLen plainEnd c.rx :=
    slice_append (ends.trans inside)
  unfold takeRecord
  apply Commutes.get
  · simp only [more_session, more_rx, sliced]
    rfl
  apply Commutes.require
  intro _
  split
  · apply Commutes.require
    intro _
    apply Commutes.unwrap
    intro data _
    apply (dropRecord_more inside).bind
    intro _ c' _
    exact commutes_inSession
  split
  · apply Commutes.unwrap
    intro body _
    apply Commutes.require
    intro _
    apply (dropRecord_more inside).bind
    intro _ c' _
    exact commutes_inSession
  split
  · apply Commutes.require
    intro _
    split
    · exact dropRecord_more inside
    · exact commutes_modify rfl
  · exact commutes_stop

def Inner.recordLen (c : Inner prim) : ℕ :=
  LittleEndian.ofBytes (((c.rx.take headerLen).take 5).drop 3).reverse

/-- `next_record`, once the record is all there. -/
def nextWhole (ty : UInt8) (len : ℕ) : Move prim Fatal Bool := do
  let c ← get
  let head := c.rx.take headerLen
  let stop := headerLen + len
  let body ← unwrap (slice headerLen stop c.rx)
  if ty = ContentType.changeCipherSpec then do
    require (c.session.state ≠ .connected ∧ body = [1]) (fatal Alert.unexpectedMessage)
    dropRecord stop
    return true
  else do
    let (content, plain, last) ← inSession (unprotect ty head body)
    modify fun c => { c with rx := head ++ plain ++ c.rx.drop (headerLen + plain.length) }
    takeRecord content (headerLen + last) stop
    return true

theorem nextRecord_short (short : c.rx.length < headerLen) : nextRecord c = (.ok false, c) := by
  show (if c.rx.length < headerLen then pure false else _ : Move prim Fatal Bool) c = _
  rw [if_pos short]
  rfl

theorem nextRecord_eq (long : headerLen ≤ c.rx.length) :
    ∃ ty, c.rx[0]? = some ty ∧ nextRecord c =
      if ¬c.recordLen ≤ maxCipher then (.error (.error (fatal Alert.recordOverflow)), c)
      else if c.rx.length < headerLen + c.recordLen then (.ok false, c)
      else nextWhole ty c.recordLen c := by
  have five : headerLen = 5 := rfl
  have header : (c.rx.take headerLen).length = headerLen := by
    rw [length_take]
    omega
  have head : slice 0 headerLen c.rx = some (c.rx.take headerLen) := by
    rw [slice_some (Nat.zero_le _) long, drop_zero]
  have ty : (c.rx.take headerLen)[0]? = some c.rx[0] := by
    rw [List.getElem?_take_of_lt (by omega), List.getElem?_eq_getElem]
  have len : slice 3 5 (c.rx.take headerLen) = some (((c.rx.take headerLen).take 5).drop 3) :=
    slice_some (by omega) (by omega)
  refine ⟨c.rx[0], List.getElem?_eq_getElem _, ?_⟩
  show (if c.rx.length < headerLen then pure false else _ : Move prim Fatal Bool) c = _
  rw [if_neg (by omega), head]
  show (unwrap (c.rx.take headerLen)[0]? >>= _ : Move prim Fatal Bool) c = _
  rw [ty]
  show (unwrap (slice 3 5 (c.rx.take headerLen)) >>= _ : Move prim Fatal Bool) c = _
  rw [len]
  by_cases fits : c.recordLen ≤ maxCipher
  · rw [if_neg (not_not_intro fits)]
    show (require (c.recordLen ≤ maxCipher) (fatal Alert.recordOverflow) >>= _ :
      Move prim Fatal Bool) c = _
    unfold require
    rw [if_pos fits]
    show (if c.rx.length < headerLen + c.recordLen then pure false else _ :
      Move prim Fatal Bool) c = _
    split
    · rfl
    · rfl
  · rw [if_pos fits]
    show (require (c.recordLen ≤ maxCipher) (fatal Alert.recordOverflow) >>= _ :
      Move prim Fatal Bool) c = _
    unfold require
    rw [if_neg fits]
    rfl

theorem nextWhole_more {ty : UInt8} {len : ℕ} (progress : c.session.Progress)
    (whole : headerLen + len ≤ c.rx.length) :
    Commutes (Inner.more bytes) (nextWhole ty len) c := by
  have sliced : slice headerLen (headerLen + len) (c.rx ++ bytes) =
      slice headerLen (headerLen + len) c.rx := slice_append whole
  have head : (c.rx ++ bytes).take headerLen = c.rx.take headerLen :=
    take_append_of_le_length (by omega)
  unfold nextWhole
  apply Commutes.get
  · simp only [more_session, more_rx, sliced, head]
    rfl
  dsimp only
  apply Commutes.unwrap
  intro body is
  have bodyLength : body.length = len := by
    rw [slice_some (Nat.le_add_right _ _) whole] at is
    cases is
    rw [length_drop, length_take]
    omega
  split
  · apply Commutes.require
    intro _
    apply (dropRecord_more whole).bind
    intro _ _ _
    exact commutes_pure
  · apply commutes_inSession.bind
    rintro ⟨content, plain, last⟩ c' result
    have unprotected : Ensures (unprotect ty (c.rx.take headerLen) body)
        (Unprotected c.session body) c.session.Broken c.session := unprotect_ensures progress
    unfold inSession at result
    unfold Ensures at unprotected
    rcases run : unprotect ty (c.rx.take headerLen) body c.session with ⟨given, s'⟩
    rw [run] at result unprotected
    cases result
    have fits : last ≤ plain.length := unprotected.fits
    have inside : plain.length ≤ len := bodyLength ▸ unprotected.inside
    have head' : (c.rx.take headerLen).length = headerLen := by
      rw [length_take]
      omega
    apply Commutes.modify
    · have inRx : headerLen + plain.length ≤ c.rx.length := by omega
      simp only [Inner.more, drop_append_of_le_length inRx, append_assoc]
    apply (takeRecord_more _ _).bind
    · intro _ _ _
      exact commutes_pure
    · show headerLen + last ≤ headerLen + len
      omega
    · show headerLen + len ≤ (_ ++ plain ++ c.rx.drop (headerLen + plain.length)).length
      rw [length_decrypted head' (by omega)]
      exact whole

theorem true_ne {c : Inner prim} : ((pure true : Move prim Fatal Bool) c).1 ≠ .ok false := nofun

theorem nextWhole_ne {ty : UInt8} {len : ℕ} : (nextWhole ty len c).1 ≠ .ok false := by
  unfold nextWhole
  apply bind_ne
  intro c₁ c₂
  apply bind_ne
  intro body c₃
  split
  · apply bind_ne
    intro _ c₄
    apply bind_ne
    intro _ c₅
    exact true_ne
  · apply bind_ne
    rintro ⟨content, plain, last⟩ c₄
    apply bind_ne
    intro _ c₅
    apply bind_ne
    intro _ c₆
    exact true_ne

/-- The bytes that follow a whole record change nothing. -/
theorem nextRecord_more (progress : c.session.Progress) :
    nextRecord c = (.ok false, c) ∨ Commutes (Inner.more bytes) nextRecord c := by
  by_cases long : headerLen ≤ c.rx.length
  · have longer : headerLen ≤ (c.more bytes).rx.length := by
      rw [more_rx, length_append]
      omega
    have recordLen : (c.more bytes).recordLen = c.recordLen := by
      unfold Inner.recordLen
      rw [more_rx, take_append_of_le_length long]
    obtain ⟨ty, first, eq⟩ := nextRecord_eq long
    obtain ⟨ty', first', eq'⟩ := nextRecord_eq longer
    obtain rfl : ty' = ty := by
      have : 0 < c.rx.length := Nat.lt_of_lt_of_le (by decide) long
      rw [more_rx, List.getElem?_append_left this, first] at first'
      exact (Option.some.inj first').symm
    by_cases fits : c.recordLen ≤ maxCipher
    · by_cases short : c.rx.length < headerLen + c.recordLen
      · rw [if_neg (not_not_intro fits), if_pos short] at eq
        exact .inl eq
      · have longer : ¬(c.more bytes).rx.length < headerLen + c.recordLen := by
          rw [more_rx, length_append]
          omega
        rw [if_neg (not_not_intro fits), if_neg short] at eq
        rw [recordLen, if_neg (not_not_intro fits), if_neg longer] at eq'
        unfold Commutes
        rw [eq, eq']
        exact .inr (nextWhole_more progress (Nat.le_of_not_lt short))
    · rw [if_pos fits] at eq
      rw [recordLen, if_pos fits] at eq'
      unfold Commutes
      rw [eq, eq']
      exact .inr rfl
  · exact .inl (nextRecord_short (Nat.lt_of_not_le long))

theorem nextRecord_room (waits : (nextRecord c).1 = .ok false) : c.rx.length < rxCap := by
  by_cases long : headerLen ≤ c.rx.length
  · obtain ⟨ty, -, eq⟩ := nextRecord_eq long
    rw [eq] at waits
    split at waits
    · cases waits
    next fits =>
      split at waits
      · next short =>
          have := not_not.mp fits
          unfold rxCap
          omega
      · exact absurd waits nextWhole_ne
  · exact Nat.lt_of_lt_of_le (Nat.lt_of_not_le long) (Nat.le_add_right _ _)

def Inner.after (sent : Bytes) (c : Inner prim) : Inner prim :=
  { c with session := c.session.after sent }

variable {sent : Bytes}

theorem inSession_after {ε α : Type} {x : Fallible (Session prim) ε α}
    (outgoing : Commutes (Session.after sent) x c.session) :
    Commutes (Inner.after sent) (inSession x) c := by
  unfold Commutes inSession at *
  simp only [Inner.after, outgoing]

theorem dropRecord_after {stop : ℕ} : Commutes (Inner.after sent) (dropRecord stop) c := by
  apply Commutes.get (by rfl)
  apply Commutes.unwrap
  intro rest _
  exact commutes_modify (by rfl)

theorem takeRecord_after {content : UInt8} {plainEnd stop : ℕ} :
    Commutes (Inner.after sent) (takeRecord content plainEnd stop) c := by
  apply Commutes.get (by rfl)
  apply Commutes.require
  intro _
  split
  · apply Commutes.require
    intro _
    apply Commutes.unwrap
    intro data _
    apply dropRecord_after.bind
    intro _ c' _
    exact inSession_after (handshakeData_outgoing c'.session)
  split
  · apply Commutes.unwrap
    intro body _
    apply Commutes.require
    intro _
    apply dropRecord_after.bind
    intro _ c' _
    exact inSession_after (alertRecord_outgoing c'.session)
  split
  · apply Commutes.require
    intro _
    split
    · exact dropRecord_after
    · exact commutes_modify (by rfl)
  · exact commutes_stop

theorem nextRecord_after : Commutes (Inner.after sent) nextRecord c := by
  apply Commutes.get (by rfl)
  split
  · exact commutes_pure
  · apply Commutes.unwrap
    intro head _
    apply Commutes.unwrap
    intro ty _
    apply Commutes.unwrap
    intro len _
    apply Commutes.require
    intro _
    split
    · exact commutes_pure
    · apply Commutes.unwrap
      intro body _
      split
      · apply Commutes.require
        intro _
        apply dropRecord_after.bind
        intro _ _ _
        exact commutes_pure
      · apply (inSession_after (unprotect_outgoing c.session)).bind
        rintro ⟨content, plain, last⟩ c' _
        apply Commutes.modify (by rfl)
        apply takeRecord_after.bind
        intro _ _ _
        exact commutes_pure

end EspDevkit.Crypto.Tls
