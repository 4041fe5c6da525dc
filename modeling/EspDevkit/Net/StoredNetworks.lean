import EspDevkit.Crypto.Primitives
import Mathlib.Data.List.MinMax
import Mathlib.Data.List.FinRange

/-!
# Saved networks in flash

The networks a device has joined, each in a slot of its own, sealed with a key
derived from the factory MAC.
-/

namespace EspDevkit.Net.WifiManager

open Crypto LittleEndian

def asBytes (s : String) : List UInt8 := s.toByteArray.data.toList

structure Saved where
  ssid : List UInt8
  /-- Empty for an open network. -/
  password : String
  hidden : Bool
  /-- Higher joined more recently. -/
  seq : BitVec 32
  ssid_lt : ssid.length < 256
  password_lt : (asBytes password).length < 256
  deriving DecidableEq

def hiddenFlag : UInt8 := 0x01
def pskFlag : UInt8 := 0x02

namespace Saved

def flags (s : Saved) : UInt8 :=
  (if s.hidden then hiddenFlag else 0) ||| (if (asBytes s.password).isEmpty then 0 else pskFlag)

def encode (s : Saved) : List UInt8 :=
  let password := asBytes s.password
  UInt8.ofNat s.ssid.length ::
    (s.ssid ++ s.flags :: UInt8.ofNat password.length :: (password ++ toBytes 4 s.seq.toNat))

/-- What follows the SSID: the flags, the password and the order number. -/
def decodeRest (ssid : List UInt8) (ssid_lt : ssid.length < 256) : List UInt8 → Option Saved
  | flags :: passwordLen :: rest =>
    if passwordLen.toNat ≤ rest.length then
      let password := (rest.take passwordLen.toNat)
      let seq := rest.drop passwordLen.toNat
      if seq.length = 4 then
        if valid : password.toByteArray.IsValidUTF8 then
          if (flags &&& pskFlag ≠ 0 ↔ password = []) then none
          else
            some
              { ssid
                password := .fromUTF8 password.toByteArray valid
                hidden := decide (flags &&& hiddenFlag ≠ 0)
                seq := BitVec.ofNat 32 (ofBytes seq)
                ssid_lt
                password_lt := by
                  have small := passwordLen.toNat_lt
                  change password.toByteArray.data.toList.length < 256
                  rw [List.toList_data_toByteArray, List.length_take]
                  omega }
        else none
      else none
    else none
  | _ => none

def decode : List UInt8 → Option Saved
  | ssidLen :: rest =>
    if ssidLen.toNat ≤ rest.length then
      decodeRest (rest.take ssidLen.toNat)
        (by have := ssidLen.toNat_lt; rw [List.length_take]; omega)
        (rest.drop ssidLen.toNat)
    else none
  | [] => none

theorem flags_hidden (s : Saved) : s.flags &&& hiddenFlag ≠ 0 ↔ s.hidden := by
  cases hidden : s.hidden <;> by_cases open' : (asBytes s.password).isEmpty <;>
    simp [flags, hidden, open', hiddenFlag, pskFlag] <;> decide

theorem flags_psk (s : Saved) : s.flags &&& pskFlag ≠ 0 ↔ asBytes s.password ≠ [] := by
  cases hidden : s.hidden <;> by_cases open' : asBytes s.password = [] <;>
    simp [flags, hidden, open', hiddenFlag, pskFlag] <;> decide

theorem fromUTF8_asBytes (s : String) (valid : (asBytes s).toByteArray.IsValidUTF8) :
    String.fromUTF8 (asBytes s).toByteArray valid = s := by
  apply String.toByteArray_inj.mp
  change (asBytes s).toByteArray = s.toByteArray
  apply ByteArray.ext
  rw [List.data_toByteArray]
  simp [asBytes]

theorem decodeRest_encode (s : Saved) :
    decodeRest s.ssid s.ssid_lt
      (s.flags :: UInt8.ofNat (asBytes s.password).length ::
        (asBytes s.password ++ toBytes 4 s.seq.toNat)) = some s := by
  have length : (UInt8.ofNat (asBytes s.password).length).toNat = (asBytes s.password).length := by
    rw [UInt8.toNat_ofNat']
    exact Nat.mod_eq_of_lt s.password_lt
  have valid : (asBytes s.password).toByteArray.IsValidUTF8 := by
    have same : (asBytes s.password).toByteArray = s.password.toByteArray := by
      apply ByteArray.ext
      rw [List.data_toByteArray]
      simp [asBytes]
    rw [same]
    exact s.password.isValidUTF8
  have read : BitVec.ofNat 32 (ofBytes (toBytes 4 s.seq.toNat)) = s.seq := by
    rw [ofBytes_toBytes_of_lt s.seq.isLt]
    simp
  simp only [decodeRest, length, List.length_append, length_toBytes, List.take_left,
    List.drop_left]
  have hidden := Bool.eq_iff_iff.mpr (decide_eq_true_iff.trans s.flags_hidden)
  rw [if_pos (Nat.le_add_right _ _), if_pos trivial, dif_pos valid, if_neg]
  · simp only [hidden, read, fromUTF8_asBytes]
  · rw [flags_psk]
    simp

theorem decode_encode (s : Saved) : decode s.encode = some s := by
  have length : (UInt8.ofNat s.ssid.length).toNat = s.ssid.length := by
    rw [UInt8.toNat_ofNat']
    exact Nat.mod_eq_of_lt s.ssid_lt
  simp only [encode, decode, length, List.length_append, List.take_left, List.drop_left]
  rw [if_pos (Nat.le_add_right _ _)]
  exact decodeRest_encode s

end Saved

def version : UInt8 := 1
def tagLen : ℕ := 8

structure Cipher where
  key : List UInt8
  tagKey : BitVec 64 × BitVec 64

namespace Cipher

/-- The two words of the domain, `devkit_n` and `wifi_mgr`. -/
def domain : BitVec 64 × BitVec 64 :=
  (BitVec.ofNat 64 (ofBytes (asBytes "devkit_n")), BitVec.ofNat 64 (ofBytes (asBytes "wifi_mgr")))

def new (mac : Vector UInt8 6) : Cipher :=
  let word (i : ℕ) := siphash domain.1 domain.2 (mac.toList ++ [UInt8.ofNat i])
  { key := (List.range 4).flatMap fun i => toBytes 8 (word i).toNat
    tagKey := (word 4, word 5) }

def tag (cipher : Cipher) (body : List UInt8) : List UInt8 :=
  toBytes tagLen (siphash cipher.tagKey.1 cipher.tagKey.2 body).toNat

def seal' (cipher : Cipher) (plain : List UInt8) (nonce : Vector UInt8 12) : List UInt8 :=
  let out := version :: (nonce.toList ++ chacha20 cipher.key nonce.toList 1 plain)
  out ++ cipher.tag out

/-- `none` when sealed by another chip, by another version, or damaged. -/
def open' (cipher : Cipher) (blob : List UInt8) : Option (List UInt8) :=
  if blob.length < 1 + 12 + tagLen ∨ blob.head? ≠ some version then none
  else
    let body := blob.take (blob.length - tagLen)
    if cipher.tag body ≠ blob.drop (blob.length - tagLen) then none
    else
      let nonce := (body.drop 1).take 12
      some (chacha20 cipher.key nonce 1 (body.drop 13))

theorem open_seal (cipher : Cipher) (plain : List UInt8) (nonce : Vector UInt8 12) :
    cipher.open' (cipher.seal' plain nonce) = some plain := by
  have tagLength : ∀ body, (cipher.tag body).length = tagLen := fun body => length_toBytes _ _
  have nonceLength : nonce.toList.length = 12 := by simp
  generalize body : version :: (nonce.toList ++ chacha20 cipher.key nonce.toList 1 plain) = out
  have long : 13 ≤ out.length := by
    simp only [← body, List.length_cons, List.length_append, nonceLength]
    omega
  have head : (out ++ cipher.tag out).head? = some version := by
    rw [← body]
    rfl
  have length : (out ++ cipher.tag out).length - tagLen = out.length := by
    rw [List.length_append, tagLength, Nat.add_sub_cancel]
  simp only [seal', body, open', length, List.take_left, List.drop_left, head]
  rw [if_neg, if_neg (by simp)]
  · have start : (out.drop 1).take 12 = nonce.toList := by
      rw [← body]
      simp only [List.drop_succ_cons, List.drop_zero]
      rw [List.take_append_of_le_length (by omega), List.take_of_length_le (by omega)]
    have rest : out.drop 13 = chacha20 cipher.key nonce.toList 1 plain := by
      rw [← body]
      simp only [List.drop_succ_cons]
      rw [List.drop_append_of_le_length (by omega), List.drop_of_length_le (by omega),
        List.nil_append]
    rw [start, rest, chacha20_chacha20]
  · rw [List.length_append, tagLength]
    simp only [ne_eq, not_true, or_false]
    omega

end Cipher

abbrev Slot := Fin 5

abbrev Nvs := Slot → Option (List UInt8)

def readSlot (cipher : Cipher) (value : Option (List UInt8)) : Option Saved :=
  value.bind fun blob => (cipher.open' blob).bind Saved.decode

def load (cipher : Cipher) (nvs : Nvs) : Slot → Option Saved := fun slot =>
  readSlot cipher (nvs slot)

/-- A change of the flash, decided but not made yet. -/
structure Write where
  slot : Slot
  blob : Option (List UInt8)

namespace Write

def put (cipher : Cipher) (nonce : Vector UInt8 12) (slot : Slot) (saved : Saved) : Write :=
  { slot, blob := some (cipher.seal' saved.encode nonce) }

def erase (slot : Slot) : Write := { slot, blob := none }

def change (write : Write) : Slot × Option (List UInt8) := (write.slot, write.blob)

end Write

/-- How a write ends: it is made; nothing of it is, as the namespace does not
open, the value is refused or the thread to make it does not start; or it is
made or not, and not committed. -/
inductive Outcome
  | ok
  | refused
  | uncommitted (stored : Bool)
  deriving DecidableEq

/-- The flash after the write, and whether `apply` returned without error. -/
def Write.apply (write : Write) (outcome : Outcome) (nvs : Nvs) : Nvs × Bool :=
  let written := Function.update nvs write.slot write.blob
  match outcome with
  | .ok => (written, true)
  | .refused => (nvs, false)
  | .uncommitted stored => (if stored then written else nvs, false)

theorem readSlot_put (cipher : Cipher) (nonce : Vector UInt8 12) (slot : Slot) (saved : Saved) :
    readSlot cipher (Write.put cipher nonce slot saved).blob = some saved := by
  simp [readSlot, Write.put, Cipher.open_seal, Saved.decode_encode]

theorem Write.apply_other {write : Write} {outcome : Outcome} {nvs : Nvs} {slot : Slot}
    (other : slot ≠ write.slot) : (write.apply outcome nvs).1 slot = nvs slot := by
  cases outcome with
  | ok => exact Function.update_of_ne other _ _
  | refused => rfl
  | uncommitted stored =>
    cases stored
    · rfl
    · exact Function.update_of_ne other _ _

end EspDevkit.Net.WifiManager

/-!
## The Wi-Fi manager

The saved networks in memory, and the calls that change them: each takes a
snapshot of a slot under the lock and makes its write to the flash after it has
let go of it.  The calls run on tasks of their own, so that a system here is
what the lock guards, the flash, and the calls under way with the step each has
come to.
-/

namespace EspDevkit.Net.WifiManager

structure Inner where
  slots : Slot → Option Saved
  enabled : Bool
  paused : Bool
  /-- Of the network joined last through the manager. -/
  connected : Option (List UInt8)
  authFailures : List (List UInt8 × ℕ)

namespace Inner

def find (inner : Inner) (ssid : List UInt8) : Option Slot :=
  (List.finRange 5).find? fun i => (inner.slots i).any fun s => decide (s.ssid = ssid)

def nextSeq (inner : Inner) : BitVec 32 :=
  (((List.finRange 5).filterMap inner.slots).map fun s => s.seq.toNat).max?.elim 0 fun seq =>
    BitVec.ofNat 32 (seq + 1)

/-- The slot of the network, else a free one, else the one joined longest
ago. -/
def slotFor (inner : Inner) (ssid : List UInt8) : Slot :=
  (((inner.find ssid).or ((List.finRange 5).find? fun i => (inner.slots i).isNone)).or
    ((List.finRange 5).argmin fun i => (inner.slots i).elim 0 fun s => s.seq.toNat)).getD 0

def noteAuthFailure (inner : Inner) (ssid : List UInt8) : Inner :=
  let failures := inner.authFailures
  { inner with
    authFailures :=
      match failures.findIdx? fun f => decide (f.1 = ssid) with
      | some i => failures.modify i fun f => (f.1, min (f.2 + 1) 255)
      | none => failures ++ [(ssid, 1)] }

def clearAuthFailures (inner : Inner) (ssid : List UInt8) : Inner :=
  { inner with authFailures := inner.authFailures.filter fun f => decide (f.1 ≠ ssid) }

def put (inner : Inner) (slot : Slot) (saved : Option Saved) : Inner :=
  { inner with slots := Function.update inner.slots slot saved }

end Inner

def isAsciiHexdigit (c : UInt8) : Bool :=
  (0x30 ≤ c && c ≤ 0x39) || (0x41 ≤ c && c ≤ 0x46) || (0x61 ≤ c && c ≤ 0x66)

def validPassword (password : String) : Bool :=
  let b := asBytes password
  b.isEmpty ||
    (8 ≤ b.length && b.length ≤ 63 && b.all fun c => 0x20 ≤ c && c ≤ 0x7e) ||
    (b.length = 64 && b.all isAsciiHexdigit)

def validSsid (ssid : List UInt8) : Bool :=
  1 ≤ ssid.length && ssid.length ≤ 32

theorem validPassword_lt {password : String} (valid : validPassword password) :
    (asBytes password).length < 256 := by
  simp only [validPassword, Bool.or_eq_true, Bool.and_eq_true, decide_eq_true_eq,
    List.isEmpty_iff] at valid
  rcases valid with (empty | ⟨⟨_, short⟩, _⟩) | ⟨exact', _⟩
  · simp [empty]
  · omega
  · omega

theorem validSsid_lt {ssid : List UInt8} (valid : validSsid ssid) : ssid.length < 256 := by
  simp only [validSsid, Bool.and_eq_true, decide_eq_true_eq] at valid
  omega

inductive Task
  /-- A join waits for the radio or for the access point. -/
  | joining (saved : Saved) (automatic : Bool)
  /-- A snapshot was taken, and its write is not made yet; afterwards, a
  network that was forgotten may have to be left. -/
  | writing (write : Write) (leaves : Bool)
  | leaving

def Task.write? : Task → Option Write
  | .writing write _ => some write
  | _ => none

structure System where
  cipher : Cipher
  inner : Inner
  nvs : Nvs
  /-- The calls under way, by the last time they held the lock. -/
  tasks : List Task

namespace System

/-- What `load` makes of the flash, which it may not be able to read. -/
def start (cipher : Cipher) (nvs : Nvs) (readable enabled : Bool) : System :=
  { cipher
    inner :=
      { slots := if readable then load cipher nvs else fun _ => none
        enabled
        paused := false
        connected := none
        authFailures := [] }
    nvs
    tasks := [] }

/-- What happens in the manager: calls, and what becomes of those under way. -/
inductive Event
  | add (ssid : List UInt8) (password : String) (hidden : Bool) (nonce : Vector UInt8 12)
  | forget (ssid : List UInt8)
  | join (ssid : List UInt8) (password : String) (hidden : Bool)
  | joinSaved (ssid : List UInt8)
  /-- The joining loop takes up a saved network. -/
  | attempt (slot : Slot)
  | joined (task : ℕ) (nonce : Vector UInt8 12)
  | failed (task : ℕ) (authFailed : Bool)
  | apply (task : ℕ) (outcome : Outcome)
  | left (task : ℕ)
  | dropped (task : ℕ)
  | setEnabled (enabled : Bool)
  | disconnect
  | reconnect

def without (s : System) (task : ℕ) : List Task := s.tasks.take task ++ s.tasks.drop (task + 1)

/-- `remember` and `add` put a network in its slot. -/
def save (s : System) (nonce : Vector UInt8 12) (saved : Saved) : System :=
  let slot := s.inner.slotFor saved.ssid
  let saved := { saved with seq := s.inner.nextSeq }
  { s with
    inner := (s.inner.clearAuthFailures saved.ssid).put slot (some saved)
    tasks := s.tasks ++ [.writing (.put s.cipher nonce slot saved) false] }

/-- `join_with`, up to where it waits. -/
def joinWith (s : System) (saved : Saved) : System :=
  if s.inner.enabled then
    { s with
      inner := { s.inner with paused := false }.clearAuthFailures saved.ssid
      tasks := s.tasks ++ [.joining saved false] }
  else s

/-- `none` where the event cannot come. -/
def step (s : System) : Event → Option System
  | .add ssid password hidden nonce =>
    if valid : validSsid ssid ∧ validPassword password then
      some (s.save nonce
        { ssid, password, hidden, seq := 0
          ssid_lt := validSsid_lt valid.1, password_lt := validPassword_lt valid.2 })
    else some s
  | .forget ssid =>
    match s.inner.find ssid with
    | none => some s
    | some slot =>
      let current := decide (s.inner.connected = some ssid)
      some
        { s with
          inner := (s.inner.clearAuthFailures ssid).put slot none
          tasks := s.tasks ++ [.writing (.erase slot) current] }
  | .join ssid password hidden =>
    if valid : validSsid ssid ∧ validPassword password then
      some (s.joinWith
        { ssid, password, hidden, seq := 0
          ssid_lt := validSsid_lt valid.1, password_lt := validPassword_lt valid.2 })
    else some s
  | .joinSaved ssid =>
    match (s.inner.find ssid).bind s.inner.slots with
    | none => some s
    | some saved => some (s.joinWith saved)
  | .attempt slot =>
    if s.inner.enabled && !s.inner.paused then
      (s.inner.slots slot).map fun saved => { s with tasks := s.tasks ++ [.joining saved true] }
    else none
  | .joined task nonce =>
    match s.tasks[task]? with
    | some (.joining saved _) =>
      let s := { s with tasks := s.without task }.save nonce saved
      some { s with inner := { s.inner with connected := some saved.ssid } }
    | _ => none
  | .failed task authFailed =>
    match s.tasks[task]? with
    | some (.joining saved automatic) =>
      let inner := if automatic && authFailed then s.inner.noteAuthFailure saved.ssid else s.inner
      some { s with inner, tasks := s.without task }
    | _ => none
  | .apply task outcome =>
    match s.tasks[task]? with
    | some (.writing write leaves) =>
      let (nvs, ok) := write.apply outcome s.nvs
      let tasks := s.without task ++ if ok && leaves then [.leaving] else []
      some { s with nvs, tasks }
    | _ => none
  | .left task =>
    match s.tasks[task]? with
    | some .leaving =>
      some { s with inner := { s.inner with connected := none }, tasks := s.without task }
    | _ => none
  | .dropped task =>
    match s.tasks[task]? with
    | some (.joining _ _) | some .leaving => some { s with tasks := s.without task }
    | _ => none
  | .setEnabled enabled =>
    some { s with
      inner :=
        { s.inner with
          enabled
          paused := false
          connected := if enabled then s.inner.connected else none } }
  | .disconnect => some { s with inner := { s.inner with paused := true, connected := none } }
  | .reconnect => some { s with inner := { s.inner with paused := false, authFailures := [] } }

def pending (tasks : List Task) : List Write := tasks.filterMap Task.write?

end System

end EspDevkit.Net.WifiManager
