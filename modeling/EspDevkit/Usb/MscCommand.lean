import EspDevkit.Usb.MscDevice
import Mathlib.Tactic.Linarith

/-!
# One command of a mass storage drive

What `run_command` takes for a good status wrapper, and what it did when it
returns `ESP_OK`.
-/

namespace EspDevkit.Usb.Msc

open LittleEndian List

theorem overlay_eq (buffer bytes : Bytes) :
    overlay buffer bytes = bytes ++ buffer.drop bytes.length := rfl

theorem length_overlay (buffer bytes : Bytes) :
    (overlay buffer bytes).length = max bytes.length buffer.length := by
  rw [overlay_eq, length_append, length_drop]
  omega

theorem take_overlay {buffer bytes : Bytes} {count : ℕ} (le : count ≤ bytes.length) :
    (overlay buffer bytes).take count = bytes.take count := by
  rw [overlay_eq, take_append_of_le_length le]

theorem overlay_all {buffer bytes : Bytes} (le : buffer.length ≤ bytes.length) :
    overlay buffer bytes = bytes := by
  rw [overlay_eq, drop_eq_nil_of_le le, append_nil]

theorem ofBytes_eq_iff {bytes : Bytes} {count value : ℕ} (length : bytes.length = count)
    (fits : value < 256 ^ count) : ofBytes bytes = value ↔ bytes = toBytes count value := by
  constructor
  · intro same
    rw [← same, ← length, toBytes_ofBytes]
  · intro same
    rw [same, ofBytes_toBytes_of_lt fits]

def goodWrapper (tag : BitVec 32) : Bytes :=
  toBytes 4 kCswSignature ++ toBytes 4 tag.toNat ++ toBytes 4 0 ++ [0]

@[simp]
theorem length_goodWrapper (tag : BitVec 32) : (goodWrapper tag).length = kCswBytes := by
  simp [goodWrapper, kCswBytes]

/-- The check at the end of `run_command`. -/
def Csw.Good (csw : Csw) (tag : BitVec 32) : Prop :=
  csw.signature = kCswSignature ∧ csw.tag = tag.toNat ∧ csw.status = 0 ∧ csw.residue = 0

theorem take_wrapper {buffer : Bytes} (long : kCswBytes ≤ buffer.length) :
    buffer.take kCswBytes =
      buffer.take 4 ++ (buffer.drop 4).take 4 ++ (buffer.drop 8).take 4 ++
        [(buffer.drop 12).headD 0] := by
  have last : (buffer.drop 12).take 1 = [(buffer.drop 12).headD 0] := by
    cases rest : buffer.drop 12 with
    | nil =>
      have short := congrArg List.length rest
      simp only [length_drop, length_nil, kCswBytes] at short long
      omega
    | cons byte bytes => rfl
  rw [show kCswBytes = 4 + 4 + 4 + 1 from rfl, take_add, take_add, take_add, last]

theorem good_parse {buffer : Bytes} (long : kCswBytes ≤ buffer.length) (tag : BitVec 32) :
    (Csw.parse buffer).Good tag ↔ buffer.take kCswBytes = goodWrapper tag := by
  rw [kCswBytes] at long
  have signature : (buffer.take 4).length = 4 := by
    rw [length_take]
    omega
  have number : ((buffer.drop 4).take 4).length = 4 := by
    rw [length_take, length_drop]
    omega
  have residue : ((buffer.drop 8).take 4).length = 4 := by
    rw [length_take, length_drop]
    omega
  have tagFits : tag.toNat < 256 ^ 4 := tag.isLt
  rw [take_wrapper long, goodWrapper, Csw.Good]
  simp only [Csw.parse]
  rw [ofBytes_eq_iff signature (by decide), ofBytes_eq_iff number tagFits,
    ofBytes_eq_iff residue (by decide)]
  constructor
  · rintro ⟨first, second, status, third⟩
    rw [first, second, third, status]
  · intro same
    obtain ⟨fields, status⟩ := append_inj' same rfl
    obtain ⟨fields, third⟩ := append_inj' fields (by rw [residue, length_toBytes])
    obtain ⟨first, second⟩ := append_inj' fields (by rw [number, length_toBytes])
    exact ⟨first, second, List.cons.inj status |>.1, third⟩

def Exchange.CutGood (exchange : Exchange) (wrapper : Bytes) : Prop :=
  wrapper.length < kCswBytes ∧ wrapper = (goodWrapper exchange.tag).take wrapper.length ∧
    exchange.left.drop wrapper.length = (goodWrapper exchange.tag).drop wrapper.length

theorem good_overlay {exchange : Exchange} {base : Bytes} (wrapper : Bytes)
    (long : kCswBytes ≤ base.length) (left : exchange.left = base.take kCswBytes) :
    (Csw.parse (overlay base wrapper)).Good exchange.tag ↔
      wrapper.take kCswBytes = goodWrapper exchange.tag ∨ exchange.CutGood wrapper := by
  have grown : kCswBytes ≤ (overlay base wrapper).length := by
    rw [length_overlay]
    omega
  rw [good_parse grown]
  by_cases whole : kCswBytes ≤ wrapper.length
  · rw [take_overlay whole]
    exact ⟨.inl, fun good => good.resolve_right fun cut => Nat.not_le_of_lt cut.1 whole⟩
  have short : wrapper.length < kCswBytes := Nat.lt_of_not_le whole
  have notWhole : wrapper.take kCswBytes ≠ goodWrapper exchange.tag := by
    intro same
    have length := congrArg List.length same
    rw [length_take, length_goodWrapper] at length
    omega
  have split : (overlay base wrapper).take kCswBytes =
      wrapper ++ exchange.left.drop wrapper.length := by
    rw [overlay_eq, take_append, take_of_length_le short.le, left, drop_take]
  rw [or_iff_right notWhole, split]
  conv_lhs => rw [← take_append_drop wrapper.length (goodWrapper exchange.tag)]
  constructor
  · intro same
    obtain ⟨first, second⟩ := append_inj same (by
      rw [length_take, length_goodWrapper]
      omega)
    exact ⟨short, first, second⟩
  · rintro ⟨-, first, second⟩
    rw [second]
    exact congrArg (· ++ _) first

namespace MscBotDevice

variable (drive : Drive) (device : MscBotDevice)

@[simp]
theorem next_cmd : device.next.2.cmd = device.cmd := by
  rw [next]
  split <;> rfl

theorem control_cmd (requestType request : UInt8) (value index : ℕ) :
    device.cmd.length ≤ (device.control requestType request value index).cmd.length := by
  rw [control]
  dsimp only
  rw [length_overlay]
  exact le_max_right _ _

theorem clearHalt_cmd (endpoint : UInt8) :
    device.cmd.length ≤ (device.clearHalt endpoint).cmd.length := by
  rw [clearHalt]
  split
  · rw [next_cmd]
  · exact control_cmd device _ _ _ _

theorem statusStage_cmd : ∃ base : Bytes, device.cmd.length ≤ base.length ∧
    (statusStage drive device).1.cmd = overlay base (statusStage drive device).2.2.1 ∧
      (statusStage drive device).2.2.2 = base.take kCswBytes := by
  have written : ∀ device : MscBotDevice, (statusTransfer drive device).1.cmd =
      overlay device.cmd (statusTransfer drive device).2.2.1 := fun _ => rfl
  have left : ∀ device : MscBotDevice, (statusTransfer drive device).2.2.2 =
      device.cmd.take kCswBytes := fun _ => rfl
  have first := written device
  rw [statusStage]
  split
  · rename_i stalled brought stage
    rw [stage] at first
    dsimp only at first
    refine ⟨_, Nat.le_trans ?_ (clearHalt_cmd stalled drive.bulkIn), written _, left _⟩
    rw [first, length_overlay]
    exact le_max_right _ _
  · exact ⟨device.cmd, le_rfl, first, left device⟩

theorem finish_spec {exchange : Exchange} (err : EspErr)
    (long : kCswBytes ≤ device.cmd.length) (fresh : exchange.wrapper = none) :
    ∃ wrapper left result, (finish drive device exchange err).2 =
        { exchange with wrapper, left, result } ∧
      (result = .OK ↔ err = .OK ∧ ∃ bytes, wrapper = some bytes ∧
        (bytes.take kCswBytes = goodWrapper exchange.tag ∨
          Exchange.CutGood { exchange with wrapper, left, result } bytes)) := by
  obtain ⟨base, grown, written, left⟩ := statusStage_cmd drive device
  rw [finish]
  generalize statusStage drive device = stage at written left
  obtain ⟨after, status, brought, held⟩ := stage
  dsimp only at written left ⊢
  split
  · rename_i failed
    refine ⟨none, exchange.left, status, by rw [← fresh], ?_⟩
    simp [failed]
  · have good := @good_overlay { exchange with left := held } base brought
      (Nat.le_trans long grown) left
    rw [← written] at good
    split
    · rename_i other
      refine ⟨some brought, held, .INVALID_RESPONSE, rfl, ?_⟩
      simp only [reduceCtorEq, Option.some.injEq, exists_eq_left', false_iff, not_and]
      intro _ taken
      have agrees := good.mpr taken
      exact other.elim (absurd agrees.1) (absurd agrees.2.1)
    · rename_i agrees
      rw [not_or, not_not, not_not] at agrees
      split
      · rename_i bad
        refine ⟨some brought, held, .FAIL, rfl, ?_⟩
        simp only [reduceCtorEq, Option.some.injEq, exists_eq_left', false_iff, not_and]
        intro _ taken
        have agrees := good.mpr taken
        exact bad.elim (absurd agrees.2.2.1) (absurd agrees.2.2.2)
      · rename_i fine
        rw [not_or, not_not, not_not] at fine
        refine ⟨some brought, held, err, rfl, ?_⟩
        simp only [Option.some.injEq, exists_eq_left']
        exact ⟨fun ok => ⟨ok, good.mp ⟨agrees.1, agrees.2, fine.1, fine.2⟩⟩, And.left⟩

theorem roundUpTo_of_dvd {bytes unit : ℕ} (positive : 0 < unit) (even : bytes % unit = 0) :
    roundUpTo bytes unit = bytes := by
  obtain ⟨count, rfl⟩ := Nat.dvd_of_mod_eq_zero even
  have pad : unit * count + unit - 1 = unit * count + (unit - 1) := by omega
  rw [roundUpTo, pad, Nat.mul_add_div positive, Nat.div_eq_of_lt (by omega), Nat.add_zero,
    Nat.mul_comm]

theorem length_brought (answer : Answer) (room : ℕ) : (answer.brought room).length ≤ room := by
  rw [Answer.brought]
  split
  · exact length_take_le _ _
  · exact Nat.zero_le _

theorem Drive.dvd_of_borrowable {drive : Drive} {place : Place} {bytes : ℕ}
    (borrowed : drive.borrowable place bytes) : bytes % drive.bulkInMps = 0 := by
  simp only [Drive.borrowable, Bool.and_eq_true, decide_eq_true_eq] at borrowed
  exact borrowed.2

structure Staged (read : Bool) (data after : Bytes) (sent : Option Bytes) (received : Bytes)
    (err : EspErr) : Prop where
  length : after.length = data.length
  sent : ∀ bytes, sent = some bytes → bytes = data
  kept : read = false → after = data
  landed : read = true → err = .OK → data.length ≤ received.length →
    after = received.take data.length

theorem dataStage_staged (place : Place) (data : Bytes) (read : Bool) :
    (dataStage drive device place data read).1.cmd = device.cmd ∧
      Staged read data (dataStage drive device place data read).2.1
        (dataStage drive device place data read).2.2.1
        (dataStage drive device place data read).2.2.2.1
        (dataStage drive device place data read).2.2.2.2 := by
  have cmd := next_cmd device
  have size := length_brought device.next.1 (roundUpTo data.length drive.bulkInMps)
  rw [dataStage]
  generalize device.next = pair at cmd size
  obtain ⟨answer, after⟩ := pair
  dsimp only at cmd size ⊢
  generalize answer.brought (roundUpTo data.length drive.bulkInMps) = received at size ⊢
  cases read with
  | false =>
    refine ⟨cmd, rfl, fun bytes same => (Option.some.inj same).symm, fun _ => rfl, nofun⟩
  | true =>
    simp only [if_true]
    split
    · rename_i borrowed
      rw [roundUpTo_of_dvd drive.bulkInMps_pos (Drive.dvd_of_borrowable borrowed)] at size
      refine ⟨cmd, ?_, nofun, nofun, fun _ _ full => ?_⟩
      · rw [length_overlay]
        exact max_eq_right size
      · rw [overlay_all full, take_of_length_le size]
    · refine ⟨cmd, ?_, nofun, nofun, fun _ ok full => ?_⟩
      · dsimp only
        split
        · rw [length_overlay]
          exact max_eq_right (length_take_le _ _)
        · rfl
      · dsimp only
        have full : data.length ≤ received.length := full
        have copied : ((overlay device.bounce received).take data.length).length =
            data.length := by
          rw [length_take, length_overlay]
          omega
        rw [if_pos ok, overlay_all copied.ge, take_overlay full]

/-- What a command with a data stage did: what it sent and what became of the
caller's buffer, and exactly when it returned `ESP_OK`. -/
structure Ran (command data after : Bytes) (reads : Bool) (exchange : Exchange) : Prop where
  cb : exchange.cb = command
  read : exchange.read = reads
  bytes : exchange.bytes = data.length
  staged : Staged reads data after exchange.sent exchange.received exchange.data
  ok : exchange.result = .OK ↔ exchange.data = .OK ∧ ∃ bytes, exchange.wrapper = some bytes ∧
    (bytes.take kCswBytes = goodWrapper exchange.tag ∨ exchange.CutGood bytes)

theorem runCommand_ran (cb : Bytes) (place : Place) {data : Bytes} (some : data ≠ [])
    (read : Bool) :
    Ran cb data (runCommand drive device cb place data read).2.1 read
      (runCommand drive device cb place data read).2.2 := by
  have some : data.isEmpty = false := by simpa using some
  have long : ∀ tag, kCswBytes ≤ (overlay device.cmd (cbw tag data.length read cb)).length := by
    intro tag
    rw [length_overlay, cbw, kCswBytes]
    simp only [length_append, length_toBytes, length_cons]
    omega
  rw [runCommand]
  dsimp only
  have cmd := next_cmd
    { device with
      tag := device.tag + 1
      cmd := overlay device.cmd (cbw (device.tag + 1) data.length read cb) }
  generalize next _ = pair at cmd ⊢
  obtain ⟨answer, after⟩ := pair
  dsimp only at cmd ⊢
  have nothing : Staged read data data none [] .OK :=
    ⟨rfl, nofun, fun _ => rfl, fun _ _ full =>
      absurd (eq_nil_of_length_eq_zero (Nat.le_zero.mp full)) (by simpa using some)⟩
  split
  · rename_i failed
    exact ⟨rfl, rfl, rfl, nothing, by simp [failed]⟩
  · rw [some]
    simp only [Bool.false_eq_true, if_false]
    obtain ⟨same, staged⟩ := dataStage_staged drive after place data read
    rw [cmd] at same
    generalize dataStage drive after place data read = stage at same staged
    obtain ⟨later, landed, sent, received, err⟩ := stage
    dsimp only at same staged ⊢
    split
    · rename_i failed
      exact ⟨rfl, rfl, rfl, staged, by simp [failed.1]⟩
    · have stays : kCswBytes ≤ (if err = .INVALID_RESPONSE then
          later.clearHalt (if read then drive.bulkIn else drive.bulkOut) else later).cmd.length := by
        have before := long (device.tag + 1)
        rw [← same] at before
        split
        · exact Nat.le_trans before (clearHalt_cmd later _)
        · exact before
      generalize (if err = .INVALID_RESPONSE then
        later.clearHalt (if read then drive.bulkIn else drive.bulkOut) else later) = last at stays ⊢
      have ends := @finish_spec drive last
        ⟨cb, device.tag + 1, read, data.length, sent, err, received, none, [], .FAIL⟩ err stays rfl
      obtain ⟨wrapper, left, result, same, ok⟩ := ends
      rw [same]
      exact ⟨rfl, rfl, rfl, staged, ok⟩

end MscBotDevice

end EspDevkit.Usb.Msc
