import EspDevkit.Usb.MscCommand

/-!
# Reads and writes of a mass storage drive

The commands of `transfer_chunked` are consecutive pieces of the blocks asked
for, each with its bytes of the caller's buffer.
-/

namespace EspDevkit.Usb.Msc

open LittleEndian List

namespace Exchange

def block (exchange : Exchange) : ℕ := ofBytes ((exchange.cb.drop 2).take 4).reverse

def blocks (exchange : Exchange) : ℕ := ofBytes ((exchange.cb.drop 7).take 2).reverse

/-- A whole status wrapper said that the command went well, and a read brought
all its bytes. -/
def Complete (exchange : Exchange) : Prop :=
  ∃ bytes, exchange.wrapper = some bytes ∧ bytes.take kCswBytes = goodWrapper exchange.tag ∧
    (exchange.read = true → exchange.bytes ≤ exchange.received.length)

/-- The drive cut off a wrapper where the buffer went on as a good one, or sent
a good one for a read that it cut off. -/
def Misled (exchange : Exchange) : Prop :=
  exchange.data = .OK ∧ ∃ bytes, exchange.wrapper = some bytes ∧
    (exchange.CutGood bytes ∨ bytes.take kCswBytes = goodWrapper exchange.tag ∧
      exchange.read = true ∧ exchange.received.length < exchange.bytes)

end Exchange

theorem not_good_of_short {bytes : Bytes} {tag : BitVec 32} (short : bytes.length < kCswBytes) :
    bytes.take kCswBytes ≠ goodWrapper tag := by
  intro same
  have length := congrArg List.length same
  rw [length_take, length_goodWrapper] at length
  omega

open MscBotDevice

theorem complete_iff {command data after : Bytes} {reads : Bool} {exchange : Exchange}
    (ran : Ran command data after reads exchange) :
    (exchange.result = .OK → exchange.Complete) ↔ ¬ exchange.Misled := by
  constructor
  · rintro complete ⟨ok, bytes, wrapper, cut | ⟨good, reading, short⟩⟩
    · obtain ⟨others, same, whole, -⟩ := complete (ran.ok.mpr ⟨ok, bytes, wrapper, .inr cut⟩)
      rw [wrapper] at same
      cases same
      exact not_good_of_short cut.1 whole
    · obtain ⟨-, -, -, full⟩ := complete (ran.ok.mpr ⟨ok, bytes, wrapper, .inl good⟩)
      exact Nat.not_le_of_lt short (full reading)
  · intro honest result
    obtain ⟨ok, bytes, wrapper, good | cut⟩ := ran.ok.mp result
    · refine ⟨bytes, wrapper, good, fun reading => Nat.le_of_not_lt fun short => ?_⟩
      exact honest ⟨ok, bytes, wrapper, .inr ⟨good, reading, short⟩⟩
    · exact absurd ⟨ok, bytes, wrapper, .inl cut⟩ honest

/-- Commands for consecutive pieces from a block on: the buffer before them and
what they make of it. -/
inductive Tiles (drive : Drive) (reads : Bool) : ℕ → Bytes → Bytes → List Exchange → Prop
  | nil (block : ℕ) (buffer : Bytes) : Tiles drive reads block buffer buffer []
  | cons {block : ℕ} {before after piece : Bytes} {exchange : Exchange} {log : List Exchange}
      (first : exchange.block = block) (some : 0 < exchange.blocks)
      (ran : Ran (readWrite10 block exchange.blocks reads)
        (before.take (exchange.blocks * drive.blockSize)) piece reads exchange)
      (rest : Tiles drive reads (block + exchange.blocks)
        (before.drop (exchange.blocks * drive.blockSize)) after log) :
      Tiles drive reads block before (piece ++ after) (exchange :: log)

theorem Tiles.ran {drive : Drive} {reads : Bool} {block : ℕ} {before after : Bytes}
    {log : List Exchange} (tiles : Tiles drive reads block before after log) :
    ∀ exchange ∈ log, ∃ command data after, Ran command data after reads exchange := by
  induction tiles with
  | nil => exact fun _ mem => nomatch mem
  | cons _ _ ran _ ih =>
    rw [forall_mem_cons]
    exact ⟨⟨_, _, _, ran⟩, ih⟩

/-- What a read or a write does: its commands are consecutive pieces from the
first block on, all but the last go well, and if the last does they are all the
blocks. -/
structure Covers (drive : Drive) (reads : Bool) (block count : ℕ) (buffer : Bytes)
    (outcome : Outcome) : Prop where
  tiles : Tiles drive reads block buffer outcome.buffer outcome.log
  sum_le : (outcome.log.map Exchange.blocks).sum ≤ count
  front : ∀ exchange ∈ outcome.log.dropLast, exchange.result = .OK
  last : ∀ exchange ∈ outcome.log.getLast?, exchange.result = outcome.err
  all : outcome.err = .OK → (outcome.log.map Exchange.blocks).sum = count

theorem blocks_readWrite10 {exchange : Exchange} {block count : ℕ} {reads : Bool}
    (cb : exchange.cb = readWrite10 block count reads) (blockFits : block < 2 ^ 32)
    (countFits : count < 2 ^ 16) : exchange.block = block ∧ exchange.blocks = count := by
  have numbers : (toBytes 4 block).length = 4 ∧ (toBytes 2 count).length = 2 := by simp
  constructor
  · have place : (exchange.cb.drop 2).take 4 = (toBytes 4 block).reverse := by
      rw [cb]
      rfl
    rw [Exchange.block, place, reverse_reverse, ofBytes_toBytes_of_lt blockFits]
  · have place : (exchange.cb.drop 7).take 2 = (toBytes 2 count).reverse := by
      rw [cb]
      rfl
    rw [Exchange.blocks, place, reverse_reverse, ofBytes_toBytes_of_lt countFits]

theorem pieceBlocks_bounds (drive : Drive) (place : Place) {count : ℕ} (some : 0 < count) :
    0 < pieceBlocks drive place count ∧ pieceBlocks drive place count ≤ count ∧
      pieceBlocks drive place count ≤ kMaxBlocksPerCommand := by
  have ge := drive.blockSize_ge
  have bounce : 0 < kBounceBytes / drive.blockSize :=
    Nat.div_pos drive.blockSize_le (by omega)
  rw [pieceBlocks]
  generalize kBounceBytes / drive.blockSize = bounceBlocks at bounce ⊢
  rw [kMaxBlocksPerCommand]
  split
  · rename_i small
    omega
  · omega

theorem chunks_covers (drive : Drive) (reads : Bool) {fuel : ℕ} {device : MscBotDevice}
    {place : Place} {buffer : Bytes} {block count : ℕ} (enough : count ≤ fuel)
    (inside : block + count ≤ drive.blockCount) (room : count * drive.blockSize ≤ buffer.length) :
    Covers drive reads block count buffer
        (chunks drive reads fuel device place buffer block count) ∧
      ((chunks drive reads fuel device place buffer block count).log = [] →
        count = 0 ∧ (chunks drive reads fuel device place buffer block count).err = .OK) := by
  induction fuel generalizing device place buffer block count with
  | zero =>
    cases Nat.le_zero.mp enough
    rw [chunks]
    exact ⟨⟨.nil _ _, le_rfl, (fun _ mem => nomatch mem), (fun _ mem => nomatch mem), fun _ => rfl⟩,
       fun _ => ⟨rfl, rfl⟩⟩
  | succ fuel ih =>
    rw [chunks]
    split
    · rename_i none
      subst none
      exact ⟨⟨.nil _ _, le_rfl, (fun _ mem => nomatch mem), (fun _ mem => nomatch mem), fun _ => rfl⟩,
       fun _ => ⟨rfl, rfl⟩⟩
    rename_i some
    obtain ⟨pos, le, fits⟩ := pieceBlocks_bounds drive place (Nat.pos_of_ne_zero some)
    generalize pieceBlocks drive place count = blocks at pos le fits ⊢
    have size := drive.blockSize_ge
    have pieceRoom : blocks * drive.blockSize ≤ count * drive.blockSize :=
      Nat.mul_le_mul_right _ le
    have positive : 0 < blocks * drive.blockSize := Nat.mul_pos pos (by omega)
    have nonempty : buffer.take (blocks * drive.blockSize) ≠ [] := by
      intro empty
      have length := congrArg List.length empty
      rw [length_take, length_nil] at length
      omega
    have ran := runCommand_ran drive device (readWrite10 block blocks reads) place nonempty reads
    dsimp only [transferBlocks]
    generalize runCommand drive device (readWrite10 block blocks reads) place
      (buffer.take (blocks * drive.blockSize)) reads = command at ran ⊢
    obtain ⟨after, piece, exchange⟩ := command
    dsimp only at ran ⊢
    have lt := drive.blockCount_lt
    rw [kMaxBlocksPerCommand] at fits
    obtain ⟨first, number⟩ := blocks_readWrite10 ran.cb (by omega) (by omega)
    subst number
    split
    · rename_i failed
      refine ⟨⟨.cons first pos ran (.nil _ _), by simpa using le, (fun _ mem => nomatch mem), ?_,
        fun ok => absurd ok failed⟩, fun empty => nomatch empty⟩
      rintro _ ⟨⟩
      rfl
    · rename_i went
      have went : exchange.result = .OK := not_not.mp went
      have more := @ih after (place.advance (exchange.blocks * drive.blockSize))
        (buffer.drop (exchange.blocks * drive.blockSize)) (block + exchange.blocks)
        (count - exchange.blocks) (by omega) (by omega) (by
          rw [length_drop, Nat.sub_mul]
          omega)
      generalize chunks drive reads fuel after _ _ _ _ = rest at more ⊢
      obtain ⟨covers, done⟩ := more
      refine ⟨⟨.cons first pos ran covers.tiles, ?_, ?_, ?_, fun ok => ?_⟩,
        fun empty => nomatch empty⟩
      · have le := covers.sum_le
        simp only [map_cons, sum_cons]
        omega
      · cases log : rest.log with
        | nil => exact fun _ mem => nomatch mem
        | cons next later =>
          have front := covers.front
          rw [log] at front
          rw [dropLast_cons_cons, forall_mem_cons]
          exact ⟨went, front⟩
      · cases log : rest.log with
        | nil =>
          rintro _ ⟨⟩
          exact went.trans (done log).2.symm
        | cons next later =>
          have last := covers.last
          rw [log] at last
          rw [List.getLast?_cons_cons]
          exact last
      · have all := covers.all ok
        simp only [map_cons, sum_cons]
        omega

end EspDevkit.Usb.Msc

/-!
## The block device of a drive

Which ranges the block device refuses, and what reads and writes of a mass
storage drive promise.
-/

namespace EspDevkit.Usb.Msc

open MscBotDevice

variable {drive : Drive} {device : MscBotDevice} {place : Place} {buffer : Bytes}

/-- Nothing was put on the bus, and the caller is told. -/
def MscBotDevice.Outcome.Refused (outcome : Outcome) : Prop :=
  outcome.log = [] ∧ outcome.err ≠ .OK

/-- What `transfer_chunked` goes on with. -/
structure Admitted (drive : Drive) (device : MscBotDevice) (place : Place) (block count : ℕ) :
    Prop where
  place : place.address ≠ 0
  some : count ≠ 0
  inside : block + count ≤ drive.blockCount
  present : device.gone = false

theorem refused_of_not_admitted {block count : ℕ} (reads : Bool)
    (outside : ¬ Admitted drive device place block count) :
    (transferChunked drive device place buffer block count reads).Refused ∧
      (transferChunked drive device place buffer block count reads).buffer = buffer := by
  rw [transferChunked]
  split
  · exact ⟨⟨rfl, nofun⟩, rfl⟩
  · rename_i given
    rw [not_or] at given
    split
    · exact ⟨⟨rfl, nofun⟩, rfl⟩
    · rename_i inside
      split
      · exact ⟨⟨rfl, nofun⟩, rfl⟩
      · rename_i present
        exact absurd ⟨given.1, given.2, by omega, by simpa using present⟩ outside

theorem transferChunked_admitted {block count : ℕ} (reads : Bool)
    (admitted : Admitted drive device place block count) :
    transferChunked drive device place buffer block count reads =
      chunks drive reads count device place buffer block count := by
  obtain ⟨given, some, inside, present⟩ := admitted
  rw [transferChunked, if_neg (by simp [given, some]), if_neg (by omega), if_neg (by simp [present])]

theorem transferChunked_covers {block count : ℕ} (reads : Bool)
    (room : count * drive.blockSize ≤ buffer.length) :
    Covers drive reads block count buffer
      (transferChunked drive device place buffer block count reads) := by
  by_cases admitted : Admitted drive device place block count
  · rw [transferChunked_admitted reads admitted]
    exact (chunks_covers drive reads le_rfl admitted.inside room).1
  · obtain ⟨⟨log, err⟩, same⟩ :=
      @refused_of_not_admitted drive device place buffer block count reads admitted
    generalize transferChunked drive device place buffer block count reads = outcome at log err same ⊢
    obtain ⟨after, left, commands, result⟩ := outcome
    dsimp only at log err same
    subst log same
    exact ⟨.nil _ _, Nat.zero_le _, (fun _ mem => nomatch mem), (fun _ mem => nomatch mem),
      fun ok => absurd ok err⟩

theorem refused_iff {block count : ℕ} (reads : Bool)
    (room : count * drive.blockSize ≤ buffer.length) :
    (transferChunked drive device place buffer block count reads).Refused ↔
      ¬ Admitted drive device place block count := by
  constructor
  · rintro ⟨empty, -⟩ admitted
    rw [transferChunked_admitted reads admitted] at empty
    have done : count = 0 ∧ _ := (chunks_covers drive reads le_rfl admitted.inside room).2 empty
    exact admitted.some done.1
  · exact fun outside => (refused_of_not_admitted reads outside).1

/-- A range of the block device that is admitted once its numbers are cut to 32
bits. -/
def CutAdmitted (drive : Drive) (device : MscBotDevice) (place : Place) (addr len : ℕ) : Prop :=
  addr % drive.blockSize = 0 ∧ len % drive.blockSize = 0 ∧
    Admitted drive device place (addr / drive.blockSize % 2 ^ 32) (len / drive.blockSize % 2 ^ 32)

theorem cut_room {len : ℕ} (room : len ≤ buffer.length) :
    len / drive.blockSize % 2 ^ 32 * drive.blockSize ≤ buffer.length :=
  calc len / drive.blockSize % 2 ^ 32 * drive.blockSize
      ≤ len / drive.blockSize * drive.blockSize := Nat.mul_le_mul_right _ (Nat.mod_le _ _)
    _ ≤ len := Nat.div_mul_le_self _ _
    _ ≤ buffer.length := room

theorem blockdevRead_refused_iff (addr : ℕ) {len : ℕ} (room : len ≤ buffer.length) :
    (blockdevRead drive device place buffer addr len).Refused ↔
      ¬ CutAdmitted drive device place addr len := by
  rw [blockdevRead]
  split
  · rename_i uneven
    refine ⟨fun _ cut => ?_, fun _ => ⟨rfl, nofun⟩⟩
    exact uneven.elim (absurd cut.1) (·.elim (absurd cut.2.1) (Nat.not_lt_of_le room))
  · rename_i even
    rw [not_or, not_or, not_not, not_not] at even
    rw [refused_iff true (cut_room room)]
    exact not_congr ⟨fun admitted => ⟨even.1, even.2.1, admitted⟩, fun cut => cut.2.2⟩

theorem blockdevWrite_refused_iff (addr : ℕ) {len : ℕ} (room : len ≤ buffer.length) :
    (blockdevWrite drive device place buffer addr len).Refused ↔
      ¬ CutAdmitted drive device place addr len := by
  rw [blockdevWrite]
  split
  · rename_i uneven
    refine ⟨fun _ cut => ?_, fun _ => ⟨rfl, nofun⟩⟩
    exact uneven.elim (absurd cut.1) (absurd cut.2.1)
  · rename_i even
    rw [not_or, not_not, not_not] at even
    rw [refused_iff false (cut_room room)]
    exact not_congr ⟨fun admitted => ⟨even.1, even.2, admitted⟩, fun cut => cut.2.2⟩

def stick : Drive where
  interface := 0
  bulkIn := 0x81
  bulkOut := 0x02
  bulkInMps := 512
  dmaAlignment := 4
  psramAlignment := 64
  blockSize := 512
  blockCount := 8
  bulkInMps_pos := by decide
  blockSize_ge := by decide
  blockSize_le := by decide
  blockSize_pow := by decide
  blockCount_lt := by decide

def completes (received : Bytes) : Answer := ⟨.OK, false, .Completed, received, .OK⟩

def answering (data wrapper : Bytes) : MscBotDevice where
  tag := 0
  cmd := List.replicate 512 0
  bounce := List.replicate 4096 0
  gone := false
  answers := [completes [], completes data, completes wrapper]

end EspDevkit.Usb.Msc
