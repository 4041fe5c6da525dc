import EspDevkit.Audio.OpusInverse
import Mathlib.Tactic.IntervalCases

/-!
# The packet that the encoder ends

The last bits keep the code in the span whatever comes behind them, so that raw bits may share
their byte.
-/

namespace EspDevkit.Audio.Opus

open RangeCode BigEndian Rc List Option

namespace Ec

variable {ec next : Ec} {low : ℕ}

variable (ec) in
theorem lastCode_spec {l : ℕ} (few : l ≤ 31) :
    ec.val ≤ ec.lastCode l ∧ ec.lastCode l < ec.val + 2 ^ (31 - l) ∧ 2 ^ (31 - l) ∣ ec.lastCode l ∧
      ec.lastCode l ||| (Opus.top - 1) >>> l = ec.lastCode l + (2 ^ (31 - l) - 1) := by
  have some_ := Nat.two_pow_pos (31 - l)
  have mask : (Opus.top - 1) >>> l = 2 ^ (31 - l) - 1 := by
    have power : Opus.top = 2 ^ l * 2 ^ (31 - l) := by
      rw [← pow_add, Nat.add_sub_cancel' few]
      rfl
    rw [Nat.shiftRight_eq_div_pow, power]
    exact (Nat.mul_sub_div 0 _ _ (Nat.mul_pos (Nat.two_pow_pos l) some_)).trans (by simp)
  have less := Nat.mod_lt (ec.val + (2 ^ (31 - l) - 1)) some_
  have whole := Nat.div_add_mod (ec.val + (2 ^ (31 - l) - 1)) (2 ^ (31 - l))
  have aligned := Nat.shiftLeft_add_eq_or_of_lt (Nat.sub_lt some_ Nat.one_pos)
    ((ec.val + (2 ^ (31 - l) - 1)) >>> (31 - l))
  unfold lastCode
  rw [mask, ← aligned, Nat.shiftRight_eq_div_pow, Nat.shiftLeft_eq, Nat.mul_comm]
  exact ⟨by omega, by omega, dvd_mul_right .., rfl⟩

structure Ends (ec : Ec) (l code : ℕ) : Prop where
  few : l ≤ 9
  least : ec.val ≤ code
  less : code + 2 ^ (31 - l) ≤ ec.val + ec.rng
  aligned : 2 ^ (31 - l) ∣ code

theorem Steady.ends (steady : ec.Steady low) : ec.Ends ec.lastBits.1 ec.lastBits.2 := by
  have wide := steady.wide
  have narrow := steady.narrow
  simp only [bot, Opus.top, Nat.shiftLeft_eq, Nat.one_mul] at wide narrow
  obtain ⟨size, sizeEq⟩ : ∃ size, ilog ec.rng = size := ⟨_, rfl⟩
  have many : 23 < size := sizeEq ▸ Nat.lt_size.mpr wide.le
  have few : size ≤ 32 := sizeEq ▸ ilog_le (by omega)
  have most : 2 ^ (size - 1) ≤ ec.rng := Nat.lt_size.mp (show size - 1 < ilog ec.rng by omega)
  obtain ⟨least, -, aligned, all⟩ := ec.lastCode_spec (l := 32 - size) (by omega)
  obtain ⟨least', below', aligned', -⟩ := ec.lastCode_spec (l := 32 - size + 1) (by omega)
  have half : 2 ^ (31 - (32 - size)) = 2 * 2 ^ (31 - (32 - size + 1)) := by
    rw [← pow_succ']
    congr 1
    omega
  have same : 2 ^ (31 - (32 - size)) = 2 ^ (size - 1) := by
    congr 1
    omega
  unfold lastBits
  rw [sizeEq]
  dsimp only
  split
  next => exact ⟨by dsimp only; omega, least', by dsimp only; omega, aligned'⟩
  next fits =>
    rw [all] at fits
    exact ⟨by dsimp only; omega, least, by dsimp only; omega, aligned⟩

theorem aligned_le {j code : ℕ} (few : j ≤ 31) (aligned : 2 ^ j ∣ code) :
    code + 2 ^ j ≤ (code / 2 ^ 31 + 1) * 2 ^ 31 := by
  obtain ⟨places, power⟩ := pow_dvd_pow 2 few
  obtain ⟨place, rfl⟩ := aligned
  have less : place < places * (place / places + 1) :=
    Nat.lt_mul_div_succ place (Nat.pos_of_ne_zero fun zero => by simp [zero] at power)
  rw [power, Nat.mul_div_mul_left _ _ (Nat.two_pow_pos j), ← Nat.mul_succ, Nat.mul_left_comm]
  exact Nat.mul_le_mul_left _ (by rw [Nat.mul_comm]; exact less)

theorem drain_written (n : ℕ) {j code : ℕ} (carries : ec.Carries code (2 ^ j) low)
    (aligned : 2 ^ j ∣ code) (fits : j + 8 * n ≤ 31) (enough : 31 ≤ j + 8 * (n + 1))
    (bounded : code + 2 ^ j ≤ 2 ^ 32) (out : drain (n + 1) code ec = some next) :
    next.Carries 0 (2 ^ j * 256 ^ (n + 1)) (low * 256 ^ (n + 1)) ∧
      next.digits.length = ec.digits.length + (n + 1) ∧ ec.SameEnd next := by
  induction n generalizing ec low code j with
  | zero =>
    obtain ⟨mid, first, rest⟩ := bind_eq_some_iff.mp out
    cases rest
    obtain ⟨there, more, same⟩ := carries.carryOut (Nat.two_pow_pos j) bounded
      (fun _ => aligned_le (by omega) aligned) first
    have scaled : Opus.top ∣ code <<< 8 := by
      rw [Nat.shiftLeft_eq]
      refine (pow_dvd_pow 2 enough).trans ?_
      rw [pow_add]
      exact Nat.mul_dvd_mul_right aligned _
    rw [Nat.mod_eq_zero_of_dvd scaled, Nat.shiftLeft_eq] at there
    exact ⟨there, more, same⟩
  | succ n ih =>
    obtain ⟨mid, first, rest⟩ := bind_eq_some_iff.mp out
    obtain ⟨there, more, same⟩ := carries.carryOut (Nat.two_pow_pos j) bounded
      (fun _ => aligned_le (by omega) aligned) first
    have scaled : 2 ^ (j + 8) ∣ code <<< 8 := by
      rw [Nat.shiftLeft_eq, pow_add]
      exact Nat.mul_dvd_mul_right aligned _
    have divides : 2 ^ (j + 8) ∣ Opus.top := pow_dvd_pow 2 (show j + 8 ≤ 31 by omega)
    have small : code <<< 8 % Opus.top < 2 ^ 31 := Nat.mod_lt _ (by decide)
    have narrow := Nat.pow_le_pow_right (by decide : 0 < 2) (show j + 8 ≤ 31 by omega)
    rw [Nat.shiftLeft_eq (2 ^ j), ← pow_add] at there
    obtain ⟨last, more', same'⟩ := ih there ((Nat.dvd_mod_iff divides).mpr scaled) (by omega)
      (by omega) (by omega) rest
    refine ⟨?_, by omega, same.trans same'⟩
    rw [pow_succ' 256 (n + 1), ← Nat.mul_assoc, ← Nat.mul_assoc]
    rw [pow_add] at last
    exact last

theorem settle_front {val rng : ℕ} (carries : ec.Carries val rng low)
    (out : ec.settle = some next) :
    next.front = ec.digits ∧ ec.SameEnd next ∧
      next.front.length + next.back.length ≤ next.storage := by
  unfold settle at out
  split at out
  next =>
    obtain ⟨wrote, wroteEq, rfl⟩ := map_eq_some_iff.mp out
    obtain ⟨rfl, inside⟩ := writeBytes_eq wroteEq carries.inside
    exact ⟨ec.heldBack_zero, ⟨rfl, rfl, rfl, rfl⟩, inside⟩
  next nothing =>
    cases out
    have none_ : ec.rem = none := by
      cases held : ec.rem with
      | none => rfl
      | some rem => exact absurd (.inl (by rw [held]; rfl)) nothing
    have zero : ec.ext = 0 := Nat.eq_zero_of_not_pos fun some_ => nothing (.inr some_)
    refine ⟨?_, ⟨rfl, rfl, rfl, rfl⟩, carries.inside⟩
    rw [digits, none_, zero]
    simp

theorem number_congr {digit other : ℕ → ℕ} {count : ℕ} (same : ∀ i < count, digit i = other i) :
    number 256 digit count = number 256 other count := by
  induction count with
  | zero => rfl
  | succ count ih =>
    rw [number, number, ih fun i less => same i (less.trans (Nat.lt_succ_self count)),
      same count (Nat.lt_succ_self count)]

theorem byteAt_append {list : List UInt8} (rest : List UInt8) {i : ℕ} (inside : i < list.length) :
    byteAt (list ++ rest) i = byteAt list i := by
  rw [byteAt, byteAt, List.getElem?_append_left inside]

theorem number_byteAt (list : List UInt8) :
    number 256 (byteAt list) list.length = extend 0 list := by
  induction list using List.reverseRecOn with
  | nil => rfl
  | append_singleton list b ih =>
    rw [length_append, length_singleton, number, extend_append, extend_cons, extend_nil,
      ← ih, number_congr fun i inside => byteAt_append [b] inside]
    congr 1
    simp [byteAt]

/-- What a packet holds: the code in front, with less than `2 ^ spare` added to it, and the raw
bits at the end. -/
structure Holds (ec : Ec) (spare : ℕ) (packet : List UInt8) : Prop where
  length : packet.length = ec.storage
  least : extend 0 ec.front ≤ number 256 (byteAt packet) ec.front.length
  less : number 256 (byteAt packet) ec.front.length < extend 0 ec.front + 2 ^ spare
  back : ∀ i < ec.back.length, byteAt packet.reverse i = byteAt ec.back i
  raw : byteAt packet.reverse ec.back.length % 2 ^ ec.nendBits = ec.endWindow

def spaced (ec : Ec) : List UInt8 :=
  ec.front ++ List.replicate (ec.storage - ec.front.length - ec.back.length) 0 ++ ec.back.reverse

section Spaced

variable (inside : ec.front.length + ec.back.length ≤ ec.storage)
include inside

theorem length_spaced : ec.spaced.length = ec.storage := by
  simp [spaced]
  omega

omit inside in
theorem spaced_front {i : ℕ} (less : i < ec.front.length) :
    byteAt ec.spaced i = byteAt ec.front i := by
  rw [spaced, append_assoc, byteAt_append _ less]

omit inside in
theorem spaced_back {i : ℕ} (less : i < ec.back.length) :
    byteAt ec.spaced.reverse i = byteAt ec.back i := by
  rw [spaced, reverse_append, reverse_reverse, byteAt_append _ less]

theorem spaced_between {i : ℕ} (least : ec.front.length ≤ i)
    (less : i < ec.storage - ec.back.length) : byteAt ec.spaced i = 0 := by
  rw [byteAt, spaced, List.getElem?_append_left (by simp; omega),
    List.getElem?_append_right least, List.getElem?_replicate]
  split <;> rfl

end Spaced

theorem number_spaced (ec : Ec) :
    number 256 (byteAt ec.spaced) ec.front.length = extend 0 ec.front := by
  rw [← number_byteAt]
  exact number_congr fun i less => spaced_front less

theorem byteAt_modify (list : List UInt8) (k i : ℕ) (f : UInt8 → UInt8) (inside : k < list.length) :
    byteAt (list.modify k f) i =
      if k = i then (f (list[k]?.getD 0)).toNat else byteAt list i := by
  unfold byteAt
  rw [List.getElem?_modify]
  split
  next eq =>
    subst eq
    rw [List.getElem?_eq_getElem inside]
    rfl
  next => cases list[i]? <;> rfl

theorem byteAt_reverse {list : List UInt8} {i : ℕ} (inside : i < list.length) :
    byteAt list.reverse i = byteAt list (list.length - 1 - i) := by
  rw [byteAt, byteAt, List.getElem?_reverse inside]

theorem lor_window {b : UInt8} {bits window : ℕ} (free : 2 ^ bits ∣ b.toNat) (few : bits < 8)
    (below : window < 2 ^ bits) : (b ||| UInt8.ofNat window).toNat = b.toNat + window := by
  have small : 2 ^ bits ≤ 2 ^ 7 := Nat.pow_le_pow_right (by decide) (by omega)
  obtain ⟨high, eq⟩ := free
  rw [UInt8.toNat_or, UInt8.toNat_ofNat', Nat.mod_eq_of_lt (by omega), eq]
  exact (Nat.two_pow_add_eq_or_of_lt below high).symm

theorem holds_added {spare k : ℕ} {bytes : List UInt8}
    (inside : ec.front.length + ec.back.length ≤ ec.storage)
    (next : k + 1 = ec.storage - ec.back.length) (length : bytes.length = ec.storage)
    (changed : byteAt bytes k = byteAt ec.spaced k + ec.endWindow)
    (same : ∀ i, k ≠ i → byteAt bytes i = byteAt ec.spaced i)
    (own : 2 ^ ec.nendBits ∣ byteAt ec.spaced k)
    (tiny : k < ec.front.length → ec.endWindow < 2 ^ spare)
    (window : ec.endWindow < 2 ^ ec.nendBits) : ec.Holds spare bytes := by
  have added : number 256 (byteAt bytes) ec.front.length = extend 0 ec.front +
      if k < ec.front.length then ec.endWindow else 0 := by
    rw [← number_spaced]
    split
    next shared =>
      have last : ec.front.length = k + 1 := by omega
      rw [last, number, number, changed, number_congr fun i less => same i less.ne', Nat.add_assoc]
    next apart => exact number_congr fun i less => same i (by omega)
  refine ⟨length, by omega, ?_, fun i less => ?_, ?_⟩
  · rw [added]
    split
    next shared => exact Nat.add_lt_add_left (tiny shared) _
    next => exact Nat.lt_add_of_pos_right (Nat.two_pow_pos spare)
  · rw [byteAt_reverse (by omega), length, same _ (by omega), ← length_spaced inside,
      ← byteAt_reverse (by rw [length_spaced inside]; omega), spaced_back less]
  · rw [byteAt_reverse (by omega), length, show ec.storage - 1 - ec.back.length = k by omega,
      changed]
    obtain ⟨high, eq⟩ := own
    rw [eq, Nat.mul_add_mod, Nat.mod_eq_of_lt window]

theorem packet_holds {spare : ℕ} {bytes : List UInt8} (out : ec.packet spare = some bytes)
    (inside : ec.front.length + ec.back.length ≤ ec.storage) (few : spare < 8)
    (free : 2 ^ spare ∣ extend 0 ec.front) (window : ec.endWindow < 2 ^ ec.nendBits)
    (short : ec.nendBits < 8) : ec.Holds spare bytes := by
  have length := length_spaced inside
  unfold packet at out
  dsimp only at out
  split at out
  next none_ =>
    cases out
    rw [none_] at window
    refine ⟨length, (number_spaced ec).ge, ?_, fun i less => spaced_back less, ?_⟩
    · exact number_spaced ec ▸ Nat.lt_add_of_pos_right (Nat.two_pow_pos spare)
    · rw [none_, pow_zero, Nat.mod_one]
      omega
  next some_ =>
    split at out
    next => cases out
    next more =>
      split at out
      next => cases out
      next fits =>
        cases out
        obtain ⟨k, place⟩ : ∃ k, ec.storage - ec.back.length - 1 = k := ⟨_, rfl⟩
        rw [place]
        have inside_ : k < ec.spaced.length := by omega
        obtain ⟨own, tiny⟩ : 2 ^ ec.nendBits ∣ byteAt ec.spaced k ∧
            (k < ec.front.length → ec.nendBits ≤ spare) := by
          rcases Nat.lt_or_ge k ec.front.length with shared | apart
          · have enough : ec.nendBits ≤ spare := by omega
            have last : ec.front.length = k + 1 := by omega
            rw [← number_spaced, last, number] at free
            exact ⟨(pow_dvd_pow 2 enough).trans ((Nat.dvd_add_right
              (Dvd.dvd.mul_left (pow_dvd_pow 2 (show spare ≤ 8 by omega)) _)).mp free),
              fun _ => enough⟩
          · exact ⟨by rw [spaced_between inside apart (by omega)]; exact dvd_zero _, by omega⟩
        refine holds_added (k := k) inside (by omega) ?_ ?_ (fun i other => ?_) own
          (fun shared => window.trans_le (Nat.pow_le_pow_right (by decide) (tiny shared))) window
        · exact (length_modify ..).trans length
        · exact (byteAt_modify ec.spaced k k _ inside_).trans
            ((if_pos rfl).trans (lor_window own short window))
        · exact (byteAt_modify ec.spaced k i _ inside_).trans (if_neg other)

theorem front_eq (packet : List UInt8) : Opus.front packet packet.length = byteAt packet := by
  funext i
  unfold Opus.front byteAt
  split
  next => rfl
  next outside => rw [List.getElem?_eq_none (by omega)]; rfl

theorem back_eq (packet : List UInt8) : Opus.back packet packet.length = byteAt packet.reverse := by
  funext i
  unfold Opus.back byteAt
  split
  next less => rw [List.getElem?_reverse less, Nat.sub_sub, Nat.add_comm 1]
  next outside => rw [List.getElem?_eq_none (by simp; omega)]; rfl

theorem byteAt_lt (list : List UInt8) (i : ℕ) : byteAt list i < 256 := UInt8.toNat_lt _

/-- The code that the bytes in front begin, in the span that the last bits leave. -/
theorem code_within {n l first whole wrote last : ℕ} (bytes : n ≤ 2) (few : l ≤ 8 * n)
    (written : last * 256 ^ n = wrote * 2 ^ 31) (least : wrote ≤ first)
    (less : first < wrote + 2 ^ (8 * n - l)) (begins : whole / 256 ^ (4 - n) = first) :
    last ≤ whole / 2 ∧ whole / 2 < last + 2 ^ (31 - l) := by
  have split : 2 ^ (31 - l) = 2 ^ (8 * n - l) * 2 ^ (31 - 8 * n) := by
    rw [← pow_add]
    congr 1
    omega
  rw [split]
  generalize 2 ^ (8 * n - l) = free at less ⊢
  interval_cases n <;> omega

theorem Ends.drained {l code : ℕ} (ends : ec.Ends l code) (steady : ec.Steady low)
    (out : drain ((l + 7) / 8) code ec = some next) :
    (∃ val rng low, next.Carries val rng low) ∧
      (low + (code - ec.val)) * 256 ^ ((l + 7) / 8) = next.written * 2 ^ 31 ∧
      next.digits.length = ec.digits.length + (l + 7) / 8 ∧ ec.SameEnd next := by
  have least := ends.least
  have less := ends.less
  have bounded := steady.bounded
  have room := steady.carries.room
  have carries : ec.Carries code (2 ^ (31 - l)) (low + (code - ec.val)) :=
    ⟨by rw [steady.carries.eq]; omega, by omega, steady.carries.started, steady.carries.inside⟩
  rcases Nat.eq_zero_or_pos l with rfl | some_
  · cases out
    obtain ⟨place, rfl⟩ := ends.aligned
    obtain rfl : place = 0 := by omega
    refine ⟨⟨_, _, _, carries⟩, ?_, rfl, rfl, rfl, rfl, rfl⟩
    simpa using carries.eq
  · obtain ⟨n, eq⟩ : ∃ n, (l + 7) / 8 = n + 1 := ⟨(l + 7) / 8 - 1, by omega⟩
    have few := ends.few
    rw [eq] at out ⊢
    obtain ⟨there, more, same⟩ :=
      drain_written n carries ends.aligned (by omega) (by omega) (by omega) out
    exact ⟨⟨_, _, _, there⟩, there.eq.trans (Nat.add_zero _), more, same⟩

/-- The packet that an encoder ends lies in its span. -/
theorem Codes.done {stage : Stage} {packet : List UInt8} (codes : ec.Codes stage)
    (out : ec.done = some packet) :
    packet.length = ec.storage ∧ stage.Landed packet packet.length := by
  obtain ⟨drained, drainedEq, rest⟩ := bind_eq_some_iff.mp out
  obtain ⟨settled, settledEq, rest⟩ := bind_eq_some_iff.mp rest
  obtain ⟨flushed, flushedEq, packed⟩ := bind_eq_some_iff.mp rest
  have ends := codes.steady.ends
  generalize ec.lastBits.1 = l at *
  generalize ec.lastBits.2 = code at *
  have few := ends.few
  obtain ⟨⟨_, _, _, carries⟩, written_, more, same⟩ := ends.drained codes.steady drainedEq
  obtain ⟨front_, same', inside⟩ := settle_front carries settledEq
  have raws : settled.Raws stage.raw stage.rawBits := by
    have raws := codes.raws
    have all := same.trans same'
    exact ⟨by rw [all.back, all.endWindow]; exact raws.raw,
      by rw [all.back, all.nendBits]; exact raws.rawBits,
      by rw [all.endWindow, all.nendBits]; exact raws.window⟩
  obtain ⟨raws, kept, inside, short⟩ := flushWindow_raws 4 raws inside flushedEq
  have short := short (by rw [(same.trans same').nendBits]; have := codes.few; omega)
  have whole : extend 0 flushed.front = drained.written := by
    rw [kept.front, front_]
    rfl
  have free : 2 ^ (8 * ((l + 7) / 8) - l) ∣ extend 0 flushed.front := by
    have start : 2 ^ (31 - l) ∣ stage.span.low + (code - ec.val) := by
      have least := ends.least
      rw [codes.steady.carries.eq, show ec.written * 2 ^ 31 + ec.val + (code - ec.val) =
        ec.written * 2 ^ 31 + code by omega]
      exact (Nat.dvd_add_right ((pow_dvd_pow 2 (Nat.sub_le 31 l)).mul_left _)).mpr ends.aligned
    have all := Nat.mul_dvd_mul_right start (256 ^ ((l + 7) / 8))
    rw [written_, show 256 = 2 ^ 8 from rfl, ← pow_mul, ← pow_add, show 31 - l + 8 * ((l + 7) / 8) =
      8 * ((l + 7) / 8) - l + 31 by omega, pow_add] at all
    rw [whole]
    exact Nat.dvd_of_mul_dvd_mul_right (Nat.two_pow_pos 31) all
  have holds := packet_holds packed inside (by omega) free raws.window short
  have storage : packet.length = ec.storage :=
    holds.length.trans (kept.storage.trans (same.trans same').storage)
  refine ⟨storage, ?_, fun e enough => ?_⟩
  · have length : flushed.front.length = ec.digits.length + (l + 7) / 8 := by
      rw [kept.front, front_, more]
    have least := ends.least
    have less := ends.less
    have within := code_within (by omega) (show l ≤ 8 * ((l + 7) / 8) by omega) written_
      (whole ▸ holds.least) (whole ▸ holds.less)
      (number_add_div (byteAt_lt packet) flushed.front.length (4 - (l + 7) / 8))
    have taken : flushed.front.length + (4 - (l + 7) / 8) = stage.taken := by
      rw [codes.taken, length]
      omega
    rw [taken] at within
    unfold Span.Holds Opus.code
    rw [front_eq, codes.rng]
    omega
  · rw [raws.rawBits] at enough ⊢
    have start : rawCode packet packet.length flushed.back.length =
        numberUp 256 (byteAt flushed.back) flushed.back.length := by
      unfold rawCode
      rw [back_eq]
      exact numberUp_congr holds.back
    have below := start ▸ numberUp_lt (byteAt_lt flushed.back) flushed.back.length
    have more : rawCode packet packet.length (flushed.back.length + 1) =
        rawCode packet packet.length flushed.back.length +
          byteAt packet.reverse flushed.back.length * 256 ^ flushed.back.length := by
      unfold rawCode
      rw [numberUp, back_eq]
    have last : rawCode packet packet.length (flushed.back.length + 1) %
        2 ^ (8 * flushed.back.length + flushed.nendBits) = stage.raw := by
      rw [pow_add, pow_mul, show 2 ^ 8 = 256 from rfl, Nat.mod_mul, more,
        Nat.add_mul_mod_self_right, Nat.mod_eq_of_lt below,
        Nat.add_mul_div_right _ _ (Nat.pow_pos (by decide)), Nat.div_eq_of_lt below, Nat.zero_add,
        holds.raw, start, raws.raw]
    rw [← last]
    rcases Nat.lt_or_ge flushed.back.length e with later | early
    · exact Stage.rawCode_mod (by omega) later
    · obtain rfl : e = flushed.back.length := by omega
      exact (Stage.rawCode_mod enough (Nat.le_succ _)).symm

end Ec

theorem Ec.init_codes {storage : ℕ} (small : storage < 2 ^ 32) :
    (Ec.init storage).Codes ⟨⟨0, Opus.top⟩, 4, 0, 0, Nat.one_pos⟩ := by
  refine ⟨⟨⟨?_, ?_, fun _ => rfl, Nat.zero_le _⟩, (by decide : bot < Opus.top), le_rfl,
    (by decide : 0 + Opus.top < 2 ^ 32)⟩, rfl, rfl,
    ⟨rfl, rfl, Nat.one_pos⟩, Nat.zero_le _, small⟩
  · simp [Ec.init, Ec.written, Ec.digits]
  · simp [Ec.init, Ec.ceiling, Opus.top]

theorem new_tracks (packet : List UInt8) :
    ∃ rc, Rc.new packet = some rc ∧ Stage.Tracks packet (packet.length % 2 ^ 32)
      ⟨⟨0, Opus.top⟩, 4, 0, 0, Nat.one_pos⟩ rc := by
  obtain ⟨rc, made, sound, here, rng, val⟩ := new_renews packet
  exact ⟨rc, made, ⟨0, here⟩, sound, rng.symm, val.trans (Nat.zero_add _).symm⟩

namespace Rc

/-- `Rc::new` and the calls. -/
def decodeAll (packet : List UInt8) (list : List Call) : Option (List Symbol × Rc) :=
  (Rc.new packet).bind (calls list)

/-- On every packet, legal calls give symbols with no fault and leave a range that the next one
can divide; and on a packet of the encoder they give the symbols that it wrote. -/
theorem decodes :
    (∀ packet list, (∀ next ∈ list, next.Legal) →
      ∃ symbols rc, decodeAll packet list = some (symbols, rc) ∧
        2 ^ 23 < rc.rng ∧ rc.rng ≤ 2 ^ 31 ∧ rc.val < rc.rng) ∧
    ∀ storage < 2 ^ 32, ∀ list : List (Call × Symbol),
      (∀ item ∈ list, item.1.Legal ∧ item.1.Writes item.2) →
      ∀ packet, encodeAll storage list = some packet →
        ∃ rc, decodeAll packet (list.map Prod.fst) = some (list.map Prod.snd, rc) := by
  refine ⟨fun packet list legal => ?_, fun storage few list legal packet wrote => ?_⟩
  · obtain ⟨rc, made, sound, here, -, -⟩ := new_renews packet
    obtain ⟨symbols, last, ran, safe⟩ := calls_safe list legal ⟨sound, _, _, _, _, _, here⟩
    refine ⟨symbols, last, ?_, safe.1.wide, safe.1.narrow, safe.1.below⟩
    rw [decodeAll, made]
    exact ran
  · obtain ⟨ec, written, ended⟩ := bind_eq_some_iff.mp wrote
    have codes := (Ec.init_codes few).writeAll legal written
    obtain ⟨length, landed⟩ := codes.done ended
    obtain ⟨rc, made, tracks⟩ := new_tracks packet
    rw [Nat.mod_eq_of_lt (length ▸ codes.small)] at tracks
    obtain ⟨last, ran⟩ := tracks.followAll legal landed
    exact ⟨last, by rw [decodeAll, made]; exact ran⟩

/-- A bit of the code and three raw bits share a byte. -/
theorem decodes_shared :
    encodeAll 1 [(.bitLogp 3, .bit true), (.bits 3, .number 5)] = some [229] ∧
      ∃ rc, decodeAll [229] [.bitLogp 3, .bits 3] = some ([.bit true, .number 5], rc) := by
  have wrote : encodeAll 1 [(.bitLogp 3, .bit true), (.bits 3, .number 5)] = some [229] := by
    decide +kernel
  refine ⟨wrote, decodes.2 1 (by decide) _ (fun item member => ?_) _ wrote⟩
  rcases mem_cons.mp member with rfl | member
  · exact ⟨(by decide : 3 < 32), .bitLogp (by decide) (by decide)⟩
  · cases mem_singleton.mp member
    exact ⟨(by decide : 3 ≤ 25), .bits (by decide)⟩

end Rc

end EspDevkit.Audio.Opus
