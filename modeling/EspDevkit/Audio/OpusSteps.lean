import EspDevkit.Audio.OpusRange
import EspDevkit.Library.RangeCode
import Mathlib.Algebra.Order.Ring.Nat
import Mathlib.Data.Nat.Bitwise
import Mathlib.Tactic.Ring

/-!
# Steps of the range decoder

Whatever the packet holds, a step cuts the range at the place of `val` and renews it with bytes of
the packet.
-/

namespace EspDevkit.Audio.Opus

open RangeCode Option List

section Packet

variable (packet : List UInt8) (storage : ℕ)

/-- What `byte` reads at a place. -/
def front (i : ℕ) : ℕ := if i < storage then (packet[i]?.getD 0).toNat else 0

/-- What `byte_from_end` reads at a place. -/
def back (i : ℕ) : ℕ := if i < storage then (packet[storage - (i + 1)]?.getD 0).toNat else 0

def code (m : ℕ) : ℕ := number 256 (front packet storage) m / 2

def rawCode (e : ℕ) : ℕ := numberUp 256 (back packet storage) e

theorem front_lt (i : ℕ) : front packet storage i < 256 := by
  unfold front
  split
  · exact UInt8.toNat_lt _
  · decide

theorem back_lt (i : ℕ) : back packet storage i < 256 := by
  unfold back
  split
  · exact UInt8.toNat_lt _
  · decide

theorem code_add_div (m k : ℕ) : code packet storage (m + k) / 256 ^ k = code packet storage m := by
  unfold code
  rw [Nat.div_div_eq_div_mul, Nat.mul_comm, ← Nat.div_div_eq_div_mul,
    number_add_div (front_lt packet storage)]

theorem code_succ (m : ℕ) :
    code packet storage (m + 1) = code packet storage m * 256 +
      (number 256 (front packet storage) m % 256 * 256 + front packet storage m) / 2 % 256 := by
  have := front_lt packet storage m
  simp only [code, number]
  omega

end Packet

namespace Rc

variable {packet : List UInt8} {storage m e p : ℕ} {rc : Rc}

/-- The range that every operation leaves. -/
structure Sound (rc : Rc) : Prop where
  wide : bot < rc.rng
  narrow : rc.rng ≤ Opus.top
  below : rc.val < rc.rng

/-- A decoder took `m` bytes in front and `e` at the end, and gave `p` raw bits. -/
structure At (packet : List UInt8) (storage m e p : ℕ) (rc : Rc) : Prop where
  buf : rc.buf = packet
  stored : rc.storage = storage
  inside : storage ≤ packet.length
  offs : rc.offs = min m storage
  rem : rc.rem = number 256 (front packet storage) m % 256
  endOffs : rc.endOffs = min e storage
  endBits : 8 * e = p + rc.nendBits
  few : rc.nendBits ≤ 32
  window : rc.endWindow = rawCode packet storage e / 2 ^ p

namespace At

theorem byte (here : rc.At packet storage m e p) :
    rc.byte = some (front packet storage m, { rc with offs := min (m + 1) storage }) := by
  have inside := here.inside
  have offs := here.offs
  unfold Rc.byte front
  rw [here.stored]
  by_cases more : m < storage
  · rw [if_pos (by omega), if_pos more, here.buf, offs, Nat.min_eq_left more.le,
      List.getElem?_eq_getElem (by omega), Nat.min_eq_left (by omega)]
    rfl
  · rw [if_neg (by omega), if_neg more, show min (m + 1) storage = rc.offs by omega, ← here.stored]

theorem byteFromEnd {endWindow nendBits : ℕ}
    (here : ({ rc with endWindow, nendBits } : Rc).At packet storage m e p) :
    rc.byteFromEnd = some (back packet storage e, { rc with endOffs := min (e + 1) storage }) := by
  have inside := here.inside
  have endOffs : rc.endOffs = min e storage := here.endOffs
  have stored : rc.storage = storage := here.stored
  have buf : rc.buf = packet := here.buf
  unfold Rc.byteFromEnd back
  rw [stored]
  by_cases more : e < storage
  · rw [if_pos (by omega), if_pos more, buf, endOffs, Nat.min_eq_left more.le,
      List.getElem?_eq_getElem (by omega), Nat.min_eq_left (by omega)]
    rfl
  · rw [if_neg (by omega), if_neg more, show min (e + 1) storage = rc.endOffs by omega,
      ← stored]

theorem same {rng val ext : ℕ} {error : Bool} (here : rc.At packet storage m e p) :
    ({ rc with rng, val, ext, error } : Rc).At packet storage m e p :=
  ⟨here.buf, here.stored, here.inside, here.offs, here.rem, here.endOffs, here.endBits, here.few,
    here.window⟩

theorem taking {next : Rc} (here : rc.At packet storage m e p)
    (rest : next = { rc with
      offs := next.offs, rem := next.rem, rng := next.rng, val := next.val, ext := next.ext
      nbitsTotal := next.nbitsTotal })
    (offs : next.offs = min (m + 1) storage) (rem : next.rem = front packet storage m) :
    next.At packet storage (m + 1) e p := by
  have small := front_lt packet storage m
  rw [rest]
  refine ⟨here.buf, here.stored, here.inside, offs, ?_, here.endOffs, here.endBits, here.few,
    here.window⟩
  rw [number]
  dsimp only
  omega

end At

/-- What `normalize` makes of a range and a place in it, after `k` rounds. -/
structure Renewed (packet : List UInt8) (storage m e p rng val k : ℕ) (next : Rc) : Prop where
  here : next.At packet storage (m + k) e p
  sound : next.Sound
  rng : next.rng = rng * 256 ^ k
  val : next.val + 1 + code packet storage (m + k) = (val + 1 + code packet storage m) * 256 ^ k

theorem shift_eq (here : rc.At packet storage m e p) (narrow : rc.rng ≤ bot)
    (below : rc.val < rc.rng) :
    ∃ next, rc.shift = some next ∧ next.At packet storage (m + 1) e p ∧
      next.rng = rc.rng * 256 ∧ next.val < next.rng ∧
      next.val + 1 + code packet storage (m + 1) = (rc.val + 1 + code packet storage m) * 256 := by
  have small := front_lt packet storage m
  have split : rc.rem <<< 8 ||| front packet storage m = rc.rem * 256 + front packet storage m := by
    rw [← Nat.shiftLeft_add_eq_or_of_lt small, Nat.shiftLeft_eq]
  refine ⟨rc.shiftIn _ _, by rw [shift, here.byte]; rfl, ?_, ?_, ?_, ?_⟩
  · exact here.taking rfl rfl rfl
  all_goals
    simp only [shiftIn, bot, Opus.top, Nat.shiftLeft_eq, Nat.one_mul] at split narrow ⊢
  · omega
  · rw [split, Nat.shiftRight_eq_div_pow, pow_one]
    omega
  · rw [split, here.rem, Nat.shiftRight_eq_div_pow, pow_one, code_succ]
    omega

theorem normalizeLoop_renews (fuel : ℕ) (here : rc.At packet storage m e p)
    (narrow : rc.rng ≤ Opus.top) (below : rc.val < rc.rng) (enough : bot < rc.rng * 256 ^ fuel) :
    ∃ k next, normalizeLoop fuel rc = some next ∧
      Renewed packet storage m e p rc.rng rc.val k next := by
  induction fuel generalizing rc m with
  | zero =>
    rw [pow_zero, Nat.mul_one] at enough
    exact ⟨0, rc, if_neg enough.not_ge, here, ⟨enough, narrow, below⟩, by simp, by simp⟩
  | succ fuel ih =>
    rw [normalizeLoop]
    split
    next small =>
      obtain ⟨next, shifted, there, rng, less, val⟩ := shift_eq here small below
      obtain ⟨k, last, looped, renewed⟩ := ih there
        (by rw [rng]; simp only [bot, Opus.top] at *; omega) less
        (by rw [rng, Nat.mul_assoc, ← pow_succ']; exact enough)
      have eq : m + (k + 1) = m + 1 + k := by omega
      refine ⟨k + 1, last, by rw [shifted]; exact looped, eq ▸ renewed.here, renewed.sound, ?_, ?_⟩
      · rw [renewed.rng, rng, pow_succ', Nat.mul_assoc]
      · rw [eq, renewed.val, val, pow_succ', Nat.mul_assoc]
    next wide => exact ⟨0, rc, rfl, here, ⟨by omega, narrow, below⟩, by simp, by simp⟩

/-- The part of the range between two places below its top. -/
def cut (rc : Rc) (lo hi : ℕ) : Option Rc :=
  { rc with val := rc.val - lo, rng := hi - lo }.normalize

theorem cut_renews {lo hi : ℕ} (here : rc.At packet storage m e p) (sound : rc.Sound)
    (least : lo ≤ rc.val) (less : rc.val < hi) (within : hi ≤ rc.rng) :
    ∃ k next, rc.cut lo hi = some next ∧
      Renewed packet storage m e p (hi - lo) (rc.val - lo) k next := by
  have narrow := sound.narrow
  apply normalizeLoop_renews 3 here.same
  · dsimp only
    omega
  · dsimp only
    omega
  · simp only [bot]
    omega

theorem rounds_unique {rng k l : ℕ} (wide : bot < rng * 256 ^ k) (narrow : rng * 256 ^ k ≤ Opus.top)
    (wide' : bot < rng * 256 ^ l) (narrow' : rng * 256 ^ l ≤ Opus.top) : k = l := by
  have apart {one two : ℕ} (wide : bot < rng * 256 ^ one) (narrow : rng * 256 ^ two ≤ Opus.top) :
      two ≤ one := by
    by_contra less
    have more := Nat.mul_le_mul_left rng
      (Nat.pow_le_pow_right (by decide : 0 < 256) (by omega : one + 1 ≤ two))
    rw [pow_succ, ← Nat.mul_assoc] at more
    simp only [bot, Opus.top] at wide narrow
    omega
  exact le_antisymm (apart wide' narrow) (apart wide narrow')

theorem new_renews (packet : List UInt8) :
    ∃ rc, Rc.new packet = some rc ∧ rc.Sound ∧ rc.At packet (packet.length % 2 ^ 32) 4 0 0 ∧
      rc.rng = Opus.top ∧ rc.val + 1 + code packet (packet.length % 2 ^ 32) 4 = Opus.top := by
  have start : (blank packet).At packet (packet.length % 2 ^ 32) 0 0 0 :=
    ⟨rfl, rfl, Nat.mod_le _ _, by simp [blank], rfl, by simp [blank], rfl, Nat.zero_le _, by
      simp [blank, rawCode, numberUp]⟩
  obtain ⟨b, read⟩ : ∃ b, front packet (packet.length % 2 ^ 32) 0 = b := ⟨_, rfl⟩
  have small : b < 256 := read ▸ front_lt _ _ _
  have first : code packet (packet.length % 2 ^ 32) 1 = b / 2 := by
    rw [code, number, number, Nat.zero_mul, Nat.zero_add, read]
  have begun : ({ blank packet with
      offs := min (0 + 1) (packet.length % 2 ^ 32), rem := b, val := 127 - (b >>> 1) } : Rc).At
        packet (packet.length % 2 ^ 32) 1 0 0 := start.taking rfl rfl read.symm
  obtain ⟨k, rc, normalized, renewed⟩ := normalizeLoop_renews 3 begun
    (show 128 ≤ Opus.top by decide) (show 127 - b >>> 1 < 128 by omega)
    (show bot < 128 * 256 ^ 3 by decide)
  have rng : rc.rng = 128 * 256 ^ k := renewed.rng
  have wide := renewed.sound.wide
  have narrow := renewed.sound.narrow
  rw [rng] at wide narrow
  obtain rfl : k = 3 := rounds_unique wide narrow (by decide) (by decide)
  refine ⟨rc, ?_, renewed.sound, renewed.here, by rw [rng]; rfl, ?_⟩
  · rw [new, start.byte, read]
    exact normalized
  · refine renewed.val.trans ?_
    rw [show 0 + 1 = 1 from rfl, first, Nat.shiftRight_eq_div_pow, pow_one]
    simp only [Opus.top]
    omega

/-- Where the part of the range below `fl` begins, counted from the top. -/
def upper (rng r fl ft : ℕ) : ℕ := if 0 < fl then r * (ft - fl) else rng

variable {r fl fh ft : ℕ}

theorem decodeWith_eq (positive : 0 < r) :
    rc.decodeWith r ft = some (ft - min (rc.val / r + 1) ft, { rc with ext := r }) :=
  if_neg positive.ne'

theorem update_eq (sound : rc.Sound) (ext : rc.ext = r) (fits : r * ft ≤ rc.rng)
    (ordered : fl < fh) (within : fh ≤ ft) (least : r * (ft - fh) ≤ rc.val) :
    rc.update fl fh ft = rc.cut (r * (ft - fh)) (upper rc.rng r fl ft) := by
  have narrow := sound.narrow
  have below := sound.below
  have part := Nat.mul_le_mul_left r (Nat.sub_le ft fh)
  have width := Nat.mul_le_mul_left r (fh.sub_le fl |>.trans within)
  simp only [Opus.top, Nat.shiftLeft_eq, Nat.one_mul] at narrow
  unfold update cut upper sub
  rw [if_pos within, if_pos ordered.le, ext]
  simp only [bind_eq_bind, bind_some]
  rw [Nat.mod_eq_of_lt (show r * (ft - fh) < 2 ^ 32 by omega),
    Nat.mod_eq_of_lt (show r * (fh - fl) < 2 ^ 32 by omega)]
  congr 2
  · split
    · rw [← Nat.mul_sub, show ft - fl - (ft - fh) = fh - fl by omega]
    · omega
  · omega

/-- The number that lies at `val`. -/
def given (rc : Rc) (r ft : ℕ) : ℕ := ft - min (rc.val / r + 1) ft

theorem given_iff (positive : 0 < r) (below : rc.val < rc.rng) (ordered : fl < fh)
    (within : fh ≤ ft) :
    (fl ≤ rc.given r ft ∧ rc.given r ft < fh) ↔
      r * (ft - fh) ≤ rc.val ∧ rc.val < upper rc.rng r fl ft := by
  have least := Nat.le_div_iff_mul_le positive (x := ft - fh) (y := rc.val)
  have less := Nat.div_lt_iff_lt_mul positive (x := rc.val) (y := ft - fl)
  rw [Nat.mul_comm] at least less
  unfold upper given
  split <;> omega

theorem part_bounds {rng : ℕ} (fits : r * ft ≤ rng) (ordered : fl < fh) :
    r * (ft - fh) ≤ upper rng r fl ft ∧ upper rng r fl ft ≤ rng := by
  unfold upper
  split
  · exact ⟨Nat.mul_le_mul_left r (by omega), (Nat.mul_le_mul_left r (Nat.sub_le ft fl)).trans fits⟩
  · exact ⟨(Nat.mul_le_mul_left r (Nat.sub_le ft fh)).trans fits, le_rfl⟩

/-- A `decode` and the `update` for a part around what it gave. -/
theorem divided_renews (positive : 0 < r) (fits : r * ft ≤ rc.rng)
    (here : rc.At packet storage m e p) (sound : rc.Sound) (within : fh ≤ ft)
    (around : fl ≤ rc.given r ft ∧ rc.given r ft < fh) :
    ∃ k next, ({ rc with ext := r } : Rc).update fl fh ft = some next ∧
      Renewed packet storage m e p (upper rc.rng r fl ft - r * (ft - fh))
        (rc.val - r * (ft - fh)) k next := by
  have ordered : fl < fh := around.1.trans_lt around.2
  obtain ⟨least, less⟩ := (given_iff positive sound.below ordered within).mp around
  have sound' : ({ rc with ext := r } : Rc).Sound := ⟨sound.wide, sound.narrow, sound.below⟩
  rw [update_eq sound' rfl fits ordered within least]
  exact cut_renews here.same sound' least less (part_bounds fits ordered).2

theorem updated_renews (positive : 0 < r) (fits : r * ft ≤ rc.rng)
    (here : rc.At packet storage m e p) (sound : rc.Sound) (within : fh ≤ ft)
    (around : fl ≤ rc.given r ft ∧ rc.given r ft < fh) {choose : ℕ → ℕ × ℕ}
    (chosen : choose (rc.given r ft) = (fl, fh)) :
    ∃ k next, updated choose ft (rc.given r ft, { rc with ext := r }) = some (.part fl fh, next) ∧
      Renewed packet storage m e p (upper rc.rng r fl ft - r * (ft - fh))
        (rc.val - r * (ft - fh)) k next := by
  obtain ⟨k, next, updated, renewed⟩ := divided_renews positive fits here sound within around
  refine ⟨k, next, ?_, renewed⟩
  simp only [Rc.updated, chosen, updated, bind_eq_bind, bind_some]
  rfl

theorem decode_eq (sound : rc.Sound) (some_ : 0 < ft) (few : ft ≤ bot) :
    rc.decode ft = some (rc.given (rc.rng / ft) ft, { rc with ext := rc.rng / ft }) ∧
      0 < rc.rng / ft ∧ rc.rng / ft * ft ≤ rc.rng := by
  have positive : 0 < rc.rng / ft := Nat.div_pos (few.trans sound.wide.le) some_
  exact ⟨(if_neg some_.ne').trans (decodeWith_eq positive), positive, Nat.div_mul_le_self ..⟩

theorem shiftRight_pos {rng count : ℕ} (wide : bot < rng) (few : count ≤ 23) :
    0 < rng >>> count := by
  rw [Nat.shiftRight_eq_div_pow]
  exact Nat.div_pos ((Nat.pow_le_pow_right (by decide) few).trans wide.le) (Nat.two_pow_pos _)

theorem shiftRight_fits (rng count : ℕ) : rng >>> count * 1 <<< count ≤ rng := by
  rw [Nat.shiftRight_eq_div_pow, Nat.shiftLeft_eq, Nat.one_mul]
  exact Nat.div_mul_le_self ..

theorem shiftRight_le (rng count : ℕ) : rng >>> count ≤ rng := by
  rw [Nat.shiftRight_eq_div_pow]
  exact Nat.div_le_self ..

theorem decodeBin_eq (sound : rc.Sound) {count : ℕ} (few : count ≤ 23) :
    rc.decodeBin count =
        some (rc.given (rc.rng >>> count) (1 <<< count), { rc with ext := rc.rng >>> count }) ∧
      0 < rc.rng >>> count ∧ rc.rng >>> count * 1 <<< count ≤ rc.rng := by
  have positive := shiftRight_pos sound.wide few
  exact ⟨(if_neg (by omega)).trans (decodeWith_eq positive), positive, shiftRight_fits ..⟩

theorem given_lt (some_ : 0 < ft) : rc.given r ft < ft := by
  unfold given
  generalize rc.val / r = place
  omega

theorem single_renews (here : rc.At packet storage m e p) (sound : rc.Sound) (some_ : 0 < ft)
    (few : ft ≤ bot) {s : ℕ} (lies : rc.given (rc.rng / ft) ft = s) :
    ∃ k next, rc.single ft = some (s, next) ∧
      Renewed packet storage m e p
        (upper rc.rng (rc.rng / ft) s ft - rc.rng / ft * (ft - (s + 1)))
        (rc.val - rc.rng / ft * (ft - (s + 1))) k next := by
  obtain ⟨decoded, positive, fits⟩ := decode_eq sound some_ few
  have less : rc.given (rc.rng / ft) ft < ft := given_lt some_
  have around : s ≤ rc.given (rc.rng / ft) ft ∧ rc.given (rc.rng / ft) ft < s + 1 := by omega
  obtain ⟨k, next, updated, renewed⟩ :=
    divided_renews positive fits here sound (by omega) around
  refine ⟨k, next, ?_, renewed⟩
  rw [single, decoded, lies]
  simp only [bind_eq_bind, bind_some, updated]
  rfl

theorem bitLogp_renews (here : rc.At packet storage m e p) (sound : rc.Sound) {logp : ℕ}
    (legal : logp < 32) {bit : Bool} (lies : bit = true ↔ rc.val < rc.rng >>> logp) :
    ∃ k next, rc.bitLogp logp = some (bit, next) ∧
      Renewed packet storage m e p
        (bif bit then rc.rng >>> logp else rc.rng - rc.rng >>> logp)
        (bif bit then rc.val else rc.val - rc.rng >>> logp) k next := by
  have below := sound.below
  have part := shiftRight_le rc.rng logp
  unfold bitLogp
  rw [if_neg legal.not_ge]
  cases bit with
  | true =>
    have less := lies.mp rfl
    obtain ⟨k, next, normalized, renewed⟩ := cut_renews here sound (Nat.zero_le _) less part
    refine ⟨k, next, ?_, renewed⟩
    rw [if_pos less]
    exact congrArg (Option.bind · _) normalized
  | false =>
    have least : ¬rc.val < rc.rng >>> logp := fun less => Bool.noConfusion (lies.mpr less)
    obtain ⟨k, next, normalized, renewed⟩ :=
      cut_renews here sound (Nat.le_of_not_lt least) below le_rfl
    refine ⟨k, next, ?_, renewed⟩
    rw [if_neg least, sub, sub, if_pos (Nat.le_of_not_lt least), if_pos part]
    exact congrArg (Option.bind · _) normalized

def entry (table : List UInt8) (k : ℕ) : ℕ := (table[k]?.getD 0).toNat

theorem icdfLoop_eq {r val : ℕ} {table : List UInt8} {k : ℕ}
    (small : ∀ entry ∈ table, r * entry.toNat < 2 ^ 32) (inside : k < table.length)
    (least : r * entry table k ≤ val) (less : ∀ i < k, val < r * entry table i) (t from_ : ℕ) :
    icdfLoop r val table t from_ =
      some (from_ + k, r * entry table k, if 0 < k then r * entry table (k - 1) else t) := by
  induction table generalizing k t from_ with
  | nil => exact absurd inside (Nat.not_lt_zero k)
  | cons head table ih =>
    have fits := small head (mem_cons_self ..)
    rw [icdfLoop, if_neg fits.not_ge]
    cases k with
    | zero => exact if_pos least
    | succ k =>
      rw [if_neg (show ¬r * head.toNat ≤ val from (less 0 k.succ_pos).not_ge),
        ih (fun entry member => small entry (mem_cons_of_mem _ member))
          (Nat.lt_of_succ_lt_succ inside) least
          fun i before => less (i + 1) (Nat.succ_lt_succ before)]
      cases k with
      | zero => rfl
      | succ k => simp [entry, Nat.add_assoc, Nat.add_comm 1]

theorem exists_entry (r val : ℕ) {table : List UInt8} (ends : 0 ∈ table) :
    ∃ k < table.length, r * entry table k ≤ val ∧ ∀ i < k, val < r * entry table i := by
  let fits (entry : UInt8) : Bool := r * entry.toNat ≤ val
  have inside : table.findIdx fits < table.length :=
    findIdx_lt_length_of_exists ⟨0, ends, by simp [fits]⟩
  refine ⟨_, inside, ?_, fun i before => ?_⟩
  · have found := findIdx_getElem (w := inside)
    simp only [fits, decide_eq_true_eq] at found
    rwa [entry, List.getElem?_eq_getElem inside]
  · have missed := not_of_lt_findIdx before
    simp only [fits, decide_eq_false_iff_not, not_le] at missed
    rwa [entry, List.getElem?_eq_getElem (before.trans inside)]

theorem icdf_renews (here : rc.At packet storage m e p) (sound : rc.Sound) {table : List UInt8}
    {ftb k : ℕ} (legal : ftb < 32) (small : ∀ entry ∈ table, entry.toNat ≤ 2 ^ ftb)
    (inside : k < table.length) (least : rc.rng >>> ftb * entry table k ≤ rc.val)
    (less : ∀ i < k, rc.val < rc.rng >>> ftb * entry table i) :
    ∃ rounds next, rc.icdf table ftb = some (k, next) ∧
      Renewed packet storage m e p
        ((if 0 < k then rc.rng >>> ftb * entry table (k - 1) else rc.rng) -
          rc.rng >>> ftb * entry table k)
        (rc.val - rc.rng >>> ftb * entry table k) rounds next := by
  have narrow := sound.narrow
  have fits {entry : UInt8} (member : entry ∈ table) : rc.rng >>> ftb * entry.toNat ≤ rc.rng := by
    rw [Nat.shiftRight_eq_div_pow]
    exact (Nat.mul_le_mul_left _ (small entry member)).trans (Nat.div_mul_le_self ..)
  have looped := icdfLoop_eq (fun entry member => (fits member).trans_lt
    (narrow.trans_lt (by decide))) inside least less rc.rng 0
  have above : rc.val < (if 0 < k then rc.rng >>> ftb * entry table (k - 1) else rc.rng) := by
    split
    next later => exact less _ (by omega)
    next => exact sound.below
  have within : (if 0 < k then rc.rng >>> ftb * entry table (k - 1) else rc.rng) ≤ rc.rng := by
    split
    next later =>
      rw [entry, List.getElem?_eq_getElem (by omega)]
      exact fits (getElem_mem _)
    next => exact le_rfl
  obtain ⟨rounds, next, normalized, renewed⟩ := cut_renews here sound least above within
  refine ⟨rounds, next, ?_, renewed⟩
  rw [icdf, if_neg legal.not_ge, looped]
  simp only [bind_eq_bind, bind_some, sub, if_pos least,
    if_pos (least.trans above.le), Nat.zero_add]
  exact congrArg (Option.bind · _) normalized

theorem At.filled {endWindow nendBits : ℕ} (few : nendBits ≤ 24)
    (here : ({ rc with endWindow, nendBits } : Rc).At packet storage m e p) :
    endWindow ||| back packet storage e <<< nendBits % 2 ^ 32 =
      rawCode packet storage (e + 1) / 2 ^ p := by
  have bits : 8 * e = p + nendBits := here.endBits
  have window : endWindow = rawCode packet storage e / 2 ^ p := here.window
  have power : 256 ^ e = 2 ^ p * 2 ^ nendBits := by
    rw [← pow_add, ← bits, pow_mul]
    rfl
  have below : endWindow < 2 ^ nendBits := by
    rw [window, Nat.div_lt_iff_lt_mul (Nat.two_pow_pos p), Nat.mul_comm, ← power]
    exact numberUp_lt (back_lt packet storage) e
  have shifted : back packet storage e <<< nendBits < 2 ^ 32 := by
    have small := Nat.mul_le_mul (Nat.le_of_lt_succ (back_lt packet storage e))
      (Nat.pow_le_pow_right (by decide : 0 < 2) few)
    rw [Nat.shiftLeft_eq]
    omega
  rw [Nat.mod_eq_of_lt shifted, Nat.lor_comm, ← Nat.shiftLeft_add_eq_or_of_lt below, window,
    rawCode, rawCode, numberUp, power, Nat.shiftLeft_eq, Nat.mul_left_comm,
    Nat.add_mul_div_left _ _ (Nat.two_pow_pos p), Nat.mul_comm, Nat.add_comm]

theorem fill_eq (fuel : ℕ) {endWindow nendBits : ℕ} (enough : 24 < nendBits + 8 * fuel)
    (few : nendBits ≤ 24)
    (here : ({ rc with endWindow, nendBits } : Rc).At packet storage m e p) :
    ∃ e' endWindow' nendBits' next,
      fill fuel endWindow nendBits rc = some (endWindow', nendBits', next) ∧
      ({ next with endWindow := endWindow', nendBits := nendBits' } : Rc).At packet storage m e' p ∧
      24 < nendBits' ∧ next.rng = rc.rng ∧ next.val = rc.val := by
  induction fuel generalizing rc e endWindow nendBits with
  | zero => omega
  | succ fuel ih =>
    have bits : 8 * e = p + nendBits := here.endBits
    have there : ({ rc with
        endOffs := min (e + 1) storage
        endWindow := rawCode packet storage (e + 1) / 2 ^ p
        nendBits := nendBits + 8 } : Rc).At packet storage m (e + 1) p :=
      ⟨here.buf, here.stored, here.inside, here.offs, here.rem, rfl, by dsimp only; omega,
        by dsimp only; omega, rfl⟩
    rw [fill, if_neg (by omega), here.byteFromEnd]
    simp only [bind_eq_bind, bind_some, here.filled few]
    split
    next full => exact ⟨_, _, _, _, rfl, there, full, rfl, rfl⟩
    next more =>
      exact @ih _ { rc with endOffs := min (e + 1) storage } _ _ (by omega) (by omega) there

/-- Raw bits are read from the end, whatever the range is. -/
theorem bits_eq {count : ℕ} (few : count ≤ 25) (here : rc.At packet storage m e p) :
    ∃ e' next, rc.bits count = some (rawCode packet storage e' / 2 ^ p % 2 ^ count, next) ∧
      next.At packet storage m e' (p + count) ∧ next.rng = rc.rng ∧ next.val = rc.val := by
  obtain ⟨e', endWindow, nendBits, next, filled, there, enough, rng, val⟩ :
      ∃ e' endWindow nendBits next,
        rc.filled count = some (endWindow, nendBits, next) ∧
        ({ next with endWindow, nendBits } : Rc).At packet storage m e' p ∧
        count ≤ nendBits ∧ next.rng = rc.rng ∧ next.val = rc.val := by
    unfold filled
    split
    next less =>
      obtain ⟨e', endWindow, nendBits, next, filled, there, enough, same⟩ :=
        fill_eq 4 (by omega) (by omega) here
      exact ⟨e', endWindow, nendBits, next, filled, there, by omega, same⟩
    next more => exact ⟨e, _, _, rc, rfl, here, Nat.le_of_not_lt more, rfl, rfl⟩
  have window : endWindow = rawCode packet storage e' / 2 ^ p := there.window
  have bits : 8 * e' = p + nendBits := there.endBits
  have few : nendBits ≤ 32 := there.few
  refine ⟨e', { next with
    endWindow := endWindow >>> count, nendBits := nendBits - count
    nbitsTotal := (next.nbitsTotal + count) % 2 ^ 32 }, ?_, ?_, rng, val⟩
  · rw [Rc.bits, if_neg (by omega), filled]
    simp only [bind_eq_bind, bind_some, sub, if_pos enough]
    rw [window, Nat.shiftLeft_eq, Nat.one_mul]
    rfl
  · refine ⟨there.buf, there.stored, there.inside, there.offs, there.rem, there.endOffs, ?_, ?_, ?_⟩
    · dsimp only
      omega
    · dsimp only
      omega
    · dsimp only
      rw [window, Nat.shiftRight_eq_div_pow, Nat.div_div_eq_div_mul, pow_add]

/-- Somewhere in its packet, with its range as every operation leaves it. -/
def Safe (rc : Rc) : Prop := rc.Sound ∧ ∃ packet storage m e p, rc.At packet storage m e p

theorem Renewed.safe {rng val k : ℕ} {next : Rc}
    (renewed : Renewed packet storage m e p rng val k next) : next.Safe :=
  ⟨renewed.sound, _, _, _, _, _, renewed.here⟩

theorem shiftRight_ilog (last : ℕ) : last >>> (ilog last - 8) < 256 := by
  have below : last < 2 ^ ilog last := Nat.lt_size_self last
  have power : 2 ^ ilog last ≤ 2 ^ (ilog last - 8) * 256 := by
    rw [show 256 = 2 ^ 8 from rfl, ← pow_add]
    exact Nat.pow_le_pow_right (by decide) (by omega)
  rw [Nat.shiftRight_eq_div_pow, Nat.div_lt_iff_lt_mul (Nat.two_pow_pos _), Nat.mul_comm]
  exact below.trans_le power

theorem ilog_le {last count : ℕ} (below : last < 2 ^ count) : ilog last ≤ count :=
  Nat.size_le.mpr below

theorem lt_of_ilog {last count : ℕ} (few : ilog last ≤ count) : last < 2 ^ count :=
  Nat.size_le.mp few

theorem uint_safe (some_ : 0 < ft) (below : ft < 2 ^ 32) (here : rc.At packet storage m e p)
    (sound : rc.Sound) : ∃ value next, rc.uint ft = some (value, next) ∧ next.Safe := by
  unfold uint
  simp only [sub, if_pos (Nat.succ_le_of_lt some_), bind_eq_bind, bind_some]
  split
  next wide =>
    have first := shiftRight_ilog (ft - 1)
    obtain ⟨k, next, told, renewed⟩ := single_renews here sound (Nat.succ_pos _)
      (first.trans_le (by decide)) rfl
    have few := ilog_le (show ft - 1 < 2 ^ 32 by omega)
    obtain ⟨e', last, read, there, rng, val⟩ := bits_eq
      (show ilog (ft - 1) - 8 ≤ 25 by omega) renewed.here
    have safe : last.Safe := ⟨⟨rng ▸ renewed.sound.wide, rng ▸ renewed.sound.narrow,
      rng ▸ val ▸ renewed.sound.below⟩, _, _, _, _, _, there⟩
    rw [told]
    simp only [bind_some, read]
    split
    next => exact ⟨_, _, rfl, safe⟩
    next =>
      exact ⟨_, _, rfl, ⟨safe.1.wide, safe.1.narrow, safe.1.below⟩, _, _, _, _, _, there.same⟩
  next short =>
    have few := lt_of_ilog (Nat.le_of_not_lt short)
    obtain ⟨k, next, told, renewed⟩ := single_renews here sound some_
      (show ft ≤ 2 ^ 23 by omega) rfl
    exact ⟨_, next, told, renewed.safe⟩

theorem call_safe {next : Call} (legal : next.Legal) (safe : rc.Safe) :
    ∃ symbol rc', rc.call next = some (symbol, rc') ∧ rc'.Safe := by
  obtain ⟨sound, packet, storage, m, e, p, here⟩ := safe
  cases next with
  | decode ft choose =>
    obtain ⟨some_, few, chooses⟩ := legal
    obtain ⟨decoded, positive, fits⟩ := decode_eq sound some_ few
    obtain ⟨least, less, within⟩ := chooses (rc.given (rc.rng / ft) ft) (given_lt some_)
    obtain ⟨k, last, updated, renewed⟩ :=
      updated_renews positive fits here sound within ⟨least, less⟩ (Prod.eta (choose _)).symm
    exact ⟨_, last, (congrArg (Option.bind · _) decoded).trans updated, renewed.safe⟩
  | decodeBin count choose =>
    obtain ⟨few, chooses⟩ := legal
    obtain ⟨decoded, positive, fits⟩ := decodeBin_eq sound few
    have some_ : 0 < 1 <<< count := by
      rw [Nat.shiftLeft_eq, Nat.one_mul]
      exact Nat.two_pow_pos count
    obtain ⟨least, less, within⟩ :=
      chooses (rc.given (rc.rng >>> count) (1 <<< count)) (given_lt some_)
    obtain ⟨k, last, updated, renewed⟩ :=
      updated_renews positive fits here sound within ⟨least, less⟩ (Prod.eta (choose _)).symm
    exact ⟨_, last, (congrArg (Option.bind · _) decoded).trans updated, renewed.safe⟩
  | bitLogp logp =>
    obtain ⟨k, last, told, renewed⟩ := bitLogp_renews here sound legal decide_eq_true_iff
    exact ⟨_, last, congrArg (Option.map _) told, renewed.safe⟩
  | icdf table ftb =>
    obtain ⟨legal, ends, small⟩ := legal
    obtain ⟨k, inside, least, less⟩ := exists_entry (rc.rng >>> ftb) rc.val ends
    obtain ⟨rounds, last, told, renewed⟩ :=
      icdf_renews here sound legal small inside least less
    exact ⟨_, last, congrArg (Option.map _) told, renewed.safe⟩
  | bits count =>
    obtain ⟨e', last, told, there, rng, val⟩ := bits_eq legal here
    exact ⟨_, last, congrArg (Option.map _) told,
      ⟨rng ▸ sound.wide, rng ▸ sound.narrow, rng ▸ val ▸ sound.below⟩, _, _, _, _, _, there⟩
  | uint ft =>
    obtain ⟨value, last, told, safe⟩ := uint_safe legal.1 legal.2 here sound
    exact ⟨_, last, congrArg (Option.map _) told, safe⟩

theorem calls_safe (list : List Call) (legal : ∀ next ∈ list, next.Legal) (safe : rc.Safe) :
    ∃ symbols rc', calls list rc = some (symbols, rc') ∧ rc'.Safe := by
  induction list generalizing rc with
  | nil => exact ⟨[], rc, rfl, safe⟩
  | cons next rest ih =>
    obtain ⟨symbol, there, called, safe⟩ := call_safe (legal next (mem_cons_self ..)) safe
    obtain ⟨symbols, last, ran, safe⟩ :=
      ih (fun call member => legal call (mem_cons_of_mem _ member)) safe
    refine ⟨symbol :: symbols, last, ?_, safe⟩
    simp only [calls, called, ran, bind_eq_bind, bind_some]
    rfl

end Rc

end EspDevkit.Audio.Opus
