import EspDevkit.Audio.OpusCarries

/-!
# The decoder gives what the encoder wrote

The encoder keeps to the exact coder, and the packet that it ends lands in the last span.
-/

namespace EspDevkit.Audio.Opus

open RangeCode BigEndian Rc

namespace Ec

variable {ec next : Ec} {stage : Stage}

/-- The encoder has written what the exact coder did. -/
structure Codes (ec : Ec) (stage : Stage) : Prop where
  steady : ec.Steady stage.span.low
  taken : stage.taken = ec.digits.length + 4
  rng : stage.span.rng = ec.rng
  raws : ec.Raws stage.raw stage.rawBits
  few : ec.nendBits ≤ 32
  small : ec.storage < 2 ^ 32

def put (ec : Ec) (lo hi : ℕ) : Option Ec :=
  normalize { ec with val := ec.val + (ec.rng - hi), rng := hi - lo }

theorem Codes.put {lo hi : ℕ} (codes : ec.Codes stage) (ordered : lo < hi) (within : hi ≤ ec.rng)
    (out : ec.put lo hi = some next) : next.Codes (stage.cut lo hi) := by
  have steady := codes.steady
  have narrow := steady.narrow
  have bounded := steady.bounded
  have eq := steady.carries.eq
  have room := steady.carries.room
  have cut : Carries { ec with val := ec.val + (ec.rng - hi), rng := hi - lo }
      (ec.val + (ec.rng - hi)) (hi - lo) (stage.span.low + (ec.rng - hi)) :=
    ⟨by rw [eq, Nat.add_assoc]; rfl, by dsimp only [ceiling] at room ⊢; omega,
      steady.carries.started, steady.carries.inside⟩
  obtain ⟨k, there, more, rng, same⟩ := normalizeLoop_steady 3 cut (by dsimp only; omega)
    (by dsimp only; omega) (by dsimp only; omega) out
  have wide := there.wide
  have narrow' := there.narrow
  rw [rng] at wide narrow'
  obtain ⟨wider, narrower⟩ := rounds_spec (hi - lo) (by omega) (by omega)
  obtain rfl : rounds (hi - lo) = k := rounds_unique wider narrower wide narrow'
  refine ⟨?_, ?_, rng.symm, ⟨?_, ?_, ?_⟩, same.nendBits ▸ codes.few,
    same.storage ▸ codes.small⟩
  · rw [← codes.rng] at there
    exact there
  · rw [more]
    exact (congrArg (· + _) codes.taken).trans (Nat.add_right_comm ..)
  · rw [same.back, same.endWindow]
    exact codes.raws.raw
  · rw [same.back, same.nendBits]
    exact codes.raws.rawBits
  · rw [same.endWindow, same.nendBits]
    exact codes.raws.window

theorem encodeWith_eq {r fl fh ft : ℕ} (ordered : fl < fh) (within : fh ≤ ft) :
    ec.encodeWith r fl fh ft = ec.put (r * (ft - fh)) (upper ec.rng r fl ft) := by
  unfold encodeWith Ec.put upper
  split
  · rw [← Nat.mul_sub, show ft - fl - (ft - fh) = fh - fl by omega]
  · rw [Nat.sub_self, Nat.add_zero]

theorem Codes.encodeWith {r fl fh ft : ℕ} (codes : ec.Codes stage) (positive : 0 < r)
    (fits : r * ft ≤ ec.rng) (ordered : fl < fh) (within : fh ≤ ft)
    (out : ec.encodeWith r fl fh ft = some next) : next.Codes (stage.part r fl fh ft) := by
  rw [encodeWith_eq ordered within] at out
  rw [Stage.part, codes.rng]
  refine codes.put ?_ (part_bounds fits ordered).2 out
  unfold upper
  split
  · exact Nat.mul_lt_mul_of_pos_left (by omega) positive
  · exact (Nat.mul_lt_mul_of_pos_left (by omega) positive).trans_le fits

theorem Codes.encode {fl fh ft : ℕ} (codes : ec.Codes stage) (ordered : fl < fh) (within : fh ≤ ft)
    (few : ft ≤ bot) (out : ec.encode fl fh ft = some next) :
    next.Codes (stage.part (stage.span.rng / ft) fl fh ft) := by
  rw [codes.rng]
  exact codes.encodeWith (Nat.div_pos (few.trans codes.steady.wide.le) (by omega))
    (Nat.div_mul_le_self ..) ordered within out

theorem Steady.of_sameFront {low : ℕ} (steady : ec.Steady low) (same : ec.SameFront next)
    (inside : next.front.length + next.back.length ≤ next.storage) :
    next.Steady low ∧ next.digits = ec.digits := by
  have digits_ : next.digits = ec.digits := by
    rw [digits, digits, same.front, same.rem, same.ext]
  have ceiling_ : next.ceiling = ec.ceiling := by
    rw [ceiling, ceiling, same.front, same.rem, same.ext]
  refine ⟨⟨⟨?_, ?_, ?_, inside⟩, ?_, ?_, ?_⟩, digits_⟩
  · rw [written, digits_, same.val]
    exact steady.carries.eq
  · rw [ceiling_, same.rng]
    exact steady.carries.room
  · rw [same.rem, same.front]
    exact steady.carries.started
  · rw [same.rng]
    exact steady.wide
  · rw [same.rng]
    exact steady.narrow
  · rw [same.rng, same.val]
    exact steady.bounded

theorem Codes.bits {value count : ℕ} (codes : ec.Codes stage) (few : count ≤ 25)
    (below : value < 2 ^ count) (out : ec.bits value count = some next) :
    next.Codes (stage.put value count) := by
  obtain ⟨mid, fed, rfl⟩ := Option.map_eq_some_iff.mp out
  have steady := codes.steady
  obtain ⟨raws, same, inside, few_⟩ : mid.Raws stage.raw stage.rawBits ∧ ec.SameFront mid ∧
      mid.front.length + mid.back.length ≤ mid.storage ∧ mid.nendBits + count ≤ 32 := by
    unfold Ec.flushed at fed
    split at fed
    next =>
      obtain ⟨raws, same, inside, less⟩ := flushWindow_raws 4 codes.raws steady.carries.inside fed
      have := less (by have := codes.few; omega)
      exact ⟨raws, same, inside, by omega⟩
    next room =>
      cases fed
      exact ⟨codes.raws, ⟨rfl, rfl, rfl, rfl, rfl, rfl⟩, steady.carries.inside,
        Nat.le_of_not_lt room⟩
  have above : mid.endWindow ||| value <<< mid.nendBits =
      mid.endWindow + 2 ^ mid.nendBits * value := by
    rw [Nat.lor_comm, ← Nat.shiftLeft_add_eq_or_of_lt raws.window, Nat.shiftLeft_eq, Nat.add_comm,
      Nat.mul_comm]
  have power : 2 ^ stage.rawBits = 256 ^ mid.back.length * 2 ^ mid.nendBits := by
    rw [raws.rawBits, pow_add, pow_mul]
    rfl
  obtain ⟨there, start⟩ := steady.of_sameFront same inside
  refine ⟨⟨⟨there.carries.eq, there.carries.room, there.carries.started, inside⟩, there.wide,
    there.narrow, there.bounded⟩, ?_, ?_, ⟨?_, ?_, ?_⟩, few_, same.storage ▸ codes.small⟩
  · exact codes.taken.trans (congrArg (·.length + 4) start.symm)
  · exact codes.rng.trans same.rng.symm
  · dsimp only [Stage.put]
    rw [above, power, raws.raw, Nat.mod_eq_of_lt below, Nat.mul_add, Nat.add_assoc, Nat.mul_assoc]
  · exact (congrArg (· + count) raws.rawBits).trans (Nat.add_assoc ..)
  · dsimp only
    have high := Nat.mul_le_mul_left (2 ^ mid.nendBits) (Nat.succ_le_of_lt below)
    have low := raws.window
    rw [above, pow_add]
    rw [Nat.mul_succ] at high
    omega

theorem icdf_eq {k ftb : ℕ} {table : List UInt8} {top : ℕ}
    (eq : top = if 0 < k then ec.rng >>> ftb * entry table (k - 1) else ec.rng) :
    ec.icdf k table ftb = ec.put (ec.rng >>> ftb * entry table k) top := by
  subst eq
  unfold Ec.icdf Ec.put
  dsimp only
  split
  · rw [← Nat.mul_sub]
  · rw [Nat.sub_self, Nat.add_zero]

theorem Codes.write {call : Call} {symbol : Symbol} (codes : ec.Codes stage)
    (legal : call.Legal) (writes : call.Writes symbol)
    (out : ec.write call symbol = some next) : next.Codes (stage.coded call symbol) := by
  have rng := codes.rng
  cases writes with
  | decode ordered within => exact codes.encode ordered within legal.2.1 out
  | decodeBin ordered within =>
    dsimp only [Stage.coded]
    rw [rng]
    exact codes.encodeWith (shiftRight_pos codes.steady.wide legal.1) (shiftRight_fits ..) ordered
      within out
  | @bitLogp logp bit some_ few =>
    have positive := shiftRight_pos codes.steady.wide few
    have less : ec.rng >>> logp < ec.rng := by
      rw [Nat.shiftRight_eq_div_pow]
      exact Nat.div_lt_self (Nat.zero_lt_of_lt codes.steady.wide) (Nat.one_lt_two_pow some_.ne')
    cases bit with
    | true =>
      dsimp only [Stage.coded]
      rw [rng]
      exact codes.put positive less.le out
    | false =>
      dsimp only [Stage.coded]
      rw [rng]
      refine codes.put less le_rfl ?_
      rw [Ec.put, Nat.sub_self, Nat.add_zero]
      exact out
  | icdf few inside falls wide =>
    have positive := shiftRight_pos codes.steady.wide few
    have top := (stage.table_bounds legal.2.2 inside falls).2
    dsimp only [Stage.coded]
    rw [rng] at top ⊢
    refine codes.put ?_ top ((icdf_eq (by rw [Stage.tableTop, rng])).symm.trans out)
    unfold Stage.tableTop
    rw [rng]
    split at wide
    next later =>
      rw [if_pos later]
      exact Nat.mul_lt_mul_of_pos_left wide positive
    next first =>
      rw [if_neg first]
      exact (Nat.mul_lt_mul_of_pos_left wide positive).trans_le
        (by rw [Nat.shiftRight_eq_div_pow]; exact Nat.div_mul_le_self ..)
  | bits below => exact codes.bits legal below out
  | @uint ft value less =>
    have below : ft < 2 ^ 32 := legal.2
    dsimp only [Stage.coded]
    dsimp only [Ec.write, Ec.uint] at out
    split at out
    next wide =>
      obtain ⟨mid, first, rest⟩ := Option.bind_eq_some_iff.mp out
      have few := shiftRight_ilog (ft - 1)
      have raw := ilog_le (show ft - 1 < 2 ^ 32 by omega)
      have ordered : value >>> (ilog (ft - 1) - 8) ≤ (ft - 1) >>> (ilog (ft - 1) - 8) := by
        rw [Nat.shiftRight_eq_div_pow, Nat.shiftRight_eq_div_pow]
        exact Nat.div_le_div_right (by omega)
      rw [if_pos wide]
      have there := (codes.encode (Nat.lt_succ_self _) (by omega)
        (show _ ≤ 2 ^ 23 by omega) first).bits (by omega)
        (Nat.mod_lt _ (Nat.two_pow_pos _)) rest
      rwa [Stage.put_mod] at there
    next short =>
      have few := lt_of_ilog (Nat.le_of_not_lt short)
      rw [if_neg short]
      rw [Nat.sub_add_cancel (Nat.one_le_of_lt less)] at out
      exact codes.encode (Nat.lt_succ_self _) less (show ft ≤ 2 ^ 23 by omega) out

theorem Codes.writeAll {list : List (Call × Symbol)} (codes : ec.Codes stage)
    (legal : ∀ item ∈ list, item.1.Legal ∧ item.1.Writes item.2)
    (out : ec.writeAll list = some next) : next.Codes (stage.codedAll list) := by
  induction list generalizing ec stage with
  | nil =>
    cases out
    exact codes
  | cons item rest ih =>
    obtain ⟨mid, first, others⟩ := Option.bind_eq_some_iff.mp out
    obtain ⟨legal_, writes⟩ := legal item (List.mem_cons_self ..)
    exact ih (codes.write legal_ writes first)
      (fun item member => legal item (List.mem_cons_of_mem _ member)) others

end Ec

end EspDevkit.Audio.Opus
