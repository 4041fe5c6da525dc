import EspDevkit.Audio.OpusSteps

/-!
# What a packet codes

An exact coder keeps the whole lower end of its span.  A packet that lands in the span which a
list of symbols leaves makes a decoder give the symbols.
-/

namespace EspDevkit.Audio.Opus

open RangeCode Rc List Option

/-- The span, how many bytes the decoder took for it, and the raw bits. -/
structure Stage where
  span : Span
  taken : ℕ
  raw : ℕ
  rawBits : ℕ
  fits : raw < 2 ^ rawBits

def rounds (rng : ℕ) : ℕ :=
  if bot < rng then 0 else if bot < rng * 256 then 1 else if bot < rng * 256 ^ 2 then 2 else 3

theorem rounds_spec (rng : ℕ) (some_ : 0 < rng) (narrow : rng ≤ Opus.top) :
    bot < rng * 256 ^ rounds rng ∧ rng * 256 ^ rounds rng ≤ Opus.top := by
  unfold rounds
  split_ifs
  all_goals
    simp only [Opus.top, bot, not_lt] at *
    omega

namespace Stage

variable (stage : Stage)

def cut (lo hi : ℕ) : Stage :=
  { stage with
    span := (stage.span.cut lo hi).scale (256 ^ rounds (hi - lo))
    taken := stage.taken + rounds (hi - lo) }

/-- The part from `fl` to `fh` of `ft`, each of which has `r` places. -/
def part (r fl fh ft : ℕ) : Stage :=
  stage.cut (r * (ft - fh)) (upper stage.span.rng r fl ft)

def put (value count : ℕ) : Stage where
  span := stage.span
  taken := stage.taken
  raw := stage.raw + 2 ^ stage.rawBits * (value % 2 ^ count)
  rawBits := stage.rawBits + count
  fits := by
    have low := stage.fits
    have high := Nat.mul_le_mul_left (2 ^ stage.rawBits)
      (Nat.succ_le_of_lt (Nat.mod_lt value (Nat.two_pow_pos count)))
    rw [pow_add]
    rw [Nat.mul_succ] at high
    omega

theorem put_mod (value count : ℕ) :
    stage.put (value % 2 ^ count) count = stage.put value count := by
  simp only [put, Nat.mod_mod]

/-- The place below which an index lies. -/
def tableTop (r : ℕ) (table : List UInt8) (k : ℕ) : ℕ :=
  if 0 < k then r * entry table (k - 1) else stage.span.rng

def coded : Call → Symbol → Stage
  | .decode ft _, .part fl fh => stage.part (stage.span.rng / ft) fl fh ft
  | .decodeBin count _, .part fl fh => stage.part (stage.span.rng >>> count) fl fh (1 <<< count)
  | .bitLogp logp, .bit true => stage.cut 0 (stage.span.rng >>> logp)
  | .bitLogp logp, .bit false => stage.cut (stage.span.rng >>> logp) stage.span.rng
  | .icdf table ftb, .index k =>
    let r := stage.span.rng >>> ftb
    stage.cut (r * entry table k) (stage.tableTop r table k)
  | .bits count, .number value => stage.put value count
  | .uint ft, .number value =>
    let last := ft - 1
    if 8 < ilog last then
      let raw := ilog last - 8
      let fth := (last >>> raw) + 1
      (stage.part (stage.span.rng / fth) (value >>> raw) ((value >>> raw) + 1) fth).put value raw
    else stage.part (stage.span.rng / ft) value (value + 1) ft
  | _, _ => stage

def codedAll (stage : Stage) : List (Call × Symbol) → Stage
  | [] => stage
  | (next, symbol) :: rest => codedAll (stage.coded next symbol) rest

end Stage

/-- Symbols that an encoder may write for a call. -/
inductive Rc.Call.Writes : Call → Symbol → Prop
  | decode {ft fl fh : ℕ} {choose : ℕ → ℕ × ℕ} : fl < fh → fh ≤ ft →
    (∀ fs, fl ≤ fs → fs < fh → choose fs = (fl, fh)) → Writes (.decode ft choose) (.part fl fh)
  | decodeBin {count fl fh : ℕ} {choose : ℕ → ℕ × ℕ} : fl < fh → fh ≤ 1 <<< count →
    (∀ fs, fl ≤ fs → fs < fh → choose fs = (fl, fh)) →
      Writes (.decodeBin count choose) (.part fl fh)
  | bitLogp {logp : ℕ} {bit : Bool} : 0 < logp → logp ≤ 23 → Writes (.bitLogp logp) (.bit bit)
  | icdf {table : List UInt8} {ftb k : ℕ} : ftb ≤ 23 → k < table.length →
    Antitone (entry table) → (entry table k < if 0 < k then entry table (k - 1) else 2 ^ ftb) →
      Writes (.icdf table ftb) (.index k)
  | bits {count value : ℕ} : value < 2 ^ count → Writes (.bits count) (.number value)
  | uint {ft value : ℕ} : value < ft → Writes (.uint ft) (.number value)

section Decoder

variable (packet : List UInt8) (storage : ℕ)

structure Stage.Landed (stage : Stage) : Prop where
  holds : stage.span.Holds (code packet storage stage.taken)
  raw (e : ℕ) : stage.rawBits ≤ 8 * e →
    rawCode packet storage e % 2 ^ stage.rawBits = stage.raw

/-- The decoder is as far as the stage. -/
structure Stage.Tracks (stage : Stage) (rc : Rc) : Prop where
  here : ∃ e, rc.At packet storage stage.taken e stage.rawBits
  sound : rc.Sound
  rng : stage.span.rng = rc.rng
  above : stage.span.Above (code packet storage stage.taken) rc.val

end Decoder

variable {packet : List UInt8} {storage : ℕ} {stage : Stage} {rc next : Rc}

namespace Stage

theorem holds_of_cut {lo hi : ℕ} (landed : (stage.cut lo hi).Landed packet storage) :
    (stage.span.cut lo hi).Holds (code packet storage stage.taken) := by
  have holds := landed.holds
  rwa [cut, Span.holds_scale (Nat.pow_pos (by decide)), code_add_div] at holds

theorem Landed.of_cut {lo hi : ℕ} (landed : (stage.cut lo hi).Landed packet storage)
    (within : hi ≤ stage.span.rng) (ordered : lo ≤ hi) : stage.Landed packet storage :=
  ⟨(holds_of_cut landed).of_cut within ordered, landed.raw⟩

theorem rawCode_mod {bits one two : ℕ} (enough : bits ≤ 8 * one) (more : one ≤ two) :
    rawCode packet storage two % 2 ^ bits = rawCode packet storage one % 2 ^ bits := by
  obtain ⟨rest, rfl⟩ := Nat.exists_eq_add_of_le more
  apply numberUp_mod
  rw [show 256 = 2 ^ 8 from rfl, ← pow_mul]
  exact pow_dvd_pow 2 enough

theorem Landed.of_put {value count : ℕ} (landed : (stage.put value count).Landed packet storage) :
    stage.Landed packet storage := by
  refine ⟨landed.holds, fun e enough => ?_⟩
  have all := landed.raw (e + count) (by dsimp only [put]; omega)
  dsimp only [put] at all
  have low := congrArg (· % 2 ^ stage.rawBits) all
  rw [pow_add, Nat.mod_mul_right_mod, Nat.add_mul_mod_self_left, Nat.mod_eq_of_lt stage.fits] at low
  rw [← low, rawCode_mod enough (Nat.le_add_right e count)]

theorem Landed.put_value {value count e : ℕ}
    (landed : (stage.put value count).Landed packet storage)
    (enough : stage.rawBits + count ≤ 8 * e) :
    rawCode packet storage e / 2 ^ stage.rawBits % 2 ^ count = value % 2 ^ count := by
  have all := landed.raw e enough
  dsimp only [put] at all
  rw [← Nat.mod_mul_right_div_self, ← pow_add, all, Nat.add_mul_div_left _ _ (Nat.two_pow_pos _),
    Nat.div_eq_of_lt stage.fits, Nat.zero_add]

theorem Tracks.place {lo hi : ℕ} (tracks : stage.Tracks packet storage rc)
    (landed : (stage.cut lo hi).Landed packet storage) (within : hi ≤ stage.span.rng)
    (ordered : lo ≤ hi) : lo ≤ rc.val ∧ rc.val < hi :=
  (tracks.above.holds_cut within ordered).mp (holds_of_cut landed)

theorem Tracks.cut {lo hi e k : ℕ} (tracks : stage.Tracks packet storage rc)
    (renewed : Renewed packet storage stage.taken e stage.rawBits (hi - lo) (rc.val - lo) k next)
    (within : hi ≤ stage.span.rng) (least : lo ≤ rc.val) (less : rc.val < hi) :
    (stage.cut lo hi).Tracks packet storage next := by
  have narrow := tracks.sound.narrow
  have whole := tracks.rng
  have wide := renewed.sound.wide
  have narrow' := renewed.sound.narrow
  rw [renewed.rng] at wide narrow'
  obtain ⟨wider, narrower⟩ := rounds_spec (hi - lo) (by omega) (by omega)
  obtain rfl : rounds (hi - lo) = k := rounds_unique wider narrower wide narrow'
  exact ⟨⟨e, renewed.here⟩, renewed.sound, renewed.rng.symm,
    (tracks.above.cut within least less).of_scale renewed.val⟩

variable (stage) in
theorem table_bounds {table : List UInt8} {ftb k : ℕ}
    (small : ∀ entry ∈ table, entry.toNat ≤ 2 ^ ftb) (inside : k < table.length)
    (falls : Antitone (entry table)) :
    stage.span.rng >>> ftb * entry table k ≤ stage.tableTop (stage.span.rng >>> ftb) table k ∧
      stage.tableTop (stage.span.rng >>> ftb) table k ≤ stage.span.rng := by
  have fits (i : ℕ) (before : i ≤ k) : stage.span.rng >>> ftb * entry table i ≤ stage.span.rng := by
    have within : i < table.length := before.trans_lt inside
    rw [entry, List.getElem?_eq_getElem within, Nat.shiftRight_eq_div_pow]
    exact (Nat.mul_le_mul_left _ (small _ (getElem_mem within))).trans
      (Nat.div_mul_le_self ..)
  unfold tableTop
  split
  · exact ⟨Nat.mul_le_mul_left _ (falls (Nat.sub_le k 1)), fits _ (Nat.sub_le k 1)⟩
  · exact ⟨fits k le_rfl, le_rfl⟩

theorem Landed.of_coded {next : Call} {symbol : Symbol} (legal : next.Legal)
    (writes : next.Writes symbol) (landed : (stage.coded next symbol).Landed packet storage) :
    stage.Landed packet storage := by
  cases writes with
  | decode ordered =>
    obtain ⟨bottom, top⟩ := part_bounds (Nat.div_mul_le_self stage.span.rng _) ordered
    exact landed.of_cut top bottom
  | decodeBin ordered =>
    obtain ⟨bottom, top⟩ := part_bounds (shiftRight_fits stage.span.rng _) ordered
    exact landed.of_cut top bottom
  | @bitLogp logp bit =>
    cases bit with
    | true => exact landed.of_cut (shiftRight_le _ _) (Nat.zero_le _)
    | false => exact landed.of_cut le_rfl (shiftRight_le _ _)
  | icdf few inside falls =>
    obtain ⟨bottom, top⟩ := stage.table_bounds legal.2.2 inside falls
    exact landed.of_cut top bottom
  | bits => exact landed.of_put
  | @uint ft value =>
    dsimp only [coded] at landed
    split at landed
    next =>
      obtain ⟨bottom, top⟩ := part_bounds (Nat.div_mul_le_self stage.span.rng _)
        (Nat.lt_succ_self (value >>> (ilog (ft - 1) - 8)))
      exact landed.of_put.of_cut top bottom
    next =>
      obtain ⟨bottom, top⟩ := part_bounds (Nat.div_mul_le_self stage.span.rng ft)
        (Nat.lt_succ_self value)
      exact landed.of_cut top bottom

theorem Tracks.part {r fl fh ft : ℕ} (tracks : stage.Tracks packet storage rc)
    (landed : (stage.part r fl fh ft).Landed packet storage) (positive : 0 < r)
    (fits : r * ft ≤ rc.rng) (ordered : fl < fh) (within : fh ≤ ft) :
    (fl ≤ rc.given r ft ∧ rc.given r ft < fh) ∧ ∀ {e k next},
      Renewed packet storage stage.taken e stage.rawBits (upper rc.rng r fl ft - r * (ft - fh))
        (rc.val - r * (ft - fh)) k next →
      (stage.part r fl fh ft).Tracks packet storage next := by
  have rng := tracks.rng
  obtain ⟨bottom, top⟩ := part_bounds (rng ▸ fits) ordered
  obtain ⟨least, less⟩ := tracks.place landed top bottom
  exact ⟨(given_iff positive tracks.sound.below ordered within).mpr ⟨least, rng ▸ less⟩,
    fun renewed => tracks.cut (rng ▸ renewed) top least less⟩

theorem Tracks.put {value count : ℕ} (tracks : stage.Tracks packet storage rc)
    (landed : (stage.put value count).Landed packet storage) (few : count ≤ 25) :
    ∃ next, rc.bits count = some (value % 2 ^ count, next) ∧
      (stage.put value count).Tracks packet storage next := by
  obtain ⟨e, here⟩ := tracks.here
  obtain ⟨e', next, read, there, rng, val⟩ := bits_eq few here
  have enough := there.endBits
  rw [landed.put_value (by omega)] at read
  have sound := tracks.sound
  exact ⟨next, read, ⟨e', there⟩, ⟨rng ▸ sound.wide, rng ▸ sound.narrow, rng ▸ val ▸ sound.below⟩,
    tracks.rng.trans rng.symm, val ▸ tracks.above⟩

theorem Tracks.single {ft value : ℕ} (tracks : stage.Tracks packet storage rc)
    (landed : (stage.part (stage.span.rng / ft) value (value + 1) ft).Landed packet storage)
    (few : ft ≤ bot) (less : value < ft) :
    ∃ next, rc.single ft = some (value, next) ∧
      (stage.part (stage.span.rng / ft) value (value + 1) ft).Tracks packet storage next := by
  obtain ⟨e, here⟩ := tracks.here
  obtain ⟨-, positive, fits⟩ := decode_eq tracks.sound (Nat.zero_lt_of_lt less) few
  rw [tracks.rng] at landed ⊢
  obtain ⟨around, follows⟩ := tracks.part landed positive fits (Nat.lt_succ_self value) less
  obtain ⟨k, next, told, renewed⟩ := single_renews here tracks.sound (Nat.zero_lt_of_lt less) few
    (le_antisymm (Nat.le_of_lt_succ around.2) around.1)
  exact ⟨next, told, follows renewed⟩

theorem Tracks.uint {ft value : ℕ} (tracks : stage.Tracks packet storage rc)
    (below : ft < 2 ^ 32) (less : value < ft)
    (landed : (stage.coded (.uint ft) (.number value)).Landed packet storage) :
    ∃ next, rc.uint ft = some (value, next) ∧
      (stage.coded (.uint ft) (.number value)).Tracks packet storage next := by
  have last : value ≤ ft - 1 := by omega
  have some_ : 1 ≤ ft := Nat.one_le_of_lt less
  unfold Rc.uint
  simp only [sub, if_pos some_, bind_eq_bind, bind_some]
  dsimp only [coded] at landed ⊢
  split at landed
  next wide =>
    obtain ⟨raw, rawEq⟩ : ∃ raw, ilog (ft - 1) - 8 = raw := ⟨_, rfl⟩
    have first := shiftRight_ilog (ft - 1)
    have few := ilog_le (show ft - 1 < 2 ^ 32 by omega)
    have ordered : value >>> raw ≤ (ft - 1) >>> raw := by
      rw [Nat.shiftRight_eq_div_pow, Nat.shiftRight_eq_div_pow]
      exact Nat.div_le_div_right last
    rw [if_pos wide, if_pos wide]
    rw [rawEq] at landed first ⊢
    obtain ⟨next, told, there⟩ := tracks.single landed.of_put
      (show (ft - 1) >>> raw + 1 ≤ 2 ^ 23 by omega) (Nat.lt_succ_of_le ordered)
    obtain ⟨rc', read, there⟩ := there.put landed (by omega)
    have whole : value >>> raw <<< raw ||| value % 2 ^ raw = value := by
      rw [← Nat.shiftLeft_add_eq_or_of_lt (Nat.mod_lt _ (Nat.two_pow_pos raw)), Nat.shiftLeft_eq,
        Nat.shiftRight_eq_div_pow, Nat.mul_comm, Nat.div_add_mod]
    refine ⟨rc', ?_, there⟩
    simp only [told, bind_some, read, whole, if_pos last]
    rfl
  next short =>
    have few := lt_of_ilog (Nat.le_of_not_lt short)
    rw [if_neg short, if_neg short]
    exact tracks.single landed (show ft ≤ 2 ^ 23 by omega) less

/-- The decoder gives the symbol that was written. -/
theorem Tracks.follow {next : Call} {symbol : Symbol} (tracks : stage.Tracks packet storage rc)
    (legal : next.Legal) (writes : next.Writes symbol)
    (landed : (stage.coded next symbol).Landed packet storage) :
    ∃ rc', rc.call next = some (symbol, rc') ∧
      (stage.coded next symbol).Tracks packet storage rc' := by
  have rng := tracks.rng
  have sound := tracks.sound
  obtain ⟨e, here⟩ := tracks.here
  cases writes with
  | decode ordered within chosen =>
    obtain ⟨decoded, positive, fits⟩ := decode_eq sound legal.1 legal.2.1
    dsimp only [coded] at landed ⊢
    rw [rng] at landed ⊢
    obtain ⟨around, follows⟩ := tracks.part landed positive fits ordered within
    obtain ⟨k, rc', told, renewed⟩ :=
      updated_renews positive fits here sound within around (chosen _ around.1 around.2)
    exact ⟨rc', (congrArg (Option.bind · _) decoded).trans told, follows renewed⟩
  | decodeBin ordered within chosen =>
    obtain ⟨decoded, positive, fits⟩ := decodeBin_eq sound legal.1
    dsimp only [coded] at landed ⊢
    rw [rng] at landed ⊢
    obtain ⟨around, follows⟩ := tracks.part landed positive fits ordered within
    obtain ⟨k, rc', told, renewed⟩ :=
      updated_renews positive fits here sound within around (chosen _ around.1 around.2)
    exact ⟨rc', (congrArg (Option.bind · _) decoded).trans told, follows renewed⟩
  | @bitLogp logp bit =>
    have part := shiftRight_le stage.span.rng logp
    cases bit with
    | true =>
      obtain ⟨least, less⟩ := tracks.place landed part (Nat.zero_le _)
      obtain ⟨k, rc', told, renewed⟩ := bitLogp_renews here sound legal
        (show true = true ↔ _ from iff_of_true rfl (rng ▸ less))
      exact ⟨rc', congrArg (Option.map _) told, tracks.cut (rng ▸ renewed) part least less⟩
    | false =>
      obtain ⟨least, less⟩ := tracks.place landed le_rfl part
      obtain ⟨k, rc', told, renewed⟩ := bitLogp_renews here sound legal
        (show false = true ↔ _ from iff_of_false Bool.false_ne_true (rng ▸ least.not_gt))
      exact ⟨rc', congrArg (Option.map _) told, tracks.cut (rng ▸ renewed) le_rfl least less⟩
  | @icdf table ftb k few inside falls =>
    obtain ⟨bottom, top⟩ := stage.table_bounds legal.2.2 inside falls
    obtain ⟨least, less⟩ := tracks.place landed top bottom
    have later (i : ℕ) (before : i < k) : rc.val < rc.rng >>> ftb * entry table i := by
      rw [tableTop, if_pos (Nat.zero_lt_of_lt before)] at less
      exact rng ▸ less.trans_le (Nat.mul_le_mul_left _ (falls (Nat.le_sub_one_of_lt before)))
    obtain ⟨rounds, rc', told, renewed⟩ :=
      icdf_renews here sound legal.1 legal.2.2 inside (rng ▸ least) later
    exact ⟨rc', congrArg (Option.map _) told, tracks.cut (rng ▸ renewed) top least less⟩
  | bits below =>
    obtain ⟨rc', told, there⟩ := tracks.put landed legal
    rw [Nat.mod_eq_of_lt below] at told
    exact ⟨rc', congrArg (Option.map _) told, there⟩
  | uint less =>
    obtain ⟨rc', told, there⟩ := tracks.uint legal.2 less landed
    exact ⟨rc', congrArg (Option.map _) told, there⟩

theorem Landed.of_codedAll {list : List (Call × Symbol)}
    (legal : ∀ item ∈ list, item.1.Legal ∧ item.1.Writes item.2)
    (landed : (stage.codedAll list).Landed packet storage) : stage.Landed packet storage := by
  induction list generalizing stage with
  | nil => exact landed
  | cons item rest ih =>
    obtain ⟨legal_, writes⟩ := legal item (mem_cons_self ..)
    exact (ih (fun item member => legal item (mem_cons_of_mem _ member)) landed).of_coded
      legal_ writes

theorem Tracks.followAll {list : List (Call × Symbol)} (tracks : stage.Tracks packet storage rc)
    (legal : ∀ item ∈ list, item.1.Legal ∧ item.1.Writes item.2)
    (landed : (stage.codedAll list).Landed packet storage) :
    ∃ rc', calls (list.map Prod.fst) rc = some (list.map Prod.snd, rc') := by
  induction list generalizing stage rc with
  | nil => exact ⟨rc, rfl⟩
  | cons item rest ih =>
    obtain ⟨legal_, writes⟩ := legal item (mem_cons_self ..)
    have others : ∀ item ∈ rest, item.1.Legal ∧ item.1.Writes item.2 :=
      fun item member => legal item (mem_cons_of_mem _ member)
    obtain ⟨next, told, there⟩ := tracks.follow legal_ writes (Landed.of_codedAll others landed)
    obtain ⟨rc', ran⟩ := ih there others landed
    refine ⟨rc', ?_⟩
    simp only [map_cons, calls, told, ran, bind_eq_bind, bind_some]
    rfl

end Stage

end EspDevkit.Audio.Opus
