import EspDevkit.Image.ResizeSteps

/-!
# In place as into another buffer

Both push the same source rows as long as no row was written on one that is still to come, so they
complete the same rows.
-/

namespace EspDevkit.Image

open Splice

section Bind

variable {ε α β : Type} {x : Except ε α} {f : α → Except ε β} {a : α} {b : β}

theorem bind_ok (ok : x >>= f = .ok b) : ∃ a, x = .ok a ∧ f a = .ok b := by
  cases x with
  | error e => cases ok
  | ok a => exact ⟨a, rfl, ok⟩

theorem reject_ok {condition : Prop} [Decidable condition] {e : ε}
    (ok : (if condition then .error e else x) = .ok a) : ¬condition ∧ x = .ok a := by
  split at ok
  · cases ok
  · next fine => exact ⟨fine, ok⟩

end Bind

section Run

variable {plan : Plan} {src : List UInt8} {ss ds : ℕ}

/-- Where both are before source row `y`: the rows that are complete are the same, and the source
rows to come are those of the picture. -/
structure Agrees (plan : Plan) (src : List UInt8) (ss ds y : ℕ) (core : Core)
    (buf dst : List UInt8) : Prop where
  atRow : core.AtRow plan y
  unread : ∀ k, y ≤ k → k < plan.sh →
    slice (k * ss) plan.srcBytes buf = slice (k * ss) plan.srcBytes src
  written : ∀ j < y * plan.dh / plan.sh,
    slice (j * ds) plan.dstBytes buf = slice (j * ds) plan.dstBytes dst

/-- What both start from, and what `check_strides` and the checks of lengths leave. -/
structure Fits (plan : Plan) (src dst : List UInt8) (ss ds : ℕ) : Prop where
  shrinks : plan.dh ≤ plan.sh
  some_ : 0 < plan.dh
  packs : ∀ vtmp, (packRow vtmp plan.dw plan.dstFormat plan.ch).length = plan.dstBytes
  bytes : plan.dstFormat.rowBytes plan.dw = plan.dstBytes
  takes : ∀ row : List UInt8, Core.hpass plan (row.take plan.srcBytes) = Core.hpass plan row
  wide : plan.dstBytes ≤ ds
  room : (plan.dh - 1) * ds + plan.dstBytes ≤ dst.length
  whole : (plan.sh - 1) * ss + plan.srcBytes ≤ src.length
  apart : ∀ y < plan.sh, ∀ done < y * plan.dh / plan.sh,
    Apart (done * ds) plan.dstBytes (y * ss) plan.srcBytes

variable {core core' : Core} {buf buf' dst : List UInt8} {y done done' : ℕ}

theorem pushRow_slice (takes : ∀ row : List UInt8, Core.hpass plan (row.take plan.srcBytes) =
    Core.hpass plan row) (same : core.toPlan = plan)
    (whole : y * ss + plan.srcBytes ≤ src.length) :
    core.pushRow (slice (y * ss) plan.srcBytes src) = core.pushRow (src.drop (y * ss)) := by
  have long : plan.srcBytes ≤ (src.drop (y * ss)).length := by
    rw [List.length_drop]
    omega
  have long' : plan.srcBytes ≤ (slice (y * ss) plan.srcBytes src).length := by
    rw [slice, List.length_take, Nat.min_eq_left long]
  have pass : Core.hpass plan (slice (y * ss) plan.srcBytes src) =
      Core.hpass plan (src.drop (y * ss)) := takes _
  unfold Core.pushRow
  rw [same, if_neg (Nat.not_lt.mpr long), if_neg (Nat.not_lt.mpr long'), pass]

theorem Agrees.step (fits : Fits plan src dst ss ds) (agrees : Agrees plan src ss ds y core buf dst)
    (small : y < plan.sh) {core₁ : Core} {ready : ℕ}
    (pushed : core.pushRow (slice (y * ss) plan.srcBytes buf) = .ok (core₁, ready))
    (popped : popOver ds plan.dstBytes ready core₁ buf (y * plan.dh / plan.sh) =
      .ok (core', buf', done')) :
    core.pushRow (src.drop (y * ss)) = .ok (core₁, ready) ∧
    done' = (y + 1) * plan.dh / plan.sh ∧
    ∃ dst', popInto plan.dh ds ready core₁ dst (y * plan.dh / plan.sh) = .ok (core', dst', done') ∧
      dst'.length = dst.length ∧ Agrees plan src ss ds (y + 1) core' buf' dst' := by
  have rows : y * ss + plan.srcBytes ≤ src.length := by
    have le : y * ss ≤ (plan.sh - 1) * ss := Nat.mul_le_mul_right _ (by omega)
    exact (Nat.add_le_add_right le _).trans fits.whole
  have steps := agrees.atRow.pushRow fits.shrinks fits.some_ small fits.packs pushed
  rw [agrees.unread y le_rfl small, pushRow_slice fits.takes agrees.atRow.plan_eq rows] at pushed
  refine ⟨pushed, ?_⟩
  rcases steps with ⟨rfl, next, atRow⟩ | ⟨rfl, next, plan_eq, dstY, core₂, data, pop, length, atRow⟩
  · unfold popOver at popped
    split at popped
    · cases popped
    · cases popped
      refine ⟨next.symm, dst, rfl, rfl, atRow, ?_, ?_⟩
      · intro k later
        exact agrees.unread k (Nat.le_of_succ_le later)
      · rw [next]
        exact agrees.written
  · generalize done_eq : y * plan.dh / plan.sh = done at *
    have inside : done < plan.dh := by
      rw [← done_eq]
      exact complete_lt fits.some_ small
    unfold popOver at popped
    split at popped
    · cases popped
    · next room =>
      dsimp only at popped
      rw [plan_eq, if_neg (Nat.lt_irrefl _), pop] at popped
      dsimp only at popped
      unfold popOver at popped
      split at popped
      · cases popped
      · cases popped
        have le : done * ds ≤ (plan.dh - 1) * ds := Nat.mul_le_mul_right _ (by omega)
        have room' : done * ds + plan.dstBytes ≤ dst.length :=
          (Nat.add_le_add_right le _).trans fits.room
        have into : popInto plan.dh ds 1 core₁ dst done =
            .ok (core', splice (done * ds) data dst, done + 1) := by
          unfold popInto
          rw [if_neg (Nat.not_le.mpr inside), plan_eq, fits.bytes, dstY, pop]
          have enough := fits.room
          have wide := fits.wide
          dsimp only
          rw [if_neg (by omega), if_neg (by omega)]
          rfl
        have fit : done * ds + data.length ≤ buf.length := by omega
        have fit' : done * ds + data.length ≤ dst.length := by omega
        refine ⟨next.symm, _, into, length_splice fit', atRow, ?_, ?_⟩
        · intro k later before
          rw [slice_splice_apart fit]
          · exact agrees.unread k (Nat.le_of_succ_le later) before
          · rw [length]
            apply fits.apart k before
            have le : (y + 1) * plan.dh / plan.sh ≤ k * plan.dh / plan.sh := complete_le later
            omega
        · intro j before
          rw [next] at before
          rcases Nat.lt_succ_iff_lt_or_eq.mp before with earlier | rfl
          · have apart : Apart (done * ds) data.length (j * ds) plan.dstBytes := by
              have le : (j + 1) * ds ≤ done * ds := Nat.mul_le_mul_right _ earlier
              have wide := fits.wide
              rw [Nat.add_mul, Nat.one_mul] at le
              exact .inr (by omega)
            rw [slice_splice_apart fit apart, slice_splice_apart fit' apart]
            exact agrees.written j (by rw [done_eq]; exact earlier)
          · rw [← length, slice_splice fit, slice_splice fit']

theorem Agrees.run (left : ℕ) (fits : Fits plan src dst ss ds)
    (agrees : Agrees plan src ss ds y core buf dst) (all : y + left = plan.sh)
    (complete : done = y * plan.dh / plan.sh)
    (pushed : pushOver ss plan.srcBytes ds plan.dstBytes left y core buf done =
      .ok (core', buf', done')) :
    done' = plan.dh ∧ ∃ dst', pushInto src ss plan.dh ds left y core dst done =
      .ok (core', dst', done') ∧ Agrees plan src ss ds plan.sh core' buf' dst' := by
  subst complete
  induction left generalizing y core buf dst with
  | zero =>
    cases pushed
    obtain rfl : y = plan.sh := all
    have pos : 0 < plan.sh := Nat.lt_of_lt_of_le fits.some_ fits.shrinks
    exact ⟨Nat.mul_div_cancel_left _ pos, dst, rfl, agrees⟩
  | succ left ih =>
    unfold pushOver at pushed
    obtain ⟨⟨core₁, ready⟩, row, pushed⟩ := bind_ok pushed
    obtain ⟨⟨core₂, buf₂, done₂⟩, rows, pushed⟩ := bind_ok pushed
    obtain ⟨row', rfl, dst₂, into, length, agrees⟩ := agrees.step fits (by omega) row rows
    obtain ⟨all', dst', rest, last⟩ :=
      ih { fits with room := fits.room.trans_eq length.symm } agrees (by omega) pushed
    refine ⟨all', dst', ?_, last⟩
    unfold pushInto
    rw [row']
    change (popInto _ _ _ _ _ _ >>= _) = _
    rw [into]
    exact rest

end Run

section Whole

theorem bounded_ok {size size' : ℕ × ℕ} (ok : bounded size = .ok size') : size = size' :=
  Except.ok.inj (reject_ok ok).2

theorem outputSize_pos {srcW srcH : UInt16} {options : ResizeOptions} {dw dh : ℕ}
    (ok : outputSize srcW srcH options = .ok (dw, dh)) : 0 < srcW.toNat ∧ 0 < dh := by
  obtain ⟨some_, ok⟩ := reject_ok ok
  refine ⟨by omega, ?_⟩
  cases fit : options.fit with
  | stretch =>
    rw [fit] at ok
    obtain ⟨target, ok⟩ := reject_ok ok
    cases bounded_ok ok
    omega
  | contain =>
    rw [fit] at ok
    dsimp only at ok
    split at ok
    · cases bounded_ok ok
      omega
    · split at ok
      · cases bounded_ok ok
        omega
      · cases bounded_ok ok
        omega

theorem checkStrides_ok {info : ImageInfo} {srcStride dstW dstStride ss ds row : ℕ}
    {format : ImageFormat}
    (ok : checkStrides info srcStride format dstW dstStride = .ok (ss, ds, row)) :
    row = format.rowBytes dstW ∧ row ≤ ds := by
  obtain ⟨-, ok⟩ := reject_ok ok
  obtain ⟨wide, ok⟩ := reject_ok ok
  cases ok
  exact ⟨rfl, Nat.not_lt.mp wide⟩

theorem Core.new_ok {info : ImageInfo} {options : ResizeOptions} {size : ℕ × ℕ} {core : Core}
    (sized : outputSize info.width info.height options = .ok size)
    (shrinks : size.2 ≤ info.height.toNat) (ok : Core.new info options = .ok core) :
    info.format.isRowFormat ∧ (options.format.getD info.format).isRowFormat ∧
      core.AtRow (Core.plan info options size) 0 := by
  unfold Core.new at ok
  rw [sized] at ok
  obtain ⟨formats, ok⟩ := reject_ok ok
  rw [not_or, not_not, not_not] at formats
  cases ok
  refine ⟨formats.1, formats.2, rfl, rfl, rfl, ?_, ?_⟩
  · rw [Nat.zero_mul, Nat.zero_div]
  · have grows : ¬(Core.plan info options size).sh < (Core.plan info options size).dh :=
      Nat.not_lt.mpr shrinks
    refine ⟨_, if_neg grows, ?_, ?_, rfl⟩
    · rw [Nat.zero_mul, Nat.zero_div]
    · simp

theorem Core.AtRow.finish {core : Core} {plan : Plan} (atRow : core.AtRow plan plan.sh)
    (pos : 0 < plan.sh) : core.finish = ({ core with finished := true }, 0) := by
  obtain ⟨plan_eq, going, -, -, down, vertical, acc, -, -⟩ := atRow
  have all : plan.dh ≤ down.accDstY := by
    rw [acc, Nat.mul_div_cancel_left _ pos]
  unfold Core.finish
  rw [going, if_neg Bool.false_ne_true, vertical]
  dsimp only
  rw [plan_eq, if_pos (.inl all)]

def outputBytes (info : ImageInfo) (srcStride dstStride : ℕ) (options : ResizeOptions) :
    Outcome ℕ := do
  let (dw, dh) ← outputSize info.width info.height options
  let (_, dstStride, dstRow) ←
    checkStrides info srcStride (options.format.getD info.format) dw dstStride
  .ok ((dh - 1) * dstStride + dstRow)

/-- What is accepted in place gives the picture that comes of it in another buffer, if no row that
is written lies on a source row that is read later. -/
theorem resizeInPlace_eq_resizeBuffer (buf dst buf' : List UInt8) (info : ImageInfo)
    (srcStride dstStride : ℕ) (options : ResizeOptions)
    (accepted : resizeInPlace buf info srcStride dstStride options = .ok buf')
    (room : ∀ bytes, outputBytes info srcStride dstStride options = .ok bytes →
      bytes ≤ dst.length)
    (apart : RowsApart info srcStride dstStride options) :
    ∃ dst', resizeBuffer buf info srcStride dst dstStride options = .ok dst' ∧
      pixels info srcStride dstStride options buf' =
        pixels info srcStride dstStride options dst' := by
  unfold resizeInPlace at accepted
  obtain ⟨⟨dw, dh⟩, sized, accepted⟩ := bind_ok accepted
  obtain ⟨shrinks, accepted⟩ := reject_ok accepted
  obtain ⟨⟨ss, ds, row⟩, strides, accepted⟩ := bind_ok accepted
  obtain ⟨lengths, accepted⟩ := reject_ok accepted
  obtain ⟨core, new, accepted⟩ := bind_ok accepted
  obtain ⟨⟨core₁, buf₁, done₁⟩, pushed, accepted⟩ := bind_ok accepted
  have needed : outputBytes info srcStride dstStride options = .ok ((dh - 1) * ds + row) := by
    unfold outputBytes
    rw [sized]
    change (checkStrides _ _ _ _ _ >>= _) = _
    rw [strides]
    rfl
  have room := room _ needed
  obtain ⟨wide, some_⟩ := outputSize_pos sized
  obtain ⟨row_eq, fits_row⟩ := checkStrides_ok strides
  have shrinks_h : dh ≤ info.height.toNat := Nat.not_lt.mp fun grows => shrinks (.inr grows)
  have shrinks_w : dw ≤ info.width.toNat := Nat.not_lt.mp fun grows => shrinks (.inl grows)
  obtain ⟨srcFormat, dstFormat, atRow⟩ := Core.new_ok sized shrinks_h new
  have pos : 0 < info.height.toNat := Nat.lt_of_lt_of_le some_ shrinks_h
  subst row_eq
  have fits : Fits (Core.plan info options (dw, dh)) buf dst ss ds := by
    refine ⟨shrinks_h, some_, ?_, rfl, ?_, fits_row, room, ?_, ?_⟩
    · intro vtmp
      apply length_packRow dstFormat
      intro one
      by_contra other
      have three : (Core.plan info options (dw, dh)).ch = 3 := if_neg fun both => other both.2
      omega
    · exact hpass_take srcFormat wide shrinks_w
    · exact Nat.not_lt.mp fun short => lengths (.inl short)
    · exact apart dw dh ss ds _ sized strides
  have agrees : Agrees (Core.plan info options (dw, dh)) buf ss ds 0 core buf dst := by
    refine ⟨atRow, fun _ _ _ => rfl, ?_⟩
    intro j none_
    rw [Nat.zero_mul, Nat.zero_div] at none_
    exact absurd none_ (Nat.not_lt_zero j)
  have rows : info.height.toNat - 1 + 1 = info.height.toNat := Nat.sub_add_cancel pos
  have complete : 0 = 0 * dh / info.height.toNat := by
    rw [Nat.zero_mul, Nat.zero_div]
  obtain ⟨all, dst', into, agrees'⟩ :=
    agrees.run (info.height.toNat - 1 + 1) fits ((Nat.zero_add _).trans rows) complete pushed
  have ended := agrees'.atRow.finish pos
  dsimp only at accepted
  rw [ended] at accepted
  obtain ⟨⟨core₂, buf₂, done₂⟩, last, accepted⟩ := bind_ok accepted
  obtain ⟨-, last⟩ := reject_ok last
  cases last
  have all : done₁ = dh := all
  change (if done₁ = dh then _ else _) = _ at accepted
  rw [if_pos all] at accepted
  cases accepted
  have enough : ¬(buf.length < (info.height.toNat - 1) * ss + info.rowBytes ∨
      dst.length < (dh - 1) * ds + (options.format.getD info.format).rowBytes dw) := by
    rw [not_or]
    exact ⟨fun short => lengths (.inl short), Nat.not_lt.mpr room⟩
  refine ⟨dst', ?_, ?_⟩
  · unfold resizeBuffer
    rw [sized]
    change (checkStrides _ _ _ _ _ >>= _) = _
    rw [strides]
    change (if _ then _ else _) = _
    rw [if_neg enough, new]
    change (pushInto _ _ _ _ _ _ _ _ _ >>= _) = _
    have into : pushInto buf ss dh ds (info.height.toNat - 1 + 1) 0 core dst 0 = _ := into
    rw [into]
    change (popInto dh ds core₁.finish.2 core₁.finish.1 dst' done₁ >>= _) = _
    rw [ended]
    change (if done₁ = dh then _ else _) = _
    rw [if_pos all]
  · have same : rowsOf dh ds ((options.format.getD info.format).rowBytes dw) buf₁ =
        rowsOf dh ds ((options.format.getD info.format).rowBytes dw) dst' := by
      apply List.map_congr_left
      intro y member
      apply agrees'.written y
      have done : info.height.toNat * dh / info.height.toNat = dh := Nat.mul_div_cancel_left _ pos
      exact (List.mem_range.mp member).trans_eq done.symm
    unfold pixels
    rw [sized]
    change (checkStrides _ _ _ _ _ >>= _) = (checkStrides _ _ _ _ _ >>= _)
    rw [strides]
    exact congrArg Except.ok same

def grays : List UInt8 := [0, 10, 20, 30, 40, 50, 60, 70, 80, 90, 100, 110, 120, 130, 140, 150]

def halved : ResizeOptions := { targetWidth := 2, targetHeight := 2 }

def fourByFour : ImageInfo := { width := 4, height := 4, format := .l8 }

/-- Four by four gray pixels halved on both axes. -/
theorem resizeInPlace_eq_resizeBuffer_halved :
    ∃ buf', resizeInPlace grays fourByFour 4 2 halved = .ok buf' ∧
      buf'.take 4 = [25, 45, 105, 125] ∧
      ∃ dst', resizeBuffer grays fourByFour 4 [0, 0, 0, 0] 2 halved = .ok dst' ∧
        pixels fourByFour 4 2 halved buf' = pixels fourByFour 4 2 halved dst' := by
  have accepted : resizeInPlace grays fourByFour 4 2 halved =
      .ok [25, 45, 105, 125, 40, 50, 60, 70, 80, 90, 100, 110, 120, 130, 140, 150] := by
    decide +kernel
  refine ⟨_, accepted, rfl, ?_⟩
  apply resizeInPlace_eq_resizeBuffer grays [0, 0, 0, 0] _ fourByFour 4 2 halved accepted
  · intro bytes needed
    have four : outputBytes fourByFour 4 2 halved = .ok 4 := by decide +kernel
    cases four.symm.trans needed
    exact le_rfl
  · intro dw dh src dst row sized strides y small done before
    have size : outputSize fourByFour.width fourByFour.height halved = .ok (2, 2) := by
      decide +kernel
    cases size.symm.trans sized
    have strides' : checkStrides fourByFour 4 .l8 2 2 = .ok (4, 2, 2) := by decide +kernel
    cases strides'.symm.trans strides
    left
    change y < 4 at small
    change done < y * 2 / 4 at before
    omega

/-- Four by three gray pixels resized to three by two in color: the first row ends on the first
byte of the last source row. -/
theorem resizeInPlace_overtakes :
    let info : ImageInfo := { width := 4, height := 3, format := .l8 }
    let options : ResizeOptions :=
      { targetWidth := 3, targetHeight := 2, format := some .rgb888 }
    let buf : List UInt8 := List.replicate 8 0 ++ List.replicate 4 240 ++ List.replicate 15 0
    resizeInPlace buf info 0 0 options =
        .ok (List.replicate 9 0 ++ [40, 40, 40, 160, 160, 160, 160, 160, 160] ++
          List.replicate 9 0) ∧
      resizeBuffer buf info 0 (List.replicate 18 0) 0 options =
        .ok (List.replicate 9 0 ++ List.replicate 9 160) := by
  decide +kernel

end Whole

end EspDevkit.Image
