import EspDevkit.Library.Splice
import Mathlib.Algebra.BigOperators.Group.List.Basic
import Mathlib.Algebra.Group.Action.Defs

/-!
# Pixel rows

Rows of pixels in bytes, and their channels: one for gray that stays gray, red, green and blue for
all else.  A word of two bytes has its low byte first.
-/

namespace EspDevkit.Image

open List

inductive ImageFormat
  | l1
  | l2
  | l4
  | l8
  | a8
  | rgb565
  | rgb888
  | bgr888
  | argb8888
  | yuv444
  | yuyv
  | uyvy
  | yuv420
  deriving DecidableEq, Repr

namespace ImageFormat

def bits : ImageFormat → ℕ
  | l1 => 1
  | l2 => 2
  | l4 => 4
  | l8 | a8 => 8
  | yuv420 => 12
  | rgb565 | yuyv | uyvy => 16
  | rgb888 | bgr888 | yuv444 => 24
  | argb8888 => 32

def rowBytes (format : ImageFormat) (width : ℕ) : ℕ := (width * format.bits + 7) / 8

def isRowFormat (format : ImageFormat) : Bool :=
  format = l8 ∨ format = rgb888 ∨ format = bgr888 ∨ format = rgb565

end ImageFormat

structure ImageInfo where
  width : UInt16
  height : UInt16
  format : ImageFormat

def ImageInfo.rowBytes (info : ImageInfo) : ℕ := info.format.rowBytes info.width.toNat

def clamp8 (v : ℕ) : UInt8 := UInt8.ofNat (min v 255)

def luma (r g b : UInt8) : UInt8 :=
  clamp8 ((r.toNat * 54 + g.toNat * 183 + b.toNat * 19 + 128) / 256)

def sample (row : List UInt8) (i : ℕ) : ℕ := (row.getD i 0).toNat

def unpackRow (src : List UInt8) (w : ℕ) (format : ImageFormat) (ch : ℕ) : List ℕ :=
  if ch = 1 then (List.range w).map (sample (src.take w))
  else
    match format with
    | .rgb888 | .bgr888 =>
      let src := src.take (w * 3)
      let r := if format = .bgr888 then 2 else 0
      (List.range w).flatMap fun x =>
        [sample src (x * 3 + r), sample src (x * 3 + 1), sample src (x * 3 + (2 - r))]
    | .rgb565 =>
      let src := src.take (w * 2)
      (List.range w).flatMap fun x =>
        let p := sample src (x * 2) + 256 * sample src (x * 2 + 1)
        let (r5, g6, b5) := (p / 2048 % 32, p / 32 % 64, p % 32)
        [r5 * 8 + r5 / 4, g6 * 4 + g6 / 16, b5 * 8 + b5 / 4]
    | _ =>
      let src := src.take w
      (List.range w).flatMap fun x => [sample src x, sample src x, sample src x]

def storeRgb (format : ImageFormat) (r g b : UInt8) : List UInt8 :=
  match format with
  | .rgb888 => [r, g, b]
  | .bgr888 => [b, g, r]
  | .rgb565 =>
    let p := r.toNat / 8 * 2048 + g.toNat / 4 * 32 + b.toNat / 8
    [UInt8.ofNat p, UInt8.ofNat (p / 256)]
  | _ => [luma r g b]

/-- `unpackRow` backwards, saturating each channel. -/
def packRow (src : List ℕ) (w : ℕ) (format : ImageFormat) (ch : ℕ) : List UInt8 :=
  if ch = 1 then (List.range w).map fun x => clamp8 (src.getD x 0)
  else
    (List.range w).flatMap fun x =>
      storeRgb format (clamp8 (src.getD (x * 3) 0)) (clamp8 (src.getD (x * 3 + 1) 0))
        (clamp8 (src.getD (x * 3 + 2) 0))

section Rows

open ImageFormat

theorem isRowFormat_iff {format : ImageFormat} :
    format.isRowFormat ↔ format = l8 ∨ format = rgb888 ∨ format = bgr888 ∨ format = rgb565 :=
  decide_eq_true_iff

theorem unpackRow_take {src : List UInt8} {w : ℕ} {format : ImageFormat}
    (row : format.isRowFormat) (ch : ℕ) :
    unpackRow (src.take (format.rowBytes w)) w format ch = unpackRow src w format ch := by
  have enough (n : ℕ) (small : n ≤ format.rowBytes w) :
      (src.take (format.rowBytes w)).take n = src.take n := by
    rw [take_take, Nat.min_eq_left small]
  rcases isRowFormat_iff.mp row with rfl | rfl | rfl | rfl <;> simp only [rowBytes, bits] at enough
  · have wide := enough w (by omega)
    simp only [unpackRow, rowBytes, bits, wide]
  · have wide := enough w (by omega)
    have pixels := enough (w * 3) (by omega)
    simp only [unpackRow, rowBytes, bits, wide, pixels]
  · have wide := enough w (by omega)
    have pixels := enough (w * 3) (by omega)
    simp only [unpackRow, rowBytes, bits, wide, pixels]
  · have wide := enough w (by omega)
    have pixels := enough (w * 2) (by omega)
    simp only [unpackRow, rowBytes, bits, wide, pixels]

theorem length_packRow {src : List ℕ} {w : ℕ} {format : ImageFormat} {ch : ℕ}
    (row : format.isRowFormat) (gray : ch = 1 → format = .l8) :
    (packRow src w format ch).length = format.rowBytes w := by
  unfold packRow
  split
  · next one =>
      rw [gray one, length_map, length_range]
      simp only [rowBytes, bits]
      omega
  · rcases isRowFormat_iff.mp row with rfl | rfl | rfl | rfl <;>
      simp only [length_flatMap, storeRgb, length_cons, length_nil,
        map_const', sum_replicate, length_range, rowBytes, bits, smul_eq_mul] <;>
      omega

end Rows

end EspDevkit.Image
