import EspDevkit.Image.ResizeCopies
import Mathlib.Tactic.Linarith
import Mathlib.Tactic.Ring

/-!
# Steps of a shrinking picture

After `y` source rows of a picture that does not grow, `y * dh / sh` rows are complete, one more at
most with each.
-/

namespace EspDevkit.Image

open List

section Reads

theorem length_boxWeights (s d u0 u1 cnt k cum wsum : ℕ) :
    (boxWeights s d u0 u1 cnt k cum wsum).length = cnt := by
  induction cnt generalizing k cum wsum with
  | zero => rfl
  | succ cnt ih => rw [boxWeights, length_cons, ih]

theorem boxTable_inside {s d : ℕ} (pos : 0 < s) {tap : Tap} (member : tap ∈ boxTable s d) :
    tap.src + tap.weights.length ≤ s := by
  obtain ⟨x, small, rfl⟩ := mem_map.mp member
  rw [mem_range] at small
  have first : x * s / d < s := by
    apply Nat.div_lt_of_lt_mul
    exact Nat.mul_lt_mul_of_pos_right small pos
  dsimp only
  rw [length_boxWeights]
  omega

theorem getD_take {row : List ℕ} {n i : ℕ} (small : i < n) :
    (row.take n).getD i 0 = row.getD i 0 := by
  rw [getD_eq_getElem?_getD, getD_eq_getElem?_getD, List.getElem?_take_of_lt small]

theorem hreduceBox_take {row : List ℕ} {sw ch : ℕ} {taps : List Tap} (shift round : ℕ)
    (inside : ∀ tap ∈ taps, tap.src + tap.weights.length ≤ sw) :
    hreduceBox (row.take (sw * ch)) ch taps shift round = hreduceBox row ch taps shift round := by
  unfold hreduceBox
  apply flatMap_congr
  intro tap member
  have inside := inside tap member
  apply map_congr_left
  intro c channel
  rw [mem_range] at channel
  dsimp only
  congr 3
  apply foldl_ext
  rintro sum ⟨w, i⟩ weight
  have small := snd_lt_of_mem_zipIdx weight
  have here : (tap.src + i) * ch + c < sw * ch := by
    calc (tap.src + i) * ch + c < (tap.src + i) * ch + ch := Nat.add_lt_add_left channel _
      _ = (tap.src + i + 1) * ch := by ring
      _ ≤ sw * ch := Nat.mul_le_mul_right _ (by omega)
  rw [getD_take here]

theorem hpass_take {info : ImageInfo} {options : ResizeOptions} {size : ℕ × ℕ}
    (row : info.format.isRowFormat) (pos : 0 < info.width.toNat)
    (shrinks : size.1 ≤ info.width.toNat) (src : List UInt8) :
    Core.hpass (Core.plan info options size) (src.take info.rowBytes) =
      Core.hpass (Core.plan info options size) src := by
  have reduce : (Core.plan info options size).horizontal =
      .reduce (boxTable info.width.toNat size.1) := if_neg (Nat.not_lt.mpr shrinks)
  have inside (tap : Tap) (member : tap ∈ boxTable info.width.toNat size.1) :
      tap.src + tap.weights.length ≤ info.width.toNat := boxTable_inside pos member
  unfold Core.hpass
  rw [reduce]
  by_cases direct : (Core.plan info options size).srcDirect
  · have bytes : info.rowBytes = info.width.toNat * (Core.plan info options size).ch := by
      have which := of_decide_eq_true direct
      rcases which with ⟨format, ch⟩ | ⟨format, ch⟩
      · have ch : (Core.plan info options size).ch = 3 := ch
        rw [ImageInfo.rowBytes, ImageFormat.rowBytes, format, ch]
        simp only [ImageFormat.bits]
        omega
      · have ch : (Core.plan info options size).ch = 1 := ch
        rw [ImageInfo.rowBytes, ImageFormat.rowBytes, format, ch]
        simp only [ImageFormat.bits]
        omega
    rw [if_pos direct, if_pos direct, map_take, bytes]
    exact hreduceBox_take _ _ inside
  · rw [if_neg direct, if_neg direct]
    dsimp only
    congr 1
    exact unpackRow_take row _

end Reads

section Complete

variable {down : VerticalDown}

theorem vCharge_keeps (down : VerticalDown) (hrow : List ℕ) (dh : ℤ) (sh : ℕ) :
    ∃ acc cum wsum, vCharge down hrow dh sh = { down with acc, cum, wsum } := by
  unfold vCharge
  dsimp only
  split
  · exact ⟨_, _, _, rfl⟩
  · exact ⟨_, _, _, rfl⟩

theorem complete_succ {sh dh : ℕ} (shrinks : dh ≤ sh) (pos : 0 < sh) (y : ℕ) :
    (y + 1) * dh / sh =
      if (y * dh / sh + 1) * sh ≤ (y + 1) * dh then y * dh / sh + 1 else y * dh / sh := by
  have floor := Nat.div_add_mod (y * dh) sh
  have rest := Nat.mod_lt (y * dh) pos
  generalize y * dh / sh = a at *
  generalize y * dh % sh = r at *
  have next : (y + 1) * dh = sh * a + r + dh := by rw [floor]; ring
  have line : (a + 1) * sh = sh * a + sh := by ring
  rw [next, line]
  split
  · apply Nat.div_eq_of_lt_le
    · rw [line]
      assumption
    · have line' : (a + 1 + 1) * sh = sh * a + sh + sh := by ring
      rw [line']
      omega
  · apply Nat.div_eq_of_lt_le
    · rw [Nat.mul_comm]
      omega
    · rw [line]
      omega

theorem complete_le {sh dh y y' : ℕ} (le : y ≤ y') : y * dh / sh ≤ y' * dh / sh :=
  Nat.div_le_div_right (Nat.mul_le_mul_right _ le)

theorem complete_lt {sh dh y : ℕ} (some_ : 0 < dh) (small : y < sh) : y * dh / sh < dh := by
  apply Nat.div_lt_of_lt_mul
  exact Nat.mul_lt_mul_of_pos_right small some_

namespace Core

structure AtRow (core : Core) (plan : Plan) (y : ℕ) : Prop where
  plan_eq : core.toPlan = plan
  going : core.finished = false
  srcY : core.srcY = y
  dstY : core.dstY = y * plan.dh / plan.sh
  down : ∃ down, core.vertical = .down down ∧ down.accDstY = y * plan.dh / plan.sh ∧
    down.spanHi = (down.accDstY + 1) * plan.sh - y * plan.dh ∧ down.pendingAvail = false

end Core

variable {plan : Plan} {y : ℕ}

theorem pushDown_complete (hrow : List ℕ) (more : down.accDstY < plan.dh)
    (complete : (down.accDstY + 1) * plan.sh ≤ (y + 1) * plan.dh)
    (span : down.spanHi = (down.accDstY + 1) * plan.sh - y * plan.dh) :
    ∃ down' vtmp, Core.pushDown plan hrow down = (down', 1) ∧
      down'.accDstY = down.accDstY + 1 ∧
      down'.spanHi = (down.accDstY + 1 + 1) * plan.sh - (y + 1) * plan.dh ∧
      down'.pending = packRow vtmp plan.dw plan.dstFormat plan.ch ∧ down'.pendingAvail = true := by
  obtain ⟨acc, cum, wsum, charged⟩ := vCharge_keeps down hrow plan.dh plan.sh
  have ends : down.spanHi ≤ plan.dh := by
    rw [span]
    have complete : ((down.accDstY : ℤ) + 1) * plan.sh ≤ (y + 1) * plan.dh := by
      exact_mod_cast complete
    linarith
  unfold Core.pushDown
  rw [if_pos more, charged]
  dsimp only
  rw [if_pos ends]
  have after : down.spanHi + plan.sh - plan.dh =
      (down.accDstY + 1 + 1) * plan.sh - (y + 1) * plan.dh := by
    rw [span]
    ring
  split
  · obtain ⟨acc', cum', wsum', charged'⟩ := vCharge_keeps
      { down with
        acc := List.replicate (plan.dw * plan.ch) 0
        spanLo := down.spanHi
        spanHi := down.spanHi + plan.sh
        cum := 0
        wsum := 0
        accDstY := down.accDstY + 1
        pending := packRow (acc.map fun a => (a + 2 ^ (voutShift - 1)) / 2 ^ voutShift % 2 ^ 16)
          plan.dw plan.dstFormat plan.ch
        pendingAvail := true } hrow plan.dh plan.sh
    rw [charged']
    exact ⟨_, _, rfl, rfl, after, rfl, rfl⟩
  · exact ⟨_, _, rfl, rfl, after, rfl, rfl⟩

theorem pushDown_incomplete (hrow : List ℕ) (more : down.accDstY < plan.dh)
    (incomplete : (y + 1) * plan.dh < (down.accDstY + 1) * plan.sh)
    (span : down.spanHi = (down.accDstY + 1) * plan.sh - y * plan.dh) :
    ∃ down', Core.pushDown plan hrow down = (down', 0) ∧ down'.accDstY = down.accDstY ∧
      down'.spanHi = (down.accDstY + 1) * plan.sh - (y + 1) * plan.dh ∧
      down'.pendingAvail = down.pendingAvail := by
  obtain ⟨acc, cum, wsum, charged⟩ := vCharge_keeps down hrow plan.dh plan.sh
  have ends : ¬down.spanHi ≤ plan.dh := by
    rw [span]
    have incomplete : ((y : ℤ) + 1) * plan.dh < (down.accDstY + 1) * plan.sh := by
      exact_mod_cast incomplete
    linarith
  unfold Core.pushDown
  rw [if_pos more, charged]
  dsimp only
  rw [if_neg ends]
  refine ⟨_, rfl, rfl, ?_, rfl⟩
  dsimp only
  rw [span]
  ring

namespace Core

variable {core core' : Core} {row : List UInt8} {n : ℕ}

theorem AtRow.pushRow (before : core.AtRow plan y) (shrinks : plan.dh ≤ plan.sh)
    (some_ : 0 < plan.dh) (small : y < plan.sh)
    (packs : ∀ vtmp, (packRow vtmp plan.dw plan.dstFormat plan.ch).length = plan.dstBytes)
    (ok : core.pushRow row = .ok (core', n)) :
    n = 0 ∧ (y + 1) * plan.dh / plan.sh = y * plan.dh / plan.sh ∧ core'.AtRow plan (y + 1) ∨
    n = 1 ∧ (y + 1) * plan.dh / plan.sh = y * plan.dh / plan.sh + 1 ∧ core'.toPlan = plan ∧
      core'.dstY = y * plan.dh / plan.sh ∧
      ∃ core'' data, core'.pop = some (core'', data) ∧ data.length = plan.dstBytes ∧
        core''.AtRow plan (y + 1) := by
  obtain ⟨plan_eq, going, srcY, dstY, down, vertical, acc, span, idle⟩ := before
  have pos : 0 < plan.sh := Nat.lt_of_le_of_lt (Nat.zero_le y) small
  have more : down.accDstY < plan.dh := by
    rw [acc]
    exact complete_lt some_ small
  have next := complete_succ shrinks pos y
  unfold Core.pushRow at ok
  split at ok
  · cases ok
  · split at ok
    · cases ok
    · rw [vertical] at ok
      dsimp only at ok
      rw [plan_eq] at ok
      rw [← acc] at next
      by_cases complete : (down.accDstY + 1) * plan.sh ≤ (y + 1) * plan.dh
      · obtain ⟨down', vtmp, pushed, acc', span', pending, avail⟩ :=
          pushDown_complete (hpass plan row) more complete span
        rw [pushed] at ok
        cases ok
        rw [if_pos complete] at next
        refine .inr ⟨rfl, next.trans (by rw [acc]), rfl, dstY, ?_⟩
        have room : ¬plan.dh ≤ core.dstY := by
          rw [dstY, ← acc]
          exact Nat.not_le.mpr more
        have popped : (Core.pop
            { toPlan := plan, vertical := .down down', hrow := hpass plan row
              srcY := core.srcY + 1, dstY := core.dstY, finished := core.finished }) =
            some
              ({ toPlan := plan, vertical := .down { down' with pendingAvail := false }
                 hrow := hpass plan row, srcY := core.srcY + 1, dstY := core.dstY + 1
                 finished := core.finished }, down'.pending.take plan.dstBytes) := by
          unfold Core.pop
          rw [if_neg room]
          dsimp only
          rw [if_pos avail]
        refine ⟨_, _, popped, ?_, rfl, going, congrArg (· + 1) srcY, ?_, _, rfl, ?_, ?_, rfl⟩
        · rw [pending, length_take, packs, Nat.min_self]
        · change core.dstY + 1 = _
          rw [next, dstY, acc]
        · change down'.accDstY = _
          rw [next, acc']
        · change down'.spanHi = (down'.accDstY + 1) * plan.sh - ((y + 1 : ℕ) : ℤ) * plan.dh
          rw [span', acc']
          push_cast
          rfl
      · obtain ⟨down', pushed, acc', span', avail⟩ :=
          pushDown_incomplete (hpass plan row) more (Nat.lt_of_not_le complete) span
        rw [pushed] at ok
        cases ok
        rw [if_neg complete] at next
        refine .inl ⟨rfl, next.trans acc, rfl, going, congrArg (· + 1) srcY, ?_, down', rfl, ?_,
          ?_, avail.trans idle⟩
        · change core.dstY = _
          rw [next, dstY, acc]
        · rw [next, acc']
        · rw [span', acc']
          push_cast
          rfl

end Core

end Complete

end EspDevkit.Image
