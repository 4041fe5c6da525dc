import EspDevkit.Gfx.Render

/-!
# Hidden drawing may be skipped

A balanced part of a list changes nothing but pixels, and an opaque operation over the whole
area leaves none of what was there.
-/

namespace EspDevkit.Gfx

open List Function

variable {s : Surface} {P : Pixel} {Paint Corner : Type} {painter : Painter s P Paint Corner}
  {d : Drawing s P Corner} {op : Op Paint Corner} {ops rest : List (Op Paint Corner)}

theorem add_sub_self (a b : Int16) : a + b - a = b := by
  rw [Int16.add_comm, Int16.add_sub_cancel]

theorem intersect_of_contains {r area : Rect} (contains : r.contains area) :
    r.intersect area = area := by
  rw [Rect.contains, Bool.and_eq_true, Bool.and_eq_true, Bool.and_eq_true, decide_eq_true_eq,
    decide_eq_true_eq, decide_eq_true_eq, decide_eq_true_eq] at contains
  obtain ⟨⟨⟨x, y⟩, right⟩, bottom⟩ := contains
  have max_x : max r.x area.x = area.x := if_pos x
  have max_y : max r.y area.y = area.y := if_pos y
  have min_right : min r.right area.right = area.right := by
    change (if r.right ≤ area.right then r.right else area.right) = area.right
    split
    · rename_i le
      exact Int16.le_antisymm le right
    · rfl
  have min_bottom : min r.bottom area.bottom = area.bottom := by
    change (if r.bottom ≤ area.bottom then r.bottom else area.bottom) = area.bottom
    split
    · rename_i le
      exact Int16.le_antisymm le bottom
    · rfl
  unfold Rect.intersect
  rw [max_x, max_y, min_right, min_bottom]
  ext1
  · rfl
  · rfl
  · exact add_sub_self area.x area.w
  · exact add_sub_self area.y area.h

namespace Surface

variable (s)

theorem scale_nonpos {length : Int16} (le : length ≤ 0) : length.toInt / 2 ^ s.shift ≤ 0 := by
  have := Int16.le_iff_toInt_le.mp le
  exact Int.ediv_le_of_le_mul (Int.pow_pos (by decide)) (by simpa using this)

theorem cell_right : s.cell s.area.right s.area.x = s.area.w.toInt / 2 ^ s.shift := by
  rw [cell, Rect.right, add_sub_self]

theorem cell_bottom : s.cell s.area.bottom s.area.y = s.area.h.toInt / 2 ^ s.shift := by
  rw [cell, Rect.bottom, add_sub_self]

theorem covers_area (c : s.Cell) : s.covers s.area c = true := by
  have column := c.1.isLt
  have row := c.2.isLt
  unfold columns at column
  unfold rows at row
  have left : s.cell s.area.x s.area.x = 0 := by simp [cell]
  have top : s.cell s.area.y s.area.y = 0 := by simp [cell]
  unfold covers
  rw [left, top]
  simp only [Bool.and_eq_true, decide_eq_true_eq]
  omega

theorem isEmpty_cell (empty : s.area.isEmpty = true) : IsEmpty s.Cell := by
  rw [Rect.isEmpty, Bool.or_eq_true, decide_eq_true_eq, decide_eq_true_eq] at empty
  rcases empty with narrow | low
  · have none : s.columns = 0 := by
      rw [columns, cell_right]
      exact Int.toNat_of_nonpos (s.scale_nonpos narrow)
    exact ⟨fun c => by have := c.1.isLt; omega⟩
  · have none : s.rows = 0 := by
      rw [rows, cell_bottom]
      exact Int.toNat_of_nonpos (s.scale_nonpos low)
    exact ⟨fun c => by have := c.2.isLt; omega⟩

end Surface

theorem mul8_solid : Surface.mul8 255 255 = 255 := by decide

theorem fill_solid (rect : Rect) (color : Color) (solid : color.a = 255)
    (contains : rect.contains s.area) (pixels pixels' : s.Pixels P) :
    s.fill rect s.area color pixels = s.fill rect s.area color pixels' := by
  have drawn : color.a ≠ 0 := by
    rw [solid]
    decide
  funext cell
  unfold Surface.fill
  rw [intersect_of_contains contains, if_pos ⟨s.covers_area cell, drawn⟩, if_pos solid,
    if_pos ⟨s.covers_area cell, drawn⟩, if_pos solid]

theorem convert_solid {format : ImageFormat} (bytes : ℕ → UInt8) (not_argb : format ≠ .argb8888)
    (not_a8 : format ≠ .a8) (old : P.Stored) :
    Surface.convert format bytes 255 old = P.pack (Surface.colorOf format bytes) := by
  have solid : (Surface.colorOf format bytes).a = 255 := by
    cases format with
    | l8 | rgb565 | bgr888 => rfl
    | a8 => exact absurd rfl not_a8
    | argb8888 => exact absurd rfl not_argb
  unfold Surface.convert
  dsimp only
  rw [solid, mul8_solid]
  rfl

theorem image_solid (x y : Int16) (source : Image) (tint : Color) (solid : tint.a = 255)
    (not_argb : source.format ≠ .argb8888) (not_a8 : source.format ≠ .a8)
    (contains : (Op.imageRect x y source).contains s.area) (pixels pixels' : s.Pixels P) :
    s.image x y source s.area tint pixels = s.image x y source s.area tint pixels' := by
  funext cell
  unfold Surface.image
  rw [intersect_of_contains contains, if_pos (s.covers_area cell), if_neg not_a8,
    if_pos (s.covers_area cell), if_neg not_a8, solid, convert_solid _ not_argb not_a8,
    convert_solid _ not_argb not_a8]

namespace Drawing

theorem pixels_eq (empty : s.area.isEmpty = true) (pixels pixels' : s.Pixels P) :
    pixels = pixels' := by
  have := s.isEmpty_cell empty
  exact Subsingleton.elim _ _

/-- An opaque operation that covers the area under no clip leaves nothing of what was there. -/
theorem step_solid (none : d.clips = []) (solid : op.isOpaque = true)
    (contains : op.bounds.contains s.area = true) (pixels : s.Pixels P) :
    ({ d with pixels } : Drawing s P Corner).step painter op = d.step painter op := by
  have clip : d.clip = s.area := by
    unfold Drawing.clip
    rw [none]
    rfl
  have clip' : ({ d with pixels } : Drawing s P Corner).clip = s.area := clip
  cases empty : s.area.isEmpty with
  | true =>
    have same : ({ d with pixels } : Drawing s P Corner) = d := by
      rw [pixels_eq empty pixels d.pixels]
    rw [same]
  | false =>
    cases op with
    | fill rect color =>
      have contains : rect.contains s.area = true := contains
      have meets : rect.intersects s.area = true := by
        rw [Rect.intersects, intersect_of_contains contains, empty]
        rfl
      unfold Drawing.step
      dsimp only
      rw [clip, clip', if_pos meets, if_pos meets,
        fill_solid rect color (beq_iff_eq.mp solid) contains pixels d.pixels]
    | image x y source tint =>
      have contains : (Op.imageRect x y source).contains s.area = true := contains
      have meets : (Op.imageRect x y source).intersects s.area = true := by
        rw [Rect.intersects, intersect_of_contains contains, empty]
        rfl
      simp only [Op.isOpaque, Bool.and_eq_true, beq_iff_eq, bne_iff_ne] at solid
      unfold Drawing.step
      dsimp only
      rw [clip, clip', if_pos meets, if_pos meets,
        image_solid x y source tint solid.1.1 solid.1.2 solid.2 contains pixels d.pixels]
    | painted _ _ | pushClip _ | popClip | pushRoundClip _ _ | popRoundClip => cases solid

theorem skip_balanced (balanced : Balanced ops) (d : Drawing s P Corner) :
    ops.foldl skip d = d := by
  induction balanced generalizing d with
  | nil => rfl
  | fill rect color _ ih => exact ih d
  | image x y source tint _ ih => exact ih d
  | painted bounds paint _ ih => exact ih d
  | clip rect _ _ inside ih =>
    rw [foldl_append, foldl_cons, foldl_cons, inside]
    exact ih d
  | round rect corner _ _ inside ih =>
    rw [foldl_append, foldl_cons, foldl_cons, inside]
    exact ih d

def Clear (d : Drawing s P Corner) : Prop := ∀ depth > d.depth, d.rounds depth = none

theorem clear_pushClip (clear : d.Clear) (rect : Rect) : (d.pushClip rect).Clear :=
  fun depth above => clear depth (Nat.lt_of_succ_lt above)

theorem closeRound_none (none : d.rounds d.depth = none) : d.closeRound painter = d := by
  unfold closeRound
  rw [none]

theorem closeRound_some (painter : Painter s P Paint Corner) {round : RoundClip Corner}
    (is : d.rounds d.depth = some round) :
    d.closeRound painter =
      { d with
        rounds := Function.update d.rounds d.depth none
        saved := d.saved.take round.start
        pixels := restore (painter.corners round.rect round.corner round.area)
          (d.saved.drop round.start) d.pixels } := by
  unfold closeRound
  rw [is]

theorem start_of_openRoundClip {rect : Rect} {corner : Corner} {round : RoundClip Corner}
    {more : List P.Stored} (is : d.openRoundClip painter rect corner = some (round, more)) :
    round.start = d.saved.length := by
  unfold openRoundClip at is
  dsimp only at is
  split at is
  · cases is
  · cases is
    rfl

/-- A round clip that is opened and closed changes nothing but pixels. -/
theorem close_open (painter : Painter s P Paint Corner) (d : Drawing s P Corner)
    (rect : Rect) (corner : Corner) (pixels : s.Pixels P) : ∃ pixels',
      closeRound painter { d.openRound painter rect corner with pixels } =
        { d with rounds := Function.update d.rounds d.depth none, pixels := pixels' } := by
  unfold openRound
  cases opened : d.openRoundClip painter rect corner with
  | none => exact ⟨pixels, closeRound_none (update_self _ _ _)⟩
  | some result =>
    obtain ⟨round, more⟩ := result
    have start := start_of_openRoundClip opened
    refine ⟨restore (painter.corners round.rect round.corner round.area) more pixels, ?_⟩
    have close := closeRound_some painter
      (d := ⟨d.clips, Function.update d.rounds d.depth (some round), d.saved ++ more, pixels⟩)
      (update_self d.depth (some round) d.rounds)
    rw [start] at close
    dsimp only at close ⊢
    rw [close, take_left, drop_left]
    congr 1
    exact update_idem _ _ _

theorem clear_openRound (painter : Painter s P Paint Corner) (clear : d.Clear) (rect : Rect)
    (corner : Corner) :
    (d.openRound painter rect corner).Clear := by
  have same : (d.openRound painter rect corner).depth = d.depth := by
    unfold openRound
    split <;> rfl
  intro depth above
  rw [same] at above
  have apart : depth ≠ d.depth := Nat.ne_of_gt above
  unfold openRound
  split
  · exact (update_of_ne apart _ _).trans (clear depth above)
  · exact (update_of_ne apart _ _).trans (clear depth above)

theorem run_balanced (painter : Painter s P Paint Corner) (balanced : Balanced ops)
    (clear : d.Clear) :
    ∃ pixels, ops.foldl (step painter) d = { d with pixels } := by
  induction balanced generalizing d with
  | nil => exact ⟨d.pixels, rfl⟩
  | fill rect color _ ih =>
    rw [foldl_cons, step]
    split
    · exact ih clear
    · exact ih clear
  | image x y source tint _ ih =>
    rw [foldl_cons, step]
    split
    · exact ih clear
    · exact ih clear
  | painted bounds paint _ ih =>
    rw [foldl_cons, step]
    split
    · exact ih clear
    · exact ih clear
  | clip rect _ _ inside ih =>
    obtain ⟨pixels, run⟩ := inside (clear_pushClip clear rect)
    rw [cons_append, foldl_cons, foldl_append, foldl_cons]
    change ∃ pixels, List.foldl _ (popClip (List.foldl _ (d.pushClip rect) _)) _ = _
    rw [run]
    exact ih clear
  | round rect corner _ _ inside ih =>
    have opened := clear_openRound painter (clear_pushClip clear rect) rect corner
    obtain ⟨pixels, run⟩ := inside opened
    obtain ⟨pixels', close⟩ := close_open painter (d.pushClip rect) rect corner pixels
    have none : d.rounds (d.pushClip rect).depth = none := clear _ (Nat.lt_succ_self _)
    rw [cons_append, foldl_cons, foldl_append, foldl_cons]
    change ∃ pixels, List.foldl _ (popClip (closeRound painter
      (List.foldl _ ((d.pushClip rect).openRound painter rect corner) _))) _ = _
    have same : Function.update d.rounds (d.pushClip rect).depth Option.none = d.rounds :=
      update_eq_self_iff.mpr none.symm
    rw [run, close]
    change ∃ pixels, List.foldl _ ({ d with
      rounds := Function.update d.rounds (d.pushClip rect).depth Option.none
      pixels := pixels' } : Drawing s P Corner) _ = _
    rw [same]
    exact ih clear

end Drawing

theorem walk_found {area : Rect} {i j : ℕ} (ops rest : List (Op Paint Corner))
    (found : walk area (i + ops.length) rest = .found j) :
    walk area i (ops ++ rest) = .found j := by
  induction ops generalizing i with
  | nil => exact found
  | cons op ops ih =>
    rw [cons_append, walk, ih (by rwa [Nat.add_assoc, Nat.add_comm 1])]
    rfl

/-- An operation at which drawing may start: opaque, over the whole area, and behind a balanced
part. -/
def StartsAt (area : Rect) (ops : List (Op Paint Corner)) (i : ℕ) : Prop :=
  ∃ before op after, ops = before ++ op :: after ∧ before.length = i ∧ Balanced before ∧
    op.isOpaque = true ∧ op.bounds.contains area = true

/-- The walk through a part comes out at the depth it went in at, or it has found where to start,
which it only does under no clip. -/
def ComesOut (area : Rect) (ops : List (Op Paint Corner)) : Prop :=
  ∀ i depth rest, walk area (i + ops.length) rest = .atDepth depth →
    walk area i (ops ++ rest) = .atDepth depth ∨
      depth = 0 ∧ ∃ j, walk area i (ops ++ rest) = .found (i + j) ∧ StartsAt area ops j

theorem comesOut_paint {area : Rect} (op : Op Paint Corner) (part : List (Op Paint Corner))
    (paints : ∀ i depth, Walk.back area op i (.atDepth depth) =
      if depth = 0 ∧ op.isOpaque ∧ op.bounds.contains area then .found i else .atDepth depth)
    (balanced : ∀ before, Balanced before → Balanced (op :: before))
    (comesOut : ComesOut area part) : ComesOut area (op :: part) := by
  intro i depth rest back
  rw [length_cons, Nat.add_comm part.length, ← Nat.add_assoc] at back
  rw [cons_append, walk]
  rcases comesOut (i + 1) depth rest back with out | ⟨outside, j, found, starts⟩
  · rw [out, paints]
    split
    · rename_i is
      exact .inr ⟨is.1, 0, rfl, [], op, part, rfl, rfl, .nil, is.2⟩
    · exact .inl rfl
  · obtain ⟨before, first, after, rfl, rfl, before_balanced, is⟩ := starts
    refine .inr ⟨outside, before.length + 1, ?_, op :: before, first, after, rfl, rfl,
      balanced before before_balanced, is⟩
    rw [found, Nat.add_assoc, Nat.add_comm 1]
    rfl

theorem comesOut_clip {area : Rect} (push pop : Op Paint Corner)
    (inner part : List (Op Paint Corner))
    (pushes : ∀ i depth, Walk.back area push i (.atDepth depth) = .atDepth (depth - 1))
    (pops : ∀ i depth, Walk.back area pop i (.atDepth depth) = .atDepth (depth + 1))
    (balanced : ∀ before, Balanced before → Balanced (push :: inner ++ pop :: before))
    (inside : ComesOut area inner) (comesOut : ComesOut area part) :
    ComesOut area (push :: inner ++ pop :: part) := by
  intro i depth rest back
  have length : (push :: inner ++ pop :: part).length = 1 + inner.length + 1 + part.length := by
    simp only [length_append, length_cons]
    omega
  rw [length, ← Nat.add_assoc, ← Nat.add_assoc, ← Nat.add_assoc] at back
  have shape : push :: inner ++ pop :: part ++ rest =
      push :: (inner ++ (pop :: (part ++ rest))) := by simp
  rw [shape]
  rcases comesOut (i + 1 + inner.length + 1) depth rest back with out | ⟨outside, j, found, starts⟩
  · left
    have popped : walk area (i + 1 + inner.length) (pop :: (part ++ rest)) =
        .atDepth (depth + 1) := by
      rw [walk, out, pops]
    rcases inside (i + 1) (depth + 1) _ popped with out' | ⟨outside, -⟩
    · rw [walk, out', pushes]
      rfl
    · cases outside
  · obtain ⟨before, first, after, rfl, rfl, before_balanced, is⟩ := starts
    have found_pop : walk area (i + 1 + inner.length) (pop :: (before ++ first :: after ++ rest)) =
        .found (i + 1 + inner.length + 1 + before.length) := by
      rw [walk, found]
      rfl
    refine .inr ⟨outside, 1 + inner.length + 1 + before.length, ?_,
      push :: inner ++ pop :: before, first, after, by simp, ?_, balanced before before_balanced,
      is⟩
    · rw [walk, walk_found inner _ found_pop, ← Nat.add_assoc, ← Nat.add_assoc, ← Nat.add_assoc]
      rfl
    · simp only [length_append, length_cons]
      omega

theorem walk_balanced (area : Rect) (balanced : Balanced ops) : ComesOut area ops := by
  induction balanced with
  | nil => exact fun i depth rest back => .inl back
  | fill rect color _ ih =>
    exact comesOut_paint _ _ (fun _ _ => rfl) (fun _ => .fill rect color) ih
  | image x y source tint _ ih =>
    exact comesOut_paint _ _ (fun _ _ => rfl) (fun _ => .image x y source tint) ih
  | painted bounds paint _ ih =>
    exact comesOut_paint _ _ (fun _ _ => rfl) (fun _ => .painted bounds paint) ih
  | clip rect inner _ inside ih =>
    exact comesOut_clip _ _ _ _ (fun _ _ => rfl) (fun _ _ => rfl) (fun _ => .clip rect inner)
      inside ih
  | round rect corner inner _ inside ih =>
    exact comesOut_clip _ _ _ _ (fun _ _ => rfl) (fun _ _ => rfl)
      (fun _ => .round rect corner inner) inside ih

theorem startOp_balanced (area : Rect) (balanced : Balanced ops) :
    startOp ops area = 0 ∨ StartsAt area ops (startOp ops area) := by
  have back : walk area (0 + ops.length) ([] : List (Op Paint Corner)) = .atDepth 0 := rfl
  unfold startOp
  rcases walk_balanced area balanced 0 0 [] back with out | ⟨-, j, found, starts⟩
  · rw [append_nil] at out
    rw [out]
    exact .inl rfl
  · rw [append_nil, Nat.zero_add] at found
    rw [found]
    exact .inr starts

namespace Drawing

theorem drawOps_append (first i : ℕ) (before after : List (Op Paint Corner)) :
    drawOps painter first i (before ++ after) d =
      drawOps painter first (i + before.length) after (drawOps painter first i before d) := by
  induction before generalizing i d with
  | nil => rfl
  | cons op before ih =>
    rw [cons_append, drawOps, drawOps, length_cons, Nat.add_comm before.length,
      ← Nat.add_assoc]
    split <;> exact ih (i + 1)

theorem drawOps_before {first i : ℕ} (le : i + ops.length ≤ first) :
    drawOps painter first i ops d = ops.foldl skip d := by
  induction ops generalizing i d with
  | nil => rfl
  | cons op ops ih =>
    rw [length_cons] at le
    rw [drawOps, if_pos (by omega), ih (by omega)]
    rfl

theorem drawOps_from {first i : ℕ} (le : first ≤ i) :
    drawOps painter first i ops d = ops.foldl (step painter) d := by
  induction ops generalizing i d with
  | nil => rfl
  | cons op ops ih =>
    rw [drawOps, if_neg (by omega), ih (by omega)]
    rfl

theorem step_begin (solid : op.isOpaque = true) (contains : op.bounds.contains s.area = true)
    (saved : List P.Stored) (pixels pixels' under : s.Pixels P) :
    (begin s saved pixels).step painter op =
      ({ begin s saved pixels' with pixels := under } : Drawing s P Corner).step painter op := by
  have none : (begin s saved pixels' : Drawing s P Corner).clips = [] := rfl
  rw [step_solid none solid contains under]
  exact step_solid none solid contains pixels

theorem drawOps_startsAt {i : ℕ} (starts : StartsAt s.area ops i) (saved : List P.Stored)
    (pixels pixels' : s.Pixels P) :
    drawOps painter i 0 ops (begin s saved pixels) =
      drawOps painter 0 0 ops (begin s saved pixels') := by
  obtain ⟨before, op, after, ops_eq, rfl, balanced, solid, contains⟩ := starts
  have clear : (begin s saved pixels' : Drawing s P Corner).Clear := fun _ _ => rfl
  obtain ⟨under, run⟩ := run_balanced painter balanced clear
  have skipped : drawOps painter before.length 0 before (begin s saved pixels) =
      begin s saved pixels :=
    (drawOps_before (by omega)).trans (skip_balanced balanced _)
  rw [ops_eq, drawOps_append, skipped, drawOps_from (by omega), drawOps_from (Nat.zero_le _),
    foldl_append, run, foldl_cons, foldl_cons]
  exact congrArg (after.foldl (step painter)) (step_begin solid contains saved pixels pixels' under)

end Drawing

/-- Drawing from the operation that `start_op` gives ends as drawing all of a balanced list does,
over any contents, and over any others where it is not the first. -/
theorem draw_from_start (painter : Painter s P Paint Corner) (ops : List (Op Paint Corner))
    (balanced : Balanced ops) (saved : List P.Stored) (pixels : s.Pixels P) :
    Drawing.drawOps painter (startOp ops s.area) 0 ops (.begin s saved pixels) =
        Drawing.drawOps painter 0 0 ops (.begin s saved pixels) ∧
      (0 < startOp ops s.area → ∀ pixels' : s.Pixels P,
        Drawing.drawOps painter (startOp ops s.area) 0 ops (.begin s saved pixels') =
          Drawing.drawOps painter 0 0 ops (.begin s saved pixels)) := by
  rcases startOp_balanced s.area balanced with first | starts
  · rw [first]
    exact ⟨rfl, fun pos => absurd pos (Nat.lt_irrefl 0)⟩
  · exact ⟨Drawing.drawOps_startsAt starts saved pixels pixels,
      fun _ pixels' => Drawing.drawOps_startsAt starts saved pixels' pixels⟩

def strip : Surface := ⟨⟨0, 0, 2, 1⟩, 0⟩

def keptColor : Pixel where
  Stored := Color
  native := .argb8888
  pack := id
  load := Surface.colorOf .argb8888
  blend _ color _ := color
  blendMask old mask color _ := if mask = 0 then old else color

def redless : Painter strip keptColor Unit Unit where
  paint _ _ pixels := fun cell => { (pixels cell : Color) with r := 0 }
  corners _ _ _ := []
  reserves _ := true

def hiddenFill : List (Op Unit Unit) :=
  [.pushRoundClip ⟨0, 0, 1, 1⟩ (), .fill ⟨0, 0, 2, 1⟩ ⟨9, 9, 9, 255⟩, .popRoundClip,
    .fill ⟨0, 0, 2, 1⟩ ⟨5, 6, 7, 255⟩, .painted ⟨1, 0, 1, 1⟩ ()]

theorem hiddenFill_skipped : startOp hiddenFill strip.area = 3 ∧
    Drawing.drawOps redless 3 0 hiddenFill (.begin strip [] fun _ => ⟨1, 2, 3, 255⟩) =
      Drawing.drawOps redless 0 0 hiddenFill (.begin strip [] fun _ => ⟨1, 2, 3, 255⟩) := by
  have start : startOp hiddenFill strip.area = 3 := by decide
  have balanced : Balanced hiddenFill :=
    .round _ _ (.fill _ _ .nil) (.fill _ _ (.painted _ _ .nil))
  have same := (draw_from_start redless hiddenFill balanced [] fun _ => ⟨1, 2, 3, 255⟩).1
  rw [start] at same
  exact ⟨start, same⟩

end EspDevkit.Gfx
