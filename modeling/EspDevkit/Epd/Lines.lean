import EspDevkit.Epd.RefreshWaiters

/-!
# What reaches the panel

The lines of a frame, whichever way they are made, against the actions that
the pixels are due when the frame begins.
-/

namespace EspDevkit.Epd

open Transition List

variable {panel : Panel} {Task : Type} {rows : Rows} {d : Data panel} {frame : Frame panel}

theorem pack_replicate (act count : ℕ) :
    pack (List.replicate (count * 4) act) = List.replicate count (act * 85) := by
  induction count with
  | zero => rfl
  | succ count ih =>
    have four : List.replicate ((count + 1) * 4) act =
        act :: act :: act :: act :: List.replicate (count * 4) act := by
      rw [Nat.succ_mul]
      rfl
    rw [four, pack, ih, replicate_succ]
    congr 1
    omega

theorem exists_quarter {line : List ℕ} {count : ℕ} (length : line.length = (count + 1) * 4) :
    ∃ a0 a1 a2 a3 rest, line = a0 :: a1 :: a2 :: a3 :: rest ∧ rest.length = count * 4 := by
  rcases line with _ | ⟨a0, _ | ⟨a1, _ | ⟨a2, _ | ⟨a3, rest⟩⟩⟩⟩
  iterate 4
    simp only [length_cons, length_nil] at length
    omega
  refine ⟨a0, a1, a2, a3, rest, rfl, ?_⟩
  simp only [length_cons] at length
  omega

/-- Lines of actions can be told apart once packed. -/
theorem pack_injective {count : ℕ} {first second : List ℕ} (small : ∀ act ∈ first, act < 4)
    (small' : ∀ act ∈ second, act < 4) (length : first.length = count * 4)
    (length' : second.length = count * 4) (same : pack first = pack second) : first = second := by
  induction count generalizing first second with
  | zero =>
    rw [Nat.zero_mul, length_eq_zero_iff] at length length'
    rw [length, length']
  | succ count ih =>
    obtain ⟨a0, a1, a2, a3, rest, rfl, count'⟩ := exists_quarter length
    obtain ⟨b0, b1, b2, b3, rest', rfl, count''⟩ := exists_quarter length'
    simp only [pack, List.cons.injEq] at same
    simp only [mem_cons, forall_eq_or_imp] at small small'
    obtain ⟨l0, l1, l2, l3, smalls⟩ := small
    obtain ⟨l0', l1', l2', l3', smalls'⟩ := small'
    obtain ⟨byte, rests⟩ := same
    have e0 : a0 = b0 := by omega
    have e1 : a1 = b1 := by omega
    have e2 : a2 = b2 := by omega
    have e3 : a3 = b3 := by omega
    rw [e0, e1, e2, e3, ih smalls smalls' count' count'' rests]

theorem rowsetUniform_spec {row : Row} {byte : ℕ} (uniform : rowsetUniform row = some byte) :
    ∃ act, act < 3 ∧ byte = act * 85 ∧ ∀ confirmed target, action row confirmed target = act := by
  unfold rowsetUniform at uniform
  dsimp only at uniform
  split at uniform
  · cases uniform
  · rename_i words
    split at uniform
    · rename_i same
      cases uniform
      have all : ∀ i, row i = row 0 := fun i =>
        of_decide_eq_true (all_eq_true.mp same i (mem_finRange i))
      have act : ∀ word : UInt32, word = 0 ∨ word = 0x55555555 ∨ word = 0xAAAAAAAA →
          ∃ act, act < 3 ∧ word.toNat % 256 = act * 85 ∧
            ∀ target : Fin 16, word.toNat / 4 ^ target.val % 4 = act := by
        rintro word (rfl | rfl | rfl)
        · exact ⟨0, by decide, by decide, by decide⟩
        · exact ⟨1, by decide, by decide, by decide⟩
        · exact ⟨2, by decide, by decide, by decide⟩
      obtain ⟨act, lt, byte, drives⟩ := act (row 0) (by
        by_contra none
        push Not at none
        exact words none)
      refine ⟨act, lt, byte, fun confirmed target => ?_⟩
      rw [action, all]
      exact drives target
    · cases uniform

/-- The action of a pixel in the frame that begins with these data. -/
def Data.due (rows : Rows) (start : Data panel) (y : Fin panel.height) (x : Fin panel.width) : ℕ :=
  let px := start.state y x
  let step := stepAt start.frame px.b1
  if px.isActive then
    match start.wf (slotOf px.b1) with
    | some w =>
      if step < w.steps ∧ settles (rows (w.lut + step)) = false then
        action (rows (w.lut + step)) px.confirmed px.target
      else 0
    | none => 0
  else 0

def Data.dueRow (rows : Rows) (start : Data panel) (y : Fin panel.height) : List ℕ :=
  (List.finRange panel.width).map (start.due rows y)

@[simp]
theorem Data.length_dueRow (start : Data panel) (y : Fin panel.height) :
    (start.dueRow rows y).length = panel.width := by
  simp [Data.dueRow]

theorem Data.due_lt (start : Data panel) (y : Fin panel.height) (x : Fin panel.width) :
    start.due rows y x < 4 := by
  simp only [Data.due]
  split
  · split
    · split
      · exact Nat.mod_lt _ (by decide)
      · exact Nat.succ_pos 3
    · exact Nat.succ_pos 3
  · exact Nat.succ_pos 3

variable {x : Fin panel.width} {y : Fin panel.height}

theorem Data.due_of_rests {start : Data panel}
    (rests : (start.state y x).isActive = false) : start.due rows y x = 0 := by
  simp only [Data.due, rests, Bool.false_eq_true, if_false]

theorem action_hold (confirmed target : Fin 16) :
    action (rowset rows none) confirmed target = 0 := by
  have zero : (rowset rows none confirmed).toNat = 0 := rfl
  rw [action, zero, Nat.zero_div, Nat.zero_mod]

namespace Frame

theorem act_of_hold (frame : Frame panel) {px : Px}
    (built : ∃ before : Data panel, before.Sound rows ∧ frame = (before.buildFrame rows).2)
    (holds : frame.rowsetTab px.b1 = none) : frame.act rows px = 0 := by
  obtain ⟨before, _, rfl⟩ := built
  have held : (frameTab rows before.wf ((before.frame + 1) % 64) (decide (0 < before.waiters))
      px.b1).1 = none := holds
  rw [act]
  split
  · simp only [Data.buildFrame]
    rw [if_neg]
    intro mem
    have driving := (mem_filter.mp (mem_of_mem_take mem)).2
    exact of_decide_eq_true driving held
  · rw [holds, action_hold]

theorem act_of_drive (frame : Frame panel) {px : Px} {row : ℕ}
    (built : ∃ before : Data panel, before.Sound rows ∧ frame = (before.buildFrame rows).2)
    (drives : frame.rowsetTab px.b1 = some row) (live : frame.start.group px.b1 ≠ 0) :
    frame.act rows px = action (rows row) px.confirmed px.target := by
  obtain ⟨before, _, rfl⟩ := built
  have driven : (frameTab rows before.wf ((before.frame + 1) % 64) (decide (0 < before.waiters))
      px.b1).1 = some row := drives
  rw [act]
  split
  · rename_i fits
    simp only [Data.buildFrame, decide_eq_true_eq] at fits ⊢
    rw [take_of_length_le fits, if_pos, driven, buildAct256_low]
    · rfl
    · refine mem_filter.mpr ⟨mem_filter.mpr ⟨mem_finRange _, decide_eq_true live⟩, ?_⟩
      rw [driven]
      rfl
  · rw [drives]
    rfl

namespace Underway

theorem rowsetTab (under : frame.Underway rows d) (b1 : Fin 256) :
    frame.rowsetTab b1 =
      (frameTab rows frame.start.wf frame.start.frame (decide (0 < frame.start.waiters)) b1).1 := by
  obtain ⟨before, _, rfl⟩ := under.built
  rfl

theorem hold_of_late (under : frame.Underway rows d) (sound : d.Sound rows) {b1 : Fin 256}
    (late : Data.IsArmed b1 → stepAt d.frame b1 = 63) : frame.rowsetTab b1 = none := by
  rw [under.rowsetTab, frameTab]
  by_cases flies : b1.val < EPD_B1_PENDING.val
  · rw [if_pos flies, ← under.number, late flies]
    dsimp only
    split
    · rename_i w bound
      have le := (sound.valid _ w (by rw [under.wf]; exact bound)).steps_le
      have most : EPD_WF_STEP_MAX = 62 := rfl
      rw [if_neg (by omega)]
    · rfl
  · rw [if_neg flies]

/-- What the tables hold for a pixel of the frame. -/
theorem rowsetTab_due (under : frame.Underway rows d) (sound : d.Sound rows)
    (flies : (frame.start.state y x).isActive = true) :
    (frame.rowsetTab (frame.start.state y x).b1 = none ∧ frame.start.due rows y x = 0) ∨
      ∃ row, frame.rowsetTab (frame.start.state y x).b1 = some row ∧
        frame.start.due rows y x = action (rows row) (frame.start.state y x).confirmed
          (frame.start.state y x).target := by
  obtain ⟨w, bound, lt⟩ := under.replays y x flies
  have valid := sound.valid _ w (by rw [under.wf]; exact bound)
  have below : (frame.start.state y x).b1.val < EPD_B1_PENDING.val := Px.isActive_iff.mp flies
  rw [under.rowsetTab, frameTab, if_pos below]
  simp only [bound, Data.due, flies, if_true, lt, true_and]
  by_cases settle : rows (w.lut + stepAt frame.start.frame (frame.start.state y x).b1) 0 =
      EPD_SETTLE_WORD
  · left
    simp [settle, valid.whole _ lt settle]
  · right
    have drives : settles (rows (w.lut + stepAt frame.start.frame (frame.start.state y x).b1)) =
        false := by
      rw [Bool.eq_false_iff]
      exact fun all => settle (of_decide_eq_true (all_eq_true.mp all 0 (mem_finRange 0)))
    exact ⟨_, if_pos settle, by rw [if_pos drives]⟩

theorem live (under : frame.Underway rows d)
    (flies : (frame.start.state y x).isActive = true) :
    frame.start.group (frame.start.state y x).b1 ≠ 0 := by
  obtain ⟨before, sound, rfl⟩ := under.built
  have armed : Data.IsArmed (before.state y x).b1 := Px.isActive_iff.mp flies
  show before.group (before.state y x).b1 ≠ 0
  rw [sound.counted.group _ armed.ne.2]
  exact Data.count_pos (y := y) (x := x) (decide_eq_true rfl)

theorem act_eq_due (under : frame.Underway rows d) (sound : d.Sound rows) (y : Fin panel.height)
    (x : Fin panel.width) : frame.act rows (d.state y x) = frame.start.due rows y x := by
  cases old : (frame.start.state y x).isActive with
  | true =>
    rw [under.flying y x old]
    rcases under.rowsetTab_due sound old with ⟨holds, none⟩ | ⟨row, drives, due⟩
    · rw [none]
      exact frame.act_of_hold under.built holds
    · rw [due]
      exact frame.act_of_drive under.built drives (under.live old)
  | false =>
    rw [Data.due_of_rests old]
    exact frame.act_of_hold under.built
      (under.hold_of_late sound fun armed => under.others y x old (Px.isActive_iff.mpr armed))

/-- In a frame found uniform one action is due to all that fly. -/
theorem due_of_uniform (under : frame.Underway rows d) (sound : d.Sound rows) {byte : ℕ}
    (uniform : frame.uniform = some byte) : ∃ act, act < 3 ∧ byte = act * 85 ∧
      ∀ y x, (frame.start.state y x).isActive = true → frame.start.due rows y x = act := by
  obtain ⟨before, _, rfl⟩ := under.built
  simp only [Data.buildFrame] at uniform
  split at uniform
  · rename_i ptr only
    split at uniform
    · rename_i same
      obtain ⟨act, lt, value, drives⟩ := rowsetUniform_spec uniform
      refine ⟨act, lt, value, fun y x flies => ?_⟩
      rw [Bool.and_eq_true, Bool.not_eq_true', any_eq_false] at same
      let px := (before.buildFrame rows).2.start.state y x
      have shared : (before.buildFrame rows).2.rowsetTab px.b1 = ptr := by
        have one := same.1 _ (mem_filter.mpr
          ⟨mem_finRange _, decide_eq_true (under.live flies)⟩)
        rw [only, decide_eq_true_eq, not_not, Option.some.injEq] at one
        exact one
      rcases under.rowsetTab_due sound flies with ⟨holds, none⟩ | ⟨row, driven, due⟩
      · rw [none, ← drives 0 0, ← shared, holds, action_hold]
      · rw [due, ← drives px.confirmed px.target, ← shared, driven]
        rfl
    · cases uniform
  · cases uniform

end Underway

def PartOk (rows : Rows) (frame : Frame panel) (y : Fin panel.height) : RowPart → Prop
  | .first => True
  | .second byte => frame.uniform = some byte
  | .pixels actions => actions = (frame.start.dueRow rows y).take actions.length

/-- A row in which not all pixels are in the frame is complete at the second
look, and the uniform line drives. -/
def Slips (frame : Frame panel) (view : Data panel) (y : Fin panel.height) (part : RowPart) : Prop :=
  ∃ byte, part = .second byte ∧ byte ≠ 0 ∧ view.rowNonidle y = panel.width ∧
    ∃ x, (frame.start.state y x).isActive = false

theorem pack_dueRow_of_const {start : Data panel} {act : ℕ}
    (all : ∀ x, start.due rows y x = act) :
    pack (start.dueRow rows y) = List.replicate (panel.width / 4) (act * 85) := by
  have row : start.dueRow rows y = List.replicate (panel.width / 4 * 4) act := by
    rw [Nat.div_mul_cancel (Nat.dvd_of_mod_eq_zero panel.quarters)]
    apply eq_replicate_iff.mpr
    refine ⟨Data.length_dueRow start y, fun due member => ?_⟩
    obtain ⟨x, _, rfl⟩ := mem_map.mp member
    exact all x
  rw [row, pack_replicate]

theorem const_of_pack_dueRow {start : Data panel} {act : ℕ} (lt : act < 4)
    (same : List.replicate (panel.width / 4) (act * 85) = pack (start.dueRow rows y))
    (x : Fin panel.width) : start.due rows y x = act := by
  have width := Nat.div_mul_cancel (Nat.dvd_of_mod_eq_zero panel.quarters)
  rw [← pack_replicate] at same
  have row := pack_injective (fun member mem => by rwa [eq_of_mem_replicate mem])
    (fun member mem => by
      obtain ⟨x, _, rfl⟩ := mem_map.mp mem
      exact start.due_lt y x)
    length_replicate (by rw [Data.length_dueRow, width]) same
  have member : start.due rows y x ∈ start.dueRow rows y :=
    mem_map.mpr ⟨x, mem_finRange x, rfl⟩
  rw [← row] at member
  exact eq_of_mem_replicate member

/-- A row goes on as it should, or its line is sent, which is the right one
unless the row slips. -/
theorem Underway.scanRow (under : frame.Underway rows d) (sound : d.Sound rows) {part : RowPart}
    (ok : frame.PartOk rows y part) :
    (∀ next, frame.scanRow rows d y part = .inl next → frame.PartOk rows y next) ∧
      ∀ line, frame.scanRow rows d y part = .inr line →
        (line = pack (frame.start.dueRow rows y) ↔ ¬ frame.Slips d y part) := by
  cases part with
  | first =>
    simp only [Frame.scanRow]
    split
    · rename_i none
      refine ⟨nofun, fun line sent => ?_⟩
      cases sent
      have rests : ∀ x, frame.start.due rows y x = 0 := by
        intro x
        apply Data.due_of_rests
        rw [Bool.eq_false_iff]
        intro flies
        have idle := sound.counted.row_idle none x
        rw [under.flying y x flies] at idle
        exact (Px.isActive_iff.mp flies).ne.2 idle
      rw [pack_dueRow_of_const rests]
      refine ⟨fun _ slips => ?_, fun _ => rfl⟩
      obtain ⟨_, other, _⟩ := slips
      cases other
    · split
      · rename_i byte uniform
        exact ⟨fun _ more => by cases more; exact uniform, nofun⟩
      · exact ⟨fun _ more => by cases more; exact (take_zero).symm, nofun⟩
  | second byte =>
    simp only [Frame.scanRow]
    split
    · rename_i full
      rw [Nat.mod_eq_of_lt panel.width_lt] at full
      refine ⟨nofun, fun line sent => ?_⟩
      cases sent
      obtain ⟨act, lt, rfl, drives⟩ := under.due_of_uniform sound ok
      constructor
      · rintro same ⟨_, value, drive, _, x, rests⟩
        cases value
        have due := const_of_pack_dueRow (by omega) same x
        rw [Data.due_of_rests rests] at due
        omega
      · intro straight
        rw [pack_dueRow_of_const fun x => ?_]
        cases flies : (frame.start.state y x).isActive with
        | true => exact drives y x flies
        | false =>
          rw [Data.due_of_rests flies]
          by_contra drive
          exact straight ⟨_, rfl, by omega, full, x, flies⟩
    · exact ⟨fun _ more => by cases more; exact (take_zero).symm, nofun⟩
  | pixels actions =>
    have ok : actions = (frame.start.dueRow rows y).take actions.length := ok
    simp only [Frame.scanRow]
    split
    · rename_i more
      refine ⟨fun _ goes => ?_, nofun⟩
      cases goes
      show _ = (frame.start.dueRow rows y).take _
      rw [under.act_eq_due sound, length_append, length_singleton,
        take_add_one, ← ok]
      congr 1
      simp [Data.dueRow, more]
    · rename_i whole
      refine ⟨nofun, fun line sent => ?_⟩
      cases sent
      rw [take_of_length_le (by rw [Data.length_dueRow]; omega)] at ok
      rw [ok]
      refine ⟨fun _ slips => ?_, fun _ => rfl⟩
      obtain ⟨_, other, _⟩ := slips
      cases other

end Frame

def Data.lines (rows : Rows) (start : Data panel) : List (List ℕ) :=
  (List.finRange panel.height).map fun y => pack (start.dueRow rows y)

namespace Driver

variable {epd before after : Driver panel Task} {action : Action Task}

/-- The line that the next step of the scan sends, with the one that is due. -/
def sends (rows : Rows) (fresh : Bool) (epd : Driver panel Task) : Option (List ℕ × List ℕ) :=
  match epd.engine with
  | .scanning frame y part _ =>
    if more : y < panel.height then
      match frame.scanRow rows (epd.view fresh) ⟨y, more⟩ part with
      | .inl _ => none
      | .inr line => some (line, pack (frame.start.dueRow rows ⟨y, more⟩))
    else none
  | _ => none

def Slips (epd : Driver panel Task) (fresh : Bool) : Prop :=
  ∃ frame y part sent, ∃ more : y < panel.height, epd.engine = .scanning frame y part sent ∧
    frame.Slips (epd.view fresh) ⟨y, more⟩ part

def Scans (rows : Rows) (epd : Driver panel Task) : Prop :=
  ∀ frame y part sent, epd.engine = .scanning frame y part sent →
    ∀ more : y < panel.height, frame.PartOk rows ⟨y, more⟩ part

def Sent (rows : Rows) (epd : Driver panel Task) : Prop :=
  ∀ frame y part sent, epd.engine = .scanning frame y part sent →
    sent = (frame.start.lines rows).take y

theorem Inv.view (inv : epd.Inv rows) (fresh : Bool) : epd.Fits rows (epd.view fresh) := by
  unfold Driver.view
  split
  · rename_i held writes
    cases fresh with
    | true => exact inv.next held writes
    | false => exact inv.now
  · exact inv.now

theorem engine_cases [DecidableEq Task] (stepTo : before.step rows action = some after) :
    after.engine = before.engine ∨
      (∀ frame y part sent, after.engine ≠ .scanning frame y part sent) ∨
      (∃ frame, after.engine = .scanning frame 0 .first []) ∨
      ∃ fresh frame y part sent, ∃ more : y < panel.height, action = .scan fresh ∧
        before.engine = .scanning frame y part sent ∧
        ((∃ next, frame.scanRow rows (before.view fresh) ⟨y, more⟩ part = .inl next ∧
            after.engine = .scanning frame y next sent) ∨
          ∃ line, frame.scanRow rows (before.view fresh) ⟨y, more⟩ part = .inr line ∧
            after.engine = .scanning frame (y + 1) .first (sent ++ [line])) := by
  cases moves stepTo with
  | setMode | called | returned | locked | relocked | unlocked | tookEvent | notified | refreshes
  | refreshed => exact .inl rfl
  | sleeps | starts | woken | scanned | skipped | retires | posts =>
    refine .inr (.inl fun frame y part sent scanning => ?_)
    cases scanning
  | begins => exact .inr (.inr (.inl ⟨_, rfl⟩))
  | scans more scanning goes =>
    exact .inr (.inr (.inr ⟨_, _, _, _, _, more, rfl, scanning, .inl ⟨_, goes, rfl⟩⟩))
  | sends more scanning goes =>
    exact .inr (.inr (.inr ⟨_, _, _, _, _, more, rfl, scanning, .inr ⟨_, goes, rfl⟩⟩))

theorem Scans.step [DecidableEq Task] (scans : before.Scans rows) (inv : before.Inv rows)
    (stepTo : before.step rows action = some after) : after.Scans rows := by
  intro frame y part sent scanning more
  rcases engine_cases stepTo with same | other | ⟨_, begins⟩ |
      ⟨fresh, frame', y', part', sent', more', _, scanned, goes⟩
  · exact scans frame y part sent (same ▸ scanning) more
  · exact absurd scanning (other frame y part sent)
  · rw [begins] at scanning
    cases scanning
    trivial
  · have fits := inv.view fresh
    have under := fits.underway frame' (by rw [scanned]; rfl)
    obtain ⟨next, _⟩ := under.scanRow fits.sound (scans frame' y' part' sent' scanned more')
    rcases goes with ⟨part'', goes, after'⟩ | ⟨line, _, after'⟩
    · rw [after'] at scanning
      cases scanning
      exact next part goes
    · rw [after'] at scanning
      cases scanning
      trivial

theorem Sent.step [DecidableEq Task] (sent : before.Sent rows) (scans : before.Scans rows)
    (inv : before.Inv rows) (straight : ∀ fresh, action = .scan fresh → ¬ before.Slips fresh)
    (stepTo : before.step rows action = some after) : after.Sent rows := by
  intro frame y part lines scanning
  rcases engine_cases stepTo with same | other | ⟨_, begins⟩ |
      ⟨fresh, frame', y', part', sent', more', act, scanned, goes⟩
  · exact sent frame y part lines (same ▸ scanning)
  · exact absurd scanning (other frame y part lines)
  · rw [begins] at scanning
    cases scanning
    exact take_zero.symm
  · have old := sent frame' y' part' sent' scanned
    rcases goes with ⟨part'', goes, after'⟩ | ⟨line, goes, after'⟩
    · rw [after'] at scanning
      cases scanning
      exact old
    · rw [after'] at scanning
      cases scanning
      have fits := inv.view fresh
      have under := fits.underway frame (by rw [scanned]; rfl)
      obtain ⟨_, line'⟩ := under.scanRow fits.sound (scans frame y' part' sent' scanned more')
      have due := (line' line goes).mpr fun slips =>
        straight fresh act ⟨frame, y', part', sent', more', scanned, slips⟩
      rw [old, due, take_add_one]
      congr 1
      simp [Data.lines, more']

theorem scans_of_create {luts : Fin 4 → Option ℕ × ℕ} {initial : Driver panel Task}
    (made : create rows luts = some initial) : initial.Scans rows ∧ initial.Sent rows := by
  obtain ⟨_, made⟩ := Option.ite_none_left_eq_some.mp made
  cases made
  constructor <;> · intro frame y part sent scanning; cases scanning

/-- A line that is sent is the one that is due when the frame begins, exactly
if its row does not slip; in a run in which none slips, every line is. -/
theorem lines_as_due [DecidableEq Task] {luts : Fin 4 → Option ℕ × ℕ}
    {initial : Driver panel Task} (made : create rows luts = some initial) :
    (∀ epd : Driver panel Task, Reachable (· = initial) (Next rows) epd → ∀ fresh line due,
        epd.sends rows fresh = some (line, due) → (line = due ↔ ¬ epd.Slips fresh)) ∧
      ∀ epd : Driver panel Task, Reachable (· = initial)
        (fun before after => ∃ action, before.step rows action = some after ∧
          ∀ fresh, action = .scan fresh → ¬ before.Slips fresh) epd →
        ∀ frame y part sent, epd.engine = .scanning frame y part sent →
          sent = (frame.start.lines rows).take y := by
  obtain ⟨inv₀, waiters₀⟩ := fits_of_create made
  obtain ⟨scans₀, sent₀⟩ := scans_of_create made
  constructor
  · intro epd reachable fresh line due sending
    have start : ∀ state, state = initial → state.Inv rows ∧ state.Scans rows := by
      rintro state rfl
      exact ⟨inv₀, scans₀⟩
    have kept : ∀ before after : Driver panel Task, before.Inv rows ∧ before.Scans rows →
        Next rows before after → after.Inv rows ∧ after.Scans rows := by
      rintro before after ⟨inv, scans⟩ ⟨action, stepTo⟩
      exact ⟨(inv.step stepTo).1, scans.step inv stepTo⟩
    obtain ⟨inv, scans⟩ := reachable.invariant start kept
    unfold sends at sending
    split at sending
    · rename_i frame y part sent scanning
      split at sending
      · rename_i more
        split at sending
        · cases sending
        · rename_i line' goes
          cases sending
          have fits := inv.view fresh
          have under := fits.underway frame (by rw [scanning]; rfl)
          obtain ⟨_, right⟩ := under.scanRow fits.sound (scans frame y part sent scanning more)
          rw [right line goes, not_iff_not]
          constructor
          · exact fun slips => ⟨frame, y, part, sent, more, scanning, slips⟩
          · rintro ⟨frame', y', part', sent', more', scanned, slips⟩
            rw [scanning] at scanned
            cases scanned
            exact slips
      · cases sending
    · cases sending
  · intro epd reachable
    have start : ∀ state, state = initial →
        state.Inv rows ∧ state.Scans rows ∧ state.Sent rows := by
      rintro state rfl
      exact ⟨inv₀, scans₀, sent₀⟩
    have kept : ∀ before after : Driver panel Task,
        before.Inv rows ∧ before.Scans rows ∧ before.Sent rows →
        (∃ action, before.step rows action = some after ∧
          ∀ fresh, action = .scan fresh → ¬ before.Slips fresh) →
          after.Inv rows ∧ after.Scans rows ∧ after.Sent rows := by
      rintro before after ⟨inv, scans, sent⟩ ⟨action, stepTo, straight⟩
      exact ⟨(inv.step stepTo).1, scans.step inv stepTo, sent.step scans inv straight stepTo⟩
    exact (reachable.invariant start kept).2.2

def completed : List (Action (Fin 3)) :=
  wakes ++ [.call 1 (.drawBitmap ⟨⟨2, 0, 4, 1⟩, .R0, []⟩), .lock 1, .unlock, .scan false]

/-- Pixels that are pending are darkened. -/
theorem pending_driven : ∃ initial epd : Driver strip (Fin 3),
    create darken stripLuts = some initial ∧ Reachable (· = initial) (Next darken) epd ∧
      epd.sends darken false = some ([0x55], [0x50]) := by
  obtain ⟨initial, made⟩ : ∃ initial : Driver strip (Fin 3), create darken stripLuts = some initial :=
    Option.isSome_iff_exists.mp (by decide +kernel)
  obtain ⟨epd, result⟩ : ∃ epd : Driver strip (Fin 3),
      initial.run darken (fun _ => true) completed = some epd := by
    cases made
    exact Option.isSome_iff_exists.mp (by decide +kernel)
  have facts : (initial.run darken (fun _ => true) completed).map (sends darken false) =
      some (some ([0x55], [0x50])) := by
    cases made
    decide +kernel
  rw [result] at facts
  exact ⟨initial, epd, made, reachable_of_run next_of_step (.start rfl) result,
    Option.some.inj facts⟩

/-- Without the draw only the pixels in flight are darkened. -/
theorem flying_driven : ∃ epd : Driver strip (Fin 3),
    epd.sends darken false = some ([0x50], [0x50]) ∧ ¬ epd.Slips false := by
  obtain ⟨initial, made⟩ : ∃ initial : Driver strip (Fin 3), create darken stripLuts = some initial :=
    Option.isSome_iff_exists.mp (by decide +kernel)
  obtain ⟨epd, result⟩ : ∃ epd : Driver strip (Fin 3), initial.run darken (fun _ => true)
      (wakes ++ List.replicate 6 (.scan false)) = some epd := by
    cases made
    exact Option.isSome_iff_exists.mp (by decide +kernel)
  have facts : (initial.run darken (fun _ => true)
      (wakes ++ List.replicate 6 (.scan false))).map (sends darken false) =
        some (some ([0x50], [0x50])) := by
    cases made
    decide +kernel
  rw [result] at facts
  have sending := Option.some.inj facts
  exact ⟨epd, sending, ((lines_as_due made).1 epd
    (reachable_of_run next_of_step (.start rfl) result) false _ _ sending).mp rfl⟩

end Driver

end EspDevkit.Epd
