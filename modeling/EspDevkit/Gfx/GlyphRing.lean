import EspDevkit.Gfx.GlyphIndex
import EspDevkit.Library.SpanRing

/-!
# The ring of the glyph cache

The masks of the slots in use lie round the ring in the order of the slots.
-/

namespace EspDevkit.Gfx.Glyph

open Library.SpanRing List Option

variable {bytes m k : ℕ}

namespace GlyphCache

/-- The `len` bytes at `at_`. -/
def slice (s : GlyphCache bytes m k) (at_ len : ℕ) : List UInt8 :=
  (List.range len).map fun j => s.data (at_ + j)

/-- `mask` stands at `at_`. -/
def Shows (s : GlyphCache bytes m k) (at_ : ℕ) (mask : List UInt8) : Prop :=
  at_ + mask.length ≤ bytes ∧ s.slice at_ mask.length = mask

instance (s : GlyphCache bytes m k) (at_ : ℕ) (mask : List UInt8) : Decidable (s.Shows at_ mask) :=
  inferInstanceAs (Decidable (_ ∧ _))

theorem Shows.of_data {s s' : GlyphCache bytes m k} {at_ : ℕ} {mask : List UInt8}
    (shows_ : s.Shows at_ mask)
    (same : ∀ i, at_ ≤ i → i < at_ + mask.length → s'.data i = s.data i) :
    s'.Shows at_ mask := by
  refine ⟨shows_.1, Eq.trans ?_ shows_.2⟩
  refine map_congr_left fun j inside => ?_
  have low := mem_range.mp inside
  exact same _ (by omega) (by omega)

def span (raster : Key → List UInt8) (s : GlyphCache bytes m k) (slot : Fin m) : ℕ × ℕ :=
  ((s.slots slot).offset, (raster (s.key slot)).length)

/-- The slots that have to go before `len` bytes fit behind `write`, from those in `queue`. -/
def leaving (s : GlyphCache bytes m k) (queue : List (Fin m)) (len : ℕ) : List (Fin m) :=
  if bytes < s.write + len then
    let past := s.due fun offset => s.write ≤ offset
    queue.takeWhile past ++ (queue.dropWhile past).takeWhile (s.due fun offset => offset < len)
  else queue.takeWhile (s.due fun offset => s.write ≤ offset && offset < s.write + len)

end GlyphCache

/-- The masks of the slots in use lie round the ring, and each is its glyph's. -/
structure Laid (raster : Key → List UInt8) (s : GlyphCache bytes m k) : Prop where
  ring : Ring s.write bytes (s.live.map (s.span raster))
  masks : ∀ slot ∈ s.live, s.Shows (s.slots slot).offset (raster (s.key slot))

variable {raster : Key → List UInt8} {s s' : GlyphCache bytes m k}

theorem laid_new (bytes : ℕ) : Laid raster (new bytes) :=
  ⟨Ring.nil, fun _ member => absurd member (by simp [new, GlyphCache.live])⟩

theorem Kept.key (kept : Kept s s') : s'.key = s.key := by
  unfold GlyphCache.key
  rw [kept.slots]

theorem Kept.span (kept : Kept s s') : s'.span raster = s.span raster := by
  unfold GlyphCache.span
  rw [kept.slots, kept.key]

theorem Evicted.masks (step : Evicted s s') (laid : Laid raster s) :
    ∀ slot ∈ s'.live, s'.Shows (s'.slots slot).offset (raster (s'.key slot)) := by
  intro slot member
  rw [step.kept.slots, step.kept.key]
  exact (laid.masks slot (step.subset member)).of_data fun i _ _ => by rw [step.kept.data]

theorem Evicted.laid (step : Evicted s s') (still : s'.write = s.write) (laid : Laid raster s) :
    Laid raster s' := by
  refine ⟨?_, step.masks laid⟩
  obtain ⟨gone, order, -⟩ := step.order
  have ring := laid.ring
  rw [order, map_append] at ring
  rw [step.kept.span, still]
  exact ring.suffix

theorem Evicted.wrapped (step : Evicted s s') : Evicted s { s' with write := 0 } where
  kept := ⟨step.kept.slots, step.kept.data, step.kept.frame⟩
  filed := ⟨step.filed.probed, step.filed.stored, step.filed.keys, step.filed.most⟩
  order := step.order

section Reserve

/-- The slots of `reserve` are refused when one of this frame is among those that have to go. -/
def GlyphCache.Stuck (s : GlyphCache bytes m k) (gone : List (Fin m)) : Prop :=
  ∃ slot ∈ gone, (s.slots slot).frame = s.frame

theorem not_stuck {gone : List (Fin m)} :
    (∀ slot ∈ gone, (s.slots slot).frame ≠ s.frame) ↔ ¬s.Stuck gone := by
  unfold GlyphCache.Stuck
  push Not
  rfl

theorem stuck_append {first last : List (Fin m)} :
    s.Stuck (first ++ last) ↔ s.Stuck first ∨ s.Stuck last := by
  unfold GlyphCache.Stuck
  simp only [mem_append, or_and_right, exists_or]

theorem Kept.stuck (kept : Kept s s') {gone : List (Fin m)} : s'.Stuck gone ↔ s.Stuck gone := by
  unfold GlyphCache.Stuck
  rw [kept.slots, kept.frame]

theorem wrap_long (sizes : Sizes m k) (filed : Filed s) (laid : Laid raster s) {len : ℕ}
    (long : bytes < s.write + len) :
    let past := s.due fun offset => s.write ≤ offset
    ∃ s' ok, s.wrap len = some (s', ok) ∧ Evicted s s' ∧ Laid raster s' ∧
      (ok = true ↔ ¬s.Stuck (s.live.takeWhile past)) ∧
      (ok = true → s'.write = 0 ∧ s'.live = s.live.dropWhile past) := by
  intro past
  obtain ⟨s', ok, walked, step, still, exactly, after⟩ :=
    filed.evictWhile_eq sizes (fun offset => s.write ≤ offset) (s.count + 1) (Nat.lt_succ_self _)
  have kept := step.laid still laid
  rw [not_stuck] at exactly
  cases ok with
  | false =>
    refine ⟨s', false, ?_, step, kept, exactly, fun no => absurd no (by simp)⟩
    rw [GlyphCache.wrap, if_pos long, walked]
    rfl
  | true =>
    refine ⟨{ s' with write := 0 }, true, ?_, step.wrapped, ⟨?_, kept.masks⟩, exactly,
      fun _ => ⟨rfl, after rfl⟩⟩
    · rw [GlyphCache.wrap, if_pos long, walked]
      rfl
    · -- what is left lies before the write place
      refine kept.ring.wrap fun span first => ?_
      have order := after rfl
      cases rest : s'.live with
      | nil =>
        rw [rest] at first
        exact absurd first (by simp)
      | cons slot others =>
        rw [rest] at order first
        have no := List.head?_dropWhile_not past s.live
        rw [← order] at no
        have early : ¬s.write ≤ (s.slots slot).offset := of_decide_eq_false no
        rw [← Option.some.inj first, still]
        show (s'.slots slot).offset < s.write
        rw [step.kept.slots]
        omega

/-- `clear` when the mask fits behind `write`: no mask left overlaps its place. -/
theorem clear_eq (sizes : Sizes m k) (filed : Filed s) (laid : Laid raster s) {len : ℕ}
    (fits : s.write + len ≤ bytes) :
    let within := s.due fun offset => s.write ≤ offset && offset < s.write + len
    ∃ s' ok, s.clear len = some (s', ok) ∧ Evicted s s' ∧ Laid raster s' ∧ s'.write = s.write ∧
      (ok = true ↔ ¬s.Stuck (s.live.takeWhile within)) ∧
      (ok = true → Ring (s.write + len) bytes (s'.live.map (s'.span raster) ++ [(s.write, len)]) ∧
        ∀ slot ∈ s'.live, (s'.span raster slot).1 + (s'.span raster slot).2 ≤ s.write ∨
          s.write + len ≤ (s'.span raster slot).1) := by
  intro within
  obtain ⟨s', ok, walked, step, still, exactly, after⟩ :=
    filed.evictWhile_eq sizes (fun offset => s.write ≤ offset && offset < s.write + len)
      (s.count + 1) (Nat.lt_succ_self _)
  have kept := step.laid still laid
  rw [not_stuck] at exactly
  refine ⟨s', ok, walked, step, kept, still, exactly, fun yes => ?_⟩
  have order := after yes
  have ring := kept.ring
  rw [still] at ring
  obtain ⟨pushed, apart⟩ := ring.push fits fun span first => by
    cases rest : s'.live with
    | nil =>
      rw [rest] at first
      exact absurd first (by simp)
    | cons slot others =>
      rw [rest] at order first
      have no := List.head?_dropWhile_not within s.live
      rw [show s.live.dropWhile within = _ from order.symm] at no
      have outside : (s.write ≤ (s.slots slot).offset && (s.slots slot).offset < s.write + len) =
        false := no
      rw [← Option.some.inj first]
      show (s'.slots slot).offset < s.write ∨ s.write + len ≤ (s'.slots slot).offset
      rw [step.kept.slots]
      simp only [Bool.and_eq_false_iff, decide_eq_false_iff_not] at outside
      omega
  exact ⟨pushed, fun slot member => apart _ (mem_map_of_mem member)⟩

/-- `reserve` ends; it gives a place that no mask in use overlaps, unless `len` is longer than the
ring or a slot of this frame has to go. -/
theorem reserve_eq (sizes : Sizes m k) (filed : Filed s) (laid : Laid raster s) (len : ℕ) :
    ∃ s', Evicted s s' ∧
      (s.reserve len = some (s', none) ∧ Laid raster s' ∧
          (bytes < len ∨ s.Stuck (s.leaving s.live len)) ∨
        ∃ offset, s.reserve len = some ({ s' with write := offset + len }, some offset) ∧
          offset + len ≤ bytes ∧ ¬s.Stuck (s.leaving s.live len) ∧
          Ring (offset + len) bytes (s'.live.map (s'.span raster) ++ [(offset, len)]) ∧
          ∀ slot ∈ s'.live, (s'.span raster slot).1 + (s'.span raster slot).2 ≤ offset ∨
            offset + len ≤ (s'.span raster slot).1) := by
  by_cases large : bytes < len
  · exact ⟨s, .refl filed, .inl ⟨if_pos large, laid, .inl large⟩⟩
  by_cases long : bytes < s.write + len
  · obtain ⟨s₁, ok, walked, step, laid₁, exactly, after⟩ := wrap_long sizes filed laid long
    have form : s.leaving s.live len = s.live.takeWhile (s.due fun offset => s.write ≤ offset) ++
        (s.live.dropWhile (s.due fun offset => s.write ≤ offset)).takeWhile
          (s.due fun offset => offset < len) := if_pos long
    cases ok with
    | false =>
      refine ⟨s₁, step, .inl ⟨?_, laid₁, .inr ?_⟩⟩
      · rw [GlyphCache.reserve, if_neg large, walked]
        rfl
      · rw [form, stuck_append]
        exact .inl (by_contra fun free => absurd (exactly.mpr free) (by simp))
    | true =>
      obtain ⟨zero, order⟩ := after rfl
      have free := exactly.mp rfl
      have fits : s₁.write + len ≤ bytes := by omega
      obtain ⟨s₂, ok, cleared, step₂, laid₂, still, exactly₂, apart⟩ :=
        clear_eq sizes step.filed laid₁ fits
      have due : (s₁.due fun offset => s₁.write ≤ offset && offset < s₁.write + len) =
          s.due fun offset => offset < len := by
        rw [step.kept.due, zero]
        simp
      rw [due, order, step.kept.stuck] at exactly₂
      rw [zero] at apart still
      have result : s.reserve len = if ok then some ({ s₂ with write := 0 + len }, some 0)
          else some (s₂, none) := by
        rw [GlyphCache.reserve, if_neg large, walked, bind_some, if_pos rfl, cleared,
          map_some, still]
        cases ok <;> rfl
      cases ok with
      | false =>
        refine ⟨s₂, step.trans step₂, .inl ⟨result, laid₂, .inr ?_⟩⟩
        rw [form, stuck_append]
        exact .inr (by_contra fun free => absurd (exactly₂.mpr free) (by simp))
      | true =>
        refine ⟨s₂, step.trans step₂, .inr ⟨0, result, by omega, ?_, apart rfl⟩⟩
        rw [form, stuck_append]
        exact fun stuck => stuck.elim free (exactly₂.mp rfl)
  · have fits : s.write + len ≤ bytes := by omega
    obtain ⟨s₂, ok, cleared, step₂, laid₂, still, exactly₂, apart⟩ :=
      clear_eq sizes filed laid fits
    have form : s.leaving s.live len =
        s.live.takeWhile (s.due fun offset => s.write ≤ offset && offset < s.write + len) :=
      if_neg long
    have result : s.reserve len =
        if ok then some ({ s₂ with write := s.write + len }, some s.write)
        else some (s₂, none) := by
      rw [GlyphCache.reserve, if_neg large, GlyphCache.wrap, if_neg long, bind_some,
        if_pos rfl, cleared, map_some, still]
      cases ok <;> rfl
    cases ok with
    | false =>
      refine ⟨s₂, step₂, .inl ⟨result, laid₂, .inr ?_⟩⟩
      rw [form]
      exact by_contra fun free => absurd (exactly₂.mpr free) (by simp)
    | true =>
      refine ⟨s₂, step₂, .inr ⟨s.write, result, by omega, ?_, apart rfl⟩⟩
      rw [form]
      exact exactly₂.mp rfl

end Reserve

end EspDevkit.Gfx.Glyph
