import EspDevkit.Gfx.GlyphRing
import Mathlib.Data.List.GetD

/-!
# What the glyph cache serves

Every call ends, and every mask returned since `begin_frame` stands where it was returned.
-/

namespace EspDevkit.Gfx.Glyph

open Library.SpanRing List Option Function

variable {bytes m k : ℕ} {raster : Key → List UInt8} {s s' : GlyphCache bytes m k}

def GlyphCache.Holds (s : GlyphCache bytes m k) (served : Served) : Prop :=
  ∃ slot ∈ s.live, s.key slot = served.key ∧ (s.slots slot).offset = served.at_ ∧
    (s.slots slot).frame = s.frame

/-- The slots that have to go before a new mask of `len` bytes. -/
def GlyphCache.outgoing (s : GlyphCache bytes m k) (len : ℕ) : List (Fin m) :=
  let full := if s.count = m then s.live.take 1 else []
  full ++ s.leaving (s.live.drop full.length) len

def GlyphCache.Blocked (raster : Key → List UInt8) (s : GlyphCache bytes m k) (key : Key) : Prop :=
  (∀ slot ∈ s.live, s.key slot ≠ key) ∧ s.Stuck (s.outgoing (raster key).length)

theorem Laid.shows (laid : Laid raster s) {served : Served} (holds : s.Holds served) :
    s.Shows served.at_ (raster served.key) := by
  obtain ⟨slot, member, key, offset, -⟩ := holds
  rw [← key, ← offset]
  exact laid.masks slot member

theorem Evicted.holds (step : Evicted s s') {served : Served} (holds : s.Holds served) :
    s'.Holds served := by
  obtain ⟨slot, member, key, offset, frame⟩ := holds
  refine ⟨slot, step.keeps member frame, ?_, ?_, ?_⟩
  · rw [step.kept.key, key]
  · rw [step.kept.slots, offset]
  · rw [step.kept.slots, step.kept.frame, frame]

section Decode

variable {offset : ℕ} {mask : List UInt8}

theorem decode_eq (fits : offset + mask.length ≤ bytes) :
    ∃ s', s.decode offset mask = some s' ∧ s'.Shows offset mask ∧
      (∀ i, i < offset ∨ offset + mask.length ≤ i → s'.data i = s.data i) ∧
      ∃ data decoded, s' = { s with data := data, decoded := decoded } := by
  refine ⟨_, if_pos fits, ⟨fits, ?_⟩, ?_, _, _, rfl⟩
  · refine ext_getElem (by simp [GlyphCache.slice]) fun j inside short => ?_
    simp only [GlyphCache.slice, getElem_map, getElem_range,
      if_pos (Nat.le_add_right offset j), Nat.add_sub_cancel_left]
    exact getD_eq_getElem _ _ short
  · intro i outside
    by_cases behind : offset ≤ i
    · have past : mask.length ≤ i - offset := by omega
      show (if offset ≤ i then mask.getD (i - offset) (s.data i) else s.data i) = s.data i
      rw [if_pos behind, getD_eq_default _ _ past]
    · exact if_neg behind

end Decode

theorem place_laid (sizes : Sizes m k) (filed : Filed s) (room : s.count < m) {key : Key}
    (fresh : ∀ slot ∈ s.live, s.key slot ≠ key) {offset : ℕ}
    (ring : Ring s.write bytes (s.live.map (s.span raster) ++ [(offset, (raster key).length)]))
    (masks : ∀ slot ∈ s.live, s.Shows (s.slots slot).offset (raster (s.key slot)))
    (new_mask : s.Shows offset (raster key)) :
    ∃ s', s.place key offset = some s' ∧ Filed s' ∧ Laid raster s' ∧
      (∀ served, s.Holds served → s'.Holds served) ∧ s'.Holds ⟨key, offset⟩ := by
  obtain ⟨index, placed, filed', order⟩ := filed.place_eq sizes room fresh offset
  generalize shape : ({ s with
    slots := Function.update s.slots (s.turn s.count)
      { font := key.1, glyph := key.2, offset := offset, frame := s.frame }
    count := s.count + 1
    index := index } : GlyphCache bytes m k) = s' at placed filed' order
  have last : s'.slots (s.turn s.count) =
      { font := key.1, glyph := key.2, offset := offset, frame := s.frame } := by
    rw [← shape]
    exact update_self _ _ _
  have others : ∀ slot ∈ s.live, s'.slots slot = s.slots slot := by
    intro slot member
    rw [← shape]
    refine update_of_ne (fun same => ?_) _ _
    rw [same] at member
    exact GlyphCache.turn_count_fresh room member
  have data : s'.data = s.data := by rw [← shape]
  have frame : s'.frame = s.frame := by rw [← shape]
  have write : s'.write = s.write := by rw [← shape]
  have keys : ∀ slot ∈ s.live, s'.key slot = s.key slot := fun slot member =>
    congrArg Slot.key (others slot member)
  have last_key : s'.key (s.turn s.count) = key := by
    rw [GlyphCache.key, last]
    rfl
  have last_span : s'.span raster (s.turn s.count) = (offset, (raster key).length) := by
    rw [GlyphCache.span, last_key, last]
  refine ⟨s', placed, filed', ⟨?_, ?_⟩, ?_, ?_⟩
  · have spans : s.live.map (s'.span raster) = s.live.map (s.span raster) := by
      refine map_congr_left fun slot member => ?_
      rw [GlyphCache.span, keys slot member, others slot member]
      rfl
    rw [order, write, map_append, map_singleton, last_span, spans]
    exact ring
  · intro slot member
    rw [order] at member
    rcases mem_append.mp member with old | new_
    · rw [others slot old, keys slot old]
      exact (masks slot old).of_data fun i _ _ => by rw [data]
    · rw [mem_singleton.mp new_, last_key, last]
      exact new_mask.of_data fun i _ _ => by rw [data]
  · rintro served ⟨slot, member, key_eq, offset_eq, frame_eq⟩
    refine ⟨slot, ?_, ?_, ?_, ?_⟩
    · rw [order]
      exact mem_append_left _ member
    · rw [keys slot member, key_eq]
    · rw [others slot member, offset_eq]
    · rw [others slot member, frame, frame_eq]
  · refine ⟨s.turn s.count, ?_, last_key, ?_, ?_⟩
    · rw [order]
      exact mem_append_right _ (mem_singleton_self _)
    · rw [last]
    · rw [last, frame]

theorem Evicted.count_le (step : Evicted s s') : s'.count ≤ s.count := by
  obtain ⟨gone, order, -⟩ := step.order
  have lengths := congrArg List.length order
  simp only [GlyphCache.live, length_map, length_range, length_append] at lengths
  omega

/-- A miss, once there is a slot: refused as `reserve` is, or the mask stands in the ring. -/
theorem fill_eq (sizes : Sizes m k) (filed : Filed s) (laid : Laid raster s) (room : s.count < m)
    {key : Key} (fresh : ∀ slot ∈ s.live, s.key slot ≠ key) :
    ∃ s' result, s.fill key (raster key) = some (s', result) ∧ Filed s' ∧ Laid raster s' ∧
      (∀ served, s.Holds served → s'.Holds served) ∧
      (∀ at_, result = some at_ → s'.Holds ⟨key, at_⟩) ∧
      (result = none ↔ bytes < (raster key).length ∨
        s.Stuck (s.leaving s.live (raster key).length)) := by
  obtain ⟨s₁, step, ⟨refused, laid₁, why⟩ | ⟨offset, reserved, fits, free, pushed, apart⟩⟩ :=
    reserve_eq sizes filed laid (raster key).length
  · refine ⟨s₁, none, ?_, step.filed, laid₁, fun _ => step.holds, fun _ no => absurd no (by simp),
      fun _ => why, fun _ => rfl⟩
    rw [GlyphCache.fill, refused]
    rfl
  · obtain ⟨s₂, decoded, shown, untouched, data, times, shape⟩ :=
      decode_eq (s := { s₁ with write := offset + (raster key).length }) fits
    have filed₂ : Filed s₂ := by
      rw [shape]
      exact ⟨step.filed.probed, step.filed.stored, step.filed.keys, step.filed.most⟩
    have live : s₂.live = s₁.live := by rw [shape]; rfl
    have slots : s₂.slots = s₁.slots := by rw [shape]
    have keys : s₂.key = s₁.key := by rw [shape]; rfl
    have spans : s₂.span raster = s₁.span raster := by rw [shape]; rfl
    have count := step.count_le
    have room₂ : s₂.count < m := by
      rw [shape]
      exact lt_of_le_of_lt count room
    have fresh₂ : ∀ slot ∈ s₂.live, s₂.key slot ≠ key := by
      intro slot member
      rw [live] at member
      rw [keys, step.kept.key]
      exact fresh slot (step.subset member)
    have ring₂ : Ring s₂.write bytes
        (s₂.live.map (s₂.span raster) ++ [(offset, (raster key).length)]) := by
      rw [live, spans, shape]
      exact pushed
    have masks₂ : ∀ slot ∈ s₂.live, s₂.Shows (s₂.slots slot).offset (raster (s₂.key slot)) := by
      intro slot member
      rw [live] at member
      rw [slots, keys]
      refine (step.masks laid slot member).of_data fun i low high => untouched i ?_
      have beside := apart slot member
      unfold GlyphCache.span at beside
      omega
    obtain ⟨s₃, placed, filed₃, laid₃, holds, last⟩ :=
      place_laid sizes filed₂ room₂ fresh₂ ring₂ masks₂ shown
    refine ⟨s₃, some offset, ?_, filed₃, laid₃, fun served kept => holds served ?_, ?_, ?_⟩
    · rw [GlyphCache.fill, reserved, bind_some]
      show (GlyphCache.decode _ offset (raster key)).bind _ = _
      rw [decoded, bind_some, placed]
      rfl
    · obtain ⟨slot, member, key_eq, offset_eq, frame_eq⟩ := step.holds kept
      refine ⟨slot, by rw [live]; exact member, by rw [keys, key_eq], by rw [slots, offset_eq], ?_⟩
      rw [slots, frame_eq, shape]
    · rintro at_ ⟨⟩
      exact last
    · refine ⟨fun no => absurd no (by simp), fun why => ?_⟩
      rcases why with large | stuck
      · omega
      · exact absurd stuck free

theorem hit_eq (laid : Laid raster s) {slot : Fin m} (member : slot ∈ s.live) :
    Laid raster (s.hit slot).1 ∧ (∀ served, s.Holds served → (s.hit slot).1.Holds served) ∧
      (s.hit slot).1.Holds ⟨s.key slot, (s.slots slot).offset⟩ := by
  have keys := Filed.hit_key (s := s) slot
  have offsets : ∀ other, ((s.hit slot).1.slots other).offset = (s.slots other).offset := by
    intro other
    show (Function.update s.slots slot _ other).offset = (s.slots other).offset
    by_cases here : other = slot
    · rw [here, update_self]
    · rw [update_of_ne here]
  have spans : (s.hit slot).1.span raster = s.span raster := by
    funext other
    rw [GlyphCache.span, keys, offsets]
    rfl
  refine ⟨⟨?_, ?_⟩, ?_, slot, member, keys slot, offsets slot, ?_⟩
  · rw [spans]
    exact laid.ring
  · intro other known
    rw [keys, offsets]
    exact laid.masks other known
  · rintro served ⟨other, known, key, offset, frame⟩
    refine ⟨other, known, by rw [keys, key], by rw [offsets, offset], ?_⟩
    show (Function.update s.slots slot _ other).frame = s.frame
    by_cases here : other = slot
    · rw [here, update_self]
    · rw [update_of_ne here, frame]
  · show (Function.update s.slots slot _ slot).frame = s.frame
    rw [update_self]

theorem Kept.leaving (kept : Kept s s') (still : s'.write = s.write) :
    s'.leaving = s.leaving := by
  unfold GlyphCache.leaving
  rw [kept.due, still]

/-- One call: it ends, the masks of this frame stay, and it is refused when the mask is longer than
the ring or a slot of this frame has to go. -/
theorem get_eq (sizes : Sizes m k) (filed : Filed s) (laid : Laid raster s) (key : Key) :
    ∃ s' result, s.get raster key = some (s', result) ∧ Filed s' ∧ Laid raster s' ∧
      (∀ served, s.Holds served → s'.Holds served) ∧
      (∀ at_, result = some at_ → s'.Holds ⟨key, at_⟩) ∧
      (result = none ↔ (∀ slot ∈ s.live, s.key slot ≠ key) ∧
        (bytes < (raster key).length ∨ s.Stuck (s.outgoing (raster key).length))) := by
  rcases filed.lookup_eq sizes key with ⟨slot, member, same, found⟩ | ⟨fresh, missed⟩
  · obtain ⟨laid', holds, here⟩ := hit_eq laid member
    refine ⟨(s.hit slot).1, (s.hit slot).2, ?_, filed.hit slot, laid', holds, ?_, ?_⟩
    · rw [GlyphCache.get, found]
      rfl
    · rintro at_ ⟨⟩
      rw [← same]
      exact here
    · refine ⟨fun no => absurd no (by simp [GlyphCache.hit]), fun why => ?_⟩
      exact absurd same (why.1 slot member)
  by_cases full : s.count = m
  · have some_ : 0 < s.count := by
      have := s.head.pos
      omega
    rcases filed.evictOldest_eq sizes some_ with
      ⟨pinned, refused⟩ | ⟨old, s₁, evicted, step, still, order⟩
    · obtain ⟨rest, order⟩ := GlyphCache.exists_live_cons some_
      refine ⟨s, none, ?_, filed, laid, fun _ kept => kept, fun _ no => absurd no (by simp), ?_⟩
      · rw [GlyphCache.get, missed, bind_some]
        show (if s.count = m then _ else _) = _
        rw [if_pos full, refused]
        rfl
      · refine ⟨fun _ => ⟨fresh, .inr ⟨s.head, ?_, pinned⟩⟩, fun _ => rfl⟩
        rw [GlyphCache.outgoing, if_pos full, order]
        exact mem_append_left _ (mem_singleton_self _)
    · have fewer : s₁.count < m := by
        have lengths := congrArg List.length order
        simp only [GlyphCache.live, length_map, length_range, length_cons]
          at lengths
        omega
      have fresh₁ : ∀ slot ∈ s₁.live, s₁.key slot ≠ key := by
        intro slot member
        rw [step.kept.key]
        exact fresh slot (step.subset member)
      obtain ⟨s', result, filled, filed', laid', holds, last, why⟩ :=
        fill_eq sizes step.filed (step.laid still laid) fewer fresh₁
      refine ⟨s', result, ?_, filed', laid', fun served kept => holds served (step.holds kept),
        last, why.trans ?_⟩
      · rw [GlyphCache.get, missed, bind_some]
        show (if s.count = m then _ else _) = _
        rw [if_pos full, evicted]
        exact filled
      · have out : s.outgoing (raster key).length =
            [s.head] ++ s.leaving s₁.live (raster key).length := by
          rw [GlyphCache.outgoing, if_pos full, order]
          rfl
        have free : ¬s.Stuck [s.head] := not_stuck.mp fun slot only => by
          rw [mem_singleton.mp only]
          exact old
        rw [out, stuck_append, step.kept.stuck, step.kept.leaving still]
        exact ⟨fun reason => ⟨fresh, reason.imp_right .inr⟩,
          fun reason => reason.2.imp_right fun stuck => stuck.resolve_left free⟩
  · have room : s.count < m := lt_of_le_of_ne filed.most full
    obtain ⟨s', result, filled, filed', laid', holds, last, why⟩ :=
      fill_eq sizes filed laid room fresh
    refine ⟨s', result, ?_, filed', laid', holds, last, why.trans ?_⟩
    · rw [GlyphCache.get, missed, bind_some]
      show (if s.count = m then _ else _) = _
      rw [if_neg full]
      exact filled
    · have out : s.outgoing (raster key).length = s.leaving s.live (raster key).length := by
        rw [GlyphCache.outgoing, if_neg full]
        rfl
      rw [out]
      exact ⟨fun reason => ⟨fresh, reason⟩, fun reason => reason.2⟩

structure Sound (raster : Key → List UInt8) (r : Run bytes m k) : Prop where
  filed : Filed r.cache
  laid : Laid raster r.cache
  served : ∀ served ∈ r.served, r.cache.Holds served

theorem sound_step (sizes : Sizes m k) {r : Run bytes m k} (sound : Sound raster r) (call : Call) :
    ∃ r', r.step raster call = some r' ∧ Sound raster r' := by
  cases call with
  | beginFrame =>
    refine ⟨_, rfl, ⟨?_, ?_, fun _ none_ => absurd none_ (by simp)⟩⟩
    · exact ⟨sound.filed.probed, sound.filed.stored, sound.filed.keys, sound.filed.most⟩
    · exact ⟨sound.laid.ring, sound.laid.masks⟩
  | get key =>
    obtain ⟨s', result, done, filed, laid, holds, last, -⟩ :=
      get_eq sizes sound.filed sound.laid key
    refine ⟨_, by rw [Run.step, done]; rfl, filed, laid, fun served member => ?_⟩
    rcases mem_append.mp member with new_ | old
    · cases result with
      | none => exact absurd new_ (by simp)
      | some at_ =>
        rw [show served = ⟨key, at_⟩ from mem_singleton.mp new_]
        exact last at_ rfl
    · exact holds served (sound.served served old)

theorem sound_calls (raster : Key → List UInt8) (bytes : ℕ) (calls : List Call) :
    ∃ r, Run.calls raster bytes calls = some r ∧ Sound raster r := by
  have walk : ∀ (calls : List Call) (r : Run bytes (slotCount bytes) (indexBits bytes)),
      Sound raster r → ∃ r', calls.foldlM (Run.step raster) r = some r' ∧ Sound raster r' := by
    intro calls
    induction calls with
    | nil => exact fun r sound => ⟨r, rfl, sound⟩
    | cons call rest ih =>
      intro r sound
      obtain ⟨r', stepped, sound'⟩ := sound_step (sizes_new bytes) sound call
      obtain ⟨r'', walked, sound''⟩ := ih r' sound'
      exact ⟨r'', by rw [foldlM_cons, stepped]; exact walked, sound''⟩
  exact walk calls _ ⟨filed_new bytes, laid_new bytes, fun _ none_ => absurd none_ (by simp)⟩

/-- The call ends with the glyph's own mask, the masks of this frame stay, and the call is refused
only when they and the new one do not fit the ring. -/
def Run.Serves (raster : Key → List UInt8) (r : Run bytes m k) (key : Key) : Prop :=
  ∃ s' result, r.cache.get raster key = some (s', result) ∧
    (∀ at_, result = some at_ → s'.Shows at_ (raster key)) ∧
    (∀ served ∈ r.served, s'.Shows served.at_ (raster served.key)) ∧
    (result = none → bytes < r.used raster + (raster key).length)

/-- After every history all masks of the frame stand where they were returned, and the next call
serves its glyph exactly when the masks do not fit or no slot of this frame has to go. -/
theorem serves_iff (raster : Key → List UInt8) (bytes : ℕ) (calls : List Call) :
    ∃ r, Run.calls raster bytes calls = some r ∧
      (∀ served ∈ r.served, r.cache.Shows served.at_ (raster served.key)) ∧
      ∀ key, r.Serves raster key ↔
        bytes < r.used raster + (raster key).length ∨ ¬r.cache.Blocked raster key := by
  obtain ⟨r, run, sound⟩ := sound_calls raster bytes calls
  refine ⟨r, run, fun served member => sound.laid.shows (sound.served served member), ?_⟩
  intro key
  obtain ⟨s', result, done, filed, laid, holds, last, why⟩ :=
    get_eq (sizes_new bytes) sound.filed sound.laid key
  constructor
  · rintro ⟨s'', result', done', -, -, only⟩
    rw [done, Option.some.injEq, Prod.mk.injEq] at done'
    rw [← done'.2] at only
    by_contra neither
    push Not at neither
    have blocked := neither.2
    have refused := only (why.mpr ⟨blocked.1, .inr blocked.2⟩)
    omega
  · intro reason
    refine ⟨s', result, done, fun at_ found => laid.shows (last at_ found),
      fun served member => laid.shows (holds served (sound.served served member)), fun no => ?_⟩
    obtain ⟨fresh, large | stuck⟩ := why.mp no
    · omega
    · exact reason.resolve_right (not_not_intro ⟨fresh, stuck⟩)

def forty (key : Key) : List UInt8 := List.replicate 40 key.2.toUInt8

def hitThenMiss : List Call := [.get (1, 65), .get (1, 66), .beginFrame, .get (1, 65)]

/-- In a ring of 100 bytes the mask of the last frame's first glyph is used again; the next glyph
is refused, although the two masks take 80 bytes. -/
theorem hit_blocks_miss :
    ¬∀ r, Run.calls forty 100 hitThenMiss = some r → r.Serves forty (1, 67) := by
  have refused : ((Run.calls forty 100 hitThenMiss).bind fun r =>
      (r.cache.get forty (1, 67)).map fun got => (got.2, r.used forty)) = some (none, 40) := by
    decide +kernel
  intro serves
  cases run : Run.calls forty 100 hitThenMiss with
  | none =>
    rw [run] at refused
    exact absurd refused (by simp)
  | some r =>
    obtain ⟨s', result, done, -, -, only⟩ := serves r run
    rw [run, bind_some, done, map_some, Option.some.injEq, Prod.mk.injEq] at refused
    have missing := only refused.1
    rw [refused.2, forty, length_replicate] at missing
    omega

end EspDevkit.Gfx.Glyph
