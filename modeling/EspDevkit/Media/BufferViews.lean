import EspDevkit.Media.BufferInvariant

/-!
# Views

A view of chunks that lie in one piece pins them where they are.
-/

namespace EspDevkit.Media

open CircularWindow List

variable {shared : Shared}

structure Covers (window : Window) (start size : ℕ) : Prop where
  first : window.base ≤ start
  last : start + size ≤ window.base + window.filled * chunkBytes
  some : 0 < size

def Window.firstOf (window : Window) (start : ℕ) : ℕ := chunkIndex (start - window.base)

def Window.countOf (window : Window) (start size : ℕ) : ℕ :=
  chunkIndex (start + size - 1 - window.base) - window.firstOf start + 1

theorem State.span_eq (s : State) (ringChunks start size : ℕ) :
    s.span ringChunks start size =
      (place ringChunks s.window.head (s.window.firstOf start), s.window.countOf start size) := rfl

namespace Covers

variable {window : Window} {start size : ℕ}

variable {i : ℕ}

theorem index_le (_covers : Covers window start size) (lt : i < size) :
    window.firstOf start ≤ chunkIndex (start + i - window.base) ∧
      chunkIndex (start + i - window.base) < window.firstOf start + window.countOf start size := by
  have first : window.firstOf start ≤ chunkIndex (start + i - window.base) :=
    Nat.div_le_div_right (by omega)
  have last : chunkIndex (start + i - window.base) ≤
      chunkIndex (start + size - 1 - window.base) := Nat.div_le_div_right (by omega)
  unfold Window.countOf
  omega

theorem within_filled (covers : Covers window start size) :
    window.firstOf start + window.countOf start size ≤ window.filled := by
  have first : window.firstOf start ≤ chunkIndex (start + size - 1 - window.base) :=
    Nat.div_le_div_right (by have := covers.some; omega)
  have last : chunkIndex (start + size - 1 - window.base) < window.filled := by
    apply Nat.div_lt_of_lt_mul
    rw [Nat.mul_comm]
    have := covers.first
    have := covers.last
    have := covers.some
    omega
  unfold Window.countOf
  omega

theorem mem_slots (covers : Covers window start size) (ringChunks : ℕ) (lt : i < size) :
    place ringChunks window.head (chunkIndex (start + i - window.base)) ∈
      copySlots ringChunks (place ringChunks window.head (window.firstOf start))
        (window.countOf start size) := by
  obtain ⟨first, last⟩ := covers.index_le lt
  refine mem_map.mpr ⟨chunkIndex (start + i - window.base) - window.firstOf start,
    mem_range.mpr (by omega), ?_⟩
  refine (place_place _ _ _).trans ?_
  congr 1
  omega

variable {ringChunks : ℕ}

theorem slots_within (covers : Covers window start size) {p : ℕ}
    (member : p ∈ copySlots ringChunks (place ringChunks window.head (window.firstOf start))
      (window.countOf start size)) : Within ringChunks window.head window.filled p := by
  obtain ⟨i, lt, rfl⟩ := mem_map.mp member
  have := covers.within_filled
  rw [mem_range] at lt
  exact ⟨window.firstOf start + i, by omega, (place_place _ _ _).symm⟩

theorem address (covers : Covers window start size)
    (piece : place ringChunks window.head (window.firstOf start) + window.countOf start size ≤
      ringChunks) (lt : i < size) :
    Shared.chunk (place ringChunks window.head (window.firstOf start)) +
        chunkOffset (start - window.base) + i =
      Shared.chunk (place ringChunks window.head (chunkIndex (start + i - window.base))) +
        chunkOffset (start + i - window.base) := by
  obtain ⟨first, last⟩ := covers.index_le lt
  have low := covers.first
  obtain ⟨k, index⟩ := Nat.exists_eq_add_of_le first
  have slot : place ringChunks window.head (chunkIndex (start + i - window.base)) =
      place ringChunks window.head (window.firstOf start) + k := by
    rw [index, ← place_place]
    exact Nat.mod_eq_of_lt (by omega)
  have here := chunk_add_offset (start - window.base)
  have there := chunk_add_offset (start + i - window.base)
  rw [slot]
  unfold Shared.chunk
  rw [index, Nat.add_mul] at there
  rw [Nat.add_mul]
  unfold Window.firstOf at there
  omega

theorem located (covers : Covers window start size)
    (piece : place shared.ringChunks window.head (window.firstOf start) +
      window.countOf start size ≤ shared.ringChunks) :
    Located shared (Shared.chunk (place shared.ringChunks window.head (window.firstOf start)) +
      chunkOffset (start - window.base)) size
      (.chunks (place shared.ringChunks window.head (window.firstOf start))
        (window.countOf start size)) := by
  have some := covers.some
  have last := covers.address piece (Nat.sub_lt some Nat.one_pos)
  have bound := (covers.index_le (Nat.sub_lt some Nat.one_pos)).2
  have first := (covers.index_le (Nat.sub_lt some Nat.one_pos)).1
  have lt := chunkOffset_lt (start + (size - 1) - window.base)
  obtain ⟨k, index⟩ := Nat.exists_eq_add_of_le first
  have slot : place shared.ringChunks window.head (chunkIndex (start + (size - 1) - window.base)) =
      place shared.ringChunks window.head (window.firstOf start) + k := by
    rw [index, ← place_place]
    exact Nat.mod_eq_of_lt (by omega)
  rw [slot] at last
  refine ⟨piece, Nat.le_add_right _ _, ?_⟩
  have upto : Shared.chunk (place shared.ringChunks window.head (window.firstOf start) + k) +
      chunkBytes ≤ Shared.chunk (place shared.ringChunks window.head (window.firstOf start) +
        window.countOf start size) := by
    unfold Shared.chunk
    rw [← Nat.succ_mul]
    exact Nat.mul_le_mul_right _ (by omega)
  omega

end Covers

theorem nodup_copySlots {slot count : ℕ} (few : count ≤ ringChunks) :
    (copySlots ringChunks slot count).Nodup := by
  refine List.Nodup.map_on (fun i first j second same => ?_) nodup_range
  rw [mem_range] at first second
  exact place_inj (first.trans_le few) (second.trans_le few) same

theorem copySlots_eq {slot count : ℕ} (piece : slot + count ≤ ringChunks) :
    copySlots ringChunks slot count = List.range' slot count := by
  rw [List.range'_eq_map_range]
  refine map_congr_left fun i member => ?_
  rw [mem_range] at member
  exact Nat.mod_eq_of_lt (by omega)

def State.pinnable (s : State) (ringChunks start size : ℕ) : Prop :=
  ((s.span ringChunks start size).1 + (s.span ringChunks start size).2 ≤ ringChunks →
      (s.span ringChunks start size).1 < 2 ^ 16 ∧ (s.span ringChunks start size).2 < 2 ^ 16) ∧
    ∀ p ∈ copySlots ringChunks (s.span ringChunks start size).1 (s.span ringChunks start size).2,
      s.pins p < 2 ^ 16 - 1

def State.spares (s : State) (ringChunks start size : ℕ) : Prop :=
  let s := s.dropConsumed ringChunks
  if start + size ≤ s.filledEnd then s.base ≤ start → s.pinnable ringChunks start size
  else s.readahead → s.ioError = false → s.interrupted = false →
    chunksUp (start + size - s.base) ≤ ringChunks

namespace World.Inv

variable {w : World}

theorem failView (inv : w.Inv) (pinned : w.reader.pinned w.shared.ringChunks = [])
    (free : w.reader.copies = false) : (w.failView w.state).Inv :=
  (inv.setWant (Nat.zero_le _)).setReader pinned free rfl rfl trivial

variable {stage : Stage}

theorem pinView (inv : w.Inv) {start size : ℕ} {advance : Bool}
    (here : w.reader = .viewing start size advance stage) (asked : Asked w.shared start size)
    (direct : ¬ w.shared.direct) (covers : Covers w.state.window start size)
    (fits : w.state.pinnable w.shared.ringChunks start size) {slot count : ℕ}
    (span : w.state.span w.shared.ringChunks start size = (slot, count))
    (piece : slot + count ≤ w.shared.ringChunks) :
    World.Inv
      { w with
        state :=
          { w.state with
            pins := pinSlots w.state.pins (List.range' slot count)
            cursor := if advance then start + size else w.state.cursor
            want := 0 }
        reader := .idle
        views :=
          { data := Shared.chunk slot + chunkOffset (start - w.state.base), len := size
            pin := .chunks (slot % 2 ^ 16) (count % 2 ^ 16), start } :: w.views } := by
  obtain ⟨small, few⟩ := fits
  rw [span] at small few
  obtain ⟨small, small'⟩ := small piece
  dsimp only at small small' few
  rw [Nat.mod_eq_of_lt small, Nat.mod_eq_of_lt small']
  rw [State.span_eq, Prod.mk.injEq] at span
  obtain ⟨rfl, rfl⟩ := span
  have before : pinnedBy w.shared w.reader w.views =
      w.views.flatMap fun view => view.pin.slots := by
    rw [here]
    rfl
  have ring := inv.ring.pin fun p member => covers.slots_within member
  have pins := inv.pins.pin
    (nodup_copySlots ((Nat.le_add_left _ _).trans piece)) few
  rw [before] at ring
  rw [before] at pins
  rw [copySlots_eq piece] at ring pins
  refine ⟨ring, ?_, Nat.zero_le _, pins, ?_, inv.alone, ?_, trivial, fun is => absurd is direct,
    inv.returned⟩
  · have cursor := inv.cursor
    have inside := asked.inside
    cases advance
    · exact cursor
    · exact inside
  · have bounce := inv.bounce
    rw [here] at bounce
    simpa [bouncers, Reader.copies] using bounce
  · rintro view (_ | ⟨_, member⟩)
    · refine ⟨asked.inside, ?_, fun i (lt : i < size) => ?_⟩
      · exact covers.located piece
      · refine (congrArg w.memory (covers.address piece lt)).trans (inv.ring.shows'.byte _ ?_ ?_ ?_)
        · exact covers.first.trans (Nat.le_add_right _ _)
        · have := covers.last
          omega
        · have := asked.inside
          omega
    · exact inv.views view member

theorem startCopy (inv : w.Inv) {start size : ℕ} {advance : Bool}
    (here : w.reader = .viewing start size advance stage) (asked : Asked w.shared start size)
    (direct : ¬ w.shared.direct) (covers : Covers w.state.window start size)
    (fits : w.state.pinnable w.shared.ringChunks start size) {slot count : ℕ}
    (span : w.state.span w.shared.ringChunks start size = (slot, count))
    (free : w.state.bouncePins = 0) :
    World.Inv
      { w with
        state :=
          { w.state with
            bouncePins := 1
            pins := pinSlots w.state.pins (copySlots w.shared.ringChunks slot count) }
        reader := .copying start size advance slot count w.state.base w.state.head 0 } := by
  have few := fits.2
  rw [span] at few
  rw [State.span_eq, Prod.mk.injEq] at span
  obtain ⟨rfl, rfl⟩ := span
  have before : pinnedBy w.shared w.reader w.views =
      w.views.flatMap fun view => view.pin.slots := by
    rw [here]
    rfl
  have within := covers.within_filled
  have most := inv.ring.most
  have small : w.state.window.countOf start size ≤ w.shared.ringChunks := by omega
  have ring := inv.ring.pin fun p member => covers.slots_within member
  have pins := inv.pins.pin (nodup_copySlots small) few
  rw [before] at ring
  rw [before] at pins
  refine ⟨ring, inv.cursor, inv.want, pins, ?_, Nat.le_refl _, inv.views, ⟨asked, direct, ?_⟩,
    fun is => absurd is direct, inv.returned⟩
  · have bounce := inv.bounce
    rw [free, here] at bounce
    simp only [bouncers, Reader.copies, Bool.toNat_false, Nat.zero_add] at bounce
    simp only [bouncers, Reader.copies, Bool.toNat_true]
    omega
  · refine ⟨covers.first, small, Nat.zero_le _, fun i lt => ?_, fun i lt => ?_, fun i lt => ?_⟩
    · exact covers.mem_slots w.shared.ringChunks lt
    · refine inv.ring.shows'.byte _ (covers.first.trans (Nat.le_add_right _ _)) ?_ ?_
      · have := covers.last
        omega
      · have := asked.inside
        omega
    · exact absurd lt (Nat.not_lt_zero _)

theorem viewReady (inv : w.Inv) {start size : ℕ} {advance : Bool}
    (here : w.reader = .viewing start size advance stage) (asked : Asked w.shared start size)
    (direct : ¬ w.shared.direct) (covers : Covers w.state.window start size)
    (fits : w.state.pinnable w.shared.ringChunks start size) :
    (w.viewReady w.state start size advance).Inv := by
  have pinned : w.reader.pinned w.shared.ringChunks = [] := by rw [here]; rfl
  have free : w.reader.copies = false := by rw [here]; rfl
  unfold World.viewReady
  cases span : w.state.span w.shared.ringChunks start size with
  | mk slot count =>
    dsimp only
    split
    · rename_i piece
      exact inv.pinView here asked direct covers fits span piece
    · split
      · rename_i none
        exact inv.startCopy here asked direct covers fits span none
      · split
        · exact inv.failView pinned free
        · exact inv.setReader pinned free rfl rfl ⟨asked, fun is => absurd is direct⟩

theorem viewPass (inv : w.Inv) {start size : ℕ} {advance : Bool}
    (here : w.reader = .viewing start size advance stage)
    (spares : w.state.spares w.shared.ringChunks start size) :
    (w.viewPass start size advance stage).Inv := by
  obtain ⟨asked, entered⟩ : Asked w.shared start size ∧ (w.shared.direct → stage = .entered) := by
    have sound := inv.reader
    rwa [here] at sound
  have pinned : w.reader.pinned w.shared.ringChunks = [] := by rw [here]; rfl
  have free : w.reader.copies = false := by rw [here]; rfl
  unfold World.viewPass
  split
  · exact inv.failView pinned free
  · rename_i goes
    have direct : ¬ w.shared.direct := fun is =>
      goes ⟨by simp [entered is], by simp [(inv.direct is).readahead]⟩
    unfold State.spares at spares
    dsimp only at spares
    obtain ⟨base, head, filled, frame⟩ := w.state.dropConsumed_frame w.shared.ringChunks
    rcases w.state.waitFor_cases w.shared.ringChunks (start + size) with
      ⟨ready, there⟩ | failed | ⟨again, waits, readahead, error, interrupted⟩
    · rw [ready]
      rw [if_pos there] at spares
      have dropped := inv.dropConsumed
      dsimp only
      split
      · exact dropped.failView pinned free
      · rename_i low
        have covers : Covers (w.state.dropConsumed w.shared.ringChunks).window start size :=
          ⟨Nat.le_of_not_lt low, there, asked.some⟩
        exact dropped.viewReady here asked direct covers (spares (Nat.le_of_not_lt low))
    · rw [failed]
      exact inv.dropConsumed.failView pinned free
    · have waited := inv.waitFor fun waits readahead error interrupted => by
        rw [if_neg (Nat.not_le_of_lt waits)] at spares
        rw [frame] at spares
        rw [frame]
        exact spares readahead (eq_false_of_ne_true error) (eq_false_of_ne_true interrupted)
      rw [again] at waited ⊢
      exact waited.setReader pinned free rfl rfl ⟨asked, fun is => absurd is direct⟩

theorem alone_copying (inv : w.Inv) (copies : w.reader.copies = true) :
    ∀ view ∈ w.views, view.pin ≠ .bounce := by
  have bounce := inv.bounce
  have alone := inv.alone
  unfold bouncers at bounce
  rw [copies, Bool.toNat_true] at bounce
  have none : w.views.countP (fun view => decide (view.pin = .bounce)) = 0 := by omega
  intro view member
  simpa using countP_eq_zero.mp none view member

theorem copyPiece (inv : w.Inv) {start size : ℕ} {advance : Bool} {slot count base head done : ℕ}
    (here : w.reader = .copying start size advance slot count base head done) (more : done < size) :
    (w.copyPass start size advance slot count base head done).Inv := by
  obtain ⟨asked, direct, copy⟩ : Asked w.shared start size ∧ ¬ w.shared.direct ∧
      CopySound w.shared w.memory start size slot count base head done := by
    have sound := inv.reader
    rwa [here] at sound
  have views := inv.alone_copying (by rw [here]; rfl)
  have low := copy.first
  unfold World.copyPass
  rw [if_pos more]
  dsimp only
  generalize take_eq : min (chunkBytes - chunkOffset (start + done - base)) (size - done) = take
  generalize bytes_eq : (fun i => w.memory (Shared.chunk ((head +
    chunkIndex (start + done - base)) % w.shared.ringChunks) +
      chunkOffset (start + done - base) + i)) = bytes
  have ring := inv.ring.bounce take done bytes
  have source : ∀ i < take, bytes i = w.shared.file.byte (start + done + i) := by
    intro i lt
    have offset := chunkOffset_lt (start + done - base)
    obtain ⟨index, next⟩ := chunk_same (x := start + done - base) (i := i) (by omega)
    have shift : start + (done + i) - base = start + done - base + i := by omega
    have byte := copy.source (done + i) (by omega)
    rw [shift, index, next, ← Nat.add_assoc, ← Nat.add_assoc] at byte
    rw [← bytes_eq]
    exact byte
  have slots : ∀ i < size, place w.shared.ringChunks head (chunkIndex (start + i - base)) <
      w.shared.ringChunks := fun i _ => place_lt w.shared.ring_pos _ _
  have next : CopySound w.shared (put w.memory (w.shared.bounce + done) take bytes) start size slot
      count base head (done + take) := by
    refine { copy with most := by omega, source := fun i lt => ?_, copied := fun i lt => ?_ }
    · have := chunk_add_lt_bounce (slots i lt) (chunkOffset_lt (start + i - base))
      rw [put_out (.inl (by omega))]
      exact copy.source i lt
    · by_cases old : i < done
      · rw [put_out (.inl (by omega))]
        exact copy.copied i old
      · rw [put_in (by omega) (by omega), source _ (by omega)]
        congr 1
        omega
  refine { inv with
    ring := ?_, pins := ?_, bounce := ?_, views := ?_, reader := ⟨asked, direct, next⟩,
    direct := fun is => absurd is direct }
  · rw [here] at ring
    exact ring
  · have pins := inv.pins
    rw [here] at pins
    exact pins
  · have bounce := inv.bounce
    rw [here] at bounce
    exact bounce
  · exact fun view member => (inv.views view member).bounce (views view member) done take bytes

theorem copyPass (inv : w.Inv) {start size : ℕ} {advance : Bool} {slot count base head done : ℕ}
    (here : w.reader = .copying start size advance slot count base head done) :
    (w.copyPass start size advance slot count base head done).Inv := by
  by_cases more : done < size
  · exact inv.copyPiece here more
  · obtain ⟨asked, direct, copy⟩ : Asked w.shared start size ∧ ¬ w.shared.direct ∧
        CopySound w.shared w.memory start size slot count base head done := by
      have sound := inv.reader
      rwa [here] at sound
    have before : pinnedBy w.shared w.reader w.views =
        copySlots w.shared.ringChunks slot count ++ w.views.flatMap fun view => view.pin.slots := by
      rw [here]
      rfl
    have ring := inv.ring
    have pins := inv.pins
    have bounce := inv.bounce
    rw [before] at ring pins
    rw [here] at bounce
    unfold World.copyPass
    rw [if_neg more]
    refine ⟨ring.unpin (subset_append_right _ _), ?_, Nat.zero_le _, pins.unpin, ?_, inv.alone,
      ?_, trivial, fun is => absurd is direct, inv.returned⟩
    · have cursor := inv.cursor
      have inside := asked.inside
      cases advance
      · exact cursor
      · exact inside
    · simp only [bouncers, Reader.copies, Bool.toNat_true] at bounce
      simp only [bouncers, Reader.copies, Bool.toNat_false, decide_true, countP_cons_of_pos]
      omega
    · rintro view (_ | ⟨_, member⟩)
      · have most := copy.most
        exact ⟨asked.inside, ⟨rfl, asked.fits⟩,
          fun i (lt : i < size) => copy.copied i (by omega)⟩
      · exact inv.views view member

end World.Inv

end EspDevkit.Media
