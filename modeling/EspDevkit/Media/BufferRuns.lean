import EspDevkit.Media.BufferViews

/-!
# Every byte is the file's

What the tasks do, one step after another, in any order.
-/

namespace EspDevkit.Media

open CircularWindow

theorem State.fillTarget_cases (s : State) (shared : Shared) :
    s.fillTarget shared = (s, none) ∨
      s.fillTarget shared = (s.dropConsumed shared.ringChunks, none) ∨
      s.fillTarget shared =
          (s.dropConsumed shared.ringChunks,
            some ⟨(s.dropConsumed shared.ringChunks).filledEnd,
              (s.dropConsumed shared.ringChunks).window.next shared.ringChunks, 0⟩) ∧
        (s.dropConsumed shared.ringChunks).filled <
          max (s.dropConsumed shared.ringChunks).want shared.depth ∧
        (s.dropConsumed shared.ringChunks).pins
          ((s.dropConsumed shared.ringChunks).window.next shared.ringChunks) = 0 := by
  unfold fillTarget
  split
  · dsimp only
    split
    · rename_i room
      split
      · rename_i free
        exact .inr (.inr ⟨rfl, room.1, free⟩)
      · exact .inr (.inl rfl)
    · exact .inr (.inl rfl)
  · exact .inl rfl

namespace World.Inv

variable {w : World}

theorem startFill (inv : w.Inv) (room : w.state.filled < w.shared.ringChunks)
    (free : w.state.pins (w.state.window.next w.shared.ringChunks) = 0) (offset : ℕ) :
    World.Inv
      { w with filling := some ⟨offset, w.state.window.next w.shared.ringChunks, 0⟩ } := by
  have unpinned : w.state.window.next w.shared.ringChunks ∉
      pinnedBy w.shared w.reader w.views := by
    intro member
    have count := inv.pins.count _ (place_lt w.shared.ring_pos w.state.head w.state.filled)
    have some := List.count_pos_iff.mpr member
    change w.state.pins (w.state.window.next w.shared.ringChunks) =
      (pinnedBy w.shared w.reader w.views).count (w.state.window.next w.shared.ringChunks) at count
    omega
  refine { inv with ring := { inv.ring with
    next := ?_, room := ?_, unpinned := ?_, got := ?_, bytes := ?_ } }
  · rintro _ ⟨⟩
    rfl
  · rintro _ ⟨⟩
    exact room
  · rintro _ ⟨⟩
    exact unpinned
  · rintro _ ⟨⟩
    exact Nat.zero_le _
  · rintro _ ⟨⟩ j lt
    exact absurd lt (Nat.not_lt_zero j)

theorem fill (inv : w.Inv) (none : w.filling = none) : w.fill.Inv := by
  have rests : ∀ {w : World}, w.Inv → w.filling = .none →
      World.Inv { w with filling := .none } := by
    intro w inv none
    rw [← none]
    exact inv
  have dropped := inv.dropConsumed
  unfold World.fill
  rcases w.state.fillTarget_cases w.shared with eq | eq | ⟨eq, room, free⟩
  · rw [eq]
    exact rests inv none
  · rw [eq]
    exact rests dropped none
  · rw [eq]
    have depth := w.shared.depth_le
    have want := dropped.want
    dsimp only at want
    exact dropped.startFill (by dsimp only; omega) free _

theorem fillRead (inv : w.Inv) {fill : Fill} (filling : w.filling = some fill) (got : ℕ) :
    (w.fillRead fill got).Inv := by
  have ring := inv.ring
  rw [filling] at ring
  have slot := ring.next fill rfl
  have bound : fill.slot < w.shared.ringChunks := by
    rw [slot]
    exact place_lt w.shared.ring_pos _ _
  have old := ring.got fill rfl
  have most : w.shared.wanted fill.offset ≤ chunkBytes := Nat.min_le_left _ _
  have unpinned := ring.unpinned fill rfl
  unfold World.fillRead
  generalize got_eq : min got (w.shared.wanted fill.offset - fill.got) = more
  have within : fill.got + more ≤ w.shared.wanted fill.offset := by omega
  have within' : fill.got + more ≤ chunkBytes := within.trans most
  have reader := inv.reader.fill bound within'
    (fun slots => unpinned (List.mem_append_left _ slots))
    fun i => w.shared.file.byte (fill.offset + fill.got + i)
  have views : ∀ view ∈ w.views, ViewSound w.shared
      (put w.memory (Shared.chunk fill.slot + fill.got) more fun i =>
        w.shared.file.byte (fill.offset + fill.got + i)) view := by
    intro view member
    refine (inv.views view member).fill bound within' (fun slots => unpinned ?_) _
    exact List.mem_append_right _ (List.mem_flatMap.mpr ⟨view, member, slots⟩)
  refine { inv with
    ring := ring.fillRead within, views, reader
    direct := fun is => { inv.direct is with bytes := fun i lt => ?_ } }
  dsimp only
  rw [put_chunk_of_bounce i bound within']
  exact (inv.direct is).bytes i lt

theorem fillEnd (inv : w.Inv) {fill : Fill} (filling : w.filling = some fill) :
    (w.fillEnd fill).Inv := by
  have ring := inv.ring
  rw [filling] at ring
  have rest : ∀ {window : Window}, window.Sound w.shared.ringChunks →
      window.filled ≤ w.shared.ringChunks → Shows w.shared w.memory window →
      RingSound w.shared w.memory window none (pinnedBy w.shared w.reader w.views) :=
    fun sound most shows' => ⟨sound, most, shows', nofun, nofun, nofun, nofun, nofun⟩
  unfold World.fillEnd State.fillDone
  split
  · rename_i accepted
    obtain ⟨-, offset, slot⟩ := accepted
    split
    · rename_i whole
      have grown : Shows w.shared w.memory
          ⟨w.state.window.base, w.state.window.head, w.state.window.filled + 1⟩ := by
        refine ring.shows'.grow fun j lt => ?_
        have byte := ring.bytes fill rfl j (by rw [whole, ← offset]; exact lt)
        rw [ring.next fill rfl, ← offset] at byte
        exact byte
      exact { inv with
        ring := rest ⟨ring.sound.head, ring.sound.base⟩ (ring.room fill rfl) grown
        direct := fun is => { inv.direct is with } }
    · exact { inv with
        ring := rest ring.sound ring.most ring.shows'
        direct := fun is => { inv.direct is with } }
  · exact { inv with ring := rest ring.sound ring.most ring.shows' }

theorem interrupt (inv : w.Inv) (interrupted : Bool) : (w.interrupt interrupted).Inv :=
  { inv with ring := inv.ring, direct := fun is => { inv.direct is with } }

theorem release (inv : w.Inv) {view : View} (member : view ∈ w.views) : (w.release view).Inv := by
  have perm : w.views.Perm (view :: w.views.erase view) := List.perm_cons_erase member
  have pinned : (pinnedBy w.shared w.reader w.views).Perm
      (view.pin.slots ++ pinnedBy w.shared w.reader (w.views.erase view)) := by
    have flat := List.Perm.flatMap_right (fun view : View => view.pin.slots) perm
    rw [List.flatMap_cons] at flat
    exact (flat.append_left _).trans (List.perm_append_comm_assoc _ _ _)
  have fewer : pinnedBy w.shared w.reader (w.views.erase view) ⊆
      pinnedBy w.shared w.reader w.views :=
    fun p there => pinned.symm.subset (List.mem_append_right _ there)
  have ring := inv.ring.unpin fewer
  have pins := inv.pins.perm pinned
  have count := perm.countP_eq fun view : View => decide (view.pin = .bounce)
  have bounce := inv.bounce
  have alone := inv.alone
  have views : ∀ other ∈ w.views.erase view, ViewSound w.shared w.memory other :=
    fun other there => inv.views other (List.mem_of_mem_erase there)
  have direct : ∀ is : w.shared.direct, w.views.erase view = [] := fun is => by
    rw [(inv.direct is).none]
    rfl
  unfold bouncers at bounce
  unfold World.release
  cases pin : view.pin with
  | bounce =>
    rw [List.countP_cons_of_pos (by simpa using pin)] at count
    rw [pin] at pins
    refine { inv with
      ring, pins, views, bounce := ?_, alone := (Nat.sub_le _ _).trans alone,
      direct := fun is => { inv.direct is with none := direct is } }
    dsimp only
    unfold bouncers
    omega
  | chunks slot covered =>
    rw [List.countP_cons_of_neg (by simp [pin])] at count
    refine { inv with
      ring, pins := ?_, views, bounce := ?_,
      direct := fun is => { inv.direct is with none := direct is } }
    · rw [pin] at pins
      exact pins.unpin
    · dsimp only
      unfold bouncers
      omega

theorem setReadahead (inv : w.Inv) (enabled : Bool) : (w.setReadahead enabled).Inv := by
  unfold World.setReadahead
  split
  · exact inv
  · rename_i direct
    cases enabled
    · exact { inv with
        ring := inv.ring.dropped (w.state.restartWindow_dropped w.shared.ringChunks)
          (State.restartWindow_sound w.shared.ring_pos)
        direct := fun is => absurd is direct }
    · exact { inv with ring := inv.ring, direct := fun is => absurd is direct }

theorem idle_free (idle : w.idle) :
    w.reader.pinned w.shared.ringChunks = [] ∧ w.reader.copies = false := by
  unfold World.idle at idle
  split at idle
  · rename_i here
    rw [here]
    exact ⟨rfl, rfl⟩
  · cases idle

theorem view (inv : w.Inv) (idle : w.idle) (size : ℕ) : (w.view size).Inv := by
  obtain ⟨pinned, free⟩ := idle_free idle
  unfold World.view
  split
  · exact inv
  · refine inv.setReader pinned free rfl rfl ⟨⟨?_, ?_, ?_⟩, fun _ => rfl⟩ <;> omega

theorem viewAt (inv : w.Inv) (idle : w.idle) (offset : ℤ)
    (size : ℕ) : (w.viewAt offset size).Inv := by
  obtain ⟨pinned, free⟩ := idle_free idle
  unfold World.viewAt
  split
  · exact inv
  · rename_i taken
    have asked : Asked w.shared offset.toNat size := ⟨by omega, by omega, by omega⟩
    dsimp only
    split
    · have moved := inv.seek (.inl idle) offset
      unfold World.seek at moved
      rw [min_eq_left (by omega)] at moved
      exact moved.setReader pinned free rfl rfl ⟨asked, fun _ => rfl⟩
    · exact inv.setReader pinned free rfl rfl ⟨asked, fun _ => rfl⟩

end World.Inv

namespace World

/-- A view that goes on waits for no more chunks than the ring has, and pins
none too often. -/
def spares (w : World) : Act → Prop
  | .resume _ =>
    match w.reader with
    | .viewing start size _ _ => w.state.spares w.shared.ringChunks start size
    | _ => True
  | _ => True

theorem Inv.resume {w after : World} (inv : w.Inv) {got : ℕ} (spares : w.spares (.resume got))
    (eq : w.resume got = some after) : after.Inv := by
  unfold World.resume at eq
  unfold World.spares at spares
  cases here : w.reader with
  | idle => simp [here] at eq
  | reading =>
    simp only [here, Option.some.injEq] at eq
    exact eq ▸ inv.readPass here
  | plain =>
    simp only [here, Option.some.injEq] at eq
    exact eq ▸ inv.plainRead here got
  | windowed =>
    simp only [here, Option.some.injEq] at eq
    exact eq ▸ inv.windowPass here got
  | viewing =>
    simp only [here, Option.some.injEq] at eq spares
    exact eq ▸ inv.viewPass here spares
  | copying =>
    simp only [here, Option.some.injEq] at eq
    exact eq ▸ inv.copyPass here

theorem Inv.act {w after : World} (inv : w.Inv) {act : Act} (spares : w.spares act)
    (eq : w.act act = some after) : after.Inv := by
  cases act with
  | read asked =>
    obtain ⟨idle, ⟨⟩⟩ := Option.ite_none_right_eq_some.mp eq
    exact inv.read idle asked
  | view size =>
    obtain ⟨idle, ⟨⟩⟩ := Option.ite_none_right_eq_some.mp eq
    exact inv.view idle size
  | viewAt offset size =>
    obtain ⟨idle, ⟨⟩⟩ := Option.ite_none_right_eq_some.mp eq
    exact inv.viewAt idle offset size
  | seek offset =>
    obtain ⟨idle, ⟨⟩⟩ := Option.ite_none_right_eq_some.mp eq
    exact inv.seek (.inl idle) offset
  | setReadahead enabled =>
    obtain ⟨-, ⟨⟩⟩ := Option.ite_none_right_eq_some.mp eq
    exact inv.setReadahead enabled
  | resume got => exact inv.resume spares eq
  | fill =>
    obtain ⟨⟨-, none⟩, ⟨⟩⟩ := Option.ite_none_right_eq_some.mp eq
    exact inv.fill (Option.isNone_iff_eq_none.mp none)
  | fillRead got =>
    obtain ⟨fill, filling, rfl⟩ := Option.map_eq_some_iff.mp eq
    exact inv.fillRead filling got
  | fillEnd =>
    obtain ⟨-, eq⟩ := Option.ite_none_left_eq_some.mp eq
    obtain ⟨fill, filling, rfl⟩ := Option.map_eq_some_iff.mp eq
    exact inv.fillEnd filling
  | drop view =>
    obtain ⟨⟨-, member⟩, ⟨⟩⟩ := Option.ite_none_right_eq_some.mp eq
    exact inv.release member
  | otherSeek offset =>
    obtain ⟨between, ⟨⟩⟩ := Option.ite_none_right_eq_some.mp eq
    exact inv.seek (.inr between) offset
  | interrupt interrupted =>
    obtain ⟨-, eq⟩ := Option.ite_none_left_eq_some.mp eq
    cases eq
    exact inv.interrupt interrupted

theorem finishRead_memory (w : World) (s : State) (start : ℕ) (out : List UInt8) :
    (w.finishRead s start out).memory = w.memory := rfl

theorem windowTake_memory (w : World) (s : State) (memory : ℕ → UInt8) (start size : ℕ)
    (out : List UInt8) : (w.windowTake s memory start size out).memory = memory := rfl

theorem windowPass_memory (w : World) (start size : ℕ) (out : List UInt8) (got : ℕ) :
    (w.windowPass start size out got).memory = w.memory ∨ ∃ count bytes,
      (w.windowPass start size out got).memory = put w.memory w.shared.bounce count bytes := by
  unfold windowPass
  dsimp only
  split
  · exact .inl rfl
  · split
    · exact .inl rfl
    · split
      · split <;> split
        · rw [finishRead_memory]
          dsimp only
          exact .inr ⟨_, _, rfl⟩
        · exact .inr ⟨_, _, windowTake_memory _ _ _ _ _ _⟩
        · rw [finishRead_memory]
          dsimp only
          exact .inr ⟨_, _, rfl⟩
        · exact .inr ⟨_, _, windowTake_memory _ _ _ _ _ _⟩
      · exact .inl rfl

theorem readPass_memory (w : World) (start size : ℕ) (out : List UInt8) :
    (w.readPass start size out).memory = w.memory := by
  unfold readPass
  extract_lets s finish
  split
  · rfl
  · split <;> rfl

theorem viewReady_memory (w : World) (s : State) (start size : ℕ) (advance : Bool) :
    (w.viewReady s start size advance).memory = w.memory := by
  unfold viewReady
  dsimp only
  split
  · rfl
  · split
    · rfl
    · split <;> rfl

theorem viewPass_memory (w : World) (start size : ℕ) (advance : Bool) (stage : Stage) :
    (w.viewPass start size advance stage).memory = w.memory := by
  unfold viewPass
  split
  · rfl
  · split
    · rfl
    · rfl
    · split
      · rfl
      · exact viewReady_memory _ _ _ _ _

theorem copyPass_memory (w : World) (start size : ℕ) (advance : Bool)
    (slot count base head done : ℕ) :
    (w.copyPass start size advance slot count base head done).memory = w.memory ∨
      ∃ take bytes, (w.copyPass start size advance slot count base head done).memory =
        put w.memory (w.shared.bounce + done) take bytes := by
  unfold copyPass
  split
  · extract_lets position index offset take chunk
    exact .inr ⟨take, fun i => w.memory (chunk + offset + i), rfl⟩
  · exact .inl rfl

theorem resume_memory {w after : World} {got : ℕ} (eq : w.resume got = some after) :
    after.memory = w.memory ∨ ∃ offset count bytes,
      after.memory = put w.memory (w.shared.bounce + offset) count bytes := by
  unfold resume at eq
  split at eq
  · cases eq
  · cases eq
    exact .inl (w.readPass_memory _ _ _)
  · cases eq
    exact .inl rfl
  · cases eq
    rcases w.windowPass_memory _ _ _ got with same | ⟨count, bytes, same⟩
    · exact .inl same
    · exact .inr ⟨0, count, bytes, by rwa [Nat.add_zero]⟩
  · cases eq
    exact .inl (w.viewPass_memory _ _ _ _)
  · cases eq
    rcases w.copyPass_memory _ _ _ _ _ _ _ _ with same | ⟨count, bytes, same⟩
    · exact .inl same
    · exact .inr ⟨_, count, bytes, same⟩

theorem act_writes {w after : World} {act : Act} (eq : w.act act = some after) {address : ℕ}
    (ring : address < w.shared.bounce) (written : after.memory address ≠ w.memory address) :
    ∃ fill, w.filling = some fill ∧ Shared.chunk fill.slot ≤ address ∧
      address < Shared.chunk fill.slot + chunkBytes := by
  cases act with
  | resume got =>
    rcases resume_memory eq with same | ⟨offset, count, bytes, same⟩
    · exact absurd (congrFun same address) written
    · rw [same, put_out (.inl (by omega))] at written
      exact absurd rfl written
  | fillRead got =>
    obtain ⟨fill, filling, rfl⟩ := Option.map_eq_some_iff.mp eq
    refine ⟨fill, filling, ?_⟩
    by_contra outside
    unfold World.fillRead at written
    dsimp only at written
    refine written (put_out ?_)
    have : w.shared.wanted fill.offset ≤ chunkBytes := Nat.min_le_left _ _
    omega
  | fillEnd =>
    obtain ⟨-, eq⟩ := Option.ite_none_left_eq_some.mp eq
    obtain ⟨fill, filling, rfl⟩ := Option.map_eq_some_iff.mp eq
    exact absurd rfl written
  | interrupt interrupted =>
    obtain ⟨-, ⟨⟩⟩ := Option.ite_none_left_eq_some.mp eq
    exact absurd rfl written
  | read asked =>
    obtain ⟨-, ⟨⟩⟩ := Option.ite_none_right_eq_some.mp eq
    refine absurd (congrFun ?_ address) written
    unfold World.read
    dsimp only
    split
    · rfl
    · split
      · rfl
      · split <;> rfl
  | view size =>
    obtain ⟨-, ⟨⟩⟩ := Option.ite_none_right_eq_some.mp eq
    refine absurd (congrFun ?_ address) written
    unfold World.view
    split <;> rfl
  | viewAt offset size =>
    obtain ⟨-, ⟨⟩⟩ := Option.ite_none_right_eq_some.mp eq
    refine absurd (congrFun ?_ address) written
    unfold World.viewAt
    split <;> rfl
  | setReadahead enabled =>
    obtain ⟨-, ⟨⟩⟩ := Option.ite_none_right_eq_some.mp eq
    refine absurd (congrFun ?_ address) written
    unfold World.setReadahead
    split <;> rfl
  | _ =>
    obtain ⟨-, ⟨⟩⟩ := Option.ite_none_right_eq_some.mp eq
    exact absurd rfl written

abbrev Reachable : World → Prop :=
  Transition.Reachable Initial fun before after => ∃ act, before.act act = some after

/-- What runs reach in which no view waits for more chunks than the ring has. -/
abbrev SparingReachable : World → Prop :=
  Transition.Reachable Initial fun before after =>
    ∃ act, before.spares act ∧ before.act act = some after

theorem Inv.of_reachable {w : World} (reachable : SparingReachable w) : w.Inv := by
  refine reachable.invariant ?_ fun before after inv ⟨act, spares, eq⟩ => inv.act spares eq
  rintro _ ⟨memory, opens⟩
  rename_i shared
  refine ⟨⟨⟨shared.ring_pos, Nat.zero_mod _⟩, Nat.zero_le _, ?_, nofun, nofun, nofun, nofun, nofun⟩,
    Nat.zero_le _, Nat.zero_le _, ⟨fun _ _ => rfl, fun _ _ => Nat.two_pow_pos 16⟩, rfl,
    Nat.zero_le _, nofun,
    trivial, fun _ => ⟨rfl, rfl, Nat.zero_le _, ?_⟩, nofun⟩
  · intro i lt
    exact absurd lt (Nat.not_lt_zero i)
  · intro i lt
    exact absurd lt (Nat.not_lt_zero i)

end World

instance (s : State) (ringChunks start size : ℕ) : Decidable (s.pinnable ringChunks start size) :=
  inferInstanceAs (Decidable (_ ∧ _))

instance (s : State) (ringChunks start size : ℕ) : Decidable (s.spares ringChunks start size) :=
  inferInstanceAs (Decidable (ite _ _ _))

namespace World

instance (w : World) (act : Act) : Decidable (w.spares act) :=
  match act with
  | .resume _ =>
    match here : w.reader with
    | .viewing start size _ _ => decidable_of_iff (w.state.spares w.shared.ringChunks start size) (by
        simp [spares, here])
    | .idle | .reading _ _ _ _ | .plain _ _ | .windowed _ _ _ | .copying _ _ _ _ _ _ _ _ =>
      .isTrue (by simp [spares, here])
  | .read _ | .view _ | .viewAt _ _ | .seek _ | .setReadahead _ | .fill | .fillRead _ | .fillEnd
  | .drop _ | .otherSeek _ | .interrupt _ => .isTrue trivial

def run (w : World) : List Act → Option World
  | [] => some w
  | act :: acts => (w.act act).bind fun w => w.run acts

theorem reachable_of_run {w after : World} (reachable : Reachable w) {acts : List Act}
    (run : w.run acts = some after) : Reachable after := by
  induction acts generalizing w with
  | nil =>
    cases run
    exact reachable
  | cons act acts ih =>
    obtain ⟨between, eq, run⟩ := Option.bind_eq_some_iff.mp run
    exact ih (.next reachable ⟨act, eq⟩) run

def sparingRun (w : World) : List Act → Option World
  | [] => some w
  | act :: acts => if w.spares act then (w.act act).bind fun w => w.sparingRun acts else none

theorem reachable_of_sparingRun {w after : World} (reachable : SparingReachable w) {acts : List Act}
    (run : w.sparingRun acts = some after) : SparingReachable after := by
  induction acts generalizing w with
  | nil =>
    cases run
    exact reachable
  | cons act acts ih =>
    obtain ⟨spares, run⟩ := Option.ite_none_right_eq_some.mp run
    obtain ⟨between, eq, run⟩ := Option.bind_eq_some_iff.mp run
    exact ih (.next reachable ⟨act, spares, eq⟩) run

end World

namespace Playback

def file : File := { size := 10 * chunkBytes, byte := fun i => UInt8.ofNat (chunkIndex i) }

def arena : Arena := { address := 0, bytes := 5 * chunkBytes, direct := false }

def shared : Shared := (open' file arena).get (by decide +kernel)

def opened : World := { shared, memory := fun _ => 0 }

theorem initial : World.Initial opened := .opened _ (Option.some_get _).symm

def fillOne : List Act := [.fill, .fillRead chunkBytes, .fillEnd]

def viewed : List Act :=
  [.setReadahead true, .seek 65000, .view 1000, .resume 0] ++ fillOne ++ fillOne ++
    [.resume 0, .read 1, .resume 0, .resume 0]

def overrun : List Act :=
  [.setReadahead true, .viewAt 327680 65536, .resume 0, .otherSeek 0, .resume 0] ++ fillOne ++
    fillOne ++ fillOne ++ fillOne ++ fillOne ++ fillOne ++
    [.resume 0, .read 1, .resume 0, .resume 0]

end Playback

end EspDevkit.Media
