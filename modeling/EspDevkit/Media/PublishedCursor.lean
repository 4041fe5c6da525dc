import EspDevkit.Media.BufferRuns

/-!
# The published cursor

`tell` does not take the lock: it reads a copy of the cursor, which the task that reads the
file publishes in two words whenever it has moved it.
-/

namespace EspDevkit.Media

open Option

/-- `Published`. -/
structure Published where
  low : ℕ := 0
  high : ℕ := 0

namespace Published

def store (value : ℕ) : Published :=
  { low := value % 2 ^ 32, high := (value >>> 32) % 2 ^ 32 }

def load (published : Published) : ℕ := published.high <<< 32 ||| published.low

theorem load_store {value : ℕ} (fits : value < 2 ^ 63) : (store value).load = value := by
  have low : value % 2 ^ 32 < 2 ^ 32 := Nat.mod_lt _ (Nat.two_pow_pos 32)
  unfold load store
  dsimp only
  rw [← Nat.shiftLeft_add_eq_or_of_lt low, Nat.shiftLeft_eq, Nat.shiftRight_eq_div_pow]
  omega

theorem load_zero : load {} = 0 := by decide

end Published

namespace World

/-- What a pass of the task that reads the file publishes: `read` when it ends, a view when
it was copied and the cursor moves past it. -/
def passPublishes (w : World) (got : ℕ) : Option ℕ :=
  match w.reader with
  | .idle => none
  | .reading start size out _ =>
    let after := w.readPass start size out
    if after.idle then some after.state.cursor else none
  | .plain start size => some (w.plainRead start size got).state.cursor
  | .windowed start size out =>
    let after := w.windowPass start size out got
    if after.idle then some after.state.cursor else none
  | .viewing _ _ _ _ => none
  | .copying start size advance _ _ _ _ done =>
    if ¬done < size ∧ advance then some (start + size) else none

/-- What `view_at` publishes: where it moves the cursor, if it does. -/
def viewAtPublishes (w : World) (offset : ℤ) (size : ℕ) : Option ℕ :=
  if offset < 0 ∨ size = 0 ∨ w.shared.bounceBytes < size ∨
      (w.shared.file.size : ℤ) < offset + size then none
  else if offset.toNat < w.state.cursor ∨
      alignDown w.state.cursor + w.shared.ringChunks / 2 * chunkBytes < offset.toNat + size then
    some offset.toNat
  else none

def publishes (w : World) : Act → Option ℕ
  | .seek offset | .otherSeek offset => some (min offset.toNat w.shared.file.size)
  | .viewAt offset size => w.viewAtPublishes offset size
  | .resume got => w.passPublishes got
  | .read _ | .view _ | .setReadahead _ | .fill | .fillRead _ | .fillEnd | .drop _
  | .interrupt _ => none

/-- A view that moves the cursor finds its chunks there and in one piece. -/
def pinsAhead (w : World) : Bool :=
  match w.reader with
  | .viewing start size true stage =>
    let (wait, s) := w.state.waitFor w.shared.ringChunks (start + size)
    let (slot, count) := s.span w.shared.ringChunks start size
    (stage = .data || w.state.readahead) && wait = .ready && s.base ≤ start &&
      slot + count ≤ w.shared.ringChunks
  | _ => false

end World

structure Buffer where
  world : World
  published : Published := {}

namespace Buffer

def tell (b : Buffer) : ℕ := b.published.load

def publish (b : Buffer) : Option ℕ → Published
  | some cursor => .store cursor
  | none => b.published

def act (b : Buffer) (act : Act) : Option Buffer :=
  (b.world.act act).map fun world =>
    { world, published := b.publish (b.world.publishes act) }

/-- `skip`. -/
def skip (b : Buffer) (delta : ℤ) : Option Buffer :=
  b.act (.seek (Int.bmod (b.tell + delta) (2 ^ 64)))

/-- A buffer just opened, of a file whose size is an `i64`. -/
inductive Initial : Buffer → Prop
  | opened {world : World} (opens : World.Initial world) (fits : world.shared.file.size < 2 ^ 63) :
      Initial { world }

def oneReader : Act → Bool
  | .otherSeek _ => false
  | _ => true

/-- No view that moves the cursor gets its chunks in one piece. -/
def copiesAhead (b : Buffer) (act : Act) : Bool :=
  oneReader act && match act with
    | .resume _ => !b.world.pinsAhead
    | _ => true

abbrev Reachable : Buffer → Prop :=
  Transition.Reachable Initial (Transition.Allowed Buffer.act fun b act => b.copiesAhead act = true)

end Buffer

section

variable (s : State) (ringChunks : ℕ)

@[simp]
theorem State.dropConsumed_cursor : (s.dropConsumed ringChunks).cursor = s.cursor := by
  obtain ⟨base, head, filled, frame⟩ := s.dropConsumed_frame ringChunks
  rw [frame]

theorem State.seek_cursor (offset : ℕ) : (s.seek ringChunks offset).cursor = offset := by
  unfold State.seek
  rw [State.dropConsumed_cursor]

@[simp]
theorem State.waitFor_cursor (finish : ℕ) :
    (s.waitFor ringChunks finish).2.cursor = s.cursor := by
  rcases s.waitFor_cases ringChunks finish with ⟨eq, -⟩ | eq | ⟨eq, -⟩ <;>
    rw [eq] <;> exact s.dropConsumed_cursor ringChunks

@[simp]
theorem State.fillTarget_cursor (shared : Shared) :
    (s.fillTarget shared).1.cursor = s.cursor := by
  unfold State.fillTarget
  split
  · dsimp only
    split
    · split <;> exact s.dropConsumed_cursor _
    · exact s.dropConsumed_cursor _
  · rfl

@[simp]
theorem State.fillDone_cursor (shared : Shared) (fill : Fill) :
    (s.fillDone shared fill).cursor = s.cursor := by
  unfold State.fillDone
  split
  · split <;> rfl
  · rfl

end

namespace World

variable {w : World} {start size : ℕ} {out : List UInt8}

theorem readPass_cursor (bound : w.state.cursor + (size - out.length) ≤ w.shared.file.size) :
    ((w.readPass start size out).reader = .idle ∧
        (w.readPass start size out).state.cursor ≤ w.shared.file.size) ∨
      ∃ out' waiting, (w.readPass start size out).reader = .reading start size out' waiting ∧
        (w.readPass start size out).state.cursor + (size - out'.length) ≤
          w.shared.file.size := by
  have inside : w.state.cursor ≤ w.shared.file.size := by omega
  unfold readPass
  extract_lets s finish
  split
  · exact .inl ⟨rfl, inside⟩
  · have same := s.waitFor_cursor w.shared.ringChunks finish
    rcases waited : s.waitFor w.shared.ringChunks finish with ⟨wait, s'⟩
    rw [waited] at same
    change s'.cursor = w.state.cursor at same
    cases wait with
    | again => exact .inr ⟨out, true, rfl, by rw [same]; exact bound⟩
    | failed =>
      refine .inl ⟨rfl, ?_⟩
      change s'.cursor ≤ _
      rwa [same]
    | ready =>
      refine .inr ⟨_, false, rfl, ?_⟩
      have le : finish ≤ w.state.cursor + (size - out.length) := Nat.min_le_right _ _
      simp only [List.length_append, length_bytesAt, same]
      omega

theorem windowTake_cursor {s : State} {memory : ℕ → UInt8}
    (bound : s.cursor + (size - out.length) ≤ w.shared.file.size) :
    ∃ out', (w.windowTake s memory start size out).reader = .windowed start size out' ∧
      (w.windowTake s memory start size out).state.cursor + (size - out'.length) ≤
        w.shared.file.size := by
  refine ⟨_, rfl, ?_⟩
  simp only [windowTake, List.length_append, length_bytesAt]
  omega

theorem windowPass_cursor (got : ℕ)
    (bound : w.state.cursor + (size - out.length) ≤ w.shared.file.size) :
    ((w.windowPass start size out got).reader = .idle ∧
        (w.windowPass start size out got).state.cursor ≤ w.shared.file.size) ∨
      ∃ out', (w.windowPass start size out got).reader = .windowed start size out' ∧
        (w.windowPass start size out got).state.cursor + (size - out'.length) ≤
          w.shared.file.size := by
  have inside : w.state.cursor ≤ w.shared.file.size := by omega
  unfold windowPass
  extract_lets s cap window got' sequential winSize winBase winLen memory s'
  split
  · exact .inl ⟨rfl, inside⟩
  · split
    · refine .inl ⟨rfl, ?_⟩
      have few : got' ≤ size - out.length :=
        Nat.le_trans (Nat.min_le_right _ _) (Nat.min_le_left _ _)
      change w.state.cursor + got' ≤ _
      omega
    · split
      · split
        · exact .inl ⟨rfl, inside⟩
        · exact .inr (windowTake_cursor bound)
      · exact .inr (windowTake_cursor bound)

theorem plainRead_cursor (got : ℕ) (here : w.state.cursor = start)
    (bound : start + size ≤ w.shared.file.size) :
    (w.plainRead start size got).state.cursor ≤ w.shared.file.size := by
  have few : w.shared.readAt got start size ≤ size :=
    Nat.le_trans (Nat.min_le_right _ _) (Nat.min_le_left _ _)
  change w.state.cursor + w.shared.readAt got start size ≤ _
  omega

theorem pinsAhead_of_ready {stage : Stage} {s : State}
    (here : w.reader = .viewing start size true stage)
    (waited : w.state.waitFor w.shared.ringChunks (start + size) = (.ready, s))
    (looks : ¬ (stage ≠ .data ∧ !w.state.readahead)) (there : s.base ≤ start)
    (piece : (s.span w.shared.ringChunks start size).1 +
      (s.span w.shared.ringChunks start size).2 ≤ w.shared.ringChunks) :
    w.pinsAhead = true := by
  have looks : stage = .data ∨ w.state.readahead = true := by
    simpa [or_iff_not_imp_left] using looks
  unfold pinsAhead
  rw [here]
  dsimp only
  rw [waited]
  simpa [there, piece] using looks

theorem readPass_shared (w : World) (start size : ℕ) (out : List UInt8) :
    (w.readPass start size out).shared = w.shared := by
  unfold readPass
  extract_lets s finish
  split
  · rfl
  · split <;> rfl

theorem windowPass_shared (w : World) (start size : ℕ) (out : List UInt8) (got : ℕ) :
    (w.windowPass start size out got).shared = w.shared := by
  unfold windowPass
  extract_lets s cap window got' sequential winSize winBase winLen memory s'
  split
  · rfl
  · split
    · rfl
    · split
      · split <;> rfl
      · rfl

theorem viewPass_shared (w : World) (start size : ℕ) (advance : Bool) (stage : Stage) :
    (w.viewPass start size advance stage).shared = w.shared := by
  unfold viewPass viewReady
  dsimp only
  split
  · rfl
  · split
    · rfl
    · rfl
    · split
      · rfl
      · split
        · rfl
        · split
          · rfl
          · split <;> rfl

theorem copyPass_shared (w : World) (start size : ℕ) (advance : Bool)
    (slot count base head done : ℕ) :
    (w.copyPass start size advance slot count base head done).shared = w.shared := by
  unfold copyPass
  split <;> rfl

theorem act_shared {w after : World} {act : Act} (eq : w.act act = some after) :
    after.shared = w.shared := by
  cases act with
  | read asked =>
    obtain ⟨-, ⟨⟩⟩ := ite_none_right_eq_some.mp eq
    unfold World.read
    dsimp only
    split
    · rfl
    · split
      · rfl
      · split <;> rfl
  | view size =>
    obtain ⟨-, ⟨⟩⟩ := ite_none_right_eq_some.mp eq
    unfold World.view
    split <;> rfl
  | viewAt offset size =>
    obtain ⟨-, ⟨⟩⟩ := ite_none_right_eq_some.mp eq
    unfold World.viewAt
    split <;> rfl
  | setReadahead enabled =>
    obtain ⟨-, ⟨⟩⟩ := ite_none_right_eq_some.mp eq
    unfold World.setReadahead
    split <;> rfl
  | resume got =>
    unfold World.act resume at eq
    dsimp only at eq
    split at eq
    · cases eq
    · cases eq
      exact w.readPass_shared _ _ _
    · cases eq
      rfl
    · cases eq
      exact w.windowPass_shared _ _ _ _
    · cases eq
      exact w.viewPass_shared _ _ _ _
    · cases eq
      exact w.copyPass_shared _ _ _ _ _ _ _ _
  | fillRead got =>
    obtain ⟨fill, -, rfl⟩ := map_eq_some_iff.mp eq
    rfl
  | fillEnd =>
    obtain ⟨-, eq⟩ := ite_none_left_eq_some.mp eq
    obtain ⟨fill, -, rfl⟩ := map_eq_some_iff.mp eq
    rfl
  | interrupt interrupted =>
    obtain ⟨-, ⟨⟩⟩ := ite_none_left_eq_some.mp eq
    rfl
  | seek | fill | drop | otherSeek =>
    obtain ⟨-, ⟨⟩⟩ := ite_none_right_eq_some.mp eq
    rfl

end World

namespace Buffer

/-- Between the calls the published cursor is the cursor, and while a view is made; what a
read or a view is to move the cursor past is in the file. -/
def Agrees (fileSize tell cursor : ℕ) : Reader → Prop
  | .idle => cursor ≤ fileSize ∧ tell = cursor
  | .reading _ size out _ | .windowed _ size out => cursor + (size - out.length) ≤ fileSize
  | .plain start size => cursor = start ∧ start + size ≤ fileSize
  | .viewing start size advance _ =>
    cursor ≤ fileSize ∧ tell = cursor ∧ start + size ≤ fileSize ∧ 0 < size ∧
      (advance = true → start = cursor)
  | .copying start size _ _ _ _ _ _ =>
    cursor ≤ fileSize ∧ tell = cursor ∧ start + size ≤ fileSize

structure Inv (b : Buffer) : Prop where
  fits : b.world.shared.file.size < 2 ^ 63
  agrees : Agrees b.world.shared.file.size b.tell b.world.state.cursor b.world.reader

namespace Inv

variable {b : Buffer}

theorem idle (inv : b.Inv) (idle : b.world.idle = true) :
    b.world.state.cursor ≤ b.world.shared.file.size ∧ b.tell = b.world.state.cursor := by
  have agrees := inv.agrees
  unfold World.idle at idle
  split at idle
  · next here => rwa [here] at agrees
  · cases idle

theorem tell_store (inv : b.Inv) {cursor : ℕ} (inside : cursor ≤ b.world.shared.file.size) :
    (Published.store cursor).load = cursor :=
  Published.load_store (Nat.lt_of_le_of_lt inside inv.fits)

theorem ended (inv : b.Inv) {world : World} (idle : world.reader = .idle)
    (inside : world.state.cursor ≤ b.world.shared.file.size) :
    Agrees b.world.shared.file.size
      (b.publish (if world.idle then some world.state.cursor else none)).load
      world.state.cursor world.reader := by
  have idles : world.idle = true := by
    unfold World.idle
    rw [idle]
  rw [if_pos idles, idle]
  exact ⟨inside, inv.tell_store inside⟩

theorem read (inv : b.Inv) (idle : b.world.idle = true) (asked : ℕ) :
    Agrees b.world.shared.file.size b.tell (b.world.read asked).state.cursor
      (b.world.read asked).reader := by
  have agrees := inv.agrees
  obtain ⟨inside, same⟩ := inv.idle idle
  unfold World.read
  extract_lets s size
  have bound : s.cursor + size ≤ b.world.shared.file.size := by
    have : size ≤ b.world.shared.file.size - s.cursor := Nat.min_le_right _ _
    change b.world.state.cursor + size ≤ _
    change size ≤ _ - b.world.state.cursor at this
    omega
  split
  · exact agrees
  · split
    · exact bound
    · split
      · exact ⟨rfl, bound⟩
      · exact bound

theorem view (inv : b.Inv) (idle : b.world.idle = true) (size : ℕ) :
    Agrees b.world.shared.file.size b.tell (b.world.view size).state.cursor
      (b.world.view size).reader := by
  obtain ⟨inside, same⟩ := inv.idle idle
  unfold World.view
  split
  · exact inv.agrees
  · rename_i fits
    exact ⟨inside, same, by omega, by omega, fun _ => rfl⟩

theorem viewAt (inv : b.Inv) (idle : b.world.idle = true) (offset : ℤ) (size : ℕ) :
    Agrees b.world.shared.file.size (b.publish (b.world.viewAtPublishes offset size)).load
      (b.world.viewAt offset size).state.cursor (b.world.viewAt offset size).reader := by
  obtain ⟨inside, same⟩ := inv.idle idle
  unfold World.viewAt World.viewAtPublishes
  split
  · exact inv.agrees
  · rename_i fits
    have bound : offset.toNat + size ≤ b.world.shared.file.size := by omega
    dsimp only
    split
    · rw [State.seek_cursor]
      exact ⟨by omega, inv.tell_store (by omega), bound, by omega, nofun⟩
    · exact ⟨inside, same, bound, by omega, nofun⟩

theorem viewPass (inv : b.Inv) {start size : ℕ} {advance : Bool} {stage : Stage}
    (here : b.world.reader = .viewing start size advance stage)
    (copies : b.world.pinsAhead = false) :
    Agrees b.world.shared.file.size b.tell
      (b.world.viewPass start size advance stage).state.cursor
      (b.world.viewPass start size advance stage).reader := by
  have agrees := inv.agrees
  rw [here] at agrees
  obtain ⟨inside, same, bound, pos, start_eq⟩ := agrees
  have kept := b.world.state.waitFor_cursor b.world.shared.ringChunks (start + size)
  unfold World.viewPass
  split
  · exact ⟨inside, same⟩
  · rename_i looks
    rcases waited : b.world.state.waitFor b.world.shared.ringChunks (start + size) with ⟨wait, s⟩
    rw [waited] at kept
    change s.cursor = b.world.state.cursor at kept
    have inside' : s.cursor ≤ b.world.shared.file.size ∧ b.tell = s.cursor := by
      rw [kept]
      exact ⟨inside, same⟩
    cases wait with
    | again => exact ⟨inside'.1, inside'.2, bound, pos, by rwa [kept]⟩
    | failed => exact inside'
    | ready =>
      dsimp only
      split
      · exact inside'
      · rename_i there
        unfold World.viewReady
        dsimp only
        split
        · rename_i piece
          cases advance with
          | false => exact inside'
          | true =>
            have ahead := World.pinsAhead_of_ready here waited looks (Nat.le_of_not_lt there) piece
            rw [ahead] at copies
            cases copies
        · split
          · exact ⟨inside'.1, inside'.2, bound⟩
          · split
            · exact inside'
            · exact ⟨inside'.1, inside'.2, bound, pos, by rwa [kept]⟩

theorem copyPass (inv : b.Inv) {start size slot count base head done : ℕ} {advance : Bool}
    (here : b.world.reader = .copying start size advance slot count base head done) :
    Agrees b.world.shared.file.size
      (b.publish (if ¬done < size ∧ advance then some (start + size) else none)).load
      (b.world.copyPass start size advance slot count base head done).state.cursor
      (b.world.copyPass start size advance slot count base head done).reader := by
  have agrees := inv.agrees
  rw [here] at agrees
  obtain ⟨inside, same, bound⟩ := agrees
  unfold World.copyPass
  by_cases more : done < size
  · rw [if_pos more, if_neg (fun ends => ends.1 more)]
    exact ⟨inside, same, bound⟩
  · rw [if_neg more]
    cases advance with
    | false =>
      rw [if_neg (fun ends => Bool.noConfusion ends.2)]
      exact ⟨inside, same⟩
    | true =>
      rw [if_pos ⟨more, rfl⟩]
      exact ⟨bound, inv.tell_store bound⟩

theorem resume (inv : b.Inv) {got : ℕ} {world : World} (copies : b.world.pinsAhead = false)
    (goes : b.world.resume got = some world) :
    Agrees b.world.shared.file.size (b.publish (b.world.passPublishes got)).load
      world.state.cursor world.reader := by
  have agrees := inv.agrees
  unfold World.resume at goes
  unfold World.passPublishes
  cases here : b.world.reader with
  | idle => simp [here] at goes
  | reading start size out waiting =>
    simp only [here, Option.some.injEq] at goes agrees ⊢
    subst goes
    rcases World.readPass_cursor agrees with ⟨idle, inside⟩ | ⟨out', waiting', reader, bound⟩
    · exact inv.ended idle inside
    · rw [reader]
      exact bound
  | plain start size =>
    simp only [here, Option.some.injEq] at goes agrees ⊢
    subst goes
    have inside := World.plainRead_cursor got agrees.1 agrees.2
    exact ⟨inside, inv.tell_store inside⟩
  | windowed start size out =>
    simp only [here, Option.some.injEq] at goes agrees ⊢
    subst goes
    rcases World.windowPass_cursor got agrees with ⟨idle, inside⟩ | ⟨out', reader, bound⟩
    · exact inv.ended idle inside
    · rw [reader]
      exact bound
  | viewing start size advance stage =>
    simp only [here, Option.some.injEq] at goes ⊢
    subst goes
    exact inv.viewPass here copies
  | copying start size advance slot count base head done =>
    simp only [here, Option.some.injEq] at goes ⊢
    subst goes
    exact inv.copyPass here

theorem seek (inv : b.Inv) (idle : b.world.idle = true) (offset : ℤ) :
    Agrees b.world.shared.file.size
      (Published.store (min offset.toNat b.world.shared.file.size)).load
      (b.world.seek offset).state.cursor (b.world.seek offset).reader := by
  have inside : min offset.toNat b.world.shared.file.size ≤ b.world.shared.file.size :=
    Nat.min_le_right _ _
  have idles : (b.world.seek offset).reader = .idle := by
    unfold World.idle at idle
    split at idle
    · assumption
    · cases idle
  rw [idles]
  unfold World.seek
  rw [State.seek_cursor]
  exact ⟨inside, inv.tell_store inside⟩

theorem act (inv : b.Inv) {act : Act} {after : Buffer} (copies : b.copiesAhead act = true)
    (eq : b.act act = some after) : after.Inv := by
  obtain ⟨world, goes, rfl⟩ := map_eq_some_iff.mp eq
  have shared := World.act_shared goes
  suffices agrees : Agrees b.world.shared.file.size (b.publish (b.world.publishes act)).load
      world.state.cursor world.reader by
    refine ⟨?_, ?_⟩ <;> dsimp only <;> rw [shared]
    · exact inv.fits
    · exact agrees
  cases act with
  | read asked =>
    obtain ⟨idle, ⟨⟩⟩ := ite_none_right_eq_some.mp goes
    exact inv.read idle asked
  | view size =>
    obtain ⟨idle, ⟨⟩⟩ := ite_none_right_eq_some.mp goes
    exact inv.view idle size
  | viewAt offset size =>
    obtain ⟨idle, ⟨⟩⟩ := ite_none_right_eq_some.mp goes
    exact inv.viewAt idle offset size
  | seek offset =>
    obtain ⟨idle, ⟨⟩⟩ := ite_none_right_eq_some.mp goes
    exact inv.seek idle offset
  | setReadahead enabled =>
    obtain ⟨-, ⟨⟩⟩ := ite_none_right_eq_some.mp goes
    unfold World.setReadahead
    split
    · exact inv.agrees
    · cases enabled <;> exact inv.agrees
  | resume got => exact inv.resume (by simpa [copiesAhead, oneReader] using copies) goes
  | fill =>
    obtain ⟨-, ⟨⟩⟩ := ite_none_right_eq_some.mp goes
    have same := b.world.state.fillTarget_cursor b.world.shared
    have agrees := inv.agrees
    unfold World.fill
    dsimp only
    rwa [same]
  | fillRead got =>
    obtain ⟨fill, -, rfl⟩ := map_eq_some_iff.mp goes
    exact inv.agrees
  | fillEnd =>
    obtain ⟨-, goes⟩ := ite_none_left_eq_some.mp goes
    obtain ⟨fill, -, rfl⟩ := map_eq_some_iff.mp goes
    have same := b.world.state.fillDone_cursor b.world.shared fill
    have agrees := inv.agrees
    unfold World.fillEnd
    dsimp only
    rwa [same]
  | drop view =>
    obtain ⟨-, ⟨⟩⟩ := ite_none_right_eq_some.mp goes
    have agrees := inv.agrees
    unfold World.release
    cases view.pin <;> exact agrees
  | otherSeek offset => cases copies
  | interrupt interrupted =>
    obtain ⟨-, goes⟩ := ite_none_left_eq_some.mp goes
    cases goes
    exact inv.agrees

theorem of_reachable (reachable : Reachable b) : b.Inv := by
  refine reachable.invariant ?_ fun before after inv ⟨act, eq, copies⟩ => inv.act copies eq
  rintro _ ⟨⟨memory, opens⟩, fits⟩
  exact ⟨fits, Nat.zero_le _, Published.load_zero⟩

end Inv

/-- A view that moves the cursor and gets its chunks in one piece does not publish it. -/
theorem resume_of_pinsAhead {b after : Buffer} {got : ℕ} (inv : b.Inv)
    (ahead : b.world.pinsAhead = true) (eq : b.act (.resume got) = some after) :
    after.world.idle = true ∧ after.tell ≠ after.world.state.cursor := by
  obtain ⟨world, goes, rfl⟩ := map_eq_some_iff.mp eq
  have agrees := inv.agrees
  unfold World.pinsAhead at ahead
  split at ahead
  · rename_i start size stage here
    rw [here] at agrees
    obtain ⟨-, same, -, pos, at_cursor⟩ := agrees
    have at_cursor := at_cursor rfl
    rcases waited : b.world.state.waitFor b.world.shared.ringChunks (start + size) with ⟨wait, s⟩
    rw [waited] at ahead
    simp only [Bool.and_eq_true, Bool.or_eq_true, decide_eq_true_eq] at ahead
    obtain ⟨⟨⟨looks, rfl⟩, there⟩, piece⟩ := ahead
    unfold World.act World.resume at goes
    dsimp only at goes
    rw [here] at goes
    cases goes
    have unpublished : b.world.publishes (.resume got) = none := by
      unfold World.publishes World.passPublishes
      rw [here]
    rw [unpublished]
    unfold World.viewPass
    rw [if_neg (by simpa [or_iff_not_imp_left] using looks), waited]
    dsimp only
    rw [if_neg (Nat.not_lt.mpr there)]
    unfold World.viewReady
    dsimp only
    rw [if_pos piece]
    refine ⟨rfl, ?_⟩
    change b.tell ≠ start + size
    omega
  · cases ahead

end Buffer

/-- As long as no view that moves the cursor gets its chunks in one piece, `tell` between the
calls is the cursor, and `skip` seeks from there; a view that does breaks it. -/
theorem tell_cursor (b : Buffer) (reachable : b.Reachable) :
    (b.world.idle = true →
      b.tell = b.world.state.cursor ∧
        ∀ delta, b.skip delta =
          b.act (.seek (Int.bmod (b.world.state.cursor + delta) (2 ^ 64)))) ∧
      (b.world.pinsAhead = true → ∀ got after, b.act (.resume got) = some after →
        after.world.idle = true ∧ after.tell ≠ after.world.state.cursor) := by
  have inv := Buffer.Inv.of_reachable reachable
  refine ⟨fun idle => ?_, fun ahead got after => Buffer.resume_of_pinsAhead inv ahead⟩
  have same := (inv.idle idle).2
  refine ⟨same, fun delta => ?_⟩
  unfold Buffer.skip
  rw [same]

namespace Playback

def buffer : Buffer := { world := opened }

theorem buffer_initial : Buffer.Initial buffer := .opened initial (by decide +kernel)

def ahead : List Act := [.setReadahead true] ++ fillOne ++ [.view 1000]

end Playback

open Playback in
theorem tell_cursor_ahead : ∃ b : Buffer, b.Reachable ∧ b.world.pinsAhead = true ∧
    ∀ after, b.act (.resume 0) = some after → after.tell ≠ after.world.state.cursor := by
  have facts : (Transition.run Buffer.act Buffer.copiesAhead buffer ahead).map
      (fun b => b.world.pinsAhead) = some true := by decide +kernel
  obtain ⟨b, run, pins⟩ := map_eq_some_iff.mp facts
  have reachable : b.Reachable :=
    Transition.reachable_of_run (fun _ _ => id) (.start buffer_initial) run
  exact ⟨b, reachable, pins, fun after eq => ((tell_cursor b reachable).2 pins 0 after eq).2⟩

open Playback in
/-- After a view of 1000 bytes `tell` is still zero. -/
theorem tell_behind_cursor : ¬ ∀ b : Buffer,
    Transition.Reachable Buffer.Initial
      (Transition.Allowed Buffer.act fun _ act => Buffer.oneReader act = true) b →
    b.world.idle = true → b.tell = b.world.state.cursor := by
  intro same
  have facts : (Transition.run Buffer.act (fun _ => Buffer.oneReader) buffer
      (ahead ++ [.resume 0])).map
        (fun b => (b.world.idle, b.tell, b.world.state.cursor)) = some (true, 0, 1000) := by
    decide +kernel
  obtain ⟨b, run, facts⟩ := map_eq_some_iff.mp facts
  rw [Prod.mk.injEq, Prod.mk.injEq] at facts
  have behind := same b
    (Transition.reachable_of_run (fun _ _ => id) (.start buffer_initial) run) facts.1
  rw [facts.2.1, facts.2.2] at behind
  cases behind

end EspDevkit.Media
