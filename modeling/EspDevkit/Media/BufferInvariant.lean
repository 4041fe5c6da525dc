import EspDevkit.Library.Transition
import EspDevkit.Media.BufferWindow
import Mathlib.Data.List.Nodup
import Mathlib.Data.List.Perm.Basic

/-!
# Every byte is the file's

The invariant of the buffer: what the filled window shows is in the file, the
chunk that is being filled is outside of the window and not pinned, and a
counter has the number of views and copies that pin its chunk.  It is kept by
every step as long as no view waits for more chunks than the ring has.
-/

namespace EspDevkit.Media

open CircularWindow List

variable {shared : Shared}

theorem Shared.ring_pos (shared : Shared) : 0 < shared.ringChunks :=
  Nat.lt_of_lt_of_le (Nat.mul_pos (by decide) (Nat.succ_pos _)) shared.bounce_le

structure RingSound (shared : Shared) (memory : ℕ → UInt8) (window : Window)
    (filling : Option Fill) (pinned : List ℕ) : Prop where
  sound : window.Sound shared.ringChunks
  most : window.filled ≤ shared.ringChunks
  shows' : Shows shared memory window
  next : ∀ fill, filling = some fill → fill.slot = window.next shared.ringChunks
  room : ∀ fill, filling = some fill → window.filled < shared.ringChunks
  unpinned : ∀ fill, filling = some fill → fill.slot ∉ pinned
  got : ∀ fill, filling = some fill → fill.got ≤ shared.wanted fill.offset
  bytes : ∀ fill, filling = some fill → ∀ j < fill.got,
    memory (Shared.chunk fill.slot + j) = shared.file.byte (fill.offset + j)

structure PinsSound (shared : Shared) (pins : ℕ → ℕ) (pinned : List ℕ) : Prop where
  count : ∀ p < shared.ringChunks, pins p = pinned.count p
  few : ∀ p < shared.ringChunks, pins p < 2 ^ 16

/-- A view lies in the chunks it pins, or in the bounce area. -/
def Located (shared : Shared) (data len : ℕ) : Pin → Prop
  | .chunks slot count => slot + count ≤ shared.ringChunks ∧ Shared.chunk slot ≤ data ∧
      data + len ≤ Shared.chunk (slot + count)
  | .bounce => data = shared.bounce ∧ len ≤ shared.bounceBytes

structure ViewSound (shared : Shared) (memory : ℕ → UInt8) (view : View) : Prop where
  inside : view.start + view.len ≤ shared.file.size
  located : Located shared view.data view.len view.pin
  bytes : ∀ i < view.len, memory (view.data + i) = shared.file.byte (view.start + i)

structure Partial (shared : Shared) (cursor start size : ℕ) (out : List UInt8) : Prop where
  bytes : out = bytesAt shared.file.byte start out.length
  reached : cursor = start + out.length
  inside : start + size ≤ shared.file.size
  short : out.length ≤ size

structure Asked (shared : Shared) (start size : ℕ) : Prop where
  some : 0 < size
  fits : size ≤ shared.bounceBytes
  inside : start + size ≤ shared.file.size

/-- The chunks that are copied are pinned and have the bytes of the file, as the
bounce area does up to `done`. -/
structure CopySound (shared : Shared) (memory : ℕ → UInt8)
    (start size slot count base head done : ℕ) : Prop where
  first : base ≤ start
  few : count ≤ shared.ringChunks
  most : done ≤ size
  pinned : ∀ i < size, place shared.ringChunks head (chunkIndex (start + i - base)) ∈
    copySlots shared.ringChunks slot count
  source : ∀ i < size,
    memory (Shared.chunk (place shared.ringChunks head (chunkIndex (start + i - base))) +
      chunkOffset (start + i - base)) = shared.file.byte (start + i)
  copied : ∀ i < done, memory (shared.bounce + i) = shared.file.byte (start + i)

def ReaderSound (shared : Shared) (memory : ℕ → UInt8) (cursor : ℕ) : Reader → Prop
  | .idle => True
  | .reading start size out _ => Partial shared cursor start size out
  | .plain start size => cursor = start ∧ start + size ≤ shared.file.size
  | .windowed start size out => shared.direct ∧ Partial shared cursor start size out
  | .viewing start size _ stage => Asked shared start size ∧ (shared.direct → stage = .entered)
  | .copying start size _ slot count base head done => Asked shared start size ∧
      ¬ shared.direct ∧ CopySound shared memory start size slot count base head done

/-- Without read-ahead the bounce area is the window of `read_windowed`. -/
structure DirectSound (shared : Shared) (memory : ℕ → UInt8) (s : State) (views : List View) :
    Prop where
  readahead : s.readahead = false
  none : views = []
  len : s.winLen ≤ shared.bounceBytes
  bytes : ∀ i < s.winLen, memory (shared.bounce + i) = shared.file.byte (s.winBase + i)

namespace Reader

def pinned (ringChunks : ℕ) : Reader → List ℕ
  | .copying _ _ _ slot count _ _ _ => copySlots ringChunks slot count
  | _ => []

def copies : Reader → Bool
  | .copying _ _ _ _ _ _ _ _ => true
  | _ => false

end Reader

def pinnedBy (shared : Shared) (reader : Reader) (views : List View) : List ℕ :=
  reader.pinned shared.ringChunks ++ views.flatMap fun view => view.pin.slots

def bouncers (reader : Reader) (views : List View) : ℕ :=
  reader.copies.toNat + views.countP fun view => decide (view.pin = .bounce)

namespace World

structure Inv (w : World) : Prop where
  ring : RingSound w.shared w.memory w.state.window w.filling (pinnedBy w.shared w.reader w.views)
  cursor : w.state.cursor ≤ w.shared.file.size
  want : w.state.want ≤ w.shared.ringChunks
  pins : PinsSound w.shared w.state.pins (pinnedBy w.shared w.reader w.views)
  bounce : w.state.bouncePins = bouncers w.reader w.views
  alone : w.state.bouncePins ≤ 1
  views : ∀ view ∈ w.views, ViewSound w.shared w.memory view
  reader : ReaderSound w.shared w.memory w.state.cursor w.reader
  direct : w.shared.direct → DirectSound w.shared w.memory w.state w.views
  returned : ∀ call ∈ w.returned, call.2 = bytesAt w.shared.file.byte call.1 call.2.length

end World

namespace RingSound

variable {memory : ℕ → UInt8} {window : Window} {filling : Option Fill} {pinned : List ℕ}

theorem dropped (ring : RingSound shared memory window filling pinned) {after : Window}
    (dropped : window.Dropped shared.ringChunks after) (sound : after.Sound shared.ringChunks) :
    RingSound shared memory after filling pinned :=
  { ring with
    sound
    most := dropped.filled.trans ring.most
    shows' := ring.shows'.dropped dropped
    next := fun fill is => (ring.next fill is).trans dropped.next.symm
    room := fun fill is => dropped.filled.trans_lt (ring.room fill is) }

theorem pin (ring : RingSound shared memory window filling pinned) {more : List ℕ}
    (inside : ∀ p ∈ more, Within shared.ringChunks window.head window.filled p) :
    RingSound shared memory window filling (more ++ pinned) :=
  { ring with
    unpinned := fun fill is member => by
      rcases mem_append.mp member with new | old
      · have within := inside _ new
        rw [ring.next fill is] at within
        exact next_out (ring.room fill is) within
      · exact ring.unpinned fill is old }

theorem unpin (ring : RingSound shared memory window filling pinned) {fewer : List ℕ}
    (sub : fewer ⊆ pinned) : RingSound shared memory window filling fewer :=
  { ring with unpinned := fun fill is member => ring.unpinned fill is (sub member) }

theorem bounce (ring : RingSound shared memory window filling pinned) (count : ℕ)
    (offset : ℕ) (bytes : ℕ → UInt8) :
    RingSound shared (put memory (shared.bounce + offset) count bytes) window filling pinned := by
  have pos := shared.ring_pos
  have same : ∀ p < shared.ringChunks, ∀ j < chunkBytes,
      put memory (shared.bounce + offset) count bytes (Shared.chunk p + j) =
        memory (Shared.chunk p + j) := by
    intro p bound j lt
    have := chunk_add_lt_bounce bound lt
    exact put_out (.inl (by omega))
  refine { ring with
    shows' := ring.shows'.congr fun i lt j within => same _ (place_lt pos _ _) j within
    bytes := fun fill is j lt => ?_ }
  have wanted := ring.got fill is
  rw [same, ring.bytes fill is j lt]
  · rw [ring.next fill is]
    exact place_lt pos _ _
  · unfold Shared.wanted at wanted
    omega

end RingSound

namespace PinsSound

variable {pins : ℕ → ℕ} {pinned : List ℕ}

theorem pin (sound : PinsSound shared pins pinned) {more : List ℕ} (nodup : more.Nodup)
    (few : ∀ p ∈ more, pins p < 2 ^ 16 - 1) :
    PinsSound shared (pinSlots pins more) (more ++ pinned) := by
  have exact' : ∀ p < shared.ringChunks, pinSlots pins more p = (more ++ pinned).count p := by
    intro p bound
    have small := sound.few p bound
    rw [count_append, ← sound.count p bound, pinSlots, Nat.add_comm]
    apply Nat.mod_eq_of_lt
    by_cases member : p ∈ more
    · have := few p member
      rw [count_eq_one_of_mem nodup member]
      omega
    · rwa [count_eq_zero_of_not_mem member, Nat.zero_add]
  exact ⟨exact', fun p _ => Nat.mod_lt _ (by decide)⟩

theorem unpin {more : List ℕ} (sound : PinsSound shared pins (more ++ pinned)) :
    PinsSound shared (unpinSlots pins more) pinned := by
  refine ⟨fun p bound => ?_, fun p _ => Nat.mod_lt _ (by decide)⟩
  have count := sound.count p bound
  have few := sound.few p bound
  rw [count_append] at count
  rw [unpinSlots, count]
  have : more.count p + pinned.count p + (2 ^ 16 - 1) * more.count p =
      pinned.count p + 2 ^ 16 * more.count p := by omega
  rw [this, Nat.add_mul_mod_self_left, Nat.mod_eq_of_lt (by omega)]

theorem perm {other : List ℕ} (sound : PinsSound shared pins pinned) (same : pinned.Perm other) :
    PinsSound shared pins other :=
  { sound with count := fun p bound => (sound.count p bound).trans (same.count_eq p) }

end PinsSound

variable {offset cursor : ℕ} {out : List UInt8}

theorem put_chunk {memory bytes : ℕ → UInt8} {slot count address : ℕ}
    (within : offset + count ≤ chunkBytes)
    (apart : address < Shared.chunk slot ∨ Shared.chunk slot + chunkBytes ≤ address) :
    put memory (Shared.chunk slot + offset) count bytes address = memory address :=
  put_out (by omega)

theorem put_chunk_of_bounce {memory bytes : ℕ → UInt8} {slot count : ℕ} (i : ℕ)
    (bound : slot < shared.ringChunks) (within : offset + count ≤ chunkBytes) :
    put memory (Shared.chunk slot + offset) count bytes (shared.bounce + i) =
      memory (shared.bounce + i) := by
  have := chunk_add_lt_bounce bound (Nat.sub_lt chunkBytes_pos Nat.one_pos)
  have := chunkBytes_pos
  exact put_chunk within (.inr (by omega))

theorem mem_slots_of_chunk {slot first count address : ℕ} (low : Shared.chunk first ≤ address)
    (high : address < Shared.chunk (first + count)) (start : Shared.chunk slot ≤ address)
    (finish : address < Shared.chunk slot + chunkBytes) : slot ∈ List.range' first count := by
  unfold Shared.chunk at *
  have after : first < slot + 1 := by
    apply Nat.lt_of_mul_lt_mul_right (a := chunkBytes)
    rw [Nat.succ_mul]
    omega
  have before : slot < first + count := by
    apply Nat.lt_of_mul_lt_mul_right (a := chunkBytes)
    omega
  rw [mem_range'_1]
  omega

namespace ViewSound

variable {memory : ℕ → UInt8} {view : View}

theorem congr (sound : ViewSound shared memory view) {memory' : ℕ → UInt8}
    (same : ∀ i < view.len, memory' (view.data + i) = memory (view.data + i)) :
    ViewSound shared memory' view :=
  { sound with bytes := fun i lt => (same i lt).trans (sound.bytes i lt) }

theorem fill (sound : ViewSound shared memory view) {slot count : ℕ}
    (bound : slot < shared.ringChunks) (within : offset + count ≤ chunkBytes)
    (apart : slot ∉ view.pin.slots) (bytes : ℕ → UInt8) :
    ViewSound shared (put memory (Shared.chunk slot + offset) count bytes) view := by
  obtain ⟨data, len, pin, start⟩ := view
  refine sound.congr fun i lt => ?_
  have located := sound.located
  cases pin with
  | bounce =>
    obtain ⟨rfl, -⟩ := located
    exact put_chunk_of_bounce i bound within
  | chunks first covered =>
    obtain ⟨-, low, high⟩ := located
    refine put_chunk within (Classical.byContradiction fun inside => apart ?_)
    dsimp only at *
    exact mem_slots_of_chunk (by omega) (by omega) (by omega : _ ≤ data + i) (by omega)

theorem bounce (sound : ViewSound shared memory view) (pinned : view.pin ≠ .bounce)
    (offset count : ℕ) (bytes : ℕ → UInt8) :
    ViewSound shared (put memory (shared.bounce + offset) count bytes) view := by
  obtain ⟨data, len, pin, start⟩ := view
  refine sound.congr fun i lt => ?_
  have located := sound.located
  cases pin with
  | bounce => exact absurd rfl pinned
  | chunks first covered =>
    obtain ⟨fits, -, high⟩ := located
    have : Shared.chunk (first + covered) ≤ shared.bounce := Nat.mul_le_mul_right _ fits
    dsimp only at *
    exact put_out (by omega)

end ViewSound

theorem CopySound.fill {memory : ℕ → UInt8} {start size slot count base head done : ℕ}
    (sound : CopySound shared memory start size slot count base head done) {filled more : ℕ}
    (bound : filled < shared.ringChunks) (within : offset + more ≤ chunkBytes)
    (apart : filled ∉ copySlots shared.ringChunks slot count) (bytes : ℕ → UInt8) :
    CopySound shared (put memory (Shared.chunk filled + offset) more bytes) start size slot count
      base head done :=
  { sound with
    source := fun i lt => by
      rw [put_chunk within, sound.source i lt]
      have pinned := sound.pinned i lt
      exact chunk_apart (fun same => apart (same ▸ pinned)) (chunkOffset_lt _)
    copied := fun i lt => (put_chunk_of_bounce i bound within).trans (sound.copied i lt) }

theorem ReaderSound.of_memory {memory after : ℕ → UInt8} {reader : Reader}
    (sound : ReaderSound shared memory cursor reader)
    (copying : ∀ start size view slot count base head done,
      reader = .copying start size view slot count base head done →
        CopySound shared memory start size slot count base head done →
          CopySound shared after start size slot count base head done) :
    ReaderSound shared after cursor reader := by
  cases reader with
  | copying => exact ⟨sound.1, sound.2.1, copying _ _ _ _ _ _ _ _ rfl sound.2.2⟩
  | _ => exact sound

theorem ReaderSound.fill {memory : ℕ → UInt8} {reader : Reader}
    (sound : ReaderSound shared memory cursor reader) {slot count : ℕ}
    (bound : slot < shared.ringChunks) (within : offset + count ≤ chunkBytes)
    (apart : slot ∉ reader.pinned shared.ringChunks) (bytes : ℕ → UInt8) :
    ReaderSound shared (put memory (Shared.chunk slot + offset) count bytes) cursor reader := by
  refine sound.of_memory ?_
  rintro start size view source amount base head done rfl copied
  exact copied.fill bound within apart bytes

theorem RingSound.fillRead {memory : ℕ → UInt8} {window : Window} {fill : Fill} {pinned : List ℕ}
    (ring : RingSound shared memory window (some fill) pinned) {got : ℕ}
    (more : fill.got + got ≤ shared.wanted fill.offset) :
    RingSound shared
      (put memory (Shared.chunk fill.slot + fill.got) got fun i =>
        shared.file.byte (fill.offset + fill.got + i))
      window (some { fill with got := fill.got + got }) pinned := by
  have within : fill.got + got ≤ chunkBytes := more.trans (Nat.min_le_left _ _)
  have slot := ring.next fill rfl
  have room := ring.room fill rfl
  refine ⟨ring.sound, ring.most, ring.shows'.congr fun i lt j inside => ?_, ?_, ?_, ?_, ?_, ?_⟩
  · refine put_chunk within (chunk_apart (fun same => ?_) inside)
    exact next_out room ⟨i, lt, same.trans slot⟩
  · rintro _ ⟨⟩
    exact slot
  · rintro _ ⟨⟩
    exact room
  · rintro _ ⟨⟩
    exact ring.unpinned fill rfl
  · rintro _ ⟨⟩
    exact more
  · rintro _ ⟨⟩ j lt
    dsimp only at *
    by_cases old : j < fill.got
    · rw [put_out (.inl (by omega)), ring.bytes fill rfl j old]
    · rw [put_in (by omega) (by omega)]
      congr 1
      omega

theorem Partial.more {start size : ℕ}
    (part : Partial shared cursor start size out) (take : ℕ) (fits : out.length + take ≤ size) :
    Partial shared (cursor + take) start size (out ++ bytesAt shared.file.byte cursor take) := by
  refine ⟨?_, ?_, part.inside, ?_⟩
  · rw [length_append, length_bytesAt, ← bytesAt_append, ← part.bytes, part.reached]
  · rw [length_append, length_bytesAt, part.reached, Nat.add_assoc]
  · rw [length_append, length_bytesAt]
    exact fits

namespace World.Inv

variable {w : World}

theorem dropConsumed (inv : w.Inv) :
    World.Inv { w with state := w.state.dropConsumed w.shared.ringChunks } := by
  obtain ⟨dropped, sound, -⟩ := State.dropConsumed_spec inv.ring.sound
  obtain ⟨base, head, filled, frame⟩ := w.state.dropConsumed_frame w.shared.ringChunks
  rw [frame] at dropped sound ⊢
  exact { inv with
    ring := inv.ring.dropped dropped sound
    direct := fun is => { inv.direct is with } }

theorem setCursor (inv : w.Inv) (inside : offset ≤ w.shared.file.size)
    (reader : ReaderSound w.shared w.memory offset w.reader) (ioError : Bool) :
    World.Inv { w with state := { w.state with cursor := offset, ioError } } :=
  { inv with
    ring := inv.ring
    cursor := inside
    reader
    direct := fun is => { inv.direct is with } }

theorem free_reader (inv : w.Inv) (free : w.idle ∨ w.between) (cursor : ℕ) :
    ReaderSound w.shared w.memory cursor w.reader := by
  have sound := inv.reader
  obtain ⟨shared, state, memory, filling, reader, views, returned⟩ := w
  cases reader with
  | idle => trivial
  | viewing => exact sound
  | copying => exact sound
  | _ => simp [World.idle, World.between] at free

theorem seek (inv : w.Inv) (free : w.idle ∨ w.between) (offset : ℤ) : (w.seek offset).Inv :=
  (inv.setCursor (Nat.min_le_right _ _) (inv.free_reader free _) false).dropConsumed

theorem setWant (inv : w.Inv) {want : ℕ} (few : want ≤ w.shared.ringChunks) :
    World.Inv { w with state := { w.state with want } } :=
  { inv with
    ring := inv.ring
    want := few
    direct := fun is => { inv.direct is with } }

theorem setReader (inv : w.Inv) (same : w.reader.pinned w.shared.ringChunks = [])
    (free : w.reader.copies = false) {reader : Reader}
    (none : reader.pinned w.shared.ringChunks = []) (copies : reader.copies = false)
    (sound : ReaderSound w.shared w.memory w.state.cursor reader) :
    World.Inv { w with reader } := by
  have pinned : pinnedBy w.shared reader w.views = pinnedBy w.shared w.reader w.views := by
    unfold pinnedBy
    rw [same, none]
  have bouncers' : bouncers reader w.views = bouncers w.reader w.views := by
    unfold bouncers
    rw [free, copies]
  exact { inv with
    ring := by
      rw [pinned]
      exact inv.ring
    pins := by
      rw [pinned]
      exact inv.pins
    bounce := inv.bounce.trans bouncers'.symm
    reader := sound }

theorem setReturned (inv : w.Inv) {start : ℕ}
    (same : out = bytesAt w.shared.file.byte start out.length) :
    World.Inv { w with returned := (start, out) :: w.returned } :=
  { inv with
    returned := by
      rintro call (_ | ⟨_, member⟩)
      · exact same
      · exact inv.returned call member }

theorem read (inv : w.Inv) (idle : w.idle) (asked : ℕ) : (w.read asked).Inv := by
  obtain ⟨shared, state, memory, filling, reader, views, returned⟩ := w
  cases reader with
  | idle =>
    unfold World.read
    dsimp only
    split
    · exact inv.setReturned rfl
    · rename_i inside
      have fits : state.cursor + min asked (shared.file.size - state.cursor) ≤ shared.file.size := by
        omega
      have starts : Partial shared state.cursor state.cursor
          (min asked (shared.file.size - state.cursor)) [] := ⟨rfl, rfl, fits, Nat.zero_le _⟩
      split
      · rename_i direct
        have sized : World.Inv
            ⟨shared, { state with winSize := if state.winSize = 0 then windowMinBytes else state.winSize },
              memory, filling, .idle, views, returned⟩ :=
          { inv with ring := inv.ring, direct := fun is => { inv.direct is with } }
        exact sized.setReader rfl rfl rfl rfl ⟨direct, starts⟩
      · split
        · exact inv.setReader rfl rfl rfl rfl ⟨rfl, fits⟩
        · exact inv.setReader rfl rfl rfl rfl starts
  | _ => simp [World.idle] at idle

theorem setRead (inv : w.Inv) (same : w.reader.pinned w.shared.ringChunks = [])
    (free : w.reader.copies = false) {reader : Reader}
    (none : reader.pinned w.shared.ringChunks = []) (copies : reader.copies = false)
    (inside : cursor ≤ w.shared.file.size)
    (sound : ReaderSound w.shared w.memory cursor reader) :
    World.Inv { w with state := { w.state with cursor }, reader } := by
  have rests : World.Inv { w with reader := .idle } := inv.setReader same free rfl rfl trivial
  have moved := rests.setCursor inside trivial w.state.ioError
  exact moved.setReader rfl rfl none copies sound

theorem finishRead (inv : w.Inv) (same : w.reader.pinned w.shared.ringChunks = [])
    (free : w.reader.copies = false) (inside : cursor ≤ w.shared.file.size)
    {start : ℕ} (bytes : out = bytesAt w.shared.file.byte start out.length) :
    (w.finishRead { w.state with cursor } start out).Inv := by
  have rests : World.Inv { w with state := { w.state with cursor }, reader := .idle } :=
    inv.setRead same free rfl rfl inside trivial
  exact rests.setReturned bytes

theorem waitFor (inv : w.Inv) {finish : ℕ}
    (need : (w.state.dropConsumed w.shared.ringChunks).filledEnd < finish → w.state.readahead →
      ¬ w.state.ioError → ¬ w.state.interrupted →
        chunksUp (finish - (w.state.dropConsumed w.shared.ringChunks).base) ≤ w.shared.ringChunks) :
    World.Inv { w with state := (w.state.waitFor w.shared.ringChunks finish).2 } := by
  have dropped := inv.dropConsumed
  rcases w.state.waitFor_cases w.shared.ringChunks finish with
    ⟨ready, -⟩ | failed | ⟨again, waits, readahead, error, interrupted⟩
  · rw [ready]
    exact dropped
  · rw [failed]
    exact dropped
  · rw [again]
    exact dropped.setWant (max_le dropped.want (need waits readahead error interrupted))

theorem readPass (inv : w.Inv) {start size : ℕ} {waiting : Bool}
    (here : w.reader = .reading start size out waiting) : (w.readPass start size out).Inv := by
  have part : Partial w.shared w.state.cursor start size out := by
    have sound := inv.reader
    rwa [here] at sound
  have pinned : w.reader.pinned w.shared.ringChunks = [] := by rw [here]; rfl
  have free : w.reader.copies = false := by rw [here]; rfl
  have inside := inv.cursor
  unfold World.readPass
  split
  · exact (inv.setWant (Nat.zero_le _)).finishRead pinned free inside part.bytes
  · rename_i more
    have ahead := lt_alignDown w.state.cursor
    have low := alignDown_le w.state.cursor
    obtain ⟨-, -, base⟩ := State.dropConsumed_spec inv.ring.sound
    extract_lets state finish
    have finish_eq : min (alignDown w.state.cursor + chunkBytes)
      (w.state.cursor + (size - out.length)) = finish := rfl
    have state_eq : state = w.state := rfl
    clear_value finish state
    subst state_eq
    have waited : World.Inv { w with state := (w.state.waitFor w.shared.ringChunks finish).2 } := by
      refine inv.waitFor fun _ _ _ _ => ?_
      have one : chunksUp (finish - alignDown w.state.cursor) ≤ 1 := by
        unfold chunksUp
        apply Nat.lt_succ_iff.mp
        apply Nat.div_lt_of_lt_mul
        have := chunkBytes_pos
        omega
      rw [base]
      exact one.trans w.shared.ring_pos
    rcases w.state.waitFor_cases w.shared.ringChunks finish with
      ⟨ready, there⟩ | failed | ⟨again, -⟩
    · rw [ready] at waited ⊢
      obtain ⟨base', head, filled, frame⟩ := w.state.dropConsumed_frame w.shared.ringChunks
      rw [frame] at waited there base ⊢
      dsimp only [State.filledEnd] at *
      subst base
      have same : bytesAt w.memory
          (Shared.chunk ((head + chunkIndex (w.state.cursor - alignDown w.state.cursor)) %
            w.shared.ringChunks) + chunkOffset (w.state.cursor - alignDown w.state.cursor))
          (finish - w.state.cursor) =
        bytesAt w.shared.file.byte w.state.cursor (finish - w.state.cursor) := by
        refine bytesAt_congr fun i lt => ?_
        have shown := waited.ring.shows'.byte (w.state.cursor + i)
          (by dsimp only [State.window]; omega) (by dsimp only [State.window]; omega)
          (by have := part.reached; have := part.inside; dsimp only; omega)
        have offset : chunkOffset (w.state.cursor - alignDown w.state.cursor) =
            w.state.cursor - alignDown w.state.cursor := Nat.mod_eq_of_lt (by omega)
        obtain ⟨index, next⟩ := chunk_same (x := w.state.cursor - alignDown w.state.cursor)
          (i := i) (by omega)
        have shift : w.state.cursor + i - alignDown w.state.cursor =
            w.state.cursor - alignDown w.state.cursor + i := by omega
        rw [← shown]
        dsimp only [State.window]
        rw [shift, index, next, ← Nat.add_assoc]
        rfl
      rw [same]
      have reached := part.reached
      have fits := part.inside
      exact waited.setRead pinned free rfl rfl (by dsimp only; omega) (part.more _ (by omega))
    · rw [failed] at waited ⊢
      exact (waited.setWant (Nat.zero_le _)).finishRead pinned free waited.cursor part.bytes
    · rw [again] at waited ⊢
      obtain ⟨base', head, filled, frame⟩ := w.state.dropConsumed_frame w.shared.ringChunks
      rw [frame] at waited ⊢
      exact waited.setReader pinned free rfl rfl part

theorem plainRead (inv : w.Inv) {start size : ℕ} (here : w.reader = .plain start size) (got : ℕ) :
    (w.plainRead start size got).Inv := by
  have sound : w.state.cursor = start ∧ start + size ≤ w.shared.file.size := by
    have sound := inv.reader
    rwa [here] at sound
  have pinned : w.reader.pinned w.shared.ringChunks = [] := by rw [here]; rfl
  have free : w.reader.copies = false := by rw [here]; rfl
  refine inv.finishRead pinned free ?_ (by rw [length_bytesAt])
  unfold Shared.readAt
  omega

theorem setBounce (inv : w.Inv) (direct : w.shared.direct) (count : ℕ) (bytes : ℕ → UInt8)
    (reader : ReaderSound w.shared (put w.memory w.shared.bounce count bytes) w.state.cursor
      w.reader)
    (winSize winBase : ℕ) {winLen : ℕ} (fits : winLen ≤ w.shared.bounceBytes)
    (holds : ∀ i < winLen, put w.memory w.shared.bounce count bytes (w.shared.bounce + i) =
      w.shared.file.byte (winBase + i)) :
    World.Inv { w with
      state := { w.state with winSize, winBase, winLen }
      memory := put w.memory w.shared.bounce count bytes } :=
  have none := (inv.direct direct).none
  have ring := inv.ring.bounce count 0 bytes
  { inv with
    ring := by rwa [Nat.add_zero] at ring
    reader
    views := by
      intro view member
      dsimp only at member
      rw [none] at member
      cases member
    direct := fun is => ⟨(inv.direct is).readahead, none, fits, holds⟩ }

theorem windowTake (inv : w.Inv) {start size : ℕ} (direct : w.shared.direct)
    (part : Partial w.shared w.state.cursor start size out)
    (pinned : w.reader.pinned w.shared.ringChunks = []) (free : w.reader.copies = false)
    (first : w.state.winBase ≤ w.state.cursor)
    (last : w.state.cursor < w.state.winBase + w.state.winLen) (more : out.length < size) :
    (w.windowTake w.state w.memory start size out).Inv := by
  unfold World.windowTake
  dsimp only
  generalize take_eq : min (w.state.winLen - (w.state.cursor - w.state.winBase))
    (size - out.length) = take
  have same : bytesAt w.memory (w.shared.bounce + (w.state.cursor - w.state.winBase)) take =
      bytesAt w.shared.file.byte w.state.cursor take := by
    refine bytesAt_congr fun i lt => ?_
    rw [Nat.add_assoc, (inv.direct direct).bytes _ (by omega)]
    congr 1
    omega
  rw [same]
  have reached := part.reached
  have fits := part.inside
  exact inv.setRead pinned free rfl rfl (by omega) ⟨direct, part.more _ (by omega)⟩

theorem windowPass (inv : w.Inv) {start size : ℕ}
    (here : w.reader = .windowed start size out) (got : ℕ) :
    (w.windowPass start size out got).Inv := by
  obtain ⟨direct, part⟩ : w.shared.direct ∧ Partial w.shared w.state.cursor start size out := by
    have sound := inv.reader
    rwa [here] at sound
  have pinned : w.reader.pinned w.shared.ringChunks = [] := by rw [here]; rfl
  have free : w.reader.copies = false := by rw [here]; rfl
  have reached := part.reached
  have fits := part.inside
  unfold World.windowPass
  dsimp only
  split
  · exact inv.finishRead pinned free inv.cursor part.bytes
  · rename_i more
    split
    · have few : w.shared.readAt got w.state.cursor (size - out.length) ≤ size - out.length := by
        unfold Shared.readAt
        omega
      have taken := part.more (w.shared.readAt got w.state.cursor (size - out.length))
        (by omega)
      exact inv.finishRead pinned free (by omega) taken.bytes
    · split
      · generalize size_eq : (if (w.state.winLen ≠ 0 ∧
            w.state.cursor = w.state.winBase + w.state.winLen) ∧
            min w.state.winSize (min w.shared.bounceBytes windowBytes) <
              min w.shared.bounceBytes windowBytes then
          min w.state.winSize (min w.shared.bounceBytes windowBytes) * 2
          else windowMinBytes) = winSize
        have low : w.state.cursor / readAlignment * readAlignment ≤ w.state.cursor :=
          Nat.div_mul_le_self _ _
        generalize w.state.cursor / readAlignment * readAlignment = winBase at *
        generalize len_eq : w.shared.readAt got winBase
          (min winSize (min w.shared.bounceBytes windowBytes)) = winLen
        have small : winLen ≤ w.shared.bounceBytes := by
          unfold Shared.readAt at len_eq
          omega
        have refilled := inv.setBounce direct winLen (fun i => w.shared.file.byte (winBase + i))
          (by rw [here]; exact ⟨direct, part⟩) winSize winBase small fun i lt => by
            rw [put_in (by omega) (by omega)]
            congr 2
            omega
        split
        · exact refilled.finishRead pinned free inv.cursor part.bytes
        · exact refilled.windowTake direct part pinned free low (by dsimp only; omega) (by omega)
      · exact inv.windowTake direct part pinned free (by omega) (by omega) (by omega)

end World.Inv

end EspDevkit.Media
