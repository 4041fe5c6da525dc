import EspDevkit.Library.Splice
import EspDevkit.Library.Transition
import Mathlib.Algebra.Order.Group.Nat

/-!
# The rings of USB audio

What a microphone sends and what a loudspeaker is to play go through a ring of whole frames, with
the number of bytes ever read and ever written, each in 32 bits, for its positions.
-/

namespace EspDevkit.Usb.Uac

open Splice Transition List

abbrev Bytes := List UInt8

/-- A difference in a `size_t`. -/
def sub (a b : ℕ) : ℕ := (a + 2 ^ 32 - b) % 2 ^ 32

/-- What `memcpy` reads; `none` past the end. -/
def load (place len : ℕ) (buffer : Bytes) : Option Bytes :=
  if place + len ≤ buffer.length then some (slice place len buffer) else none

/-- What `memcpy` leaves; `none` past the end. -/
def store (place : ℕ) (data buffer : Bytes) : Option Bytes :=
  if place + data.length ≤ buffer.length then some (splice place data buffer) else none

/-- The fields that `UacInputDevice` and `IsocOutStream` share. -/
structure Ring where
  ringBytes : ℕ
  frameBytes : ℕ
  ring : Bytes
  read : ℕ
  written : ℕ

namespace Ring

/-- The two copies into the ring. -/
def copyIn (self : Ring) (at_ take : ℕ) (data : Bytes) : Option Bytes := do
  let first := min take (self.ringBytes - at_)
  let ring ← store at_ (← load 0 first data) self.ring
  store 0 (← load first (take - first) data) ring

/-- The two copies out of the ring. -/
def copyOut (self : Ring) (at_ take : ℕ) : Option Bytes := do
  let first := min take (self.ringBytes - at_)
  return (← load at_ first self.ring) ++ (← load 0 (take - first) self.ring)

def available (self : Ring) : ℕ := sub self.written self.read

/-- `UacInputDevice::on_data`, and how many bytes it took. -/
def onData (self : Ring) (data : Bytes) (ok : Bool) : Option (Ring × ℕ) :=
  if ¬ok ∨ data = [] then
    some (self, 0)
  else
    let space := sub self.ringBytes (sub self.written self.read)
    let take := min data.length space
    let take := take - take % self.frameBytes
    if take = 0 then
      some (self, 0)
    else do
      let ring ← self.copyIn (self.written % self.ringBytes) take data
      return ({ self with ring, written := (self.written + take) % 2 ^ 32 }, take)

/-- `UacInputDevice::read`; it has nothing when it timed out. -/
def readBytes (self : Ring) (len : ℕ) : Option (Ring × Bytes) :=
  if self.available < self.frameBytes then
    some (self, [])
  else do
    let take := min len self.available
    let take := take - take % self.frameBytes
    let out ← self.copyOut (self.read % self.ringBytes) take
    return ({ self with read := (self.read + take) % 2 ^ 32 }, out)

/-- One pass of the loop in `IsocOutStream::write`, and how many bytes it took; with no space it
waits. -/
def writePass (self : Ring) (data : Bytes) : Option (Ring × ℕ) :=
  let space := sub self.ringBytes (sub self.written self.read)
  if space = 0 then
    some (self, 0)
  else do
    let take := min space data.length
    let ring ← self.copyIn (self.written % self.ringBytes) take data
    return ({ self with ring, written := (self.written + take) % 2 ^ 32 }, take)

/-- One packet of `IsocOutStream::fill`: what it has from the ring, before its silence. -/
def fillPacket (self : Ring) (frames : ℕ) : Option (Ring × Bytes) := do
  let bytes := frames * self.frameBytes
  let take := min bytes (sub self.written self.read)
  let take := take - take % self.frameBytes
  let out ← self.copyOut (self.read % self.ringBytes) take
  return ({ self with read := (self.read + take) % 2 ^ 32 }, out)

/-- `IsocOutStream::fill`, with the frames that the clock gives each packet. -/
def fill (self : Ring) : List ℕ → Option (Ring × Bytes)
  | [] => some (self, [])
  | frames :: packets => do
    let (self, out) ← self.fillPacket frames
    let (self, later) ← self.fill packets
    return (self, out ++ later)

end Ring

/-- A ring, the data of the call of `write` that is under way, and what happened so far. -/
structure Session where
  ring : Ring
  writing : Bytes
  accepted : Bytes
  given : Bytes
  dropped : List ℕ

inductive Call
  | onData (data : Bytes) (ok : Bool)
  | read (len : ℕ)
  | write (data : Bytes)
  | writePass
  | writeEnds
  | fill (packets : List ℕ)

namespace Session

/-- Calls of either kind of ring, in any order; a `write` takes as many passes as it likes, and may
end with an error before it is done. -/
def step (s : Session) : Call → Option Session
  | .onData data ok => do
    let (ring, take) ← s.ring.onData data ok
    return { s with
      ring
      accepted := s.accepted ++ data.take take
      dropped := s.dropped ++ [data.length - take] }
  | .read len => do
    let (ring, out) ← s.ring.readBytes len
    return { s with ring, given := s.given ++ out }
  | .write data => some { s with writing := if s.writing = [] then data else s.writing }
  | .writePass => do
    let (ring, take) ← s.ring.writePass s.writing
    return { s with
      ring
      writing := s.writing.drop take
      accepted := s.accepted ++ s.writing.take take }
  | .writeEnds => some { s with writing := [], dropped := s.dropped ++ [s.writing.length] }
  | .fill packets => do
    let (ring, out) ← s.ring.fill packets
    return { s with ring, given := s.given ++ out }

/-- A ring of so many frames, as `open` and `start` leave it. -/
def Fresh (frames frameBytes : ℕ) (s : Session) : Prop :=
  ∃ memory : Bytes, memory.length = frames * frameBytes ∧
    s = { ring := { ringBytes := frames * frameBytes, frameBytes, ring := memory, read := 0, written := 0 }
          writing := [], accepted := [], given := [], dropped := [] }

/-- What is given was accepted, in order and once; what is left or dropped is whole frames. -/
structure Sound (s : Session) : Prop where
  order : ∃ left, s.accepted = s.given ++ left ∧ left.length = s.ring.available ∧
    s.ring.frameBytes ∣ left.length
  dropped : ∀ len ∈ s.dropped, s.ring.frameBytes ∣ len

/-- The data of a call is whole frames. -/
def Whole (s : Session) : Call → Prop
  | .onData data _ => s.ring.frameBytes ∣ data.length
  | .write data => s.ring.frameBytes ∣ data.length
  | _ => True

/-- The position counters tell places in the ring. -/
def Placed (s : Session) : Prop :=
  s.ring.ringBytes ∣ 2 ^ 32 ∨ s.accepted.length < 2 ^ 32

end Session

/-! ### The bytes that lie in a ring -/

/-- From the place of position `pos` on, the ring has these bytes. -/
def Window (ring : Bytes) (pos : ℕ) (bytes : Bytes) : Prop :=
  ∀ i < bytes.length, ring[(pos + i) % ring.length]? = bytes[i]?

variable {ring bytes data : Bytes} {pos n : ℕ}

theorem window_iff (some_ : 0 < ring.length) (fits : bytes.length ≤ ring.length) :
    Window ring pos bytes ↔ (turned (pos % ring.length) ring).take bytes.length = bytes := by
  have at_ : ∀ i < bytes.length, ((turned (pos % ring.length) ring).take bytes.length)[i]? =
      ring[(pos + i) % ring.length]? := by
    intro i within
    rw [getElem?_take_of_lt within,
      getElem?_turned (Nat.mod_lt pos some_) (Nat.lt_of_lt_of_le within fits), Nat.mod_add_mod]
  constructor
  · intro window
    apply ext_getElem?
    intro i
    by_cases within : i < bytes.length
    · rw [at_ i within, window i within]
    · rw [getElem?_take_eq_none (by omega), getElem?_eq_none (by omega)]
  · intro same i within
    rw [← at_ i within, same]

theorem Ring.copyOut_eq {self : Ring} (size : self.ringBytes = self.ring.length)
    (window : Window self.ring pos bytes) (fits : bytes.length ≤ self.ring.length)
    (le : n ≤ bytes.length) (some_ : 0 < self.ring.length) :
    self.copyOut (pos % self.ringBytes) n = some (bytes.take n) := by
  have lt := Nat.mod_lt pos some_
  have short : 0 + n ≤ self.ring.length := by omega
  have read := slice_turned (Nat.le_of_lt lt) short
  rw [placeAt_eq_mod lt (Nat.zero_le _), Nat.add_zero, Nat.mod_mod] at read
  rw [copyOut, size, load, if_pos (by omega), load, if_pos (by omega)]
  rw [(window_iff some_ fits).mp window |>.symm, take_take, Nat.min_eq_left le]
  exact congrArg some read

theorem Ring.copyIn_eq {self : Ring} (size : self.ringBytes = self.ring.length)
    (window : Window self.ring pos bytes) (room : bytes.length + n ≤ self.ring.length)
    (le : n ≤ data.length) (some_ : 0 < self.ring.length) :
    ∃ ring, self.copyIn ((pos + bytes.length) % self.ringBytes) n data = some ring ∧
      ring.length = self.ring.length ∧ Window ring pos (bytes ++ data.take n) := by
  have lt := Nat.mod_lt pos some_
  have taken : (data.take n).length = n := length_take_of_le le
  have room' : bytes.length + (data.take n).length ≤ self.ring.length := by omega
  obtain ⟨turns, kept⟩ := turned_splice (Nat.le_of_lt lt) room'
  rw [placeAt_eq_mod lt (by omega), Nat.mod_add_mod, taken] at turns kept
  rw [copyIn, size]
  have lt' := Nat.mod_lt (pos + bytes.length) some_
  generalize (pos + bytes.length) % self.ring.length = place at *
  generalize first_eq : min n (self.ring.length - place) = first at *
  have front : slice 0 first data = (data.take n).take first := by
    rw [slice, drop_zero, take_take, Nat.min_eq_left (by omega)]
  have rest : slice first (n - first) data = (data.take n).drop first := by
    rw [slice, drop_take]
  have frontLen : ((data.take n).take first).length = first := by
    rw [length_take, taken]
    omega
  have restLen : ((data.take n).drop first).length = n - first := by
    rw [length_drop, taken]
  have once : place + ((data.take n).take first).length ≤ self.ring.length := by omega
  have twice : 0 + ((data.take n).drop first).length ≤
      (splice place ((data.take n).take first) self.ring).length := by
    rw [length_splice once]
    omega
  refine ⟨_, ?_, kept, ?_⟩
  · rw [load, if_pos (by omega), load, if_pos (by omega), front, rest]
    dsimp only [Option.bind_eq_bind, Option.bind_some]
    rw [store, if_pos once]
    dsimp only [Option.bind_some]
    rw [store, if_pos twice]
  · have old := (window_iff some_ (by omega)).mp window
    rw [window_iff (by omega) (by rw [length_append]; omega), kept, turns, splice, old,
      take_left]

/-! ### What the calls keep -/

/-- The ring has what was accepted and is not given yet. -/
structure Ring.Holds (ring : Ring) (accepted given : Bytes) : Prop where
  size : ring.ringBytes = ring.ring.length
  some_ : 0 < ring.ringBytes
  fits : ring.ringBytes < 2 ^ 32
  frames : ring.frameBytes ∣ ring.ringBytes
  left : ∃ left, accepted = given ++ left ∧ left.length ≤ ring.ringBytes ∧
    Window ring.ring given.length left
  read : ring.read = given.length % 2 ^ 32
  written : ring.written = accepted.length % 2 ^ 32
  acceptedWhole : ring.frameBytes ∣ accepted.length
  givenWhole : ring.frameBytes ∣ given.length

/-- The position counters tell the places of these positions in the ring. -/
def Ring.Places (self : Ring) (accepted : Bytes) : Prop :=
  self.ringBytes ∣ 2 ^ 32 ∨ accepted.length < 2 ^ 32

/-- Another state of the same ring. -/
def Ring.Alike (before after : Ring) : Prop :=
  after.ringBytes = before.ringBytes ∧ after.frameBytes = before.frameBytes

namespace Ring.Holds

variable {self : Ring} {accepted given : Bytes}

theorem lengths (holds : self.Holds accepted given) :
    ∃ left, accepted.length = given.length + left ∧ left ≤ self.ringBytes ∧
      self.available = left ∧ sub self.ringBytes (sub self.written self.read) = self.ringBytes - left ∧
        self.frameBytes ∣ left := by
  obtain ⟨left, rfl, le, _⟩ := holds.left
  have fits := holds.fits
  have whole := (Nat.dvd_add_right holds.givenWhole).mp (length_append ▸ holds.acceptedWhole)
  have available : self.available = left.length := by
    rw [available, sub, holds.written, holds.read, length_append]
    omega
  refine ⟨left.length, length_append, le, available, ?_, whole⟩
  change sub self.ringBytes self.available = _
  rw [available, sub]
  omega

theorem place {pos : ℕ} (places : self.Places accepted) (le : pos ≤ accepted.length) :
    pos % 2 ^ 32 % self.ringBytes = pos % self.ringBytes := by
  rcases places with divides | small
  · exact Nat.mod_mod_of_dvd pos divides
  · rw [Nat.mod_eq_of_lt (le.trans_lt small)]

theorem copyIn (holds : self.Holds accepted given) (places : self.Places accepted) {take : ℕ}
    {data : Bytes} (le : take ≤ data.length)
    (room : accepted.length + take ≤ given.length + self.ringBytes)
    (whole : self.frameBytes ∣ take) :
    ∃ ring, self.copyIn (self.written % self.ringBytes) take data = some ring ∧
      Holds { self with ring, written := (self.written + take) % 2 ^ 32 }
        (accepted ++ data.take take) given := by
  obtain ⟨left, rfl, _, window⟩ := holds.left
  rw [length_append] at room
  obtain ⟨ring, copies, length, window⟩ := copyIn_eq holds.size window
    (by rw [← holds.size]; omega) le (holds.size ▸ holds.some_)
  rw [holds.written, place places le_rfl, length_append]
  refine ⟨ring, copies, ?_⟩
  have taken : (data.take take).length = take := length_take_of_le le
  exact
    { holds with
      size := holds.size.trans length.symm
      left := ⟨left ++ data.take take, by rw [append_assoc], by
        rw [length_append, taken]
        exact Nat.le_of_add_le_add_left (Nat.add_assoc _ _ _ ▸ room), window⟩
      written := by simp only [length_append, taken, Nat.mod_add_mod]
      acceptedWhole := by
        rw [length_append, taken]
        exact Nat.dvd_add holds.acceptedWhole whole }

theorem copyOut (holds : self.Holds accepted given) (places : self.Places accepted) {take : ℕ}
    (le : given.length + take ≤ accepted.length) (whole : self.frameBytes ∣ take) :
    ∃ out, self.copyOut (self.read % self.ringBytes) take = some out ∧
      Holds { self with read := (self.read + take) % 2 ^ 32 } accepted (given ++ out) := by
  obtain ⟨left, rfl, bound, window⟩ := holds.left
  rw [length_append] at le
  have copies := copyOut_eq holds.size window (holds.size ▸ bound) (Nat.le_of_add_le_add_left le)
    (holds.size ▸ holds.some_)
  rw [holds.read, place places (by simp)]
  refine ⟨_, copies, ?_⟩
  have taken : (left.take take).length = take :=
    length_take_of_le (Nat.le_of_add_le_add_left le)
  exact
    { holds with
      left := ⟨left.drop take, by rw [append_assoc, take_append_drop], by
        rw [length_drop]
        exact (Nat.sub_le _ _).trans bound, fun i within => by
        rw [length_drop] at within
        rw [length_append, taken, Nat.add_assoc, window _ (by omega), getElem?_drop]⟩
      read := by simp only [length_append, taken, Nat.mod_add_mod]
      givenWhole := by
        rw [length_append, taken]
        exact Nat.dvd_add holds.givenWhole whole }

theorem onData (holds : self.Holds accepted given) (places : self.Places accepted) (data : Bytes)
    (ok : Bool) : ∃ ring take, self.onData data ok = some (ring, take) ∧ self.Alike ring ∧
      ring.Holds (accepted ++ data.take take) given ∧ take ≤ data.length ∧ self.frameBytes ∣ take := by
  obtain ⟨left, total, bound, _, space, _⟩ := holds.lengths
  have nothing : self.Holds (accepted ++ data.take 0) given := by simpa using holds
  unfold Ring.onData
  split
  · exact ⟨self, 0, rfl, ⟨rfl, rfl⟩, nothing, Nat.zero_le _, Nat.dvd_zero _⟩
  dsimp only
  rw [space]
  generalize mostIs : min data.length (self.ringBytes - left) = most
  have whole : self.frameBytes ∣ most - most % self.frameBytes := Nat.dvd_sub_mod most
  split
  · exact ⟨self, 0, rfl, ⟨rfl, rfl⟩, nothing, Nat.zero_le _, Nat.dvd_zero _⟩
  · have le : most - most % self.frameBytes ≤ data.length := by omega
    obtain ⟨ring, copies, after⟩ := holds.copyIn places le (by omega) whole
    rw [copies]
    exact ⟨_, _, rfl, ⟨rfl, rfl⟩, after, le, whole⟩

theorem writePass (holds : self.Holds accepted given) (places : self.Places accepted) {data : Bytes}
    (frames : self.frameBytes ∣ data.length) :
    ∃ ring take, self.writePass data = some (ring, take) ∧ self.Alike ring ∧
      ring.Holds (accepted ++ data.take take) given ∧ take ≤ data.length ∧ self.frameBytes ∣ take := by
  obtain ⟨left, total, bound, _, space, rest⟩ := holds.lengths
  unfold Ring.writePass
  dsimp only
  rw [space]
  split
  · exact ⟨self, 0, rfl, ⟨rfl, rfl⟩, by simpa using holds, Nat.zero_le _, Nat.dvd_zero _⟩
  · have whole : self.frameBytes ∣ min (self.ringBytes - left) data.length := by
      rcases min_choice (self.ringBytes - left) data.length with same | same <;> rw [same]
      · exact Nat.dvd_sub holds.frames rest
      · exact frames
    obtain ⟨ring, copies, after⟩ := holds.copyIn places (Nat.min_le_right _ _) (by omega) whole
    rw [copies]
    exact ⟨_, _, rfl, ⟨rfl, rfl⟩, after, Nat.min_le_right _ _, whole⟩

theorem readBytes (holds : self.Holds accepted given) (places : self.Places accepted) (len : ℕ) :
    ∃ ring out, self.readBytes len = some (ring, out) ∧ self.Alike ring ∧
      ring.Holds accepted (given ++ out) := by
  obtain ⟨left, total, bound, available, _, _⟩ := holds.lengths
  unfold Ring.readBytes
  split
  · exact ⟨self, [], rfl, ⟨rfl, rfl⟩, by simpa using holds⟩
  · rw [available]
    dsimp only
    generalize mostIs : min len left = most
    obtain ⟨out, copies, after⟩ :=
      holds.copyOut places (by omega) (Nat.dvd_sub_mod (n := self.frameBytes) most)
    rw [copies]
    exact ⟨_, _, rfl, ⟨rfl, rfl⟩, after⟩

theorem fill (holds : self.Holds accepted given) (places : self.Places accepted) (packets : List ℕ) :
    ∃ ring out, self.fill packets = some (ring, out) ∧ self.Alike ring ∧
      ring.Holds accepted (given ++ out) := by
  induction packets generalizing self given with
  | nil => exact ⟨self, [], rfl, ⟨rfl, rfl⟩, by simpa using holds⟩
  | cons frames packets ih =>
    obtain ⟨left, total, bound, available, _, _⟩ := holds.lengths
    rw [Ring.fill, fillPacket, ← Ring.available, available]
    dsimp only
    generalize mostIs : min (frames * self.frameBytes) left = most
    obtain ⟨out, copies, after⟩ :=
      holds.copyOut places (by omega) (Nat.dvd_sub_mod (n := self.frameBytes) most)
    obtain ⟨ring, later, fills, alike, holds'⟩ := ih after places
    rw [copies]
    dsimp only [Option.bind_eq_bind, Option.bind_some, pure]
    rw [fills]
    exact ⟨ring, out ++ later, rfl, alike, by rwa [← append_assoc]⟩

end Ring.Holds

namespace Session

structure Inv (frameBytes : ℕ) (s : Session) : Prop where
  frame : s.ring.frameBytes = frameBytes
  holds : s.ring.Holds s.accepted s.given
  writing : frameBytes ∣ s.writing.length
  dropped : ∀ len ∈ s.dropped, frameBytes ∣ len

variable {frames frameBytes : ℕ} {s : Session}

theorem Inv.start (some_ : 0 < frames * frameBytes) (fits : frames * frameBytes < 2 ^ 32)
    (fresh : Fresh frames frameBytes s) : s.Inv frameBytes := by
  obtain ⟨memory, length, rfl⟩ := fresh
  exact
    { frame := rfl
      holds :=
        { size := length.symm, some_, fits, frames := Nat.dvd_mul_left _ _
          left := ⟨[], rfl, Nat.zero_le _, fun i within => absurd within (Nat.not_lt_zero i)⟩
          read := rfl, written := rfl, acceptedWhole := Nat.dvd_zero _, givenWhole := Nat.dvd_zero _ }
      writing := Nat.dvd_zero _
      dropped := by simp }

theorem Inv.step (inv : s.Inv frameBytes) (placed : s.Placed) {call : Call} (whole : s.Whole call) :
    ∃ after, s.step call = some after ∧ after.Inv frameBytes := by
  have snoc {len : ℕ} (divides : frameBytes ∣ len) :
      ∀ len' ∈ s.dropped ++ [len], frameBytes ∣ len' :=
    forall_mem_append.mpr ⟨inv.dropped, forall_mem_singleton.mpr divides⟩
  have frame := inv.frame
  cases call with
  | onData data ok =>
    obtain ⟨ring, take, goes, alike, holds, le, taken⟩ := inv.holds.onData placed data ok
    rw [Session.step, goes]
    exact ⟨_, rfl, alike.2.trans frame, holds, inv.writing, snoc (frame ▸ Nat.dvd_sub whole taken)⟩
  | read len =>
    obtain ⟨ring, out, goes, alike, holds⟩ := inv.holds.readBytes placed len
    rw [Session.step, goes]
    exact ⟨_, rfl, alike.2.trans frame, holds, inv.writing, inv.dropped⟩
  | write data =>
    refine ⟨_, rfl, frame, inv.holds, ?_, inv.dropped⟩
    dsimp only
    split
    · exact frame ▸ whole
    · exact inv.writing
  | writePass =>
    obtain ⟨ring, take, goes, alike, holds, le, taken⟩ :=
      inv.holds.writePass placed (frame.symm ▸ inv.writing)
    rw [Session.step, goes]
    refine ⟨_, rfl, alike.2.trans frame, holds, ?_, inv.dropped⟩
    rw [length_drop]
    exact Nat.dvd_sub inv.writing (frame ▸ taken)
  | writeEnds => exact ⟨_, rfl, frame, inv.holds, Nat.dvd_zero _, snoc inv.writing⟩
  | fill packets =>
    obtain ⟨ring, out, goes, alike, holds⟩ := inv.holds.fill placed packets
    rw [Session.step, goes]
    exact ⟨_, rfl, alike.2.trans frame, holds, inv.writing, inv.dropped⟩

theorem Inv.sound (inv : s.Inv frameBytes) : s.Sound := by
  obtain ⟨left, total, _, available, _, whole⟩ := inv.holds.lengths
  obtain ⟨bytes, same, _⟩ := inv.holds.left
  have length : bytes.length = left := by
    rw [same, length_append] at total
    omega
  refine ⟨⟨bytes, same, length.trans available.symm, length ▸ whole⟩, fun len mem => ?_⟩
  exact inv.frame ▸ inv.dropped len mem

end Session

/-- As long as the counters tell places in the ring and calls bring whole frames, the ring gives
what it accepted, and no copy leaves it. -/
theorem rings_give_accepted (frames frameBytes : ℕ) (some_ : 0 < frames * frameBytes)
    (fits : frames * frameBytes < 2 ^ 32) (s : Session)
    (reachable : Reachable (Session.Fresh frames frameBytes)
      (Allowed Session.step fun s call => s.Placed ∧ s.Whole call) s) :
    s.Sound ∧ ∀ call, s.Placed → s.Whole call → (s.step call).isSome := by
  have inv : s.Inv frameBytes := by
    refine reachable.invariant (fun _ => Session.Inv.start some_ fits) ?_
    rintro before after inv ⟨call, goes, placed, whole⟩
    obtain ⟨after', goes', inv'⟩ := inv.step placed whole
    cases goes.symm.trans goes'
    exact inv'
  refine ⟨inv.sound, fun call placed whole => ?_⟩
  obtain ⟨after, goes, _⟩ := inv.step placed whole
  rw [goes]
  rfl

theorem rings_give_accepted_two :
    Session.Sound
      { ring := { ringBytes := 4, frameBytes := 2, ring := [1, 2, 3, 4], read := 2, written := 4 }
        writing := [], accepted := [1, 2, 3, 4], given := [1, 2], dropped := [0] } := by
  refine (rings_give_accepted 2 2 (by decide) (by decide) _ ?_).1
  have fresh : Reachable (Session.Fresh 2 2)
      (Allowed Session.step fun s call => s.Placed ∧ s.Whole call) _ :=
    .start ⟨[0, 0, 0, 0], rfl, rfl⟩
  exact (fresh.next ⟨.onData [1, 2, 3, 4] true, rfl, .inr (by decide), ⟨2, rfl⟩⟩).next
    ⟨.read 2, rfl, .inr (by decide), trivial⟩

/-- What a microphone leaves that has sent so many silent frames of two bytes, each read at
once. -/
def silent (size frames : ℕ) : Session where
  ring :=
    { ringBytes := size, frameBytes := 2, ring := replicate size 0
      read := 2 * frames, written := 2 * frames }
  writing := []
  accepted := replicate (2 * frames) 0
  given := replicate (2 * frames) 0
  dropped := replicate frames 0

theorem splice_replicate {place n size : ℕ} (fits : place + n ≤ size) (byte : UInt8) :
    splice place (replicate n byte) (replicate size byte) = replicate size byte := by
  rw [splice, take_replicate, length_replicate, drop_replicate,
    replicate_append_replicate, replicate_append_replicate]
  congr 1
  omega

/-- Copies that do not reach the end of the ring. -/
theorem Ring.copyIn_within {self : Ring} (size : self.ringBytes = self.ring.length)
    (length : data.length = n) {place : ℕ} (fits : place + n ≤ self.ring.length) :
    self.copyIn place n data = some (splice place data self.ring) := by
  subst length
  have all : load 0 data.length data = some data := by
    rw [load, if_pos (by omega), slice, drop_zero, take_length]
  have none : load data.length 0 data = some [] := by
    rw [load, if_pos (by omega), slice, take_zero]
  have first : min data.length (self.ring.length - place) = data.length := by omega
  rw [copyIn, size, first, all, Nat.sub_self, none]
  dsimp only [Option.bind_eq_bind, Option.bind_some]
  rw [store, if_pos fits]
  simp [store, splice]

theorem Ring.copyOut_within {self : Ring} (size : self.ringBytes = self.ring.length) {place : ℕ}
    (fits : place + n ≤ self.ring.length) :
    self.copyOut place n = some (slice place n self.ring) := by
  have first : min n (self.ring.length - place) = n := by omega
  rw [copyOut, size, first, load, if_pos fits, Nat.sub_self]
  simp [load, slice]

theorem Ring.onData_eq {self : Ring} {data memory : Bytes} {most take written : ℕ} (full : data ≠ [])
    (bound : min data.length (sub self.ringBytes self.available) = most)
    (whole : most - most % self.frameBytes = take) (some_ : take ≠ 0)
    (copies : self.copyIn (self.written % self.ringBytes) take data = some memory)
    (next : (self.written + take) % 2 ^ 32 = written) :
    self.onData data true = some ({ self with ring := memory, written }, take) := by
  subst bound whole next
  rw [onData, if_neg (by simpa using full)]
  unfold available at copies some_
  dsimp only
  rw [if_neg some_, copies]
  rfl

theorem Ring.readBytes_eq {self : Ring} {out : Bytes} {len most take read : ℕ}
    (enough : self.frameBytes ≤ self.available) (bound : min len self.available = most)
    (whole : most - most % self.frameBytes = take)
    (copies : self.copyOut (self.read % self.ringBytes) take = some out)
    (next : (self.read + take) % 2 ^ 32 = read) :
    self.readBytes len = some ({ self with read }, out) := by
  subst bound whole next
  rw [readBytes, if_neg enough.not_gt]
  dsimp only
  rw [copies]
  rfl

theorem silent_frame {size frames : ℕ} (even : 2 ∣ size) (some_ : 0 < size) (fits : size < 2 ^ 32)
    (below : 2 * frames + 2 < 2 ^ 32) :
    ((silent size frames).step (.onData [0, 0] true)).bind (·.step (.read 2)) =
      some (silent size (frames + 1)) := by
  have place : 2 * frames % size + 2 ≤ size := by
    have lt := Nat.mod_lt (2 * frames) some_
    have whole : 2 ∣ 2 * frames % size := (Nat.dvd_mod_iff even).mpr (Nat.dvd_mul_right 2 frames)
    omega
  have empty : (silent size frames).ring.available = 0 := by
    simp only [Ring.available, silent, sub]
    omega
  have one : Ring.available { (silent size frames).ring with written := 2 * frames + 2 } = 2 := by
    simp only [Ring.available, silent, sub]
    omega
  have space : min 2 (sub size 0) = 2 := by
    rw [sub]
    omega
  have next : (2 * frames + 2) % 2 ^ 32 = 2 * frames + 2 := Nat.mod_eq_of_lt below
  have length : (replicate size (0 : UInt8)).length = size := length_replicate
  have copies : (silent size frames).ring.copyIn (2 * frames % size) 2 [0, 0] =
      some (replicate size 0) :=
    (Ring.copyIn_within length.symm (rfl : [0, (0 : UInt8)].length = 2) (length.symm ▸ place)).trans
      (congrArg some (splice_replicate (n := 2) place 0))
  have back : Ring.copyOut { (silent size frames).ring with written := 2 * frames + 2 }
      (2 * frames % size) 2 = some [0, 0] := by
    rw [Ring.copyOut_within length.symm (length.symm ▸ place)]
    simp only [silent, slice, drop_replicate, take_replicate]
    rw [min_eq_left (by omega)]
    rfl
  have taken : (silent size frames).ring.onData [0, 0] true =
      some ({ (silent size frames).ring with written := 2 * frames + 2 }, 2) :=
    Ring.onData_eq (by simp) (by rw [empty]; exact space) (rfl : 2 - 2 % 2 = 2) two_ne_zero
      copies next
  have given : Ring.readBytes { (silent size frames).ring with written := 2 * frames + 2 } 2 =
      some ((silent size (frames + 1)).ring, [0, 0]) :=
    Ring.readBytes_eq (by rw [one]; exact le_rfl) (by rw [one]; exact min_self 2)
      (rfl : 2 - 2 % 2 = 2) back next
  have grown : replicate (2 * frames) (0 : UInt8) ++ [0, 0] =
      replicate (2 * (frames + 1)) 0 := by
    rw [Nat.mul_add, replicate_add]
    rfl
  have counted : replicate frames 0 ++ [0] = replicate (frames + 1) 0 :=
    replicate_succ'.symm
  have first : (silent size frames).step (.onData [0, 0] true) = some
      { silent size frames with
        ring := { (silent size frames).ring with written := 2 * frames + 2 }
        accepted := replicate (2 * frames) 0 ++ [0, 0]
        dropped := replicate frames 0 ++ [0] } := by
    rw [Session.step, taken]
    rfl
  rw [first, Option.bind_some, Session.step, given, counted]
  change some { silent size (frames + 1) with
    accepted := replicate (2 * frames) 0 ++ [0, 0]
    given := replicate (2 * frames) 0 ++ [0, 0] } = _
  rw [grown]
  rfl

/-- A frame that lies across the end of the counters is not read where it was written. -/
theorem frame_lost {size place frames : ℕ} (low : 2 ≤ place) (high : place + 4 ≤ size)
    (fits : size < 2 ^ 32) (last : 2 * frames + 2 = 2 ^ 32) (at_ : 2 * frames % size = place) :
    ∃ s, ((silent size frames).step (.onData [1, 2, 3, 4] true)).bind
      (fun s => (s.step (.read 2)).bind (·.step (.read 2))) = some s ∧ ¬s.Sound := by
  have length : (replicate size (0 : UInt8)).length = size := length_replicate
  have room : place + [1, 2, 3, (4 : UInt8)].length ≤ (replicate size (0 : UInt8)).length :=
    length.symm ▸ high
  let loud : Bytes := splice place [1, 2, 3, 4] (replicate size 0)
  have loudLength : loud.length = size := (length_splice room).trans length
  let after (read : ℕ) : Ring :=
    { ringBytes := size, frameBytes := 2, ring := loud, read, written := 2 }
  have empty : (silent size frames).ring.available = 0 := by
    simp only [Ring.available, silent, sub]
    omega
  have space : min 4 (sub size 0) = 4 := by
    rw [sub]
    omega
  have four : (after (2 * frames)).available = 4 := by
    simp only [Ring.available, after, sub]
    omega
  have two : (after 0).available = 2 := by
    simp only [Ring.available, after, sub]
    omega
  have taken : (silent size frames).ring.onData [1, 2, 3, 4] true =
      some (after (2 * frames), 4) := by
    refine Ring.onData_eq (by simp) (by rw [empty]; exact space) (rfl : 4 - 4 % 2 = 4) four_ne_zero ?_
      (by change (2 * frames + 4) % 2 ^ 32 = 2; omega)
    change Ring.copyIn _ (2 * frames % size) 4 _ = _
    rw [at_]
    exact Ring.copyIn_within length.symm (rfl : [1, 2, 3, (4 : UInt8)].length = 4) room
  have given : (after (2 * frames)).readBytes 2 = some (after 0, [1, 2]) := by
    refine Ring.readBytes_eq (by rw [four]; exact Nat.le_add_left 2 2) (by rw [four]; rfl)
      (rfl : 2 - 2 % 2 = 2) ?_ (by change (2 * frames + 2) % 2 ^ 32 = 0; omega)
    change Ring.copyOut _ (2 * frames % size) 2 = _
    rw [at_, Ring.copyOut_within loudLength.symm (by rw [loudLength]; omega)]
    have all := slice_splice room
    have half : slice place 2 loud = (slice place 4 loud).take 2 := by
      rw [slice, slice, take_take]
      rfl
    exact congrArg some (half.trans (congrArg (take 2) all))
  have lost : (after 0).readBytes 2 = some (after 2, [0, 0]) := by
    refine Ring.readBytes_eq (by rw [two]) (by rw [two]; rfl) (rfl : 2 - 2 % 2 = 2) ?_ rfl
    change Ring.copyOut _ (0 % size) 2 = _
    rw [Nat.zero_mod, Ring.copyOut_within loudLength.symm (by rw [loudLength]; omega)]
    have apart : slice 0 2 loud = _ := slice_splice_apart room (.inr (by omega))
    refine congrArg some (apart.trans ?_)
    rw [slice, drop_replicate, take_replicate, min_eq_left (by omega)]
    rfl
  let session (ring : Ring) (given : Bytes) : Session :=
    { ring
      writing := []
      accepted := replicate (2 * frames) 0 ++ [1, 2, 3, 4]
      given := replicate (2 * frames) 0 ++ given
      dropped := replicate frames 0 ++ [0] }
  have first : (silent size frames).step (.onData [1, 2, 3, 4] true) =
      some (session (after (2 * frames)) []) := by
    rw [Session.step, taken]
    change some _ = some _
    simp only [session, append_nil]
    rfl
  have second : (session (after (2 * frames)) []).step (.read 2) =
      some (session (after 0) [1, 2]) := by
    rw [Session.step, given]
    change some _ = some _
    simp only [session, append_nil]
  have third : (session (after 0) [1, 2]).step (.read 2) =
      some (session (after 2) ([1, 2] ++ [0, 0])) := by
    rw [Session.step, lost]
    change some _ = some _
    simp only [session, append_assoc]
  refine ⟨_, by rw [first, Option.bind_some, second, Option.bind_some, third], fun sound => ?_⟩
  obtain ⟨left, same, _⟩ := sound.order
  rw [append_assoc] at same
  have ends := append_cancel_left same
  simp at ends

/-- A microphone with 8 kHz and one channel of 16 bits that has sent 4 GiB. -/
theorem frame_lost_at_wrap :
    ∃ s, Reachable (Session.Fresh 1600 2) (Allowed Session.step Session.Whole) s ∧ ¬s.Sound := by
  have silence : ∀ frames, 2 * frames < 2 ^ 32 →
      Reachable (Session.Fresh 1600 2) (Allowed Session.step Session.Whole) (silent 3200 frames) := by
    intro frames
    induction frames with
    | zero => exact fun _ => .start ⟨_, length_replicate, rfl⟩
    | succ frames ih =>
      intro below
      obtain ⟨between, first, second⟩ := Option.bind_eq_some_iff.mp
        (silent_frame (by decide : 2 ∣ 3200) (by decide) (by decide) below)
      exact ((ih (by omega)).next ⟨_, first, ⟨1, rfl⟩⟩).next ⟨_, second, trivial⟩
  obtain ⟨frames, last⟩ : ∃ frames, 2 * frames + 2 = 2 ^ 32 := ⟨2 ^ 31 - 1, by decide⟩
  obtain ⟨s, goes, wrong⟩ := frame_lost (by decide : 2 ≤ 894) (by decide : 894 + 4 ≤ 3200)
    (by decide) last (by omega)
  obtain ⟨first, writes, goes⟩ := Option.bind_eq_some_iff.mp goes
  obtain ⟨second, reads, goes⟩ := Option.bind_eq_some_iff.mp goes
  exact ⟨s, (((silence frames (by omega)).next ⟨_, writes, ⟨2, rfl⟩⟩).next ⟨_, reads, trivial⟩).next
    ⟨_, goes, trivial⟩, wrong⟩

end EspDevkit.Usb.Uac
