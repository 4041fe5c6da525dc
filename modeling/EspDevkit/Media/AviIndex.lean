import EspDevkit.Library.Sampling
import Mathlib.Data.BitVec
import Mathlib.Data.Int.Notation

/-!
# The seek index of an AVI file

`build_index` reads the entries of `idx1` and keeps the keyframes of the video stream, every
one of them at first and fewer each time the table is full.  `seek_frame` looks for the last
one kept that is not past the frame.  An access out of range gives `none`.
-/

namespace EspDevkit.Media.Avi

def maxStreams : ℕ := 8

def maxIndexEntries : ℕ := 60000

def indexEntryBytes : ℕ := 16

def indexKeyframe : BitVec 32 := 0x10

def chunkHeaderBytes : ℕ := 8

inductive Stream
  | none
  | video
  | audio
  deriving DecidableEq

inductive VideoCodec
  | mjpeg
  | h264
  | mpeg2
  | unsupported
  deriving DecidableEq

structure SeekPoint where
  frame : ℕ
  offset : ℕ
  deriving DecidableEq

/-- An entry of `idx1`. -/
structure Entry where
  id : BitVec 32
  flags : BitVec 32
  offset : ℕ
  size : ℕ

structure Streams where
  list : List Stream
  count : ℕ
  count_le : count ≤ list.length

/-- The byte of an identifier that stands `i` places into the file. -/
def idByte (id : BitVec 32) (i : ℕ) : ℕ := (id.toNat / 256 ^ i) % 256

def isAsciiDigit (byte : ℕ) : Bool := 48 ≤ byte && byte ≤ 57

/-- `stream_of`. -/
def Streams.streamOf (streams : Streams) (id : BitVec 32) : Option Stream :=
  if !isAsciiDigit (idByte id 0) || !isAsciiDigit (idByte id 1) then .none
  else
    let index := (idByte id 0 - 48) * 10 + (idByte id 1 - 48)
    if inside : index < streams.count then
      let declared := streams.list.get ⟨index, Nat.lt_of_lt_of_le inside streams.count_le⟩
      let videoSuffix := idByte id 2 = 100 ∧ (idByte id 3 = 98 ∨ idByte id 3 = 99)
      let audioSuffix := idByte id 2 = 119 ∧ idByte id 3 = 98
      if declared = .video ∧ videoSuffix then some .video
      else if declared = .audio ∧ audioSuffix then some .audio
      else .none
    else .none

/-- What `open` has found in the file before it reads the index. -/
structure Headers where
  streams : Streams
  codec : VideoCodec
  frameCount : ℕ
  maxFrameBytes : ℕ
  /-- The largest frame of the audio stream, if there is one. -/
  audioFrameBytes : Option ℕ
  moviStart : ℤ
  idx1Size : ℕ

structure Source where
  size : ℤ
  fourccAt : ℤ → Option (BitVec 32)

structure Memory where
  points : Bool
  flags : Bool

structure AviDemuxer where
  headers : Headers
  indexBase : ℤ := 0
  points : Option (List SeekPoint) := none
  keyFlags : Option (List (BitVec 8)) := none
  keyFlagCount : ℕ := 0
  seekable : Bool := false

/-- The variables of the loop of `build_index`. -/
structure Building where
  points : Option (List SeekPoint)
  flags : Option (List (BitVec 8))
  videoFrames : ℕ := 0
  keyframes : ℕ := 0
  step : ℕ := 1
  maxVideo : ℕ := 0
  maxAudio : ℕ := 0
  firstVideoOffset : Option ℕ := none

def setFlag (flags : Option (List (BitVec 8))) (frame : ℕ) : Option (Option (List (BitVec 8))) :=
  match flags with
  | none => some none
  | some flags =>
    flags[frame / 8]?.map fun byte => some (flags.set (frame / 8) (byte ||| 1#8 <<< (frame % 8)))

def keepPoint (capacity : ℕ) (stored : List SeekPoint) (step key : ℕ) (point : SeekPoint) :
    Option (List SeekPoint × ℕ) :=
  if key % step ≠ 0 then some (stored, step)
  else if stored.length = capacity then
    (Sampling.halve (stored.length / 2) stored).map fun halved =>
      let stored := halved.take (stored.length / 2)
      let step := step * 2
      if key % step ≠ 0 then (stored, step) else (stored ++ [point], step)
  else some (stored ++ [point], step)

def Building.entry (streams : Streams) (allKey : Bool) (capacity : ℕ) (b : Building) (entry : Entry) :
    Option Building :=
  match streams.streamOf entry.id with
  | none => some b
  | some .video =>
    let frame := b.videoFrames
    let b :=
      { b with
        firstVideoOffset := some (b.firstVideoOffset.getD entry.offset)
        maxVideo := max b.maxVideo entry.size
        videoFrames := b.videoFrames + 1 }
    match b.points with
    | none => some b
    | some stored =>
      if !allKey && entry.flags &&& indexKeyframe == 0 then some b
      else do
        let flags ← setFlag b.flags frame
        let (points, step) ← keepPoint capacity stored b.step b.keyframes ⟨frame, entry.offset⟩
        some { b with points := some points, flags, step, keyframes := b.keyframes + 1 }
  | some _ => some { b with maxAudio := max b.maxAudio entry.size }

/-- `index_base_valid`. -/
def indexBaseValid (streams : Streams) (source : Source) (base : ℤ) (firstOffset : ℕ) : Bool :=
  let position := base + firstOffset
  if position < 0 ∨ source.size < position + chunkHeaderBytes then false
  else
    match source.fourccAt position with
    | none => false
    | some fourcc => (streams.streamOf fourcc).isSome

/-- `build_index`, of which `reads` are the entries that can be read. -/
def buildIndex (headers : Headers) (source : Source) (memory : Memory) (reads : List Entry) :
    Option AviDemuxer :=
  let entries := headers.idx1Size / indexEntryBytes
  if headers.idx1Size = 0 ∨ entries = 0 then some { headers }
  else do
    let allKey := headers.codec == .mjpeg
    let capacity := min entries maxIndexEntries
    let given := memory.points && (allKey || memory.flags)
    let start : Building :=
      { points := if given then some [] else none
        flags := if given && !allKey then some (List.replicate ((entries + 7) / 8) 0) else none }
    let built ← (reads.take entries).foldlM (Building.entry headers.streams allKey capacity) start
    let headers :=
      { headers with
        maxFrameBytes := if built.maxVideo ≠ 0 then built.maxVideo else headers.maxFrameBytes
        audioFrameBytes := headers.audioFrameBytes.map fun bytes =>
          if built.maxAudio ≠ 0 then built.maxAudio else bytes
        frameCount := if built.videoFrames ≠ 0 then built.videoFrames else headers.frameCount }
    match built.firstVideoOffset with
    | none => some { headers }
    | some first =>
      if built.keyframes = 0 then some { headers }
      else
        let demuxer : AviDemuxer :=
          { headers
            keyFlagCount := if built.flags.isSome then built.videoFrames else 0
            keyFlags := built.flags }
        let base := headers.moviStart - 4
        if indexBaseValid headers.streams source base first then
          some { demuxer with indexBase := base, points := built.points, seekable := true }
        else if indexBaseValid headers.streams source 0 first then
          some { demuxer with indexBase := 0, points := built.points, seekable := true }
        else some demuxer

/-- The loop of `point_at_or_before`, which ends after as many turns as there are points. -/
def searchPoints (points : List SeekPoint) (frame : ℕ) : ℕ → ℕ → ℕ → Option ℕ
  | 0, low, _ => some low
  | turns + 1, low, high =>
    if 1 < high - low then
      let middle := low + (high - low) / 2
      points[middle]?.bind fun point =>
        if point.frame ≤ frame then searchPoints points frame turns middle high
        else searchPoints points frame turns low middle
    else some low

namespace AviDemuxer

variable (demuxer : AviDemuxer)

/-- `point_at_or_before`. -/
def pointAtOrBefore (frame : ℕ) : Option (Option SeekPoint) :=
  match demuxer.points with
  | none => some none
  | some points =>
    (searchPoints points frame points.length 0 points.length).map fun low => points[low]?

inductive SeekError
  | notSeekable
  deriving DecidableEq

/-- `seek_frame`: where it lands, and at which offset of the file. -/
def seekFrame (frame : ℕ) : Option (Except SeekError (ℕ × ℤ)) :=
  if 0 < frame then
    if demuxer.points.isNone ∨ demuxer.headers.frameCount ≤ frame then some (.error .notSeekable)
    else
      (demuxer.pointAtOrBefore frame).map fun point =>
        match point.filter fun point => decide (point.frame ≤ frame) with
        | some point => .ok (point.frame, demuxer.indexBase + point.offset)
        | none => .ok (0, demuxer.headers.moviStart)
  else some (.ok (0, demuxer.headers.moviStart))

/-- `keyframe_of`, where the data of a packet starts a keyframe or not. -/
def keyframeOf (frame : ℕ) (starts : Bool) : Option Bool :=
  if demuxer.headers.codec = .mjpeg then some true
  else if frame < demuxer.keyFlagCount then
    match demuxer.keyFlags with
    | some flags => flags[frame / 8]?.map fun (byte : BitVec 8) => ((byte >>> (frame % 8)) &&& 1#8) != 0#8
    | none => some starts
  else some starts

end AviDemuxer

end EspDevkit.Media.Avi
