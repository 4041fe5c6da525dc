import EspDevkit.Media.AviIndex

/-!
# The points of the seek index

The table is full only with its even capacity, so that halving it keeps every other of the
keyframes it had, and the keyframe that found it full is one of those to keep.
-/

namespace EspDevkit.Media.Avi

open Sampling List Option

def flagOf (flags : List (BitVec 8)) (frame : ℕ) : Bool :=
  (flags[frame / 8]?.getD 0).getLsbD (frame % 8)

theorem flagOf_zero (count frame : ℕ) : flagOf (List.replicate count 0) frame = false := by
  unfold flagOf
  rw [List.getElem?_replicate]
  split <;> simp

theorem getLsbD_setBit (byte : BitVec 8) {i j : ℕ} (lt : j < 8) :
    (byte ||| 1#8 <<< i).getLsbD j = (byte.getLsbD j || decide (j = i)) := by
  have shifted : (1#8 <<< i).getLsbD j = decide (j = i) := by
    rw [Bool.eq_iff_iff]
    simp [BitVec.getLsbD_shiftLeft, BitVec.getLsbD_one]
    omega
  rw [BitVec.getLsbD_or, shifted]

theorem flagOf_set {flags : List (BitVec 8)} {frame : ℕ} {byte : BitVec 8}
    (there : flags[frame / 8]? = some byte) (other : ℕ) :
    flagOf (flags.set (frame / 8) (byte ||| 1#8 <<< (frame % 8))) other =
      (flagOf flags other || decide (other = frame)) := by
  have inside := (List.getElem?_eq_some_iff.mp there).1
  unfold flagOf
  rw [List.getElem?_set]
  by_cases same : frame / 8 = other / 8
  · rw [if_pos same, if_pos (same ▸ inside), ← same, there, getD_some, getD_some,
      getLsbD_setBit _ (Nat.mod_lt _ (by decide))]
    congr 1
    rw [decide_eq_decide]
    omega
  · have apart : decide (other = frame) = false := by
      rw [decide_eq_false_iff_not]
      rintro rfl
      exact same rfl
    rw [if_neg same, apart, Bool.or_false]

theorem and_one_ne_zero (byte : BitVec 8) (i : ℕ) :
    (((byte >>> i) &&& 1#8) != 0#8) = byte.getLsbD i := by
  rw [BitVec.and_one_eq_setWidth_ofBool_getLsbD, BitVec.getLsbD_ushiftRight, Nat.add_zero]
  cases byte.getLsbD i <;> decide

section

variable (streams : Streams) (allKey : Bool)

def videos (entries : List Entry) : List Entry :=
  entries.filter fun entry => streams.streamOf entry.id == some .video

def isKey (entry : Entry) : Bool := allKey || entry.flags &&& indexKeyframe != 0

theorem not_isKey (allKey : Bool) (entry : Entry) :
    (!allKey && entry.flags &&& indexKeyframe == 0) = !isKey allKey entry := by
  simp [isKey, bne]

/-- The keyframes among the frames, which are counted from `frame`. -/
def keysFrom (frame : ℕ) : List Entry → List SeekPoint
  | [] => []
  | entry :: entries =>
    if isKey allKey entry then ⟨frame, entry.offset⟩ :: keysFrom (frame + 1) entries
    else keysFrom (frame + 1) entries

def keyframes (entries : List Entry) : List SeekPoint := keysFrom allKey 0 (videos streams entries)

def flagged (entries : List Entry) (frame : ℕ) : Bool :=
  (videos streams entries)[frame]?.any (isKey allKey)

end

variable {streams : Streams} {allKey : Bool}

theorem keysFrom_concat (frame : ℕ) (entries : List Entry) (entry : Entry) :
    keysFrom allKey frame (entries ++ [entry]) =
      keysFrom allKey frame entries ++
        if isKey allKey entry then [⟨frame + entries.length, entry.offset⟩] else [] := by
  induction entries generalizing frame with
  | nil => simp [keysFrom]
  | cons first entries ih =>
    rw [cons_append, keysFrom, keysFrom, ih, length_cons]
    rw [show frame + 1 + entries.length = frame + (entries.length + 1) by omega]
    split <;> simp

theorem length_keysFrom_le (frame : ℕ) (entries : List Entry) :
    (keysFrom allKey frame entries).length ≤ entries.length := by
  induction entries generalizing frame with
  | nil => exact Nat.le_refl _
  | cons first entries ih =>
    have := ih (frame + 1)
    rw [keysFrom]
    split <;> simp only [length_cons] <;> omega

theorem frames_keysFrom (frame : ℕ) (entries : List Entry) :
    ∀ point ∈ keysFrom allKey frame entries,
      frame ≤ point.frame ∧ point.frame < frame + entries.length := by
  induction entries generalizing frame with
  | nil => simp [keysFrom]
  | cons first entries ih =>
    intro point member
    have later := ih (frame + 1)
    rw [length_cons]
    rw [keysFrom] at member
    split at member
    · rcases mem_cons.mp member with rfl | member
      · dsimp only
        omega
      · have := later point member
        omega
    · have := later point member
      omega

theorem keysFrom_sorted (frame : ℕ) (entries : List Entry) :
    (keysFrom allKey frame entries).Pairwise (·.frame < ·.frame) := by
  induction entries generalizing frame with
  | nil => exact List.Pairwise.nil
  | cons first entries ih =>
    rw [keysFrom]
    split
    · refine List.Pairwise.cons (fun point member => ?_) (ih _)
      have := frames_keysFrom (frame + 1) entries point member
      dsimp only
      omega
    · exact ih _

theorem videos_concat (entries : List Entry) (entry : Entry) :
    videos streams (entries ++ [entry]) =
      videos streams entries ++
        if streams.streamOf entry.id = some .video then [entry] else [] := by
  unfold videos
  rw [filter_append]
  congr 1
  split
  · rename_i video
    simp [video]
  · rename_i other
    simp [other]

/-- The keyframe that finds the table full is one of those kept when it is halved. -/
theorem keepPoint_spec {capacity step : ℕ} (keys : List SeekPoint) (point : SeekPoint)
    (pos : 0 < step) (some_ : 0 < capacity) (room : (every step keys).length ≤ capacity)
    (even : keys.length < capacity ∨ capacity % 2 = 0) :
    ∃ step', keepPoint capacity (every step keys) step keys.length point =
        some (every step' (keys ++ [point]), step') ∧
      (step' = step ∨ step' = step * 2) ∧ (every step' (keys ++ [point])).length ≤ capacity := by
  unfold keepPoint
  by_cases multiple : keys.length % step = 0
  · rw [if_neg (not_not.mpr multiple)]
    obtain ⟨count, length⟩ := Nat.dvd_of_mod_eq_zero multiple
    rw [Nat.mul_comm] at length
    have stored := length_every_of_dvd pos length
    by_cases full : (every step keys).length = capacity
    · obtain rfl : count = capacity := stored.symm.trans full
      have many : count ≤ keys.length := by
        rw [length]
        exact Nat.le_mul_of_pos_right _ pos
      obtain ⟨half, two⟩ : ∃ half, count = half * 2 := by
        rcases even with few | even
        · omega
        · exact ⟨count / 2, by omega⟩
      have halved := take_halve (l := every step keys) (by omega)
      obtain ⟨moved, runs, taken⟩ := map_eq_some_iff.mp halved
      have length' : keys.length = half * (step * 2) := by
        rw [length, two, Nat.mul_assoc, Nat.mul_comm 2]
      have multiple' : keys.length % (step * 2) = 0 := by
        rw [length']
        exact Nat.mul_mod_left _ _
      have pos' : 0 < step * 2 := by omega
      rw [every_every pos Nat.two_pos] at taken
      refine ⟨step * 2, ?_, .inr rfl, ?_⟩
      · rw [if_pos full, runs, map_some]
        dsimp only
        rw [taken, if_neg (not_not.mpr multiple'), every_concat pos', if_pos multiple']
      · rw [every_concat pos', if_pos multiple', length_append,
          length_every_of_dvd pos' length', length_singleton]
        omega
    · refine ⟨step, ?_, .inl rfl, ?_⟩
      · rw [if_neg full, every_concat pos, if_pos multiple]
      · rw [every_concat pos, if_pos multiple, length_append, length_singleton]
        omega
  · refine ⟨step, ?_, .inl rfl, ?_⟩
    · rw [if_pos multiple, every_concat pos, if_neg multiple]
    · rwa [every_concat pos, if_neg multiple]

/-- What the loop of `build_index` has, when it has read these entries. -/
structure Indexed (streams : Streams) (allKey : Bool) (capacity flagBytes : ℕ) (entries : List Entry)
    (b : Building) : Prop where
  videoFrames : b.videoFrames = (videos streams entries).length
  step : ∃ k, b.step = 2 ^ k
  points : ∀ points, b.points = some points →
    points = every b.step (keyframes streams allKey entries) ∧ points.length ≤ capacity ∧
      b.keyframes = (keyframes streams allKey entries).length
  flags : ∀ flags, b.flags = some flags → b.points.isSome ∧ flags.length = flagBytes ∧
    ∀ frame, flagOf flags frame = ((videos streams entries)[frame]?.any (isKey allKey))

theorem any_concat {α : Type*} (l : List α) (a : α) (p : α → Bool) (i : ℕ) :
    (l ++ [a])[i]?.any p = (l[i]?.any p || decide (i = l.length) && p a) := by
  rcases Nat.lt_trichotomy i l.length with lt | rfl | gt
  · simp [List.getElem?_append_left lt, Nat.ne_of_lt lt]
  · simp
  · rw [List.getElem?_eq_none (by simp; omega), List.getElem?_eq_none (by omega)]
    simp [Nat.ne_of_gt gt]

namespace Indexed

variable {capacity flagBytes : ℕ} {entries : List Entry} {b : Building}

theorem setFlag (indexed : Indexed streams allKey capacity flagBytes entries b) (entry : Entry)
    (room : entries.length < flagBytes * 8) (key : isKey allKey entry = true) :
    ∃ after, Avi.setFlag b.flags b.videoFrames = some after ∧
      ∀ flags, after = some flags → flags.length = flagBytes ∧ ∀ frame, flagOf flags frame =
        (videos streams entries ++ [entry])[frame]?.any (isKey allKey) := by
  unfold Avi.setFlag
  cases eq : b.flags with
  | none => exact ⟨none, rfl, nofun⟩
  | some flags =>
    obtain ⟨-, length, is⟩ := indexed.flags flags eq
    have inside : b.videoFrames / 8 < flags.length := by
      have : (videos streams entries).length ≤ entries.length := length_filter_le _ _
      have := indexed.videoFrames
      omega
    have there := List.getElem?_eq_getElem inside
    refine ⟨_, by dsimp only; rw [there]; rfl, ?_⟩
    rintro _ ⟨⟩
    refine ⟨by rw [length_set, length], fun frame => ?_⟩
    rw [flagOf_set there, is, any_concat, key, Bool.and_true, indexed.videoFrames]

theorem video (indexed : Indexed streams allKey capacity flagBytes entries b) (entry : Entry)
    (stream : streams.streamOf entry.id = some .video)
    (some_ : 0 < capacity) (even : entries.length < capacity ∨ capacity % 2 = 0)
    (room : entries.length < flagBytes * 8) :
    ∃ after, b.entry streams allKey capacity entry = some after ∧
      Indexed streams allKey capacity flagBytes (entries ++ [entry]) after := by
  have frames : videos streams (entries ++ [entry]) = videos streams entries ++ [entry] := by
    rw [videos_concat, if_pos stream]
  have keys : keyframes streams allKey (entries ++ [entry]) =
      keyframes streams allKey entries ++
        if isKey allKey entry then [⟨b.videoFrames, entry.offset⟩] else [] := by
    unfold keyframes
    rw [frames, keysFrom_concat, Nat.zero_add, indexed.videoFrames]
  have few : (keyframes streams allKey entries).length ≤ entries.length :=
    (length_keysFrom_le _ _).trans (length_filter_le _ _)
  have inside : b.videoFrames ≤ entries.length := by
    rw [indexed.videoFrames]
    exact length_filter_le _ _
  have count : b.videoFrames + 1 = (videos streams (entries ++ [entry])).length := by
    rw [frames, length_append, indexed.videoFrames]
    rfl
  obtain ⟨k, step⟩ := indexed.step
  unfold Building.entry
  rw [stream]
  dsimp only
  cases stored : b.points with
  | none =>
    refine ⟨_, rfl, count, ⟨k, step⟩, nofun, fun flags some_ => ?_⟩
    have := (indexed.flags flags some_).1
    rw [stored] at this
    cases this
  | some points =>
    obtain ⟨rfl, fits, keyed⟩ := indexed.points points stored
    have tested := not_isKey allKey entry
    dsimp only
    cases key : isKey allKey entry with
    | false =>
      rw [key] at keys tested
      rw [if_neg (by decide), append_nil] at keys
      rw [Bool.not_false] at tested
      rw [if_pos tested]
      refine ⟨_, rfl, count, ⟨k, step⟩, fun points eq => ?_, fun flags eq => ?_⟩
      · cases eq
        rw [keys]
        exact ⟨rfl, fits, keyed⟩
      · obtain ⟨-, length, is⟩ := indexed.flags flags eq
        refine ⟨rfl, length, fun frame => ?_⟩
        rw [frames, any_concat, is, key, Bool.and_false, Bool.or_false]
    | true =>
      rw [key] at keys tested
      rw [if_pos rfl] at keys
      rw [if_neg (by rw [tested]; decide)]
      obtain ⟨flags', sets, setFlags⟩ := indexed.setFlag entry room key
      obtain ⟨step', keeps, doubled, fits'⟩ := keepPoint_spec
        (keyframes streams allKey entries) ⟨b.videoFrames, entry.offset⟩
        (step ▸ Nat.two_pow_pos k) some_ fits (even.imp_left (Nat.lt_of_le_of_lt few))
      rw [← keyed] at keeps
      rw [sets]
      dsimp only [bind, Option.bind]
      rw [keeps]
      refine ⟨_, rfl, count, ?_, fun points eq => ?_, fun flags eq => ?_⟩
      · rcases doubled with rfl | rfl
        · exact ⟨k, step⟩
        · exact ⟨k + 1, by rw [step, pow_succ]⟩
      · cases eq
        rw [keys]
        refine ⟨rfl, fits', ?_⟩
        rw [length_append, keyed]
        rfl
      · rw [frames]
        exact ⟨rfl, setFlags flags eq⟩

theorem other (indexed : Indexed streams allKey capacity flagBytes entries b) {entry : Entry}
    (other : streams.streamOf entry.id ≠ some .video) {after : Building}
    (points : after.points = b.points) (flags : after.flags = b.flags)
    (frames : after.videoFrames = b.videoFrames) (keys : after.keyframes = b.keyframes)
    (step : after.step = b.step) :
    Indexed streams allKey capacity flagBytes (entries ++ [entry]) after := by
  have same : videos streams (entries ++ [entry]) = videos streams entries := by
    rw [videos_concat, if_neg other, append_nil]
  refine ⟨?_, ?_, ?_, ?_⟩
  · rw [frames, same, indexed.videoFrames]
  · rw [step]
    exact indexed.step
  · unfold keyframes
    rw [points, step, keys, same]
    exact indexed.points
  · rw [flags, points, same]
    exact indexed.flags

theorem entry (indexed : Indexed streams allKey capacity flagBytes entries b) (entry : Entry)
    (some_ : 0 < capacity) (even : entries.length < capacity ∨ capacity % 2 = 0)
    (room : entries.length < flagBytes * 8) :
    ∃ after, b.entry streams allKey capacity entry = some after ∧
      Indexed streams allKey capacity flagBytes (entries ++ [entry]) after := by
  by_cases video : streams.streamOf entry.id = some .video
  · exact indexed.video entry video some_ even room
  · unfold Building.entry
    split
    · exact ⟨_, rfl, indexed.other video rfl rfl rfl rfl rfl⟩
    · contradiction
    · exact ⟨_, rfl, indexed.other video rfl rfl rfl rfl rfl⟩

end Indexed

theorem Indexed.start (streams : Streams) (allKey : Bool) (capacity flagBytes : ℕ) (given : Bool) :
    Indexed streams allKey capacity flagBytes []
      { points := if given then some [] else none
        flags := if given && !allKey then some (List.replicate flagBytes 0) else none } := by
  refine ⟨rfl, ⟨0, rfl⟩, fun points eq => ?_, fun flags eq => ?_⟩
  · dsimp only at eq
    split at eq
    · cases eq
      exact ⟨(every_one _).symm, Nat.zero_le _, rfl⟩
    · cases eq
  · dsimp only at eq
    split at eq
    · rename_i some_
      rw [Bool.and_eq_true] at some_
      cases eq
      refine ⟨by simp [some_.1], length_replicate, fun frame => ?_⟩
      exact flagOf_zero _ _
    · cases eq

theorem Indexed.entries {capacity flagBytes : ℕ} {before : List Entry} {b : Building}
    (indexed : Indexed streams allKey capacity flagBytes before b) (entries : List Entry)
    (some_ : 0 < capacity)
    (even : before.length + entries.length ≤ capacity ∨ capacity % 2 = 0)
    (room : before.length + entries.length ≤ flagBytes * 8) :
    ∃ after, entries.foldlM (Building.entry streams allKey capacity) b = some after ∧
      Indexed streams allKey capacity flagBytes (before ++ entries) after := by
  induction entries generalizing before b with
  | nil => exact ⟨b, rfl, by rwa [append_nil]⟩
  | cons entry entries ih =>
    rw [length_cons] at even room
    obtain ⟨between, step, next⟩ := indexed.entry entry some_ (even.imp_left (by omega)) (by omega)
    obtain ⟨after, rest, last⟩ := ih next
      (by rw [length_append, length_singleton]; exact even.imp_left (by omega))
      (by rw [length_append, length_singleton]; omega)
    refine ⟨after, ?_, by rwa [append_assoc] at last⟩
    rw [foldlM_cons, step]
    exact rest

def lastBefore (points : List SeekPoint) (frame : ℕ) : Option SeekPoint :=
  (points.filter fun point => decide (point.frame ≤ frame)).getLast?

/-- The search ends at the first point or one that is not past the frame, and all after it
are. -/
theorem searchPoints_spec {points : List SeekPoint} (frame : ℕ)
    (sorted : points.Pairwise (·.frame < ·.frame)) (turns low high : ℕ) (lt : low < high)
    (bound : high ≤ points.length) (enough : high - low ≤ turns + 1)
    (before : low = 0 ∨ ∃ point, points[low]? = some point ∧ point.frame ≤ frame)
    (after : ∀ i point, high ≤ i → points[i]? = some point → frame < point.frame) :
    ∃ last, searchPoints points frame turns low high = some last ∧ last < points.length ∧
      (last = 0 ∨ ∃ point, points[last]? = some point ∧ point.frame ≤ frame) ∧
      ∀ i point, last < i → points[i]? = some point → frame < point.frame := by
  induction turns generalizing low high with
  | zero =>
    refine ⟨low, rfl, by omega, before, fun i point past => after i point (by omega)⟩
  | succ turns ih =>
    rw [searchPoints]
    split
    · rename_i wide
      have inside : low + (high - low) / 2 < points.length := by omega
      have there := List.getElem?_eq_getElem inside
      dsimp only
      rw [there, bind_some]
      split
      · rename_i below
        exact ih _ high (by omega) bound (by omega) (.inr ⟨_, there, below⟩) after
      · rename_i above
        refine ih low _ (by omega) (by omega) (by omega) before fun i point past at_ => ?_
        obtain ⟨inside', rfl⟩ := List.getElem?_eq_some_iff.mp at_
        rcases Nat.eq_or_lt_of_le past with rfl | later
        · exact Nat.lt_of_not_le above
        · have := pairwise_iff_getElem.mp sorted _ i inside inside' later
          omega
    · exact ⟨low, rfl, by omega, before, fun i point past => after i point (by omega)⟩

/-- What the search ends at, if it is not past the frame, is the last such point. -/
theorem lastBefore_eq {points : List SeekPoint} {frame last : ℕ} {found : SeekPoint}
    (there : points[last]? = some found)
    (first : last = 0 ∨ found.frame ≤ frame)
    (after : ∀ i point, last < i → points[i]? = some point → frame < point.frame) :
    lastBefore points frame =
      (some found).filter fun point => decide (point.frame ≤ frame) := by
  obtain ⟨inside, eq⟩ := List.getElem?_eq_some_iff.mp there
  have split : points = points.take last ++ found :: points.drop (last + 1) := by
    rw [← eq, cons_getElem_drop_succ, take_append_drop]
  have later : (points.drop (last + 1)).filter (fun point => decide (point.frame ≤ frame)) = [] := by
    rw [filter_eq_nil_iff]
    intro point member
    obtain ⟨i, at_⟩ := mem_iff_getElem?.mp member
    rw [List.getElem?_drop] at at_
    have := after _ point (by omega) at_
    rw [decide_eq_true_eq]
    omega
  unfold lastBefore
  rw [split, filter_append, filter_cons, later]
  by_cases below : found.frame ≤ frame
  · simp [below, Option.filter]
  · rcases first with rfl | first
    · simp [below, Option.filter]
    · exact absurd first below

namespace AviDemuxer

variable {demuxer : AviDemuxer}

theorem seekFrame_spec {points : List SeekPoint} (has : demuxer.points = some points)
    (nonempty : points ≠ []) (sorted : points.Pairwise (·.frame < ·.frame)) (frame : ℕ) :
    demuxer.seekFrame frame =
      if frame = 0 then some (.ok (0, demuxer.headers.moviStart))
      else if demuxer.headers.frameCount ≤ frame then some (.error .notSeekable)
      else
        match lastBefore points frame with
        | some point => some (.ok (point.frame, demuxer.indexBase + point.offset))
        | none => some (.ok (0, demuxer.headers.moviStart)) := by
  have pos : 0 < points.length := length_pos_iff.mpr nonempty
  unfold seekFrame
  by_cases zero : frame = 0
  · rw [if_pos zero, if_neg (by omega)]
  rw [if_neg zero, if_pos (by omega), has]
  by_cases past : demuxer.headers.frameCount ≤ frame
  · rw [if_pos past, if_pos (.inr past)]
  rw [if_neg past, if_neg (by simpa using past)]
  obtain ⟨last, runs, inside, first, after⟩ := searchPoints_spec frame sorted
    points.length 0 points.length pos (Nat.le_refl _) (by omega) (.inl rfl) fun i point past at_ => by
      rw [List.getElem?_eq_none past] at at_
      cases at_
  have there := List.getElem?_eq_getElem inside
  rw [lastBefore_eq there (first.imp_right fun ⟨point, at_, below⟩ => by
    rw [there] at at_
    cases at_
    exact below) after]
  unfold pointAtOrBefore
  rw [has]
  dsimp only
  rw [runs, map_some, map_some, there]
  split <;> rename_i eq <;> simp [eq]

structure IndexOf (demuxer : AviDemuxer) (headers : Headers) (capacity : ℕ) (entries : List Entry) :
    Prop where
  codec : demuxer.headers.codec = headers.codec
  start : demuxer.headers.moviStart = headers.moviStart
  points : ∀ points, demuxer.points = some points → points ≠ [] ∧ points.length ≤ capacity ∧
    ∃ k, points = every (2 ^ k) (keyframes headers.streams (headers.codec == .mjpeg) entries)
  counted : 0 < demuxer.keyFlagCount → demuxer.keyFlags.isSome
  flags : ∀ flags, demuxer.keyFlags = some flags → demuxer.keyFlagCount ≤ flags.length * 8 ∧
    ∀ frame, flagOf flags frame =
      flagged headers.streams (headers.codec == .mjpeg) entries frame

theorem buildIndex_spec (headers : Headers) (source : Source) (memory : Memory)
    (reads : List Entry) :
    ∃ demuxer, buildIndex headers source memory reads = some demuxer ∧
      demuxer.IndexOf headers (min (headers.idx1Size / indexEntryBytes) maxIndexEntries)
        (reads.take (headers.idx1Size / indexEntryBytes)) := by
  unfold buildIndex
  generalize headers.idx1Size / indexEntryBytes = entries
  dsimp only
  split
  · exact ⟨_, rfl, rfl, rfl, nofun, nofun, nofun⟩
  rename_i some_
  have length : (reads.take entries).length ≤ entries := length_take_le _ _
  generalize capacity_eq : min entries maxIndexEntries = capacity
  have full : entries ≤ capacity ∨ capacity % 2 = 0 := by
    unfold maxIndexEntries at capacity_eq
    omega
  have pos : 0 < capacity := by
    unfold maxIndexEntries at capacity_eq
    omega
  have few : capacity ≤ entries := by omega
  have begins := Indexed.start headers.streams (headers.codec == .mjpeg) capacity
    ((entries + 7) / 8) (memory.points && (headers.codec == .mjpeg || memory.flags))
  obtain ⟨built, runs, indexed⟩ := begins.entries (reads.take entries) pos
    (full.imp_left fun fits => by simpa using length.trans fits)
    (by simp only [length_nil]; omega)
  rw [nil_append] at indexed
  rw [runs]
  have points : built.keyframes ≠ 0 → ∀ points, built.points = some points →
      points ≠ [] ∧ points.length ≤ capacity ∧
        ∃ k, points = every (2 ^ k)
          (keyframes headers.streams (headers.codec == .mjpeg) (reads.take entries)) := by
    intro keyed points eq
    obtain ⟨k, step⟩ := indexed.step
    obtain ⟨rfl, fits, count⟩ := indexed.points points eq
    refine ⟨?_, fits, k, by rw [step]⟩
    rw [← length_pos_iff, lt_length_every (step ▸ Nat.two_pow_pos k), Nat.zero_mul]
    omega
  have counted : 0 < (if built.flags.isSome then built.videoFrames else 0) →
      built.flags.isSome := by
    intro some_
    split at some_
    · assumption
    · omega
  have flags : ∀ flags, built.flags = some flags →
      (if built.flags.isSome then built.videoFrames else 0) ≤ flags.length * 8 ∧
        ∀ frame, flagOf flags frame =
          flagged headers.streams (headers.codec == .mjpeg) (reads.take entries) frame := by
    intro flags eq
    obtain ⟨-, bytes, is⟩ := indexed.flags flags eq
    have frames : built.videoFrames ≤ (reads.take entries).length := by
      rw [indexed.videoFrames]
      exact length_filter_le _ _
    refine ⟨?_, is⟩
    rw [eq, if_pos isSome_some, bytes]
    omega
  dsimp only [bind, Option.bind]
  split
  · exact ⟨_, rfl, rfl, rfl, nofun, nofun, nofun⟩
  split
  · exact ⟨_, rfl, rfl, rfl, nofun, nofun, nofun⟩
  rename_i keyed
  split
  · exact ⟨_, rfl, rfl, rfl, points keyed, counted, flags⟩
  split
  · exact ⟨_, rfl, rfl, rfl, points keyed, counted, flags⟩
  · exact ⟨_, rfl, rfl, rfl, nofun, counted, flags⟩

end AviDemuxer

def LandsOnPoint (demuxer : AviDemuxer) (points : List SeekPoint) (frame : ℕ) : Prop :=
  demuxer.seekFrame frame = ((lastBefore points frame).or points.head?).map fun point =>
    .ok (point.frame, demuxer.indexBase + point.offset)

namespace LateKey

def id : BitVec 32 := 0x63643030

def headers : Headers :=
  { streams := { list := [.video], count := 1, count_le := by decide }
    codec := .h264
    frameCount := 0
    maxFrameBytes := 0
    audioFrameBytes := none
    moviStart := 100
    idx1Size := 32 }

def source : Source := { size := 1000, fourccAt := fun _ => some id }

def entries : List Entry := [⟨id, 0, 4, 8⟩, ⟨id, 0x10, 20, 8⟩]

end LateKey

end EspDevkit.Media.Avi
