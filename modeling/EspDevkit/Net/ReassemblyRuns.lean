import EspDevkit.Net.Reassembly

/-!
# What reassembly returns

A payload that is returned is made of what fragments of its datagram carried.
-/

namespace EspDevkit.Net.Reassembly

open List

inductive Event
  | add (ip : Ipv4) (payload : List UInt8) (now : Instant)
  | poll (now : Instant)
  deriving DecidableEq

def step (r : Reassembly) : Event → Reassembly × Option (List UInt8)
  | .add ip payload now => r.add ip payload now
  | .poll now => ((r.poll now).1, none)

abbrev History := List (Event × Option (List UInt8))

namespace History

def fragments (key : Key) : History → List Fragment
  | [] => []
  | (.add ip payload _, _) :: history =>
    if ip.key = key then ⟨ip, payload⟩ :: fragments key history else fragments key history
  | (.poll _, _) :: history => fragments key history

def sinceReturn (key : Key) : History → List Fragment
  | [] => []
  | (.add ip payload _, none) :: history =>
    if ip.key = key then ⟨ip, payload⟩ :: sinceReturn key history else sinceReturn key history
  | (.add ip _ _, some _) :: history => if ip.key = key then [] else sinceReturn key history
  | (.poll _, _) :: history => sinceReturn key history

end History

inductive Ran : History → Reassembly → Prop
  | start : Ran [] empty
  | step {history : History} {r : Reassembly} (ran : Ran history r) (event : Event) :
      Ran ((event, (r.step event).2) :: history) (r.step event).1

/-- The datagram of this key is not disturbed: there is room for all that are pending, its
fragments are consistent and it does not time out. -/
def Suits (key : Key) (whole : List UInt8) (r : Reassembly) : Event → Prop
  | .add ip payload _ => r.HasRoom ip ∧ (ip.key = key → Fragment.Of ⟨ip, payload⟩ whole)
  | .poll now => ∀ p ∈ r.pending, p.key = key → now < p.deadline

inductive Calm (key : Key) (whole : List UInt8) : History → Reassembly → Prop
  | start : Calm key whole [] empty
  | step {history : History} {r : Reassembly} (calm : Calm key whole history r) (event : Event)
      (suits : Suits key whole r event) :
      Calm key whole ((event, (r.step event).2) :: history) (r.step event).1

variable {history : History} {r : Reassembly} {key : Key} {whole : List UInt8}

theorem Calm.ran (calm : Calm key whole history r) : Ran history r := by
  induction calm with
  | start => exact .start
  | step _ event _ ih => exact ih.step event

variable {ip : Ipv4} {now : Instant} {others : List Pending} {p : Pending} {payload : List UInt8}

theorem unique_of_perm {r' : Reassembly} (found : At r ip now p others)
    {result : Option (List UInt8)}
    (added : Added p others ip payload (r', result)) : r'.Unique := by
  cases added with
  | givenUp _ rest => exact (rest.map Pending.key).nodup_iff.mpr found.unique
  | whole _ _ _ rest => exact (rest.map Pending.key).nodup_iff.mpr found.unique
  | waits _ _ rest =>
    refine (rest.map Pending.key).nodup_iff.mpr ?_
    rw [map_cons, nodup_cons]
    refine ⟨fun mem => ?_, found.unique⟩
    obtain ⟨q, other, same⟩ := mem_map.mp mem
    exact found.apart q other (same.trans found.key)

theorem History.mem_fragments_cons {entry : Event × Option (List UInt8)} {f : Fragment}
    (mem : f ∈ fragments key history) : f ∈ fragments key (entry :: history) := by
  obtain ⟨event, result⟩ := entry
  cases event with
  | add ip payload now =>
    unfold fragments
    split
    · exact mem_cons_of_mem _ mem
    · exact mem
  | poll => exact mem

theorem History.key_of_mem_fragments {f : Fragment} (mem : f ∈ fragments key history) :
    f.ip.key = key := by
  fun_induction fragments key history with
  | case1 => exact absurd mem not_mem_nil
  | case2 _ ip payload _ _ same ih =>
    rcases mem_cons.mp mem with rfl | mem
    · exact same
    · exact ih mem
  | case3 _ _ _ _ _ _ ih => exact ih mem
  | case4 _ _ _ ih => exact ih mem

theorem History.fragments_add (ip : Ipv4) (payload : List UInt8) (now : Instant)
    (result : Option (List UInt8)) :
    fragments ip.key ((.add ip payload now, result) :: history) =
      ⟨ip, payload⟩ :: fragments ip.key history := if_pos rfl

structure Kept (history : History) (r : Reassembly) : Prop where
  unique : r.Unique
  carried : ∀ p ∈ r.pending, p.Carried (history.fragments p.key)

theorem Kept.write (kept : Kept history r) (found : At r ip now p others) (payload : List UInt8)
    (result : Option (List UInt8)) :
    (p.write ip payload).Carried
      (History.fragments ip.key ((.add ip payload now, result) :: history)) := by
  rw [History.fragments_add]
  rcases found.known with mem | ⟨rfl, -⟩
  · have carried := kept.carried p mem
    rw [found.key] at carried
    have written := carried.write ⟨ip, payload⟩
    exact written
  · have fresh := Pending.carried_new ip (now.plus reassemblyTimeout) (history.fragments ip.key)
    have written := fresh.write ⟨ip, payload⟩
    exact written

theorem Kept.step (kept : Kept history r) (event : Event) :
    Kept ((event, (r.step event).2) :: history) (r.step event).1 := by
  cases event with
  | add ip payload now =>
    obtain ⟨p, others, found, added⟩ := add_cases kept.unique ip payload now
    have written := kept.write found payload (r.add ip payload now).2
    have rest : ∀ q ∈ others, q.Carried
        (History.fragments q.key ((.add ip payload now, (r.add ip payload now).2) :: history)) :=
      fun q mem => (kept.carried q (found.kept q mem)).mono fun f => History.mem_fragments_cons
    refine ⟨unique_of_perm found added, ?_⟩
    change ∀ q ∈ (r.add ip payload now).1.pending, _
    unfold Reassembly.step
    generalize r.add ip payload now = result at *
    cases added with
    | givenUp _ perm => exact fun q mem => rest q (perm.mem_iff.mp mem)
    | whole _ _ _ perm => exact fun q mem => rest q (perm.mem_iff.mp mem)
    | waits _ _ perm =>
      intro q mem
      rcases mem_cons.mp (perm.mem_iff.mp mem) with rfl | mem
      · rw [Pending.key_write, found.key]
        exact written
      · exact rest q mem
  | poll now =>
    refine ⟨kept.unique.sublist (filter_sublist.map _), fun q mem => ?_⟩
    exact kept.carried q (mem_of_mem_filter mem)

theorem Ran.kept (ran : Ran history r) : Kept history r := by
  induction ran with
  | start => exact ⟨nodup_nil, nofun⟩
  | step _ event ih => exact ih.step event

structure Collects (key : Key) (whole : List UInt8) (history : History) (r : Reassembly) :
    Prop where
  unique : r.Unique
  gathered : ∀ p ∈ r.pending, p.key = key → p.Gathered whole (history.sinceReturn key)
  absent : (∀ p ∈ r.pending, p.key ≠ key) → history.sinceReturn key = []

theorem Collects.write (collects : Collects key whole history r) (found : At r ip now p others)
    (same : ip.key = key) (consistent : Fragment.Of ⟨ip, payload⟩ whole) :
    p.Gathered whole (history.sinceReturn key) ∧
      (p.write ip payload).Gathered whole (⟨ip, payload⟩ :: history.sinceReturn key) ∧
      (p.write ip payload).received ≠ [] := by
  have before : p.Gathered whole (history.sinceReturn key) := by
    rcases found.known with mem | ⟨rfl, none⟩
    · exact collects.gathered p mem (found.key.trans same)
    · rw [collects.absent fun q mem => same ▸ none q mem]
      exact Pending.gathered_new ip _ whole
  have written := before.write consistent
  exact ⟨before, written⟩

theorem History.sinceReturn_other (other : ip.key ≠ key) (payload : List UInt8)
    (now : Instant) (result : Option (List UInt8)) :
    sinceReturn key ((.add ip payload now, result) :: history) = sinceReturn key history := by
  cases result with
  | none => exact if_neg other
  | some whole => exact if_neg other

theorem Collects.step (collects : Collects key whole history r)
    (small : whole.length ≤ maxDatagram) {event : Event} (suits : Suits key whole r event) :
    Collects key whole ((event, (r.step event).2) :: history) (r.step event).1 := by
  cases event with
  | add ip payload now =>
    obtain ⟨room, consistent⟩ := suits
    obtain ⟨p, others, found, added⟩ := add_cases collects.unique ip payload now
    have unique : (r.add ip payload now).1.Unique := unique_of_perm found added
    have all := found.all room
    unfold Reassembly.step
    by_cases same : ip.key = key
    · obtain ⟨before, written, -⟩ := collects.write found same (consistent same)
      have short := before.not_tooLong (consistent same) small
      have apart : ∀ q ∈ others, q.key ≠ key := fun q mem => same ▸ found.apart q mem
      dsimp only
      generalize r.add ip payload now = result at *
      cases added with
      | givenUp long => exact absurd long short
      | whole _ _ _ perm =>
        refine ⟨unique, fun q mem here => ?_, fun _ => if_pos same⟩
        exact absurd here (apart q (perm.mem_iff.mp mem))
      | waits _ _ perm =>
        have one : History.sinceReturn key ((.add ip payload now, none) :: history) =
            ⟨ip, payload⟩ :: history.sinceReturn key := if_pos same
        refine ⟨unique, fun q mem here => ?_, fun none => ?_⟩
        · rw [one]
          rcases mem_cons.mp (perm.mem_iff.mp mem) with rfl | mem
          · exact written
          · exact absurd here (apart q mem)
        · exact absurd (show (p.write ip payload).key = key from found.key.trans same)
            (none _ (perm.mem_iff.mpr mem_cons_self))
    · -- what is pending of the datagram stays among the others
      have stays : ∀ q : Pending, q.key = key →
          (q ∈ (r.add ip payload now).1.pending ↔ q ∈ r.pending) := by
        intro q here
        have other : q.key ≠ ip.key := fun there => same (there.symm.trans here)
        have among : q ∈ others ↔ q ∈ r.pending :=
          ⟨found.kept q, fun mem => all q mem other⟩
        generalize r.add ip payload now = result at *
        cases added with
        | givenUp _ perm => exact perm.mem_iff.trans among
        | whole _ _ _ perm => exact perm.mem_iff.trans among
        | waits _ _ perm =>
          refine perm.mem_iff.trans (mem_cons.trans (Iff.trans ?_ among))
          refine or_iff_right fun written => other ?_
          rw [written, Pending.key_write, found.key]
      refine ⟨unique, fun q mem here => ?_, fun none => ?_⟩
      · rw [History.sinceReturn_other same]
        exact collects.gathered q ((stays q here).mp mem) here
      · rw [History.sinceReturn_other same]
        exact collects.absent fun q mem here => none q ((stays q here).mpr mem) here
  | poll now =>
    refine ⟨collects.unique.sublist (filter_sublist.map _), fun q mem here => ?_,
      fun none => ?_⟩
    · exact collects.gathered q (mem_of_mem_filter mem) here
    · refine collects.absent fun q mem here => none q ?_ here
      exact mem_filter.mpr ⟨mem, decide_eq_true (suits q mem here)⟩

theorem Calm.collects (calm : Calm key whole history r) (small : whole.length ≤ maxDatagram) :
    Collects key whole history r := by
  induction calm with
  | start => exact ⟨nodup_nil, nofun, fun _ => rfl⟩
  | step _ event suits ih => exact ih.step small suits

/-- A fragment of the datagram: the payload is returned as it leaves no gap. -/
theorem Collects.add_eq (collects : Collects key whole history r)
    (small : whole.length ≤ maxDatagram)
    (same : ip.key = key) (consistent : Fragment.Of ⟨ip, payload⟩ whole) :
    (Whole whole (⟨ip, payload⟩ :: history.sinceReturn key) →
        (r.add ip payload now).2 = some whole) ∧
      (¬Whole whole (⟨ip, payload⟩ :: history.sinceReturn key) →
        (r.add ip payload now).2 = none) := by
  obtain ⟨p, others, found, added⟩ := add_cases collects.unique ip payload now
  obtain ⟨before, written, some_⟩ := collects.write found same consistent
  have complete := written.complete_iff some_
  have short := before.not_tooLong consistent small
  generalize r.add ip payload now = result at *
  cases added with
  | givenUp long => exact absurd long short
  | whole _ known all =>
    have full := complete.mp ⟨_, known, all⟩
    refine ⟨fun _ => ?_, fun gap => absurd full gap⟩
    rcases written.total with ⟨length, -⟩ | ⟨none, -⟩
    · rw [known] at length
      cases length
      exact congrArg some (written.take_data full)
    · rw [known] at none
      exact absurd none nofun
  | waits _ gap =>
    refine ⟨fun full => ?_, fun _ => rfl⟩
    obtain ⟨total, known, all⟩ := complete.mpr full
    exact absurd all (gap total known)

/-- Reassembly is exact.  Of a payload that is returned, a last fragment fixed the length, and
fragments of the same datagram carried each byte where it is.  While a datagram is not
disturbed, its payload is returned at the fragment with which those since the last return
leave no gap, and at no other. -/
theorem reassembly_exact :
    (∀ history r, Ran history r → ∀ ip payload now whole,
      (r.add ip payload now).2 = some whole →
        (∃ f ∈ ⟨ip, payload⟩ :: history.fragments ip.key,
          f.ip.key = ip.key ∧ f.ip.moreFragments = false ∧ f.stop = whole.length) ∧
        ∀ i b, whole[i]? = some b → ∃ f ∈ ⟨ip, payload⟩ :: history.fragments ip.key,
          f.ip.key = ip.key ∧ f.Carries i b) ∧
    (∀ key whole history r, Calm key whole history r → whole.length ≤ maxDatagram →
      ∀ ip payload now, Suits key whole r (.add ip payload now) → ip.key = key →
        (Whole whole (⟨ip, payload⟩ :: history.sinceReturn key) →
          (r.add ip payload now).2 = some whole) ∧
        (¬Whole whole (⟨ip, payload⟩ :: history.sinceReturn key) →
          (r.add ip payload now).2 = none)) := by
  constructor
  · intro history r ran ip payload now whole returned
    have kept := ran.kept
    have ofKey : ∀ f ∈ (⟨ip, payload⟩ :: history.fragments ip.key : List Fragment),
        f.ip.key = ip.key := by
      intro f mem
      rcases mem_cons.mp mem with rfl | mem
      · rfl
      · exact History.key_of_mem_fragments mem
    obtain ⟨p, others, found, added⟩ := add_cases kept.unique ip payload now
    have carried := kept.write found payload none
    rw [History.fragments_add] at carried
    generalize r.add ip payload now = result at *
    cases added with
    | givenUp => exact absurd returned nofun
    | waits => exact absurd returned nofun
    | @whole r' total _ known all =>
      cases returned
      have bytes := fun i (lt : i < total) =>
        carried.bytes i (all ▸ ⟨_, mem_singleton_self _, Nat.zero_le i, lt⟩)
      have filled : total ≤ (p.write ip payload).data.length := by
        by_contra short
        obtain ⟨f, -, b, -, there⟩ := bytes (total - 1) (by omega)
        obtain ⟨lt, -⟩ := List.getElem?_eq_some_iff.mp there
        omega
      refine ⟨?_, fun i b here => ?_⟩
      · obtain ⟨f, mem, last, stop⟩ := carried.total total known
        refine ⟨f, mem, ofKey f mem, last, ?_⟩
        rw [length_take, Nat.min_eq_left filled, stop]
      · rw [List.getElem?_take] at here
        split at here
        · next lt =>
            obtain ⟨f, mem, b', carries, there⟩ := bytes i lt
            rw [here] at there
            cases there
            exact ⟨f, mem, ofKey f mem, carries⟩
        · exact absurd here nofun
  · intro key whole history r calm small ip payload now suits same
    exact (calm.collects small).add_eq small same (suits.2 same)

def firstHalf : Ipv4 := ⟨0x0a000001, 0x0a000002, 17, 42, 0x2000⟩

def lastHalf : Ipv4 := { firstHalf with frag := 1 }

def nineBytes : List UInt8 := [1, 2, 3, 4, 5, 6, 7, 8, 9]

theorem firstHalf_of : Fragment.Of ⟨firstHalf, nineBytes.take 8⟩ nineBytes :=
  Fragment.of_slice (by decide) (by decide) (by decide)

theorem lastHalf_of : Fragment.Of ⟨lastHalf, nineBytes.drop 8⟩ nineBytes :=
  Fragment.of_slice (by decide) (by decide) (by decide)

/-- The last fragment first. -/
theorem reassembly_exact_two :
    (((empty.step (.add lastHalf (nineBytes.drop 8) 0)).1).add firstHalf (nineBytes.take 8) 7).2 =
        some nineBytes ∧
      ∃ f ∈ ([⟨firstHalf, nineBytes.take 8⟩, ⟨lastHalf, nineBytes.drop 8⟩] : List Fragment),
        f.ip.key = firstHalf.key ∧ f.ip.moreFragments = false ∧ f.stop = 9 := by
  have calm : Calm firstHalf.key nineBytes _ _ :=
    Calm.start.step (.add lastHalf (nineBytes.drop 8) 0) ⟨.inr (by decide), fun _ => lastHalf_of⟩
  have returned := ((reassembly_exact.2 _ _ _ _ calm (by decide) firstHalf (nineBytes.take 8) 7
    ⟨.inr (by decide), fun _ => firstHalf_of⟩ rfl).1 (by decide))
  exact ⟨returned, (reassembly_exact.1 _ _ calm.ran firstHalf _ 7 _ returned).1⟩

/-- Fragments that come again after their datagram was returned return it again. -/
theorem returned_twice :
    ¬∀ history r, Calm firstHalf.key nineBytes history r →
      history.countP (fun entry => entry.2 = some nineBytes) ≤ 1 := by
  intro once
  have first : Calm firstHalf.key nineBytes _ _ := Calm.start.step
    (.add firstHalf (nineBytes.take 8) 0) ⟨.inr (by decide), fun _ => firstHalf_of⟩
  have returned := first.step (.add lastHalf (nineBytes.drop 8) 0)
    ⟨.inr (by decide), fun _ => lastHalf_of⟩
  have again := returned.step (.add firstHalf (nineBytes.take 8) 0)
    ⟨.inr (by decide), fun _ => firstHalf_of⟩
  have twice := again.step (.add lastHalf (nineBytes.drop 8) 0)
    ⟨.inr (by decide), fun _ => lastHalf_of⟩
  exact absurd (once _ _ twice) (by decide)

end EspDevkit.Net.Reassembly
