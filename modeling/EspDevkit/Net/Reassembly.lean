import EspDevkit.Library.SwapRemove
import EspDevkit.Net.Assembler
import EspDevkit.Net.Ring
import EspDevkit.Net.Segment

/-!
# Reassembly of IPv4 fragments

At most four datagrams are put back together at a time.  A fragment that begins another
one takes the place of the oldest; a datagram is given up when it gets too large or longer
than its last fragment says.
-/

namespace EspDevkit.Net

open List

structure Ipv4 where
  src : Ipv4Addr
  dst : Ipv4Addr
  protocol : UInt8
  ident : UInt16
  frag : UInt16
  deriving DecidableEq

namespace Ipv4

def moreFragments (ip : Ipv4) : Bool := ip.frag &&& 0x2000 ≠ 0

def fragmentOffset (ip : Ipv4) : ℕ := (ip.frag &&& 0x1fff).toNat * 8

end Ipv4

def maxDatagram : ℕ := 16 * 1024
def maxPending : ℕ := 4
def reassemblyTimeout : Duration := .fromSecs 30

structure Pending where
  src : Ipv4Addr
  dst : Ipv4Addr
  protocol : UInt8
  ident : UInt16
  data : List UInt8
  /-- Received byte ranges, sorted and merged; `have` of the source. -/
  received : List (ℕ × ℕ)
  total : Option ℕ
  deadline : Instant
  deriving DecidableEq

def addRange (received : List (ℕ × ℕ)) (start stop : ℕ) : List (ℕ × ℕ) :=
  let (merged, kept) := Assembler.absorb (start, stop) received
  let pos := kept.findIdx fun r => merged.1 < r.1
  kept.take pos ++ merged :: kept.drop pos

namespace Pending

def new (ip : Ipv4) (deadline : Instant) : Pending where
  src := ip.src
  dst := ip.dst
  protocol := ip.protocol
  ident := ip.ident
  data := []
  received := []
  total := none
  deadline := deadline

/-- The closure `same`. -/
def same (ip : Ipv4) (p : Pending) : Bool :=
  p.src = ip.src ∧ p.dst = ip.dst ∧ p.protocol = ip.protocol ∧ p.ident = ip.ident

def complete (p : Pending) : Bool := p.total.any fun total => p.received = [(0, total)]

theorem isSome_total {p : Pending} (complete : p.complete) : p.total.isSome := by
  unfold Pending.complete at complete
  cases total : p.total with
  | none => rw [total] at complete; exact absurd complete nofun
  | some => rfl

/-- What `add` does to the datagram the fragment is of. -/
def write (p : Pending) (ip : Ipv4) (payload : List UInt8) : Pending :=
  let start := ip.fragmentOffset
  let stop := start + payload.length
  let data := p.data ++ List.replicate (stop - p.data.length) 0
  { p with
    total := if ip.moreFragments then p.total else some stop
    data := overwrite data start payload
    received := addRange p.received start stop }

end Pending

structure Reassembly where
  pending : List Pending

namespace Reassembly

def empty : Reassembly := ⟨[]⟩

def oldest (pending : List Pending) : ℕ := leastIdx (·.deadline) pending

structure Slot where
  pending : List Pending
  index : Fin pending.length

def slot (r : Reassembly) (ip : Ipv4) (now : Instant) : Slot :=
  match found : r.pending.findIdx? (·.same ip) with
  | some i => ⟨r.pending, i, (List.findIdx?_eq_some_iff_getElem.mp found).1⟩
  | none =>
    let room :=
      if maxPending ≤ r.pending.length then swapRemove r.pending (oldest r.pending)
      else r.pending
    ⟨room ++ [.new ip (now.plus reassemblyTimeout)], room.length, by simp⟩

/-- The whole payload once the last missing fragment arrives. -/
def add (r : Reassembly) (ip : Ipv4) (payload : List UInt8) (now : Instant) :
    Reassembly × Option (List UInt8) :=
  let stop := ip.fragmentOffset + payload.length
  let slot := r.slot ip now
  let p := slot.pending.get slot.index
  if maxDatagram < stop ∨ p.total.any (· < stop) then
    (⟨swapRemove slot.pending slot.index⟩, none)
  else
    let p := p.write ip payload
    let pending := slot.pending.set slot.index p
    if done : p.complete then
      (⟨swapRemove pending slot.index⟩, some (p.data.take (p.total.get (p.isSome_total done))))
    else (⟨pending⟩, none)

def nextDeadline (r : Reassembly) : Option Instant := (r.pending.map (·.deadline)).min?

/-- Drops what timed out and returns the next deadline. -/
def poll (r : Reassembly) (now : Instant) : Reassembly × Option Instant :=
  let r : Reassembly := ⟨r.pending.filter fun p => now < p.deadline⟩
  (r, r.nextDeadline)

end Reassembly

namespace Assembler

/-- Ranges that hold all of `n` bytes, and no other, are one. -/
theorem Ordered.eq_whole {ranges : List (ℕ × ℕ)} {n : ℕ} (ordered : Ordered ranges)
    (some : ranges ≠ []) (within : ∀ r ∈ ranges, r.2 ≤ n) (all : ∀ i < n, Holds ranges i) :
    ranges = [(0, n)] := by
  cases ranges with
  | nil => exact absurd rfl some
  | cons first others =>
    have later := (pairwise_cons.mp ordered.2).1
    have proper := ordered.1 first mem_cons_self
    have firstWithin := within first mem_cons_self
    -- an offset within the first range is not in any other
    have inFirst : ∀ i < n, i ≤ first.2 → first.1 ≤ i ∧ i < first.2 := by
      intro i lt le
      obtain ⟨r, mem, inside⟩ := all i lt
      rcases mem_cons.mp mem with rfl | mem
      · exact inside
      · have beyond := later r mem
        omega
    have front : first.1 = 0 := by
      by_contra gap
      have atStart := inFirst 0 (by omega) (Nat.zero_le _)
      omega
    have back : first.2 = n := by
      by_contra gap
      have atStop := inFirst first.2 (by omega) (Nat.le_refl _)
      omega
    have alone : others = [] := by
      refine eq_nil_iff_forall_not_mem.mpr fun r mem => ?_
      have beyond := later r mem
      have properToo := ordered.1 r (mem_cons_of_mem _ mem)
      have rWithin := within r (mem_cons_of_mem _ mem)
      omega
    rw [alone]
    exact congrArg (fun r => [r]) (Prod.ext front back)

end Assembler

theorem mem_insert_iff {kept : List (ℕ × ℕ)} {merged r : ℕ × ℕ} {pos : ℕ} :
    r ∈ kept.take pos ++ merged :: kept.drop pos ↔ r = merged ∨ r ∈ kept := by
  conv_rhs => rw [← take_append_drop pos kept]
  simp only [mem_append, mem_cons]
  tauto

/-- A range that is added to ordered ones is held with them, and nothing else is. -/
theorem addRange_spec {received : List (ℕ × ℕ)} {start stop limit : ℕ}
    (ordered : Assembler.Ordered received) (proper : start ≤ stop) (within : stop ≤ limit)
    (all : ∀ r ∈ received, r.2 ≤ limit) :
    Assembler.Ordered (addRange received start stop) ∧ addRange received start stop ≠ [] ∧
      (∀ r ∈ addRange received start stop, r.2 ≤ limit) ∧
      ∀ i, Assembler.Holds (addRange received start stop) i ↔
        (start ≤ i ∧ i < stop) ∨ Assembler.Holds received i := by
  have contains := Assembler.absorb_contains (start, stop) received
  have sublist := Assembler.absorb_sublist (start, stop) received
  have apart := @Assembler.absorb_apart (start, stop) _ ordered
  have covers := fun i => @Assembler.absorb_covers (start, stop) received i
  have keeps := fun i => @Assembler.absorb_keeps (start, stop) received i
  have upper := @Assembler.absorb_upper_bound limit (start, stop) _ within all
  unfold addRange
  generalize Assembler.absorb (start, stop) received = result at *
  obtain ⟨merged, kept⟩ := result
  dsimp only at contains sublist apart covers keeps upper ⊢
  refine ⟨Assembler.ordered_insert (by omega) (ordered.sublist sublist) apart, by simp, ?_, ?_⟩
  · intro r mem
    rcases mem_insert_iff.mp mem with rfl | mem
    · exact upper
    · exact all r (sublist.subset mem)
  · intro i
    constructor
    · rintro ⟨r, mem, low, high⟩
      rcases mem_insert_iff.mp mem with rfl | mem
      · exact covers i low high
      · exact .inr ⟨r, sublist.subset mem, low, high⟩
    · rintro (inside | held)
      · exact ⟨merged, mem_insert_iff.mpr (.inl rfl), by omega⟩
      · rcases keeps i held with inside | ⟨r, mem, inside⟩
        · exact ⟨merged, mem_insert_iff.mpr (.inl rfl), inside⟩
        · exact ⟨r, mem_insert_iff.mpr (.inr mem), inside⟩

abbrev Key := Ipv4Addr × Ipv4Addr × UInt8 × UInt16

def Ipv4.key (ip : Ipv4) : Key := (ip.src, ip.dst, ip.protocol, ip.ident)

def Pending.key (p : Pending) : Key := (p.src, p.dst, p.protocol, p.ident)

theorem Pending.same_iff {p : Pending} {ip : Ipv4} : p.same ip = true ↔ p.key = ip.key := by
  simp only [Pending.same, Pending.key, Ipv4.key, decide_eq_true_eq, Prod.mk.injEq]

@[simp]
theorem Pending.key_write (p : Pending) (ip : Ipv4) (payload : List UInt8) :
    (p.write ip payload).key = p.key := rfl

namespace Reassembly

def Unique (r : Reassembly) : Prop := (r.pending.map Pending.key).Nodup

def HasRoom (r : Reassembly) (ip : Ipv4) : Prop :=
  (∃ p ∈ r.pending, p.key = ip.key) ∨ r.pending.length < maxPending

structure At (r : Reassembly) (ip : Ipv4) (now : Instant) (p : Pending) (others : List Pending) :
    Prop where
  key : p.key = ip.key
  known : p ∈ r.pending ∨
    p = .new ip (now.plus reassemblyTimeout) ∧ ∀ q ∈ r.pending, q.key ≠ ip.key
  unique : (others.map Pending.key).Nodup
  apart : ∀ q ∈ others, q.key ≠ ip.key
  kept : ∀ q ∈ others, q ∈ r.pending
  all : r.HasRoom ip → ∀ q ∈ r.pending, q.key ≠ ip.key → q ∈ others

variable {r : Reassembly} {ip : Ipv4} {payload : List UInt8} {now : Instant}

theorem slot_cases (r : Reassembly) (ip : Ipv4) (now : Instant) :
    (∃ i, r.slot ip now = ⟨r.pending, i⟩ ∧ (r.pending.get i).key = ip.key) ∨
      ∃ room lt, r.slot ip now =
          ⟨room ++ [.new ip (now.plus reassemblyTimeout)], ⟨room.length, lt⟩⟩ ∧
        (∀ q ∈ r.pending, q.key ≠ ip.key) ∧ room.Subperm r.pending ∧
        (r.pending.length < maxPending → room = r.pending) := by
  unfold slot
  split
  · next i found =>
      obtain ⟨lt, here, -⟩ := List.findIdx?_eq_some_iff_getElem.mp found
      exact .inl ⟨⟨i, lt⟩, rfl, Pending.same_iff.mp here⟩
  · next none =>
      refine .inr ⟨if maxPending ≤ r.pending.length then
          swapRemove r.pending (oldest r.pending) else r.pending, by simp, rfl,
        fun q mem same => ?_, ?_, fun few => ?_⟩
      · have different := List.findIdx?_eq_none_iff.mp none q mem
        rw [Pending.same_iff.mpr same] at different
        exact absurd different nofun
      · split
        · next full =>
            refine swapRemove_least_subperm fun nothing => ?_
            rw [nothing] at full
            exact absurd full (by decide)
        · exact List.Subperm.refl _
      · exact if_neg (by omega)

theorem slot_spec (unique : r.Unique) (ip : Ipv4) (now : Instant) :
    At r ip now ((r.slot ip now).pending.get (r.slot ip now).index)
      ((r.slot ip now).pending.eraseIdx (r.slot ip now).index) := by
  rcases slot_cases r ip now with ⟨i, slot, key⟩ | ⟨room, lt, slot, none, fewer, whole⟩
  · rw [slot]
    dsimp only
    have perm := getElem_cons_eraseIdx_perm i.isLt
    have nodup := (perm.map Pending.key).nodup_iff.mpr unique
    rw [map_cons, nodup_cons] at nodup
    refine ⟨key, .inl (get_mem _ _), nodup.2, fun q mem same => ?_,
      fun q mem => mem_of_mem_eraseIdx mem, fun _ q mem other => ?_⟩
    · exact nodup.1 (key.symm ▸ same ▸ mem_map_of_mem mem)
    · rcases mem_cons.mp (perm.mem_iff.mpr mem) with rfl | mem
      · exact absurd key other
      · exact mem
  · rw [slot]
    dsimp only
    have erased : (room ++ [Pending.new ip (now.plus reassemblyTimeout)]).eraseIdx room.length =
        room := by
      rw [eraseIdx_append_of_length_le (Nat.le_refl _)]
      simp
    have got : (room ++ [Pending.new ip (now.plus reassemblyTimeout)]).get ⟨room.length, lt⟩ =
        .new ip (now.plus reassemblyTimeout) := by
      simp
    rw [erased, got]
    obtain ⟨among, perm, sublist⟩ := id fewer
    refine ⟨rfl, .inr ⟨rfl, none⟩,
      (perm.map Pending.key).nodup_iff.mp (unique.sublist (sublist.map Pending.key)),
      fun q mem => none q (fewer.subset mem), fun q mem => fewer.subset mem, ?_⟩
    rintro (⟨p, here, same⟩ | few) q mem -
    · exact absurd same (none p here)
    · rwa [whole few]

/-- The fragment does not belong to a datagram that can be put back together. -/
def TooLong (p : Pending) (ip : Ipv4) (payload : List UInt8) : Prop :=
  maxDatagram < ip.fragmentOffset + payload.length ∨
    ∃ total, p.total = some total ∧ total < ip.fragmentOffset + payload.length

inductive Added (p : Pending) (others : List Pending) (ip : Ipv4) (payload : List UInt8) :
    Reassembly × Option (List UInt8) → Prop
  | givenUp {r' : Reassembly} (long : TooLong p ip payload) (rest : r'.pending.Perm others) :
      Added p others ip payload (r', none)
  | whole {r' : Reassembly} {total : ℕ} (short : ¬TooLong p ip payload)
      (known : (p.write ip payload).total = some total)
      (all : (p.write ip payload).received = [(0, total)]) (rest : r'.pending.Perm others) :
      Added p others ip payload (r', some ((p.write ip payload).data.take total))
  | waits {r' : Reassembly} (short : ¬TooLong p ip payload)
      (gap : ∀ total, (p.write ip payload).total = some total →
        (p.write ip payload).received ≠ [(0, total)])
      (rest : r'.pending.Perm (p.write ip payload :: others)) :
      Added p others ip payload (r', none)

theorem add_cases (unique : r.Unique) (ip : Ipv4) (payload : List UInt8) (now : Instant) :
    ∃ p others, At r ip now p others ∧ Added p others ip payload (r.add ip payload now) := by
  refine ⟨_, _, slot_spec unique ip now, ?_⟩
  unfold add
  generalize r.slot ip now = slot
  obtain ⟨pending, index⟩ := slot
  dsimp only
  have removed : ∀ changed : List Pending, changed.length = pending.length →
      changed.eraseIdx index = pending.eraseIdx index →
      (swapRemove changed index).Perm (pending.eraseIdx index) := by
    intro changed length same
    have lt : index.val < changed.length := by
      rw [length]
      exact index.isLt
    rw [← same]
    exact ((swapRemove_perm lt).trans (getElem_cons_eraseIdx_perm lt).symm).cons_inv
  have long_iff : (maxDatagram < ip.fragmentOffset + payload.length ∨
      (pending.get index).total.any (· < ip.fragmentOffset + payload.length) = true) ↔
      TooLong (pending.get index) ip payload := by
    simp only [TooLong, Option.any_eq_true, decide_eq_true_eq]
  split
  · next long => exact .givenUp (long_iff.mp long) (removed pending rfl rfl)
  · next short =>
      rw [long_iff] at short
      split
      · next done =>
          unfold Pending.complete at done
          rw [Option.any_eq_true] at done
          obtain ⟨total, known, all⟩ := done
          have rest := removed (pending.set index ((pending.get index).write ip payload))
            (length_set ..) (eraseIdx_set_eq ..)
          simp only [known, Option.get_some]
          exact .whole short known (of_decide_eq_true all) rest
      · next gap =>
          refine .waits short (fun total known all => gap ?_)
            (set_perm_cons_eraseIdx index.isLt _)
          unfold Pending.complete
          rw [Option.any_eq_true]
          exact ⟨total, known, decide_eq_true all⟩

end Reassembly

structure Fragment where
  ip : Ipv4
  payload : List UInt8
  deriving DecidableEq

namespace Fragment

def stop (f : Fragment) : ℕ := f.ip.fragmentOffset + f.payload.length

def Covers (f : Fragment) (i : ℕ) : Prop := f.ip.fragmentOffset ≤ i ∧ i < f.stop

def Carries (f : Fragment) (i : ℕ) (b : UInt8) : Prop :=
  f.ip.fragmentOffset ≤ i ∧ f.payload[i - f.ip.fragmentOffset]? = some b

structure Of (f : Fragment) (whole : List UInt8) : Prop where
  within : f.stop ≤ whole.length
  bytes : ∀ i, f.Covers i → f.payload[i - f.ip.fragmentOffset]? = whole[i]?
  last : f.ip.moreFragments = false → f.stop = whole.length

instance (f : Fragment) (i : ℕ) : Decidable (f.Covers i) :=
  inferInstanceAs (Decidable (_ ∧ _))

theorem of_slice {f : Fragment} {whole : List UInt8}
    (slice : f.payload = (whole.drop f.ip.fragmentOffset).take f.payload.length)
    (within : f.stop ≤ whole.length)
    (last : f.ip.moreFragments = false → f.stop = whole.length) : f.Of whole where
  within := within
  bytes := fun i covers => by
    have above := covers.1
    have inside : i - f.ip.fragmentOffset < f.payload.length := by
      have below : i < f.ip.fragmentOffset + f.payload.length := covers.2
      omega
    rw [slice, List.getElem?_take_of_lt inside, List.getElem?_drop,
      Nat.add_sub_of_le above]
  last := last

end Fragment

namespace Pending

variable {p : Pending} {f : Fragment} {i : ℕ}

theorem getElem?_write_of_covers (covers : f.Covers i) :
    (p.write f.ip f.payload).data[i]? = f.payload[i - f.ip.fragmentOffset]? := by
  unfold write
  dsimp only
  rw [getElem?_overwrite]
  · exact if_pos covers
  · rw [length_append, length_replicate]
    omega

theorem getElem?_write {b : UInt8} (outside : ¬f.Covers i) (known : p.data[i]? = some b) :
    (p.write f.ip f.payload).data[i]? = some b := by
  obtain ⟨lt, -⟩ := List.getElem?_eq_some_iff.mp known
  unfold write
  dsimp only
  rw [getElem?_overwrite]
  · refine (if_neg outside).trans ?_
    rw [List.getElem?_append_left lt, known]
  · rw [length_append, length_replicate]
    omega

structure Carried (p : Pending) (frags : List Fragment) : Prop where
  ordered : Assembler.Ordered p.received
  total : ∀ total, p.total = some total →
    ∃ f ∈ frags, f.ip.moreFragments = false ∧ f.stop = total
  bytes : ∀ i, Assembler.Holds p.received i →
    ∃ f ∈ frags, ∃ b, f.Carries i b ∧ p.data[i]? = some b

theorem carried_new (ip : Ipv4) (deadline : Instant) (frags : List Fragment) :
    (new ip deadline).Carried frags where
  ordered := ⟨nofun, .nil⟩
  total := nofun
  bytes := by
    rintro i ⟨r, mem, -⟩
    exact absurd mem not_mem_nil

theorem Carried.mono {frags frags' : List Fragment} (carried : p.Carried frags)
    (more : ∀ f ∈ frags, f ∈ frags') : p.Carried frags' where
  ordered := carried.ordered
  total := fun total known => by
    obtain ⟨f, mem, last⟩ := carried.total total known
    exact ⟨f, more f mem, last⟩
  bytes := fun i held => by
    obtain ⟨f, mem, carries⟩ := carried.bytes i held
    exact ⟨f, more f mem, carries⟩

theorem exists_limit (received : List (ℕ × ℕ)) (stop : ℕ) :
    ∃ limit, stop ≤ limit ∧ ∀ r ∈ received, r.2 ≤ limit := by
  induction received with
  | nil => exact ⟨stop, Nat.le_refl _, nofun⟩
  | cons r received ih =>
    obtain ⟨limit, le, all⟩ := ih
    refine ⟨max limit r.2, by omega, fun s mem => ?_⟩
    rcases mem_cons.mp mem with rfl | mem
    · omega
    · have below := all s mem
      omega

theorem Carried.write {frags : List Fragment} (carried : p.Carried frags) (f : Fragment) :
    (p.write f.ip f.payload).Carried (f :: frags) := by
  obtain ⟨limit, within, all⟩ := exists_limit p.received f.stop
  obtain ⟨ordered, -, -, holds⟩ := addRange_spec carried.ordered
    (Nat.le_add_right f.ip.fragmentOffset f.payload.length) within all
  refine ⟨ordered, fun total known => ?_, fun i held => ?_⟩
  · change (if f.ip.moreFragments then p.total else some f.stop) = some total at known
    split at known
    · obtain ⟨g, mem, last⟩ := carried.total total known
      exact ⟨g, mem_cons_of_mem _ mem, last⟩
    · next last =>
        exact ⟨f, mem_cons_self, Bool.eq_false_iff.mpr last, Option.some.inj known⟩
  · by_cases covers : f.Covers i
    · have lt : i - f.ip.fragmentOffset < f.payload.length := by
        have inside := covers.2
        unfold Fragment.stop at inside
        have above := covers.1
        omega
      have here := List.getElem?_eq_getElem lt
      refine ⟨f, mem_cons_self, _, ⟨covers.1, here⟩, ?_⟩
      rw [getElem?_write_of_covers covers, here]
    · have before : Assembler.Holds p.received i := by
        rcases (holds i).mp held with inside | before
        · exact absurd inside covers
        · exact before
      obtain ⟨g, mem, b, carries, known⟩ := carried.bytes i before
      exact ⟨g, mem_cons_of_mem _ mem, b, carries, getElem?_write covers known⟩

/-- These fragments were all of a payload, and a datagram has what they carried. -/
structure Gathered (p : Pending) (whole : List UInt8) (frags : List Fragment) : Prop where
  ordered : Assembler.Ordered p.received
  within : ∀ r ∈ p.received, r.2 ≤ whole.length
  total : p.total = some whole.length ∧ (∃ f ∈ frags, f.ip.moreFragments = false) ∨
    p.total = none ∧ ∀ f ∈ frags, f.ip.moreFragments = true
  holds : ∀ i, Assembler.Holds p.received i ↔ ∃ f ∈ frags, f.Covers i
  bytes : ∀ i, Assembler.Holds p.received i → p.data[i]? = whole[i]?

theorem gathered_new (ip : Ipv4) (deadline : Instant) (whole : List UInt8) :
    (new ip deadline).Gathered whole [] where
  ordered := ⟨nofun, .nil⟩
  within := nofun
  total := .inr ⟨rfl, nofun⟩
  holds := fun i => by simp [new, Assembler.Holds]
  bytes := by
    rintro i ⟨r, mem, -⟩
    exact absurd mem not_mem_nil

variable {whole : List UInt8} {frags : List Fragment}

theorem Gathered.not_tooLong (gathered : p.Gathered whole frags) (consistent : f.Of whole)
    (small : whole.length ≤ maxDatagram) : ¬Reassembly.TooLong p f.ip f.payload := by
  have within : f.ip.fragmentOffset + f.payload.length ≤ whole.length := consistent.within
  rintro (long | ⟨total, known, long⟩)
  · omega
  · rcases gathered.total with ⟨same, -⟩ | ⟨none, -⟩
    · rw [known] at same
      cases same
      omega
    · rw [known] at none
      exact absurd none nofun

theorem Gathered.write (gathered : p.Gathered whole frags) (consistent : f.Of whole) :
    (p.write f.ip f.payload).Gathered whole (f :: frags) ∧
      (p.write f.ip f.payload).received ≠ [] := by
  obtain ⟨ordered, some_, within, holds⟩ := addRange_spec gathered.ordered
    (Nat.le_add_right f.ip.fragmentOffset f.payload.length) consistent.within gathered.within
  refine ⟨⟨ordered, within, ?_, fun i => ?_, fun i held => ?_⟩, some_⟩
  · change (if f.ip.moreFragments then p.total else some f.stop) = _ ∧ _ ∨
      (if f.ip.moreFragments then p.total else some f.stop) = _ ∧ _
    split
    · next more =>
        rcases gathered.total with ⟨known, g, mem, last⟩ | ⟨none, all⟩
        · exact .inl ⟨known, g, mem_cons_of_mem _ mem, last⟩
        · exact .inr ⟨none, forall_mem_cons.mpr ⟨more, all⟩⟩
    · next last =>
        have last := Bool.eq_false_iff.mpr last
        exact .inl ⟨congrArg some (consistent.last last), f, mem_cons_self, last⟩
  · refine (holds i).trans ?_
    rw [gathered.holds i, exists_mem_cons_iff]
    rfl
  · by_cases covers : f.Covers i
    · rw [getElem?_write_of_covers covers, consistent.bytes i covers]
    · have before : Assembler.Holds p.received i := by
        rcases (holds i).mp held with inside | before
        · exact absurd inside covers
        · exact before
      have known := gathered.bytes i before
      obtain ⟨r, mem, -, lt⟩ := before
      have inside : i < whole.length := lt.trans_le (gathered.within r mem)
      rw [List.getElem?_eq_getElem inside] at known ⊢
      exact getElem?_write covers known

end Pending

def Whole (whole : List UInt8) (frags : List Fragment) : Prop :=
  (∃ f ∈ frags, f.ip.moreFragments = false) ∧ ∀ i < whole.length, ∃ f ∈ frags, f.Covers i

instance (whole : List UInt8) (frags : List Fragment) : Decidable (Whole whole frags) :=
  inferInstanceAs (Decidable (_ ∧ _))

namespace Pending

variable {p : Pending} {whole : List UInt8} {frags : List Fragment}

theorem Gathered.complete_iff (gathered : p.Gathered whole frags) (some_ : p.received ≠ []) :
    (∃ total, p.total = some total ∧ p.received = [(0, total)]) ↔ Whole whole frags := by
  constructor
  · rintro ⟨total, known, all⟩
    rcases gathered.total with ⟨same, last⟩ | ⟨none, -⟩
    · refine ⟨last, fun i lt => (gathered.holds i).mp ?_⟩
      rw [known] at same
      cases same
      rw [all]
      exact ⟨_, mem_singleton_self _, Nat.zero_le i, lt⟩
    · rw [known] at none
      exact absurd none nofun
  · rintro ⟨⟨f, mem, last⟩, covered⟩
    rcases gathered.total with ⟨known, -⟩ | ⟨-, more⟩
    · refine ⟨_, known, gathered.ordered.eq_whole some_ gathered.within fun i lt => ?_⟩
      exact (gathered.holds i).mpr (covered i lt)
    · rw [more f mem] at last
      exact absurd last nofun

theorem Gathered.take_data (gathered : p.Gathered whole frags) (all : Whole whole frags) :
    p.data.take whole.length = whole := by
  apply ext_getElem?
  intro i
  rw [List.getElem?_take]
  split
  · next lt => exact gathered.bytes i ((gathered.holds i).mpr (all.2 i lt))
  · next past => exact (List.getElem?_eq_none (Nat.le_of_not_lt past)).symm

end Pending

end EspDevkit.Net
