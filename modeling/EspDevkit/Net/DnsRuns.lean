import EspDevkit.Library.Transition
import EspDevkit.Net.DnsLookup

/-!
# Lookups that share their queries

A lookup reads the cache and waits; the queries and the aliases after them are followed by
one task for each name in flight, whose result all that wait for it get.
-/

namespace EspDevkit.Net.Dns

open List

/-- Where the task of a name in flight is, each phase up to its next lock. -/
inductive Phase
  | asking (name : Name) (aliases : ℕ)
  | waiting (name : Name) (aliases : ℕ) (generation : UInt32)
  | following (target : Name) (aliases : ℕ)
  | done (resolved : Resolved)
  | removed (resolved : Resolved)
  | finished (resolved : Resolved)

/-- A name in flight: its slot, which is set when the task has finished. -/
structure InFlight where
  name : Name
  phase : Phase

/-- A call of `lookup_in`. -/
inductive Caller
  | waiting (host : Name) (aliases slot : ℕ)
  | returned (host : Name) (result : Except LookupError (List Ipv4Addr))
  deriving DecidableEq

structure State where
  generation : UInt32
  now : Instant
  cache : Cache
  pending : List (Name × ℕ)
  /-- All names that ever were in flight. -/
  slots : List InFlight
  callers : List Caller
  /-- An alias counter overflowed. -/
  overflowed : Bool

def localhost : Name := [108, 111, 99, 97, 108, 104, 111, 115, 116]

def localhostAddr : Ipv4Addr := 0x7f000001

inductive Event
  | changeServers
  | pass (time : ℕ)
  | lookup (host : Name)
  | query (slot : ℕ)
  | respond (slot : ℕ) (outcome : Except LookupError Response)
  | follow (slot : ℕ)
  | remove (slot : ℕ)
  | finish (slot : ℕ)
  | wake (caller : ℕ)

def Event.slot : Event → Option ℕ
  | .query slot | .respond slot _ | .follow slot | .remove slot | .finish slot => some slot
  | .changeServers | .pass _ | .lookup _ | .wake _ => none

namespace State

/-- Joins the lookup of `name` in flight, or starts one. -/
def join (s : State) (name : Name) : State × ℕ :=
  match s.pending.find? (·.1 = name) with
  | some (_, slot) => (s, slot)
  | none =>
    ({ s with
        pending := s.pending ++ [(name, s.slots.length)]
        slots := s.slots ++ [⟨name, .asking name 0⟩] }, s.slots.length)

/-- `lookup_in`, of a name, up to where it waits. -/
def lookupIn (s : State) (host : Name) : State :=
  if host = localhost then
    { s with callers := s.callers ++ [.returned host (.ok [localhostAddr])] }
  else
    match fromCache s.cache s.generation s.now host 0 with
    | none => { s with overflowed := true }
    | some ⟨cache, .done result, _⟩ =>
      { s with cache, callers := s.callers ++ [.returned host result] }
    | some ⟨cache, .ask name, aliases⟩ =>
      let (s, slot) := { s with cache }.join name
      { s with callers := s.callers ++ [.waiting host aliases slot] }

def enter (s : State) (slot : ℕ) (phase : Phase) : State :=
  { s with slots := s.slots.modify slot ({ · with phase }) }

end State

/-- What `resolve` makes of an answer. -/
def settle (aliases : ℕ) (record : Record) : Phase :=
  if maxAliases < aliases then .done (.error .notFound, aliases)
  else
    match record with
    | .addrs addrs => .done (.ok addrs, aliases)
    | .missing => .done (.error .notFound, aliases)
    | .aliasOf target => .following target aliases

namespace State

def respond (s : State) (slot : ℕ) (name : Name) (aliases : ℕ) (generation : UInt32) :
    Except LookupError Response → State
  | .error error => s.enter slot (.done (.error error, aliases))
  | .ok response =>
    match response.answer name with
    | none => { s with overflowed := true }
    | some (steps, answer) =>
      let cache := cacheSteps s.cache steps generation s.generation s.now
      match add8 aliases answer.aliases with
      | none => { s with overflowed := true }
      | some aliases => { s with cache }.enter slot (settle aliases answer.record)

def follow (s : State) (slot : ℕ) (target : Name) (aliases : ℕ) : State :=
  match fromCache s.cache s.generation s.now target aliases with
  | none => { s with overflowed := true }
  | some ⟨cache, .done result, aliases⟩ => { s with cache }.enter slot (.done (result, aliases))
  | some ⟨cache, .ask name, aliases⟩ => { s with cache }.enter slot (.asking name aliases)

def wake (s : State) (caller : ℕ) (host : Name) (aliases : ℕ) : Resolved → State
  | (result, more) =>
    match add8 aliases more with
    | none => { s with overflowed := true }
    | some total =>
      let result := if maxAliases < total then .error .notFound else result
      { s with callers := s.callers.set caller (.returned host result) }

def phaseOf (s : State) (slot : ℕ) : Option Phase := s.slots[slot]?.map (·.phase)

def step (s : State) : Event → Option State
  | .changeServers => some { s with generation := s.generation + 1 }
  | .pass time => some { s with now := s.now + time }
  | .lookup host => some (s.lookupIn host)
  | .query slot =>
    match s.phaseOf slot with
    | some (.asking name aliases) => some (s.enter slot (.waiting name aliases s.generation))
    | _ => none
  | .respond slot outcome =>
    match s.phaseOf slot with
    | some (.waiting name aliases generation) =>
      some (s.respond slot name aliases generation outcome)
    | _ => none
  | .follow slot =>
    match s.phaseOf slot with
    | some (.following target aliases) => some (s.follow slot target aliases)
    | _ => none
  | .remove slot =>
    match s.phaseOf slot with
    | some (.done resolved) =>
      some ({ s with pending := s.pending.filter (·.2 ≠ slot) }.enter slot (.removed resolved))
    | _ => none
  | .finish slot =>
    match s.phaseOf slot with
    | some (.removed resolved) => some (s.enter slot (.finished resolved))
    | _ => none
  | .wake caller =>
    match s.callers[caller]? with
    | some (.waiting host aliases slot) =>
      match s.phaseOf slot with
      | some (.finished resolved) => some (s.wake caller host aliases resolved)
      | _ => none
    | _ => none

end State

def Phase.left : Phase → ℕ
  | .asking _ aliases => 3 * (maxAliases + 1 - aliases) + 4
  | .waiting _ aliases _ => 3 * (maxAliases + 1 - aliases) + 3
  | .following _ aliases => 3 * (maxAliases + 1 - aliases) + 5
  | .done _ => 2
  | .removed _ => 1
  | .finished _ => 0

def State.left (s : State) (caller : ℕ) : ℕ :=
  match s.callers[caller]? with
  | some (.waiting _ _ slot) => 1 + ((s.phaseOf slot).map Phase.left).getD 0
  | _ => 0

section Zone

variable (zone : Zone)

/-- Before the first lookup, whatever the cache tells of the names. -/
structure State.Fresh (s : State) : Prop where
  cache : s.cache.Truthful zone
  pending : s.pending = []
  slots : s.slots = []
  callers : s.callers = []
  overflowed : s.overflowed = false

def Answered (s : State) : Event → Prop
  | .respond slot outcome => ∃ response, outcome = .ok response ∧
      ∀ name aliases generation, s.phaseOf slot = some (.waiting name aliases generation) →
        response.Truthful zone name
  | _ => True

/-- What a lookup of the name is to return: the addresses its chain ends with if few enough
aliases lead to them, and that there are none otherwise. -/
def Returns (host : Name) (result : Except LookupError (List Ipv4Addr)) : Prop :=
  (∃ aliases ≤ maxAliases, ∃ addrs, LeadsTo zone host aliases addrs ∧ result = .ok addrs) ∨
    NotFound zone host ∧ result = .error .notFound

def Phase.Fits (name : Name) : Phase → Prop
  | .asking current aliases | .waiting current aliases _ | .following current aliases =>
    Chain.Path zone aliases name current ∧ aliases ≤ maxAliases
  | .done resolved | .removed resolved | .finished resolved =>
    Settled zone name resolved ∧ resolved.2 ≤ 2 * maxAliases + 1

def Caller.Fits (slots : List InFlight) : Caller → Prop
  | .waiting host aliases slot => aliases ≤ maxAliases ∧
      ∃ inFlight, slots[slot]? = some inFlight ∧ Chain.Path zone aliases host inFlight.name
  | .returned host result => host ≠ localhost → Returns zone host result

structure State.Sound (s : State) : Prop where
  cache : s.cache.Truthful zone
  pending : ∀ entry ∈ s.pending, ∃ inFlight,
    s.slots[entry.2]? = some inFlight ∧ inFlight.name = entry.1
  slots : ∀ inFlight ∈ s.slots, inFlight.phase.Fits zone inFlight.name
  callers : ∀ caller ∈ s.callers, caller.Fits zone s.slots
  overflowed : s.overflowed = false

variable {zone : Zone} {s : State}

def SameNames (slots slots' : List InFlight) : Prop :=
  ∀ (i : ℕ) (f : InFlight), slots[i]? = some f →
    ∃ f' : InFlight, slots'[i]? = some f' ∧ f'.name = f.name

theorem Caller.Fits.mono {slots slots' : List InFlight} {caller : Caller}
    (fits : caller.Fits zone slots) (same : SameNames slots slots') :
    caller.Fits zone slots' := by
  cases caller with
  | waiting host aliases slot =>
    obtain ⟨few, f, here, path⟩ := fits
    obtain ⟨f', here', name⟩ := same slot f here
    exact ⟨few, f', here', name ▸ path⟩
  | returned => exact fits

theorem State.sameNames_enter (s : State) (slot : ℕ) (phase : Phase) :
    SameNames s.slots (s.enter slot phase).slots := by
  intro i f here
  unfold State.enter
  dsimp only
  rw [List.getElem?_modify, here]
  refine ⟨_, rfl, ?_⟩
  dsimp only
  split <;> rfl

theorem State.Sound.fits (sound : s.Sound zone) {slot : ℕ} {phase : Phase}
    (at_ : s.phaseOf slot = some phase) :
    ∃ f, s.slots[slot]? = some f ∧ f.phase = phase ∧ phase.Fits zone f.name := by
  unfold State.phaseOf at at_
  obtain ⟨f, here, rfl⟩ := Option.map_eq_some_iff.mp at_
  exact ⟨f, here, rfl, sound.slots f (mem_of_getElem? here)⟩

theorem State.Sound.enter (sound : s.Sound zone) {slot : ℕ} {phase : Phase}
    (fits : ∀ f, s.slots[slot]? = some f → phase.Fits zone f.name) :
    (s.enter slot phase).Sound zone where
  cache := sound.cache
  pending := fun entry mem => by
    obtain ⟨f, here, name⟩ := sound.pending entry mem
    obtain ⟨f', here', name'⟩ := s.sameNames_enter slot phase entry.2 f here
    exact ⟨f', here', name'.trans name⟩
  slots := fun f mem => by
    obtain ⟨i, lt, rfl⟩ := mem_iff_getElem.mp mem
    unfold State.enter at lt ⊢
    dsimp only at lt ⊢
    rw [length_modify] at lt
    rw [getElem_modify]
    split
    · next same =>
        subst same
        exact fits s.slots[slot] (List.getElem?_eq_getElem lt)
    · exact sound.slots _ (getElem_mem lt)
  callers := fun caller mem =>
    Caller.Fits.mono (sound.callers caller mem) (s.sameNames_enter slot phase)
  overflowed := sound.overflowed

theorem State.Sound.withCache (sound : s.Sound zone) {cache : Cache}
    (truthful : cache.Truthful zone) : ({ s with cache } : State).Sound zone :=
  { sound with cache := truthful }

theorem State.Sound.call (sound : s.Sound zone) {caller : Caller}
    (fits : caller.Fits zone s.slots) :
    ({ s with callers := s.callers ++ [caller] } : State).Sound zone :=
  { sound with
    callers := fun other mem => by
      rcases mem_append.mp mem with mem | mem
      · exact sound.callers other mem
      · rw [mem_singleton.mp mem]
        exact fits }

theorem State.Sound.join (sound : s.Sound zone) (name : Name) :
    (s.join name).1.Sound zone ∧
      ∃ f, (s.join name).1.slots[(s.join name).2]? = some f ∧ f.name = name := by
  unfold State.join
  split
  · next other slot found =>
      have mem := mem_of_find?_eq_some found
      have same := List.find?_some found
      rw [decide_eq_true_eq] at same
      obtain ⟨f, here, name'⟩ := sound.pending _ mem
      exact ⟨sound, f, here, name'.trans same⟩
  · have grown : SameNames s.slots (s.slots ++ [⟨name, .asking name 0⟩]) := by
      intro i f here
      obtain ⟨lt, -⟩ := List.getElem?_eq_some_iff.mp here
      exact ⟨f, by rw [List.getElem?_append_left lt, here], rfl⟩
    have last : (s.slots ++ [⟨name, .asking name 0⟩])[s.slots.length]? =
        some ⟨name, .asking name 0⟩ := by simp
    refine ⟨⟨sound.cache, ?_, ?_,
      fun caller mem => Caller.Fits.mono (sound.callers caller mem) grown,
      sound.overflowed⟩, _, last, rfl⟩
    · intro entry mem
      rcases mem_append.mp mem with mem | mem
      · obtain ⟨f, here, name'⟩ := sound.pending entry mem
        obtain ⟨f', here', same⟩ := grown _ _ here
        exact ⟨f', here', same.trans name'⟩
      · rw [mem_singleton.mp mem]
        exact ⟨_, last, rfl⟩
    · intro f mem
      rcases mem_append.mp mem with mem | mem
      · exact sound.slots f mem
      · rw [mem_singleton.mp mem]
        exact ⟨.refl name, Nat.zero_le _⟩

theorem returns_of_settled {host : Name} {result : Except LookupError (List Ipv4Addr)}
    {aliases : ℕ} (settled : Settled zone host (result, aliases))
    (few : ∀ addrs, result = .ok addrs → aliases ≤ maxAliases) : Returns zone host result := by
  cases result with
  | ok addrs => exact .inl ⟨aliases, few addrs rfl, addrs, settled, rfl⟩
  | error error =>
    obtain ⟨rfl, none⟩ := settled
    exact .inr ⟨none, rfl⟩

theorem State.Sound.lookupIn (sound : s.Sound zone) (host : Name) :
    (s.lookupIn host).Sound zone := by
  unfold State.lookupIn
  split
  · next same => exact sound.call fun other => absurd same other
  · obtain ⟨⟨cache, step, aliases⟩, found, truthful, -, -, spec⟩ :=
      fromCache_spec sound.cache s.generation s.now (.refl host) (Nat.zero_le _)
    rw [found]
    cases step with
    | done result =>
      exact (sound.withCache truthful).call fun _ => returns_of_settled spec.1 spec.2
    | ask name =>
      obtain ⟨joined, f, here, same⟩ := (sound.withCache truthful).join name
      exact joined.call ⟨spec.1, f, here, same ▸ spec.2⟩

variable {name asked : Name} {aliases : ℕ}

/-- What an event comes to: a task goes on to a phase that fits and has less left. -/
inductive Moves (zone : Zone) (s : State) : Event → State → Prop
  | changeServers : Moves zone s .changeServers { s with generation := s.generation + 1 }
  | pass (time : ℕ) : Moves zone s (.pass time) { s with now := s.now + time }
  | lookup (host : Name) : Moves zone s (.lookup host) (s.lookupIn host)
  | task {event : Event} {slot : ℕ} {f : InFlight} {phase : Phase} {cache : Cache}
      {pending : List (Name × ℕ)} (of : event.slot = some slot)
      (here : s.slots[slot]? = some f) (truthful : cache.Truthful zone)
      (fewer : ∀ entry ∈ pending, entry ∈ s.pending) (fits : phase.Fits zone f.name)
      (less : phase.left < f.phase.left) :
      Moves zone s event (({ s with cache, pending } : State).enter slot phase)
  | wake {caller slot : ℕ} {host : Name} {aliases : ℕ} {resolved : Resolved}
      (waits : s.callers[caller]? = some (.waiting host aliases slot))
      (at_ : s.phaseOf slot = some (.finished resolved)) :
      Moves zone s (.wake caller) (s.wake caller host aliases resolved)

theorem settle_fits (path : Chain.Path zone aliases name asked) (few : aliases ≤ maxAliases)
    {answer : Answer} (on : answer.On zone asked) (generation : UInt32) :
    (settle (aliases + answer.aliases) answer.record).Fits zone name ∧
      (settle (aliases + answer.aliases) answer.record).left <
        (Phase.waiting asked aliases generation).left := by
  obtain ⟨bounded, stop, further, record⟩ := on
  have reached := path.trans further
  have counted : aliases + answer.aliases ≤ 2 * maxAliases + 1 := by omega
  unfold settle
  split
  · next many =>
      refine ⟨⟨⟨rfl, notFound_of_many reached many⟩, counted⟩, ?_⟩
      simp only [Phase.left]
      omega
  · next some_ =>
      split
      · next addrs same =>
          rw [same] at record
          refine ⟨⟨leadsTo_of_tells reached record, counted⟩, ?_⟩
          simp only [Phase.left]
          omega
      · next same =>
          rw [same] at record
          refine ⟨⟨⟨rfl, notFound_of_missing reached record⟩, counted⟩, ?_⟩
          simp only [Phase.left]
          omega
      · next target same =>
          rw [same] at record
          obtain ⟨rfl, further⟩ := record
          refine ⟨⟨reached, Nat.le_of_not_lt some_⟩, ?_⟩
          simp only [Phase.left]
          omega

theorem add8_eq {a b : ℕ} (first : a ≤ maxAliases) (second : b ≤ 2 * maxAliases + 1) :
    add8 a b = some (a + b) := by
  simp only [maxAliases] at first second
  exact if_pos (by omega)

theorem State.Sound.respond_moves (sound : s.Sound zone) {slot : ℕ} {generation : UInt32}
    (at_ : s.phaseOf slot = some (.waiting asked aliases generation)) {response : Response}
    (truthful : response.Truthful zone asked) :
    Moves zone s (.respond slot (.ok response))
      (s.respond slot asked aliases generation (.ok response)) := by
  obtain ⟨f, here, at_, path, few⟩ := sound.fits at_
  obtain ⟨steps, answer, answered, tell, on⟩ := truthful.answer
  have bounded := on.few
  obtain ⟨fits, less⟩ := settle_fits path few on generation
  unfold State.respond
  simp only [answered, add8_eq few (show answer.aliases ≤ 2 * maxAliases + 1 by omega)]
  exact .task rfl here (cacheSteps_truthful sound.cache tell _ _ _) (fun _ mem => mem) fits
    (at_ ▸ less)

theorem State.Sound.follow_moves (sound : s.Sound zone) {slot : ℕ}
    (at_ : s.phaseOf slot = some (.following asked aliases)) :
    Moves zone s (.follow slot) (s.follow slot asked aliases) := by
  obtain ⟨f, here, at_, path, few⟩ := sound.fits at_
  obtain ⟨⟨cache, step, counted⟩, found, truthful, more, bounded, spec⟩ :=
    fromCache_spec sound.cache s.generation s.now path (by omega)
  dsimp only at more bounded
  unfold State.follow
  rw [found]
  cases step with
  | done result =>
    refine .task rfl here truthful (fun _ mem => mem)
      ⟨spec.1, show counted ≤ 2 * maxAliases + 1 by omega⟩ ?_
    rw [at_]
    simp only [Phase.left]
    omega
  | ask target =>
    refine .task rfl here truthful (fun _ mem => mem) ⟨spec.2, spec.1⟩ ?_
    rw [at_]
    simp only [Phase.left]
    omega

theorem State.Sound.moves (sound : s.Sound zone) {event : Event} {s' : State}
    (goes : s.step event = some s') (answered : Answered zone s event) :
    Moves zone s event s' := by
  cases event with
  | changeServers =>
    cases goes
    exact .changeServers
  | pass time =>
    cases goes
    exact .pass time
  | lookup host =>
    cases goes
    exact .lookup host
  | query slot =>
    dsimp only [State.step] at goes
    split at goes
    · next name aliases at_ =>
        cases goes
        obtain ⟨f, here, at_, fits⟩ := sound.fits at_
        refine .task rfl here sound.cache (fun _ mem => mem) fits ?_
        rw [at_]
        exact Nat.lt_succ_self _
    · cases goes
  | respond slot outcome =>
    obtain ⟨response, rfl, truthful⟩ := answered
    dsimp only [State.step] at goes
    split at goes
    · next name aliases generation at_ =>
        cases goes
        exact sound.respond_moves at_ (truthful _ _ _ at_)
    · cases goes
  | follow slot =>
    dsimp only [State.step] at goes
    split at goes
    · next target aliases at_ =>
        cases goes
        exact sound.follow_moves at_
    · cases goes
  | remove slot =>
    dsimp only [State.step] at goes
    split at goes
    · next resolved at_ =>
        cases goes
        obtain ⟨f, here, at_, fits⟩ := sound.fits at_
        refine .task rfl here sound.cache (fun _ => mem_of_mem_filter) fits ?_
        rw [at_]
        exact Nat.lt_succ_self 1
    · cases goes
  | finish slot =>
    dsimp only [State.step] at goes
    split at goes
    · next resolved at_ =>
        cases goes
        obtain ⟨f, here, at_, fits⟩ := sound.fits at_
        refine .task rfl here sound.cache (fun _ mem => mem) fits ?_
        rw [at_]
        exact Nat.lt_succ_self 0
    · cases goes
  | wake caller =>
    dsimp only [State.step] at goes
    split at goes
    · next host aliases slot waits =>
        split at goes
        · next resolved at_ =>
            cases goes
            exact .wake waits at_
        · cases goes
    · cases goes

theorem returns_of_wake {host : Name} (path : Chain.Path zone aliases host name)
    {result : Except LookupError (List Ipv4Addr)} {more : ℕ}
    (settled : Settled zone name (result, more)) :
    Returns zone host (if maxAliases < aliases + more then .error .notFound else result) := by
  cases result with
  | ok addrs =>
    obtain ⟨all, ends, some, perm⟩ := settled
    have whole : Chain.Ends zone (aliases + more) host all := path.ends_iff.mpr ⟨more, rfl, ends⟩
    split
    · next many =>
        refine .inr ⟨?_, rfl⟩
        rintro k addrs' ⟨all', ends', -⟩
        rw [← (whole.unique ends').1]
        exact many
    · next few => exact .inl ⟨_, Nat.le_of_not_lt few, addrs, ⟨all, whole, some, perm⟩, rfl⟩
  | error error =>
    obtain ⟨rfl, none⟩ := settled
    refine .inr ⟨?_, ite_self _⟩
    rintro k addrs ⟨all, ends, some, perm⟩
    obtain ⟨j, rfl, rest⟩ := path.ends_iff.mp ends
    have many := none j addrs ⟨all, rest, some, perm⟩
    omega

theorem State.Sound.wake (sound : s.Sound zone) {caller slot : ℕ} {host : Name}
    (waits : s.callers[caller]? = some (.waiting host aliases slot)) {resolved : Resolved}
    (at_ : s.phaseOf slot = some (.finished resolved)) :
    (s.wake caller host aliases resolved).Sound zone := by
  obtain ⟨result, more⟩ := resolved
  obtain ⟨f, here, -, settled, bounded⟩ := sound.fits at_
  obtain ⟨few, f', here', path⟩ := sound.callers _ (mem_of_getElem? waits)
  rw [here] at here'
  cases here'
  unfold State.wake
  simp only [add8_eq few bounded]
  refine { sound with callers := fun other mem => ?_ }
  rcases mem_or_eq_of_mem_set mem with mem | rfl
  · exact sound.callers other mem
  · exact fun _ => returns_of_wake path settled

/-- One event: the cache stays true, and so do the places of the tasks and the results. -/
theorem State.Sound.step (sound : s.Sound zone) {event : Event} {s' : State}
    (moves : Moves zone s event s') : s'.Sound zone := by
  cases moves with
  | changeServers => exact { sound with }
  | pass => exact { sound with }
  | lookup host => exact sound.lookupIn host
  | @task _ slot f phase cache pending _ here truthful fewer fits =>
    have fewer : ({ s with cache, pending } : State).Sound zone :=
      { sound with
        cache := truthful
        pending := fun entry mem => sound.pending entry (fewer entry mem) }
    exact fewer.enter fun f' here' => Option.some.inj (here'.symm.trans here) ▸ fits
  | wake waits at_ => exact sound.wake waits at_

theorem State.left_of_waiting {caller slot : ℕ} {host : Name} {f : InFlight}
    (waits : s.callers[caller]? = some (.waiting host aliases slot))
    (here : s.slots[slot]? = some f) : s.left caller = 1 + f.phase.left := by
  unfold State.left
  rw [waits]
  simp only [State.phaseOf, here, Option.map_some, Option.getD_some]

theorem State.left_of_returned {caller : ℕ} {host : Name}
    {result : Except LookupError (List Ipv4Addr)}
    (returned : s.callers[caller]? = some (.returned host result)) : s.left caller = 0 := by
  unfold State.left
  rw [returned]

theorem Moves.left_task {slot : ℕ} {f : InFlight} {phase : Phase} (cache : Cache)
    (pending : List (Name × ℕ)) (here : s.slots[slot]? = some f) {caller : ℕ} {host : Name}
    (waits : s.callers[caller]? = some (.waiting host aliases slot)) :
    (({ s with cache, pending } : State).enter slot phase).left caller = 1 + phase.left := by
  have entered : (({ s with cache, pending } : State).enter slot phase).slots[slot]? =
      some { f with phase } := by
    unfold State.enter
    dsimp only
    rw [List.getElem?_modify, here]
    simp
  exact @State.left_of_waiting (({ s with cache, pending } : State).enter slot phase) aliases
    caller slot host _ waits entered

theorem State.join_keeps (s : State) (name : Name) :
    (s.join name).1.callers = s.callers ∧
      ∀ (i : ℕ) (f : InFlight), s.slots[i]? = some f → (s.join name).1.slots[i]? = some f := by
  unfold State.join
  split
  · exact ⟨rfl, fun _ _ => id⟩
  · refine ⟨rfl, fun i f here => ?_⟩
    obtain ⟨lt, -⟩ := List.getElem?_eq_some_iff.mp here
    dsimp only
    rw [List.getElem?_append_left lt, here]

theorem State.lookupIn_keeps (s : State) (host : Name) :
    (∀ (i : ℕ) (c : Caller), s.callers[i]? = some c →
        (s.lookupIn host).callers[i]? = some c) ∧
      ∀ (i : ℕ) (f : InFlight), s.slots[i]? = some f →
        (s.lookupIn host).slots[i]? = some f := by
  have called : ∀ (c' : Caller) (i : ℕ) (c : Caller), s.callers[i]? = some c →
      (s.callers ++ [c'])[i]? = some c := by
    intro c' i c here
    obtain ⟨lt, -⟩ := List.getElem?_eq_some_iff.mp here
    rw [List.getElem?_append_left lt, here]
  unfold State.lookupIn
  split
  · exact ⟨called _, fun _ _ => id⟩
  · split
    · exact ⟨fun _ _ => id, fun _ _ => id⟩
    · exact ⟨called _, fun _ _ => id⟩
    · next cache name aliases _ =>
        obtain ⟨callers, slots⟩ := State.join_keeps { s with cache } name
        generalize State.join { s with cache } name = joined at *
        obtain ⟨joined, slot⟩ := joined
        dsimp only at *
        exact ⟨callers ▸ called _, slots⟩

/-- No event puts off the return of a call. -/
theorem State.Sound.left_le (sound : s.Sound zone) {event : Event} {s' : State}
    (moves : Moves zone s event s') {caller slot : ℕ} {host : Name}
    (waits : s.callers[caller]? = some (.waiting host aliases slot)) :
    s'.left caller ≤ s.left caller := by
  obtain ⟨few, f, here, path⟩ := sound.callers _ (mem_of_getElem? waits)
  have before := State.left_of_waiting waits here
  obtain ⟨inside, -⟩ := List.getElem?_eq_some_iff.mp waits
  cases moves with
  | changeServers => exact Nat.le_refl _
  | pass => exact Nat.le_refl _
  | lookup other =>
    obtain ⟨callers, slots⟩ := s.lookupIn_keeps other
    rw [State.left_of_waiting (callers _ _ waits) (slots _ _ here), before]
  | @task _ slot' f' phase cache pending _ here' truthful fewer fits less =>
    by_cases same : slot' = slot
    · subst same
      rw [here] at here'
      cases here'
      rw [Moves.left_task cache pending here waits, before]
      omega
    · have kept : (({ s with cache, pending } : State).enter slot' phase).slots[slot]? =
          some f := by
        unfold State.enter
        dsimp only
        rw [List.getElem?_modify_ne _ _ same, here]
      have after : (({ s with cache, pending } : State).enter slot' phase).left caller =
          1 + f.phase.left := State.left_of_waiting waits kept
      rw [after, before]
  | @wake caller' slot' host' aliases' resolved waits' at_ =>
    unfold State.wake
    split
    split
    · exact Nat.le_refl _
    · next total _ =>
        by_cases same : caller' = caller
        · subst same
          rw [State.left_of_returned (List.getElem?_set_self inside)]
          exact Nat.zero_le _
        · have kept : ∀ other, (s.callers.set caller' other)[caller]? =
              some (.waiting host aliases slot) :=
            fun other => (List.getElem?_set_ne same).trans waits
          have after : ∀ other, ({ s with callers := s.callers.set caller' other } : State).left
              caller = 1 + f.phase.left := fun other => State.left_of_waiting (kept other) here
          rw [after, before]

/-- What a name server may say of a name: its alias or its addresses alone. -/
def plainResponse (zone : Zone) (name : Name) : Response :=
  match zone name with
  | .inl target => ⟨0, [(name, target, 0)], [], none⟩
  | .inr addrs => ⟨0, [], addrs.map fun addr => (name, addr, 0), none⟩

theorem plainResponse_truthful (zone : Zone) (name : Name) :
    (plainResponse zone name).Truthful zone name := by
  unfold plainResponse
  split
  · next target here =>
      have cname : ∀ owner other ttl,
          Response.cnameOf ⟨0, [(name, target, 0)], [], none⟩ owner = some (other, ttl) →
            zone owner = .inl other := by
        intro owner other ttl found
        unfold Response.cnameOf at found
        by_cases same : name = owner
        · subst same
          simp at found
          rw [here, found.1]
        · simp [same] at found
      refine ⟨fun owner some => absurd rfl some, cname,
        fun aliases owner path stops bare ends => ?_⟩
      cases aliases with
      | zero =>
        cases path
        simp [Response.next, Response.cnameOf] at stops
      | succ aliases => exact absurd ends (by simp [rcodeNxdomain])
  · next addrs here =>
      have own : Response.addrsOf ⟨0, [], addrs.map fun addr => (name, addr, 0), none⟩ name =
          addrs.map fun addr => (addr, 0) := by
        unfold Response.addrsOf
        rw [filter_eq_self.mpr]
        · rw [map_map]
          rfl
        · simp
      refine ⟨fun owner some_ => ?_, (by intros; contradiction), fun aliases owner path stops bare ends => ?_⟩
      · by_cases same : name = owner
        · subst same
          rw [own] at some_ ⊢
          refine ⟨addrs, here, fun none => some_ (none ▸ rfl), ?_⟩
          rw [map_map]
          exact (map_id' addrs).symm ▸ List.Perm.refl _
        · refine absurd ?_ some_
          simp [Response.addrsOf, same]
      · obtain rfl : owner = name := by
          cases path with
          | refl => rfl
          | snoc path link => exact absurd link (by rintro ⟨⟩)
        rw [own, map_eq_nil_iff] at bare
        rw [here, bare]

theorem State.Sound.goes_on (sound : s.Sound zone) {caller slot : ℕ} {host : Name}
    (waits : s.callers[caller]? = some (.waiting host aliases slot)) :
    ∃ event s', s.step event = some s' ∧ Answered zone s event ∧
      s'.left caller < s.left caller := by
  obtain ⟨few, f, here, path⟩ := sound.callers _ (mem_of_getElem? waits)
  have before := State.left_of_waiting waits here
  have at_ : s.phaseOf slot = some f.phase := by
    unfold State.phaseOf
    rw [here, Option.map_some]
  -- an event of the task leaves it less
  have task : ∀ event s', event.slot = some slot → s.step event = some s' →
      Answered zone s event → s'.left caller < s.left caller := by
    intro event s' of goes answered
    cases sound.moves goes answered with
    | changeServers => exact absurd of nofun
    | pass => exact absurd of nofun
    | lookup => exact absurd of nofun
    | wake => exact absurd of nofun
    | @task _ slot' f' phase cache pending of' here' truthful fewer fits less =>
      cases of.symm.trans of'
      rw [here] at here'
      cases here'
      rw [Moves.left_task cache pending here waits, before]
      omega
  cases phase : f.phase with
  | asking name counted =>
    rw [phase] at at_
    have goes : s.step (.query slot) =
        some (s.enter slot (.waiting name counted s.generation)) := by
      simp only [State.step, at_]
    exact ⟨_, _, goes, trivial, task _ _ rfl goes trivial⟩
  | waiting name counted generation =>
    rw [phase] at at_
    have answered : Answered zone s (.respond slot (.ok (plainResponse zone name))) := by
      refine ⟨_, rfl, fun name' counted' generation' same => ?_⟩
      rw [at_] at same
      cases same
      exact plainResponse_truthful zone name
    have goes : s.step (.respond slot (.ok (plainResponse zone name))) =
        some (s.respond slot name counted generation (.ok (plainResponse zone name))) := by
      simp only [State.step, at_]
    exact ⟨_, _, goes, answered, task _ _ rfl goes answered⟩
  | following target counted =>
    rw [phase] at at_
    have goes : s.step (.follow slot) = some (s.follow slot target counted) := by
      simp only [State.step, at_]
    exact ⟨_, _, goes, trivial, task _ _ rfl goes trivial⟩
  | done resolved =>
    rw [phase] at at_
    have goes : s.step (.remove slot) = some (({ s with
        pending := s.pending.filter (·.2 ≠ slot) } : State).enter slot (.removed resolved)) := by
      simp only [State.step, at_]
    exact ⟨_, _, goes, trivial, task _ _ rfl goes trivial⟩
  | removed resolved =>
    rw [phase] at at_
    have goes : s.step (.finish slot) = some (s.enter slot (.finished resolved)) := by
      simp only [State.step, at_]
    exact ⟨_, _, goes, trivial, task _ _ rfl goes trivial⟩
  | finished resolved =>
    rw [phase] at at_
    obtain ⟨result, more⟩ := resolved
    obtain ⟨f', here', -, settled, bounded⟩ := sound.fits at_
    have goes : s.step (.wake caller) = some (s.wake caller host aliases (result, more)) := by
      simp only [State.step, waits, at_]
    refine ⟨_, _, goes, trivial, ?_⟩
    obtain ⟨inside, -⟩ := List.getElem?_eq_some_iff.mp waits
    unfold State.wake
    simp only [add8_eq few bounded]
    rw [State.left_of_returned (List.getElem?_set_self inside), before]
    omega

/-- Alias chains resolve the same however they are split.  No alias counter overflows; a call
that has returned gave the addresses at the end of the chain if few enough aliases lead to
them and that there are none otherwise; one that waits has few steps left, no event puts off
its return, and one brings it nearer. -/
theorem alias_chains_resolve
    (reachable : Transition.Reachable (State.Fresh zone)
      (Transition.Allowed State.step (Answered zone)) s) :
    s.overflowed = false ∧
      (∀ host result, .returned host result ∈ s.callers → host ≠ localhost →
        (∀ aliases ≤ maxAliases, ∀ all, Chain.Ends zone aliases host all → all ≠ [] →
          ∃ addrs, result = .ok addrs ∧ addrs.Perm all) ∧
        ((∀ aliases ≤ maxAliases, ∀ all, Chain.Ends zone aliases host all → all = []) →
          result = .error .notFound)) ∧
      ∀ caller host aliases slot, s.callers[caller]? = some (.waiting host aliases slot) →
        0 < s.left caller ∧ s.left caller ≤ 33 ∧
        (∀ event s', s.step event = some s' → Answered zone s event →
          s'.left caller ≤ s.left caller) ∧
        ∃ event s', s.step event = some s' ∧ Answered zone s event ∧
          s'.left caller < s.left caller := by
  have sound : s.Sound zone := by
    refine reachable.invariant (fun s fresh => ?_) fun s s' sound stepTo => ?_
    · refine ⟨fresh.cache, ?_, ?_, ?_, fresh.overflowed⟩
      · rw [fresh.pending]
        nofun
      · rw [fresh.slots]
        nofun
      · rw [fresh.callers]
        nofun
    · obtain ⟨event, goes, answered⟩ := stepTo
      exact sound.step (sound.moves goes answered)
  refine ⟨sound.overflowed, fun host result mem other => ?_,
    fun caller host aliases slot waits => ?_⟩
  · rcases sound.callers _ mem other with
      ⟨k, few, addrs, ⟨all, ends, some, perm⟩, rfl⟩ | ⟨none, rfl⟩
    · refine ⟨fun k' few' all' ends' some' => ?_, fun missing => ?_⟩
      · exact ⟨addrs, rfl, (ends.unique ends').2 ▸ perm⟩
      · exact absurd (missing k few all ends) some
    · refine ⟨fun k few all ends some => ?_, fun _ => rfl⟩
      exact absurd (none k all ⟨all, ends, some, .refl _⟩) (Nat.not_lt.mpr few)
  · refine ⟨?_, ?_, fun event s' goes answered => sound.left_le (sound.moves goes answered) waits,
      sound.goes_on waits⟩
    · obtain ⟨-, f, here, -⟩ := sound.callers _ (mem_of_getElem? waits)
      rw [State.left_of_waiting waits here]
      omega
    · obtain ⟨-, f, here, -⟩ := sound.callers _ (mem_of_getElem? waits)
      rw [State.left_of_waiting waits here]
      have few : f.phase.left ≤ 32 := by
        cases f.phase <;> simp only [Phase.left, maxAliases] <;> omega
      omega

end Zone

def smallZone : Zone := fun name =>
  if name = [97] then .inl [98] else if name = [98] then .inr [0x0a000001] else .inr []

def smallStart : State where
  generation := 0
  now := 0
  cache := { entries := [⟨[97], .aliasOf [98], 100, 0⟩] }
  pending := []
  slots := []
  callers := []
  overflowed := false

theorem smallStart_fresh : smallStart.Fresh smallZone where
  cache := by
    intro e mem
    rw [mem_singleton.mp mem]
    rfl
  pending := rfl
  slots := rfl
  callers := rfl
  overflowed := rfl

/-- The name servers say of each name what its alias or its addresses are. -/
def answersPlainly (zone : Zone) (s : State) : Event → Bool
  | .respond slot (.ok response) =>
    match s.phaseOf slot with
    | some (.waiting name _ _) => response = plainResponse zone name
    | _ => false
  | .respond _ (.error _) => false
  | _ => true

theorem answered_of_plainly {zone : Zone} (s : State) (event : Event)
    (plainly : answersPlainly zone s event = true) : Answered zone s event := by
  cases event with
  | respond slot outcome =>
    cases outcome with
    | error error => exact absurd plainly nofun
    | ok response =>
      refine ⟨response, rfl, fun name aliases generation at_ => ?_⟩
      simp only [answersPlainly, at_] at plainly
      rw [of_decide_eq_true plainly]
      exact plainResponse_truthful zone name
  | _ => trivial

theorem alias_chains_resolve_example :
    ∃ s addrs, Transition.run State.step (answersPlainly smallZone) smallStart
        [.lookup [97], .query 0, .respond 0 (.ok (plainResponse smallZone [98])), .remove 0,
          .finish 0, .wake 0] = some s ∧
      s.callers = [.returned [97] (.ok addrs)] ∧ addrs.Perm [0x0a000001] := by
  have result : (Transition.run State.step (answersPlainly smallZone) smallStart
      [.lookup [97], .query 0, .respond 0 (.ok (plainResponse smallZone [98])), .remove 0,
        .finish 0, .wake 0]).map (·.callers) = some [.returned [97] (.ok [0x0a000001])] := by
    decide +kernel
  obtain ⟨s, runs, callers⟩ := Option.map_eq_some_iff.mp result
  have resolved := alias_chains_resolve (Transition.reachable_of_run answered_of_plainly
    (.start smallStart_fresh) runs)
  have chain : Chain.Ends smallZone 1 [97] [0x0a000001] := ⟨[98], .snoc (.refl _) rfl, rfl⟩
  have returned : .returned [97] (.ok [0x0a000001]) ∈ s.callers := by
    rw [callers]
    exact mem_singleton_self _
  obtain ⟨addrs, same, perm⟩ :=
    (resolved.2.1 [97] _ returned (by decide)).1 1 (by decide) _ chain (by decide)
  cases same
  exact ⟨s, _, runs, callers, perm⟩

end EspDevkit.Net.Dns
