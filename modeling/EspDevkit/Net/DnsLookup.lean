import EspDevkit.Library.Chain
import EspDevkit.Net.DnsCache

/-!
# Following aliases

Aliases are followed in the cache, within a response and from one query to the next.
-/

namespace EspDevkit.Net.Dns

def maxAliases : ℕ := 8

def rcodeNxdomain : UInt8 := 3

/-- How a lookup fails: the name has no addresses, or a query of it was not answered. -/
inductive LookupError
  | notFound
  | noNameServer
  | timedOut
  | socket (error : Error)
  deriving DecidableEq

/-- What `answer` reads of a response: owner, target or address, and time to live. -/
structure Response where
  rcode : UInt8
  cnames : List (Name × Name × UInt32)
  addrs : List (Name × Ipv4Addr × UInt32)
  negativeTtl : Option UInt32
  deriving DecidableEq

/-- Where a query ends: addresses, a name to ask about next, or nothing. -/
structure Answer where
  aliases : ℕ
  record : Record
  deriving DecidableEq

/-- The addresses, and how many aliases led to them. -/
abbrev Resolved := Except LookupError (List Ipv4Addr) × ℕ

def add8 (a b : ℕ) : Option ℕ := if a + b < 2 ^ 8 then some (a + b) else none

inductive Step
  | done (result : Except LookupError (List Ipv4Addr))
  /-- Nothing cached for this name. -/
  | ask (name : Name)

structure Followed where
  cache : Cache
  step : Step
  aliases : ℕ

/-- `from_cache`; nothing is left when a counter overflows. -/
def fromCache (c : Cache) (servers : UInt32) (now : Instant) (name : Name) (aliases : ℕ) :
    Option Followed :=
  if _many : maxAliases < aliases then some ⟨c, .done (.error .notFound), aliases⟩
  else
    match c.get name servers now with
    | (c, some (.aliasOf target)) =>
      if aliases + 1 < 2 ^ 8 then fromCache c servers now target (aliases + 1) else none
    | (c, some (.addrs addrs)) => some ⟨c, .done (.ok addrs), aliases⟩
    | (c, some .missing) => some ⟨c, .done (.error .notFound), aliases⟩
    | (c, none) => some ⟨c, .ask name, aliases⟩
termination_by maxAliases + 1 - aliases

namespace Response

def addrsOf (r : Response) (name : Name) : List (Ipv4Addr × UInt32) :=
  (r.addrs.filter (·.1 = name)).map (·.2)

def cnameOf (r : Response) (name : Name) : Option (Name × UInt32) :=
  (r.cnames.find? (·.1 = name)).map (·.2)

abbrev Steps := List (Name × Record × UInt32)

/-- The loop of `answer` where there is nothing more to follow.  An alias chain the server did
not follow to the end is asked about again from where it stops; an SOA says it ends there. -/
def stopAt (r : Response) (current : Name) (aliases : ℕ) (steps : Steps) : Steps × Answer :=
  let ends := r.rcode = rcodeNxdomain ∨ aliases = 0 ∨ r.negativeTtl.isSome
  if maxAliases < aliases ∨ ¬ends then (steps, ⟨aliases, .aliasOf current⟩)
  else
    match r.negativeTtl with
    | some ttl => (steps ++ [(current, .missing, ttl)], ⟨aliases, .missing⟩)
    | none => (steps, ⟨aliases, .missing⟩)

/-- The loop of `answer`. -/
def follow (r : Response) (current : Name) (aliases : ℕ) (steps : Steps) :
    Option (Steps × Answer) :=
  let addrs := r.addrsOf current
  if ¬addrs.isEmpty then
    let ttl := ((addrs.map (·.2)).min?).getD 0
    let record := .addrs (addrs.map (·.1))
    some (steps ++ [(current, record, ttl)], ⟨aliases, record⟩)
  else if _few : aliases ≤ maxAliases then
    match r.cnameOf current with
    | some (target, ttl) =>
      if aliases + 1 < 2 ^ 8 then
        r.follow target (aliases + 1) (steps ++ [(current, .aliasOf target, ttl)])
      else none
    | none => some (r.stopAt current aliases steps)
  else some (r.stopAt current aliases steps)
termination_by maxAliases + 1 - aliases

/-- `answer`, up to the lock. -/
def answer (r : Response) (name : Name) : Option (Steps × Answer) := r.follow name 0 []

end Response

/-- `answer`, under the lock: every step is cached, unless the name servers changed. -/
def cacheSteps (c : Cache) (steps : Response.Steps) (generation servers : UInt32)
    (now : Instant) : Cache :=
  if servers = generation then
    steps.foldl (fun c step => c.put step.1 step.2.1 step.2.2 generation now) c
  else c

section Zone

variable (zone : Zone)

/-- The chain of the name has this many aliases and ends with addresses, in any order. -/
def LeadsTo (name : Name) (aliases : ℕ) (addrs : List Ipv4Addr) : Prop :=
  ∃ all, Chain.Ends zone aliases name all ∧ all ≠ [] ∧ addrs.Perm all

/-- No chain of few enough aliases ends with addresses. -/
def NotFound (name : Name) : Prop := ∀ aliases addrs, LeadsTo zone name aliases addrs →
  maxAliases < aliases

def Settled (name : Name) : Resolved → Prop
  | (.ok addrs, aliases) => LeadsTo zone name aliases addrs
  | (.error error, _) => error = .notFound ∧ NotFound zone name

def Response.next (r : Response) (name : Name) : Name ⊕ Unit :=
  match r.cnameOf name with
  | some (target, _) => .inl target
  | none => .inr ()

/-- A response is true of a zone: its records are, and where its aliases stop, a name without
addresses is missing if the response says that the chain ends there. -/
structure Response.Truthful (r : Response) (name : Name) : Prop where
  addrs : ∀ owner, r.addrsOf owner ≠ [] → Tells zone owner (.addrs ((r.addrsOf owner).map (·.1)))
  cnames : ∀ owner target ttl, r.cnameOf owner = some (target, ttl) → zone owner = .inl target
  ends : ∀ aliases owner, Chain.Path r.next aliases name owner → r.next owner = .inr () →
    r.addrsOf owner = [] →
    (r.rcode = rcodeNxdomain ∨ aliases = 0 ∨ r.negativeTtl.isSome) → zone owner = .inr []

variable {zone : Zone} {name current : Name} {aliases : ℕ}

theorem notFound_of_many (path : Chain.Path zone aliases name current)
    (many : maxAliases < aliases) : NotFound zone name := by
  rintro more addrs ⟨all, ends, -⟩
  obtain ⟨k, rfl, -⟩ := path.ends_iff.mp ends
  omega

theorem notFound_of_missing (path : Chain.Path zone aliases name current)
    (missing : zone current = .inr []) : NotFound zone name := by
  rintro more addrs ⟨all, ends, some, -⟩
  exact absurd (ends.unique ⟨current, path, missing⟩).2 some

theorem leadsTo_of_tells (path : Chain.Path zone aliases name current)
    {addrs : List Ipv4Addr} (tells : Tells zone current (.addrs addrs)) :
    LeadsTo zone name aliases addrs := by
  obtain ⟨all, here, some, perm⟩ := tells
  exact ⟨all, ⟨current, path, here⟩, some, perm⟩

/-- The cache is followed along the chain; it is asked on only for a name of it that few
enough aliases lead to. -/
theorem fromCache_spec {c : Cache} (truthful : c.Truthful zone) (servers : UInt32)
    (now : Instant) (path : Chain.Path zone aliases name current)
    (few : aliases ≤ maxAliases + 1) :
    ∃ followed, fromCache c servers now current aliases = some followed ∧
      followed.cache.Truthful zone ∧ aliases ≤ followed.aliases ∧
      followed.aliases ≤ maxAliases + 1 ∧
      match followed.step with
      | .done result => Settled zone name (result, followed.aliases) ∧
          ∀ addrs, result = .ok addrs → followed.aliases ≤ maxAliases
      | .ask target => followed.aliases ≤ maxAliases ∧
          Chain.Path zone followed.aliases name target := by
  induction left : maxAliases + 1 - aliases generalizing c current aliases with
  | zero =>
    have many : maxAliases < aliases := by omega
    unfold fromCache
    rw [dif_pos many]
    exact ⟨_, rfl, truthful, Nat.le_refl _, few, ⟨rfl, notFound_of_many path many⟩, nofun⟩
  | succ left ih =>
    have some_ : ¬maxAliases < aliases := by omega
    obtain ⟨kept, told⟩ := truthful.get current servers now
    unfold fromCache
    rw [dif_neg some_]
    split
    · next c' target got =>
        rw [got] at kept told
        have room : aliases + 1 < 2 ^ 8 := by
          simp only [maxAliases] at few
          omega
        rw [if_pos room]
        obtain ⟨followed, done, rest, le, bounded, step⟩ :=
          ih kept (path.snoc (told _ rfl)) (by omega) (by omega)
        exact ⟨followed, done, rest, by omega, bounded, step⟩
    · next c' addrs got =>
        rw [got] at kept told
        exact ⟨_, rfl, kept, Nat.le_refl _, few, leadsTo_of_tells path (told _ rfl),
          fun _ _ => Nat.le_of_not_lt some_⟩
    · next c' got =>
        rw [got] at kept told
        exact ⟨_, rfl, kept, Nat.le_refl _, few, ⟨rfl, notFound_of_missing path (told _ rfl)⟩,
          nofun⟩
    · next c' got =>
        rw [got] at kept
        exact ⟨_, rfl, kept, Nat.le_refl _, few, Nat.le_of_not_lt some_, path⟩

def StepsTell (zone : Zone) (steps : Response.Steps) : Prop :=
  ∀ step ∈ steps, Tells zone step.1 step.2.1

theorem StepsTell.concat {steps : Response.Steps} (tell : StepsTell zone steps)
    {record : Record} (tells : Tells zone current record) (ttl : UInt32) :
    StepsTell zone (steps ++ [(current, record, ttl)]) := by
  intro step mem
  rcases List.mem_append.mp mem with mem | mem
  · exact tell step mem
  · rw [List.mem_singleton.mp mem]
    exact tells

theorem cacheSteps_truthful {c : Cache} (truthful : c.Truthful zone) {steps : Response.Steps}
    (tell : StepsTell zone steps) (generation servers : UInt32) (now : Instant) :
    (cacheSteps c steps generation servers now).Truthful zone := by
  unfold cacheSteps
  split
  · induction steps generalizing c with
    | nil => exact truthful
    | cons step steps ih =>
      rw [List.foldl_cons]
      have put := truthful.put (tell step List.mem_cons_self) step.2.2 generation now
      exact ih put fun step mem => tell step (List.mem_cons_of_mem _ mem)
  · exact truthful

/-- The answer stands on the chain of the name it was asked for: the record is true of where
its aliases lead to, or the rest is to be asked for. -/
structure Answer.On (answer : Answer) (zone : Zone) (name : Name) : Prop where
  few : answer.aliases ≤ maxAliases + 1
  record : ∃ stop, Chain.Path zone answer.aliases name stop ∧
    match answer.record with
    | .aliasOf target => target = stop ∧ 0 < answer.aliases
    | record => Tells zone stop record

variable {r : Response}

theorem Response.next_eq_inl {target : Name} (link : r.next current = .inl target) :
    ∃ ttl, r.cnameOf current = some (target, ttl) := by
  unfold Response.next at link
  split at link
  · next ttl found =>
      cases link
      exact ⟨ttl, found⟩
  · exact absurd link nofun

theorem Response.Truthful.path (truthful : r.Truthful zone name)
    (path : Chain.Path r.next aliases name current) : Chain.Path zone aliases name current := by
  have cnames := truthful.cnames
  clear truthful
  induction path with
  | refl => exact .refl _
  | snoc _ link ih =>
    obtain ⟨ttl, found⟩ := Response.next_eq_inl link
    exact ih.snoc (cnames _ _ ttl found)

theorem Response.Truthful.stopAt (truthful : r.Truthful zone name) {steps : Steps}
    (tell : StepsTell zone steps) (path : Chain.Path r.next aliases name current)
    (few : aliases ≤ maxAliases + 1) (bare : r.addrsOf current = [])
    (stops : aliases ≤ maxAliases → r.next current = .inr ()) :
    StepsTell zone (r.stopAt current aliases steps).1 ∧
      (r.stopAt current aliases steps).2.On zone name := by
  have reached := truthful.path path
  unfold Response.stopAt
  dsimp only
  split
  · next goesOn =>
      refine ⟨tell, few, current, reached, rfl, ?_⟩
      rcases goesOn with many | open_
      · exact Nat.zero_lt_of_lt many
      · exact Nat.pos_of_ne_zero fun zero => open_ (.inr (.inl zero))
  · next ends =>
      rw [not_or, not_not] at ends
      have missing : zone current = .inr [] := truthful.ends aliases current path
        (stops (Nat.le_of_not_lt ends.1)) bare ends.2
      split
      · have tells : Tells zone current .missing := missing
        exact ⟨tell.concat tells _, few, current, reached, missing⟩
      · exact ⟨tell, few, current, reached, missing⟩

theorem Response.Truthful.follow (truthful : r.Truthful zone name) {steps : Steps}
    (tell : StepsTell zone steps) (path : Chain.Path r.next aliases name current)
    (few : aliases ≤ maxAliases + 1) :
    ∃ steps' answer, r.follow current aliases steps = some (steps', answer) ∧
      StepsTell zone steps' ∧ answer.On zone name := by
  have reached := truthful.path path
  induction left : maxAliases + 1 - aliases generalizing current aliases steps with
  | zero =>
    have many : ¬aliases ≤ maxAliases := by omega
    unfold Response.follow
    dsimp only
    split
    · next some_ =>
        rw [List.isEmpty_iff] at some_
        have tells := truthful.addrs current some_
        exact ⟨_, _, rfl, tell.concat tells _, few, current, reached, tells⟩
    · next bare =>
        rw [not_not, List.isEmpty_iff] at bare
        obtain ⟨told, on⟩ := truthful.stopAt tell path few bare fun le => absurd le many
        exact ⟨_, _, rfl, told, on⟩
  | succ left ih =>
    have room : aliases ≤ maxAliases := by omega
    unfold Response.follow
    dsimp only
    split
    · next some_ =>
        rw [List.isEmpty_iff] at some_
        have tells := truthful.addrs current some_
        exact ⟨_, _, rfl, tell.concat tells _, few, current, reached, tells⟩
    · next bare =>
        rw [not_not, List.isEmpty_iff] at bare
        split
        · next target ttl found =>
            have link : r.next current = .inl target := by
              simp only [Response.next, found]
            have tells : Tells zone current (.aliasOf target) :=
              truthful.cnames current target ttl found
            have counted : aliases + 1 < 2 ^ 8 := by
              simp only [maxAliases] at room
              omega
            rw [if_pos counted]
            exact ih (tell.concat tells ttl) (path.snoc link) (by omega) (reached.snoc tells)
              (by omega)
        · next none_ =>
            obtain ⟨told, on⟩ := truthful.stopAt tell path few bare fun _ => by
              simp only [Response.next, none_]
            exact ⟨_, _, rfl, told, on⟩

/-- An answer to a true response is on the chain, and no counter of it overflows. -/
theorem Response.Truthful.answer (truthful : r.Truthful zone name) :
    ∃ steps answer, r.answer name = some (steps, answer) ∧ StepsTell zone steps ∧
      answer.On zone name :=
  truthful.follow nofun (.refl name) (Nat.zero_le _)

end Zone

end EspDevkit.Net.Dns
