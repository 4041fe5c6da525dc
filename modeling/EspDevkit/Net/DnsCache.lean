import EspDevkit.Library.SwapRemove
import EspDevkit.Net.DnsName
import EspDevkit.Net.Segment

/-!
# The cache of DNS answers

Answers by name, for their time to live, cleared whenever the name servers change.  What
the cache is told of the names it tells again, as long as it is true.
-/

namespace EspDevkit.Net.Dns

open List

/-- `ENTRIES`. -/
def maxEntries : ℕ := 16
def maxTtl : UInt32 := 24 * 3600
def maxNegativeTtl : UInt32 := 300

inductive Record
  | addrs (addrs : List Ipv4Addr)
  | aliasOf (target : Name)
  | missing
  deriving DecidableEq

structure Entry where
  name : Name
  record : Record
  expires : Instant
  used : UInt32
  deriving DecidableEq

structure Cache where
  entries : List Entry := []
  servers : UInt32 := 0
  clock : UInt32 := 0
  deriving DecidableEq

namespace Cache

def sync (c : Cache) (servers : UInt32) : Cache :=
  if servers ≠ c.servers then { c with entries := [], servers } else c

/-- `servers` is the stack's name server generation. -/
def get (c : Cache) (name : Name) (servers : UInt32) (now : Instant) : Cache × Option Record :=
  let c := c.sync servers
  let c := { c with entries := c.entries.filter (now < ·.expires), clock := c.clock + 1 }
  match c.entries.findIdx? (·.name = name) with
  | none => (c, none)
  | some i =>
    ({ c with entries := c.entries.modify i ({ · with used := c.clock }) },
      c.entries[i]?.map (·.record))

def put (c : Cache) (name : Name) (record : Record) (ttl servers : UInt32) (now : Instant) :
    Cache :=
  let c := c.sync servers
  let ttl := min ttl (if record = .missing then maxNegativeTtl else maxTtl)
  if ttl = 0 then c
  else
    let kept := c.entries.filter fun e => now < e.expires ∧ e.name ≠ name
    let kept :=
      if maxEntries ≤ kept.length then swapRemove kept (leastIdx (·.used.toNat) kept) else kept
    let clock := c.clock + 1
    let expires := now.plus (.fromSecs ttl.toNat)
    { c with entries := kept ++ [{ name, record, expires, used := clock }], clock }

end Cache

/-- Each name is an alias of another one or has addresses, none when it is missing. -/
abbrev Zone := Name → Name ⊕ List Ipv4Addr

def Tells (zone : Zone) (name : Name) : Record → Prop
  | .addrs addrs => ∃ all, zone name = .inr all ∧ all ≠ [] ∧ addrs.Perm all
  | .aliasOf target => zone name = .inl target
  | .missing => zone name = .inr []

def Cache.Truthful (zone : Zone) (c : Cache) : Prop := ∀ e ∈ c.entries, Tells zone e.name e.record

namespace Cache

variable {zone : Zone} {c : Cache}

theorem Truthful.sync (truthful : c.Truthful zone) (servers : UInt32) :
    (c.sync servers).Truthful zone := by
  unfold Cache.sync
  split
  · nofun
  · exact truthful

theorem Truthful.get (truthful : c.Truthful zone) (name : Name) (servers : UInt32)
    (now : Instant) :
    (c.get name servers now).1.Truthful zone ∧
      ∀ record, (c.get name servers now).2 = some record → Tells zone name record := by
  have synced := truthful.sync servers
  unfold Cache.get
  dsimp only
  generalize c.sync servers = c' at synced
  have kept : ∀ e ∈ c'.entries.filter (now < ·.expires), Tells zone e.name e.record :=
    fun e mem => synced e (mem_of_mem_filter mem)
  split
  · exact ⟨kept, nofun⟩
  · next i found =>
      obtain ⟨lt, here, -⟩ := List.findIdx?_eq_some_iff_getElem.mp found
      rw [decide_eq_true_eq] at here
      refine ⟨fun e mem => ?_, fun record told => ?_⟩
      · obtain ⟨j, lt', rfl⟩ := mem_iff_getElem.mp mem
        rw [length_modify] at lt'
        rw [getElem_modify]
        have known := kept _ (getElem_mem lt')
        split <;> exact known
      · rw [List.getElem?_eq_getElem lt] at told
        cases told
        rw [← here]
        exact kept _ (getElem_mem lt)

theorem Truthful.put (truthful : c.Truthful zone) {name : Name} {record : Record}
    (tells : Tells zone name record) (ttl servers : UInt32) (now : Instant) :
    (c.put name record ttl servers now).Truthful zone := by
  have synced := truthful.sync servers
  unfold Cache.put
  dsimp only
  generalize c.sync servers = c' at synced
  generalize min ttl _ = ttl'
  split
  · exact synced
  · have kept : ∀ e ∈ c'.entries.filter fun e => now < e.expires ∧ e.name ≠ name,
        Tells zone e.name e.record := fun e mem => synced e (mem_of_mem_filter mem)
    intro e mem
    rcases mem_append.mp mem with mem | mem
    · refine kept e ?_
      split at mem
      · next full =>
          refine (swapRemove_least_subperm fun nothing => ?_).subset mem
          rw [nothing] at full
          exact absurd full (by decide)
      · exact mem
    · rw [mem_singleton.mp mem]
      exact tells

end Cache

end EspDevkit.Net.Dns
