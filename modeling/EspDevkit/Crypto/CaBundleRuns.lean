import EspDevkit.Crypto.CaBundleWrite

/-!
# Installs and power loss

What the slots say in memory is what they say in flash, but for the slot that the
next install takes: an install that failed may have left anything there that is
none of the bundles before it.  So a start finds the current bundle again, or the
one that was being installed.
-/

namespace EspDevkit.Crypto.CaBundle

open LittleEndian Flash List Option Function

def Event.data : Event → Option Bytes
  | .install data _ | .installUnsigned data _ => some data
  | .current | .clone _ | .drop _ | .powerLoss => none

def Event.newerOnly : Event → Bool
  | .installUnsigned _ _ => false
  | .install _ _ | .current | .clone _ | .drop _ | .powerLoss => true

section

variable (digest : Bytes → Digest) (part : Partition) (verify : Bytes → Bytes → Bool)

theorem step_cases (s : State) (e : Event) :
    e = .powerLoss ∧ step digest part verify s e = start digest part s.flash ∨
      (∃ maps, step digest part verify s e = { s with maps }) ∨
      ∃ data version bundle rest newerOnly, e.data = some data ∧
        split data = some (version, bundle, rest) ∧ (e.newerOnly → newerOnly = true) ∧
        Taken digest part s (step digest part verify s e) bundle version newerOnly := by
  cases e with
  | powerLoss => exact .inl ⟨rfl, rfl⟩
  | current =>
    right
    left
    rw [step, current]
    split
    · exact ⟨s.maps, rfl⟩
    · exact ⟨_, rfl⟩
  | clone i =>
    right
    left
    rw [step, cloneStore]
    split
    · exact ⟨s.maps, rfl⟩
    · exact ⟨_, rfl⟩
  | drop i => exact .inr (.inl ⟨_, rfl⟩)
  | install data fault =>
    right
    rw [step, install]
    split
    · exact .inl ⟨s.maps, rfl⟩
    · rename_i version bundle signature parts
      split
      · exact .inl ⟨s.maps, rfl⟩
      · obtain ⟨long, parsed⟩ := parseBundle_of_split parts
        rcases write_cases digest part s long parsed true fault with same | taken
        · exact .inl ⟨s.maps, same⟩
        · exact .inr ⟨data, version, bundle, signature, true, rfl, parts, fun _ => rfl, taken⟩
  | installUnsigned data fault =>
    right
    rw [step, installUnsigned]
    split
    · exact .inl ⟨s.maps, rfl⟩
    · rename_i version bundle rest parts
      obtain ⟨long, parsed⟩ := parseBundle_of_split parts
      rcases write_cases digest part s long parsed false fault with same | taken
      · exact .inl ⟨s.maps, same⟩
      · exact .inr ⟨data, version, bundle, rest, false, rfl, parts, nofun, taken⟩

/-- The slots in memory are the slots in flash, but for what a failed install may have
left. -/
structure Agrees (s : State) : Prop where
  kept : ∀ i, i ≠ target s.slots → s.slots i = readSlot digest part s.flash i
  taken : s.slots (target s.slots) = none ∨
    s.slots (target s.slots) = readSlot digest part s.flash (target s.slots)

theorem agrees_of_all {s : State} (all : ∀ i, s.slots i = readSlot digest part s.flash i) :
    Agrees digest part s where
  kept i _ := all i
  taken := .inr (all _)

theorem agrees_start (flash : Memory) : Agrees digest part (start digest part flash) :=
  agrees_of_all digest part fun _ => rfl

section

variable {digest part} {s s' : State} {bundle : Bytes} {version : ℕ} {newerOnly : Bool}

theorem Taken.kept (taken : Taken digest part s s' bundle version newerOnly)
    (agrees : Agrees digest part s) {i : Fin 2} (other : i ≠ target s.slots) :
    readSlot digest part s'.flash i = s.slots i :=
  (readSlot_congr digest part (taken.other i other)).trans (agrees.kept i other).symm

theorem Taken.slots_other (taken : Taken digest part s s' bundle version newerOnly) {i : Fin 2}
    (other : i ≠ target s.slots) : s'.slots i = s.slots i := by
  rcases taken.slots with failed | ⟨done, -⟩
  · rw [failed, update_of_ne other]
  · rw [done, update_of_ne other]

theorem Taken.done (taken : Taken digest part s s' bundle version newerOnly)
    (agrees : Agrees digest part s)
    (slots : s'.slots = Function.update s.slots (target s.slots) (some (newSlot s bundle version)))
    (found : readSlot digest part s'.flash (target s.slots) = some (newSlot s bundle version))
    (i : Fin 2) : s'.slots i = readSlot digest part s'.flash i := by
  by_cases here : i = target s.slots
  · rw [here, found, slots, update_self]
  · rw [taken.kept agrees here, taken.slots_other here]

theorem Taken.agrees (taken : Taken digest part s s' bundle version newerOnly)
    (agrees : Agrees digest part s) : Agrees digest part s' := by
  rcases taken.slots with failed | ⟨done, found⟩
  · have same : target s'.slots = target s.slots := by
      rw [failed]
      exact target_update s.slots
    constructor
    · intro i other
      rw [same] at other
      rw [taken.kept agrees other, taken.slots_other other]
    · left
      rw [same, failed, update_self]
  · exact agrees_of_all digest part (taken.done agrees done found)

end

theorem agrees_step {s : State} (agrees : Agrees digest part s) (e : Event) :
    Agrees digest part (step digest part verify s e) := by
  rcases step_cases digest part verify s e with
    ⟨-, eq⟩ | ⟨maps, eq⟩ | ⟨data, version, bundle, rest, newerOnly, -, -, -, taken⟩
  · rw [eq]
    exact agrees_start digest part s.flash
  · rw [eq]
    exact ⟨agrees.kept, agrees.taken⟩
  · exact taken.agrees agrees

theorem agrees_run (flash : Memory) (events : List Event) :
    Agrees digest part (run digest part verify flash events) := by
  unfold run
  generalize initial : start digest part flash = s
  have agrees : Agrees digest part s := initial ▸ agrees_start digest part flash
  clear initial
  induction events generalizing s with
  | nil => exact agrees
  | cons e events ih => exact ih _ (agrees_step digest part verify agrees e)

section

variable {digest part} {s s' : State} {bundle : Bytes} {version : ℕ} {newerOnly : Bool}

theorem currentBundle_eq {i : Fin 2} {slot : Slot} (current : currentIndex s.slots = some i)
    (some' : s.slots i = some slot) :
    currentBundle part s = some (Flash.read s.flash (part.slotOffset i) slot.len) := by
  rw [currentBundle, current, bind_some, some', map_some]

theorem Taken.found_after (taken : Taken digest part s s' bundle version newerOnly)
    (agrees : Agrees digest part s) :
    currentBundle part (start digest part s'.flash) = currentBundle part s ∨
      currentBundle part (start digest part s'.flash) = some bundle := by
  cases after : currentIndex (start digest part s'.flash).slots with
  | none =>
    left
    cases before : currentIndex s.slots with
    | none => rw [currentBundle, currentBundle, after, before]; rfl
    | some i =>
      obtain ⟨slot, some'⟩ := currentIndex_some before
      have gone : readSlot digest part s'.flash i = none := currentIndex_none after i
      rw [taken.kept agrees (ne_target before), some'] at gone
      cases gone
  | some i =>
    obtain ⟨slot, some'⟩ := currentIndex_some after
    rw [currentBundle_eq after some']
    have read' : readSlot digest part s'.flash i = some slot := some'
    by_cases here : i = target s.slots
    · right
      subst here
      rcases taken.found with none' | ⟨new, whole⟩
      · rw [none'] at read'
        cases read'
      · rw [new] at read'
        cases read'
        exact congrArg some whole
    · left
      have kept := taken.kept agrees here
      rw [read'] at kept
      rw [currentBundle_eq (current_of_ne_target here kept.symm) kept.symm]
      have room := (readSlot_len digest part read').1
      exact congrArg some (read_congr
        ((taken.other i here).bundle.part (Nat.le_refl _) (Nat.add_le_add_left room _)))

end

theorem currentBundle_start (flash : Memory) {bundle : Bytes}
    (found : bundle ∈ currentBundle part (start digest part flash)) :
    (parseBundle bundle).isSome := by
  cases current : currentIndex (start digest part flash).slots with
  | none =>
    rw [currentBundle, current] at found
    cases found
  | some i =>
    obtain ⟨slot, some'⟩ := currentIndex_some current
    rw [currentBundle_eq current some'] at found
    cases found
    obtain ⟨-, count, entries, parsed⟩ := readSlot_len digest part some'
    exact isSome_iff_exists.mpr ⟨_, parsed⟩

/-- The bytes of a slot that a store holds stay as they are. -/
theorem held_step {s : State} (e : Event) {i : Fin 2} (held : 0 < s.maps i) :
    SameSlot part (step digest part verify s e).flash s.flash i := by
  rcases step_cases digest part verify s e with
    ⟨-, eq⟩ | ⟨maps, eq⟩ | ⟨data, version, bundle, rest, newerOnly, -, -, -, taken⟩
  · rw [eq]
    exact SameSlot.refl part s.flash i
  · rw [eq]
    exact SameSlot.refl part s.flash i
  · refine taken.other i ?_
    rintro rfl
    have free := taken.free
    omega

def NotBelow (before after : Option ℕ) : Prop := ∀ v ∈ before, ∃ w ∈ after, v ≤ w

theorem NotBelow.refl (version : Option ℕ) : NotBelow version version :=
  fun v member => ⟨v, member, Nat.le_refl v⟩

theorem NotBelow.trans {first second third : Option ℕ} (one : NotBelow first second)
    (two : NotBelow second third) : NotBelow first third := by
  intro v member
  obtain ⟨w, member', le⟩ := one v member
  obtain ⟨u, member'', le'⟩ := two w member'
  exact ⟨u, member'', le.trans le'⟩

def Pending (s : State) : Prop :=
  s.slots (target s.slots) = none →
    ∀ slot ∈ readSlot digest part s.flash (target s.slots),
      NotBelow (currentVersion s) (some slot.version)

section

variable {digest part} {s s' : State} {bundle : Bytes} {version : ℕ}

theorem currentVersion_eq {i : Fin 2} {slot : Slot} (current : currentIndex s.slots = some i)
    (some' : s.slots i = some slot) : currentVersion s = some slot.version := by
  rw [currentVersion, currentSlot, current, bind_some, some', map_some]

theorem currentVersion_none (none' : currentIndex s.slots = none) : currentVersion s = none := by
  rw [currentVersion, currentSlot, none', bind_none, map_none]

theorem notBelow_of_kept
    (kept : ∀ i, i ≠ target s.slots → s'.slots i = s.slots i)
    (beside : ∀ slot ∈ s'.slots (target s.slots), currentIndex s.slots ≠ none →
      currentIndex s'.slots = some (target s.slots) →
        NotBelow (currentVersion s) (some slot.version)) :
    NotBelow (currentVersion s) (currentVersion s') := by
  cases before : currentIndex s.slots with
  | none =>
    rw [currentVersion_none before]
    exact nofun
  | some i =>
    obtain ⟨slot, some'⟩ := currentIndex_some before
    have other := ne_target before
    have still := (kept i other).trans some'
    cases after : currentIndex s'.slots with
    | none =>
      rw [currentIndex_none after i] at still
      cases still
    | some j =>
      obtain ⟨slot', some''⟩ := currentIndex_some after
      rw [currentVersion_eq after some'']
      by_cases here : j = target s.slots
      · subst here
        exact beside slot' some'' (by simp [before]) after
      · obtain rfl := eq_of_ne_target here other
        rw [some''] at still
        cases still
        rw [currentVersion_eq before some']
        exact NotBelow.refl _

theorem Taken.notBelow_new (taken : Taken digest part s s' bundle version true) :
    NotBelow (currentVersion s) (some (newSlot s bundle version).version) := by
  intro v member
  obtain ⟨slot, current, rfl⟩ := map_eq_some_iff.mp member
  exact ⟨version, rfl, Nat.le_of_lt (taken.newer rfl slot current)⟩

theorem Taken.notBelow (taken : Taken digest part s s' bundle version true) :
    NotBelow (currentVersion s) (currentVersion s') := by
  refine notBelow_of_kept (fun i other => taken.slots_other other) fun slot some' _ _ => ?_
  rcases taken.slots with failed | ⟨done, -⟩
  · rw [failed, update_self] at some'
    cases some'
  · rw [done, update_self] at some'
    cases some'
    exact taken.notBelow_new

theorem Taken.pending (taken : Taken digest part s s' bundle version true)
    (agrees : Agrees digest part s) : Pending digest part s' := by
  intro none' slot member
  rcases taken.slots with failed | ⟨done, found⟩
  · have same : target s'.slots = target s.slots := by
      rw [failed]
      exact target_update s.slots
    have version' : currentVersion s' = currentVersion s := by
      have index : currentIndex s'.slots = currentIndex s.slots := by
        rw [failed]
        exact currentIndex_update s.slots
      cases current : currentIndex s.slots with
      | none => rw [currentVersion_none current, currentVersion_none (index.trans current)]
      | some i =>
        obtain ⟨slot, some'⟩ := currentIndex_some current
        rw [currentVersion_eq current some', currentVersion_eq (index.trans current)
          ((taken.slots_other (ne_target current)).trans some')]
    rw [same] at member
    rw [version']
    rcases taken.found with gone | ⟨new, -⟩
    · rw [gone] at member
      cases member
    · rw [new] at member
      cases member
      exact taken.notBelow_new
  · rw [← taken.done agrees done found, none'] at member
    cases member

theorem notBelow_start (agrees : Agrees digest part s) (pending : Pending digest part s) :
    NotBelow (currentVersion s) (currentVersion (start digest part s.flash)) := by
  refine notBelow_of_kept (fun i other => (agrees.kept i other).symm) fun slot some' some index => ?_
  rcases agrees.taken with none' | same
  · exact pending none' slot some'
  · -- Memory and flash say the same of every slot, so the current one is not taken.
    have all : (start digest part s.flash).slots = s.slots := by
      funext i
      by_cases here : i = target s.slots
      · rw [here]
        exact same.symm
      · exact (agrees.kept i here).symm
    rw [all] at index
    exact absurd rfl (ne_target index)

end

theorem newer_step {s : State} (agrees : Agrees digest part s) (pending : Pending digest part s)
    {e : Event} (newer : e.newerOnly) :
    NotBelow (currentVersion s) (currentVersion (step digest part verify s e)) ∧
      Pending digest part (step digest part verify s e) := by
  rcases step_cases digest part verify s e with
    ⟨-, eq⟩ | ⟨maps, eq⟩ | ⟨data, version, bundle, rest, newerOnly, -, -, only, taken⟩
  · rw [eq]
    refine ⟨notBelow_start agrees pending, fun none' slot member => ?_⟩
    have same : (start digest part s.flash).slots (target (start digest part s.flash).slots) =
        readSlot digest part s.flash (target (start digest part s.flash).slots) := rfl
    rw [same] at none'
    change slot ∈ readSlot digest part s.flash _ at member
    rw [none'] at member
    cases member
  · rw [eq]
    exact ⟨NotBelow.refl _, pending⟩
  · obtain rfl := only newer
    exact ⟨taken.notBelow, taken.pending agrees⟩

theorem run_append (flash : Memory) (events more : List Event) :
    run digest part verify flash (events ++ more) =
      more.foldl (step digest part verify) (run digest part verify flash events) :=
  foldl_append

theorem newer_run {s : State} (agrees : Agrees digest part s) (pending : Pending digest part s)
    {events : List Event} (newer : ∀ e ∈ events, e.newerOnly) :
    NotBelow (currentVersion s) (currentVersion (events.foldl (step digest part verify) s)) ∧
      Pending digest part (events.foldl (step digest part verify) s) := by
  induction events generalizing s with
  | nil => exact ⟨NotBelow.refl _, pending⟩
  | cons e events ih =>
    obtain ⟨first, pending'⟩ :=
      newer_step digest part verify agrees pending (newer e mem_cons_self)
    obtain ⟨rest, pending''⟩ := ih (agrees_step digest part verify agrees e) pending'
      fun later member => newer later (mem_cons_of_mem _ member)
    exact ⟨first.trans rest, pending''⟩

/-- Wherever installs stop, a start finds the bundle that was current or the new one,
the slot of a store stays as it is, and installs of newer bundles never go back. -/
theorem install_survives (flash : Memory) (events : List Event) :
    (∀ e, (step digest part verify (run digest part verify flash events) e).flash =
          (run digest part verify flash events).flash ∨
        ∃ data version bundle rest, e.data = some data ∧
          split data = some (version, bundle, rest) ∧
          (currentBundle part (start digest part
              (step digest part verify (run digest part verify flash events) e).flash) =
                currentBundle part (run digest part verify flash events) ∨
            currentBundle part (start digest part
              (step digest part verify (run digest part verify flash events) e).flash) =
                some bundle)) ∧
      (∀ bundle ∈ currentBundle part (start digest part (run digest part verify flash events).flash),
        (parseBundle bundle).isSome) ∧
      (∀ e i, 0 < (run digest part verify flash events).maps i →
        SameSlot part (step digest part verify (run digest part verify flash events) e).flash
          (run digest part verify flash events).flash i) ∧
      ∀ more, (∀ e ∈ events ++ more, e.newerOnly) →
        NotBelow (currentVersion (run digest part verify flash events))
          (currentVersion (run digest part verify flash (events ++ more))) := by
  have agrees := agrees_run digest part verify flash events
  refine ⟨fun e => ?_, fun bundle found => currentBundle_start digest part _ found,
    fun e i held => held_step digest part verify e held, fun more newer => ?_⟩
  · rcases step_cases digest part verify (run digest part verify flash events) e with
      ⟨-, eq⟩ | ⟨maps, eq⟩ | ⟨data, version, bundle, rest, newerOnly, has, parts, -, taken⟩
    · left
      rw [eq]
      rfl
    · left
      rw [eq]
    · exact .inr ⟨data, version, bundle, rest, has, parts, taken.found_after agrees⟩
  · have fresh : Pending digest part (start digest part flash) := by
      intro none' slot member
      change readSlot digest part flash _ = none at none'
      change slot ∈ readSlot digest part flash _ at member
      rw [none'] at member
      cases member
    have before : Pending digest part (run digest part verify flash events) :=
      (newer_run digest part verify (agrees_start digest part flash) fresh
        fun e member => newer e (mem_append_left _ member)).2
    rw [run_append]
    exact (newer_run digest part verify agrees before
      fun e member => newer e (mem_append_right _ member)).1

end

/-- A bundle is installed, a newer one is cut off in its header, and a start finds the
first. -/
example :
    let bundle := fun version : UInt8 =>
      [0x44, 0x4b, 0x43, 0x41, 1, 0, 0, 0, version, 0, 0, 0, 0, 0, 0, 0, 0, 0, 0, 0]
    let digest := fun data : Bytes => (⟨List.replicate 32 (data.getD 8 0), rfl⟩ : Digest)
    let part : Partition := ⟨4 * 4096, by decide⟩
    currentBundle part (run digest part (fun _ _ => true) (fun _ => 0xff)
      [.installUnsigned (bundle 1) none, .installUnsigned (bundle 2) (some (.writeHeader 43)),
        .powerLoss]) = some (bundle 1) := by
  decide +kernel

end EspDevkit.Crypto.CaBundle
