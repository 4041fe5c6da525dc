import EspDevkit.Nvs.EntryRoundTrip

/-!
# The lines and their namespaces

Each line with the namespace it stands in.
-/

namespace EspDevkit.Nvs

open List

def Line.under (tag : Option Bytes) (l : Line) : Option Bytes :=
  if l.kind = .sect then some l.name else tag

def tagged : Option Bytes → List Line → List (Option Bytes × Line)
  | _, [] => []
  | tag, l :: lines => (l.under tag, l) :: tagged (l.under tag) lines

def isEntry (ns key : Bytes) (p : Option Bytes × Line) : Bool :=
  decide (p.1 = some ns ∧ p.2.kind = .entry ∧ p.2.name = key)

section

variable {ns key : Bytes} {tag : Option Bytes} {lines : List Line}

theorem enters_eq (l : Line) :
    l.enters ns (decide (tag = some ns)) = decide (l.under tag = some ns) := by
  unfold Line.enters Line.under
  split <;> simp

theorem tagged_map (tag : Option Bytes) (lines : List Line) :
    (tagged tag lines).map Prod.snd = lines := by
  induction lines generalizing tag with
  | nil => rfl
  | cons l lines ih => rw [tagged, map_cons, ih]

theorem tagged_append (tag : Option Bytes) (lines more : List Line) :
    ∃ last, tagged tag (lines ++ more) = tagged tag lines ++ tagged last more := by
  induction lines generalizing tag with
  | nil => exact ⟨tag, rfl⟩
  | cons l lines ih =>
    obtain ⟨last, eq⟩ := ih (l.under tag)
    exact ⟨last, by rw [cons_append, tagged, eq, tagged, cons_append]⟩

def Keeps (change : Line → Line) : Prop :=
  ∀ l, (change l).kind = l.kind ∧ (change l).name = l.name

theorem Keeps.under {change : Line → Line} (keeps : Keeps change) (tag : Option Bytes) (l : Line) :
    (change l).under tag = l.under tag := by
  unfold Line.under
  rw [(keeps l).1, (keeps l).2]

theorem findFrom_none (none : findFrom ns key (decide (tag = some ns)) lines = none) :
    ∀ p ∈ tagged tag lines, isEntry ns key p = false := by
  induction lines generalizing tag with
  | nil => exact forall_mem_nil _
  | cons l lines ih =>
    intro p member
    rw [findFrom, enters_eq] at none
    split at none
    · cases none
    · rename_i later
      split at none
      · cases none
      · rename_i other
        rcases mem_cons.mp member with rfl | member
        · simpa [isEntry] using other
        · exact ih later p member

theorem findFrom_some {i : ℕ} (found : findFrom ns key (decide (tag = some ns)) lines = some i) :
    ∃ front l back, tagged tag lines = front ++ (some ns, l) :: back ∧ lines[i]? = some l ∧
      isEntry ns key (some ns, l) = true ∧ (∀ p ∈ back, isEntry ns key p = false) ∧
      ∀ change, Keeps change →
        tagged tag (lines.modify i change) = front ++ (some ns, change l) :: back := by
  induction lines generalizing tag i with
  | nil => cases found
  | cons l lines ih =>
    rw [findFrom, enters_eq] at found
    split at found
    · rename_i j later
      cases found
      obtain ⟨front, l', back, eq, at', entry, last, modify⟩ := ih later
      refine ⟨(l.under tag, l) :: front, l', back, by rw [tagged, eq, cons_append], at', entry,
        last, fun change keeps => ?_⟩
      rw [modify_succ_cons, tagged, modify change keeps, cons_append]
    · rename_i none
      split at found
      · rename_i here
        cases found
        obtain ⟨inside, kind, name⟩ := here
        have under : l.under tag = some ns := of_decide_eq_true inside
        refine ⟨[], l, tagged (l.under tag) lines, by rw [tagged, under, nil_append], rfl, ?_,
          findFrom_none none, fun change keeps => ?_⟩
        · simp [isEntry, kind, name]
        · rw [modify_zero_cons, tagged, keeps.under, under, nil_append]
      · cases found

theorem insertPlace_some {i : ℕ} (found : insertPlace ns (decide (tag = some ns)) lines = some i) :
    ∃ front back, tagged tag lines = front ++ back ∧ ∀ entry : Line, entry.kind = .entry →
      tagged tag (lines.take i ++ entry :: lines.drop i) = front ++ (some ns, entry) :: back := by
  induction lines generalizing tag i with
  | nil => cases found
  | cons l lines ih =>
    rw [insertPlace, enters_eq] at found
    split at found
    · rename_i j later
      cases found
      obtain ⟨front, back, eq, insert⟩ := ih later
      refine ⟨(l.under tag, l) :: front, back, by rw [tagged, eq, cons_append],
        fun entry kind => ?_⟩
      rw [take_succ_cons, drop_succ_cons, cons_append, tagged, insert entry kind,
        cons_append]
    · split at found
      · rename_i here
        cases found
        have under : l.under tag = some ns := of_decide_eq_true here.1
        refine ⟨[(l.under tag, l)], tagged (l.under tag) lines, rfl, fun entry kind => ?_⟩
        have stays : entry.under (some ns) = some ns := by
          unfold Line.under
          rw [kind]
          rfl
        simp only [take_succ_cons, take_zero, drop_succ_cons, drop_zero,
          cons_append, nil_append, tagged, under, stays]
      · cases found

theorem tagged_remove (ns : Bytes) (key : Option Bytes) (tag : Option Bytes) (lines : List Line) :
    tagged tag (removeEntries ns key (decide (tag = some ns)) lines).1 =
      (tagged tag lines).filter fun p =>
        !decide (p.1 = some ns ∧ p.2.kind = .entry ∧ ∀ k ∈ key, p.2.name = k) := by
  induction lines generalizing tag with
  | nil => rfl
  | cons l lines ih =>
    rw [removeEntries, enters_eq]
    dsimp only
    split
    · rename_i drops
      obtain ⟨inside, kind, name⟩ := drops
      have stays : l.under tag = tag := by
        unfold Line.under
        rw [kind]
        rfl
      have under : l.under tag = some ns := of_decide_eq_true inside
      have later := ih (l.under tag)
      rw [tagged, filter_cons_of_neg (by simpa [under, kind] using name), ← later, stays]
    · rename_i keeps
      have later := ih (l.under tag)
      rw [tagged, tagged, filter_cons_of_pos, later]
      rw [Bool.not_eq_true', decide_eq_false_iff_not]
      rwa [decide_eq_true_eq] at keeps

end

def sectionLine (ns : Bytes) : Line :=
  { kind := .sect, text := byte '[' :: (putName ns ++ [byte ']']), name := ns }

/-- Lines that `insert_entry` adds beside the entry. -/
def Beside (ns : Bytes) (more : List (Option Bytes × Line)) : Prop :=
  ∀ p ∈ more, p.2 = .asRaw [] ∨ p = (some ns, sectionLine ns)

theorem tagged_section (ns : Bytes) {entry : Line} (kind : entry.kind = .entry)
    (lines : List Line) : tagged none (lines ++ [sectionLine ns, entry]) =
      tagged none lines ++ [(some ns, sectionLine ns), (some ns, entry)] := by
  obtain ⟨last, eq⟩ := tagged_append none lines [sectionLine ns, entry]
  rw [eq]
  simp [tagged, Line.under, sectionLine, kind]

theorem insertEntry_spec (ns : Bytes) {entry : Line} (kind : entry.kind = .entry)
    (lines : List Line) : ∃ front more back, tagged none lines = front ++ back ∧ Beside ns more ∧
      tagged none (insertEntry ns entry lines) = front ++ more ++ (some ns, entry) :: back := by
  unfold insertEntry
  cases place : insertPlace ns false lines with
  | some i =>
    have place' : insertPlace ns (decide ((none : Option Bytes) = some ns)) lines = some i := place
    obtain ⟨front, back, eq, insert⟩ := insertPlace_some place'
    exact ⟨front, [], back, eq, forall_mem_nil _, by rw [append_nil]; exact insert entry kind⟩
  | none =>
    have alone : Beside ns [(some ns, sectionLine ns)] := by
      rintro p (_ | ⟨_, ⟨⟩⟩)
      exact .inr rfl
    have added : ∃ front more back, tagged none lines = front ++ back ∧ Beside ns more ∧
        tagged none (lines ++ [sectionLine ns, entry]) =
          front ++ more ++ (some ns, entry) :: back :=
      ⟨tagged none lines, [(some ns, sectionLine ns)], [], (append_nil _).symm, alone,
        by rw [tagged_section ns kind, append_assoc]; rfl⟩
    dsimp only
    split
    · exact added
    · split
      · exact added
      · obtain ⟨last, eq⟩ := tagged_append none lines [.asRaw []]
        refine ⟨tagged none lines, [(last, .asRaw []), (some ns, sectionLine ns)], [],
          (append_nil _).symm, ?_, ?_⟩
        · rintro p (_ | ⟨_, member⟩)
          · exact .inl rfl
          · exact alone p member
        · refine (tagged_section ns kind _).trans ?_
          rw [eq, append_assoc, append_assoc]
          rfl

theorem split_unique {α : Type} {counts : α → Bool} {front back front' back' : List α} {x x' : α}
    (same : front ++ x :: back = front' ++ x' :: back') (none : ∀ y ∈ front, counts y = false)
    (last : ∀ y ∈ back, counts y = false) (here : counts x' = true) :
    front = front' ∧ x = x' ∧ back = back' := by
  rcases append_eq_append_iff.mp same with ⟨between, eq, eq'⟩ | ⟨between, eq, eq'⟩
  · cases between with
    | nil =>
      rw [nil_append] at eq'
      obtain ⟨rfl, rfl⟩ := List.cons.inj eq'
      exact ⟨by rw [eq, append_nil], rfl, rfl⟩
    | cons y between =>
      obtain ⟨rfl, rest⟩ := List.cons.inj eq'
      rw [last x' (by rw [rest]; simp)] at here
      cases here
  · cases between with
    | nil =>
      rw [nil_append] at eq'
      obtain ⟨rfl, rfl⟩ := List.cons.inj eq'
      exact ⟨by rw [eq, append_nil], rfl, rfl⟩
    | cons y between =>
      obtain ⟨rfl, rest⟩ := List.cons.inj eq'
      rw [none x' (by rw [eq]; simp)] at here
      cases here

/-- The entry that `set_value` begins with for a new key. -/
def newEntry (key : Bytes) : Line :=
  { kind := .entry, text := putName key, name := key, keyEnd := (putName key).length
    valueEnd := (putName key).length }

theorem keeps_change (type : VType) (value : Value) : Keeps (Line.change type value) :=
  fun _ => ⟨rfl, rfl⟩

theorem not_entry_of_beside {ns key other : Bytes} {more : List (Option Bytes × Line)}
    (beside : Beside ns more) : ∀ p ∈ more, isEntry other key p = false := by
  intro p member
  rcases beside p member with raw | rfl
  · simp [isEntry, raw, Line.asRaw]
  · simp [isEntry, sectionLine]

/-- `set_value` changes the last entry of the key, or adds one that it changes. -/
theorem setEntry_spec (ns key : Bytes) (type : VType) (value : Value) (lines : List Line) :
    (∃ front l back, tagged none lines = front ++ (some ns, l) :: back ∧
        isEntry ns key (some ns, l) = true ∧ (∀ p ∈ back, isEntry ns key p = false) ∧
        tagged none (setEntry ns key type value lines) =
          front ++ (some ns, l.change type value) :: back) ∨
      ∃ front more back, tagged none lines = front ++ back ∧
        (∀ p ∈ front ++ back, isEntry ns key p = false) ∧ Beside ns more ∧
        tagged none (setEntry ns key type value lines) =
          front ++ more ++ (some ns, (newEntry key).change type value) :: back := by
  have outside : decide ((none : Option Bytes) = some ns) = false := by simp
  unfold setEntry
  cases found : findEntry ns key lines with
  | some i =>
    rw [findEntry, ← outside] at found
    obtain ⟨front, l, back, eq, -, entry, last, modify⟩ := findFrom_some found
    exact .inl ⟨front, l, back, eq, entry, last, modify _ (keeps_change type value)⟩
  | none =>
    rw [findEntry, ← outside] at found
    have none' := findFrom_none found
    have entry : (newEntry key).kind = .entry := rfl
    obtain ⟨front, more, back, eq, beside, insert⟩ := insertEntry_spec ns entry lines
    refine .inr ⟨front, more, back, eq, by rwa [← eq], beside, ?_⟩
    have here : isEntry ns key (some ns, newEntry key) = true := by simp [isEntry, newEntry]
    dsimp only
    rw [← newEntry]
    cases again : findEntry ns key (insertEntry ns (newEntry key) lines) with
    | none =>
      rw [findEntry, ← outside] at again
      have absent := findFrom_none again (some ns, newEntry key) (by rw [insert]; simp)
      rw [here] at absent
      cases absent
    | some i =>
      rw [findEntry, ← outside] at again
      obtain ⟨front', l, back', eq', -, entry, -, modify⟩ := findFrom_some again
      rw [insert] at eq'
      rw [eq] at none'
      have alone : ∀ p ∈ front ++ more, isEntry ns key p = false := by
        intro p member
        rcases mem_append.mp member with first | beside'
        · exact none' p (mem_append_left _ first)
        · exact not_entry_of_beside beside p beside'
      obtain ⟨frontEq, lEq, backEq⟩ := split_unique eq' alone
        (fun p member => none' p (mem_append_right _ member)) entry
      obtain ⟨-, rfl⟩ := Prod.mk.inj lEq
      rw [frontEq, backEq]
      exact modify _ (keeps_change type value)

end EspDevkit.Nvs
