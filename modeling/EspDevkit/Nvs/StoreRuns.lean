import EspDevkit.Nvs.StoreFile
import Mathlib.Data.List.Count

/-!
# What calls do to the settings

The settings of a store are the type and the value found for each key of each
namespace.
-/

namespace EspDevkit.Nvs

open List

abbrev Settings := Bytes → Bytes → Option (VType × Value)

def settings (lines : List Line) : Settings := fun ns key =>
  match findEntry ns key lines with
  | some i => lines[i]?.map fun l => (l.type, l.value)
  | none => none

def occurrences (ns key : Bytes) (lines : List Line) : ℕ :=
  (tagged none lines).countP (isEntry ns key)

inductive Change
  | set (ns key : CString) (setting : Setting)
  | erase (ns : CString) (key : Option CString)

namespace Change

def covers (ns key : Bytes) : Change → Bool
  | .set ns' key' _ => decide (ns = ns'.bytes ∧ key = key'.bytes)
  | .erase ns' key' => decide (ns = ns'.bytes ∧ ∀ k ∈ key', key = k.bytes)

def concerns (change : Change) (p : Option Bytes × Line) : Bool :=
  match p.1 with
  | some ns => decide (p.2.kind = .entry) && change.covers ns p.2.name
  | none => false

def value : Change → Option (VType × Value)
  | .set _ _ setting => some (setting.type, setting.value)
  | .erase _ _ => none

def apply : Change → List Line → List Line
  | .set ns key setting, lines => setEntry ns.bytes key.bytes setting.type setting.value lines
  | .erase ns key, lines => (removeEntries ns.bytes (key.map CString.bytes) false lines).1

def after (change : Change) (before : Settings) : Settings := fun ns key =>
  if change.covers ns key then change.value else before ns key

end Change

theorem settings_eq (lines : List Line) (ns key : Bytes) :
    settings lines ns key =
      ((tagged none lines).filter (isEntry ns key)).getLast?.map fun p => (p.2.type, p.2.value) := by
  have outside : decide ((none : Option Bytes) = some ns) = false := by simp
  unfold settings
  cases found : findEntry ns key lines with
  | none =>
    rw [findEntry, ← outside] at found
    have absent : (tagged none lines).filter (isEntry ns key) = [] :=
      filter_eq_nil_iff.mpr fun p member => by simp [findFrom_none found p member]
    rw [absent]
    rfl
  | some i =>
    rw [findEntry, ← outside] at found
    obtain ⟨front, l, back, eq, at', entry, last, -⟩ := findFrom_some found
    have behind : back.filter (isEntry ns key) = [] :=
      filter_eq_nil_iff.mpr fun p member => by simp [last p member]
    rw [eq, filter_append, filter_cons_of_pos entry, behind, List.getLast?_concat]
    simp [at']

theorem filter_none {α : Type} {counts : α → Bool} {l : List α}
    (none : ∀ x ∈ l, counts x = false) : l.filter counts = [] :=
  filter_eq_nil_iff.mpr fun x member => by simp [none x member]

theorem occurrences_eq (ns key : Bytes) (lines : List Line) :
    occurrences ns key lines = ((tagged none lines).filter (isEntry ns key)).length :=
  countP_eq_length_filter

theorem concerns_set (ns key : CString) (setting : Setting) (p : Option Bytes × Line) :
    (Change.set ns key setting).concerns p = isEntry ns.bytes key.bytes p := by
  obtain ⟨tag, l⟩ := p
  cases tag with
  | none => simp [Change.concerns, isEntry]
  | some ns' =>
    simp only [Change.concerns, Change.covers, isEntry, Option.some.injEq]
    rw [Bool.eq_iff_iff]
    simp only [Bool.and_eq_true, decide_eq_true_eq]
    tauto

theorem concerns_entry {change : Change} {ns key : Bytes} {p : Option Bytes × Line}
    (entry : isEntry ns key p = true) : change.concerns p = change.covers ns key := by
  obtain ⟨tag, l⟩ := p
  obtain ⟨rfl, kind, rfl⟩ := of_decide_eq_true entry
  simp only [Change.concerns]
  dsimp only at kind
  simp [kind]

/-- What a change does to the lines of a key: those of another stay, and one that
is set has the value at its end. -/
structure Changed (change : Change) (before after : List (Option Bytes × Line)) : Prop where
  settled : (∀ p ∈ before, Settled p) → ∀ p ∈ after, Settled p
  others : ∀ ns key, change.covers ns key = false →
    after.filter (isEntry ns key) = before.filter (isEntry ns key)
  value : ∀ ns key, change.covers ns key = true →
    (after.filter (isEntry ns key)).getLast?.map (fun p => (p.2.type, p.2.value)) = change.value
  count : ∀ ns key, change.covers ns key = true →
    (after.filter (isEntry ns key)).length ≤ max 1 (before.filter (isEntry ns key)).length
  kept : (before.filter fun p => !change.concerns p).Sublist after

section

variable {ns key : CString} {setting : Setting}

theorem covers_set {ns' key' : Bytes}
    (covers : (Change.set ns key setting).covers ns' key' = true) :
    ns' = ns.bytes ∧ key' = key.bytes :=
  of_decide_eq_true covers

theorem other_entry {ns' key' : Bytes} {p : Option Bytes × Line}
    (other : (Change.set ns key setting).covers ns' key' = false)
    (entry : isEntry ns.bytes key.bytes p = true) : isEntry ns' key' p = false := by
  cases this : isEntry ns' key' p with
  | false => rfl
  | true =>
    have concerns : (Change.set ns key setting).concerns p = _ := concerns_entry this
    rw [other, concerns_set, entry] at concerns
    cases concerns

theorem changed_replace {front back : List (Option Bytes × Line)} {l l' : Line}
    (entry : isEntry ns.bytes key.bytes (some ns.bytes, l) = true)
    (entry' : isEntry ns.bytes key.bytes (some ns.bytes, l') = true)
    (last : ∀ p ∈ back, isEntry ns.bytes key.bytes p = false)
    (value : (l'.type, l'.value) = (setting.type, setting.value))
    (settled : Settled (some ns.bytes, l) → Settled (some ns.bytes, l')) :
    Changed (.set ns key setting) (front ++ (some ns.bytes, l) :: back)
      (front ++ (some ns.bytes, l') :: back) where
  settled all p member := by
    simp only [mem_append, mem_cons] at member
    rcases member with first | rfl | later
    · exact all p (mem_append_left _ first)
    · exact settled (all _ (by simp))
    · exact all p (by simp [later])
  others ns' key' other := by
    rw [filter_append, filter_append,
      filter_cons_of_neg (by simp [other_entry other entry']),
      filter_cons_of_neg (by simp [other_entry other entry])]
  value ns' key' covers := by
    obtain ⟨rfl, rfl⟩ := covers_set covers
    rw [filter_append, filter_cons_of_pos entry', filter_none last,
      List.getLast?_concat, Option.map_some, value]
    rfl
  count ns' key' covers := by
    obtain ⟨rfl, rfl⟩ := covers_set covers
    rw [filter_append, filter_append, filter_cons_of_pos entry',
      filter_cons_of_pos entry, length_append, length_append, length_cons,
      length_cons]
    exact Nat.le_max_right _ _
  kept := by
    rw [filter_append, filter_cons_of_neg (by simp [concerns_set, entry])]
    exact filter_sublist.append (filter_sublist.trans (sublist_cons_self _ _))

theorem changed_add {front more back : List (Option Bytes × Line)} {l : Line}
    (absent : ∀ p ∈ front ++ back, isEntry ns.bytes key.bytes p = false)
    (beside : Beside ns.bytes more)
    (entry : isEntry ns.bytes key.bytes (some ns.bytes, l) = true)
    (value : (l.type, l.value) = (setting.type, setting.value))
    (settled : Settled (some ns.bytes, l)) :
    Changed (.set ns key setting) (front ++ back) (front ++ more ++ (some ns.bytes, l) :: back) where
  settled all p member := by
    simp only [mem_append, mem_cons] at member
    rcases member with (first | added) | rfl | later
    · exact all p (mem_append_left _ first)
    · obtain ⟨tag, l'⟩ := p
      rcases beside _ added with blank | sect
      · obtain rfl : l' = .asRaw [] := blank
        exact settled_blank tag
      · rw [sect]
        exact settled_section ns.noNul
    · exact settled
    · exact all p (mem_append_right _ later)
  others ns' key' other := by
    rw [filter_append, filter_append,
      filter_cons_of_neg (by simp [other_entry other entry]), filter_append,
      filter_none (not_entry_of_beside beside), append_nil]
  value ns' key' covers := by
    obtain ⟨rfl, rfl⟩ := covers_set covers
    have behind := filter_none fun p member => absent p (mem_append_right _ member)
    rw [filter_append, filter_cons_of_pos entry, behind, List.getLast?_concat,
      Option.map_some, value]
    rfl
  count ns' key' covers := by
    obtain ⟨rfl, rfl⟩ := covers_set covers
    have before := filter_none fun p member => absent p (mem_append_left _ member)
    have behind := filter_none fun p member => absent p (mem_append_right _ member)
    rw [filter_append, filter_cons_of_pos entry, behind, filter_append, before,
      filter_none (not_entry_of_beside beside)]
    exact Nat.le_max_left _ _
  kept := by
    rw [append_assoc]
    refine filter_sublist.trans ((List.Sublist.refl front).append ?_)
    exact (sublist_cons_self _ _).trans (sublist_append_right _ _)

end

theorem change_set (ns key : CString) (setting : Setting) (lines : List Line) :
    Changed (.set ns key setting) (tagged none lines)
      (tagged none ((Change.set ns key setting).apply lines)) := by
  rw [Change.apply]
  rcases setEntry_spec ns.bytes key.bytes setting.type setting.value lines with
    ⟨front, l, back, eq, entry, last, eq'⟩ | ⟨front, more, back, eq, absent, beside, eq'⟩
  · rw [eq, eq']
    have kind : l.kind = .entry := (of_decide_eq_true entry).2.1
    exact changed_replace entry entry last rfl fun settled =>
      (ready_of_settled settled kind).settled_change setting.written ns.bytes
  · rw [eq, eq']
    exact changed_add absent beside (by simp [isEntry, newEntry, Line.change, Line.render]) rfl
      ((ready_newEntry key.noNul).settled_change setting.written ns.bytes)

theorem change_erase (ns : CString) (key : Option CString) (lines : List Line) :
    Changed (.erase ns key) (tagged none lines)
      (tagged none ((Change.erase ns key).apply lines)) := by
  have outside : decide ((none : Option Bytes) = some ns.bytes) = false := by simp
  have removed := tagged_remove ns.bytes (key.map CString.bytes) none lines
  rw [outside] at removed
  have drops : ∀ p, decide (p.1 = some ns.bytes ∧ p.2.kind = .entry ∧
      ∀ k ∈ key.map CString.bytes, p.2.name = k) = (Change.erase ns key).concerns p := by
    rintro ⟨tag, l⟩
    cases tag with
    | none => simp [Change.concerns]
    | some ns' =>
      rw [Bool.eq_iff_iff]
      simp only [Change.concerns, Change.covers, Bool.and_eq_true, decide_eq_true_eq,
        Option.some.injEq, Option.mem_def, Option.map_eq_some_iff, forall_exists_index, and_imp,
        forall_apply_eq_imp_iff₂]
      tauto
  simp only [drops] at removed
  rw [Change.apply, removed]
  have entries : ∀ ns' key', (tagged none lines).filter (fun p => isEntry ns' key' p &&
      !(Change.erase ns key).concerns p) = if (Change.erase ns key).covers ns' key' then [] else
        (tagged none lines).filter (isEntry ns' key') := by
    intro ns' key'
    split
    · rename_i covers
      refine filter_none fun p _ => ?_
      cases entry : isEntry ns' key' p with
      | false => rfl
      | true => rw [concerns_entry entry, covers]; rfl
    · rename_i other
      refine filter_congr fun p _ => ?_
      cases entry : isEntry ns' key' p with
      | false => rfl
      | true => rw [concerns_entry entry, eq_false_of_ne_true other]; rfl
  refine ⟨?_, ?_, ?_, ?_, List.Sublist.refl _⟩
  · exact fun all p member => all p (mem_of_mem_filter member)
  · intro ns' key' other
    rw [filter_filter, entries, other]
    rfl
  · intro ns' key' covers
    rw [filter_filter, entries, covers]
    rfl
  · intro ns' key' covers
    rw [filter_filter, entries, covers]
    exact Nat.zero_le _

theorem change_apply (change : Change) (lines : List Line) :
    Changed change (tagged none lines) (tagged none (change.apply lines)) := by
  cases change with
  | set ns key setting => exact change_set ns key setting lines
  | erase ns key => exact change_erase ns key lines

theorem settings_apply (change : Change) (lines : List Line) :
    settings (change.apply lines) = change.after (settings lines) := by
  have changed := change_apply change lines
  funext ns key
  rw [settings_eq, Change.after]
  split
  · rename_i covers
    exact changed.value ns key covers
  · rename_i other
    rw [changed.others ns key (eq_false_of_ne_true other), settings_eq]

theorem occurrences_apply (change : Change) (lines : List Line) (ns key : Bytes) :
    occurrences ns key (change.apply lines) ≤ max 1 (occurrences ns key lines) := by
  have changed := change_apply change lines
  rw [occurrences_eq, occurrences_eq]
  cases covers : change.covers ns key with
  | true => exact changed.count ns key covers
  | false =>
    rw [changed.others ns key covers]
    exact Nat.le_max_right _ _

namespace Store

def ofFile (file : Bytes) : Store := { lines := load file }

def change? (s : Store) : Call → Option Change
  | .set handle key setting =>
    match s.writable handle with
    | .error _ => none
    | .ok ns => some (.set ns key setting)
  | .eraseKey handle key =>
    match s.writable handle with
    | .error _ => none
    | .ok ns => some (.erase ns (some key))
  | .eraseAll handle =>
    match s.writable handle with
    | .error _ => none
    | .ok ns => some (.erase ns none)
  | .open' _ _ | .close _ | .commit _ => none

def run (s : Store) (calls : List Call) : Store := calls.foldl call s

def changes (s : Store) : List Call → List Change
  | [] => []
  | c :: calls => (s.change? c).toList ++ (s.call c).changes calls

theorem call_lines (s : Store) (c : Call) :
    (s.call c).lines = (s.change? c).toList.foldl
    (fun lines change => change.apply lines) s.lines := by
  cases c with
  | open' name readonly =>
    rw [call, nvsOpen]
    split <;> rfl
  | close handle =>
    rw [call, nvsClose]
    split <;> rfl
  | set handle key setting =>
    rw [call, setValue, change?]
    cases s.writable handle <;> rfl
  | eraseKey handle key =>
    rw [call, nvsEraseKey, change?]
    cases s.writable handle <;> rfl
  | eraseAll handle =>
    rw [call, nvsEraseAll, change?]
    cases s.writable handle <;> rfl
  | commit handle =>
    rw [call, nvsCommit]
    split <;> rfl

theorem run_lines (s : Store) (calls : List Call) :
    (s.run calls).lines = (s.changes calls).foldl
    (fun lines change => change.apply lines) s.lines := by
  induction calls generalizing s with
  | nil => rfl
  | cons c calls ih =>
    rw [changes, foldl_append, ← call_lines]
    exact ih (s.call c)

end Store

section

variable (changes : List Change) (lines : List Line)

theorem settings_run : settings (changes.foldl (fun lines change => change.apply lines) lines) =
    changes.foldl (fun before change => change.after before) (settings lines) := by
  induction changes generalizing lines with
  | nil => rfl
  | cons change changes ih => rw [foldl_cons, foldl_cons, ih, settings_apply]

theorem occurrences_run (ns key : Bytes) :
    occurrences ns key (changes.foldl (fun lines change => change.apply lines) lines) ≤
      max 1 (occurrences ns key lines) := by
  induction changes generalizing lines with
  | nil => exact Nat.le_max_right _ _
  | cons change changes ih =>
    have first := occurrences_apply change lines ns key
    have rest := ih (change.apply lines)
    rw [foldl_cons]
    omega

theorem settled_run (settled : ∀ p ∈ tagged none lines, Settled p) :
    ∀ p ∈ tagged none (changes.foldl (fun lines change => change.apply lines) lines),
      Settled p := by
  induction changes generalizing lines with
  | nil => exact settled
  | cons change changes ih => exact ih _ ((change_apply change lines).settled settled)

def untouched : List (Option Bytes × Line) :=
  (tagged none lines).filter fun p => changes.all fun change => !change.concerns p

theorem untouched_run : (untouched changes lines).Sublist
    (tagged none (changes.foldl (fun lines change => change.apply lines) lines)) := by
  induction changes generalizing lines with
  | nil => exact filter_sublist
  | cons change changes ih =>
    have first := (change_apply change lines).kept.filter
      fun p => changes.all fun change => !change.concerns p
    rw [filter_filter] at first
    have same : untouched (change :: changes) lines = (tagged none lines).filter fun p =>
        (changes.all fun change => !change.concerns p) && !change.concerns p :=
      filter_congr fun p _ => Bool.and_comm _ _
    rw [same]
    exact first.trans (ih (change.apply lines))

end

/-- The file that calls leave is read as the store they leave, where each key has
what it was set to last and the lines of other entries stand as they stood. -/
theorem store_reloads (file : Bytes) (calls : List Call)
    (endings : ∀ line ∈ splitLines file, (stripCr line).getLast? ≠ some (byte '\r')) :
    load (save ((Store.ofFile file).run calls).lines) = ((Store.ofFile file).run calls).lines ∧
      settings (load (save ((Store.ofFile file).run calls).lines)) =
        ((Store.ofFile file).changes calls).foldl (fun before change => change.after before)
          (settings (load file)) ∧
      (∀ ns key, occurrences ns key (load (save ((Store.ofFile file).run calls).lines)) ≤
        max 1 (occurrences ns key (load file))) ∧
      (load file).map Line.text = (splitLines file).map stripCr ∧
      (untouched ((Store.ofFile file).changes calls) (load file)).Sublist
        (tagged none (load (save ((Store.ofFile file).run calls).lines))) := by
  have start : ∀ p ∈ tagged none (loadLines (none : Option Bytes).isSome (splitLines file)),
      Settled p := settled_loadLines (plain_of_file endings)
  have lines : ((Store.ofFile file).run calls).lines = ((Store.ofFile file).changes calls).foldl
      (fun lines change => change.apply lines) (load file) := Store.run_lines _ _
  have again : load (save ((Store.ofFile file).run calls).lines) =
      ((Store.ofFile file).run calls).lines := by
    rw [lines]
    exact load_save (settled_run _ _ start)
  rw [again]
  refine ⟨rfl, ?_, ?_, loadLines_text false _, ?_⟩
  · rw [lines]
    exact settings_run _ _
  · rw [lines]
    exact occurrences_run _ _
  · rw [lines]
    exact untouched_run _ _

/-- A run over a file with a comment, an entry and a CRLF. -/
theorem store_reloads_written :
    let bytes := fun chars : List Char => chars.map byte
    let file := bytes ['[', 'a', ']', '\r', '\n', '#', 'c', '\n', 'x', '=', '1', ' ', '#', 'k']
    let quote : CString := ⟨bytes ['q', '"', '\n'], by decide⟩
    let calls : List Call :=
      [.open' ⟨bytes ['a'], by decide⟩ false, .set 1 ⟨bytes ['x'], by decide⟩ (nvsSetU16 300),
        .set 1 ⟨bytes ['y', '.'], by decide⟩ (nvsSetStr quote),
        .set 1 ⟨bytes ['z'], by decide⟩ (nvsSetI8 (-1)), .eraseKey 1 ⟨bytes ['z'], by decide⟩]
    let again := load (save ((Store.ofFile file).run calls).lines)
    settings again (bytes ['a']) (bytes ['x']) = some (.u16, .int false 300) ∧
      settings again (bytes ['a']) (bytes ['y', '.']) = some (.str, .str quote.bytes) ∧
      settings again (bytes ['a']) (bytes ['z']) = none ∧
      bytes ['#', 'c'] ∈ again.map Line.text := by
  intro bytes file quote calls again
  have endings : ∀ line ∈ splitLines file, (stripCr line).getLast? ≠ some (byte '\r') := by
    decide +kernel
  obtain ⟨same, found, -, -, -⟩ := store_reloads file calls endings
  refine ⟨?_, ?_, ?_, ?_⟩
  · exact (congrFun (congrFun found _) _).trans (by decide +kernel)
  · exact (congrFun (congrFun found _) _).trans (by decide +kernel)
  · exact (congrFun (congrFun found _) _).trans (by decide +kernel)
  · rw [show again = _ from same]
    decide +kernel

/-- A key that the file has twice stays there twice, its lines end with LF alone,
what is behind a NUL is gone, and a line that ended with two CRs is another when it
is read again. -/
theorem store_changes_lines :
    let bytes := fun chars : List Char => chars.map byte
    let twice := bytes ['[', 'a', ']', '\n', 'x', '=', '1', '\n', 'x', '=', '2', '\n']
    let calls : List Call :=
      [.open' ⟨bytes ['a'], by decide⟩ false, .set 1 ⟨bytes ['y'], by decide⟩ (nvsSetU8 3)]
    let returns := bytes ['[', 'a', ']', '\n', 'x', '=', '1', ' ', '\r', '\r', '\n']
    occurrences (bytes ['a']) (bytes ['x'])
        (load (save ((Store.ofFile twice).run calls).lines)) = 2 ∧
      save (load (bytes ['#', '\r', '\n'])) = bytes ['#', '\n'] ∧
      save (load (byte '#' :: 0 :: bytes ['c', '\n'])) = bytes ['#', '\n'] ∧
      settings (load returns) (bytes ['a']) (bytes ['x']) = none ∧
      settings (load (save (load returns))) (bytes ['a']) (bytes ['x']) =
        some (.none, .int false 1) := by
  decide +kernel

end EspDevkit.Nvs
