import Mathlib.Data.Fintype.Card
import Mathlib.Data.Fintype.Option

/-!
# Linear probing

A table of `n` positions in a circle holds every value between its home and the first empty
position behind it.  A probe walks from the home, an insertion fills the first empty position, and
a removal closes the gap by shifting later values back.
-/

namespace EspDevkit.Library

open Option Function

namespace LinearProbing

variable {n : ℕ} {α : Type*}

section Circle

/-- The position behind `i`, around the circle. -/
def next (i : Fin n) : Fin n := ⟨(i + 1) % n, Nat.mod_lt _ i.pos⟩

/-- How far `y` lies behind `x` on the circle. -/
def distance (x y : Fin n) : ℕ := (y + n - x) % n

/-- The place of `x` on the line that begins behind `q` and ends at `q`. -/
def rank (q x : Fin n) : ℕ := if x.val ≤ q.val then x + (n - 1 - q) else x - (q + 1)

theorem rank_lt (q x : Fin n) : rank q x < n := by
  have below := x.isLt
  have bound := q.isLt
  unfold rank
  split <;> omega

theorem rank_add (q x : Fin n) : rank q x + (q + 1) = x ∨ rank q x + (q + 1) = x + n := by
  have bound := q.isLt
  unfold rank
  split <;> omega

theorem rank_self (q : Fin n) : rank q q = n - 1 := by
  have bound := q.isLt
  rw [rank, if_pos le_rfl]
  omega

theorem rank_injective (q : Fin n) : Function.Injective (rank q) := by
  intro x y same
  have below := x.isLt
  have bound := y.isLt
  have limit := q.isLt
  apply Fin.ext
  unfold rank at same
  split at same <;> split at same <;> omega

theorem rank_next {q x : Fin n} (inside : x ≠ q) : rank q (next x) = rank q x + 1 := by
  have below := x.isLt
  have bound := q.isLt
  have apart : x.val ≠ q.val := fun same => inside (Fin.ext same)
  have value : (next x).val = if x.val + 1 = n then 0 else x.val + 1 := by
    show (x.val + 1) % n = _
    split
    next last => rw [last, Nat.mod_self]
    next inner => exact Nat.mod_eq_of_lt (by omega)
  unfold rank
  rw [value]
  split_ifs <;> omega

/-- Distances read off the line: up it, or past its end and up again. -/
theorem distance_eq_rank (q x y : Fin n) :
    distance x y = if rank q x ≤ rank q y then rank q y - rank q x
      else n + rank q y - rank q x := by
  have below := rank_lt q x
  have bound := rank_lt q y
  have turns : distance x y = (rank q y + n - rank q x) % n := by
    have inside := x.isLt
    unfold distance
    rcases rank_add q x with first | first <;> rcases rank_add q y with second | second
    · rw [show y.val + n - x.val = rank q y + n - rank q x by omega]
    · rw [show rank q y + n - rank q x = y.val + n - x.val + n by omega, Nat.add_mod_right]
    · rw [show y.val + n - x.val = rank q y + n - rank q x + n by omega, Nat.add_mod_right]
    · rw [show y.val + n - x.val = rank q y + n - rank q x by omega]
  rw [turns]
  split
  next up =>
    rw [Nat.sub_add_comm up, Nat.add_mod_right]
    exact Nat.mod_eq_of_lt (by omega)
  next past =>
    rw [Nat.mod_eq_of_lt (by omega), Nat.add_comm]

theorem distance_of_le {q x y : Fin n} (up : rank q x ≤ rank q y) :
    distance x y = rank q y - rank q x := by
  rw [distance_eq_rank q, if_pos up]

end Circle

section Walk

/-- Walk from `i` to the first position where `stop` holds. -/
def probe (stop : Fin n → Bool) : ℕ → Fin n → Option (Fin n)
  | 0, _ => none
  | fuel + 1, i => if stop i then some i else probe stop fuel (next i)

theorem probe_eq {stop : Fin n → Bool} {q p : Fin n} (stops : stop p = true) :
    ∀ {fuel : ℕ} {i : Fin n}, rank q i ≤ rank q p → rank q p - rank q i < fuel →
      (∀ s, rank q i ≤ rank q s → rank q s < rank q p → stop s = false) →
      probe stop fuel i = some p := by
  intro fuel
  induction fuel with
  | zero => intro i _ short; omega
  | succ fuel ih =>
    intro i up short clear
    rw [probe]
    by_cases there : i = p
    · rw [there, if_pos stops]
    · have before : rank q i < rank q p :=
        lt_of_le_of_ne up fun same => there (rank_injective q same)
      have inside : i ≠ q := by
        rintro rfl
        have last := rank_self i
        have bound := rank_lt i p
        omega
      have step := rank_next inside
      rw [clear i le_rfl before, if_neg Bool.false_ne_true]
      exact ih (by omega) (by omega) fun s low => clear s (by omega)

theorem probe_ends (stop : Fin n → Bool) {q : Fin n} (stops : stop q = true) :
    ∀ (fuel : ℕ) (i : Fin n), n - 1 - rank q i < fuel →
      ∃ p, probe stop fuel i = some p ∧ stop p = true ∧ rank q i ≤ rank q p ∧
        ∀ s, rank q i ≤ rank q s → rank q s < rank q p → stop s = false := by
  intro fuel
  induction fuel with
  | zero => intro i short; omega
  | succ fuel ih =>
    intro i short
    rw [probe]
    by_cases here : stop i = true
    · exact ⟨i, if_pos here, here, le_rfl, fun s low high => absurd low (by omega)⟩
    · have inside : i ≠ q := by
        rintro rfl
        exact here stops
      have step := rank_next inside
      have bound := rank_lt q (next i)
      obtain ⟨p, walk, halt, up, clear⟩ := ih (next i) (by omega)
      refine ⟨p, by rw [if_neg here, walk], halt, by omega, ?_⟩
      intro s low high
      by_cases first : s = i
      · rw [first]
        exact Bool.eq_false_iff.mpr here
      · have apart : rank q s ≠ rank q i := fun same => first (rank_injective q same)
        exact clear s (by omega) high

end Walk

section Table

variable (home : α → Fin n)

/-- Every value is held once, with no empty position between its home and its place. -/
structure Probed (table : Fin n → Option α) : Prop where
  reach : ∀ p a, table p = some a → ∀ s, distance (home a) s < distance (home a) p → table s ≠ none
  single : ∀ p p' a, table p = some a → table p' = some a → p = p'

variable {home} {table : Fin n → Option α}

theorem probed_empty : Probed home (fun _ : Fin n => none) :=
  ⟨fun _ _ held => absurd held (by simp), fun _ _ _ held => absurd held (by simp)⟩

theorem Probed.congr {home' : α → Fin n} (probed : Probed home table)
    (same : ∀ p a, table p = some a → home' a = home a) : Probed home' table :=
  ⟨fun p a held s nearer => probed.reach p a held s (by rwa [same p a held] at nearer),
    probed.single⟩

theorem exists_empty [Fintype α] (probed : Probed home table) (room : Fintype.card α < n) :
    ∃ q, table q = none := by
  by_contra full
  have held : ∀ p, ∃ a, table p = some a := fun p =>
    ne_none_iff_exists'.mp fun empty => full ⟨p, empty⟩
  choose value stored using held
  have injective : Function.Injective value := fun p p' same =>
    probed.single p p' (value p) (stored p) (by rw [same]; exact stored p')
  have count := Fintype.card_le_of_injective value injective
  rw [Fintype.card_fin] at count
  omega

/-- On the line of an empty position a value's home is no later than its place. -/
theorem Probed.line (probed : Probed home table) {q : Fin n} (empty : table q = none)
    {p : Fin n} {a : α} (held : table p = some a) :
    rank q (home a) ≤ rank q p ∧
      ∀ s, rank q (home a) ≤ rank q s → rank q s < rank q p → table s ≠ none := by
  have up : rank q (home a) ≤ rank q p := by
    by_contra past
    refine probed.reach p a held q ?_ empty
    have end_ := rank_self q
    have low := rank_lt q (home a)
    rw [distance_eq_rank q, distance_eq_rank q, if_neg past, if_pos (by omega)]
    omega
  refine ⟨up, fun s low high => probed.reach p a held s ?_⟩
  rw [distance_of_le low, distance_of_le up]
  omega

/-- The converse of `Probed.line`. -/
theorem probed_of_line {q : Fin n}
    (line : ∀ p a, table p = some a → rank q (home a) ≤ rank q p ∧
      ∀ s, rank q (home a) ≤ rank q s → rank q s < rank q p → table s ≠ none)
    (single : ∀ p p' a, table p = some a → table p' = some a → p = p') :
    Probed home table := by
  refine ⟨fun p a held s nearer => ?_, single⟩
  obtain ⟨up, clear⟩ := line p a held
  rw [distance_eq_rank q (home a) s, distance_of_le up] at nearer
  have bound := rank_lt q p
  have low : rank q (home a) ≤ rank q s := by
    by_contra past
    rw [if_neg past] at nearer
    omega
  rw [if_pos low] at nearer
  exact clear s low (by omega)

section Find

variable (wanted : α → Bool)

theorem probe_found (probed : Probed home table) {q : Fin n} (empty : table q = none) {p : Fin n}
    {a : α} (held : table p = some a) (here : wanted a = true)
    (alone : ∀ p' b, table p' = some b → wanted b = true → b = a) :
    probe (fun i => (table i).all wanted) n (home a) = some p := by
  obtain ⟨up, clear⟩ := probed.line empty held
  have bound := rank_lt q p
  refine probe_eq (q := q) (by rw [held]; exact here) up (by omega) fun s low high => ?_
  obtain ⟨b, other⟩ := ne_none_iff_exists'.mp (clear s low high)
  rw [other, all_some]
  by_contra also
  have same := alone s b other (Bool.not_eq_false _ ▸ also)
  rw [same] at other
  rw [probed.single s p a other held] at high
  exact absurd high (lt_irrefl _)

/-- The walk from a value's home to its own place. -/
theorem probe_held [DecidableEq α] (probed : Probed home table) {q : Fin n} (empty : table q = none)
    {p : Fin n} {a : α} (held : table p = some a) :
    probe (fun i => table i == some a) n (home a) = some p := by
  obtain ⟨up, _⟩ := probed.line empty held
  have bound := rank_lt q p
  have stops : (fun i => table i == some a) p = true := beq_iff_eq.mpr held
  refine probe_eq (q := q) stops up (by omega) fun s low high => ?_
  refine beq_eq_false_iff_ne.mpr fun also => ?_
  rw [probed.single s p a also held] at high
  exact absurd high (lt_irrefl _)

theorem probe_missing {q : Fin n} (empty : table q = none)
    (missing : ∀ p b, table p = some b → wanted b = false) (i : Fin n) :
    ∃ p, probe (fun i => (table i).all wanted) n i = some p ∧ table p = none ∧
      rank q i ≤ rank q p ∧
      ∀ s, rank q i ≤ rank q s → rank q s < rank q p → table s ≠ none := by
  have bound := rank_lt q i
  have stops : (table q).all wanted = true := by rw [empty, all_none]
  obtain ⟨p, walk, halt, up, clear⟩ :=
    probe_ends (fun i => (table i).all wanted) stops n i (by omega)
  refine ⟨p, walk, ?_, up, ?_⟩
  · cases held : table p with
    | none => rfl
    | some b =>
      rw [held, all_some, missing p b held] at halt
      exact absurd halt Bool.false_ne_true
  · intro s low high none_
    have stops := clear s low high
    rw [none_] at stops
    exact absurd stops (by simp)

end Find

/-- Filling the first empty position behind a value's home. -/
theorem Probed.insert [DecidableEq α] (probed : Probed home table) {q p : Fin n} {a : α}
    (fresh : ∀ p', table p' ≠ some a)
    (up : rank q (home a) ≤ rank q p)
    (clear : ∀ s, rank q (home a) ≤ rank q s → rank q s < rank q p → table s ≠ none) :
    Probed home (Function.update table p (some a)) := by
  have kept : ∀ s, table s ≠ none → Function.update table p (some a) s ≠ none := by
    intro s some_
    by_cases here : s = p
    · rw [here, update_self]
      exact some_ne_none a
    · rwa [update_of_ne here]
  refine ⟨fun p' b held s nearer => ?_, fun p' p'' b held also => ?_⟩
  · by_cases here : p' = p
    · rw [here, update_self, Option.some.injEq] at held
      rw [here, ← held] at nearer
      have low : rank q (home a) ≤ rank q s := by
        by_contra past
        have bound := rank_lt q p
        rw [distance_eq_rank q, if_neg past, distance_of_le up] at nearer
        omega
      rw [distance_of_le low, distance_of_le up] at nearer
      exact kept s (clear s low (by omega))
    · rw [update_of_ne here] at held
      exact kept s (probed.reach p' b held s nearer)
  · by_cases first : p' = p <;> by_cases second : p'' = p
    · rw [first, second]
    · rw [first, update_self, Option.some.injEq] at held
      rw [update_of_ne second, ← held] at also
      exact absurd also (fresh p'')
    · rw [second, update_self, Option.some.injEq] at also
      rw [update_of_ne first, ← also] at held
      exact absurd held (fresh p')
    · rw [update_of_ne first] at held
      rw [update_of_ne second] at also
      exact probed.single p' p'' b held also

end Table

section Removal

variable (home : α → Fin n)

/-- Close the gap at `hole`: shift back every later value whose walk crosses it. -/
def closeGap : ℕ → (Fin n → Option α) → Fin n → Fin n → Option (Fin n → Option α)
  | 0, _, _, _ => none
  | fuel + 1, table, hole, cursor =>
    match table cursor with
    | none => some (Function.update table hole none)
    | some a =>
      if distance hole cursor ≤ distance (home a) cursor then
        closeGap fuel (Function.update table hole (some a)) cursor (next cursor)
      else
        closeGap fuel table hole (next cursor)

/-- The table while a gap closes: the value at `hole` is to go, everything between it and `cursor`
is in place. -/
structure Gap (q : Fin n) (table : Fin n → Option α) (hole cursor : Fin n) : Prop where
  empty : table q = none
  filled : table hole ≠ none
  behind : rank q hole < rank q cursor
  between : ∀ s, rank q hole < rank q s → rank q s < rank q cursor → table s ≠ none
  line : ∀ p a, p ≠ hole → table p = some a → rank q (home a) ≤ rank q p ∧
    ∀ s, rank q (home a) ≤ rank q s → rank q s < rank q p → table s ≠ none
  past : ∀ p a, table p = some a → rank q hole < rank q p → rank q p < rank q cursor →
    rank q hole < rank q (home a)
  single : ∀ p p' a, p ≠ hole → p' ≠ hole → table p = some a → table p' = some a → p = p'

variable {home} {q hole cursor : Fin n} {table : Fin n → Option α}

/-- At an empty position the gap closes. -/
theorem Gap.close (gap : Gap home q table hole cursor) (free : table cursor = none) :
    Probed home (Function.update table hole none) := by
  refine probed_of_line (q := q) ?_ ?_
  · intro p a held
    have other : p ≠ hole := by
      rintro rfl
      rw [update_self] at held
      exact absurd held (by simp)
    rw [update_of_ne other] at held
    obtain ⟨up, clear⟩ := gap.line p a other held
    refine ⟨up, fun s low high => ?_⟩
    have beside : s ≠ hole := by
      rintro rfl
      -- the walk of `a` would cross the gap and the empty position behind it
      have later : rank q cursor ≤ rank q p := by
        by_contra early
        have := gap.past p a held high (by omega)
        omega
      have behind := gap.behind
      refine clear cursor (by omega) (lt_of_le_of_ne later fun same => ?_) free
      rw [rank_injective q same, held] at free
      exact absurd free (by simp)
    rw [update_of_ne beside]
    exact clear s low high
  · intro p p' a held also
    have first : p ≠ hole := by
      rintro rfl
      rw [update_self] at held
      exact absurd held (by simp)
    have second : p' ≠ hole := by
      rintro rfl
      rw [update_self] at also
      exact absurd also (by simp)
    rw [update_of_ne first] at held
    rw [update_of_ne second] at also
    exact gap.single p p' a first second held also

variable {a : α}

theorem Gap.cursor_ne (gap : Gap home q table hole cursor) : cursor ≠ hole := by
  rintro rfl
  exact absurd gap.behind (lt_irrefl _)

/-- The gap moves to the value that is shifted back. -/
theorem Gap.shift (gap : Gap home q table hole cursor) (held : table cursor = some a)
    (crosses : rank q (home a) ≤ rank q hole) (step : rank q (next cursor) = rank q cursor + 1) :
    Gap home q (Function.update table hole (some a)) cursor (next cursor) := by
  have apart : q ≠ hole := fun same => gap.filled (same ▸ gap.empty)
  have kept : ∀ s, table s ≠ none → Function.update table hole (some a) s ≠ none := by
    intro s some_
    by_cases here : s = hole
    · rw [here, update_self]
      exact some_ne_none a
    · rwa [update_of_ne here]
  refine ⟨?_, ?_, by omega, fun s low high => absurd low (by omega), ?_, ?_, ?_⟩
  · rw [update_of_ne apart, gap.empty]
  · exact kept cursor (by rw [held]; exact some_ne_none a)
  · intro p b other at_
    by_cases here : p = hole
    · rw [here, update_self, Option.some.injEq] at at_
      subst at_
      rw [here]
      refine ⟨crosses, fun s low high => kept s ?_⟩
      have behind := gap.behind
      exact (gap.line cursor a gap.cursor_ne held).2 s low (by omega)
    · rw [update_of_ne here] at at_
      obtain ⟨up, clear⟩ := gap.line p b here at_
      exact ⟨up, fun s low high => kept s (clear s low high)⟩
  · intro p b at_ low high
    omega
  · intro p p' b other other' at_ at_'
    by_cases first : p = hole <;> by_cases second : p' = hole
    · rw [first, second]
    · rw [first, update_self, Option.some.injEq] at at_
      rw [update_of_ne second, ← at_] at at_'
      exact absurd (gap.single p' cursor a second gap.cursor_ne at_' held) other'
    · rw [second, update_self, Option.some.injEq] at at_'
      rw [update_of_ne first, ← at_'] at at_
      exact absurd (gap.single p cursor a first gap.cursor_ne at_ held) other
    · rw [update_of_ne first] at at_
      rw [update_of_ne second] at at_'
      exact gap.single p p' b first second at_ at_'

/-- A value whose walk does not cross the gap stays. -/
theorem Gap.pass (gap : Gap home q table hole cursor) (held : table cursor = some a)
    (beyond : rank q hole < rank q (home a)) (step : rank q (next cursor) = rank q cursor + 1) :
    Gap home q table hole (next cursor) := by
  have behind := gap.behind
  refine ⟨gap.empty, gap.filled, by omega, fun s low high => ?_, gap.line,
    fun p b at_ low high => ?_, gap.single⟩
  · by_cases here : s = cursor
    · rw [here, held]
      exact some_ne_none a
    · have apart : rank q s ≠ rank q cursor := fun same => here (rank_injective q same)
      exact gap.between s low (by omega)
  · by_cases here : p = cursor
    · rw [here, held, Option.some.injEq] at at_
      rw [← at_]
      exact beyond
    · have apart : rank q p ≠ rank q cursor := fun same => here (rank_injective q same)
      exact gap.past p b at_ low (by omega)

theorem shift_holds (gap : Gap home q table hole cursor) (held : table cursor = some a) (b : α) :
    (∃ p, p ≠ cursor ∧ Function.update table hole (some a) p = some b) ↔
      ∃ p, p ≠ hole ∧ table p = some b := by
  constructor
  · rintro ⟨p, other, at_⟩
    by_cases here : p = hole
    · rw [here, update_self] at at_
      exact ⟨cursor, gap.cursor_ne, by rw [held, at_]⟩
    · rw [update_of_ne here] at at_
      exact ⟨p, here, at_⟩
  · rintro ⟨p, other, at_⟩
    by_cases here : p = cursor
    · rw [here, held] at at_
      exact ⟨hole, fun same => gap.cursor_ne same.symm, by rw [update_self, at_]⟩
    · exact ⟨p, here, by rw [update_of_ne other, at_]⟩

/-- Closing a gap ends, and takes out the value at the gap and nothing else. -/
theorem closeGap_spec : ∀ (fuel : ℕ) {table : Fin n → Option α} {hole cursor : Fin n},
    Gap home q table hole cursor → n - 1 - rank q cursor < fuel →
      ∃ table', closeGap home fuel table hole cursor = some table' ∧ Probed home table' ∧
        ∀ b, (∃ p, table' p = some b) ↔ ∃ p, p ≠ hole ∧ table p = some b := by
  intro fuel
  induction fuel with
  | zero => intro table hole cursor _ short; omega
  | succ fuel ih =>
    intro table hole cursor gap short
    rw [closeGap]
    cases held : table cursor with
    | none =>
      refine ⟨_, rfl, gap.close held, fun b => ⟨fun ⟨p, at_⟩ => ?_, fun ⟨p, other, at_⟩ => ?_⟩⟩
      · have other : p ≠ hole := by
          rintro rfl
          rw [update_self] at at_
          exact absurd at_ (by simp)
        rw [update_of_ne other] at at_
        exact ⟨p, other, at_⟩
      · exact ⟨p, by rw [update_of_ne other, at_]⟩
    | some a =>
      have inside : cursor ≠ q := by
        rintro rfl
        rw [gap.empty] at held
        exact absurd held (by simp)
      have step := rank_next inside
      have bound := rank_lt q (next cursor)
      have up := (gap.line cursor a gap.cursor_ne held).1
      have behind := gap.behind
      have crossing : distance hole cursor ≤ distance (home a) cursor ↔
          rank q (home a) ≤ rank q hole := by
        rw [distance_of_le up, distance_of_le behind.le]
        omega
      by_cases crosses : rank q (home a) ≤ rank q hole
      · obtain ⟨table', walk, probed, same⟩ :=
          ih (gap.shift held crosses step) (by omega)
        refine ⟨table', by rw [← walk]; exact if_pos (crossing.mpr crosses), probed, ?_⟩
        exact fun b => (same b).trans (shift_holds gap held b)
      · obtain ⟨table', walk, probed, same⟩ :=
          ih (gap.pass held (by omega) step) (by omega)
        exact ⟨table', by rw [← walk]; exact if_neg (crosses ∘ crossing.mp), probed, same⟩

/-- Removing the value at `hole` from a table with an empty position. -/
theorem Probed.remove (probed : Probed home table) (empty : table q = none)
    (held : table hole = some a) :
    ∃ table', closeGap home n table hole (next hole) = some table' ∧ Probed home table' ∧
      ∀ b, (∃ p, table' p = some b) ↔ (∃ p, table p = some b) ∧ b ≠ a := by
  have inside : hole ≠ q := by
    rintro rfl
    rw [empty] at held
    exact absurd held (by simp)
  have step := rank_next inside
  have bound := rank_lt q (next hole)
  have gap : Gap home q table hole (next hole) :=
    { empty := empty
      filled := by rw [held]; exact some_ne_none a
      behind := by omega
      between := fun s low high => absurd low (by omega)
      line := fun p b _ at_ => probed.line empty at_
      past := fun p b _ low high => absurd low (by omega)
      single := fun p p' b _ _ => probed.single p p' b }
  obtain ⟨table', walk, after, same⟩ := closeGap_spec n gap (by omega)
  refine ⟨table', walk, after, fun b => (same b).trans ⟨?_, ?_⟩⟩
  · rintro ⟨p, other, at_⟩
    refine ⟨⟨p, at_⟩, ?_⟩
    rintro rfl
    exact other (probed.single p hole b at_ held)
  · rintro ⟨⟨p, at_⟩, apart⟩
    refine ⟨p, ?_, at_⟩
    rintro rfl
    rw [held, Option.some.injEq] at at_
    exact apart at_.symm

end Removal

end LinearProbing

end EspDevkit.Library
