import Mathlib.Data.List.Nodup
import Mathlib.Data.List.Infix
import Mathlib.Logic.Function.Basic

/-!
# Intrusive lists

A doubly linked list whose links are kept in its nodes: what it means that the
links thread a list of nodes, how the list changes when a node is linked in or
taken out by setting the links around it, and where a walk along the links
ends.
-/

namespace Threaded

open List

variable {Node : Type*}

def Chain (prev next : Node → Option Node) : Option Node → List Node → Option Node → Prop
  | _, [], _ => True
  | before, node :: rest, after =>
    prev node = before ∧ next node = rest.head?.or after ∧
      Chain prev next (some node) rest after

structure Threads (prev next : Node → Option Node) (list : List Node) : Prop where
  nodup : list.Nodup
  chain : Chain prev next none list none

namespace Chain

variable {prev next prev' next' : Node → Option Node} {before after before' after' : Option Node}
  {list first second : List Node}

theorem append : Chain prev next before (first ++ second) after ↔
    Chain prev next before first (second.head?.or after) ∧
      Chain prev next (first.getLast?.or before) second after := by
  induction first generalizing before with
  | nil => simp [Chain]
  | cons node rest ih =>
    have head : (rest ++ second).head?.or after = rest.head?.or (second.head?.or after) := by
      cases rest <;> simp
    have last : (node :: rest).getLast?.or before = rest.getLast?.or (some node) := by
      cases rest <;> simp [List.getLast?_cons]
    simp only [cons_append, Chain, ih, head, last]
    constructor
    · rintro ⟨one, two, three, four⟩
      exact ⟨⟨one, two, three⟩, four⟩
    · rintro ⟨⟨one, two, three⟩, four⟩
      exact ⟨one, two, three, four⟩

theorem prev_head [DecidableEq Node] (chain : Chain prev next before list after) (node : Node) :
    (if list.head? = some node then before else prev node) = prev node := by
  split
  · rename_i head
    obtain ⟨rest, rfl⟩ := List.head?_eq_some_iff.mp head
    exact chain.1.symm
  · rfl

theorem relink [DecidableEq Node] (chain : Chain prev next before list after) (nodup : list.Nodup)
    (prevs : ∀ node ∈ list, prev' node = if list.head? = some node then before' else prev node)
    (nexts : ∀ node ∈ list,
      next' node = if list.getLast? = some node then after' else next node) :
    Chain prev' next' before' list after' := by
  induction list generalizing before before' with
  | nil => trivial
  | cons node rest ih =>
    obtain ⟨prevEq, nextEq, chain⟩ := chain
    obtain ⟨fresh, nodup⟩ := nodup_cons.mp nodup
    refine ⟨by simpa using prevs node (by simp), ?_, ?_⟩
    · rw [nexts node (by simp)]
      cases rest with
      | nil => simp
      | cons second rest =>
        have other : (node :: second :: rest).getLast? ≠ some node := by
          rw [List.getLast?_cons_cons]
          exact fun last => fresh (mem_of_getLast? last)
        rw [if_neg other, nextEq]
        simp
    · refine ih chain nodup (fun other member => ?_) fun other member => ?_
      · rw [prevs other (by simp [member])]
        have distinct : node ≠ other := fun same => fresh (same ▸ member)
        rw [List.head?_cons, if_neg (by simpa using distinct)]
        exact (chain.prev_head other).symm
      · rw [nexts other (by simp [member])]
        cases rest with
        | nil => simp at member
        | cons second rest => rw [List.getLast?_cons_cons]

theorem next_last [DecidableEq Node] (chain : Chain prev next before list after) (node : Node) :
    (if list.getLast? = some node then after else next node) = next node := by
  split
  · rename_i last
    obtain ⟨rest, rfl⟩ := List.getLast?_eq_some_iff.mp last
    have := (Chain.append.mp chain).2
    simpa [Chain] using this.2.1.symm
  · rfl

theorem congr (chain : Chain prev next before list after)
    (prevs : ∀ node ∈ list, prev' node = prev node)
    (nexts : ∀ node ∈ list, next' node = next node) : Chain prev' next' before list after := by
  induction list generalizing before with
  | nil => trivial
  | cons node rest ih =>
    obtain ⟨prevEq, nextEq, chain⟩ := chain
    exact ⟨(prevs node (by simp)).trans prevEq, (nexts node (by simp)).trans nextEq,
      ih chain (fun other member => prevs other (by simp [member]))
        fun other member => nexts other (by simp [member])⟩

theorem reverse (chain : Chain prev next before list after) :
    Chain next prev after list.reverse before := by
  induction list generalizing before with
  | nil => trivial
  | cons node rest ih =>
    obtain ⟨prevEq, nextEq, chain⟩ := chain
    rw [reverse_cons, append]
    refine ⟨ih chain, ?_, ?_, trivial⟩
    · simpa using nextEq
    · simpa using prevEq

end Chain

namespace Threads

variable {prev next prev' next' : Node → Option Node} {list first second : List Node}
  {node : Node}

theorem nil : Threads prev next [] := ⟨nodup_nil, trivial⟩

theorem congr (threads : Threads prev next list) (prevs : ∀ node ∈ list, prev' node = prev node)
    (nexts : ∀ node ∈ list, next' node = next node) : Threads prev' next' list :=
  ⟨threads.nodup, threads.chain.congr prevs nexts⟩

theorem links (threads : Threads prev next (first ++ node :: second)) :
    prev node = first.getLast? ∧ next node = second.head? := by
  obtain ⟨_, prevEq, nextEq, _⟩ := Chain.append.mp threads.chain
  exact ⟨by simpa using prevEq, by simpa using nextEq⟩

theorem unlink [DecidableEq Node] (threads : Threads prev next (first ++ node :: second))
    (prevs : ∀ other, other ≠ node →
      prev' other = if second.head? = some other then first.getLast? else prev other)
    (nexts : ∀ other, other ≠ node →
      next' other = if first.getLast? = some other then second.head? else next other) :
    Threads prev' next' (first ++ second) := by
  obtain ⟨left, _, _, right⟩ := Chain.append.mp threads.chain
  have nodup := threads.nodup
  rw [nodup_append] at nodup
  obtain ⟨nodupFirst, nodupRest, apart⟩ := nodup
  obtain ⟨fresh, nodupSecond⟩ := nodup_cons.mp nodupRest
  have notFirst : ∀ other ∈ first, other ≠ node := fun other member =>
    apart other member node (by simp)
  have notSecond : ∀ other ∈ second, other ≠ node := fun other member same => fresh (same ▸ member)
  have across : ∀ other ∈ first, other ∉ second := fun other member there =>
    apart other member other (by simp [there]) rfl
  refine ⟨?_, Chain.append.mpr ⟨?_, ?_⟩⟩
  · rw [nodup_append]
    exact ⟨nodupFirst, nodupSecond, fun one left other right => apart one left other (by simp [right])⟩
  · refine left.relink nodupFirst (fun other member => ?_) fun other member => ?_
    · rw [prevs other (notFirst other member),
        if_neg fun head => across other member (mem_of_head? head)]
      exact (left.prev_head other).symm
    · rw [nexts other (notFirst other member)]
      simp
  · refine right.relink nodupSecond (fun other member => ?_) fun other member => ?_
    · rw [prevs other (notSecond other member)]
      simp
    · rw [nexts other (notSecond other member),
        if_neg fun last => across other (mem_of_getLast? last) member]
      exact (right.next_last other).symm

theorem insert [DecidableEq Node] (threads : Threads prev next (first ++ second))
    (fresh : node ∉ first ++ second)
    (here : prev' node = first.getLast? ∧ next' node = second.head?)
    (prevs : ∀ other, other ≠ node →
      prev' other = if second.head? = some other then some node else prev other)
    (nexts : ∀ other, other ≠ node →
      next' other = if first.getLast? = some other then some node else next other) :
    Threads prev' next' (first ++ node :: second) := by
  obtain ⟨left, right⟩ := Chain.append.mp threads.chain
  obtain ⟨nodupFirst, nodupSecond, apart⟩ := nodup_append.mp threads.nodup
  rw [mem_append, not_or] at fresh
  have notFirst : ∀ other ∈ first, other ≠ node := fun other member same => fresh.1 (same ▸ member)
  have notSecond : ∀ other ∈ second, other ≠ node := fun other member same =>
    fresh.2 (same ▸ member)
  have across : ∀ other ∈ first, other ∉ second := fun other member there =>
    apart other member other there rfl
  refine ⟨?_, Chain.append.mpr ⟨?_, by simpa using here.1, by simpa using here.2, ?_⟩⟩
  · rw [nodup_append]
    refine ⟨nodupFirst, nodup_cons.mpr ⟨fresh.2, nodupSecond⟩, fun one left other right => ?_⟩
    rw [mem_cons] at right
    rcases right with rfl | right
    · exact notFirst one left
    · exact apart one left other right
  · refine left.relink nodupFirst (fun other member => ?_) fun other member => ?_
    · rw [prevs other (notFirst other member),
        if_neg fun head => across other member (mem_of_head? head)]
      exact (left.prev_head other).symm
    · rw [nexts other (notFirst other member)]
      simp
  · refine right.relink nodupSecond (fun other member => ?_) fun other member => ?_
    · rw [prevs other (notSecond other member)]
    · rw [nexts other (notSecond other member),
        if_neg fun last => across other (mem_of_getLast? last) member]
      exact (right.next_last other).symm

end Threads

/-- From a node along the links as long as `go` says so. -/
def walk (next : Node → Option Node) (go : Node → Bool) : ℕ → Option Node → Option Node
  | 0, at' => at'
  | _ + 1, none => none
  | fuel + 1, some node => if go node then walk next go fuel (next node) else some node

theorem walk_eq {prev next : Node → Option Node} {before : Option Node} {list : List Node}
    (chain : Chain prev next before list none) (go : Node → Bool) {fuel : ℕ}
    (enough : list.length ≤ fuel) : walk next go fuel list.head? = (list.dropWhile go).head? := by
  induction list generalizing before fuel with
  | nil => cases fuel <;> rfl
  | cons node rest ih =>
    obtain ⟨_, nextEq, chain⟩ := chain
    obtain ⟨fuel, rfl⟩ : ∃ more, fuel = more + 1 :=
      ⟨fuel - 1, by rw [length_cons] at enough; omega⟩
    rw [Option.or_none] at nextEq
    rw [List.head?_cons, walk, dropWhile_cons]
    split
    · rw [nextEq]
      exact ih chain (by rw [length_cons] at enough; omega)
    · rfl

theorem walk_last {prev next : Node → Option Node} {before : Option Node} {list : List Node}
    (chain : Chain prev next before list none) {fuel : ℕ} (enough : list.length ≤ fuel) :
    walk next (fun node => (next node).isSome) fuel list.head? = list.getLast? := by
  rw [walk_eq chain _ enough]
  induction list generalizing before fuel with
  | nil => rfl
  | cons node rest ih =>
    obtain ⟨_, nextEq, chain⟩ := chain
    rw [Option.or_none] at nextEq
    rw [dropWhile_cons, nextEq]
    cases rest with
    | nil => rfl
    | cons second rest =>
      rw [List.getLast?_cons_cons]
      exact ih chain (Nat.le_refl _)

def along (next : Node → Option Node) : ℕ → Option Node → List Node
  | 0, _ => []
  | _ + 1, none => []
  | fuel + 1, some node => node :: along next fuel (next node)

theorem along_eq {prev next : Node → Option Node} {before : Option Node} {list : List Node}
    (chain : Chain prev next before list none) (fuel : ℕ) :
    along next fuel list.head? = list.take fuel := by
  induction list generalizing before fuel with
  | nil => cases fuel <;> rfl
  | cons node rest ih =>
    obtain ⟨_, nextEq, chain⟩ := chain
    rw [Option.or_none] at nextEq
    cases fuel with
    | zero => rfl
    | succ fuel =>
      rw [List.head?_cons, along, take_succ_cons, nextEq, ih chain]

end Threaded
