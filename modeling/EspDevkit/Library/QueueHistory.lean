import Mathlib.Data.List.Basic

/-!
# What becomes of the elements of a queue

Elements are put at the end of a queue and leave it at the front, taken or
discarded.
-/

namespace QueueHistory

open List

variable {α : Type*}

inductive Move (α : Type*) where
  | put (element : α)
  | taken (element : α)
  | discarded (element : α)

inductive Moves : List α → List (Move α) → List α → Prop
  | refl (queue : List α) : Moves queue [] queue
  | put {queue after : List α} {moves : List (Move α)} (element : α) :
      Moves (queue ++ [element]) moves after → Moves queue (.put element :: moves) after
  | taken {queue after : List α} {moves : List (Move α)} (element : α) :
      Moves queue moves after → Moves (element :: queue) (.taken element :: moves) after
  | discarded {queue after : List α} {moves : List (Move α)} (element : α) :
      Moves queue moves after → Moves (element :: queue) (.discarded element :: moves) after

def Move.wasPut : Move α → Option α
  | .put element => some element
  | _ => none

def Move.wasTaken : Move α → Option α
  | .taken element => some element
  | _ => none

namespace Moves

variable {before between after : List α} {moves later : List (Move α)}

theorem trans (first : Moves before moves between) (second : Moves between later after) :
    Moves before (moves ++ later) after := by
  induction first with
  | refl => exact second
  | put element _ ih => exact .put element (ih second)
  | taken element _ ih => exact .taken element (ih second)
  | discarded element _ ih => exact .discarded element (ih second)

theorem puts (queue elements : List α) :
    Moves queue (elements.map .put) (queue ++ elements) := by
  induction elements generalizing queue with
  | nil =>
    rw [append_nil]
    exact .refl queue
  | cons element rest ih =>
    have moved := ih (queue ++ [element])
    rw [append_assoc] at moved
    exact .put element moved

theorem takes (elements queue : List α) :
    Moves (elements ++ queue) (elements.map .taken) queue := by
  induction elements with
  | nil => exact .refl queue
  | cons element rest ih => exact .taken element ih

theorem discards (elements queue : List α) :
    Moves (elements ++ queue) (elements.map .discarded) queue := by
  induction elements with
  | nil => exact .refl queue
  | cons element rest ih => exact .discarded element ih

/-- Each element that was put has left, taken or discarded, or is still there;
first put, first out. -/
theorem fates (moved : Moves before moves after) :
    ∃ fates : List (Bool × α), before ++ moves.filterMap Move.wasPut = fates.map Prod.snd ++ after ∧
      moves.filterMap Move.wasTaken = (fates.filter Prod.fst).map Prod.snd ∧
      ∀ element, (false, element) ∈ fates → Move.discarded element ∈ moves := by
  induction moved with
  | refl => exact ⟨[], by simp, rfl, fun _ member => by cases member⟩
  | put element _ ih =>
    obtain ⟨fates, all, takens, lost⟩ := ih
    exact ⟨fates, by simpa [filterMap_cons, Move.wasPut] using all,
      by simpa [filterMap_cons, Move.wasTaken] using takens,
      fun other member => .tail _ (lost other member)⟩
  | taken element _ ih =>
    obtain ⟨fates, all, takens, lost⟩ := ih
    refine ⟨(true, element) :: fates, by simpa [filterMap_cons, Move.wasPut] using all,
      by simpa [filterMap_cons, Move.wasTaken] using takens, fun other member => ?_⟩
    rcases mem_cons.mp member with same | member
    · cases same
    · exact .tail _ (lost other member)
  | discarded element _ ih =>
    obtain ⟨fates, all, takens, lost⟩ := ih
    refine ⟨(false, element) :: fates, by simpa [filterMap_cons, Move.wasPut] using all,
      by simpa [filterMap_cons, Move.wasTaken] using takens, fun other member => ?_⟩
    rcases mem_cons.mp member with same | member
    · cases same
      exact .head _
    · exact .tail _ (lost other member)

end Moves

end QueueHistory
