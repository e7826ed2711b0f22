import CBase.Lib.Run

/-!
# The bounded FIFO

The machine that a queue of bounded capacity implements: its state is the list of the queued
elements, oldest first. `conservation` says what every run of it does: the elements that came out,
in order, followed by those still inside, are the elements that went in, in order.
-/

namespace Fifo

variable {α : Type}

/-- What one step does to the queued elements. `skip` is a step of the implementation that the
FIFO does not see. -/
inductive Event (α : Type) where
  | put (x : α)
  | get (x : α)
  | empty
  | skip

/-- The steps of a FIFO of capacity `cap`. -/
inductive Step (cap : Nat) (l : List α) : Event α → List α → Prop
  | put (x : α) : l.length < cap → Step cap l (.put x) (l ++ [x])
  | get (x : α) (l' : List α) : l = x :: l' → Step cap l (.get x) l'
  | empty : l = [] → Step cap l .empty l
  | skip : Step cap l .skip l

def Event.input : Event α → Option α
  | .put x => some x
  | _ => none

def Event.output : Event α → Option α
  | .get x => some x
  | _ => none

@[simp] theorem input_put (x : α) : (Event.put x).input = some x := rfl
@[simp] theorem input_get (x : α) : (Event.get x).input = none := rfl
@[simp] theorem input_empty : (Event.empty : Event α).input = none := rfl
@[simp] theorem input_skip : (Event.skip : Event α).input = none := rfl
@[simp] theorem output_put (x : α) : (Event.put x).output = none := rfl
@[simp] theorem output_get (x : α) : (Event.get x).output = some x := rfl
@[simp] theorem output_empty : (Event.empty : Event α).output = none := rfl
@[simp] theorem output_skip : (Event.skip : Event α).output = none := rfl

/-- Nothing is lost, duplicated or reordered, and the bound holds. -/
theorem conservation {cap : Nat} {l : List α} {h : List (Taken (List α) (Event α))}
    (hrun : Run (Step cap) [] h l) :
    l.length ≤ cap ∧
    h.filterMap (·.label.input) = h.filterMap (·.label.output) ++ l := by
  induction hrun with
  | nil => exact ⟨Nat.zero_le _, rfl⟩
  | snoc _ hs ih =>
    obtain ⟨hcap, hio⟩ := ih
    cases hs with
    | put x hroom =>
      refine ⟨by simpa using Nat.succ_le_of_lt hroom, ?_⟩
      simp [hio]
    | get x l' hl =>
      subst hl
      refine ⟨by rw [List.length_cons] at hcap; omega, ?_⟩
      simp [hio]
    | empty hl => exact ⟨hcap, by simp [hio, List.filterMap_cons]⟩
    | skip => exact ⟨hcap, by simp [hio, List.filterMap_cons]⟩

end Fifo
