import CBase.Lib.Memory
import Mathlib.Data.Nat.ModEq

/-!
# Ring buffers

`Holds slots head l`: the list `l`, oldest element first, lies in `slots` from the index `head` on,
modulo the number of slots. `Holds.push` and `Holds.pop` are what a bounded FIFO does to it.
-/

namespace RingBuffer

variable {α : Type}

/-- The elements of `l` lie in `slots` at `head`, `head + 1`, ... modulo the number of slots. -/
structure Holds (slots : List α) (head : Nat) (l : List α) : Prop where
  fits : l.length ≤ slots.length
  slot : ∀ i, i < l.length → slots[(head + i) % slots.length]? = l[i]?

theorem Holds.nil (slots : List α) (head : Nat) : Holds slots head [] :=
  ⟨Nat.zero_le _, fun _ h => absurd h (Nat.not_lt_zero _)⟩

/-- Two offsets below the number of slots never share a slot. -/
theorem slot_ne {n head i j : Nat} (hi : i < n) (hj : j < n) (hij : i ≠ j) :
    (head + i) % n ≠ (head + j) % n := by
  intro h
  have hmod : i % n = j % n := Nat.ModEq.add_left_cancel' head h
  rw [Nat.mod_eq_of_lt hi, Nat.mod_eq_of_lt hj] at hmod
  exact hij hmod

/-- A write to the slot after the last one appends. -/
theorem Holds.push {slots l : List α} {head : Nat} (h : Holds slots head l)
    (hroom : l.length < slots.length) (x : α) :
    Holds (slots.set ((head + l.length) % slots.length) x) head (l ++ [x]) := by
  refine ⟨by simpa using Nat.succ_le_of_lt hroom, fun i hi => ?_⟩
  have hn : 0 < slots.length := Nat.lt_of_le_of_lt (Nat.zero_le _) hroom
  rw [List.length_set]
  rw [List.length_append, List.length_singleton] at hi
  rcases Nat.lt_or_ge i l.length with hlt | hge
  · rw [List.getElem?_set_ne (slot_ne hroom (Nat.lt_trans hlt hroom) (Nat.ne_of_gt hlt)),
      h.slot i hlt, List.getElem?_append_left hlt]
  · obtain rfl : i = l.length := by omega
    rw [List.getElem?_set_self (Nat.mod_lt _ hn), List.getElem?_append_right (Nat.le_refl _)]
    simp

/-- The first element is in the slot of the head, and the rest starts one slot further. -/
theorem Holds.pop {slots l : List α} {head : Nat} {x : α} (h : Holds slots head (x :: l)) :
    slots[head % slots.length]? = some x ∧ Holds slots ((head + 1) % slots.length) l := by
  refine ⟨by simpa using h.slot 0 (by simp), ?_, fun i hi => ?_⟩
  · have := h.fits
    rw [List.length_cons] at this
    omega
  · have := h.slot (i + 1) (by simpa using hi)
    rw [Nat.mod_add_mod, Nat.add_assoc, Nat.add_comm 1 i, this]
    simp

end RingBuffer
