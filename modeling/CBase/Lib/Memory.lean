import Mathlib.Data.List.Basic
import Mathlib.Data.List.TakeDrop

/-!
# Checked accesses to a block of memory

A block of memory is the list of its elements. An access outside of it has no result (`none`), so
that a computation with a result never left the block.

`load` and `store` access one element, `slice` and `blit` a range (the two sides of a `memcpy`).
`splice_splice` composes two adjacent writes, and `slice_of_le` reads a range inside the block.
-/

namespace Memory

variable {α : Type}

def load (m : List α) (i : Nat) : Option α := m[i]?

def store (m : List α) (i : Nat) (x : α) : Option (List α) :=
  if i < m.length then some (m.set i x) else none

def slice (m : List α) (i n : Nat) : Option (List α) :=
  if i + n ≤ m.length then some ((m.drop i).take n) else none

/-- The block `m` with `x` written from `i` on. -/
def splice (m : List α) (i : Nat) (x : List α) : List α :=
  m.take i ++ x ++ m.drop (i + x.length)

/-- Write the elements `x` from `i` on. -/
def blit (m : List α) (i : Nat) (x : List α) : Option (List α) :=
  if i + x.length ≤ m.length then some (splice m i x) else none

theorem store_of_lt {m : List α} {i : Nat} (h : i < m.length) (x : α) :
    store m i x = some (m.set i x) :=
  if_pos h

theorem blit_of_le {m x : List α} {i : Nat} (h : i + x.length ≤ m.length) :
    blit m i x = some (splice m i x) :=
  if_pos h

theorem slice_of_le {m : List α} {i n : Nat} (h : i + n ≤ m.length) :
    slice m i n = some ((m.drop i).take n) :=
  if_pos h

theorem length_splice {m x : List α} {i : Nat} (h : i + x.length ≤ m.length) :
    (splice m i x).length = m.length := by
  simp only [splice, List.length_append, List.length_take, List.length_drop]
  omega

@[simp] theorem splice_nil (m : List α) (i : Nat) : splice m i [] = m := by
  simp [splice]

/-- What lies below the written range is unchanged. -/
theorem take_splice {m x : List α} {i j : Nat} (h : i ≤ m.length) (hj : j ≤ i) :
    (splice m i x).take j = m.take j := by
  have hlen : j ≤ (m.take i).length := by rw [List.length_take]; omega
  rw [splice, List.append_assoc, List.take_append_of_le_length hlen, List.take_take,
    Nat.min_eq_left hj]

/-- What lies above the written range is unchanged. -/
theorem drop_splice {m x : List α} {i j : Nat} (h : i ≤ m.length) (hj : i + x.length ≤ j) :
    (splice m i x).drop j = m.drop j := by
  have hlen : (m.take i ++ x).length = i + x.length := by
    rw [List.length_append, List.length_take]; omega
  rw [splice, List.drop_append, List.drop_eq_nil_of_le (by omega), List.nil_append, hlen,
    List.drop_drop]
  congr 1
  omega

/-- An element outside of the written range is unchanged. -/
theorem getElem?_splice {m x : List α} {i j : Nat} (h : i ≤ m.length)
    (hj : ¬ (i ≤ j ∧ j < i + x.length)) : (splice m i x)[j]? = m[j]? := by
  by_cases hlt : j < i
  · rw [← List.getElem?_take_of_lt (Nat.lt_succ_self j), take_splice h hlt,
      List.getElem?_take_of_lt (Nat.lt_succ_self j)]
  · have hle : i + x.length ≤ j := by omega
    rw [← Nat.add_zero j, ← List.getElem?_drop, drop_splice h hle, List.getElem?_drop]

/-- Everything up to the end of the written range. -/
theorem take_splice_end {m x : List α} {i : Nat} (h : i ≤ m.length) :
    (splice m i x).take (i + x.length) = m.take i ++ x := by
  have hlen : (m.take i ++ x).length = i + x.length := by
    rw [List.length_append, List.length_take]; omega
  rw [splice, ← hlen, List.take_left]

/-- Two adjacent writes are one. -/
theorem splice_splice {m x y : List α} {i : Nat} (h : i ≤ m.length) :
    splice (splice m i x) (i + x.length) y = splice m i (x ++ y) := by
  rw [splice, take_splice_end h, drop_splice h (by omega), splice, List.length_append,
    List.append_assoc, List.append_assoc, List.append_assoc, List.append_assoc, Nat.add_assoc]

/-- A write over the beginning of an earlier one replaces it there. -/
theorem splice_overwrite {m x x' y : List α} {i : Nat} (h : i ≤ m.length)
    (hlen : x'.length = x.length) :
    splice (splice m i (x ++ y)) i x' = splice m i (x' ++ y) := by
  have htake : (m.take i).length = i := by rw [List.length_take]; omega
  have hdrop : (splice m i (x ++ y)).drop (i + x.length) =
      y ++ m.drop (i + (x ++ y).length) := by
    rw [splice, ← List.append_assoc, List.append_assoc]
    have : (m.take i ++ x).length = i + x.length := by rw [List.length_append, htake]
    rw [← this, List.drop_left]
  rw [splice, take_splice h (Nat.le_refl i), hlen, hdrop, splice, List.length_append,
    List.length_append, hlen, List.append_assoc, List.append_assoc, List.append_assoc]

/-- Writing one element after another is writing the range. -/
theorem set_eq_splice {m : List α} {i : Nat} (h : i < m.length) (x : α) :
    m.set i x = splice m i [x] := by
  rw [splice, List.set_eq_take_append_cons_drop, if_pos h, List.append_assoc]
  rfl

end Memory
