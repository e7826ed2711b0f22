import Mathlib.Data.List.TakeDrop

/-!
# Consuming a stream in blocks

A block function `f : σ → List α → σ` takes a state and a block of `n` elements. `absorb f n s xs`
runs it over the blocks at the front of `xs` as long as there are whole ones, and returns the state
with what is left.

* `absorb_append`: absorbing in two parts, with the rest of the first put before the second, is
  absorbing everything.
* `absorb_eq_foldl`: without a rest, the state is a fold over the list of blocks.
* `flatten_blocks`: a list of full blocks is its blocks, one after the other.
-/

namespace Blocks

variable {α σ : Type} {f : σ → List α → σ} {n : Nat}

def absorbLoop (f : σ → List α → σ) (n : Nat) : Nat → σ → List α → σ × List α
  | 0, s, xs => (s, xs)
  | k + 1, s, xs =>
    if n ≤ xs.length then absorbLoop f n k (f s (xs.take n)) (xs.drop n) else (s, xs)

/-- `while (len >= n) { s = f(s, p); p += n; len -= n; }` -/
def absorb (f : σ → List α → σ) (n : Nat) (s : σ) (xs : List α) : σ × List α :=
  absorbLoop f n xs.length s xs

/-- The first `k` blocks of a list. -/
def split (n : Nat) : Nat → List α → List (List α)
  | 0, _ => []
  | k + 1, xs => xs.take n :: split n k (xs.drop n)

def blocks (n : Nat) (xs : List α) : List (List α) := split n (xs.length / n) xs

/-- More rounds than there are blocks change nothing. -/
theorem absorbLoop_stable (hn : 0 < n) {j k : Nat} {s : σ} {xs : List α} (hj : xs.length ≤ j)
    (hk : xs.length ≤ k) : absorbLoop f n j s xs = absorbLoop f n k s xs := by
  induction j generalizing k s xs with
  | zero =>
    have hlen : ¬ n ≤ xs.length := by omega
    cases k with
    | zero => rfl
    | succ k => rw [absorbLoop, absorbLoop, if_neg hlen]
  | succ j ih =>
    cases k with
    | zero =>
      have hlen : ¬ n ≤ xs.length := by omega
      rw [absorbLoop, absorbLoop, if_neg hlen]
    | succ k =>
      rw [absorbLoop, absorbLoop]
      split
      · refine ih ?_ ?_ <;> rw [List.length_drop] <;> omega
      · rfl

theorem absorb_of_lt {s : σ} {xs : List α} (h : xs.length < n) : absorb f n s xs = (s, xs) := by
  unfold absorb
  cases hlen : xs.length with
  | zero => rfl
  | succ k => rw [absorbLoop, if_neg (by omega)]

theorem absorb_block (hn : 0 < n) {s : σ} {b x : List α} (hb : b.length = n) :
    absorb f n s (b ++ x) = absorb f n (f s b) x := by
  have hlen : (b ++ x).length = (b ++ x).length - 1 + 1 := by
    rw [List.length_append]; omega
  have hle : n ≤ (b ++ x).length := by rw [List.length_append]; omega
  unfold absorb
  rw [hlen, absorbLoop, if_pos hle, List.take_left' hb, List.drop_left' hb]
  refine absorbLoop_stable hn ?_ (Nat.le_refl _)
  rw [List.length_append]
  omega

/-- A list is shorter than a block, or it starts with one. -/
theorem lt_or_block (n : Nat) (xs : List α) :
    xs.length < n ∨ ∃ b ys, xs = b ++ ys ∧ b.length = n := by
  rcases Nat.lt_or_ge xs.length n with hlt | hge
  · exact .inl hlt
  · exact .inr ⟨xs.take n, xs.drop n, (List.take_append_drop n xs).symm, by
      rw [List.length_take, Nat.min_eq_left hge]⟩

/-- Induction on the number of blocks. -/
theorem block_induction (hn : 0 < n) {P : List α → Prop} (short : ∀ xs, xs.length < n → P xs)
    (block : ∀ b xs, b.length = n → P xs → P (b ++ xs)) (xs : List α) : P xs := by
  induction hlen : xs.length using Nat.strongRecOn generalizing xs with
  | _ k ih =>
    rcases lt_or_block n xs with hlt | ⟨b, ys, rfl, hb⟩
    · exact short xs hlt
    · refine block b ys hb (ih ys.length ?_ ys rfl)
      rw [← hlen, List.length_append]
      omega

theorem absorb_append (hn : 0 < n) (s : σ) (xs ys : List α) :
    absorb f n s (xs ++ ys) = absorb f n (absorb f n s xs).1 ((absorb f n s xs).2 ++ ys) := by
  induction xs using block_induction hn generalizing s with
  | short xs hlt => rw [absorb_of_lt hlt]
  | block b xs hb ih => rw [List.append_assoc, absorb_block hn hb, absorb_block hn hb, ih]

/-- What is left is shorter than a block. -/
theorem length_absorb (hn : 0 < n) (s : σ) (xs : List α) :
    (absorb f n s xs).2.length = xs.length % n := by
  induction xs using block_induction hn generalizing s with
  | short xs hlt => rw [absorb_of_lt hlt, Nat.mod_eq_of_lt hlt]
  | block b xs hb ih =>
    rw [absorb_block hn hb, ih, List.length_append, hb, Nat.add_mod_left]

theorem blocks_append (hn : 0 < n) {b xs : List α} (hb : b.length = n) :
    blocks n (b ++ xs) = b :: blocks n xs := by
  rw [blocks, List.length_append, hb, Nat.add_div_left _ hn, split, List.take_left' hb,
    List.drop_left' hb]
  rfl

/-- Absorbing is folding over the blocks. -/
theorem absorb_eq_foldl (hn : 0 < n) (s : σ) (xs : List α) :
    (absorb f n s xs).1 = (blocks n xs).foldl f s := by
  induction xs using block_induction hn generalizing s with
  | short xs hlt => rw [absorb_of_lt hlt, blocks, Nat.div_eq_of_lt hlt]; rfl
  | block b xs hb ih => rw [absorb_block hn hb, ih, blocks_append hn hb, List.foldl_cons]

/-! ## Lists of full blocks -/

theorem blocks_of_lt {xs : List α} (h : xs.length < n) : blocks n xs = [] := by
  rw [blocks, Nat.div_eq_of_lt h, split]

theorem length_split (n k : Nat) (xs : List α) : (split n k xs).length = k := by
  induction k generalizing xs with
  | zero => rfl
  | succ k ih => rw [split, List.length_cons, ih]

theorem length_blocks (n : Nat) (xs : List α) : (blocks n xs).length = xs.length / n :=
  length_split n _ xs

theorem flatten_blocks (hn : 0 < n) {xs : List α} (h : n ∣ xs.length) :
    (blocks n xs).flatten = xs := by
  induction xs using block_induction hn with
  | short xs hlt =>
    rw [blocks_of_lt hlt, List.eq_nil_of_length_eq_zero (Nat.eq_zero_of_dvd_of_lt h hlt)]
    rfl
  | block b xs hb ih =>
    rw [List.length_append, hb] at h
    rw [blocks_append hn hb, List.flatten_cons, ih ((Nat.dvd_add_right (Nat.dvd_refl n)).mp h)]

theorem blocks_append_of_dvd (hn : 0 < n) {xs : List α} (h : n ∣ xs.length) (ys : List α) :
    blocks n (xs ++ ys) = blocks n xs ++ blocks n ys := by
  induction xs using block_induction hn with
  | short xs hlt =>
    rw [blocks_of_lt hlt, List.eq_nil_of_length_eq_zero (Nat.eq_zero_of_dvd_of_lt h hlt)]
    rfl
  | block b xs hb ih =>
    rw [List.length_append, hb] at h
    rw [List.append_assoc, blocks_append hn hb, blocks_append hn hb,
      ih ((Nat.dvd_add_right (Nat.dvd_refl n)).mp h), List.cons_append]

/-- The last block of a list of full blocks. -/
theorem exists_last (hn : 0 < n) {xs : List α} (h : n ∣ xs.length) (hpos : 0 < xs.length) :
    ∃ front last, xs = front ++ last ∧ last.length = n ∧ blocks n xs = blocks n front ++ [last] := by
  have hge : n ≤ xs.length := Nat.le_of_dvd hpos h
  have hfront : (xs.take (xs.length - n)).length = xs.length - n := by
    rw [List.length_take]
    omega
  have hlast : (xs.drop (xs.length - n)).length = n := by
    rw [List.length_drop]
    omega
  have hdvd : n ∣ (xs.take (xs.length - n)).length := by
    rw [hfront]
    exact Nat.dvd_sub h (Nat.dvd_refl n)
  have hone := @blocks_append _ n hn _ [] hlast
  rw [List.append_nil, @blocks_of_lt _ n [] hn] at hone
  refine ⟨_, _, (List.take_append_drop (xs.length - n) xs).symm, hlast, ?_⟩
  rw [← hone, ← blocks_append_of_dvd hn hdvd, List.take_append_drop]

end Blocks
