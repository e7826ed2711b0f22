import Mathlib.Data.List.Induction

/-!
# Association lists in order of insertion

`assign k v l` replaces the value of `k` in place, or adds the pair at the end. After a run of
assignments from the empty list (`assignAll`) every assigned key occurs once, in the order of the
first assignments, and has the value of the last one.
-/

namespace Assoc

section Definitions

variable {α β : Type}

def keys (l : List (α × β)) : List α := l.map Prod.fst

@[simp] theorem keys_nil : keys ([] : List (α × β)) = [] := rfl

@[simp] theorem keys_cons (x : α × β) (l : List (α × β)) : keys (x :: l) = x.1 :: keys l := rfl

variable [DecidableEq α]

def assign (key : α) (value : β) : List (α × β) → List (α × β)
  | [] => [(key, value)]
  | (k, v) :: l => if k = key then (k, value) :: l else (k, v) :: assign key value l

/-- The list after the assignments `as`. -/
def assignAll (as : List (α × β)) (l : List (α × β)) : List (α × β) :=
  as.foldl (fun l a => assign a.1 a.2 l) l

@[simp] theorem assignAll_nil (l : List (α × β)) : assignAll [] l = l := rfl

@[simp] theorem assignAll_cons (a : α × β) (as l : List (α × β)) :
    assignAll (a :: as) l = assignAll as (assign a.1 a.2 l) := rfl

theorem assignAll_append (as bs l : List (α × β)) :
    assignAll (as ++ bs) l = assignAll bs (assignAll as l) :=
  List.foldl_append

end Definitions

variable {α β : Type} [DecidableEq α] {key : α} {value : β} {l : List (α × β)}

theorem keys_assign_of_mem (h : key ∈ keys l) : keys (assign key value l) = keys l := by
  induction l with
  | nil => cases h
  | cons x l ih =>
    obtain ⟨k, v⟩ := x
    rw [assign]
    split
    · rfl
    · next hne =>
      rw [keys_cons, List.mem_cons] at h
      rw [keys_cons, keys_cons, ih (h.resolve_left fun heq => hne heq.symm)]

theorem assign_of_not_mem (h : key ∉ keys l) : assign key value l = l ++ [(key, value)] := by
  induction l with
  | nil => rfl
  | cons x l ih =>
    obtain ⟨k, v⟩ := x
    rw [keys_cons, List.mem_cons, not_or] at h
    rw [assign, if_neg fun heq => h.1 heq.symm, ih h.2, List.cons_append]

/-- Assigning to a key in the list changes its first pair. -/
theorem assign_of_split {k m : List (α × β)} {v : β} (h : key ∉ keys k) :
    assign key value (k ++ (key, v) :: m) = k ++ (key, value) :: m := by
  induction k with
  | nil => exact if_pos rfl
  | cons x k ih =>
    obtain ⟨a, w⟩ := x
    rw [keys_cons, List.mem_cons, not_or] at h
    rw [List.cons_append, assign, if_neg fun heq => h.1 heq.symm, ih h.2, List.cons_append]

theorem mem_assign {x : α × β} (h : x ∈ assign key value l) : x = (key, value) ∨ x ∈ l := by
  induction l with
  | nil => exact .inl (List.mem_singleton.mp h)
  | cons y l ih =>
    rw [assign] at h
    split at h
    · next heq =>
      rcases List.mem_cons.mp h with rfl | h
      · exact .inl (by rw [← heq])
      · exact .inr (List.mem_cons_of_mem _ h)
    · rcases List.mem_cons.mp h with rfl | h
      · exact .inr List.mem_cons_self
      · exact (ih h).imp_right (List.mem_cons_of_mem _)

/-- A run of assignments makes up no pairs. -/
theorem mem_assignAll {as : List (α × β)} {x : α × β} (h : x ∈ assignAll as l) :
    x ∈ as ∨ x ∈ l := by
  induction as generalizing l with
  | nil => exact .inr h
  | cons a as ih =>
    rw [assignAll_cons] at h
    rcases ih h with h | h
    · exact .inl (List.mem_cons_of_mem _ h)
    · rcases mem_assign h with rfl | h
      · exact .inl List.mem_cons_self
      · exact .inr h

theorem length_assign_le (key : α) (value : β) (l : List (α × β)) :
    (assign key value l).length ≤ l.length + 1 := by
  induction l with
  | nil => exact Nat.le_refl _
  | cons x l ih =>
    rw [assign]
    split
    · simp
    · simpa using ih

theorem length_assignAll_le (as l : List (α × β)) :
    (assignAll as l).length ≤ l.length + as.length := by
  induction as generalizing l with
  | nil => exact Nat.le_refl _
  | cons a as ih =>
    have hstep := ih (assign a.1 a.2 l)
    have hassign := length_assign_le a.1 a.2 l
    rw [assignAll_cons, List.length_cons]
    omega

variable [BEq α] [LawfulBEq α]

theorem lookup_cons_if (k a : α) (v : β) :
    ((a, v) :: l).lookup k = if k = a then some v else l.lookup k := by
  rw [List.lookup_cons]
  by_cases hk : k = a
  · simp [hk]
  · rw [if_neg hk, beq_eq_false_iff_ne.mpr hk]

theorem lookup_assign (k : α) :
    (assign key value l).lookup k = if k = key then some value else l.lookup k := by
  induction l with
  | nil => rw [assign, lookup_cons_if]
  | cons x l ih =>
    obtain ⟨a, w⟩ := x
    rw [assign]
    split
    · next ha =>
      subst ha
      rw [lookup_cons_if, lookup_cons_if]
      split <;> rfl
    · next ha =>
      rw [lookup_cons_if, lookup_cons_if, ih]
      by_cases hk : k = a
      · rw [if_pos hk, if_neg (by rwa [hk]), if_pos hk]
      · rw [if_neg hk, if_neg hk]

/-- The keys after a run of assignments. -/
theorem keys_assignAll (as : List (α × β)) :
    keys (assignAll as []) = (as.map Prod.fst).eraseDups := by
  induction as using List.reverseRecOn with
  | nil => rfl
  | append_singleton as a ih =>
    rw [assignAll_append, List.map_append, List.eraseDups_append]
    simp only [assignAll_cons, assignAll_nil, List.map_cons, List.map_nil]
    by_cases ha : a.1 ∈ as.map Prod.fst
    · have hkeys : a.1 ∈ keys (assignAll as []) := by rwa [ih, List.mem_eraseDups]
      rw [keys_assign_of_mem hkeys, ih]
      simp [List.removeAll, ha]
    · have hkeys : a.1 ∉ keys (assignAll as []) := by rwa [ih, List.mem_eraseDups]
      rw [assign_of_not_mem hkeys, ← ih]
      simp [List.removeAll, ha, keys, List.eraseDups_cons]

/-- The value after a run of assignments is that of the last one. -/
theorem lookup_assignAll (as : List (α × β)) (k : α) :
    (assignAll as []).lookup k = as.reverse.lookup k := by
  induction as using List.reverseRecOn with
  | nil => rfl
  | append_singleton as a ih =>
    obtain ⟨key, value⟩ := a
    rw [assignAll_append, List.reverse_append, assignAll_cons, assignAll_nil, lookup_assign, ih,
      List.reverse_singleton, List.singleton_append, lookup_cons_if]

end Assoc
