import Mathlib

/-!
# Delay lines

A queue whose messages arrive some time after they were posted, in the order of posting.

* `contents_post`, `contents_deliver`, `contents_pop`: nothing is lost, repeated or overtaken.
* `deliver_all`: a delivery late enough leaves nothing on its way.
* `takeWhile_filter`, `dropWhile_filter`: one line out of many that share a list sorted by time.
-/

namespace DelayLine

variable {τ μ ν : Type} [LinearOrder τ]

/-- The messages that have arrived, and those that are on their way with the time when they are due,
oldest first. -/
structure Line (τ μ : Type) where
  ready : List μ
  transit : List (τ × μ)

namespace Line

def empty : Line τ μ := ⟨[], []⟩

def post (t : τ) (m : μ) (l : Line τ μ) : Line τ μ := { l with transit := l.transit ++ [(t, m)] }

/-- What is due arrives. -/
def deliver (now : τ) (l : Line τ μ) : Line τ μ :=
  ⟨l.ready ++ (l.transit.takeWhile (·.1 ≤ now)).map Prod.snd, l.transit.dropWhile (·.1 ≤ now)⟩

/-- The line without the first message that has arrived. -/
def pop (l : Line τ μ) : Line τ μ := { l with ready := l.ready.tail }

/-- The messages of the line, oldest first. -/
def contents (l : Line τ μ) : List μ := l.ready ++ l.transit.map Prod.snd

variable {l : Line τ μ} {m : μ}

omit [LinearOrder τ] in
theorem contents_post (t : τ) (m : μ) (l : Line τ μ) : (l.post t m).contents = l.contents ++ [m] := by
  simp [contents, post]

theorem contents_deliver (now : τ) (l : Line τ μ) : (l.deliver now).contents = l.contents := by
  rw [contents, deliver, List.append_assoc, ← List.map_append, List.takeWhile_append_dropWhile]
  rfl

omit [LinearOrder τ] in
theorem contents_pop {ready : List μ} (h : l.ready = m :: ready) : l.contents = m :: l.pop.contents := by
  rw [contents, h, List.cons_append]
  show _ = m :: (l.ready.tail ++ l.transit.map Prod.snd)
  rw [h, List.tail_cons]

/-- A delivery late enough leaves nothing on its way. -/
theorem deliver_all {now : τ} (h : ∀ e ∈ l.transit, e.1 ≤ now) :
    l.deliver now = ⟨l.contents, []⟩ := by
  have htake : l.transit.takeWhile (·.1 ≤ now) = l.transit :=
    List.takeWhile_eq_self_iff.mpr fun e he => by simpa using h e he
  have hdrop : l.transit.dropWhile (·.1 ≤ now) = [] :=
    List.dropWhile_eq_nil_iff.mpr fun e he => by simpa using h e he
  rw [deliver, htake, hdrop]
  rfl

end Line

/-! ## Lines that share a list -/

variable {due : ν → τ} {now : τ} {p : ν → Bool} {l : List ν}

theorem takeWhile_nil (h : ∀ x ∈ l, now < due x) : l.takeWhile (due · ≤ now) = [] := by
  cases l with
  | nil => rfl
  | cons x l => exact List.takeWhile_cons_of_neg (by simpa using h x List.mem_cons_self)

theorem dropWhile_self (h : ∀ x ∈ l, now < due x) : l.dropWhile (due · ≤ now) = l := by
  cases l with
  | nil => rfl
  | cons x l => exact List.dropWhile_cons_of_neg (by simpa using h x List.mem_cons_self)

/-- Behind a message that is not due yet nothing is. -/
theorem later {x : ν} (hl : (x :: l).Pairwise (due · ≤ due ·)) (hx : ¬ due x ≤ now) :
    ∀ y ∈ x :: l, now < due y := by
  intro y hy
  rcases List.mem_cons.mp hy with rfl | hy
  · exact not_le.mp hx
  · exact (not_le.mp hx).trans_le (List.rel_of_pairwise_cons hl hy)

theorem takeWhile_filter (hl : l.Pairwise (due · ≤ due ·)) :
    (l.takeWhile (due · ≤ now)).filter p = (l.filter p).takeWhile (due · ≤ now) := by
  induction l with
  | nil => rfl
  | cons x l ih =>
    by_cases hx : due x ≤ now
    · rw [List.takeWhile_cons_of_pos (by simpa using hx)]
      by_cases hp : p x = true
      · rw [List.filter_cons_of_pos hp, List.filter_cons_of_pos hp,
          List.takeWhile_cons_of_pos (by simpa using hx), ih hl.of_cons]
      · rw [List.filter_cons_of_neg hp, List.filter_cons_of_neg hp, ih hl.of_cons]
    · have hlater := later hl hx
      rw [takeWhile_nil hlater, takeWhile_nil fun y hy => hlater y ((List.mem_filter.mp hy).1)]
      rfl

theorem dropWhile_filter (hl : l.Pairwise (due · ≤ due ·)) :
    (l.dropWhile (due · ≤ now)).filter p = (l.filter p).dropWhile (due · ≤ now) := by
  induction l with
  | nil => rfl
  | cons x l ih =>
    by_cases hx : due x ≤ now
    · rw [List.dropWhile_cons_of_pos (by simpa using hx), ih hl.of_cons]
      by_cases hp : p x = true
      · rw [List.filter_cons_of_pos hp, List.dropWhile_cons_of_pos (by simpa using hx)]
      · rw [List.filter_cons_of_neg hp]
    · have hlater := later hl hx
      rw [dropWhile_self hlater, dropWhile_self fun y hy => hlater y ((List.mem_filter.mp hy).1)]

end DelayLine
