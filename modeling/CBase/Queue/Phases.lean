import CBase.Queue.Wakeups

/-!
# The threads around a section

What a section does to the queue and to the phases: its own thread leaves the queue or waits, and any
other thread stays or is woken.
-/

namespace CBase.Queue

variable {θ α : Type}

namespace Label

def thread : Label θ α → θ
  | pushed t _ => t
  | pushWaits t _ => t
  | popped t _ => t
  | popWaits t => t
  | tryPopped t _ => t
  | woke t => t
  | failed t _ => t

/-- The phase in which a section leaves its thread. -/
def leaves (before : Phase α) : Label θ α → Phase α
  | pushWaits _ item => .pushBlocked item
  | popWaits _ => .popBlocked
  | woke _ => before.wake
  | _ => .idle

/-- What a section does to the queued items. -/
def Moves (l l' : List α) : Label θ α → Prop
  | pushed _ x => l' = l ++ [x]
  | popped _ x => l = x :: l'
  | tryPopped _ (some x) => l = x :: l'
  | _ => l' = l

end Label

variable [DecidableEq θ] {w w' : World θ α} {i : Label θ α} {l : List α}

/-- A signal leaves a thread that does not wait alone, and wakes others at most. -/
theorem Signal.phase {blocked : Phase α → Prop} {p p' : θ → Phase α} {t : θ}
    (hs : Signal blocked (setPhase p t .idle) p') (hidle : ¬ blocked .idle) :
    p' t = .idle ∧ ∀ u, u ≠ t → p' u = p u ∨ p' u = (p u).wake := by
  obtain ⟨hframe, -⟩ := hs
  refine ⟨?_, fun u hu => ?_⟩
  · rcases hframe t with heq | ⟨hb, -⟩
    · rw [heq, setPhase_self]
    · rw [setPhase_self] at hb
      exact absurd hb hidle
  · rcases hframe u with heq | ⟨-, heq⟩
    · rw [heq, setPhase_ne hu]
      exact .inl rfl
    · rw [heq, setPhase_ne hu]
      exact .inr rfl

theorem Step.phase (hs : Step w i w') : w'.phase i.thread = i.leaves (w.phase i.thread) ∧
    ∀ u, u ≠ i.thread → w'.phase u = w.phase u ∨ w'.phase u = (w.phase u).wake := by
  have hother {t : θ} {x : Phase α} (u : θ) (hu : u ≠ t) :
      setPhase w.phase t x u = w.phase u ∨ setPhase w.phase t x u = (w.phase u).wake :=
    .inl (setPhase_ne hu)
  cases hs with
  | pushed _ _ hsignal => exact hsignal.phase nofun
  | popped _ _ hsignal => exact hsignal.phase nofun
  | tryPopped _ _ hsignal => exact hsignal.phase nofun
  | pushWaits => exact ⟨setPhase_self, hother⟩
  | pushWaitFails => exact ⟨setPhase_self, hother⟩
  | popWaits => exact ⟨setPhase_self, hother⟩
  | popWaitFails => exact ⟨setPhase_self, hother⟩
  | tryPopEmpty hidle => exact ⟨hidle, fun u _ => .inl rfl⟩
  | lockFails hidle => exact ⟨hidle, fun u _ => .inl rfl⟩
  | woke => exact ⟨setPhase_self, hother⟩

theorem Step.moves (hs : Step w i w') (hrep : Represents w.queue l) :
    ∃ l', Represents w'.queue l' ∧ w'.queue.capacity = w.queue.capacity ∧ i.Moves l l' := by
  obtain ⟨l', hfifo, hcap, hrep'⟩ := step_simulates rfl hrep hs
  refine ⟨l', hrep', hcap, ?_⟩
  cases hs with
  | pushed =>
    cases hfifo with
    | put => rfl
  | popped =>
    cases hfifo with
    | get _ _ hl => exact hl
  | tryPopped =>
    cases hfifo with
    | get _ _ hl => exact hl
  | tryPopEmpty =>
    cases hfifo with
    | empty => rfl
  | _ =>
    cases hfifo with
    | skip => rfl

/-! ## Every thread outside the queue -/

theorem signal_idle {blocked : Phase α → Prop} (hidle : ¬ blocked .idle) (t : θ) :
    Signal blocked (setPhase (fun _ => .idle) t .idle) fun _ => .idle := by
  refine ⟨fun u => .inl ?_, fun ⟨u, hu⟩ => ?_⟩
  · unfold setPhase
    split <;> rfl
  · unfold setPhase at hu
    split at hu <;> exact absurd hu hidle

/-- A push that finds every thread outside the queue. -/
theorem Step.push_idle {q q' : TsQueue α} (t : θ) (item : α) (hpush : push q item = some (.done q')) :
    Step ⟨q, fun _ => .idle⟩ (.pushed t item) ⟨q', fun _ => .idle⟩ :=
  .pushed (.inl rfl) hpush (signal_idle nofun t)

theorem Step.pop_idle {q q' : TsQueue α} {item : α} (t : θ) (hpop : pop q = some (.done (item, q'))) :
    Step ⟨q, fun _ => .idle⟩ (.popped t item) ⟨q', fun _ => .idle⟩ :=
  .popped (.inl rfl) hpop (signal_idle nofun t)
end CBase.Queue
