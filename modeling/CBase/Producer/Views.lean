import Mathlib.Data.List.ReduceOption
import CBase.Producer.App
import CBase.Queue.Phases

/-!
# What the threads hold

What a thread is at, as far as the other threads are concerned, is its `View`: the call of the queue, the
mutex, and the job that it alone has. Three invariants are about these, whatever else a thread does.

* `Inward`: a thread is outside the queue, or inside the call that it is at.
* `Locked`: `display_mutex` is owned by the thread that is between its lock and its unlock.
* `Owned`: a job that was not freed is in the queue or with one thread, and nowhere else.
-/

namespace CBase.Producer

open Queue (Phase Label)

/-- A call of the queue. -/
inductive Call where
  | push (item : Option Ptr)
  | pop

/-- The phases of a thread inside a call. -/
def Call.Holds : Call → Phase (Option Ptr) → Prop
  | push item, p => p = .pushBlocked item ∨ p = .pushWoken item
  | pop, p => p = .popBlocked ∨ p = .popWoken

/-- The call of the queue that a thread is at, whether it has `display_mutex`, and its job with what it has
read of it. -/
structure View where
  call : Option Call
  holds : Bool
  job : Option Ptr
  seconds : Option Int32

namespace View

def outside : View := ⟨none, false, none, none⟩

def locked : View := ⟨none, true, none, none⟩

end View

def Render.view : Render → View
  | locking => .outside
  | _ => .locked

def Input.view : Input → View
  | pushing job => ⟨some (.push (some job)), false, some job, none⟩
  | counting => .locked
  | unlocking => .locked
  | _ => .outside

def Display.view : Display → View
  | rendering r => r.view
  | _ => .outside

def Main.view (n : Nat) : Main → View
  | rendersFirst r => r.view
  | pushing pills => ⟨if pills < n then some (.push none) else none, false, none, none⟩
  | rendersLast r => r.view
  | _ => .outside

def Place.view : Place → View
  | popping => ⟨some .pop, false, none, none⟩
  | reading job => ⟨none, false, some job, none⟩
  | freeing job seconds => ⟨none, false, some job, some seconds⟩
  | counting => .locked
  | unlocking => .locked
  | _ => .outside

/-! ## Views of a program -/

section App

variable {n : Nat} {a a' : App n}

def App.view (a : App n) : Thread n → View
  | .main => a.main.view n
  | .input => a.input.view
  | .display => a.display.view
  | .worker i => (a.workers i).place.view

theorem App.view_main (hinput : a'.input.view = a.input.view) (hdisplay : a'.display = a.display)
    (hworkers : a'.workers = a.workers) :
    a'.view = Function.update a.view .main (a'.main.view n) := by
  funext t
  cases t with
  | main => rw [Function.update_self]; rfl
  | input => exact hinput
  | display => exact congrArg Display.view hdisplay
  | worker i => exact congrArg (fun w => (w i).place.view) hworkers

theorem App.view_input (hmain : a'.main = a.main) (hdisplay : a'.display = a.display)
    (hworkers : a'.workers = a.workers) :
    a'.view = Function.update a.view .input a'.input.view := by
  funext t
  cases t with
  | main => exact congrArg (Main.view n) hmain
  | input => rw [Function.update_self]; rfl
  | display => exact congrArg Display.view hdisplay
  | worker i => exact congrArg (fun w => (w i).place.view) hworkers

theorem App.view_display (hmain : a'.main = a.main) (hinput : a'.input = a.input)
    (hworkers : a'.workers = a.workers) :
    a'.view = Function.update a.view .display a'.display.view := by
  funext t
  cases t with
  | main => exact congrArg (Main.view n) hmain
  | input => exact congrArg Input.view hinput
  | display => rw [Function.update_self]; rfl
  | worker i => exact congrArg (fun w => (w i).place.view) hworkers

theorem App.view_worker {i : Fin n} {w : Worker} (hmain : a'.main = a.main) (hinput : a'.input = a.input)
    (hdisplay : a'.display = a.display) (hworkers : a'.workers = Function.update a.workers i w) :
    a'.view = Function.update a.view (.worker i) w.place.view := by
  funext t
  cases t with
  | main => exact congrArg (Main.view n) hmain
  | input => exact congrArg Input.view hinput
  | display => exact congrArg Display.view hdisplay
  | worker j =>
    by_cases hji : j = i
    · subst hji
      rw [Function.update_self]
      show (a'.workers j).place.view = _
      rw [hworkers, Function.update_self]
    · have hthread : Thread.worker j ≠ .worker i := fun heq => hji (Thread.worker.inj heq)
      rw [Function.update_of_ne hthread]
      show (a'.workers j).place.view = _
      rw [hworkers, Function.update_of_ne hji]
      rfl

end App

/-! ## In the queue -/

variable {θ : Type}

/-- Every thread is outside the queue, or inside the call that it is at. -/
def Inward (phase : θ → Phase (Option Ptr)) (view : θ → View) : Prop :=
  ∀ t, phase t = .idle ∨ ∃ c, (view t).call = some c ∧ c.Holds (phase t)

variable [DecidableEq θ] {view : θ → View} {t : θ} {x : View}

theorem Call.Holds.wake {c : Call} {p : Phase (Option Ptr)} (h : c.Holds p) : c.Holds p.wake := by
  cases c with
  | push item => rcases h with rfl | rfl <;> exact .inr rfl
  | pop => rcases h with rfl | rfl <;> exact .inr rfl

section Inward

variable {phase : θ → Phase (Option Ptr)}

omit [DecidableEq θ] in
/-- A thread that is at no call is outside the queue. -/
theorem Inward.idle (h : Inward phase view) (hout : (view t).call = none) : phase t = .idle := by
  rcases h t with hidle | ⟨c, hc, -⟩
  · exact hidle
  · rw [hout] at hc
    cases hc

/-- A step of a thread that is outside the queue. -/
theorem Inward.own (h : Inward phase view) (hout : (view t).call = none) :
    Inward phase (Function.update view t x) := by
  intro u
  by_cases hu : u = t
  · rw [hu]
    exact .inl (h.idle hout)
  · rw [Function.update_of_ne hu]
    exact h u

/-- A section of the queue, with how its thread goes on. -/
theorem Inward.section {w w' : Queue.World θ (Option Ptr)} {l : Label θ (Option Ptr)}
    (h : Inward w.phase view) (hs : Queue.Step w l w')
    (hown : l.leaves (w.phase l.thread) = .idle ∨
      ∃ c, x.call = some c ∧ c.Holds (l.leaves (w.phase l.thread))) :
    Inward w'.phase (Function.update view l.thread x) := by
  obtain ⟨hself, hframe⟩ := hs.phase
  intro t
  by_cases ht : t = l.thread
  · rw [ht, hself, Function.update_self]
    exact hown
  · rw [Function.update_of_ne ht]
    rcases hframe t ht with heq | heq
    · rw [heq]
      exact h t
    · rw [heq]
      rcases h t with hidle | ⟨c, hc, hin⟩
      · rw [hidle]
        exact .inl rfl
      · exact .inr ⟨c, hc, hin.wake⟩

end Inward

/-! ## The mutex of the display -/

/-- The mutex is owned by the thread that is past its lock. -/
def Locked (m : Mutex θ) (view : θ → View) : Prop := ∀ t, m = .owned t ↔ (view t).holds = true

namespace Locked

variable {m m' : Mutex θ}

theorem keep (h : Locked m view) (hx : x.holds = (view t).holds) : Locked m (Function.update view t x) := by
  intro u
  by_cases hu : u = t
  · rw [hu, Function.update_self, hx]
    exact h t
  · rw [Function.update_of_ne hu]
    exact h u

theorem lock (h : Locked m view) (hlock : m.lock t = some m') (hx : x.holds = true) :
    Locked m' (Function.update view t x) := by
  unfold Mutex.lock at hlock
  split at hlock
  · cases hlock
    intro u
    by_cases hu : u = t
    · rw [hu, Function.update_self]
      exact iff_of_true rfl hx
    · rw [Function.update_of_ne hu, ← h u]
      refine iff_of_false (fun heq => hu ?_) nofun
      exact (Mutex.owned.inj heq).symm
  · cases hlock

theorem unlock (h : Locked m view) (hunlock : m.unlock t = some m') (hx : x.holds = false) :
    Locked m' (Function.update view t x) := by
  unfold Mutex.unlock at hunlock
  split at hunlock
  · next hm =>
    cases hunlock
    intro u
    by_cases hu : u = t
    · rw [hu, Function.update_self, hx]
      exact iff_of_false nofun nofun
    · rw [Function.update_of_ne hu, ← h u, hm]
      refine iff_of_false nofun fun heq => hu ?_
      exact (Mutex.owned.inj heq).symm
  · cases hunlock

omit [DecidableEq θ] in
theorem destroy (h : Locked m view) (hdestroy : m.destroy = some m') : Locked m' view := by
  unfold Mutex.destroy at hdestroy
  split at hdestroy
  · cases hdestroy
    exact fun u => iff_of_false nofun fun hu => nomatch (h u).mpr hu
  · cases hdestroy

end Locked

/-! ## Jobs in memory -/

/-- What a view has of a job is not in the queue. -/
def View.Apart (queue : List (Option Ptr)) (v : View) : Prop := ∀ job, v.job = some job → some job ∉ queue

/-- What was read of a job is its value. -/
def View.Knows (jobs : Jobs) (v : View) : Prop :=
  ∀ job seconds, v.job = some job → v.seconds = some seconds → jobs.seconds job = some seconds

/-- The jobs that were not freed are those in the queue and those that a thread has, each in one place. -/
structure Owned (jobs : Jobs) (view : θ → View) (queue : List (Option Ptr)) : Prop where
  live : ∀ job, (jobs.seconds job).isSome ↔ some job ∈ queue ∨ ∃ t, (view t).job = some job
  distinct : queue.reduceOption.Nodup
  apart : ∀ t, (view t).Apart queue
  alone : ∀ t u job, (view t).job = some job → (view u).job = some job → t = u
  known : ∀ t, (view t).Knows jobs
  fresh : ∀ job, (jobs.seconds job).isSome → job < jobs.brk

theorem Jobs.free_spec {jobs jobs' : Jobs} {job : Ptr} (h : jobs.free job = some jobs') :
    jobs'.brk = jobs.brk ∧ jobs'.seconds job = none ∧ ∀ p, p ≠ job → jobs'.seconds p = jobs.seconds p := by
  obtain ⟨seconds, -, hresult⟩ := Option.bind_eq_some_iff.mp h
  cases hresult
  exact ⟨rfl, Function.update_self .., fun p hp => Function.update_of_ne hp ..⟩

section View

variable {jobs : Jobs} {queue : List (Option Ptr)} {v : View}

theorem View.apart_none (h : v.job = none) : v.Apart queue := by
  intro job hjob
  rw [h] at hjob
  cases hjob

theorem View.knows_none (h : v.seconds = none) : v.Knows jobs := by
  intro job seconds _ hseconds
  rw [h] at hseconds
  cases hseconds

theorem View.knows_no_job (h : v.job = none) : v.Knows jobs := by
  intro job seconds hjob
  rw [h] at hjob
  cases hjob

theorem Apart.update (h : ∀ u, u ≠ t → (view u).Apart queue) (hx : x.Apart queue) :
    ∀ u, (Function.update view t x u).Apart queue :=
  (Function.forall_update_iff view fun _ v => v.Apart queue).mpr ⟨hx, h⟩

theorem Knows.update (h : ∀ u, u ≠ t → (view u).Knows jobs) (hx : x.Knows jobs) :
    ∀ u, (Function.update view t x u).Knows jobs :=
  (Function.forall_update_iff view fun _ v => v.Knows jobs).mpr ⟨hx, h⟩

/-- Who has a job, after one view has changed. -/
theorem has_update {job : Ptr} : (∃ u, (Function.update view t x u).job = some job) ↔
    x.job = some job ∨ ∃ u, u ≠ t ∧ (view u).job = some job :=
  Function.exists_update_iff view fun _ v => v.job = some job

omit [DecidableEq θ] in
theorem has_others {job : Ptr} (hnone : (view t).job = none) :
    (∃ u, u ≠ t ∧ (view u).job = some job) ↔ ∃ u, (view u).job = some job := by
  refine ⟨fun ⟨u, _, hu⟩ => ⟨u, hu⟩, fun ⟨u, hu⟩ => ⟨u, ?_, hu⟩⟩
  rintro rfl
  rw [hnone] at hu
  cases hu

end View

namespace Owned

variable {jobs jobs' : Jobs} {queue rest : List (Option Ptr)} {job : Ptr}

omit [DecidableEq θ] in
theorem empty (h : ∀ t, (view t).job = none) : Owned ⟨0, fun _ => none⟩ view [] where
  live := fun job => by simp [h]
  distinct := .nil
  apart := fun t => View.apart_none (h t)
  alone := fun t u job ht => by
    rw [h t] at ht
    cases ht
  known := fun t => View.knows_no_job (h t)
  fresh := nofun

/-- A thread that keeps its job. -/
theorem keep (h : Owned jobs view queue) (hjob : x.job = (view t).job) (hknown : x.Knows jobs) :
    Owned jobs (Function.update view t x) queue := by
  have hsame : ∀ u, (Function.update view t x u).job = (view u).job :=
    (Function.forall_update_iff view fun u v => v.job = (view u).job).mpr ⟨hjob, fun _ _ => rfl⟩
  exact {
    live := fun job => by
      simp only [hsame]
      exact h.live job
    distinct := h.distinct
    apart := fun u job hu => h.apart u job ((hsame u).symm.trans hu)
    alone := fun u v job hu hv => h.alone u v job ((hsame u).symm.trans hu) ((hsame v).symm.trans hv)
    known := Knows.update (fun u _ => h.known u) hknown
    fresh := h.fresh }

/-- A thread without a job. -/
theorem idle (h : Owned jobs view queue) (hnone : (view t).job = none) (hx : x.job = none) :
    Owned jobs (Function.update view t x) queue :=
  h.keep (hx.trans hnone.symm) (View.knows_no_job hx)

omit [DecidableEq θ] in
theorem pill (h : Owned jobs view queue) : Owned jobs view (queue ++ [none]) :=
  { h with
    live := fun job => by
      rw [h.live]
      simp
    distinct := by
      rw [List.reduceOption_append]
      simpa using h.distinct
    apart := fun u job hu => by simpa using h.apart u job hu }

omit [DecidableEq θ] in
theorem leave (h : Owned jobs view (none :: rest)) : Owned jobs view rest :=
  { h with
    live := fun job => by
      rw [h.live]
      simp
    distinct := by simpa [List.reduceOption_cons_of_none] using h.distinct
    apart := fun u job hu => by simpa using h.apart u job hu }

/-- The job of one thread changes, to one that no other has. -/
theorem alone_update (h : Owned jobs view queue)
    (hfree : ∀ u job, u ≠ t → (view u).job = some job → x.job ≠ some job) :
    ∀ u v job, (Function.update view t x u).job = some job →
      (Function.update view t x v).job = some job → u = v := by
  intro u v job hu hv
  by_cases hut : u = t <;> by_cases hvt : v = t
  · rw [hut, hvt]
  · rw [hut, Function.update_self] at hu
    rw [Function.update_of_ne hvt] at hv
    exact absurd hu (hfree v job hvt hv)
  · rw [Function.update_of_ne hut] at hu
    rw [hvt, Function.update_self] at hv
    exact absurd hv (hfree u job hut hu)
  · rw [Function.update_of_ne hut] at hu
    rw [Function.update_of_ne hvt] at hv
    exact h.alone u v job hu hv

/-- `malloc` gives a thread a job. -/
theorem malloc (h : Owned jobs view queue) (hnone : (view t).job = none) {seconds : Int32}
    (hx : x.job = some (jobs.malloc seconds).1) (hread : x.seconds = none) :
    Owned (jobs.malloc seconds).2 (Function.update view t x) queue := by
  have hx : x.job = some jobs.brk := hx
  have hdead : ¬ (jobs.seconds jobs.brk).isSome := fun hlive => Nat.lt_irrefl _ (h.fresh _ hlive)
  have hnew : some jobs.brk ∉ queue := fun hmem => hdead ((h.live _).mpr (.inl hmem))
  have hothers : ∀ u job, (view u).job = some job → job ≠ jobs.brk := by
    rintro u job hu rfl
    exact hdead ((h.live _).mpr (.inr ⟨u, hu⟩))
  have hseconds {job : Ptr} (hjob : job ≠ jobs.brk) :
      (jobs.malloc seconds).2.seconds job = jobs.seconds job := Function.update_of_ne hjob ..
  have hbrk : (jobs.malloc seconds).2.seconds jobs.brk = some seconds := Function.update_self ..
  exact {
    live := fun job => by
      rw [has_update, has_others hnone]
      by_cases hjob : job = jobs.brk
      · subst hjob
        rw [hbrk]
        exact iff_of_true rfl (.inr (.inl hx))
      · rw [hseconds hjob, h.live, hx]
        refine or_congr_right ⟨.inr, fun hor => hor.resolve_left fun heq => hjob ?_⟩
        exact (Option.some.inj heq).symm
    distinct := h.distinct
    apart := Apart.update (fun u _ => h.apart u) fun job hjob => by
      obtain rfl := Option.some.inj (hx.symm.trans hjob)
      exact hnew
    alone := h.alone_update fun u job _ hu hjob =>
      hothers u job hu (Option.some.inj (hjob.symm.trans hx))
    known := by
      refine Knows.update (fun u _ job seconds' hu hknown => ?_) (View.knows_none hread)
      rw [hseconds (hothers u job hu)]
      exact h.known u job seconds' hu hknown
    fresh := fun job hjob => by
      by_cases heq : job = jobs.brk
      · rw [heq]
        exact Nat.lt_succ_self _
      · rw [hseconds heq] at hjob
        exact (h.fresh job hjob).trans (Nat.lt_succ_self _) }

/-- A thread pushes its job. -/
theorem push (h : Owned jobs view queue) (hjob : (view t).job = some job) (hx : x.job = none) :
    Owned jobs (Function.update view t x) (queue ++ [some job]) := by
  have hnot := h.apart t job hjob
  exact {
    live := fun p => by
      rw [has_update, hx, h.live, List.mem_append, List.mem_singleton, or_assoc]
      refine or_congr_right ⟨fun ⟨u, hu⟩ => ?_, ?_⟩
      · by_cases hut : u = t
        · rw [hut, hjob] at hu
          exact .inl hu.symm
        · exact .inr (.inr ⟨u, hut, hu⟩)
      · rintro (hp | hnone | ⟨u, -, hu⟩)
        · exact ⟨t, hjob.trans hp.symm⟩
        · cases hnone
        · exact ⟨u, hu⟩
    distinct := by
      rw [List.reduceOption_append, List.nodup_append]
      refine ⟨h.distinct, List.nodup_singleton _, ?_⟩
      rintro p hp q hq rfl
      obtain rfl := List.mem_singleton.mp hq
      exact hnot (List.reduceOption_mem_iff.mp hp)
    apart := by
      refine Apart.update (fun u hut p hu hmem => ?_) (View.apart_none hx)
      rcases List.mem_append.mp hmem with hmem | hmem
      · exact h.apart u p hu hmem
      · obtain rfl := Option.some.inj (List.mem_singleton.mp hmem)
        exact hut (h.alone u t p hu hjob)
    alone := h.alone_update fun _ _ _ _ hp => by
      rw [hx] at hp
      cases hp
    known := Knows.update (fun u _ => h.known u) (View.knows_no_job hx)
    fresh := h.fresh }

/-- A thread pops a job. -/
theorem pop (h : Owned jobs view (some job :: rest)) (hnone : (view t).job = none) (hx : x.job = some job)
    (hread : x.seconds = none) : Owned jobs (Function.update view t x) rest := by
  have hdistinct := h.distinct
  rw [List.reduceOption_cons_of_some, List.nodup_cons, List.reduceOption_mem_iff] at hdistinct
  exact {
    live := fun p => by
      rw [has_update, has_others hnone, h.live, List.mem_cons, hx, or_assoc, or_left_comm]
      exact or_congr_right (or_congr_left eq_comm)
    distinct := hdistinct.2
    apart := by
      refine Apart.update (fun u _ p hu hmem => h.apart u p hu (List.mem_cons_of_mem _ hmem)) fun p hp => ?_
      obtain rfl := Option.some.inj (hx.symm.trans hp)
      exact hdistinct.1
    alone := h.alone_update fun u p _ hu hp => by
      obtain rfl := Option.some.inj (hx.symm.trans hp)
      exact h.apart u _ hu List.mem_cons_self
    known := Knows.update (fun u _ => h.known u) (View.knows_none hread)
    fresh := h.fresh }

omit [DecidableEq θ] in
/-- The job of a thread was not freed. -/
theorem isSome (h : Owned jobs view queue) (hjob : (view t).job = some job) : (jobs.seconds job).isSome :=
  (h.live job).mpr (.inr ⟨t, hjob⟩)

/-- A thread frees its job. -/
theorem free (h : Owned jobs view queue) (hjob : (view t).job = some job) (hx : x.job = none)
    (hfree : jobs.free job = some jobs') : Owned jobs' (Function.update view t x) queue := by
  obtain ⟨hbrk, hself, hframe⟩ := Jobs.free_spec hfree
  have hothers : ∀ u p, u ≠ t → (view u).job = some p → p ≠ job := by
    rintro u p hut hu rfl
    exact hut (h.alone u t p hu hjob)
  exact {
    live := fun p => by
      rw [has_update, hx]
      by_cases hp : p = job
      · subst hp
        rw [hself]
        refine iff_of_false nofun ?_
        rintro (hmem | hnone | ⟨u, hut, hu⟩)
        · exact h.apart t p hjob hmem
        · cases hnone
        · exact hothers u p hut hu rfl
      · rw [hframe p hp, h.live]
        refine or_congr_right ⟨fun ⟨u, hu⟩ => .inr ⟨u, ?_, hu⟩, fun hor => ?_⟩
        · rintro rfl
          exact hp (Option.some.inj (hu.symm.trans hjob))
        · obtain ⟨u, -, hu⟩ := hor.resolve_left nofun
          exact ⟨u, hu⟩
    distinct := h.distinct
    apart := Apart.update (fun u _ => h.apart u) (View.apart_none hx)
    alone := h.alone_update fun _ _ _ _ hp => by
      rw [hx] at hp
      cases hp
    known := by
      refine Knows.update (fun u hut p seconds hu hknown => ?_) (View.knows_no_job hx)
      rw [hframe p (hothers u p hut hu)]
      exact h.known u p seconds hu hknown
    fresh := fun p hp => by
      rw [hbrk]
      by_cases heq : p = job
      · subst heq
        exact h.fresh p (h.isSome hjob)
      · rw [hframe p heq] at hp
        exact h.fresh p hp }

end Owned

end CBase.Producer
