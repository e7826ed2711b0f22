import CBase.Lib.Pool
import CBase.Producer.Views

/-!
# The producer shuts down cleanly

The threads refine the workers of `Pool`: the queue is its queue, a push of a job or of NULL is a
submission or a pill, and a worker is done with a job when it has counted it.

* `Refines.step`: every step of a thread is a step of the pool, or none.
* `clean_shutdown`: no job is read or freed after its free, and when the main thread destroys the queue,
  all other threads have returned, the queue is empty, and every job was counted and freed.
-/

namespace CBase.Producer

open Queue (Represents Accounted Phase Label)
open Pool (State)

variable {n : Nat} {a a' : App n}

/-! ## Sections -/

/-- How a thread goes on after a section, by the call that it is at. -/
inductive Settled (a : App n) : Label (Thread n) (Option Ptr) → App n → Prop
  | job {job : Ptr} : a.input = .pushing job →
      Settled a (.pushed .input (some job)) { a with input := .locking }
  | pill {pills : Nat} : a.main = .pushing pills → pills < n →
      Settled a (.pushed .main none) { a with main := .pushing (pills + 1) }
  | popped {i : Fin n} {item : Option Ptr} : (a.workers i).place = .popping →
      Settled a (.popped (.worker i) item) (a.handle i item)
  | pushWaits {t : Thread n} {item : Option Ptr} : (a.view t).call = some (.push item) →
      Settled a (.pushWaits t item) a
  | popWaits {t : Thread n} : (a.view t).call = some .pop → Settled a (.popWaits t) a
  | woke {t : Thread n} : Settled a (.woke t) a
  | failed {t : Thread n} {info : Info} {a' : App n} : Settled a (.failed t info) a'

theorem App.settled {l : Label (Thread n) (Option Ptr)} (h : a.settle l = some a') : Settled a l a' := by
  unfold App.settle at h
  split at h
  · split at h
    · next job job' hinput =>
      split at h
      · next heq =>
        cases h
        exact .job (heq ▸ hinput)
      · cases h
    · cases h
  · split at h
    · next job job' hinput =>
      split at h
      · next heq =>
        cases h
        exact .pushWaits (by simp only [App.view, hinput, Input.view, heq])
      · cases h
    · cases h
  · split at h
    · next pills hmain =>
      split at h
      · next hlt =>
        cases h
        exact .pill hmain hlt
      · cases h
    · cases h
  · split at h
    · next pills hmain =>
      split at h
      · next hlt =>
        cases h
        exact .pushWaits (by simp only [App.view, hmain, Main.view, if_pos hlt])
      · cases h
    · cases h
  · split at h
    · next hplace =>
      cases h
      exact .popped hplace
    · cases h
  · split at h
    · next hplace =>
      cases h
      exact .popWaits (by simp only [App.view, hplace, Place.view])
    · cases h
  · cases h
    exact .woke
  · exact .failed
  · exact .failed
  · exact .failed
  · cases h

/-! ## The display mutex -/

@[simp] theorem Render.view_call (r : Render) : r.view.call = none := by cases r <;> rfl

@[simp] theorem Render.view_job (r : Render) : r.view.job = none := by cases r <;> rfl

@[simp] theorem Display.view_call (d : Display) : d.view.call = none := by
  cases d <;> simp [view, View.outside]

@[simp] theorem Display.view_job (d : Display) : d.view.job = none := by cases d <;> simp [view, View.outside]

@[simp] theorem Main.view_job (m : Main) : (m.view n).job = none := by cases m <;> simp [view, View.outside]

theorem Mutex.lock_ne {θ : Type} {m m' : Mutex θ} {t : θ} (h : m.lock t = some m') : m' ≠ .destroyed := by
  unfold lock at h
  split at h <;> cases h
  nofun

theorem Mutex.unlock_ne {θ : Type} [DecidableEq θ] {m m' : Mutex θ} {t : θ} (h : m.unlock t = some m') :
    m' ≠ .destroyed := by
  unfold unlock at h
  split at h <;> cases h
  nofun

/-- A step of `render` touches the mutex only. -/
theorem App.render_spec {t : Thread n} {r : Render} {next : Option Render}
    (h : a.render t r = some (next, a')) : ∃ m, a' = { a with displayMutex := m } ∧
      (m = .destroyed → a.displayMutex = .destroyed) ∧ ∀ view : Thread n → View, view t = r.view →
        Locked a.displayMutex view → Locked m (Function.update view t (next.elim .outside Render.view)) := by
  cases r with
  | locking =>
    obtain ⟨m, hlock, hresult⟩ := Option.bind_eq_some_iff.mp h
    cases hresult
    exact ⟨m, rfl, fun hm => absurd hm (Mutex.lock_ne hlock), fun _ _ hlocked => hlocked.lock hlock rfl⟩
  | counting =>
    simp only [App.render] at h
    split at h <;> cases h
    exact ⟨_, rfl, id, fun _ hview hlocked => hlocked.keep (by rw [hview]; rfl)⟩
  | reading =>
    simp only [App.render] at h
    split at h <;> cases h
    exact ⟨_, rfl, id, fun _ hview hlocked => hlocked.keep (by rw [hview]; rfl)⟩
  | unlocking =>
    obtain ⟨m, hunlock, hresult⟩ := Option.bind_eq_some_iff.mp h
    cases hresult
    exact ⟨m, rfl, fun hm => absurd hm (Mutex.unlock_ne hunlock),
      fun _ _ hlocked => hlocked.unlock hunlock rfl⟩

/-! ## The order of the main thread -/

def Main.stage : Main → Nat
  | rendersFirst _ => 0
  | launches => 1
  | joinsInput => 2
  | pushing _ => 3
  | joins _ => 4
  | stops => 5
  | joinsDisplay => 6
  | rendersLast _ => 7
  | reports => 8
  | destroysQueue => 9
  | destroysMutex => 10
  | done => 11

theorem Main.view_outside {m : Main} (hle : Main.destroysQueue.stage ≤ m.stage) : m.view n = .outside := by
  cases m with
  | rendersFirst => exact absurd hle (by simp [Main.stage])
  | pushing => exact absurd hle (by simp [Main.stage])
  | rendersLast => exact absurd hle (by simp [Main.stage])
  | _ => rfl

/-- What the main thread has seen to by the time that it gets somewhere. -/
structure App.Ordered (a : App n) : Prop where
  launched : a.input = .unlaunched ↔ a.main.stage < Main.joinsInput.stage
  stopped : Main.joinsDisplay.stage ≤ a.main.stage → a.running = false
  alone : (Main.rendersLast .locking).stage ≤ a.main.stage → a.display = .returned
  reported : Main.destroysQueue.stage ≤ a.main.stage → a.reported = some a.totalJobsCompleted
  queueDestroyed : a.queueDestroyed = true → Main.destroysMutex.stage ≤ a.main.stage
  mutexDestroyed : a.displayMutex = .destroyed → Main.done.stage ≤ a.main.stage

/-! ## The threads as a pool -/

/-- A worker of the code, and of the pool. -/
def Place.Matches (w : Pool.Worker Ptr) : Place → Prop
  | popping => w = .free
  | unlocking => w = .free
  | returned => w = .gone
  | _ => ∃ job, w = .busy job

theorem Place.Matches.returned {p : Place} (h : p.Matches .gone) : p = .returned := by
  cases p with
  | returned => rfl
  | popping => cases h
  | unlocking => cases h
  | _ =>
    obtain ⟨job, hjob⟩ := h
    cases hjob

/-- What the main thread has done to the pool. -/
def Main.Matches (s : State (Fin n) Ptr) : Main → Prop
  | rendersFirst _ => s.pills = 0
  | launches => s.pills = 0
  | joinsInput => s.pills = 0
  | pushing pills => pills ≤ n ∧ s.pills = pills ∧ s.closed = true
  | joins joined => joined ≤ n ∧ s.pills = n ∧ ∀ i : Fin n, i < joined → s.worker i = .gone
  | _ => s.pills = n ∧ ∀ i, s.worker i = .gone

theorem Main.Matches.keep {m : Main} {s s' : State (Fin n) Ptr} (h : m.Matches s)
    (hpills : s'.pills = s.pills) (hclosed : s.closed = true → s'.closed = true)
    (hgone : ∀ i, s.worker i = .gone → s'.worker i = .gone) : m.Matches s' := by
  cases m with
  | rendersFirst => exact hpills.trans h
  | launches => exact hpills.trans h
  | joinsInput => exact hpills.trans h
  | pushing pills => exact ⟨h.1, hpills.trans h.2.1, hclosed h.2.2⟩
  | joins joined => exact ⟨h.1, hpills.trans h.2.1, fun i hi => hgone i (h.2.2 i hi)⟩
  | _ => exact ⟨hpills.trans h.1, fun i => hgone i (h.2 i)⟩

/-- Past its joins the main thread has seen all workers go. -/
theorem Main.Matches.gone {m : Main} {s : State (Fin n) Ptr} (h : m.Matches s)
    (hle : Main.stops.stage ≤ m.stage) : s.pills = n ∧ ∀ i, s.worker i = .gone := by
  cases m with
  | rendersFirst => exact absurd hle (by simp [Main.stage])
  | launches => exact absurd hle (by simp [Main.stage])
  | joinsInput => exact absurd hle (by simp [Main.stage])
  | pushing => exact absurd hle (by simp [Main.stage])
  | joins => exact absurd hle (by simp [Main.stage])
  | _ => exact h

/-- A worker that was not gone is no reason for one that was. -/
theorem gone_update {w : Fin n → Pool.Worker Ptr} {i : Fin n} (hi : w i ≠ .gone) (x : Pool.Worker Ptr) :
    ∀ k, w k = .gone → Function.update w i x k = .gone := by
  intro k hk
  have hki : k ≠ i := by
    rintro rfl
    exact hi hk
  rw [Function.update_of_ne hki, hk]

/-- The change of one worker of the code, and of the pool. -/
theorem matches_update {v : Fin n → Worker} {w : Fin n → Pool.Worker Ptr}
    (h : ∀ i, (v i).place.Matches (w i)) {i : Fin n} {x : Worker} {y : Pool.Worker Ptr}
    (hxy : x.place.Matches y) :
    ∀ k, (Function.update v i x k).place.Matches (Function.update w i y k) := by
  intro k
  by_cases hk : k = i
  · subst hk
    rw [Function.update_self, Function.update_self]
    exact hxy
  · rw [Function.update_of_ne hk, Function.update_of_ne hk]
    exact h k

/-! ## The counters -/

/-- The sums of counters that wrap around. -/
instance counterSums : AddCommMonoid Int32 where
  add_assoc := Int32.add_assoc
  zero_add := Int32.zero_add
  add_zero := Int32.add_zero
  add_comm := Int32.add_comm
  nsmul := nsmulRec

/-- A job that was pushed and is not counted yet. -/
def Input.uncounted : Input → Int32
  | locking => 1
  | counting => 1
  | _ => 0

/-- A job that is completed and not counted yet. -/
def Place.uncounted : Place → Int32
  | locking => 1
  | counting => 1
  | _ => 0

/-- The completed jobs of the workers are those counted and those about to be. -/
def Tallied (v : Fin n → Worker) (total : Int32) : Prop :=
  ∑ i, (v i).jobsCompleted = total + ∑ i, (v i).place.uncounted

theorem Tallied.update {v : Fin n → Worker} {total total' : Int32} (h : Tallied v total) {i : Fin n}
    {x : Worker} (hx : x.jobsCompleted + (v i).place.uncounted + total =
      (v i).jobsCompleted + x.place.uncounted + total') :
    Tallied (Function.update v i x) total' := by
  have hjobs := Pool.sum_update Worker.jobsCompleted v i x
  have huncounted := Pool.sum_update (fun w : Worker => w.place.uncounted) v i x
  unfold Tallied at h ⊢
  grind

structure Refines (capacity : UInt32) (a : App n) (s : State (Fin n) Ptr) : Prop where
  queue : Represents a.world.queue s.queue
  capacity : a.world.queue.capacity = capacity
  accounted : Accounted a.world
  inward : Inward a.world.phase a.view
  locked : Locked a.displayMutex a.view
  owned : Owned a.jobs a.view s.queue
  worker : ∀ i, (a.workers i).place.Matches (s.worker i)
  closed : s.closed = true ↔ a.input = .returned
  main : a.main.Matches s
  ordered : a.Ordered
  submitted : Int32.ofNat s.submitted.card = a.totalJobsSubmitted + a.input.uncounted
  finished : Int32.ofNat s.finished.card = a.totalJobsCompleted
  each : Tallied a.workers a.totalJobsCompleted

theorem Refines.init (capacity : UInt32) (garbage : Nat → Option Ptr) :
    Refines capacity (App.init capacity garbage : App n) .empty where
  queue := .create capacity garbage
  capacity := rfl
  accounted := ⟨nofun, nofun⟩
  inward := fun _ => .inl rfl
  locked := fun t => by cases t <;> exact iff_of_false nofun nofun
  owned := .empty fun t => by cases t <;> rfl
  worker := fun _ => rfl
  closed := ⟨nofun, nofun⟩
  main := rfl
  ordered := ⟨⟨fun _ => Nat.zero_lt_two, fun _ => rfl⟩, nofun, nofun, nofun, nofun, nofun⟩
  submitted := rfl
  finished := rfl
  each := by simp [Tallied, App.init, Place.uncounted]

namespace Refines

variable {capacity : UInt32} {s : State (Fin n) Ptr} {l : Label (Thread n) (Option Ptr)}
  {world : Queue.World (Thread n) (Option Ptr)}

/-! ### Sections -/

/-- A section in which a thread waits or is woken. -/
theorem waits (h : Refines capacity a s) (hs : Queue.Step a.world l world)
    (hsame : ∀ k, Label.Moves s.queue k l → k = s.queue)
    (hown : l.leaves (a.world.phase l.thread) = .idle ∨
      ∃ c, (a.view l.thread).call = some c ∧ c.Holds (l.leaves (a.world.phase l.thread))) :
    Refines capacity { a with world } s := by
  obtain ⟨k, hrep, hcap, hmoves⟩ := hs.moves h.queue
  rw [hsame k hmoves] at hrep
  have hinward := h.inward.section hs hown
  rw [Function.update_eq_self] at hinward
  exact { h with
    queue := hrep
    capacity := hcap.trans h.capacity
    accounted := h.accounted.step h.queue hs
    inward := hinward
    ordered := { h.ordered with } }

/-- As long as a job is pushed there are no pills. -/
theorem pushing_open (h : Refines capacity a s) {job : Ptr} (hinput : a.input = .pushing job) :
    s.closed = false := by
  rw [Bool.eq_false_iff, ne_eq, h.closed, hinput]
  nofun

theorem pushed_job {job : Ptr} (h : Refines capacity a s) (hinput : a.input = .pushing job)
    (hs : Queue.Step a.world (.pushed .input (some job)) world) :
    ∃ s', Pool.Step s s' ∧ Refines capacity { a with world, input := .locking } s' := by
  obtain ⟨_, hrep, hcap, rfl⟩ := hs.moves h.queue
  have hopen := h.pushing_open hinput
  have hview : App.view { a with world, input := .locking } =
      Function.update a.view .input Input.locking.view := App.view_input rfl rfl rfl
  have hjob : (a.view .input).job = some job := by simp only [App.view, hinput, Input.view]
  refine ⟨_, .submit job hopen, ?_⟩
  exact { h with
    queue := hrep
    capacity := hcap.trans h.capacity
    accounted := h.accounted.step h.queue hs
    inward := hview ▸ h.inward.section hs (.inl rfl)
    locked := by
      rw [hview]
      exact h.locked.keep (by simp only [App.view, hinput]; rfl)
    owned := hview ▸ h.owned.push hjob rfl
    closed := by
      show s.closed = true ↔ Input.locking = .returned
      rw [hopen]
      exact ⟨nofun, nofun⟩
    main := h.main.keep rfl id fun _ => id
    ordered := { h.ordered with
      launched := by
        have hlaunched := h.ordered.launched
        rw [hinput] at hlaunched
        exact iff_of_false nofun fun hlt => nomatch hlaunched.mpr hlt }
    submitted := by
      have hcard := h.submitted
      rw [hinput] at hcard
      show Int32.ofNat (s.submitted + {job}).card = a.totalJobsSubmitted + 1
      rw [Multiset.card_add, Multiset.card_singleton, Int32.ofNat_add, hcard]
      exact congrArg (· + 1) (Int32.add_zero _) }

theorem pushed_pill {pills : Nat} (h : Refines capacity a s) (hmain : a.main = .pushing pills)
    (hlt : pills < n) (hs : Queue.Step a.world (.pushed .main none) world) :
    ∃ s', Pool.Step s s' ∧ Refines capacity { a with world, main := .pushing (pills + 1) } s' := by
  obtain ⟨_, hrep, hcap, rfl⟩ := hs.moves h.queue
  have hput := h.main
  rw [hmain] at hput
  obtain ⟨-, hpills, hclosed⟩ := hput
  have hview : App.view { a with world, main := .pushing (pills + 1) } =
      Function.update a.view .main ((Main.pushing (pills + 1)).view n) := App.view_main rfl rfl rfl
  have hstage : a.main.stage = (Main.pushing (pills + 1)).stage := by rw [hmain]; rfl
  refine ⟨_, .pill hclosed, ?_⟩
  exact { h with
    queue := hrep
    capacity := hcap.trans h.capacity
    accounted := h.accounted.step h.queue hs
    inward := hview ▸ h.inward.section hs (.inl rfl)
    locked := by
      rw [hview]
      exact h.locked.keep (by simp only [App.view, hmain]; rfl)
    owned := by
      rw [hview]
      exact h.owned.pill.idle (Main.view_job _) (Main.view_job _)
    main := ⟨hlt, congrArg (· + 1) hpills, hclosed⟩
    ordered := by
      have hordered := h.ordered
      constructor <;> simp only [← hstage]
      · exact hordered.launched
      · exact hordered.stopped
      · exact hordered.alone
      · exact hordered.reported
      · exact hordered.queueDestroyed
      · exact hordered.mutexDestroyed }

/-- A worker pops, and goes on as `w`. -/
theorem worker_pops {i : Fin n} {item : Option Ptr} {rest : List (Option Ptr)} {w : Worker}
    {y : Pool.Worker Ptr} (h : Refines capacity a s) (hplace : (a.workers i).place = .popping)
    (hs : Queue.Step a.world (.popped (.worker i) item) world) (hhead : s.queue = item :: rest)
    (howned : Owned a.jobs (Function.update a.view (.worker i) w.place.view) rest)
    (hw : w.place.Matches y) (hout : w.place.view.holds = false)
    (hjobs : w.jobsCompleted = (a.workers i).jobsCompleted) (hcounted : w.place.uncounted = 0) :
    Refines capacity { a with world, workers := Function.update a.workers i w }
      { s with queue := rest, worker := Function.update s.worker i y } := by
  obtain ⟨k, hrep, hcap, hmoves⟩ := hs.moves h.queue
  obtain rfl : rest = k := (List.cons.inj (hhead.symm.trans hmoves)).2
  have hfree : s.worker i = .free := by
    have hworker := h.worker i
    rwa [hplace] at hworker
  have hview : App.view { a with world, workers := Function.update a.workers i w } =
      Function.update a.view (.worker i) w.place.view := App.view_worker rfl rfl rfl rfl
  exact { h with
    queue := hrep
    capacity := hcap.trans h.capacity
    accounted := h.accounted.step h.queue hs
    inward := hview ▸ h.inward.section hs (.inl rfl)
    locked := by
      rw [hview]
      exact h.locked.keep (hout.trans (by simp only [App.view, hplace, Place.view]))
    owned := hview ▸ howned
    worker := matches_update h.worker hw
    main := h.main.keep rfl id (gone_update (by rw [hfree]; nofun) _)
    ordered := { h.ordered with }
    each := h.each.update (by rw [hplace, hjobs, hcounted]; rfl) }

theorem popped {i : Fin n} {item : Option Ptr} (h : Refines capacity a s)
    (hplace : (a.workers i).place = .popping)
    (hs : Queue.Step a.world (.popped (.worker i) item) world) :
    ∃ s', Pool.Step s s' ∧ Refines capacity (App.handle { a with world } i item) s' := by
  obtain ⟨rest, -, -, hhead⟩ := hs.moves h.queue
  have hfree : s.worker i = .free := by
    have hworker := h.worker i
    rwa [hplace] at hworker
  have hnone : (a.view (.worker i)).job = none := by simp only [App.view, hplace, Place.view]
  have howned := h.owned
  rw [hhead] at howned
  cases item with
  | none =>
    exact ⟨_, .leave hfree hhead,
      h.worker_pops hplace hs hhead (howned.leave.idle hnone rfl) rfl rfl rfl rfl⟩
  | some job =>
    exact ⟨_, .take hfree hhead,
      h.worker_pops hplace hs hhead (howned.pop hnone rfl rfl) ⟨job, rfl⟩ rfl rfl rfl⟩

/-- A section of the queue. -/
theorem queue_step (h : Refines capacity a s) (hs : Queue.Step a.world l world)
    (hsettled : Settled { a with world } l a') (hok : ¬ (Event.queue l).Fails) :
    ∃ s', (s' = s ∨ Pool.Step s s') ∧ Refines capacity a' s' := by
  cases hsettled with
  | job hinput =>
    obtain ⟨s', hstep, h'⟩ := h.pushed_job hinput hs
    exact ⟨s', .inr hstep, h'⟩
  | pill hmain hlt =>
    obtain ⟨s', hstep, h'⟩ := h.pushed_pill hmain hlt hs
    exact ⟨s', .inr hstep, h'⟩
  | popped hplace =>
    obtain ⟨s', hstep, h'⟩ := h.popped hplace hs
    exact ⟨s', .inr hstep, h'⟩
  | pushWaits hcall => exact ⟨s, .inl rfl, h.waits hs (fun _ => id) (.inr ⟨_, hcall, .inl rfl⟩)⟩
  | popWaits hcall => exact ⟨s, .inl rfl, h.waits hs (fun _ => id) (.inr ⟨_, hcall, .inl rfl⟩)⟩
  | @woke t =>
    refine ⟨s, .inl rfl, h.waits hs (fun _ => id) ?_⟩
    rcases h.inward t with hidle | ⟨c, hc, hin⟩
    · refine .inl ?_
      show (a.world.phase t).wake = _
      rw [hidle]
      rfl
    · exact .inr ⟨c, hc, hin.wake⟩
  | failed => exact absurd trivial hok

/-! ### Steps outside the queue -/

/-- The display goes on. -/
theorem display_own (h : Refines capacity a s) {display : Display} {displayMutex : Mutex (Thread n)}
    (hlocked : Locked displayMutex (Function.update a.view .display display.view))
    (hmutex : displayMutex = .destroyed → a.displayMutex = .destroyed)
    (hgo : (Main.rendersLast .locking).stage ≤ a.main.stage → display = .returned) :
    Refines capacity { a with display, displayMutex } s := by
  have hview : App.view { a with display, displayMutex } =
      Function.update a.view .display display.view := App.view_display rfl rfl rfl
  exact { h with
    inward := hview ▸ h.inward.own (Display.view_call _)
    locked := hview ▸ hlocked
    owned := hview ▸ h.owned.idle (Display.view_job _) (Display.view_job _)
    ordered := { h.ordered with
      alone := hgo
      mutexDestroyed := fun hm => h.ordered.mutexDestroyed (hmutex hm) } }

theorem refresh (h : Refines capacity a s) (hrefresh : a.refresh = some a') : Refines capacity a' s := by
  unfold App.refresh at hrefresh
  split at hrefresh
  · next hdisplay =>
    split at hrefresh <;> cases hrefresh
    refine h.display_own (h.locked.keep ?_) id fun hle => ?_
    · simp only [App.view, hdisplay]
      rfl
    · exact nomatch hdisplay.symm.trans (h.ordered.alone hle)
  · cases hrefresh

theorem draw (h : Refines capacity a s) (hdraw : a.draw = some a') : Refines capacity a' s := by
  unfold App.draw at hdraw
  split at hdraw
  · next hdisplay =>
    split at hdraw <;> cases hdraw
    refine h.display_own (h.locked.keep ?_) id fun _ => rfl
    simp only [App.view, hdisplay]
    rfl
  · next r hdisplay =>
    obtain ⟨⟨next, b⟩, hrender, hresult⟩ := Option.bind_eq_some_iff.mp hdraw
    cases hresult
    obtain ⟨m, rfl, hmutex, hlocked⟩ := App.render_spec hrender
    refine h.display_own ?_ hmutex fun hle => ?_
    · have hl := hlocked a.view (by simp only [App.view, hdisplay, Display.view]) h.locked
      cases next <;> exact hl
    · exact nomatch hdisplay.symm.trans (h.ordered.alone hle)
  · cases hdraw

/-- The input thread goes on. -/
theorem input_own (h : Refines capacity a s) {old input : Input} {jobs : Jobs}
    {displayMutex : Mutex (Thread n)} {total : Int32} (hinput : a.input = old)
    (hcall : old.view.call = none) (hold : old ≠ .unlaunched ∧ old ≠ .returned)
    (hgo : input ≠ .unlaunched ∧ input ≠ .returned)
    (hlocked : Locked displayMutex (Function.update a.view .input input.view))
    (hmutex : displayMutex = .destroyed → a.displayMutex = .destroyed)
    (howned : Owned jobs (Function.update a.view .input input.view) s.queue)
    (htotal : a.totalJobsSubmitted + old.uncounted = total + input.uncounted) :
    Refines capacity { a with
      jobs, input, displayMutex
      totalJobsSubmitted := total } s := by
  subst hinput
  have hview : App.view { a with jobs, input, displayMutex, totalJobsSubmitted := total } =
      Function.update a.view .input input.view := App.view_input rfl rfl rfl
  exact { h with
    inward := hview ▸ h.inward.own hcall
    locked := hview ▸ hlocked
    owned := hview ▸ howned
    closed := h.closed.trans (iff_of_false hold.2 hgo.2)
    ordered := { h.ordered with
      launched := (iff_of_false hgo.1 hold.1).trans h.ordered.launched
      mutexDestroyed := fun hm => h.ordered.mutexDestroyed (hmutex hm) }
    submitted := h.submitted.trans htotal }

/-- The input thread returns. -/
theorem input_returns (h : Refines capacity a s) (hinput : a.input = .reading)
    {running quitRequested : Bool} (hrunning : a.running = false → running = false) :
    ∃ s', (s' = s ∨ Pool.Step s s') ∧
      Refines capacity { a with running, quitRequested, input := .returned } s' := by
  refine ⟨_, .inr .close, ?_⟩
  have hview : App.view { a with running, quitRequested, input := .returned } =
      Function.update a.view .input Input.returned.view := App.view_input rfl rfl rfl
  have hold : a.view .input = .outside := by simp only [App.view, hinput, Input.view]
  have hlaunched := h.ordered.launched
  have hcard := h.submitted
  rw [hinput] at hlaunched hcard
  exact { h with
    inward := hview ▸ h.inward.own (by rw [hold]; rfl)
    locked := by
      rw [hview]
      exact h.locked.keep (by rw [hold]; rfl)
    owned := by
      rw [hview]
      exact h.owned.idle (by rw [hold]; rfl) rfl
    closed := ⟨fun _ => rfl, fun _ => rfl⟩
    main := h.main.keep rfl (fun _ => rfl) fun _ => id
    ordered := { h.ordered with
      launched := iff_of_false nofun fun hlt => nomatch hlaunched.mpr hlt
      stopped := fun hle => hrunning (h.ordered.stopped hle) }
    submitted := hcard }

theorem read (h : Refines capacity a s) {line : Line} {memory : Bool}
    (hread : a.read line memory = some a') :
    ∃ s', (s' = s ∨ Pool.Step s s') ∧ Refines capacity a' s' := by
  unfold App.read at hread
  split at hread
  · next hinput =>
    split at hread
    · cases hread
      exact h.input_returns hinput id
    split at hread
    · cases hread
      exact h.input_returns hinput id
    · cases hread
      exact h.input_returns hinput fun _ => rfl
    split at hread
    · cases hread
      exact ⟨s, .inl rfl, h⟩
    split at hread
    · cases hread
      exact ⟨s, .inl rfl, h⟩
    cases hread
    have hold : a.view .input = .outside := by simp only [App.view, hinput, Input.view]
    refine ⟨s, .inl rfl, h.input_own hinput rfl ⟨nofun, nofun⟩ ⟨nofun, nofun⟩ (h.locked.keep ?_) id
      (h.owned.malloc ?_ rfl rfl) rfl⟩
    · rw [hold]
      rfl
    · rw [hold]
      rfl
  · cases hread

theorem count (h : Refines capacity a s) (hcount : a.count = some a') : Refines capacity a' s := by
  unfold App.count at hcount
  split at hcount
  · next hinput =>
    obtain ⟨m, hlock, hresult⟩ := Option.bind_eq_some_iff.mp hcount
    cases hresult
    have hnone : (a.view .input).job = none := by simp only [App.view, hinput]; rfl
    exact h.input_own hinput rfl ⟨nofun, nofun⟩ ⟨nofun, nofun⟩ (h.locked.lock hlock rfl)
      (fun hm => absurd hm (Mutex.lock_ne hlock)) (h.owned.idle hnone rfl) rfl
  · next hinput =>
    cases hcount
    have hold : a.view .input = .locked := by simp only [App.view, hinput, Input.view]
    exact h.input_own hinput rfl ⟨nofun, nofun⟩ ⟨nofun, nofun⟩ (h.locked.keep (by rw [hold]; rfl)) id
      (h.owned.idle (by rw [hold]; rfl) rfl) (Int32.add_zero _).symm
  · next hinput =>
    obtain ⟨m, hunlock, hresult⟩ := Option.bind_eq_some_iff.mp hcount
    cases hresult
    have hnone : (a.view .input).job = none := by simp only [App.view, hinput]; rfl
    exact h.input_own hinput rfl ⟨nofun, nofun⟩ ⟨nofun, nofun⟩ (h.locked.unlock hunlock rfl)
      (fun hm => absurd hm (Mutex.unlock_ne hunlock)) (h.owned.idle hnone rfl) rfl
  · cases hcount

/-- The main thread goes on. -/
theorem main_own (h : Refines capacity a s) {main : Main} {input : Input} {displayMutex : Mutex (Thread n)}
    {running queueDestroyed : Bool} {reported : Option Int32}
    (hcall : (a.main.view n).call = none)
    (hinput : input = a.input ∨ a.input = .unlaunched ∧ input = .reading)
    (hlocked : Locked displayMutex (Function.update a.view .main (main.view n)))
    (hmain : main.Matches s)
    (hordered : App.Ordered { a with main, input, displayMutex, running, queueDestroyed, reported }) :
    Refines capacity { a with main, input, displayMutex, running, queueDestroyed, reported } s := by
  have hsame : input.view = a.input.view ∧ (input = .returned ↔ a.input = .returned) ∧
      input.uncounted = a.input.uncounted := by
    rcases hinput with rfl | ⟨hold, rfl⟩
    · exact ⟨rfl, Iff.rfl, rfl⟩
    · rw [hold]
      exact ⟨rfl, iff_of_false nofun nofun, rfl⟩
  have hview : App.view { a with main, input, displayMutex, running, queueDestroyed, reported } =
      Function.update a.view .main (main.view n) := App.view_main hsame.1 rfl rfl
  exact { h with
    inward := hview ▸ h.inward.own hcall
    locked := hview ▸ hlocked
    owned := hview ▸ h.owned.idle (Main.view_job _) (Main.view_job _)
    closed := h.closed.trans hsame.2.1.symm
    main := hmain
    ordered := hordered
    submitted := by
      rw [hsame.2.2]
      exact h.submitted }

/-- The main thread goes on, without the mutex. -/
theorem main_outside (h : Refines capacity a s) {main : Main} {input : Input}
    {running queueDestroyed : Bool} {reported : Option Int32} (hold : a.main.view n = .outside)
    (hview : (main.view n).holds = false)
    (hinput : input = a.input ∨ a.input = .unlaunched ∧ input = .reading) (hmain : main.Matches s)
    (hordered : App.Ordered { a with main, input, running, queueDestroyed, reported }) :
    Refines capacity { a with main, input, running, queueDestroyed, reported } s := by
  refine h.main_own (by rw [hold]; rfl) hinput (h.locked.keep ?_) hmain hordered
  rw [hview]
  show _ = (a.main.view n).holds
  rw [hold]
  rfl

/-- A step of `render` by the main thread. -/
theorem main_renders (h : Refines capacity a s) {r : Render} {next : Option Render} {b : App n} {main : Main}
    (hview : a.main.view n = r.view) (hrender : a.render .main r = some (next, b))
    (hnext : main.view n = next.elim .outside Render.view) (hmain : main.Matches s)
    (hordered : ∀ m, (m = .destroyed → a.displayMutex = .destroyed) →
      App.Ordered { a with main, displayMutex := m }) :
    Refines capacity { b with main } s := by
  obtain ⟨m, rfl, hmutex, hlocked⟩ := App.render_spec hrender
  exact h.main_own (by rw [hview]; exact r.view_call) (.inl rfl)
    (hnext ▸ hlocked a.view hview h.locked) hmain (hordered m hmutex)

theorem advance (h : Refines capacity a s) (hadvance : a.advance = some a') : Refines capacity a' s := by
  have hmatches := h.main
  obtain ⟨hlaunched, hstopped, halone, hreported, hqueue, hmutex⟩ := h.ordered
  unfold App.advance at hadvance
  generalize hmain : a.main = main at hadvance hmatches hlaunched hstopped halone hreported hqueue hmutex
  cases main with
  | rendersFirst r =>
    obtain ⟨⟨next, b⟩, hrender, hresult⟩ := Option.bind_eq_some_iff.mp hadvance
    cases hresult
    refine h.main_renders (by rw [hmain]; rfl) hrender ?_ ?_ fun m hm => ?_
    · cases next <;> rfl
    · cases next <;> exact hmatches
    · constructor <;> cases next <;> simp_all [Main.stage]
  | launches =>
    cases hadvance
    exact h.main_outside (by rw [hmain]; rfl) rfl (.inr ⟨hlaunched.mpr (by decide), rfl⟩) hmatches
      (by constructor <;> simp_all [Main.stage])
  | joinsInput =>
    dsimp only at hadvance
    split at hadvance <;> cases hadvance
    rename_i hinput
    exact h.main_outside (by rw [hmain]; rfl) rfl (.inl rfl)
      ⟨Nat.zero_le _, hmatches, h.closed.mpr hinput⟩
      (by constructor <;> simp_all [Main.stage])
  | pushing pills =>
    obtain ⟨hle, hpills, -⟩ := hmatches
    dsimp only at hadvance
    split at hadvance <;> cases hadvance
    rename_i hge
    exact h.main_outside (by rw [hmain, Main.view, if_neg hge]; rfl) rfl (.inl rfl)
      ⟨Nat.zero_le _, by omega, nofun⟩ (by constructor <;> simp_all [Main.stage])
  | joins joined =>
    obtain ⟨hle, hpills, hgone⟩ := hmatches
    have hold : a.main.view n = .outside := by rw [hmain]; rfl
    dsimp only at hadvance
    split at hadvance
    · next hlt =>
      split at hadvance <;> cases hadvance
      rename_i hplace
      refine h.main_outside hold rfl (.inl rfl) ⟨hlt, hpills, fun i hi => ?_⟩
        (by constructor <;> simp_all [Main.stage])
      rcases Nat.lt_succ_iff_lt_or_eq.mp hi with hi | hi
      · exact hgone i hi
      · obtain rfl : i = ⟨joined, hlt⟩ := Fin.ext hi
        have hworker := h.worker ⟨joined, hlt⟩
        rwa [hplace] at hworker
    · next hge =>
      cases hadvance
      exact h.main_outside hold rfl (.inl rfl) ⟨hpills, fun i => hgone i (by omega)⟩
        (by constructor <;> simp_all [Main.stage])
  | stops =>
    cases hadvance
    exact h.main_outside (by rw [hmain]; rfl) rfl (.inl rfl) hmatches
      (by constructor <;> simp_all [Main.stage])
  | joinsDisplay =>
    dsimp only at hadvance
    split at hadvance <;> cases hadvance
    exact h.main_outside (by rw [hmain]; rfl) rfl (.inl rfl) hmatches
      (by constructor <;> simp_all [Main.stage])
  | rendersLast r =>
    obtain ⟨⟨next, b⟩, hrender, hresult⟩ := Option.bind_eq_some_iff.mp hadvance
    cases hresult
    refine h.main_renders (by rw [hmain]; rfl) hrender ?_ ?_ fun m hm => ?_
    · cases next <;> rfl
    · cases next <;> exact hmatches
    · constructor <;> cases next <;> simp_all [Main.stage]
  | reports =>
    cases hadvance
    exact h.main_outside (by rw [hmain]; rfl) rfl (.inl rfl) hmatches
      (by constructor <;> simp_all [Main.stage])
  | destroysQueue =>
    cases hadvance
    exact h.main_outside (by rw [hmain]; rfl) rfl (.inl rfl) hmatches
      (by constructor <;> simp_all [Main.stage])
  | destroysMutex =>
    obtain ⟨m, hdestroy, hresult⟩ := Option.bind_eq_some_iff.mp hadvance
    cases hresult
    have hlocked : Locked m (Function.update a.view .main (Main.done.view n)) :=
      (h.locked.destroy hdestroy).keep (by rw [App.view, hmain]; rfl)
    exact h.main_own (by rw [hmain]; rfl) (.inl rfl) hlocked hmatches
      (by constructor <;> simp_all [Main.stage])
  | done => cases hadvance

/-- A worker goes on, and counts no job. -/
theorem worker_own (h : Refines capacity a s) {i : Fin n} {old : Place} {w : Worker} {jobs : Jobs}
    {displayMutex : Mutex (Thread n)} (hplace : (a.workers i).place = old) (hcall : old.view.call = none)
    (hlocked : Locked displayMutex (Function.update a.view (.worker i) w.place.view))
    (hmutex : displayMutex = .destroyed → a.displayMutex = .destroyed)
    (howned : Owned jobs (Function.update a.view (.worker i) w.place.view) s.queue)
    (hmatches : ∀ x, old.Matches x → w.place.Matches x)
    (hcounted : w.jobsCompleted + old.uncounted = (a.workers i).jobsCompleted + w.place.uncounted) :
    Refines capacity { a with
      jobs, displayMutex
      workers := Function.update a.workers i w } s := by
  subst hplace
  have hview : App.view { a with jobs, displayMutex, workers := Function.update a.workers i w } =
      Function.update a.view (.worker i) w.place.view := App.view_worker rfl rfl rfl rfl
  have hworker := @matches_update n a.workers s.worker h.worker i w _ (hmatches _ (h.worker i))
  rw [Function.update_eq_self] at hworker
  exact { h with
    inward := hview ▸ h.inward.own hcall
    locked := hview ▸ hlocked
    owned := hview ▸ howned
    worker := hworker
    ordered := { h.ordered with mutexDestroyed := fun hm => h.ordered.mutexDestroyed (hmutex hm) }
    each := h.each.update (congrArg (· + a.totalJobsCompleted) hcounted) }

/-- A worker counts its job. -/
theorem worker_counts (h : Refines capacity a s) {i : Fin n} (hplace : (a.workers i).place = .counting) :
    ∃ s', Pool.Step s s' ∧ Refines capacity { a with
      workers := Function.update a.workers i { a.workers i with place := .unlocking }
      totalJobsCompleted := a.totalJobsCompleted + 1 } s' := by
  have hbusy := h.worker i
  rw [hplace] at hbusy
  obtain ⟨job, hjob⟩ := hbusy
  have hold : a.view (.worker i) = .locked := by simp only [App.view, hplace, Place.view]
  have hview : App.view { a with
      workers := Function.update a.workers i { a.workers i with place := .unlocking }
      totalJobsCompleted := a.totalJobsCompleted + 1 } = Function.update a.view (.worker i) .locked :=
    @App.view_worker n a _ i { a.workers i with place := .unlocking } rfl rfl rfl rfl
  refine ⟨_, .finish hjob, ?_⟩
  exact { h with
    inward := hview ▸ h.inward.own (by rw [hold]; rfl)
    locked := by
      rw [hview]
      exact h.locked.keep (by rw [hold])
    owned := by
      rw [hview]
      exact h.owned.idle (by rw [hold]; rfl) rfl
    worker := matches_update h.worker rfl
    main := h.main.keep rfl id (gone_update (by rw [hjob]; nofun) _)
    ordered := { h.ordered with
      reported := fun hle => by
        have hgone := (h.main.gone (le_trans (by decide) hle)).2 i
        rw [hjob] at hgone
        cases hgone }
    finished := by
      show Int32.ofNat (s.finished + {job}).card = _
      rw [Multiset.card_add, Multiset.card_singleton, Int32.ofNat_add, h.finished]
      rfl
    each := h.each.update (by simp only [hplace, Place.uncounted]; grind) }

theorem work (h : Refines capacity a s) {i : Fin n} (hwork : a.work i = some a') :
    ∃ s', (s' = s ∨ Pool.Step s s') ∧ Refines capacity a' s' := by
  have hold : a.view (.worker i) = (a.workers i).place.view := rfl
  unfold App.work at hwork
  dsimp only at hwork
  split at hwork
  · next job hplace =>
    obtain ⟨seconds, hseconds, hresult⟩ := Option.bind_eq_some_iff.mp hwork
    cases hresult
    rw [hplace] at hold
    refine ⟨s, .inl rfl, h.worker_own hplace rfl (h.locked.keep (by rw [hold]; rfl)) id
      (h.owned.keep (by rw [hold]; rfl) ?_) (fun _ => id) rfl⟩
    intro p value hp hvalue
    cases hp
    cases hvalue
    exact hseconds
  · next job seconds hplace =>
    obtain ⟨jobs, hfree, hresult⟩ := Option.bind_eq_some_iff.mp hwork
    cases hresult
    rw [hplace] at hold
    exact ⟨s, .inl rfl, h.worker_own hplace rfl (h.locked.keep (by rw [hold]; rfl)) id
      (h.owned.free (by rw [hold]; rfl) rfl hfree) (fun _ => id) rfl⟩
  · next hplace =>
    rw [hplace] at hold
    split at hwork <;> cases hwork
    · exact ⟨s, .inl rfl, h.worker_own rfl (by rw [hplace]; rfl) (h.locked.keep (by rw [hold, hplace])) id
        (h.owned.idle (by rw [hold]; rfl) (by rw [hplace]; rfl)) (fun _ => id) rfl⟩
    · exact ⟨s, .inl rfl, h.worker_own hplace rfl (h.locked.keep (by rw [hold]; rfl)) id
        (h.owned.idle (by rw [hold]; rfl) rfl) (fun _ => id) (Int32.add_zero _)⟩
  · next hplace =>
    obtain ⟨m, hlock, hresult⟩ := Option.bind_eq_some_iff.mp hwork
    cases hresult
    rw [hplace] at hold
    exact ⟨s, .inl rfl, h.worker_own hplace rfl (h.locked.lock hlock rfl)
      (fun hm => absurd hm (Mutex.lock_ne hlock)) (h.owned.idle (by rw [hold]; rfl) rfl) (fun _ => id) rfl⟩
  · next hplace =>
    cases hwork
    obtain ⟨s', hstep, h'⟩ := h.worker_counts hplace
    exact ⟨s', .inr hstep, h'⟩
  · next hplace =>
    obtain ⟨m, hunlock, hresult⟩ := Option.bind_eq_some_iff.mp hwork
    cases hresult
    rw [hplace] at hold
    exact ⟨s, .inl rfl, h.worker_own hplace rfl (h.locked.unlock hunlock rfl)
      (fun hm => absurd hm (Mutex.unlock_ne hunlock)) (h.owned.idle (by rw [hold]; rfl) rfl)
      (fun _ => id) rfl⟩
  · cases hwork

/-- Every step of a thread is a step of the pool, or none. -/
theorem step (h : Refines capacity a s) {e : Event n} (hs : Step a e a') (hok : ¬ e.Fails) :
    ∃ s', (s' = s ∨ Pool.Step s s') ∧ Refines capacity a' s' := by
  cases hs with
  | queue _ hqueue hsettle => exact h.queue_step hqueue (App.settled hsettle) hok
  | refreshed hrefresh => exact ⟨s, .inl rfl, h.refresh hrefresh⟩
  | drew hdraw => exact ⟨s, .inl rfl, h.draw hdraw⟩
  | read hread => exact h.read hread
  | counted hcount => exact ⟨s, .inl rfl, h.count hcount⟩
  | advanced hadvance => exact ⟨s, .inl rfl, h.advance hadvance⟩
  | worked hwork => exact h.work hwork

end Refines

/-! ## Runs -/

section Runs

variable {capacity : UInt32} {garbage : Nat → Option Ptr} {h : List (Taken (App n) (Event n))}

theorem Refines.step_inv {s : State (Fin n) Ptr} {e : Event n} (h : Refines capacity a s) (hinv : Pool.Inv s)
    (hs : Step a e a') (hok : ¬ e.Fails) : ∃ s', Refines capacity a' s' ∧ Pool.Inv s' := by
  obtain ⟨s', hstep, h'⟩ := h.step hs hok
  refine ⟨s', h', ?_⟩
  rcases hstep with rfl | hstep
  · exact hinv
  · exact hinv.step hstep

theorem Run.refines (hrun : Run Step (App.init capacity garbage) h a) (hok : ∀ t ∈ h, ¬ t.label.Fails) :
    ∃ s, Refines capacity a s ∧ Pool.Inv s := by
  induction hrun with
  | nil => exact ⟨.empty, .init capacity garbage, .empty⟩
  | @snoc h a a' e hr hs ih =>
    obtain ⟨s, hrefines, hinv⟩ := ih fun t ht => hok t (List.mem_append_left _ ht)
    exact hrefines.step_inv hinv hs (hok ⟨a, e, a'⟩ (List.mem_append_right _ List.mem_cons_self))

/-- Where everything is from the destroy of the queue on. -/
theorem Refines.all_returned {s : State (Fin n) Ptr} (h : Refines capacity a s) (hinv : Pool.Inv s)
    (hn : 0 < n) (hstage : Main.destroysQueue.stage ≤ a.main.stage) :
    a.input = .returned ∧ a.display = .returned ∧ (∀ i, (a.workers i).place = .returned) ∧
      s.queue = [] ∧ s.finished = s.submitted := by
  obtain ⟨hpills, hgone⟩ := h.main.gone (le_trans (by decide) hstage)
  have hnonempty : Nonempty (Fin n) := ⟨⟨0, hn⟩⟩
  refine ⟨h.closed.mp ?_, h.ordered.alone (le_trans (by decide) hstage), fun i => ?_,
    hinv.all_gone hgone (by rw [hpills, Fintype.card_fin])⟩
  · by_contra hopen
    have hnone := hinv.early (Bool.eq_false_iff.mpr hopen)
    omega
  · have hworker := h.worker i
    rw [hgone i] at hworker
    exact hworker.returned

theorem Refines.all_outside {s : State (Fin n) Ptr} (h : Refines capacity a s) (hinv : Pool.Inv s)
    (hn : 0 < n) (hstage : Main.destroysQueue.stage ≤ a.main.stage) (t : Thread n) : a.view t = .outside := by
  obtain ⟨hinput, hdisplay, hplace, -, -⟩ := h.all_returned hinv hn hstage
  cases t with
  | main => exact Main.view_outside hstage
  | input => simp only [App.view, hinput, Input.view]
  | display => simp only [App.view, hdisplay, Display.view]
  | worker i => simp only [App.view, hplace i, Place.view]

/-- The sections of the queue in a history. -/
def sections (h : List (Taken (App n) (Event n))) :
    List (Taken (Queue.World (Thread n) (Option Ptr)) (Label (Thread n) (Option Ptr))) :=
  h.filterMap fun t =>
    match t.label with
    | .queue l => some ⟨t.pre.world, l, t.post.world⟩
    | _ => none

/-- The jobs that were pushed in a history. -/
def submitted (h : List (Taken (App n) (Event n))) : List Ptr := (Queue.pushed (sections h)).reduceOption

/-- The jobs that the input thread has counted or is about to. -/
def App.counted (a : App n) : Int32 := a.totalJobsSubmitted + a.input.uncounted

/-- The job that a section pushed. -/
def jobsOf (l : Label (Thread n) (Option Ptr)) : List Ptr := l.event.input.toList.reduceOption

/-- After a section the input thread has the job to count that it pushed. -/
theorem Settled.spec {l : Label (Thread n) (Option Ptr)} (h : Settled a l a')
    (hok : ¬ (Event.queue l).Fails) :
    a'.world = a.world ∧ a'.counted = a.counted + Int32.ofNat (jobsOf l).length := by
  cases h with
  | job hinput =>
    refine ⟨rfl, ?_⟩
    show a.totalJobsSubmitted + 1 = a.totalJobsSubmitted + a.input.uncounted + 1
    rw [hinput]
    exact congrArg (· + 1) (Int32.add_zero _).symm
  | pill hmain hlt => exact ⟨rfl, (Int32.add_zero _).symm⟩
  | @popped i item hplace => cases item <;> exact ⟨rfl, (Int32.add_zero _).symm⟩
  | failed => exact absurd trivial hok
  | _ => exact ⟨rfl, (Int32.add_zero _).symm⟩

/-! A step outside the queue leaves the queue as it is, and the count of the pushed jobs. -/

theorem App.refresh_frame (hrefresh : a.refresh = some a') : a'.world = a.world ∧ a'.counted = a.counted := by
  unfold App.refresh at hrefresh
  split at hrefresh
  · split at hrefresh <;> cases hrefresh
    exact ⟨rfl, rfl⟩
  · cases hrefresh

theorem App.render_frame {t : Thread n} {r : Render} {next : Option Render}
    (hrender : a.render t r = some (next, a')) : a'.world = a.world ∧ a'.counted = a.counted := by
  obtain ⟨m, rfl, -⟩ := App.render_spec hrender
  exact ⟨rfl, rfl⟩

theorem App.draw_frame (hdraw : a.draw = some a') : a'.world = a.world ∧ a'.counted = a.counted := by
  unfold App.draw at hdraw
  split at hdraw
  · split at hdraw <;> cases hdraw
    exact ⟨rfl, rfl⟩
  · obtain ⟨⟨next, b⟩, hrender, hresult⟩ := Option.bind_eq_some_iff.mp hdraw
    cases hresult
    obtain ⟨hworld, hcounted⟩ := App.render_frame hrender
    exact ⟨hworld, hcounted⟩
  · cases hdraw

theorem App.read_frame {line : Line} {memory : Bool} (hread : a.read line memory = some a') :
    a'.world = a.world ∧ a'.counted = a.counted := by
  unfold App.read at hread
  split at hread
  · next hinput =>
    have hcounted : a.counted = a.totalJobsSubmitted + 0 := by
      rw [App.counted, hinput]
      rfl
    split at hread
    · cases hread
      exact ⟨rfl, hcounted.symm⟩
    split at hread
    · cases hread
      exact ⟨rfl, hcounted.symm⟩
    · cases hread
      exact ⟨rfl, hcounted.symm⟩
    split at hread
    · cases hread
      exact ⟨rfl, rfl⟩
    split at hread
    · cases hread
      exact ⟨rfl, rfl⟩
    cases hread
    exact ⟨rfl, hcounted.symm⟩
  · cases hread

theorem App.count_frame (hcount : a.count = some a') : a'.world = a.world ∧ a'.counted = a.counted := by
  unfold App.count at hcount
  split at hcount
  · next hinput =>
    obtain ⟨m, -, hresult⟩ := Option.bind_eq_some_iff.mp hcount
    cases hresult
    exact ⟨rfl, by rw [App.counted, App.counted, hinput]; rfl⟩
  · next hinput =>
    cases hcount
    exact ⟨rfl, by rw [App.counted, App.counted, hinput]; exact Int32.add_zero _⟩
  · next hinput =>
    obtain ⟨m, -, hresult⟩ := Option.bind_eq_some_iff.mp hcount
    cases hresult
    exact ⟨rfl, by rw [App.counted, App.counted, hinput]; rfl⟩
  · cases hcount

theorem App.advance_frame (hordered : a.Ordered) (hadvance : a.advance = some a') :
    a'.world = a.world ∧ a'.counted = a.counted := by
  have hlaunched := hordered.launched
  unfold App.advance at hadvance
  generalize hmain : a.main = main at hadvance hlaunched
  cases main with
  | rendersFirst r =>
    obtain ⟨⟨next, b⟩, hrender, hresult⟩ := Option.bind_eq_some_iff.mp hadvance
    cases hresult
    obtain ⟨hworld, hcounted⟩ := App.render_frame hrender
    exact ⟨hworld, hcounted⟩
  | launches =>
    cases hadvance
    exact ⟨rfl, by rw [App.counted, App.counted, hlaunched.mpr (by decide)]; rfl⟩
  | rendersLast r =>
    obtain ⟨⟨next, b⟩, hrender, hresult⟩ := Option.bind_eq_some_iff.mp hadvance
    cases hresult
    obtain ⟨hworld, hcounted⟩ := App.render_frame hrender
    exact ⟨hworld, hcounted⟩
  | destroysMutex =>
    obtain ⟨m, -, hresult⟩ := Option.bind_eq_some_iff.mp hadvance
    cases hresult
    exact ⟨rfl, rfl⟩
  | _ =>
    dsimp only at hadvance
    (repeat' split at hadvance) <;> cases hadvance <;> exact ⟨rfl, rfl⟩

theorem App.work_frame {i : Fin n} (hwork : a.work i = some a') :
    a'.world = a.world ∧ a'.counted = a.counted := by
  unfold App.work at hwork
  dsimp only at hwork
  split at hwork
  · obtain ⟨seconds, -, hresult⟩ := Option.bind_eq_some_iff.mp hwork
    cases hresult
    exact ⟨rfl, rfl⟩
  · obtain ⟨jobs, -, hresult⟩ := Option.bind_eq_some_iff.mp hwork
    cases hresult
    exact ⟨rfl, rfl⟩
  · split at hwork <;> cases hwork <;> exact ⟨rfl, rfl⟩
  · obtain ⟨m, -, hresult⟩ := Option.bind_eq_some_iff.mp hwork
    cases hresult
    exact ⟨rfl, rfl⟩
  · cases hwork
    exact ⟨rfl, rfl⟩
  · obtain ⟨m, -, hresult⟩ := Option.bind_eq_some_iff.mp hwork
    cases hresult
    exact ⟨rfl, rfl⟩
  · cases hwork

theorem Step.frame {e : Event n} (hs : Step a e a') (hordered : a.Ordered) (hown : ∀ l, e ≠ .queue l) :
    a'.world = a.world ∧ a'.counted = a.counted := by
  cases hs with
  | @queue l => exact absurd rfl (hown l)
  | refreshed hrefresh => exact App.refresh_frame hrefresh
  | drew hdraw => exact App.draw_frame hdraw
  | read hread => exact App.read_frame hread
  | counted hcount => exact App.count_frame hcount
  | advanced hadvance => exact App.advance_frame hordered hadvance
  | worked hwork => exact App.work_frame hwork

theorem sections_snoc (h : List (Taken (App n) (Event n))) {e : Event n} (hown : ∀ l, e ≠ .queue l) :
    sections (h ++ [⟨a, e, a'⟩]) = sections h := by
  unfold sections
  rw [List.filterMap_append]
  cases e with
  | queue l => exact absurd rfl (hown l)
  | _ => exact List.append_nil _

theorem submitted_snoc (h : List (Taken (App n) (Event n))) (l : Label (Thread n) (Option Ptr)) :
    submitted (h ++ [⟨a, .queue l, a'⟩]) = submitted h ++ jobsOf l := by
  unfold submitted sections Queue.pushed
  rw [List.filterMap_append, List.filterMap_append, List.reduceOption_append]
  cases hl : l.event.input <;> simp [jobsOf, hl]

/-- The queue takes part in its sections only, and every job that was pushed is counted. -/
theorem Run.sections (hrun : Run Step (App.init capacity garbage) h a)
    (hok : ∀ t ∈ h, ¬ t.label.Fails) :
    Run Queue.Step (.init capacity garbage) (sections h) a.world ∧
      a.counted = Int32.ofNat (submitted h).length := by
  induction hrun with
  | nil => exact ⟨.nil, rfl⟩
  | @snoc h a a' e hr hs ih =>
    have hrest := fun t ht => hok t (List.mem_append_left _ ht)
    have hlast := hok ⟨a, e, a'⟩ (List.mem_append_right _ List.mem_cons_self)
    obtain ⟨s, hrefines, -⟩ := Run.refines hr hrest
    obtain ⟨hsections, hcounted⟩ := ih hrest
    have hown (hother : ∀ l, e ≠ .queue l) :
        Run Queue.Step (.init capacity garbage) (Producer.sections (h ++ [⟨a, e, a'⟩])) a'.world ∧
          a'.counted = Int32.ofNat (submitted (h ++ [⟨a, e, a'⟩])).length := by
      obtain ⟨hworld, hsame⟩ := hs.frame hrefines.ordered hother
      unfold submitted
      rw [sections_snoc h hother, hworld, hsame]
      exact ⟨hsections, hcounted⟩
    cases hs with
    | @queue l world _ _ hqueue hsettle =>
      obtain ⟨hworld, hmore⟩ := (App.settled hsettle).spec hlast
      refine ⟨?_, ?_⟩
      · unfold Producer.sections at hsections ⊢
        rw [List.filterMap_append]
        exact hsections.snoc (hworld ▸ hqueue)
      · rw [submitted_snoc, List.length_append, Int32.ofNat_add, ← hcounted]
        exact hmore
    | _ => exact hown nofun

/-- In every reachable state a worker that is about to read or to free its job can, and what it has read
is what the input thread wrote. From the destroy of the queue on, all other threads have returned and none
is in the queue or has the mutex, the workers popped what was pushed in the order of the pushes, and every
job was counted and freed. -/
theorem clean_shutdown (hn : 0 < n) (hrun : Run Step (App.init capacity garbage) h a)
    (hok : ∀ t ∈ h, ¬ t.label.Fails) :
    (∀ i job, (a.workers i).place = .reading job → (a.jobs.seconds job).isSome) ∧
    (∀ i job seconds, (a.workers i).place = .freeing job seconds → a.jobs.seconds job = some seconds) ∧
    (Main.destroysQueue.stage ≤ a.main.stage →
      a.input = .returned ∧ a.display = .returned ∧ (∀ i, (a.workers i).place = .returned) ∧
      (∀ t, a.world.phase t = .idle) ∧ (∀ t, a.displayMutex ≠ .owned t) ∧
      a.world.queue.count = 0 ∧ Queue.popped (sections h) = Queue.pushed (sections h) ∧
      a.totalJobsSubmitted = Int32.ofNat (submitted h).length ∧
      a.totalJobsCompleted = a.totalJobsSubmitted ∧ a.reported = some a.totalJobsSubmitted ∧
      ∑ i, (a.workers i).jobsCompleted = a.totalJobsSubmitted ∧ ∀ job, a.jobs.seconds job = none) := by
  obtain ⟨s, href, hinv⟩ := Run.refines hrun hok
  obtain ⟨hsections, hcounted⟩ := Run.sections hrun hok
  refine ⟨fun i job hplace => ?_, fun i job seconds hplace => ?_, fun hstage => ?_⟩
  · exact href.owned.isSome (t := .worker i) (by simp only [App.view, hplace, Place.view])
  · have hview : a.view (.worker i) = (Place.freeing job seconds).view := by simp only [App.view, hplace]
    exact href.owned.known (.worker i) job seconds (by rw [hview]; rfl) (by rw [hview]; rfl)
  obtain ⟨hinput, hdisplay, hplace, hqueue, hfinished⟩ := href.all_returned hinv hn hstage
  have hview := href.all_outside hinv hn hstage
  have hrep := href.queue
  rw [hqueue] at hrep
  have hcount := hrep.count
  have hsubmitted : a.totalJobsSubmitted = a.counted := by
    rw [App.counted, hinput]
    exact (Int32.add_zero _).symm
  have hcompleted : a.totalJobsCompleted = a.totalJobsSubmitted := by
    rw [← href.finished, hfinished, hsubmitted]
    exact href.submitted
  refine ⟨hinput, hdisplay, hplace, fun t => ?_, fun t ht => ?_, ?_, ?_, hsubmitted.trans hcounted,
    hcompleted, ?_, ?_, fun job => ?_⟩
  · exact href.inward.idle (by rw [hview t]; rfl)
  · have hholds := (href.locked t).mp ht
    rw [hview t] at hholds
    cases hholds
  · exact UInt32.toNat_inj.mp (by simpa using hcount.symm)
  · obtain ⟨-, rest, hrep', hio⟩ := Queue.run_represents hsections
    have hrest : rest.length = 0 := by
      rw [hrep'.count, ← hcount]
      rfl
    rw [hio, List.length_eq_zero_iff.mp hrest, List.append_nil]
  · rw [href.ordered.reported hstage, hcompleted]
  · have heach := href.each
    unfold Tallied at heach
    rw [heach, ← hcompleted]
    simp [hplace, Place.uncounted]
  · have hlive := href.owned.live job
    rw [hqueue] at hlive
    rw [← Option.not_isSome_iff_eq_none, hlive]
    rintro (hmem | ⟨t, ht⟩)
    · cases hmem
    · rw [hview t] at ht
      cases ht

/-- One job of one second, one worker, and a round of the display. -/
theorem clean_shutdown_one : ∃ h, ∃ a : App 1, Run Step (App.init 1 fun _ => none) h a ∧
    a.main = .done ∧ submitted h = [0] ∧ a.reported = some a.totalJobsSubmitted ∧
    a.totalJobsSubmitted = 1 ∧ ∀ job, a.jobs.seconds job = none := by
  have hfirst : Run Step (App.init 1 fun _ => none : App 1) _ _ :=
    (((((Run.nil.snoc (.advanced rfl)).snoc (.advanced rfl)).snoc (.advanced rfl)).snoc
      (.advanced rfl)).snoc (.advanced rfl))
  have hread := hfirst.snoc (@Step.read 1 _ (.number 1) true _ rfl)
  have hpushed := hread.snoc (.queue rfl (.push_idle .input (some 0) rfl) rfl)
  have hcounted := ((hpushed.snoc (.counted rfl)).snoc (.counted rfl)).snoc (.counted rfl)
  have hround := ((((hcounted.snoc (.refreshed rfl)).snoc (.drew rfl)).snoc (.drew rfl)).snoc
    (.drew rfl)).snoc (.drew rfl)
  have hpopped := hround.snoc (.queue rfl (.pop_idle (.worker 0) rfl) rfl)
  have hfreed := (hpopped.snoc (.worked (i := 0) rfl)).snoc (.worked (i := 0) rfl)
  have hdone := (hfreed.snoc (.worked (i := 0) rfl)).snoc (.worked (i := 0) rfl)
  have hfree := ((hdone.snoc (.worked (i := 0) rfl)).snoc (.worked (i := 0) rfl)).snoc (.worked (i := 0) rfl)
  have hclosed := (hfree.snoc (@Step.read 1 _ .eof true _ rfl)).snoc (.advanced rfl)
  have hpill := hclosed.snoc (.queue rfl (.push_idle .main none rfl) rfl)
  have hleft := hpill.snoc (.queue rfl (.pop_idle (.worker 0) rfl) rfl)
  have hjoined := (((hleft.snoc (.advanced rfl)).snoc (.advanced rfl)).snoc (.advanced rfl)).snoc
    (.advanced rfl)
  have hstopped := (hjoined.snoc (.drew rfl)).snoc (.advanced rfl)
  have hlast := (((hstopped.snoc (.advanced rfl)).snoc (.advanced rfl)).snoc (.advanced rfl)).snoc
    (.advanced rfl)
  have hend := ((hlast.snoc (.advanced rfl)).snoc (.advanced rfl)).snoc (.advanced rfl)
  obtain ⟨-, -, hclean⟩ := clean_shutdown (by decide) hend (by simp [Event.Fails])
  obtain ⟨-, -, -, -, -, -, -, -, -, hreported, -, hjobs⟩ := hclean (by decide)
  exact ⟨_, _, hend, rfl, rfl, hreported, rfl, hjobs⟩

end Runs

end CBase.Producer
