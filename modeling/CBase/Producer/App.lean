import CBase.Queue.Wakeups

/-!
# A producer and its workers

`user_producer.c`: the input thread pushes jobs into a queue, and `n` workers pop and process them. The
display thread draws the queue again and again. When the input has ended, the main thread pushes a NULL
for each worker and waits for all of them, then it stops the display and waits for it, and at last it
destroys the queue and `display_mutex`.

The threads meet at the queue in its critical sections, and at `display_mutex`. Between these, a thread
takes steps of its own. A call of the queue that fails ends as its caller has it: the producers go on, and
a worker returns. The launches of the threads and the locks of `display_mutex` succeed. What goes to the
screen, and the sleeps between, are left out; the counters wrap around.

A step that follows a dangling pointer has no result, nor has a section of a queue that was destroyed.
-/

namespace CBase.Producer

open Queue (World Label)

/-! ## Data -/

abbrev Ptr := Nat

/-- The jobs: `brk` were allocated so far, and `seconds` has the values of those that were not freed. -/
structure Jobs where
  brk : Nat
  seconds : Ptr → Option Int32

def Jobs.malloc (jobs : Jobs) (seconds : Int32) : Ptr × Jobs :=
  (jobs.brk, ⟨jobs.brk + 1, Function.update jobs.seconds jobs.brk (some seconds)⟩)

def Jobs.free (jobs : Jobs) (job : Ptr) : Option Jobs := do
  let _ ← jobs.seconds job
  return { jobs with seconds := Function.update jobs.seconds job none }

inductive Mutex (θ : Type) where
  | free
  | owned (t : θ)
  | destroyed
  deriving DecidableEq

namespace Mutex

variable {θ : Type}

/-- As long as another thread has the mutex, a lock waits. -/
def lock (m : Mutex θ) (t : θ) : Option (Mutex θ) :=
  match m with
  | .free => some (.owned t)
  | _ => none

def unlock [DecidableEq θ] (m : Mutex θ) (t : θ) : Option (Mutex θ) :=
  if m = .owned t then some .free else none

def destroy (m : Mutex θ) : Option (Mutex θ) :=
  match m with
  | .free => some .destroyed
  | _ => none

end Mutex

inductive Thread (n : Nat) where
  | main
  | input
  | display
  | worker (i : Fin n)
  deriving DecidableEq

/-- Where `render` is: at the lock of `display_mutex`, at `cb_tsqueue_count`, at the section in which it
reads the ring, or at the unlock. -/
inductive Render where
  | locking
  | counting
  | reading
  | unlocking
  deriving DecidableEq

inductive Input where
  | unlaunched
  | reading
  | pushing (job : Ptr)
  | locking
  | counting
  | unlocking
  | returned
  deriving DecidableEq

/-- Where `display_thread_fn` is: at the test of `running`, or in `render`. -/
inductive Display where
  | testing
  | rendering (r : Render)
  | returned
  deriving DecidableEq

/-- Where `main` is, after it launched the workers and the display: in its first `render`, at the
`pills`-th push of NULL, at the join of the `joined`-th worker, in its last `render`, and so on. -/
inductive Main where
  | rendersFirst (r : Render)
  | launches
  | joinsInput
  | pushing (pills : Nat)
  | joins (joined : Nat)
  | stops
  | joinsDisplay
  | rendersLast (r : Render)
  | reports
  | destroysQueue
  | destroysMutex
  | done

inductive Place where
  | popping
  | reading (job : Ptr)
  | freeing (job : Ptr) (seconds : Int32)
  | working
  | locking
  | counting
  | unlocking
  | returned
  deriving DecidableEq

/-- `worker_state_t`. -/
structure Worker where
  place : Place
  jobSeconds : Int32
  jobRemaining : Int32
  jobsCompleted : Int32
  shutdown : Bool

/-- `app_state_t`, with where its threads are. The items of the queue are pointers to jobs, or NULL. -/
structure App (n : Nat) where
  world : World (Thread n) (Option Ptr)
  queueDestroyed : Bool
  jobs : Jobs
  workers : Fin n → Worker
  input : Input
  display : Display
  main : Main
  displayMutex : Mutex (Thread n)
  running : Bool
  quitRequested : Bool
  totalJobsSubmitted : Int32
  totalJobsCompleted : Int32
  reported : Option Int32

/-- What `fgets` and `atoi` make of the input. -/
inductive Line where
  | eof
  | quit
  | number (seconds : Int32)

variable {n : Nat}

/-- The workers and the display were launched. -/
def App.init (capacity : UInt32) (garbage : Nat → Option Ptr) : App n where
  world := .init capacity garbage
  queueDestroyed := false
  jobs := ⟨0, fun _ => none⟩
  workers := fun _ => ⟨.popping, 0, 0, 0, false⟩
  input := .unlaunched
  display := .testing
  main := .rendersFirst .locking
  displayMutex := .free
  running := true
  quitRequested := false
  totalJobsSubmitted := 0
  totalJobsCompleted := 0
  reported := none

def App.setWorker (a : App n) (i : Fin n) (w : Worker) : App n :=
  { a with workers := Function.update a.workers i w }

/-! ## The display -/

/-- A step of `render`, and where it goes on. -/
def App.render (a : App n) (t : Thread n) : Render → Option (Option Render × App n)
  | .locking => do
    let displayMutex ← a.displayMutex.lock t
    return (some .counting, { a with displayMutex })
  | .counting => if a.queueDestroyed then none else some (some .reading, a)
  | .reading => if a.queueDestroyed then none else some (some .unlocking, a)
  | .unlocking => do
    let displayMutex ← a.displayMutex.unlock t
    return (none, { a with displayMutex })

/-- A round of the loop of `display_thread_fn` begins. -/
def App.refresh (a : App n) : Option (App n) :=
  match a.display with
  | .testing => if a.running then some { a with display := .rendering .locking } else none
  | _ => none

/-- A step of the round, or the end of the loop. -/
def App.draw (a : App n) : Option (App n) :=
  match a.display with
  | .testing => if a.running then none else some { a with display := .returned }
  | .rendering r => do
    let (next, a) ← a.render .display r
    return { a with display := next.elim .testing .rendering }
  | .returned => none

/-! ## The input thread -/

/-- A round of the loop of `input_thread_fn`, up to its push. `memory` says whether `malloc` succeeds. -/
def App.read (a : App n) (line : Line) (memory : Bool) : Option (App n) :=
  match a.input with
  | .reading =>
    if !a.running then some { a with input := .returned }
    else
      match line with
      | .eof => some { a with input := .returned }
      | .quit => some { a with quitRequested := true, running := false, input := .returned }
      | .number seconds =>
        if seconds ≤ 0 then some a
        -- without memory the line is skipped
        else if !memory then some a
        else
          let (job, jobs) := a.jobs.malloc seconds
          some { a with jobs, input := .pushing job }
  | _ => none

/-- A step of the round after its push. -/
def App.count (a : App n) : Option (App n) :=
  match a.input with
  | .locking => do
    let displayMutex ← a.displayMutex.lock .input
    return { a with displayMutex, input := .counting }
  | .counting => some { a with
      input := .unlocking
      totalJobsSubmitted := a.totalJobsSubmitted + 1 }
  | .unlocking => do
    let displayMutex ← a.displayMutex.unlock .input
    return { a with displayMutex, input := .reading }
  | _ => none

/-! ## The main thread -/

/-- A step of `main` outside the queue. -/
def App.advance (a : App n) : Option (App n) :=
  match a.main with
  | .rendersFirst r => do
    let (next, a) ← a.render .main r
    return { a with main := next.elim .launches .rendersFirst }
  -- the input thread is launched after the first `render`
  | .launches => some { a with input := .reading, main := .joinsInput }
  | .joinsInput =>
    match a.input with
    | .returned => some { a with main := .pushing 0 }
    | _ => none
  | .pushing pills => if pills < n then none else some { a with main := .joins 0 }
  | .joins joined =>
    if h : joined < n then
      match (a.workers ⟨joined, h⟩).place with
      | .returned => some { a with main := .joins (joined + 1) }
      | _ => none
    else some { a with main := .stops }
  | .stops => some { a with running := false, main := .joinsDisplay }
  | .joinsDisplay =>
    match a.display with
    | .returned => some { a with main := .rendersLast .locking }
    | _ => none
  | .rendersLast r => do
    let (next, a) ← a.render .main r
    return { a with main := next.elim .reports .rendersLast }
  | .reports => some { a with reported := some a.totalJobsCompleted, main := .destroysQueue }
  | .destroysQueue => some { a with queueDestroyed := true, main := .destroysMutex }
  | .destroysMutex => do
    let displayMutex ← a.displayMutex.destroy
    return { a with displayMutex, main := .done }
  | .done => none

/-! ## The workers -/

/-- What a worker does with what it popped. -/
def App.handle (a : App n) (i : Fin n) (item : Option Ptr) : App n :=
  let w := a.workers i
  match item with
  -- a pill
  | none => a.setWorker i { w with place := .returned, shutdown := true }
  | some job => a.setWorker i { w with place := .reading job }

/-- A step of `worker_wrapper` outside the queue. -/
def App.work (a : App n) (i : Fin n) : Option (App n) :=
  let w := a.workers i
  match w.place with
  | .reading job => do
    let seconds ← a.jobs.seconds job
    return a.setWorker i { w with place := .freeing job seconds }
  | .freeing job seconds => do
    let jobs ← a.jobs.free job
    return { a with jobs }.setWorker i { w with
      place := .working
      jobSeconds := seconds
      jobRemaining := seconds }
  | .working =>
    if 0 < w.jobRemaining then some (a.setWorker i { w with jobRemaining := w.jobRemaining - 1 })
    else some (a.setWorker i { w with
      place := .locking
      jobSeconds := 0
      jobRemaining := 0
      jobsCompleted := w.jobsCompleted + 1 })
  | .locking => do
    let displayMutex ← a.displayMutex.lock (.worker i)
    return { a with displayMutex }.setWorker i { w with place := .counting }
  | .counting => some { a.setWorker i { w with place := .unlocking } with
      totalJobsCompleted := a.totalJobsCompleted + 1 }
  | .unlocking => do
    let displayMutex ← a.displayMutex.unlock (.worker i)
    return { a with displayMutex }.setWorker i { w with place := .popping }
  | _ => none

/-! ## Steps -/

/-- How a thread goes on after a section of the queue, if it is at that call. -/
def App.settle (a : App n) : Label (Thread n) (Option Ptr) → Option (App n)
  | .pushed .input (some job) =>
    match a.input with
    | .pushing job' => if job = job' then some { a with input := .locking } else none
    | _ => none
  | .pushWaits .input (some job) =>
    match a.input with
    | .pushing job' => if job = job' then some a else none
    | _ => none
  | .pushed .main none =>
    match a.main with
    | .pushing pills => if pills < n then some { a with main := .pushing (pills + 1) } else none
    | _ => none
  | .pushWaits .main none =>
    match a.main with
    | .pushing pills => if pills < n then some a else none
    | _ => none
  | .popped (.worker i) item =>
    match (a.workers i).place with
    | .popping => some (a.handle i item)
    | _ => none
  | .popWaits (.worker i) =>
    match (a.workers i).place with
    | .popping => some a
    | _ => none
  | .woke _ => some a
  -- the producers do not look at the result of a push
  | .failed .input _ =>
    match a.input with
    | .pushing _ => some { a with input := .locking }
    | _ => none
  | .failed .main _ =>
    match a.main with
    | .pushing pills => if pills < n then some { a with main := .pushing (pills + 1) } else none
    | _ => none
  -- a failed pop ends a worker, as a pill does
  | .failed (.worker i) _ =>
    match (a.workers i).place with
    | .popping => some (a.setWorker i { a.workers i with place := .returned, shutdown := true })
    | _ => none
  | _ => none

inductive Event (n : Nat) where
  | queue (l : Label (Thread n) (Option Ptr))
  | refreshed
  | drew
  | read (line : Line) (memory : Bool)
  | counted
  | advanced
  | worked (i : Fin n)

/-- The interleavings of the threads. -/
inductive Step (a : App n) : Event n → App n → Prop
  | queue {l : Label (Thread n) (Option Ptr)} {world : World (Thread n) (Option Ptr)} {a' : App n} :
      a.queueDestroyed = false → Queue.Step a.world l world → { a with world }.settle l = some a' →
      Step a (.queue l) a'
  | refreshed {a' : App n} : a.refresh = some a' → Step a .refreshed a'
  | drew {a' : App n} : a.draw = some a' → Step a .drew a'
  | read {line : Line} {memory : Bool} {a' : App n} :
      a.read line memory = some a' → Step a (.read line memory) a'
  | counted {a' : App n} : a.count = some a' → Step a .counted a'
  | advanced {a' : App n} : a.advance = some a' → Step a .advanced a'
  | worked {i : Fin n} {a' : App n} : a.work i = some a' → Step a (.worked i) a'

/-- A lock or a wait of the queue that failed. -/
def Event.Fails : Event n → Prop
  | .queue (.failed _ _) => True
  | _ => False

end CBase.Producer
