import CBase.Info
import CBase.Lib.Memory
import CBase.Lib.Run

/-!
# The thread-safe queue as its critical sections

`cb_tsqueue_push`, `pop` and `try_pop` hold the queue mutex from the lock to the unlock, and give it
up only inside `cb_cond_wait`. So a call is a sequence of sections: each tests the guard of its
loop once and either finishes the call or waits. This module has the sections as functions on the
queue, and the transition relation in which any number of threads interleave them.

An access outside `items` and a modulus by zero have no result.
-/

namespace CBase.Queue

/-- `cb_tsqueue_t`, less the mutex and the condition variables. `α` is the type of the `void *`
items. -/
structure TsQueue (α : Type) where
  info : Info
  items : List α
  capacity : UInt32
  count : UInt32
  head : UInt32
  tail : UInt32

/-- `cb_tsqueue_create`. The flags tell whether the allocation of `items` and the creation of the
mutex and of the two condition variables succeed; `garbage` is what the fresh slots hold. -/
def create {α : Type} (capacity : UInt32) (garbage : Nat → α)
    (itemsOk mutexOk notFullOk notEmptyOk : Bool) : TsQueue α :=
  let slots := (List.range capacity.toNat).map garbage
  if !itemsOk then ⟨.allocFailed, [], capacity, 0, 0, 0⟩
  else if !mutexOk then ⟨.allocFailed, [], capacity, 0, 0, 0⟩
  else if !notFullOk then ⟨.allocFailed, [], capacity, 0, 0, 0⟩
  else if !notEmptyOk then ⟨.allocFailed, [], capacity, 0, 0, 0⟩
  else ⟨.ok, slots, capacity, 0, 0, 0⟩

/-- The C operator `a % b`, which has no result for `b = 0`. -/
def umod (a b : UInt32) : Option UInt32 := if b = 0 then none else some (a % b)

/-- How a section ends: in `cb_cond_wait`, or with the rest of the call done. -/
inductive Section (β : Type) where
  | wait
  | done (result : β)

/-- A section of `cb_tsqueue_push`: the guard of the loop and, when there is room, the store. -/
def push {α : Type} (q : TsQueue α) (item : α) : Option (Section (TsQueue α)) :=
  if q.count = q.capacity then some .wait
  else do
    let items ← Memory.store q.items q.tail.toNat item
    let tail ← umod (q.tail + 1) q.capacity
    return .done { q with items, tail, count := q.count + 1 }

/-- The end of `cb_tsqueue_pop` and `cb_tsqueue_try_pop`: take the item at the head. -/
def take {α : Type} (q : TsQueue α) : Option (α × TsQueue α) := do
  let data ← Memory.load q.items q.head.toNat
  let head ← umod (q.head + 1) q.capacity
  return (data, { q with head, count := q.count - 1 })

/-- A section of `cb_tsqueue_pop`. -/
def pop {α : Type} (q : TsQueue α) : Option (Section (α × TsQueue α)) :=
  if q.count = 0 then some .wait
  else do
    let r ← take q
    return .done r

/-- The section of `cb_tsqueue_try_pop`: its answer is `none` for `CB_INFO_QUEUE_EMPTY`. -/
def tryPop {α : Type} (q : TsQueue α) : Option (Option α × TsQueue α) :=
  if q.count = 0 then some (none, q)
  else do
    let (data, q) ← take q
    return (some data, q)

/-! ## Interleaving -/

/-- Where a thread is: outside the queue, blocked on a condition variable, or woken and about to
take the mutex again. -/
inductive Phase (α : Type) where
  | idle
  | pushBlocked (item : α)
  | pushWoken (item : α)
  | popBlocked
  | popWoken

def Phase.OnNotFull {α : Type} : Phase α → Prop
  | .pushBlocked _ => True
  | _ => False

def Phase.OnNotEmpty {α : Type} : Phase α → Prop
  | .popBlocked => True
  | _ => False

/-- The phase after the thread was woken. -/
def Phase.wake {α : Type} : Phase α → Phase α
  | .pushBlocked item => .pushWoken item
  | .popBlocked => .popWoken
  | p => p

/-- `cb_cond_signal`: some of the threads blocked on the condition wake, at least one when there
is one. -/
def Signal {θ α : Type} (blocked : Phase α → Prop) (p p' : θ → Phase α) : Prop :=
  (∀ u, p' u = p u ∨ (blocked (p u) ∧ p' u = (p u).wake)) ∧
  ((∃ u, blocked (p u)) → ∃ u, blocked (p u) ∧ p' u = (p u).wake)

/-- The queue and the threads that use it. -/
structure World (θ α : Type) where
  queue : TsQueue α
  phase : θ → Phase α

/-- The phases with that of thread `t` replaced. -/
def setPhase {θ α : Type} [DecidableEq θ] (p : θ → Phase α) (t : θ) (x : Phase α) :
    θ → Phase α :=
  fun u => if u = t then x else p u

/-- What a section did. -/
inductive Label (θ α : Type) where
  | pushed (t : θ) (item : α)
  | pushWaits (t : θ) (item : α)
  | popped (t : θ) (item : α)
  | popWaits (t : θ)
  | tryPopped (t : θ) (answer : Option α)
  | woke (t : θ)
  | failed (t : θ) (info : Info)

/-- A thread may run a section of push for `item`: it starts the call, or was woken inside it. -/
def Phase.MayPush {α : Type} (item : α) (p : Phase α) : Prop := p = .idle ∨ p = .pushWoken item

/-- A thread may run a section of pop. -/
def Phase.MayPop {α : Type} (p : Phase α) : Prop := p = .idle ∨ p = .popWoken

/-- The interleavings. A blocked thread wakes by a signal or spuriously; a lock may fail when a call
starts, and a wait may fail, and then the call ends with that info. -/
inductive Step {θ α : Type} [DecidableEq θ] (w : World θ α) : Label θ α → World θ α → Prop
  | pushed {t : θ} {item : α} {q' : TsQueue α} {p' : θ → Phase α} :
      (w.phase t).MayPush item → push w.queue item = some (.done q') →
      Signal Phase.OnNotEmpty (setPhase w.phase t .idle) p' →
      Step w (.pushed t item) ⟨q', p'⟩
  | pushWaits {t : θ} {item : α} :
      (w.phase t).MayPush item → push w.queue item = some .wait →
      Step w (.pushWaits t item) ⟨w.queue, setPhase w.phase t (.pushBlocked item)⟩
  | pushWaitFails {t : θ} {item : α} :
      (w.phase t).MayPush item → push w.queue item = some .wait →
      Step w (.failed t .condWaitFailed) ⟨w.queue, setPhase w.phase t .idle⟩
  | popped {t : θ} {item : α} {q' : TsQueue α} {p' : θ → Phase α} :
      (w.phase t).MayPop → pop w.queue = some (.done (item, q')) →
      Signal Phase.OnNotFull (setPhase w.phase t .idle) p' →
      Step w (.popped t item) ⟨q', p'⟩
  | popWaits {t : θ} :
      (w.phase t).MayPop → pop w.queue = some .wait →
      Step w (.popWaits t) ⟨w.queue, setPhase w.phase t .popBlocked⟩
  | popWaitFails {t : θ} :
      (w.phase t).MayPop → pop w.queue = some .wait →
      Step w (.failed t .condWaitFailed) ⟨w.queue, setPhase w.phase t .idle⟩
  | tryPopped {t : θ} {item : α} {q' : TsQueue α} {p' : θ → Phase α} :
      w.phase t = .idle → tryPop w.queue = some (some item, q') →
      Signal Phase.OnNotFull (setPhase w.phase t .idle) p' →
      Step w (.tryPopped t (some item)) ⟨q', p'⟩
  | tryPopEmpty {t : θ} {q' : TsQueue α} :
      w.phase t = .idle → tryPop w.queue = some (none, q') →
      Step w (.tryPopped t none) ⟨q', w.phase⟩
  -- the call had not begun
  | lockFails {t : θ} :
      w.phase t = .idle → Step w (.failed t .mutexLockFailed) w
  | woke {t : θ} :
      (w.phase t).OnNotFull ∨ (w.phase t).OnNotEmpty →
      Step w (.woke t) ⟨w.queue, setPhase w.phase t (w.phase t).wake⟩

/-- A queue that was created, with every thread outside it. -/
def World.init {θ α : Type} (capacity : UInt32) (garbage : Nat → α) : World θ α :=
  ⟨create capacity garbage true true true true, fun _ => .idle⟩

end CBase.Queue
