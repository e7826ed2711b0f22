import CBase.Lib.Wakeups
import CBase.Queue.Fifo

/-!
# The thread-safe queue loses no wakeup

A push signals one consumer and a pop signals one producer, and a thread that never slept may take
what the signal was for. Still there is a woken consumer for each item as long as a consumer sleeps,
and a woken producer for each free slot as long as a producer sleeps.

* `Accounted.step`: every section keeps both counts.
* `no_lost_wakeup`: the counts in every reachable state.
-/

namespace CBase.Queue

open Wakeups

variable {θ α : Type}

def Phase.WokenToPush : Phase α → Prop
  | .pushWoken _ => True
  | _ => False

def Phase.WokenToPop : Phase α → Prop
  | .popWoken => True
  | _ => False

/-- The wakeups on their way cover the items and the free slots. -/
structure Accounted (w : World θ α) : Prop where
  items : Covered Phase.OnNotEmpty Phase.WokenToPop w.queue.count.toNat w.phase
  slots : Covered Phase.OnNotFull Phase.WokenToPush
    (w.queue.capacity.toNat - w.queue.count.toNat) w.phase

/-! ## Phases -/

section Phases

variable {blocked woken other : Phase α → Prop} {p p' : θ → Phase α} {t : θ} {x : Phase α} {n : Nat}

theorem wake_notEmpty : ∀ x : Phase α, x.OnNotEmpty →
    ¬ x.WokenToPop ∧ x.wake.WokenToPop ∧ ¬ x.wake.OnNotFull ∧ ¬ x.WokenToPush
  | .popBlocked, _ => ⟨nofun, trivial, nofun, nofun⟩

theorem wake_notFull : ∀ x : Phase α, x.OnNotFull →
    ¬ x.WokenToPush ∧ x.wake.WokenToPush ∧ ¬ x.wake.OnNotEmpty ∧ ¬ x.WokenToPop
  | .pushBlocked _, _ => ⟨nofun, trivial, nofun, nofun⟩

/-- A signal covers one more unit. -/
theorem Signal.gain (hs : Signal blocked p p') (hwake : ∀ x, blocked x → ¬ woken x ∧ woken x.wake)
    (h : Covered blocked woken n p) : Covered blocked woken (n + 1) p' := by
  obtain ⟨hframe, hwakes⟩ := hs
  refine h.gain (fun t ht => ?_) (fun t ht => ?_) fun hsleeps => ?_
  · rcases hframe t with heq | ⟨hb, -⟩
    · rwa [← heq]
    · exact hb
  · rcases hframe t with heq | ⟨hb, -⟩
    · rwa [heq]
    · exact ((hwake _ hb).1 ht).elim
  · obtain ⟨t, hb, heq⟩ := hwakes hsleeps
    obtain ⟨hno, hyes⟩ := hwake _ hb
    exact ⟨t, hno, heq ▸ hyes⟩

/-- A signal on the other condition changes nothing here. -/
theorem Signal.keep (hs : Signal other p p')
    (hother : ∀ x, other x → ¬ blocked x.wake ∧ ¬ woken x)
    (h : Covered blocked woken n p) : Covered blocked woken n p' := by
  refine h.keep (fun t ht => ?_) fun t ht => ?_ <;> rcases hs.1 t with heq | ⟨hb, heq⟩
  · rwa [← heq]
  · exact ((hother _ hb).1 (heq ▸ ht)).elim
  · rwa [heq]
  · exact ((hother _ hb).2 ht).elim

variable [DecidableEq θ]

theorem setPhase_self : setPhase p t x t = x := if_pos rfl

theorem setPhase_ne {u : θ} (h : u ≠ t) : setPhase p t x u = p u := if_neg h

/-- A thread that does not sleep afterwards, and that was not woken or is woken now. -/
theorem setPhase_keep (h : Covered blocked woken n p) (hx : blocked x → blocked (p t))
    (ht : woken (p t) → woken x) : Covered blocked woken n (setPhase p t x) := by
  refine h.keep (fun u hu => ?_) fun u hu => ?_ <;> by_cases hut : u = t
  · subst hut
    exact hx (by rwa [setPhase_self] at hu)
  · rwa [setPhase_ne hut] at hu
  · subst hut
    rw [setPhase_self]
    exact ht hu
  · rwa [setPhase_ne hut]

/-- A thread that goes on takes one unit. -/
theorem setPhase_lose (h : Covered blocked woken (n + 1) p) (hx : ¬ blocked x) :
    Covered blocked woken n (setPhase p t x) := by
  refine h.lose t (fun u hu => ?_) fun u hut hu => ?_
  · by_cases hut : u = t
    · subst hut
      exact (hx (by rwa [setPhase_self] at hu)).elim
    · rwa [setPhase_ne hut] at hu
  · rwa [setPhase_ne hut]

end Phases

/-! ## Sections -/

variable [DecidableEq θ]

/-- A thread that may push is no consumer. -/
theorem Phase.MayPush.not_wokenToPop {item : α} {x : Phase α} (h : x.MayPush item) :
    ¬ x.WokenToPop := by
  rcases h with rfl | rfl <;> exact nofun

theorem Phase.MayPop.not_wokenToPush {x : Phase α} (h : x.MayPop) : ¬ x.WokenToPush := by
  rcases h with rfl | rfl <;> exact nofun

/-- A push adds an item and signals, and takes a slot. -/
theorem Accounted.pushed {w : World θ α} {t : θ} {item : α} {q' : TsQueue α} {p' : θ → Phase α}
    (h : Accounted w) (ht : (w.phase t).MayPush item)
    (hcount : q'.count.toNat = w.queue.count.toNat + 1) (hcap : q'.capacity = w.queue.capacity)
    (hroom : w.queue.count.toNat < w.queue.capacity.toNat)
    (hs : Signal Phase.OnNotEmpty (setPhase w.phase t .idle) p') : Accounted ⟨q', p'⟩ := by
  refine ⟨?_, ?_⟩
  · simp only [hcount]
    exact hs.gain (fun x hx => ⟨(wake_notEmpty x hx).1, (wake_notEmpty x hx).2.1⟩)
      (setPhase_keep h.items nofun fun hw => (ht.not_wokenToPop hw).elim)
  · have hslots := h.slots
    have hsucc : w.queue.capacity.toNat - w.queue.count.toNat =
        w.queue.capacity.toNat - (w.queue.count.toNat + 1) + 1 := by omega
    rw [hsucc] at hslots
    simp only [hcount, hcap]
    exact hs.keep (fun x hx => ⟨(wake_notEmpty x hx).2.2.1, (wake_notEmpty x hx).2.2.2⟩)
      (setPhase_lose hslots nofun)

/-- A pop takes an item, and adds a slot and signals. -/
theorem Accounted.popped {w : World θ α} {t : θ} {q' : TsQueue α} {p' : θ → Phase α}
    (h : Accounted w) (ht : (w.phase t).MayPop)
    (hcount : w.queue.count.toNat = q'.count.toNat + 1) (hcap : q'.capacity = w.queue.capacity)
    (hle : w.queue.count.toNat ≤ w.queue.capacity.toNat)
    (hs : Signal Phase.OnNotFull (setPhase w.phase t .idle) p') : Accounted ⟨q', p'⟩ := by
  refine ⟨?_, ?_⟩
  · have hitems := h.items
    rw [hcount] at hitems
    exact hs.keep (fun x hx => ⟨(wake_notFull x hx).2.2.1, (wake_notFull x hx).2.2.2⟩)
      (setPhase_lose hitems nofun)
  · have hsucc : w.queue.capacity.toNat - q'.count.toNat =
        w.queue.capacity.toNat - w.queue.count.toNat + 1 := by omega
    simp only [hcap]
    rw [hsucc]
    exact hs.gain (fun x hx => ⟨(wake_notFull x hx).1, (wake_notFull x hx).2.1⟩)
      (setPhase_keep h.slots nofun fun hw => (ht.not_wokenToPush hw).elim)

/-- A push that finds the queue full leaves no slot to account for. -/
theorem Accounted.pushFull {w : World θ α} {t : θ} {item : α} {x : Phase α} (h : Accounted w)
    (ht : (w.phase t).MayPush item) (hfull : w.queue.count.toNat = w.queue.capacity.toNat)
    (hx : ¬ x.OnNotEmpty) : Accounted ⟨w.queue, setPhase w.phase t x⟩ := by
  refine ⟨setPhase_keep h.items (fun hb => (hx hb).elim) fun hw => (ht.not_wokenToPop hw).elim, ?_⟩
  simp only [hfull, Nat.sub_self]
  exact .zero

/-- A pop that finds the queue empty leaves no item to account for. -/
theorem Accounted.popEmpty {w : World θ α} {t : θ} {x : Phase α} (h : Accounted w)
    (ht : (w.phase t).MayPop) (hempty : w.queue.count.toNat = 0) (hx : ¬ x.OnNotFull) :
    Accounted ⟨w.queue, setPhase w.phase t x⟩ := by
  refine ⟨?_, setPhase_keep h.slots (fun hb => (hx hb).elim) fun hw => (ht.not_wokenToPush hw).elim⟩
  simp only [hempty]
  exact .zero

/-- A thread that wakes, by a signal or spuriously, is one more woken thread. -/
theorem Accounted.woke {w : World θ α} {t : θ} (h : Accounted w) :
    Accounted ⟨w.queue, setPhase w.phase t (w.phase t).wake⟩ := by
  refine ⟨setPhase_keep h.items ?_ ?_, setPhase_keep h.slots ?_ ?_⟩ <;> cases w.phase t <;>
    simp [Phase.wake, Phase.OnNotEmpty, Phase.OnNotFull, Phase.WokenToPop, Phase.WokenToPush]

theorem push_full {q : TsQueue α} {l : List α} (h : Represents q l) {item : α}
    (hpush : push q item = some .wait) : q.count.toNat = q.capacity.toNat := by
  rcases push_spec h item with ⟨hfull, _⟩ | ⟨_, _, hdone, _⟩
  · rw [← h.count, hfull]
  · rw [hdone] at hpush; cases hpush

theorem pop_empty {q : TsQueue α} {l : List α} (h : Represents q l) (hpop : pop q = some .wait) :
    q.count.toNat = 0 := by
  rcases pop_spec h with ⟨rfl, _⟩ | ⟨_, _, _, _, hdone, _⟩
  · exact h.count.symm
  · rw [hdone] at hpop; cases hpop

/-- Every section of every thread keeps both counts. -/
theorem Accounted.step {w w' : World θ α} {i : Label θ α} {l : List α} (h : Accounted w)
    (hrep : Represents w.queue l) (hs : Step w i w') : Accounted w' := by
  have hle := hrep.count_le
  have hlen := hrep.count
  cases hs with
  | @pushed t x q' p' ht hpush hsignal =>
    rcases push_spec hrep x with ⟨_, hwait⟩ | ⟨hroom, q'', hdone, hcap, hrep'⟩
    · rw [hwait] at hpush; cases hpush
    · rw [hdone] at hpush; cases hpush
      have hcount := hrep'.count
      rw [List.length_append, List.length_singleton, hlen] at hcount
      exact h.pushed ht hcount.symm hcap (by omega) hsignal
  | @popped t x q' p' ht hpop hsignal =>
    rcases pop_spec hrep with ⟨_, hwait, _⟩ | ⟨y, l', q'', rfl, hdone, _, hcap, hrep'⟩
    · rw [hwait] at hpop; cases hpop
    · rw [hdone] at hpop; cases hpop
      have hcount := hrep'.count
      rw [List.length_cons] at hlen
      exact h.popped ht (by omega) hcap hle hsignal
  | @tryPopped t x q' p' ht hpop hsignal =>
    rcases pop_spec hrep with ⟨_, _, hnone⟩ | ⟨y, l', q'', rfl, _, hsome, hcap, hrep'⟩
    · rw [hnone] at hpop; cases hpop
    · rw [hsome] at hpop; cases hpop
      have hcount := hrep'.count
      rw [List.length_cons] at hlen
      exact h.popped (.inl ht) (by omega) hcap hle hsignal
  | @tryPopEmpty t q' _ hpop =>
    rcases pop_spec hrep with ⟨_, _, hnone⟩ | ⟨_, _, _, _, _, hsome, _⟩
    · rw [hnone] at hpop; cases hpop
      exact h
    · rw [hsome] at hpop; cases hpop
  | @pushWaits t x ht hpush => exact h.pushFull ht (push_full hrep hpush) nofun
  | @pushWaitFails t x ht hpush => exact h.pushFull ht (push_full hrep hpush) nofun
  | @popWaits t ht hpop => exact h.popEmpty ht (pop_empty hrep hpop) nofun
  | @popWaitFails t ht hpop => exact h.popEmpty ht (pop_empty hrep hpop) nofun
  | lockFails => exact h
  | woke _ => exact h.woke

/-! ## Runs -/

theorem run_accounted {capacity : UInt32} {garbage : Nat → α} {w : World θ α}
    {h : List (Taken (World θ α) (Label θ α))}
    (hrun : Run Step (World.init capacity garbage) h w) : Accounted w := by
  refine hrun.invariant_hist (fun _ w => Accounted w) ⟨nofun, nofun⟩ ?_
  intro h w i w' hr hacc hs
  obtain ⟨-, rest, hrep, -⟩ := run_represents hr
  exact hacc.step hrep hs

/-- In every reachable state, with any number of threads: as long as a consumer sleeps there is a
woken consumer for each item, and as long as a producer sleeps there is a woken producer for each free
slot. So no thread sleeps while there is something for it and no wakeup is on its way. -/
theorem no_lost_wakeup {capacity : UInt32} {garbage : Nat → α} {w : World θ α}
    {h : List (Taken (World θ α) (Label θ α))}
    (hrun : Run Step (World.init capacity garbage) h w) :
    ((∃ t, w.phase t = .popBlocked) →
      (w.queue.count.toNat : ℕ∞) ≤ {t | w.phase t = .popWoken}.encard) ∧
    ((∃ t item, w.phase t = .pushBlocked item) →
      ((capacity.toNat - w.queue.count.toNat : Nat) : ℕ∞) ≤
        {t | ∃ item, w.phase t = .pushWoken item}.encard) ∧
    ((∃ t, w.phase t = .popBlocked) → 0 < w.queue.count.toNat → ∃ t, w.phase t = .popWoken) ∧
    ((∃ t item, w.phase t = .pushBlocked item) → w.queue.count.toNat < capacity.toNat →
      ∃ t item, w.phase t = .pushWoken item) := by
  obtain ⟨hcap, -⟩ := run_represents hrun
  obtain ⟨hitems, hslots⟩ := run_accounted hrun
  rw [hcap] at hslots
  have hpop : ∀ x : Phase α, x.WokenToPop ↔ x = .popWoken := by
    intro x
    cases x <;> simp [Phase.WokenToPop]
  have hpush : ∀ x : Phase α, x.WokenToPush ↔ ∃ item, x = .pushWoken item := by
    intro x
    cases x <;> simp [Phase.WokenToPush]
  have hconsumer : (∃ t, w.phase t = .popBlocked) → ∃ t, (w.phase t).OnNotEmpty :=
    fun ⟨t, ht⟩ => ⟨t, by rw [ht]; trivial⟩
  have hproducer : (∃ t item, w.phase t = .pushBlocked item) → ∃ t, (w.phase t).OnNotFull :=
    fun ⟨t, item, ht⟩ => ⟨t, by rw [ht]; trivial⟩
  refine ⟨fun hb => ?_, fun hb => ?_, fun hb hpos => ?_, fun hb hpos => ?_⟩
  · simpa only [hpop] using hitems (hconsumer hb)
  · simpa only [hpush] using hslots (hproducer hb)
  · simpa only [hpop] using hitems.exists_woken hpos (hconsumer hb)
  · simpa only [hpush] using hslots.exists_woken (by omega) (hproducer hb)

/-- A consumer waits, another thread pushes, and the consumer is woken for the item. -/
theorem no_lost_wakeup_push : ∃ h, ∃ w : World Bool Nat, Run Step (World.init 1 fun _ => 0) h w ∧
    w.queue.count = 1 ∧ w.phase true = .popWoken ∧
    ((∃ t, w.phase t = .popBlocked) → (w.queue.count.toNat : ℕ∞) ≤
      {t | w.phase t = .popWoken}.encard) := by
  have hwait : Run Step (World.init 1 fun _ => 0 : World Bool Nat) _ _ :=
    Run.nil.snoc (@Step.popWaits Bool Nat _ _ true (.inl rfl) rfl)
  have hrun := hwait.snoc (@Step.pushed Bool Nat _ _ false 5 _ (fun t => if t then .popWoken else .idle)
    (.inl rfl) rfl ⟨fun u => ?_, fun _ => ⟨true, trivial, rfl⟩⟩)
  · exact ⟨_, _, hrun, rfl, rfl, (no_lost_wakeup hrun).1⟩
  · cases u
    · exact .inl rfl
    · exact .inr ⟨trivial, rfl⟩

end CBase.Queue
