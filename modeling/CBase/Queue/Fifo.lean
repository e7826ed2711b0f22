import CBase.Lib.Fifo
import CBase.Lib.RingBuffer
import CBase.Queue.Sections

/-!
# The thread-safe queue refines a bounded FIFO

`Represents q l` relates the ring buffer with its three counters to the list of the queued items.

1. `push_spec`, `pop_spec`: what a section does to a queue that represents `l`. It always has a
   result, so no store leaves `items` and no modulus is by zero.
2. `step_simulates`: every step of the interleaving is a step of the FIFO.
3. `tsqueue_refines_fifo`: the consequences for every run.
-/

namespace CBase.Queue

variable {θ α : Type}

/-- `q` is a ring buffer that holds the items `l`, oldest first. -/
structure Represents (q : TsQueue α) (l : List α) : Prop where
  slots : q.items.length = q.capacity.toNat
  count : l.length = q.count.toNat
  holds : RingBuffer.Holds q.items q.head.toNat l
  head : 0 < q.capacity.toNat → q.head.toNat < q.capacity.toNat
  tail : 0 < q.capacity.toNat →
    q.tail.toNat = (q.head.toNat + q.count.toNat) % q.capacity.toNat

namespace Represents

variable {q : TsQueue α} {l : List α}

theorem count_le (h : Represents q l) : q.count.toNat ≤ q.capacity.toNat := by
  rw [← h.count, ← h.slots]
  exact h.holds.fits

theorem create (capacity : UInt32) (garbage : Nat → α) :
    Represents (create capacity garbage true true true true) [] where
  slots := by simp [Queue.create]
  count := by simp [Queue.create]
  holds := .nil _ _
  head := by simp [Queue.create]
  tail := by simp [Queue.create]

end Represents

/-! ## The sections -/

/-- The next index of a slot, as the code computes it, is the next index modulo the capacity. -/
theorem umod_next {i c : UInt32} (h : i.toNat < c.toNat) :
    ∃ j, umod (i + 1) c = some j ∧ j.toNat = (i.toNat + 1) % c.toNat := by
  have hc : c ≠ 0 := by rintro rfl; simp at h
  have hlt := c.toNat_lt
  have hnext : (i + 1).toNat = i.toNat + 1 := by
    rw [UInt32.toNat_add, UInt32.toNat_one, Nat.mod_eq_of_lt]
    omega
  exact ⟨(i + 1) % c, if_neg hc, by rw [UInt32.toNat_mod, hnext]⟩

/-- A section of push waits exactly when the FIFO is full, and appends otherwise. -/
theorem push_spec {q : TsQueue α} {l : List α} (h : Represents q l) (x : α) :
    (l.length = q.capacity.toNat ∧ push q x = some .wait) ∨
    (l.length < q.capacity.toNat ∧ ∃ q', push q x = some (.done q') ∧
      q'.capacity = q.capacity ∧ Represents q' (l ++ [x])) := by
  have hle := h.count_le
  have hcount := h.count
  rcases Nat.lt_or_ge q.count.toNat q.capacity.toNat with hlt | hge
  · have hpos : 0 < q.capacity.toNat := by omega
    have hne : q.count ≠ q.capacity := by rintro heq; rw [heq] at hlt; omega
    have htail := h.tail hpos
    have htlt : q.tail.toNat < q.capacity.toNat := htail ▸ Nat.mod_lt _ hpos
    obtain ⟨t, ht, htn⟩ := umod_next htlt
    have hcnt : (q.count + 1).toNat = q.count.toNat + 1 := by
      have := q.capacity.toNat_lt
      rw [UInt32.toNat_add, UInt32.toNat_one, Nat.mod_eq_of_lt]
      omega
    refine .inr ⟨by omega,
      { q with items := q.items.set q.tail.toNat x, tail := t, count := q.count + 1 }, ?_, rfl, ?_⟩
    · rw [push, if_neg hne, Memory.store, if_pos (by rw [h.slots]; exact htlt), ht]
      rfl
    · refine ⟨by simpa using h.slots, by simp [hcnt, hcount], ?_, h.head, fun _ => ?_⟩
      · have hroom : l.length < q.items.length := by rw [h.slots]; omega
        have := h.holds.push hroom x
        rwa [h.slots, hcount, ← htail] at this
      · simp only [hcnt, htn, htail, Nat.mod_add_mod, Nat.add_assoc]
  · have heq : q.count = q.capacity := UInt32.toNat_inj.mp (by omega)
    exact .inl ⟨by omega, if_pos heq⟩

/-- Taking an item out of a FIFO that has one gives the oldest. -/
theorem take_spec {q : TsQueue α} {x : α} {l : List α} (h : Represents q (x :: l)) :
    ∃ q', take q = some (x, q') ∧ q'.capacity = q.capacity ∧ Represents q' l := by
  have hle := h.count_le
  have hcount := h.count
  rw [List.length_cons] at hcount
  have hpos : 0 < q.capacity.toNat := by omega
  have hhead := h.head hpos
  obtain ⟨j, hj, hjn⟩ := umod_next hhead
  obtain ⟨hslot, hrest⟩ := h.holds.pop
  have hcnt : (q.count - 1).toNat = l.length := by
    have := q.count.toNat_lt
    rw [UInt32.toNat_sub_of_le _ _ (by rw [UInt32.le_iff_toNat_le, UInt32.toNat_one]; omega),
      UInt32.toNat_one]
    omega
  rw [h.slots, Nat.mod_eq_of_lt hhead] at hslot
  refine ⟨{ q with head := j, count := q.count - 1 }, ?_, rfl, h.slots, hcnt.symm, ?_, ?_, ?_⟩
  · rw [take, Memory.load, hslot, hj]
    rfl
  · rw [h.slots, ← hjn] at hrest
    exact hrest
  · intro _
    rw [hjn]
    exact Nat.mod_lt _ hpos
  · intro _
    simp only [hcnt, hjn, Nat.mod_add_mod, h.tail hpos]
    rw [← hcount]
    congr 1
    omega

/-- Pop waits and try_pop reports an empty queue exactly when the FIFO is empty. -/
theorem pop_spec {q : TsQueue α} {l : List α} (h : Represents q l) :
    (l = [] ∧ pop q = some .wait ∧ tryPop q = some (none, q)) ∨
    ∃ x l' q', l = x :: l' ∧ pop q = some (.done (x, q')) ∧ tryPop q = some (some x, q') ∧
      q'.capacity = q.capacity ∧ Represents q' l' := by
  cases l with
  | nil =>
    have hzero : q.count = 0 := UInt32.toNat_inj.mp (by simpa using h.count.symm)
    exact .inl ⟨rfl, if_pos hzero, if_pos hzero⟩
  | cons x l =>
    have hne : q.count ≠ 0 := by
      intro hz
      have := h.count
      rw [hz] at this
      simp at this
    obtain ⟨q', htake, hcap, hrep⟩ := take_spec h
    refine .inr ⟨x, l, q', rfl, ?_, ?_, hcap, hrep⟩
    · rw [pop, if_neg hne, htake]; rfl
    · rw [tryPop, if_neg hne, htake]; rfl

/-! ## Simulation -/

/-- What the FIFO sees of a section. -/
def Label.event : Label θ α → Fifo.Event α
  | .pushed _ x => .put x
  | .popped _ x => .get x
  | .tryPopped _ (some x) => .get x
  | .tryPopped _ none => .empty
  | _ => .skip

variable [DecidableEq θ]

/-- Every step of the threads is a step of the bounded FIFO. -/
theorem step_simulates {capacity : UInt32} {w w' : World θ α} {i : Label θ α} {l : List α}
    (hcap : w.queue.capacity = capacity) (h : Represents w.queue l) (hs : Step w i w') :
    ∃ l', Fifo.Step capacity.toNat l i.event l' ∧ w'.queue.capacity = capacity ∧
      Represents w'.queue l' := by
  subst hcap
  cases hs with
  | @pushed t x q' p' _ hpush _ =>
    rcases push_spec h x with ⟨_, hwait⟩ | ⟨hroom, q'', hdone, hcap, hrep⟩
    · rw [hwait] at hpush; cases hpush
    · rw [hdone] at hpush; cases hpush
      exact ⟨_, .put x hroom, hcap, hrep⟩
  | @popped t x q' p' _ hpop _ =>
    rcases pop_spec h with ⟨_, hwait, _⟩ | ⟨y, l', q'', hl, hdone, _, hcap, hrep⟩
    · rw [hwait] at hpop; cases hpop
    · rw [hdone] at hpop; cases hpop
      exact ⟨l', .get _ l' hl, hcap, hrep⟩
  | @tryPopped t x q' p' _ hpop _ =>
    rcases pop_spec h with ⟨_, _, hnone⟩ | ⟨y, l', q'', hl, _, hsome, hcap, hrep⟩
    · rw [hnone] at hpop; cases hpop
    · rw [hsome] at hpop; cases hpop
      exact ⟨l', .get _ l' hl, hcap, hrep⟩
  | @tryPopEmpty t q' _ hpop =>
    rcases pop_spec h with ⟨hl, _, hnone⟩ | ⟨_, _, _, _, _, hsome, _⟩
    · rw [hnone] at hpop; cases hpop
      exact ⟨l, .empty hl, rfl, h⟩
    · rw [hsome] at hpop; cases hpop
  | _ => exact ⟨l, .skip, rfl, h⟩

/-- The items that push accepted, in the order of the sections. -/
def pushed (h : List (Taken (World θ α) (Label θ α))) : List α :=
  h.filterMap (·.label.event.input)

/-- The items that pop and try_pop returned, in the order of the sections. -/
def popped (h : List (Taken (World θ α) (Label θ α))) : List α :=
  h.filterMap (·.label.event.output)

omit [DecidableEq θ] in
/-- A run that was matched step by step has the same events. -/
theorem filterMap_event {β : Type} (f : Fifo.Event α → Option β)
    {h : List (Taken (World θ α) (Label θ α))} {h' : List (Taken (List α) (Fifo.Event α))}
    (hh : List.Forall₂ (fun a b => a.label.event = b.label) h h') :
    h.filterMap (fun s => f s.label.event) = h'.filterMap fun s => f s.label := by
  induction hh with
  | nil => rfl
  | cons heq _ ih => simp only [List.filterMap_cons, heq, ih]

/-- A run of the threads leaves the queue holding what went in and did not come out. -/
theorem run_represents {capacity : UInt32} {garbage : Nat → α} {w : World θ α}
    {h : List (Taken (World θ α) (Label θ α))}
    (hrun : Run Step (World.init capacity garbage) h w) :
    w.queue.capacity = capacity ∧
    ∃ rest, Represents w.queue rest ∧ pushed h = popped h ++ rest := by
  obtain ⟨h', rest, hfifo, ⟨hcap, hrep⟩, hh⟩ :=
    hrun.simulate (r := Fifo.Step capacity.toNat)
      (fun w l => w.queue.capacity = capacity ∧ Represents w.queue l) (fun i e => i.event = e)
      ⟨rfl, .create capacity garbage⟩ fun w i w' l ⟨hcap, hrep⟩ hs => by
        obtain ⟨l', hs', hcap', hrep'⟩ := step_simulates hcap hrep hs
        exact ⟨_, l', hs', rfl, hcap', hrep'⟩
  have hevents := hh.imp fun _ _ hab => hab.2.1
  refine ⟨hcap, rest, hrep, ?_⟩
  rw [pushed, popped, filterMap_event _ hevents, filterMap_event _ hevents]
  exact (Fifo.conservation hfifo).2

/-- The queue refines a bounded FIFO, for every capacity, any threads and any interleaving of
their sections. -/
theorem tsqueue_refines_fifo (capacity : UInt32) (garbage : Nat → α) (w : World θ α)
    (h : List (Taken (World θ α) (Label θ α)))
    (hrun : Run Step (World.init capacity garbage) h w) :
    w.queue.capacity = capacity ∧ w.queue.count ≤ capacity ∧
    (0 < capacity → w.queue.head < capacity ∧
      w.queue.tail.toNat = (w.queue.head.toNat + w.queue.count.toNat) % capacity.toNat) ∧
    (∃ rest, pushed h = popped h ++ rest ∧ rest.length = w.queue.count.toNat ∧
      (∀ i, i < rest.length →
        w.queue.items[(w.queue.head.toNat + i) % capacity.toNat]? = rest[i]?) ∧
      ((∃ q', tryPop w.queue = some (none, q')) ↔ rest = [])) ∧
    (∀ x, (push w.queue x).isSome) ∧ (pop w.queue).isSome ∧ (tryPop w.queue).isSome := by
  obtain ⟨rfl, rest, hrep, hio⟩ := run_represents hrun
  refine ⟨rfl, UInt32.le_iff_toNat_le.mpr hrep.count_le, fun hpos => ?_,
    ⟨rest, hio, hrep.count, fun i hi => ?_, ?_⟩, fun x => ?_, ?_⟩
  · have hpos : 0 < w.queue.capacity.toNat := by simpa using UInt32.lt_iff_toNat_lt.mp hpos
    exact ⟨UInt32.lt_iff_toNat_lt.mpr (hrep.head hpos), hrep.tail hpos⟩
  · rw [← hrep.slots]
    exact hrep.holds.slot i hi
  · rcases pop_spec hrep with ⟨hnil, _, hnone⟩ | ⟨x, l, q', hcons, _, hsome, _⟩
    · simp [hnil, hnone]
    · simp [hcons, hsome]
  · rcases push_spec hrep x with ⟨_, hwait⟩ | ⟨_, q', hdone, _⟩
    · simp [hwait]
    · simp [hdone]
  · rcases pop_spec hrep with ⟨_, hwait, hnone⟩ | ⟨_, _, _, _, hdone, hsome, _⟩
    · simp [hwait, hnone]
    · simp [hdone, hsome]

/-- One thread pushes into a queue of capacity one, and the other finds it full and waits, until the
first one has popped what it pushed. -/
theorem tsqueue_refines_fifo_full :
    ∃ h, ∃ w : World Bool Nat, Run Step (World.init 1 fun _ => 0) h w ∧ pushed h = [5, 6] ∧
      popped h = [5] ∧ w.queue.count ≤ 1 ∧ ∃ rest, pushed h = popped h ++ rest ∧
        rest.length = w.queue.count.toNat ∧ w.queue.items[w.queue.head.toNat % 1]? = rest[0]? := by
  have hstart : Run Step (World.init 1 fun _ => 0 : World Bool Nat) [] _ := .nil
  have hfull := (hstart.snoc (i := .pushed true 5)
    (.pushed (.inl rfl) rfl
      ⟨fun _ => .inl rfl, fun ⟨u, hu⟩ => by cases u <;> exact hu.elim⟩)).snoc
    (i := .pushWaits false 6) (.pushWaits (.inl rfl) rfl)
  have hwakes : Signal Phase.OnNotFull (setPhase (setPhase (setPhase (fun _ => .idle) true .idle) false
      (.pushBlocked 6)) true .idle) fun u : Bool => if u then .idle else .pushWoken 6 := by
    refine ⟨fun u => ?_, fun _ => ⟨false, trivial, rfl⟩⟩
    cases u
    · exact .inr ⟨trivial, rfl⟩
    · exact .inl rfl
  have hpopped := hfull.snoc (i := .popped true 5) (.popped (.inl rfl) rfl hwakes)
  have hrun := hpopped.snoc (i := .pushed false 6) (.pushed (.inr rfl) rfl
    ⟨fun _ => .inl rfl, fun ⟨u, hu⟩ => by cases u <;> exact hu.elim⟩)
  obtain ⟨_, hcount, _, ⟨rest, hio, hlen, hslots, _⟩, _⟩ :=
    tsqueue_refines_fifo 1 (fun _ => 0) _ _ hrun
  refine ⟨_, _, hrun, rfl, rfl, hcount, rest, hio, hlen, ?_⟩
  exact hslots 0 (by rw [hlen]; decide)

end CBase.Queue
