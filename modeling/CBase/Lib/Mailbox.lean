import CBase.Lib.Run
import Mathlib.Algebra.GroupWithZero.Nat
import Mathlib.Data.List.DropRight
import Mathlib.Data.List.Flatten
import Mathlib.Data.List.Pairwise
import Mathlib.Data.List.Perm.Subperm
import Mathlib.Data.List.Sort
import Mathlib.Order.Basic
import Mathlib.Logic.Function.Basic

/-!
# Delayed delivery to mailboxes

Messages wait in one list, sorted by the time they are due, and move to the mailbox of their
destination when they are. Mailboxes open and close.

* `insert_perm`, `insert_sorted`: the waiting list takes a message after those that are due no later.
* `Run.wf`: the waiting list is sorted, and every destination in it is an open box.
* `Run.conserved`: what was posted to an open box since it was opened and cleared is waiting, in the
  box, or taken, each message once.
* `Run.ordered`: what was taken, what is in the box and what waits for it is sorted by time and then
  by the order of posting, if no message is posted as due before a delivery that has been made.
-/

namespace Mailbox

variable {μ ν τ : Type} [DecidableEq ν] [LinearOrder τ]

/-- Messages on their way, and the contents of the open boxes. -/
structure Mail (μ ν : Type) where
  waiting : List μ
  boxes : ν → Option (List μ)

inductive Event (μ ν τ : Type) where
  | opened (a : ν)
  | closed (a : ν)
  | posted (ms : List μ)
  | delivered (now : τ)
  | took (a : ν) (m : μ)
  | cleared
  | idle

namespace Event

/-- The messages that an event puts on their way. -/
def posts : Event μ ν τ → List μ
  | posted ms => ms
  | _ => []

/-- The message that an event takes out of box `a`. -/
def takes (a : ν) : Event μ ν τ → Option μ
  | took b m => if b = a then some m else none
  | _ => none

def opens (a : ν) : Event μ ν τ → Bool
  | opened b => b = a
  | _ => false

/-- The event leaves box `a` empty: it opens it or clears everything. -/
def resets (a : ν) : Event μ ν τ → Bool
  | opened b => b = a
  | cleared => true
  | _ => false

end Event

/-- The events since the last one with `p`. -/
def since (p : Event μ ν τ → Bool) (es : List (Event μ ν τ)) : List (Event μ ν τ) :=
  es.rtakeWhile fun e => !p e

section Parameters

variable (due : μ → τ) (dest : μ → ν)

/-- Put a message into a list behind those that are due no later. -/
def insert (m : μ) (l : List μ) : List μ :=
  l.takeWhile (due · ≤ due m) ++ m :: l.dropWhile (due · ≤ due m)

def insertAll (ms l : List μ) : List μ := ms.foldl (fun l m => insert due m l) l

/-- The messages of a list for box `a`. -/
def bound (a : ν) (l : List μ) : List μ := l.filter (dest · = a)

/-- The messages posted to `a`. -/
def sent (a : ν) (es : List (Event μ ν τ)) : List μ := bound dest a (es.flatMap Event.posts)

/-- One event. -/
inductive Step : Mail μ ν → Event μ ν τ → Mail μ ν → Prop
  | opened {s : Mail μ ν} {a : ν} : s.boxes a = none →
      Step s (.opened a) { s with boxes := Function.update s.boxes a (some []) }
  | closed {s : Mail μ ν} {a : ν} :
      Step s (.closed a) ⟨s.waiting.filter (dest · ≠ a), Function.update s.boxes a none⟩
  | posted {s : Mail μ ν} {ms : List μ} : (∀ m ∈ ms, (s.boxes (dest m)).isSome) →
      Step s (.posted ms) { s with waiting := insertAll due ms s.waiting }
  | delivered {s : Mail μ ν} {now : τ} : Step s (.delivered now)
      ⟨s.waiting.dropWhile (due · ≤ now),
        fun a => (s.boxes a).map (· ++ bound dest a (s.waiting.takeWhile (due · ≤ now)))⟩
  | took {s : Mail μ ν} {a : ν} {m : μ} {l : List μ} : s.boxes a = some (m :: l) →
      Step s (.took a m) { s with boxes := Function.update s.boxes a (some l) }
  | cleared {s : Mail μ ν} : Step s .cleared ⟨[], fun a => (s.boxes a).map fun _ => []⟩
  | idle {s : Mail μ ν} : Step s .idle s

end Parameters

def Mail.empty : Mail μ ν := ⟨[], fun _ => none⟩

/-- The messages that were taken out of `a`. -/
def taken (a : ν) (es : List (Event μ ν τ)) : List μ := es.filterMap (Event.takes a)

section Lemmas

variable {due : μ → τ} {dest : μ → ν} {a b : ν} {m : μ} {l ms : List μ} {e : Event μ ν τ}
  {es : List (Event μ ν τ)}

/-! ## The waiting list -/

theorem insert_perm (m : μ) (l : List μ) : (insert due m l).Perm (m :: l) := by
  rw [insert]
  refine List.perm_middle.trans ?_
  rw [List.takeWhile_append_dropWhile]

theorem insertAll_perm (ms l : List μ) : (insertAll due ms l).Perm (ms ++ l) := by
  induction ms generalizing l with
  | nil => rfl
  | cons m ms ih =>
    refine (ih (insert due m l)).trans ?_
    refine ((insert_perm m l).append_left ms).trans ?_
    exact List.perm_middle

/-- An insertion into a sorted list keeps every relation between neighbours in time. -/
theorem insert_pairwise {r : μ → μ → Prop} (hsorted : l.Pairwise (due · ≤ due ·)) (hl : l.Pairwise r)
    (hbefore : ∀ x ∈ l, due x ≤ due m → r x m) (hafter : ∀ x ∈ l, due m < due x → r m x) :
    (insert due m l).Pairwise r := by
  have hlater : ∀ x ∈ l.dropWhile (due · ≤ due m), due m < due x := by
    intro x hx
    cases hdrop : l.dropWhile (due · ≤ due m) with
    | nil => simp [hdrop] at hx
    | cons y k =>
      have hy : due m < due y := by
        have hnot := List.head?_dropWhile_not (fun x => decide (due x ≤ due m)) l
        simpa [hdrop] using hnot
      have hback := hsorted.sublist (List.dropWhile_sublist (due · ≤ due m))
      rw [hdrop] at hx hback
      rcases List.mem_cons.mp hx with rfl | hx
      · exact hy
      · exact hy.trans_le (List.rel_of_pairwise_cons hback hx)
  have hsplit := hl
  rw [← List.takeWhile_append_dropWhile (p := fun x => decide (due x ≤ due m)) (l := l),
    List.pairwise_append] at hsplit
  obtain ⟨hfront, hback, hcross⟩ := hsplit
  rw [insert, List.pairwise_append, List.pairwise_cons]
  refine ⟨hfront, ⟨fun x hx => ?_, hback⟩, fun x hx y hy => ?_⟩
  · exact hafter x ((List.dropWhile_sublist _).subset hx) (hlater x hx)
  · rcases List.mem_cons.mp hy with rfl | hy
    · exact hbefore x ((List.takeWhile_sublist _).subset hx) (by simpa using List.mem_takeWhile_imp hx)
    · exact hcross x hx y hy

theorem insert_sorted (hl : l.Pairwise (due · ≤ due ·)) :
    (insert due m l).Pairwise (due · ≤ due ·) :=
  insert_pairwise hl hl (fun _ _ h => h) fun _ _ h => h.le

theorem insertAll_sorted (ms : List μ) (hl : l.Pairwise (due · ≤ due ·)) :
    (insertAll due ms l).Pairwise (due · ≤ due ·) := by
  induction ms generalizing l with
  | nil => exact hl
  | cons m ms ih => exact ih (insert_sorted hl)

theorem bound_append (a : ν) (k l : List μ) : bound dest a (k ++ l) = bound dest a k ++ bound dest a l :=
  List.filter_append ..

theorem bound_perm (a : ν) {k l : List μ} (h : k.Perm l) : (bound dest a k).Perm (bound dest a l) :=
  h.filter _

theorem mem_bound {x : μ} : x ∈ bound dest a l ↔ x ∈ l ∧ dest x = a := by
  simp [bound]

/-- Closing another box leaves the messages for this one. -/
theorem bound_closed (h : b ≠ a) : bound dest b (l.filter (dest · ≠ a)) = bound dest b l := by
  rw [bound, List.filter_filter]
  refine List.filter_congr fun x _ => ?_
  by_cases hx : dest x = b
  · simp [hx, h]
  · simp [hx]

omit [LinearOrder τ] in
theorem length_bound_closed (a : ν) (l : List μ) :
    l.length = (bound dest a l).length + (l.filter (dest · ≠ a)).length := by
  rw [List.length_eq_length_filter_add fun m => decide (dest m = a)]
  simp [bound]

omit [LinearOrder τ] in
/-- Messages for several boxes are divided among these. -/
theorem sum_length_bound {as : List ν} (hnd : as.Nodup) (hl : ∀ m ∈ l, dest m ∈ as) :
    (as.map fun a => (bound dest a l).length).sum = l.length := by
  induction as generalizing l with
  | nil =>
    have hnil : l = [] := List.eq_nil_iff_forall_not_mem.mpr fun m hm => List.not_mem_nil (hl m hm)
    rw [hnil]
    rfl
  | cons a as ih =>
    obtain ⟨ha, hnd⟩ := List.nodup_cons.mp hnd
    have hrest := @ih (l.filter (dest · ≠ a)) hnd fun m hm => by
      obtain ⟨hm, hne⟩ := List.mem_filter.mp hm
      exact (List.mem_cons.mp (hl m hm)).resolve_left (of_decide_eq_true hne)
    have hsame : (as.map fun b => (bound dest b (l.filter (dest · ≠ a))).length) =
        as.map fun b => (bound dest b l).length :=
      List.map_congr_left fun b hb => by rw [bound_closed (ne_of_mem_of_not_mem hb ha)]
    rw [List.map_cons, List.sum_cons, ← hsame, hrest, ← length_bound_closed]

/-! ## Since the last event of a kind -/

omit [DecidableEq ν] [LinearOrder τ] in
theorem since_snoc_neg {p : Event μ ν τ → Bool} (h : p e = false) :
    since p (es ++ [e]) = since p es ++ [e] :=
  List.rtakeWhile_concat_pos _ _ _ (by simp [h])

omit [DecidableEq ν] [LinearOrder τ] in
theorem since_snoc_pos {p : Event μ ν τ → Bool} (h : p e = true) : since p (es ++ [e]) = [] :=
  List.rtakeWhile_concat_neg _ _ _ (by simp [h])

omit [LinearOrder τ] in
theorem sent_snoc (a : ν) : sent dest a (es ++ [e]) = sent dest a es ++ bound dest a e.posts := by
  rw [sent, List.flatMap_append, bound_append]
  simp [sent]

omit [LinearOrder τ] in
theorem taken_snoc (a : ν) : taken a (es ++ [e]) = taken a es ++ (e.takes a).toList := by
  rw [taken, List.filterMap_append]
  cases h : e.takes a <;> simp [taken, h]

/-! ## Well-formedness -/

/-- The waiting list is sorted, and leads to open boxes. -/
structure Wf (due : μ → τ) (dest : μ → ν) (s : Mail μ ν) : Prop where
  sorted : s.waiting.Pairwise (due · ≤ due ·)
  open' : ∀ m ∈ s.waiting, (s.boxes (dest m)).isSome

variable {s s' : Mail μ ν}

omit [DecidableEq ν] in
theorem Wf.empty : Wf due dest (Mail.empty : Mail μ ν) := ⟨.nil, nofun⟩

theorem Step.wf (h : Step due dest s e s') (hs : Wf due dest s) : Wf due dest s' := by
  obtain ⟨hsorted, hopen⟩ := hs
  cases h with
  | @opened a ha =>
    refine ⟨hsorted, fun m hm => ?_⟩
    by_cases hma : dest m = a
    · simp [hma]
    · simpa [Function.update_of_ne hma] using hopen m hm
  | @closed a =>
    refine ⟨hsorted.filter _, fun m hm => ?_⟩
    obtain ⟨hm, hma⟩ := List.mem_filter.mp hm
    simpa [Function.update_of_ne (of_decide_eq_true hma)] using hopen m hm
  | @posted ms hms =>
    refine ⟨insertAll_sorted ms hsorted, fun m hm => ?_⟩
    rcases List.mem_append.mp ((insertAll_perm ms s.waiting).mem_iff.mp hm) with hm | hm
    · exact hms m hm
    · exact hopen m hm
  | delivered =>
    refine ⟨hsorted.sublist (List.dropWhile_sublist _), fun m hm => ?_⟩
    simpa using hopen m ((List.dropWhile_sublist _).subset hm)
  | @took a m l ha =>
    refine ⟨hsorted, fun x hx => ?_⟩
    by_cases hxa : dest x = a
    · simp [hxa]
    · simpa [Function.update_of_ne hxa] using hopen x hx
  | cleared => exact ⟨.nil, nofun⟩
  | idle => exact ⟨hsorted, hopen⟩

theorem Run.wf {h : List (Taken (Mail μ ν) (Event μ ν τ))}
    (hrun : Run (Step due dest) Mail.empty h s) : Wf due dest s :=
  hrun.invariant (Wf due dest) .empty fun _ _ _ hs h => h.wf hs

/-- A box that is not open has no messages on their way. -/
theorem Wf.bound_eq_nil (hs : Wf due dest s) (ha : s.boxes a = none) : bound dest a s.waiting = [] := by
  rw [bound, List.filter_eq_nil_iff]
  intro m hm
  have hopen := hs.open' m hm
  simp only [decide_eq_true_eq]
  rintro rfl
  simp [ha] at hopen

/-! ## Nothing is lost, invented or delivered twice -/

theorem bound_takeWhile_dropWhile (a : ν) (p : μ → Bool) (l : List μ) :
    bound dest a (l.takeWhile p) ++ bound dest a (l.dropWhile p) = bound dest a l := by
  rw [← bound_append, List.takeWhile_append_dropWhile]

/-- One event keeps the balance of a box. -/
theorem Step.conserved (h : Step due dest s e s') (hs : Wf due dest s)
    (hinv : ∀ l, s.boxes a = some l → (sent dest a (since (Event.resets a) es)).Perm
      (taken a (since (Event.resets a) es) ++ l ++ bound dest a s.waiting)) :
    ∀ l, s'.boxes a = some l → (sent dest a (since (Event.resets a) (es ++ [e]))).Perm
      (taken a (since (Event.resets a) (es ++ [e])) ++ l ++ bound dest a s'.waiting) := by
  intro l hl
  cases h with
  | @opened b hb =>
    by_cases hba : b = a
    · subst hba
      obtain rfl : l = [] := by simpa using hl.symm
      rw [since_snoc_pos (by simp [Event.resets])]
      simp only
      rw [hs.bound_eq_nil hb]
      rfl
    · rw [since_snoc_neg (by simp [Event.resets, hba]), sent_snoc, taken_snoc]
      simpa [Event.posts, Event.takes, bound] using
        hinv l (by simpa [Function.update_of_ne (Ne.symm hba)] using hl)
  | @closed b =>
    by_cases hba : b = a
    · subst hba
      simp at hl
    · rw [since_snoc_neg rfl, sent_snoc, taken_snoc]
      simp only
      rw [bound_closed (Ne.symm hba)]
      simpa [Event.posts, Event.takes, bound] using
        hinv l (by simpa [Function.update_of_ne (Ne.symm hba)] using hl)
  | @posted ms hms =>
    rw [since_snoc_neg rfl, sent_snoc, taken_snoc]
    have hwait : (bound dest a (insertAll due ms s.waiting)).Perm
        (bound dest a s.waiting ++ bound dest a ms) := by
      rw [← bound_append]
      exact bound_perm a ((insertAll_perm ms s.waiting).trans List.perm_append_comm)
    have hnone : (Event.posted ms : Event μ ν τ).takes a = none := rfl
    rw [hnone, Option.toList_none, List.append_nil]
    refine ((hinv l hl).append_right _).trans ?_
    rw [List.append_assoc]
    exact hwait.symm.append_left _
  | @delivered now =>
    rw [since_snoc_neg rfl, sent_snoc, taken_snoc]
    obtain ⟨k, hk, rfl⟩ := Option.map_eq_some_iff.mp hl
    have hsame := hinv k hk
    rw [← bound_takeWhile_dropWhile a (due · ≤ now) s.waiting] at hsame
    simpa [Event.posts, Event.takes, bound] using hsame
  | @took b m k hb =>
    rw [since_snoc_neg rfl, sent_snoc, taken_snoc]
    by_cases hba : b = a
    · subst hba
      obtain rfl : l = k := by simpa using hl.symm
      simpa [Event.posts, Event.takes, bound] using hinv _ hb
    · simpa [Event.posts, Event.takes, bound, hba] using
        hinv l (by simpa [Function.update_of_ne (Ne.symm hba)] using hl)
  | cleared =>
    obtain ⟨k, hk, rfl⟩ := Option.map_eq_some_iff.mp hl
    rw [since_snoc_pos rfl]
    rfl
  | idle =>
    rw [since_snoc_neg rfl, sent_snoc, taken_snoc]
    simpa [Event.posts, Event.takes, bound] using hinv l hl

/-- What was posted to an open box since it was opened and cleared is taken, in the box, or on its
way. -/
theorem Run.conserved {h : List (Taken (Mail μ ν) (Event μ ν τ))}
    (hrun : Run (Step due dest) Mail.empty h s) (hl : s.boxes a = some l) :
    (sent dest a (since (Event.resets a) (h.map (·.label)))).Perm
      (taken a (since (Event.resets a) (h.map (·.label))) ++ l ++ bound dest a s.waiting) := by
  refine hrun.invariant_hist (fun h s => ∀ l, s.boxes a = some l →
    (sent dest a (since (Event.resets a) (h.map (·.label)))).Perm
      (taken a (since (Event.resets a) (h.map (·.label))) ++ l ++ bound dest a s.waiting))
    nofun (fun h s e s' hr hinv hs => ?_) l hl
  rw [List.map_append]
  exact hs.conserved (Run.wf hr) hinv

/-! ## Order -/

/-- Due earlier, or at the same time and numbered earlier. -/
def Before (due : μ → τ) (seq : μ → Nat) (x y : μ) : Prop :=
  due x < due y ∨ due x = due y ∧ seq x < seq y

/-- Messages are numbered in the order of posting, and no message is posted as due before a delivery
that has been made. -/
structure Timely (due : μ → τ) (seq : μ → Nat) (es : List (Event μ ν τ)) : Prop where
  numbered : (es.flatMap Event.posts).Pairwise (seq · < seq ·)
  punctual : es.Pairwise fun e e' => ∀ now, e = .delivered now → ∀ m ∈ e'.posts, now ≤ due m

variable {seq : μ → Nat}

omit [DecidableEq ν] in
theorem Timely.snoc (h : Timely due seq (es ++ [e])) :
    Timely due seq es ∧ e.posts.Pairwise (seq · < seq ·) ∧
      (∀ x ∈ es.flatMap Event.posts, ∀ m ∈ e.posts, seq x < seq m) ∧
      ∀ now, Event.delivered now ∈ es → ∀ m ∈ e.posts, now ≤ due m := by
  obtain ⟨hnum, hpunct⟩ := h
  rw [List.flatMap_append, List.pairwise_append] at hnum
  rw [List.pairwise_append] at hpunct
  simp only [List.flatMap_cons, List.flatMap_nil, List.append_nil] at hnum
  exact ⟨⟨hnum.1, hpunct.1⟩, hnum.2.1, hnum.2.2,
    fun now hnow => hpunct.2.2 _ hnow e (List.mem_singleton_self e) now rfl⟩

omit [DecidableEq ν] in
theorem insertAll_before (hl : l.Pairwise (Before due seq)) (hms : ms.Pairwise (seq · < seq ·))
    (hnew : ∀ x ∈ l, ∀ m ∈ ms, seq x < seq m) :
    (insertAll due ms l).Pairwise (Before due seq) := by
  induction ms generalizing l with
  | nil => exact hl
  | cons m ms ih =>
    rw [List.pairwise_cons] at hms
    have hsorted : l.Pairwise (due · ≤ due ·) := hl.imp fun h => by
      rcases h with h | h
      · exact h.le
      · exact h.1.le
    refine ih (insert_pairwise hsorted hl (fun x hx hle => ?_) fun x _ hlt => .inl hlt) hms.2 ?_
    · rcases hle.lt_or_eq with hlt | heq
      · exact .inl hlt
      · exact .inr ⟨heq, hnew x hx m List.mem_cons_self⟩
    · intro x hx y hy
      rcases List.mem_cons.mp ((insert_perm m l).mem_iff.mp hx) with rfl | hx
      · exact hms.1 y hy
      · exact hnew x hx y (List.mem_cons_of_mem _ hy)

/-- What came through box `a` since it was opened, and what is still to come. -/
def lane (dest : μ → ν) (a : ν) (es : List (Event μ ν τ)) (l : List μ) (s : Mail μ ν) : List μ :=
  taken a (since (Event.opens a) es) ++ l ++ bound dest a s.waiting

/-- Every lane is in order, and what has left the waiting list was due at a delivery. -/
structure Ordered (due : μ → τ) (dest : μ → ν) (seq : μ → Nat) (es : List (Event μ ν τ))
    (s : Mail μ ν) : Prop where
  waiting : s.waiting.Pairwise (Before due seq)
  known : ∀ m ∈ s.waiting, m ∈ es.flatMap Event.posts
  lanes : ∀ a l, s.boxes a = some l → (lane dest a es l s).Pairwise (Before due seq)
  past : ∀ a l, s.boxes a = some l → ∀ m ∈ taken a (since (Event.opens a) es) ++ l,
    m ∈ es.flatMap Event.posts ∧ ∃ now, Event.delivered now ∈ es ∧ due m ≤ now
  origin : ∀ a l, s.boxes a = some l →
    lane dest a es l s ⊆ sent dest a (since (Event.opens a) es)

omit [LinearOrder τ] in
/-- An event that does not open the box adds what it takes. -/
theorem taken_since_snoc (h : e.opens a = false) :
    taken a (since (Event.opens a) (es ++ [e])) =
      taken a (since (Event.opens a) es) ++ (e.takes a).toList := by
  rw [since_snoc_neg h, taken_snoc]

omit [LinearOrder τ] in
theorem taken_since_quiet (h : e.opens a = false) (ht : e.takes a = none) :
    taken a (since (Event.opens a) (es ++ [e])) = taken a (since (Event.opens a) es) := by
  rw [taken_since_snoc h, ht, Option.toList_none, List.append_nil]

omit [DecidableEq ν] in
/-- What was known and past stays so. -/
theorem past_snoc {k : List μ}
    (h : ∀ m ∈ k, m ∈ es.flatMap Event.posts ∧ ∃ now, Event.delivered now ∈ es ∧ due m ≤ now) :
    ∀ m ∈ k, m ∈ (es ++ [e]).flatMap Event.posts ∧
      ∃ now, Event.delivered now ∈ es ++ [e] ∧ due m ≤ now := by
  intro m hm
  obtain ⟨hknown, now, hnow, hle⟩ := h m hm
  exact ⟨by rw [List.flatMap_append]; exact List.mem_append_left _ hknown, now,
    List.mem_append_left _ hnow, hle⟩

/-- A step that posts nothing, and under which each lane keeps its messages or loses some, keeps the
order. -/
theorem Ordered.shrink (hinv : Ordered due dest seq es s) (hwait : s'.waiting.Sublist s.waiting)
    (hlane : ∀ a l, s'.boxes a = some l → lane dest a (es ++ [e]) l s' = [] ∨
      ∃ k, s.boxes a = some k ∧ e.opens a = false ∧
        (lane dest a (es ++ [e]) l s').Sublist (lane dest a es k s) ∧
        ∀ m ∈ taken a (since (Event.opens a) (es ++ [e])) ++ l,
          m ∈ taken a (since (Event.opens a) es) ++ k ∨
          m ∈ s.waiting ∧ ∃ now, e = .delivered now ∧ due m ≤ now) :
    Ordered due dest seq (es ++ [e]) s' := by
  have hknown : ∀ m ∈ s.waiting, m ∈ (es ++ [e]).flatMap Event.posts := fun m hm => by
    rw [List.flatMap_append]
    exact List.mem_append_left _ (hinv.known m hm)
  refine ⟨hinv.waiting.sublist hwait, fun m hm => hknown m (hwait.subset hm),
    fun a l hl => ?_, fun a l hl m hm => ?_, fun a l hl => ?_⟩
  · rcases hlane a l hl with hnil | ⟨k, hk, -, hsub, -⟩
    · rw [hnil]
      exact .nil
    · exact (hinv.lanes a k hk).sublist hsub
  · rcases hlane a l hl with hnil | ⟨k, hk, -, -, hpast⟩
    · rw [lane, List.append_eq_nil_iff] at hnil
      rw [hnil.1] at hm
      cases hm
    · rcases hpast m hm with hold | ⟨hmoved, now, rfl, hle⟩
      · exact past_snoc (hinv.past a k hk) m hold
      · exact ⟨hknown m hmoved, now, by simp, hle⟩
  · rcases hlane a l hl with hnil | ⟨k, hk, hopens, hsub, -⟩
    · rw [hnil]
      exact List.nil_subset _
    · rw [since_snoc_neg hopens, sent_snoc]
      exact fun m hm => List.mem_append_left _ (hinv.origin a k hk (hsub.subset hm))

/-- Posting keeps the order: every message goes where it is due, after those that are due at the same
time. -/
theorem Ordered.post (hinv : Ordered due dest seq es s)
    (htimely : Timely due seq (es ++ [.posted ms])) :
    Ordered due dest seq (es ++ [.posted ms]) { s with waiting := insertAll due ms s.waiting } := by
  obtain ⟨-, hnum, hnew, hpunct⟩ := htimely.snoc
  have hwait := insertAll_before hinv.waiting hnum fun x hx => hnew x (hinv.known x hx)
  have hmem (x : μ) : x ∈ insertAll due ms s.waiting ↔ x ∈ ms ∨ x ∈ s.waiting := by
    rw [(insertAll_perm ms s.waiting).mem_iff, List.mem_append]
  have htaken (a : ν) : taken a (since (Event.opens a) (es ++ [Event.posted ms])) =
      taken a (since (Event.opens a) es) := taken_since_quiet rfl rfl
  refine ⟨hwait, fun m hm => ?_, fun a l hl => ?_, fun a l hl => ?_, fun a l hl m hm => ?_⟩
  · rw [List.flatMap_append, List.mem_append]
    rcases (hmem m).mp hm with hm | hm
    · exact .inr (by simpa [Event.posts] using hm)
    · exact .inl (hinv.known m hm)
  · have hold := hinv.lanes a l hl
    rw [lane, List.pairwise_append] at hold
    rw [lane, htaken, List.pairwise_append]
    refine ⟨hold.1, hwait.sublist List.filter_sublist, fun x hx y hy => ?_⟩
    obtain ⟨hy, hya⟩ := mem_bound.mp hy
    rcases (hmem y).mp hy with hy | hy
    · obtain ⟨hxknown, now, hnow, hle⟩ := hinv.past a l hl x hx
      rcases (hle.trans (hpunct now hnow y hy)).lt_or_eq with hlt | heq
      · exact .inl hlt
      · exact .inr ⟨heq, hnew x hxknown y hy⟩
    · exact hold.2.2 x hx y (mem_bound.mpr ⟨hy, hya⟩)
  · rw [htaken]
    exact past_snoc (hinv.past a l hl)
  · rw [since_snoc_neg rfl, sent_snoc, List.mem_append]
    rw [lane, htaken, List.mem_append] at hm
    rcases hm with hm | hm
    · exact .inl (hinv.origin a l hl (List.mem_append_left _ hm))
    · obtain ⟨hm, hma⟩ := mem_bound.mp hm
      rcases (hmem m).mp hm with hm | hm
      · exact .inr (mem_bound.mpr ⟨hm, hma⟩)
      · exact .inl (hinv.origin a l hl (List.mem_append_right _ (mem_bound.mpr ⟨hm, hma⟩)))

theorem Step.ordered (h : Step due dest s e s') (hs : Wf due dest s)
    (htimely : Timely due seq (es ++ [e])) (hinv : Ordered due dest seq es s) :
    Ordered due dest seq (es ++ [e]) s' := by
  cases h with
  | @opened b hb =>
    refine hinv.shrink (.refl _) fun a l hl => ?_
    by_cases hba : b = a
    · subst hba
      obtain rfl : l = [] := by simpa using hl.symm
      left
      rw [lane, since_snoc_pos (by simp [Event.opens]), hs.bound_eq_nil hb]
      rfl
    · have hquiet : (Event.opened b : Event μ ν τ).opens a = false := by simp [Event.opens, hba]
      rw [lane, taken_since_quiet hquiet rfl]
      exact .inr ⟨l, by simpa [Function.update_of_ne (Ne.symm hba)] using hl, hquiet, .refl _,
        fun m hm => .inl hm⟩
  | @closed b =>
    refine hinv.shrink List.filter_sublist fun a l hl => .inr ?_
    have hba : a ≠ b := by
      rintro rfl
      simp at hl
    rw [lane, taken_since_quiet rfl rfl, bound_closed hba]
    exact ⟨l, by simpa [Function.update_of_ne hba] using hl, rfl, .refl _, fun m hm => .inl hm⟩
  | @delivered now =>
    refine hinv.shrink (List.dropWhile_sublist _) fun a l hl => .inr ?_
    obtain ⟨k, hk, rfl⟩ := Option.map_eq_some_iff.mp hl
    rw [lane, taken_since_quiet rfl rfl]
    refine ⟨k, hk, rfl, ?_, fun m hm => ?_⟩
    · rw [lane, ← bound_takeWhile_dropWhile a (due · ≤ now) s.waiting]
      simp
    · rw [← List.append_assoc] at hm
      rcases List.mem_append.mp hm with hm | hm
      · exact .inl hm
      · obtain ⟨hm, -⟩ := mem_bound.mp hm
        exact .inr ⟨(List.takeWhile_sublist _).subset hm, now, rfl,
          by simpa using List.mem_takeWhile_imp hm⟩
  | @took b m k hb =>
    refine hinv.shrink (.refl _) fun a l hl => .inr ?_
    have htaken : taken a (since (Event.opens a) (es ++ [.took b m])) = _ := taken_since_snoc rfl
    rw [lane, htaken]
    by_cases hba : b = a
    · subst hba
      obtain rfl : l = k := by simpa using hl.symm
      rw [Event.takes, if_pos rfl, Option.toList_some, ← List.append_cons]
      exact ⟨m :: l, hb, rfl, .refl _, fun x hx => .inl hx⟩
    · rw [Event.takes, if_neg hba, Option.toList_none, List.append_nil]
      exact ⟨l, by simpa [Function.update_of_ne (Ne.symm hba)] using hl, rfl, .refl _,
        fun x hx => .inl hx⟩
  | cleared =>
    refine hinv.shrink (List.nil_sublist _) fun a l hl => .inr ?_
    obtain ⟨k, hk, rfl⟩ := Option.map_eq_some_iff.mp hl
    rw [lane, taken_since_quiet rfl rfl]
    refine ⟨k, hk, rfl, ?_, fun m hm => .inl ?_⟩
    · rw [lane, List.append_assoc, List.append_assoc]
      exact (List.nil_sublist _).append_left _
    · rw [List.append_nil] at hm
      exact List.mem_append_left _ hm
  | idle =>
    refine hinv.shrink (.refl _) fun a l hl => .inr ?_
    rw [lane, taken_since_quiet rfl rfl]
    exact ⟨l, hl, rfl, .refl _, fun m hm => .inl hm⟩
  | posted => exact hinv.post htimely

/-- Every lane of a timely run is in order. -/
theorem Run.ordered {h : List (Taken (Mail μ ν) (Event μ ν τ))}
    (hrun : Run (Step due dest) Mail.empty h s) (htimely : Timely due seq (h.map (·.label))) :
    Ordered due dest seq (h.map (·.label)) s := by
  refine hrun.invariant_hist (fun h s => Timely due seq (h.map (·.label)) →
    Ordered due dest seq (h.map (·.label)) s) (fun _ => ⟨.nil, nofun, nofun, nofun, nofun⟩)
    (fun h s e s' hr hinv hs htimely => ?_) htimely
  rw [List.map_append] at htimely ⊢
  exact hs.ordered (Run.wf hr) htimely (hinv htimely.snoc.1)

omit [DecidableEq ν] [LinearOrder τ] in
theorem since_suffix (p : Event μ ν τ → Bool) (es : List (Event μ ν τ)) : since p es <:+ es :=
  List.rtakeWhile_suffix _ es

omit [DecidableEq ν] [LinearOrder τ] in
theorem sent_since_sublist [DecidableEq ν] (p : Event μ ν τ → Bool) :
    (sent dest a (since p es)).Sublist (es.flatMap Event.posts) :=
  List.filter_sublist.trans ((since_suffix p es).sublist.flatMap _)

omit [DecidableEq ν] [LinearOrder τ] in
/-- Events of a wider kind do not shorten the history if there are none in it. -/
theorem since_congr {p q : Event μ ν τ → Bool} (hpq : ∀ e, p e = true → q e = true)
    (hq : ∀ e ∈ since p es, q e = false) : since q es = since p es := by
  induction es using List.reverseRecOn with
  | nil => rfl
  | append_singleton es e ih =>
    cases hp : p e with
    | true => rw [since_snoc_pos hp, since_snoc_pos (hpq e hp)]
    | false =>
      rw [since_snoc_neg hp] at hq ⊢
      rw [since_snoc_neg (hq e (by simp)), ih fun e he => hq e (List.mem_append_left _ he)]

/-- Messages that are due in the order of posting come through a box in that order. -/
theorem Ordered.fifo (h : Ordered due dest seq es s) (htimely : Timely due seq es)
    (hl : s.boxes a = some l)
    (hmono : (sent dest a (since (Event.opens a) es)).Pairwise (due · ≤ due ·)) :
    (lane dest a es l s).Pairwise (seq · < seq ·) := by
  have hsub : (sent dest a (since (Event.opens a) es)).Sublist _ := sent_since_sublist (Event.opens a)
  have hnum := htimely.numbered.sublist hsub
  have hsent : ∀ x ∈ sent dest a (since (Event.opens a) es),
      ∀ y ∈ sent dest a (since (Event.opens a) es), due x < due y → seq x < seq y := by
    refine List.Pairwise.forall_of_forall_of_flip (R := fun x y => due x < due y → seq x < seq y)
      (fun x _ hlt => (lt_irrefl _ hlt).elim) ?_ ?_
    · exact hnum.imp fun hseq => fun _ => hseq
    · exact hmono.imp fun hle hlt => (hle.not_gt hlt).elim
  refine (h.lanes a l hl).imp_of_mem fun {x y} hx hy hxy => ?_
  rcases hxy with hlt | heq
  · exact hsent x (h.origin a l hl hx) y (h.origin a l hl hy) hlt
  · exact heq.2

omit [DecidableEq ν] [LinearOrder τ] in
/-- Of two numbered lists the one with fewer messages is a sublist. -/
theorem sublist_of_numbered {k : List μ} (hk : k.Pairwise (seq · < seq ·))
    (hl : l.Pairwise (seq · < seq ·)) (hsub : k ⊆ l) : k.Sublist l := by
  have : Std.Antisymm fun x y : μ => seq x < seq y :=
    ⟨fun x y hxy hyx => absurd hxy (Nat.lt_asymm hyx)⟩
  have hnodup : k.Nodup := hk.imp fun hlt heq => by
    rw [heq] at hlt
    exact Nat.lt_irrefl _ hlt
  exact List.sublist_of_subperm_of_pairwise (List.subperm_of_subset hnodup hsub) hk hl

/-- With such messages a box is a queue, and what was posted to it is missing from its lane only after
everything was cleared. -/
theorem Run.fifo {h : List (Taken (Mail μ ν) (Event μ ν τ))}
    (hrun : Run (Step due dest) Mail.empty h s) (htimely : Timely due seq (h.map (·.label)))
    (hl : s.boxes a = some l)
    (hmono : (sent dest a (since (Event.opens a) (h.map (·.label)))).Pairwise (due · ≤ due ·)) :
    (lane dest a (h.map (·.label)) l s).Sublist
        (sent dest a (since (Event.opens a) (h.map (·.label)))) ∧
      ((∀ e ∈ since (Event.opens a) (h.map (·.label)), e ≠ .cleared) →
        lane dest a (h.map (·.label)) l s = sent dest a (since (Event.opens a) (h.map (·.label)))) := by
  have hordered := Run.ordered hrun htimely
  have hlane := hordered.fifo htimely hl hmono
  have hsub : (sent dest a (since (Event.opens a) (h.map (·.label)))).Sublist _ :=
    sent_since_sublist (Event.opens a)
  have hsent := htimely.numbered.sublist hsub
  refine ⟨sublist_of_numbered hlane hsent (hordered.origin a l hl), fun hkept => ?_⟩
  have hsame : since (Event.resets a) (h.map (·.label)) = since (Event.opens a) (h.map (·.label)) := by
    refine since_congr (fun e he => ?_) fun e he => ?_
    · cases e with
      | opened b => exact he
      | _ => cases he
    · have hopens : (!e.opens a) = true :=
        List.mem_rtakeWhile_imp (p := fun e : Event μ ν τ => !e.opens a) he
      cases e with
      | opened b => exact (Bool.not_eq_true' _).mp hopens
      | cleared => exact absurd rfl (hkept _ he)
      | _ => rfl
  have hperm := Run.conserved hrun hl
  rw [hsame] at hperm
  exact hperm.symm.eq_of_pairwise (fun x y _ _ hxy hyx => absurd hxy (Nat.lt_asymm hyx)) hlane hsent

end Lemmas

end Mailbox
