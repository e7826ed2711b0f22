import CBase.Lib.DelayLine
import CBase.NetSim.Accounts

/-!
# The simulator as delay lines

`lines v` is what every endpoint has yet to receive, with the times when it is due. The operations of a
view are those of its lines, and a datagram that is due no earlier than the pending ones is posted at the
end of its line.
-/

namespace CBase.NetSim

open LinkedHeap (Ptr)
open DelayLine (Line)

/-- The source and the bytes of a datagram. -/
abbrev Parcel := Addr × List UInt8

abbrev Lines := List (Addr × Line Nat Parcel)

/-! ## Lines by address -/

namespace Lines

def find (ls : Lines) (a : Addr) : Option (Line Nat Parcel) :=
  (ls.find? (·.1 = a)).map Prod.snd

def add (ls : Lines) (a : Addr) : Lines := (a, .empty) :: ls

def remove (ls : Lines) (a : Addr) : Lines := ls.filter (·.1 ≠ a)

/-- Change the line to an address. -/
def update (ls : Lines) (a : Addr) (f : Line Nat Parcel → Line Nat Parcel) : Lines :=
  ls.map fun l => if l.1 = a then (l.1, f l.2) else l

def deliver (ls : Lines) (now : Nat) : Lines := ls.map fun l => (l.1, l.2.deliver now)

/-- The number of datagrams that a delivery makes ready. -/
def arrivals (ls : Lines) (now : Nat) : Nat :=
  (ls.map fun l => (l.2.transit.takeWhile (·.1 ≤ now)).length).sum

def clear (ls : Lines) : Lines := ls.map fun l => (l.1, .empty)

variable {ls : Lines} {a b : Addr}

/-- A change of every line that keeps the addresses. -/
theorem find_map (f : Addr → Line Nat Parcel → Line Nat Parcel) (ls : Lines) (a : Addr) :
    find (ls.map fun l => (l.1, f l.1 l.2)) a = (ls.find a).map (f a) := by
  unfold find
  rw [List.find?_map, Option.map_map, Option.map_map]
  refine Option.map_congr fun l hl => ?_
  have haddr : l.1 = a := by simpa using List.find?_some hl
  rw [← haddr]
  rfl

theorem find_add : (ls.add a).find b = if a = b then some .empty else ls.find b := by
  unfold add find
  by_cases hab : a = b
  · simp [hab]
  · simp [hab]

theorem find_remove : (ls.remove a).find b = if b = a then none else ls.find b := by
  have hfind : (ls.remove a).find b =
      (ls.find? fun l => l.1 ≠ a ∧ l.1 = b).map Prod.snd := by
    simp [remove, find, List.find?_filter]
  rw [hfind]
  by_cases hba : b = a
  · subst hba
    rw [if_pos rfl, List.find?_eq_none.mpr (by simp)]
    rfl
  · rw [if_neg hba, find]
    refine congrArg (fun p => (ls.find? p).map Prod.snd) (funext fun l => ?_)
    rw [Bool.eq_iff_iff]
    simp only [ne_eq, decide_eq_true_eq, and_iff_right_iff_imp]
    rintro rfl
    exact hba

theorem find_update (f : Line Nat Parcel → Line Nat Parcel) :
    (ls.update a f).find b = if b = a then (ls.find b).map f else ls.find b := by
  have hupdate : ls.update a f = ls.map fun l => (l.1, if l.1 = a then f l.2 else l.2) := by
    unfold update
    refine List.map_congr_left fun l _ => ?_
    split
    · rfl
    · rfl
  rw [hupdate, find_map fun b l => if b = a then f l else l]
  split
  · rfl
  · exact Option.map_id'

theorem find_deliver (now : Nat) : (ls.deliver now).find b = (ls.find b).map (·.deliver now) :=
  find_map (fun _ l => l.deliver now) ls b

theorem find_clear : ls.clear.find b = (ls.find b).map fun _ => .empty :=
  find_map (fun _ _ => .empty) ls b

end Lines

/-! ## The lines of a view -/

def parcel (c : Copy) : Parcel := (c.2.src, c.2.payload)

/-- The pending datagrams for an address. -/
def transit (a : Addr) (pending : List Copy) : List (Nat × Parcel) :=
  (Mailbox.bound dest a pending).map fun c => (due c, parcel c)

def Box.line (pending : List Copy) (b : Box) : Addr × Line Nat Parcel :=
  (b.addr, ⟨b.ready.map parcel, transit b.addr pending⟩)

namespace View

def lines (v : View) : Lines := v.boxes.map (Box.line v.pending)

variable {v : View} {addr : Addr} {b : Box} {c : Copy} {now : UInt64}

theorem lines_find (v : View) (a : Addr) :
    v.lines.find a = (v.box a).map fun b => (b.line v.pending).2 := by
  unfold lines Lines.find box
  rw [List.find?_map, Option.map_map]
  rfl

theorem lines_bind (hopen : v.Open) (hb : v.box addr = none) (p : Ptr) :
    (v.bind p addr).lines = v.lines.add addr := by
  have hnil : transit addr v.pending = [] := by
    rw [transit, hopen.bound_eq_nil hb]
    rfl
  show Box.line v.pending ⟨p, addr, [], 0⟩ :: v.lines = _
  rw [Box.line, hnil]
  rfl

theorem lines_close : (v.close addr).lines = v.lines.remove addr := by
  unfold lines Lines.remove close
  rw [List.filter_map]
  refine List.map_congr_left fun b hb => ?_
  have hne : b.addr ≠ addr := by simpa using (List.mem_filter.mp hb).2
  rw [Box.line, transit, Mailbox.bound_closed hne]
  rfl

/-- A change of one endpoint that leaves the pending datagrams alone. -/
theorem lines_update {f : Box → Box} {g : Line Nat Parcel → Line Nat Parcel}
    (hf : ∀ b ∈ v.boxes, b.addr = addr → (f b).line v.pending = (b.addr, g (b.line v.pending).2)) :
    (View.mk v.pending (update addr f v.boxes)).lines = v.lines.update addr g := by
  unfold lines Lines.update update
  rw [List.map_map, List.map_map]
  refine List.map_congr_left fun b hb => ?_
  show Box.line v.pending (if b.addr = addr then f b else b) = if b.addr = addr then _ else _
  by_cases haddr : b.addr = addr
  · rw [if_pos haddr, if_pos haddr]
    exact hf b hb haddr
  · rw [if_neg haddr, if_neg haddr]

theorem transit_append (a : Addr) (pending : List Copy) (c : Copy) :
    transit a (pending ++ [c]) =
      if dest c = a then transit a pending ++ [(due c, parcel c)] else transit a pending := by
  unfold transit
  rw [Mailbox.bound_append, List.map_append]
  by_cases ha : dest c = a
  · simp [Mailbox.bound, ha]
  · simp [Mailbox.bound, ha]

theorem lines_post (hlate : ∀ d ∈ v.pending, due d ≤ due c) :
    (v.post c).lines = v.lines.update (dest c) (·.post (due c) (parcel c)) := by
  have hinsert : Mailbox.insert due c v.pending = v.pending ++ [c] := by
    have hall : ∀ d ∈ v.pending, decide (due d ≤ due c) = true := by simpa using hlate
    rw [Mailbox.insert, List.takeWhile_eq_self_iff.mpr hall, List.dropWhile_eq_nil_iff.mpr hall]
  unfold post lines Lines.update update
  rw [hinsert, List.map_map, List.map_map]
  refine List.map_congr_left fun b hb => ?_
  have hline (b : Box) : Box.line (v.pending ++ [c]) b = (b.addr, ⟨b.ready.map parcel,
      if dest c = b.addr then transit b.addr v.pending ++ [(due c, parcel c)]
      else transit b.addr v.pending⟩) := by
    rw [Box.line, transit_append]
  show Box.line _ (if b.addr = dest c then charge c.2.len b else b) = if b.addr = dest c then _ else _
  by_cases haddr : b.addr = dest c
  · rw [if_pos haddr, if_pos haddr, hline]
    exact congrArg (fun t => (b.addr, Line.mk _ t)) (if_pos haddr.symm)
  · rw [if_neg haddr, if_neg haddr, hline, if_neg (Ne.symm haddr)]
    rfl

theorem takeWhile_transit {pending : List Copy} (hsorted : pending.Pairwise (due · ≤ due ·)) (a : Addr)
    (now : Nat) : (transit a pending).takeWhile (·.1 ≤ now) =
      transit a (pending.takeWhile (due · ≤ now)) := by
  unfold transit Mailbox.bound
  rw [List.takeWhile_map, DelayLine.takeWhile_filter hsorted]
  rfl

theorem dropWhile_transit {pending : List Copy} (hsorted : pending.Pairwise (due · ≤ due ·)) (a : Addr)
    (now : Nat) : (transit a pending).dropWhile (·.1 ≤ now) =
      transit a (pending.dropWhile (due · ≤ now)) := by
  unfold transit Mailbox.bound
  rw [List.dropWhile_map, DelayLine.dropWhile_filter hsorted]
  rfl

theorem lines_deliver (hsorted : v.pending.Pairwise (due · ≤ due ·)) (now : UInt64) :
    (v.deliver now).lines = v.lines.deliver now.toNat := by
  unfold lines Lines.deliver deliver
  rw [List.map_map, List.map_map]
  refine List.map_congr_left fun b _ => ?_
  show Box.line _ (arrive _ b) = (b.addr, Line.deliver now.toNat (b.line v.pending).2)
  rw [Line.deliver, Box.line, Box.line, takeWhile_transit hsorted, dropWhile_transit hsorted]
  simp [arrive, transit, Function.comp_def]

/-- Every datagram that is delivered arrives on one line. -/
theorem arrivals (hsorted : v.pending.Pairwise (due · ≤ due ·)) (hopen : v.Open)
    (hnd : (v.boxes.map Box.addr).Nodup) (now : UInt64) : v.lines.arrivals now.toNat =
      (v.pending.takeWhile (due · ≤ now.toNat)).length := by
  have hsum := @Mailbox.sum_length_bound _ _ _ dest (v.pending.takeWhile (due · ≤ now.toNat)) _ hnd
    fun c hc => by
      obtain ⟨b, hb, haddr⟩ := hopen c ((List.takeWhile_sublist _).subset hc)
      exact haddr ▸ List.mem_map_of_mem hb
  rw [← hsum, List.map_map]
  unfold lines Lines.arrivals
  rw [List.map_map]
  refine congrArg List.sum (List.map_congr_left fun b _ => ?_)
  show (List.takeWhile _ (transit b.addr v.pending)).length = _
  rw [takeWhile_transit hsorted, transit, List.length_map]
  rfl

/-- Taking the head of a ready FIFO. -/
theorem lines_take (clamp : UInt64) : (v.take clamp addr).lines = v.lines.update addr Line.pop := by
  refine lines_update fun b _ _ => ?_
  unfold pop
  cases hready : b.ready with
  | nil => simp [Box.line, Line.pop, hready]
  | cons c rest => simp [Box.line, Line.pop, hready]

theorem lines_clear : v.clear.lines = v.lines.clear := by
  unfold lines Lines.clear clear
  rw [List.map_map, List.map_map]
  rfl

/-! ## What an operation leaves -/

theorem mem_copies : c ∈ v.copies ↔ c ∈ v.pending ∨ ∃ b ∈ v.boxes, c ∈ b.ready := by
  unfold copies
  rw [List.mem_flatten, List.exists_mem_cons_iff]
  simp

theorem mem_copies_close (h : c ∈ (v.close addr).copies) : c ∈ v.copies := by
  rcases mem_copies.mp h with hc | ⟨b, hb, hc⟩
  · exact mem_copies.mpr (.inl (List.mem_filter.mp hc).1)
  · exact mem_copies.mpr (.inr ⟨b, (List.mem_filter.mp hb).1, hc⟩)

theorem mem_copies_deliver (h : c ∈ (v.deliver now).copies) : c ∈ v.copies := by
  rcases mem_copies.mp h with hc | ⟨b, hb, hc⟩
  · exact mem_copies.mpr (.inl ((List.dropWhile_sublist _).subset hc))
  · obtain ⟨a, ha, rfl⟩ := List.mem_map.mp hb
    rcases List.mem_append.mp hc with hc | hc
    · exact mem_copies.mpr (.inr ⟨a, ha, hc⟩)
    · exact mem_copies.mpr (.inl ((List.takeWhile_sublist _).subset (Mailbox.mem_bound.mp hc).1))

theorem mem_copies_take {clamp : UInt64} (h : c ∈ (v.take clamp addr).copies) : c ∈ v.copies := by
  rcases mem_copies.mp h with hc | ⟨b, hb, hc⟩
  · exact mem_copies.mpr (.inl hc)
  · obtain ⟨a, ha, rfl⟩ := List.mem_map.mp hb
    refine mem_copies.mpr (.inr ⟨a, ha, ?_⟩)
    split at hc
    · unfold pop at hc
      split at hc
      · exact hc
      · next hready =>
        rw [hready]
        exact List.mem_cons_of_mem _ hc
    · exact hc

theorem not_mem_copies_clear : c ∉ v.clear.copies := by
  intro h
  rcases mem_copies.mp h with hc | ⟨b, hb, hc⟩
  · cases hc
  · obtain ⟨a, ha, rfl⟩ := List.mem_map.mp hb
    cases hc

end View

end CBase.NetSim
