import CBase.Lib.LinkedLists
import CBase.Lib.Mailbox
import CBase.NetSim.Net

/-!
# The simulator as lists

A view lists what the pointers of the simulator lead to: the pending datagrams, and every endpoint with
its ready FIFO. `Repr net loose v` says that the simulator is laid out as the view, and that it has no
other datagrams than those and `loose`.

Each operation on pointers has a result, and that result is laid out as the view after the operation on
lists of the same name. `View.mail` forgets the addresses and the byte counts.
-/

namespace CBase.NetSim

open LinkedHeap

/-- A datagram in memory. -/
abbrev Copy := Ptr × Node

/-- When a datagram may be received. -/
def due (c : Copy) : Nat := c.2.scheduledNs.toNat

def dest (c : Copy) : Addr := c.2.dest

/-- An endpoint and its ready FIFO. -/
structure Box where
  ptr : Ptr
  addr : Addr
  ready : List Copy
  bytes : UInt64

def Box.cell (b : Box) : Ptr × Endpoint :=
  (b.ptr, ⟨b.addr, start b.ready, b.ready.getLast?.map Prod.fst, b.bytes⟩)

structure View where
  pending : List Copy
  boxes : List Box

namespace View

def empty : View := ⟨[], []⟩

/-- Change the endpoint at an address. -/
def update (addr : Addr) (f : Box → Box) (boxes : List Box) : List Box :=
  boxes.map fun b => if b.addr = addr then f b else b

/-- The endpoint at an address. -/
def box (v : View) (addr : Addr) : Option Box := v.boxes.find? (·.addr = addr)

/-- Every pending datagram is for an endpoint. -/
def Open (v : View) : Prop := ∀ c ∈ v.pending, ∃ b ∈ v.boxes, b.addr = dest c

def bind (v : View) (p : Ptr) (addr : Addr) : View := { v with boxes := ⟨p, addr, [], 0⟩ :: v.boxes }

def close (v : View) (addr : Addr) : View :=
  ⟨v.pending.filter (dest · ≠ addr), v.boxes.filter (·.addr ≠ addr)⟩

def charge (len : Nat) (b : Box) : Box := { b with bytes := b.bytes + UInt64.ofNat len }

def post (v : View) (c : Copy) : View :=
  ⟨Mailbox.insert due c v.pending, update (dest c) (charge c.2.len) v.boxes⟩

def append (c : Copy) (b : Box) : Box := { b with ready := b.ready ++ [c] }

/-- The first pending datagram moves to its endpoint. -/
def move (v : View) : View :=
  match v.pending with
  | [] => v
  | c :: rest => ⟨rest, update (dest c) (append c) v.boxes⟩

/-- The datagrams of a list for an endpoint arrive there. -/
def arrive (cs : List Copy) (b : Box) : Box :=
  { b with ready := b.ready ++ Mailbox.bound dest b.addr cs }

/-- What is due moves to its endpoint. -/
def deliver (v : View) (now : UInt64) : View :=
  ⟨v.pending.dropWhile (due · ≤ now.toNat),
    v.boxes.map (arrive (v.pending.takeWhile (due · ≤ now.toNat)))⟩

/-- The head of a ready FIFO is freed. -/
def pop (clamp : UInt64) (b : Box) : Box :=
  match b.ready with
  | [] => b
  | c :: rest =>
    let len := UInt64.ofNat c.2.len
    { b with ready := rest, bytes := if len ≤ b.bytes then b.bytes - len else clamp }

def take (v : View) (clamp : UInt64) (addr : Addr) : View :=
  { v with boxes := update addr (pop clamp) v.boxes }

def drained (b : Box) : Box := { b with ready := [], bytes := 0 }

@[simp] theorem drained_ptr (b : Box) : (drained b).ptr = b.ptr := rfl

@[simp] theorem drained_addr (b : Box) : (drained b).addr = b.addr := rfl

@[simp] theorem drained_ready (b : Box) : (drained b).ready = [] := rfl

def clear (v : View) : View := ⟨[], v.boxes.map drained⟩

/-- The view without addresses and byte counts. -/
def mail (v : View) : Mailbox.Mail Copy Addr := ⟨v.pending, fun addr => (v.box addr).map Box.ready⟩

end View

/-- The simulator is laid out as the view, with the datagrams `loose` besides. -/
structure Repr (net : Net) (loose : List Copy) (v : View) : Prop where
  nodes : Filed net.nodes loose (v.pending :: v.boxes.map Box.ready)
  pending : net.pending = start v.pending
  endpoints : Chain net.cells net.endpoints (v.boxes.map Box.cell)
  addrs : (v.boxes.map Box.addr).Nodup

/-! ## Endpoints by address -/

theorem isAt_eq (addr : Addr) (e : Endpoint) : isAt addr e = decide (e.addr = addr) := by
  obtain ⟨⟨ip, port⟩, _, _, _⟩ := e
  obtain ⟨ip', port'⟩ := addr
  rw [Bool.eq_iff_iff]
  simp [isAt]

theorem isAt_cell (addr : Addr) :
    (fun x => isAt addr x.2) ∘ Box.cell = fun b : Box => decide (b.addr = addr) :=
  funext fun b => isAt_eq addr b.cell.2

/-- The search for an address in the list of the endpoints. -/
theorem find_cell (v : View) (addr : Addr) :
    (v.boxes.map Box.cell).find? (fun x => isAt addr x.2) = (v.box addr).map Box.cell := by
  rw [List.find?_map, isAt_cell]
  rfl

theorem isFor_eq (addr : Addr) (n : Node) : isFor addr n = decide (n.dest = addr) := by
  obtain ⟨_, ⟨ip, port⟩, _, _, _⟩ := n
  obtain ⟨ip', port'⟩ := addr
  rw [Bool.eq_iff_iff]
  simp [isFor]

theorem filter_isFor (addr : Addr) (l : List Copy) :
    l.filter (fun x => isFor addr x.2) = Mailbox.bound dest addr l :=
  List.filter_congr fun x _ => isFor_eq addr x.2

theorem filter_not_isFor (v : View) (addr : Addr) :
    v.pending.filter (fun x => !isFor addr x.2) = (v.close addr).pending :=
  List.filter_congr fun x _ => by
    rw [isFor_eq, Bool.eq_iff_iff, Bool.not_eq_true', decide_eq_false_iff_not, decide_eq_true_eq]
    rfl

namespace View

variable {v : View} {addr : Addr} {b : Box} {k m boxes : List Box}

theorem box_eq_none : v.box addr = none ↔ ∀ b ∈ v.boxes, b.addr ≠ addr := by
  simp [box]

theorem box_isSome : (v.box addr).isSome ↔ ∃ b ∈ v.boxes, b.addr = addr := by
  simp [box]

/-- The endpoint at an address is the only one there. -/
theorem box_split (hnd : (v.boxes.map Box.addr).Nodup) (hb : v.box addr = some b) :
    ∃ k m, v.boxes = k ++ b :: m ∧ b.addr = addr ∧ (∀ x ∈ k, x.addr ≠ addr) ∧
      ∀ x ∈ m, x.addr ≠ addr := by
  obtain ⟨haddr, k, m, hsplit, hk⟩ := List.find?_eq_some_iff_append.mp hb
  obtain rfl : b.addr = addr := of_decide_eq_true haddr
  refine ⟨k, m, hsplit, rfl, fun x hx => by simpa using hk x hx, fun x hx heq => ?_⟩
  rw [hsplit, List.map_append, List.nodup_append, List.map_cons, List.nodup_cons] at hnd
  exact hnd.2.1.1 (heq ▸ List.mem_map_of_mem hx)

theorem update_eq_self {f : Box → Box} (h : ∀ b ∈ boxes, b.addr ≠ addr) :
    update addr f boxes = boxes := by
  unfold update
  conv_rhs => rw [← List.map_id boxes]
  exact List.map_congr_left fun b hb => by rw [if_neg (h b hb), id]

theorem update_split {f : Box → Box} (haddr : b.addr = addr) (hk : ∀ x ∈ k, x.addr ≠ addr)
    (hm : ∀ x ∈ m, x.addr ≠ addr) : update addr f (k ++ b :: m) = k ++ f b :: m := by
  have hk' := update_eq_self (f := f) hk
  have hm' := update_eq_self (f := f) hm
  unfold update at hk' hm' ⊢
  rw [List.map_append, List.map_cons, hk', hm', if_pos haddr]

/-- An update keeps what its function keeps. -/
theorem map_update {β : Type} {f : Box → Box} {g : Box → β} (hf : ∀ b, g (f b) = g b) :
    (update addr f boxes).map g = boxes.map g := by
  unfold update
  rw [List.map_map]
  refine List.map_congr_left fun b _ => ?_
  rw [Function.comp_apply]
  split
  · exact hf b
  · rfl

/-- A delivery moves what is due one by one. -/
theorem deliver_move {now : UInt64} {c : Copy} {rest : List Copy} (hpending : v.pending = c :: rest)
    (hdue : due c ≤ now.toNat) : v.move.deliver now = v.deliver now := by
  have hmove : v.move = ⟨rest, update (dest c) (append c) v.boxes⟩ := by
    unfold move
    rw [hpending]
  rw [hmove]
  unfold deliver
  rw [hpending, List.dropWhile_cons_of_pos (by simpa using hdue),
    List.takeWhile_cons_of_pos (by simpa using hdue)]
  refine congrArg (View.mk _) ?_
  unfold update
  rw [List.map_map]
  refine List.map_congr_left fun b _ => ?_
  rw [Function.comp_apply]
  by_cases hb : b.addr = dest c
  · simp [append, arrive, Mailbox.bound, hb]
  · simp [arrive, Mailbox.bound, hb, Ne.symm hb]

theorem deliver_stay {now : UInt64} (hhead : ∀ c ∈ v.pending.head?, ¬ due c ≤ now.toNat) :
    v.deliver now = v := by
  have htake : v.pending.takeWhile (due · ≤ now.toNat) = [] := by
    cases hp : v.pending with
    | nil => rfl
    | cons c rest =>
      rw [hp] at hhead
      exact List.takeWhile_cons_of_neg (by simpa using hhead c rfl)
  have hdrop : v.pending.dropWhile (due · ≤ now.toNat) = v.pending := by
    conv_rhs => rw [← List.takeWhile_append_dropWhile (p := fun c => decide (due c ≤ now.toNat))
      (l := v.pending), htake, List.nil_append]
  unfold deliver
  have harrive : arrive [] = id := funext fun b => by simp [arrive, Mailbox.bound]
  rw [htake, hdrop, harrive, List.map_id]

theorem Open.move (h : v.Open) : v.move.Open := by
  unfold View.move
  cases hp : v.pending with
  | nil => exact h
  | cons c rest =>
    intro x hx
    obtain ⟨b, hb, haddr⟩ := h x (by rw [hp]; exact List.mem_cons_of_mem _ hx)
    refine ⟨if b.addr = dest c then append c b else b, List.mem_map_of_mem hb, ?_⟩
    rw [← haddr]
    split
    · rfl
    · rfl

theorem Open.bound_eq_nil (h : v.Open) (hb : v.box addr = none) :
    Mailbox.bound dest addr v.pending = [] := by
  unfold Mailbox.bound
  rw [List.filter_eq_nil_iff]
  intro c hc
  obtain ⟨b, hmem, haddr⟩ := h c hc
  rw [decide_eq_true_eq, ← haddr]
  exact box_eq_none.mp hb b hmem

theorem Open.close_eq_self (h : v.Open) (hb : v.box addr = none) : v.close addr = v := by
  have hpending : v.pending.filter (dest · ≠ addr) = v.pending := by
    rw [List.filter_eq_self]
    intro c hc
    have hnil := List.filter_eq_nil_iff.mp (h.bound_eq_nil hb) c hc
    simpa using hnil
  have hboxes : v.boxes.filter (·.addr ≠ addr) = v.boxes := by
    rw [List.filter_eq_self]
    intro b hmem
    simpa using box_eq_none.mp hb b hmem
  unfold close
  rw [hpending, hboxes]

theorem close_split (hsplit : v.boxes = k ++ b :: m) (haddr : b.addr = addr)
    (hk : ∀ x ∈ k, x.addr ≠ addr) (hm : ∀ x ∈ m, x.addr ≠ addr) :
    (v.close addr).boxes = k ++ m := by
  have hk' : k.filter (·.addr ≠ addr) = k := List.filter_eq_self.mpr (by simpa using hk)
  have hm' : m.filter (·.addr ≠ addr) = m := List.filter_eq_self.mpr (by simpa using hm)
  unfold close
  simp only
  rw [hsplit, List.filter_append, List.filter_cons_of_neg (by simp [haddr]), hk', hm']

end View

namespace Repr

variable {net : Net} {loose : List Copy} {v : View} {addr : Addr} {b b' : Box} {k m : List Box}

theorem create (seed : UInt64) (params : Params) : Repr (create seed params) [] .empty :=
  ⟨.empty, rfl, rfl, .nil⟩

theorem find (hr : Repr net loose v) (addr : Addr) :
    findEndpoint net addr = some ((v.box addr).map Box.ptr) := by
  unfold findEndpoint
  rw [find_chain hr.endpoints, find_cell, Option.map_map]
  rfl

theorem cell (hr : Repr net loose v) (hb : b ∈ v.boxes) :
    ∃ r, net.cells.cell b.ptr = some ⟨r, b.cell.2⟩ :=
  hr.endpoints.mem_cell (List.mem_map_of_mem hb)

/-- A change of the value of one endpoint. -/
theorem modify (hr : Repr net loose v) (hsplit : v.boxes = k ++ b :: m) (f : Endpoint → Endpoint)
    (hcell : b'.cell = (b.ptr, f b.cell.2)) :
    ∃ cells, net.cells.modify b.ptr f = some cells ∧
      Chain cells net.endpoints ((k ++ b' :: m).map Box.cell) := by
  have hchain := hr.endpoints
  rw [hsplit, List.map_append, List.map_cons] at hchain
  obtain ⟨cells, hmod, hchain', -⟩ := Chain.modify_cell hchain f
  refine ⟨cells, hmod, ?_⟩
  rw [List.map_append, List.map_cons, hcell]
  exact hchain'

/-! ## The pending list -/

theorem charge (hr : Repr net loose v) (addr : Addr) (len : Nat) :
    ∃ cells, chargeEndpoint net addr len = some { net with cells } ∧
      Repr { net with cells } loose { v with boxes := View.update addr (View.charge len) v.boxes } := by
  unfold chargeEndpoint
  rw [hr.find]
  cases hb : v.box addr with
  | none =>
    refine ⟨net.cells, rfl, ?_⟩
    rw [View.update_eq_self (View.box_eq_none.mp hb)]
    exact hr
  | some b =>
    obtain ⟨k, m, hsplit, haddr, hk, hm⟩ := View.box_split hr.addrs hb
    obtain ⟨cells, hmod, hchain⟩ := @Repr.modify net loose v b (View.charge len b) k m hr hsplit
      (fun e => { e with bytesInFlight := e.bytesInFlight + UInt64.ofNat len }) rfl
    have hupdate := View.update_split (f := View.charge len) haddr hk hm
    have hready : (View.update addr (View.charge len) v.boxes).map Box.ready = v.boxes.map Box.ready :=
      View.map_update fun _ => rfl
    have haddrs : (View.update addr (View.charge len) v.boxes).map Box.addr = v.boxes.map Box.addr :=
      View.map_update fun _ => rfl
    rw [← hsplit] at hupdate
    exact ⟨cells, by simp [hmod], ⟨by rw [hready]; exact hr.nodes, hr.pending, hupdate ▸ hchain,
      by rw [haddrs]; exact hr.addrs⟩⟩

theorem insert {p : Ptr} {n : Node} (hr : Repr net ((p, n) :: loose) v) :
    ∃ nodes pending, pendingInsert net p = some { net with nodes, pending } ∧
      nodes.brk = net.nodes.brk ∧
      Repr { net with nodes, pending } loose
        { v with pending := Mailbox.insert due (p, n) v.pending } := by
  obtain ⟨nodes, hset, hbrk, hcell, hfiled⟩ := hr.nodes.setNext none
  unfold pendingInsert
  rw [hset, hr.pending, Option.bind_eq_bind, Option.bind_some]
  cases hpending : v.pending with
  | nil =>
    rw [hpending] at hfiled
    exact ⟨nodes, some p, rfl, hbrk, Filed.push (k := []) hfiled hcell, rfl, hr.endpoints, hr.addrs⟩
  | cons c rest =>
    obtain ⟨f, first⟩ := c
    rw [hpending] at hfiled
    obtain ⟨-, r, hf, -⟩ := Filed.list (k := []) hfiled
    simp only [start_cons, hcell, hf]
    by_cases hlt : n.scheduledNs < first.scheduledNs
    · obtain ⟨nodes', hset', hbrk', hcell', hfiled'⟩ := hfiled.setNext (some f)
      have hinsert : Mailbox.insert due (p, n) ((f, first) :: rest) = (p, n) :: (f, first) :: rest := by
        have hnot : ¬ due (f, first) ≤ due (p, n) := Nat.not_le.mpr (UInt64.lt_iff_toNat_lt.mp hlt)
        simp [Mailbox.insert, hnot]
      refine ⟨nodes', some p, by simp [hlt, hset'], hbrk'.trans hbrk, ?_, ?_, hr.endpoints, hr.addrs⟩
      · rw [hinsert]
        exact Filed.push (k := []) hfiled' hcell'
      · rw [hinsert]
        rfl
    · obtain ⟨cur, c, h₁, h₂, hadv, hcur, hset₁, hset₂, hbrk', hfiled'⟩ :=
        Filed.insert_advance (k := []) (fun m => m.scheduledNs ≤ n.scheduledNs) hfiled
      have hinsert : Mailbox.insert due (p, n) ((f, first) :: rest) = (f, first) ::
          (rest.takeWhile fun x => decide (x.2.scheduledNs ≤ n.scheduledNs)) ++ (p, n) ::
          rest.dropWhile fun x => decide (x.2.scheduledNs ≤ n.scheduledNs) := by
        have hle : first.scheduledNs ≤ n.scheduledNs := UInt64.not_lt.mp hlt
        have hdue : (fun x => decide (due x ≤ due (p, n))) =
            fun x : Copy => decide (x.2.scheduledNs ≤ n.scheduledNs) :=
          funext fun x => decide_eq_decide.mpr UInt64.le_iff_toNat_le.symm
        rw [Mailbox.insert, hdue, List.takeWhile_cons_of_pos (by simpa using hle),
          List.dropWhile_cons_of_pos (by simpa using hle)]
      refine ⟨h₂, some f, ?_, hbrk'.trans hbrk, ?_, ?_, hr.endpoints, hr.addrs⟩
      · simp [hlt, hadv, hcur, hset₁, hset₂]
      · rw [hinsert]
        exact hfiled'
      · rw [hinsert]
        rfl

theorem enqueue {p : Ptr} {n : Node} (hr : Repr net ((p, n) :: loose) v) :
    ∃ nodes pending cells, enqueueNode net p = some { net with nodes, pending, cells } ∧
      nodes.brk = net.nodes.brk ∧
      Repr { net with nodes, pending, cells } loose (v.post (p, n)) := by
  obtain ⟨r, hp⟩ := hr.nodes.loose_cell
  obtain ⟨cells, hcharge, hr₁⟩ := hr.charge n.dest n.len
  obtain ⟨nodes, pending, hinsert, hbrk, hr₂⟩ := hr₁.insert
  exact ⟨nodes, pending, cells, by simp [enqueueNode, hp, hcharge, hinsert], hbrk, hr₂⟩

/-! ## Delivery -/

theorem appendReady {p : Ptr} {n : Node} (hr : Repr net ((p, n) :: loose) v)
    (hp : net.nodes.cell p = some ⟨none, n⟩) (hb : v.box addr = some b) :
    ∃ nodes cells, NetSim.appendReady net b.ptr p = some { net with nodes, cells } ∧
      nodes.brk = net.nodes.brk ∧
      Repr { net with nodes, cells } loose
        { v with boxes := View.update addr (View.append (p, n)) v.boxes } := by
  obtain ⟨k, m, hsplit, haddr, hk, hm⟩ := View.box_split hr.addrs hb
  have hupdate := View.update_split (f := View.append (p, n)) haddr hk hm
  have haddrs : (View.update addr (View.append (p, n)) v.boxes).map Box.addr = v.boxes.map Box.addr :=
    View.map_update fun _ => rfl
  rw [← hsplit] at hupdate
  obtain ⟨r, hcell⟩ := hr.cell (b := b) (by simp [hsplit])
  have hnodes := hr.nodes
  rw [hsplit, List.map_append, List.map_cons] at hnodes
  have hlists : v.pending :: (k ++ View.append (p, n) b :: m).map Box.ready =
      (v.pending :: k.map Box.ready) ++ (b.ready ++ [(p, n)]) :: m.map Box.ready := by
    simp [View.append]
  unfold NetSim.appendReady
  rw [hcell, Option.bind_eq_bind, Option.bind_some]
  rcases List.eq_nil_or_concat' b.ready with hready | ⟨l, ⟨t, w⟩, hready⟩
  · have htail : b.cell.2.readyTail = none := by simp [Box.cell, hready]
    obtain ⟨cells, hmod, hchain⟩ := @Repr.modify net _ v b (View.append (p, n) b) k m hr hsplit
      (fun e => { e with readyHead := some p, readyTail := some p }) (by simp [Box.cell, View.append, hready])
    refine ⟨net.nodes, cells, by simp [htail, hmod], rfl, ⟨?_, hr.pending, hupdate ▸ hchain, ?_⟩⟩
    · rw [hupdate, hlists, hready]
      rw [hready] at hnodes
      exact Filed.push (k := v.pending :: k.map Box.ready) hnodes hp
    · rw [haddrs]
      exact hr.addrs
  · have htail : b.cell.2.readyTail = some t := by simp [Box.cell, hready]
    rw [hready] at hnodes
    obtain ⟨nodes, hset, hbrk, hfiled⟩ :=
      Filed.append (k := v.pending :: k.map Box.ready) hnodes hp
    obtain ⟨cells, hmod, hchain⟩ := @Repr.modify net _ v b (View.append (p, n) b) k m hr hsplit
      (fun e => { e with readyTail := some p }) (by
        simp [Box.cell, View.append, hready, start, List.head?_append])
    refine ⟨nodes, cells, by simp [htail, hset, hmod], hbrk, ⟨?_, hr.pending, hupdate ▸ hchain, ?_⟩⟩
    · rw [hupdate, hlists, hready]
      simpa using hfiled
    · rw [haddrs]
      exact hr.addrs

/-- One round of the loop of `cb_netsim_step`: the branch for unbound destinations is not taken. -/
theorem stepRound {c : Copy} {rest : List Copy} (hr : Repr net [] v) (hopen : v.Open)
    (hpending : v.pending = c :: rest) {now : UInt64} (hdue : due c ≤ now.toNat) (n : Nat)
    (moved : UInt32) :
    ∃ nodes pending cells,
      (∀ unbound, stepLoop unbound now (n + 1) net moved =
        stepLoop unbound now n { net with nodes, pending, cells } (moved + 1)) ∧
      nodes.brk = net.nodes.brk ∧ Repr { net with nodes, pending, cells } [] v.move := by
  obtain ⟨p, node⟩ := c
  obtain ⟨b, hb⟩ : ∃ b, v.box node.dest = some b := by
    rw [← Option.isSome_iff_exists, View.box_isSome]
    exact hopen (p, node) (by simp [hpending])
  have hnodes := hr.nodes
  rw [hpending] at hnodes
  obtain ⟨r, hcell, hnext, hloose⟩ := Filed.pop (k := []) hnodes
  obtain ⟨nodes, hset, hbrk, hlast, hfiled⟩ := hloose.setNext none
  have hr₁ : Repr { net with pending := r, nodes := nodes } [(p, node)] { v with pending := rest } :=
    ⟨hfiled, hnext, hr.endpoints, hr.addrs⟩
  have hb' : (View.mk rest v.boxes).box node.dest = some b := hb
  obtain ⟨nodes', cells, happend, hbrk', hr₂⟩ := hr₁.appendReady hlast hb'
  have hle : node.scheduledNs ≤ now := UInt64.le_iff_toNat_le.mpr hdue
  have hmove : v.move = ⟨rest, View.update node.dest (View.append (p, node)) v.boxes⟩ := by
    unfold View.move
    rw [hpending]
    rfl
  refine ⟨nodes', r, cells, fun unbound => ?_, hbrk'.trans hbrk, hmove ▸ hr₂⟩
  have hhead : net.pending = some p := by rw [hr.pending, hpending, start_cons]
  have hfind := hr₁.find node.dest
  have hbox : View.box { v with pending := rest } node.dest = some b := hb
  rw [hbox, Option.map_some] at hfind
  rw [stepLoop]
  simp [hhead, hcell, hle, hset, hfind, happend]

theorem stepLoop (hr : Repr net [] v) (hopen : v.Open) (now : UInt64) {n : Nat}
    (hn : v.pending.length < n) (moved : UInt32) :
    ∃ nodes pending cells,
      (∀ unbound, NetSim.stepLoop unbound now n net moved =
        some (moved + UInt32.ofNat (v.pending.takeWhile (due · ≤ now.toNat)).length,
          { net with nodes, pending, cells })) ∧
      nodes.brk = net.nodes.brk ∧ Repr { net with nodes, pending, cells } [] (v.deliver now) := by
  obtain ⟨n, rfl⟩ : ∃ k, n = k + 1 := ⟨n - 1, by omega⟩
  induction hpending : v.pending generalizing n net v moved with
  | nil =>
    refine ⟨net.nodes, net.pending, net.cells, fun unbound => ?_, rfl, ?_⟩
    · have hhead : net.pending = none := by rw [hr.pending, hpending, start_nil]
      have hstop : NetSim.stepLoop unbound now (n + 1) net moved = some (moved, net) := by
        rw [NetSim.stepLoop]
        simp [hhead]
      rw [hstop]
      simp
    · rw [View.deliver_stay (by simp [hpending])]
      exact hr
  | cons c rest ih =>
    by_cases hdue : due c ≤ now.toNat
    · obtain ⟨nodes, pending, cells, hround, hbrk, hr₁⟩ :=
        hr.stepRound hopen hpending hdue n moved
      rw [hpending, List.length_cons] at hn
      obtain ⟨n, rfl⟩ : ∃ k, n = k + 1 := ⟨n - 1, by omega⟩
      have hrest : v.move.pending = rest := by
        unfold View.move
        rw [hpending]
      obtain ⟨nodes', pending', cells', hloop, hbrk', hr₂⟩ :=
        ih hr₁ hopen.move (moved + 1) n (by rw [hrest]; omega) hrest
      refine ⟨nodes', pending', cells', fun unbound => ?_, hbrk'.trans hbrk, ?_⟩
      · rw [hround, hloop, List.takeWhile_cons_of_pos (by simpa using hdue), List.length_cons,
          Nat.add_comm, UInt32.ofNat_add]
        simp [UInt32.add_assoc]
      · rw [← View.deliver_move hpending hdue]
        exact hr₂
    · refine ⟨net.nodes, net.pending, net.cells, fun unbound => ?_, rfl, ?_⟩
      · have hhead : net.pending = some c.1 := by rw [hr.pending, hpending, start_cons]
        have hnodes := hr.nodes
        rw [hpending] at hnodes
        obtain ⟨r, hcell, -, -⟩ := Filed.pop (k := []) hnodes
        have hlater : ¬ c.2.scheduledNs ≤ now := fun h => hdue (UInt64.le_iff_toNat_le.mp h)
        have hstop : NetSim.stepLoop unbound now (n + 1) net moved = some (moved, net) := by
          rw [NetSim.stepLoop]
          simp [hhead, hcell, hlater]
        rw [hstop, List.takeWhile_cons_of_neg (by simpa using hdue)]
        simp
      · rw [View.deliver_stay (by simpa [hpending] using hdue)]
        exact hr

theorem stepWith (hr : Repr net [] v) (hopen : v.Open) (env : Env) :
    ∃ nodes pending cells,
      (∀ unbound, NetSim.stepWith unbound env net = some
        (UInt32.ofNat (v.pending.takeWhile (due · ≤ (env.clock net.readings).toNat)).length,
          { net with nodes, pending, cells, readings := net.readings + 1 })) ∧
      nodes.brk = net.nodes.brk ∧
      Repr { net with nodes, pending, cells } [] (v.deliver (env.clock net.readings)) := by
  have hr₁ : Repr { net with readings := net.readings + 1 } [] v :=
    ⟨hr.nodes, hr.pending, hr.endpoints, hr.addrs⟩
  have hlen : v.pending.length < net.nodes.brk + 1 :=
    Nat.lt_succ_of_le (Filed.list (k := []) hr.nodes).length_le_brk
  obtain ⟨nodes, pending, cells, hloop, hbrk, hr₂⟩ :=
    hr₁.stepLoop hopen (env.clock net.readings) hlen 0
  refine ⟨nodes, pending, cells, fun unbound => ?_, hbrk, ⟨hr₂.nodes, hr₂.pending, hr₂.endpoints, hr₂.addrs⟩⟩
  have hrun := hloop unbound
  rw [UInt32.zero_add] at hrun
  exact hrun

/-- Receiving the head of a ready FIFO. -/
theorem recvWith {c : Copy} {rest : List Copy} {ep : Handle} {outCap : Nat} (hr : Repr net [] v)
    (hat : ep.attached = true) (hb : v.box ep.addr = some b) (hready : b.ready = c :: rest)
    (hcap : c.2.len ≤ outCap) (clamp : UInt64) (outSrc outBuf : Bool) :
    ∃ nodes cells, NetSim.recvWith clamp net (some ep) outSrc outBuf outCap true = some
        (⟨.ok, if outSrc then some c.2.src else none,
            if 0 < c.2.len ∧ outBuf then c.2.payload else [], some c.2.len⟩,
          { net with nodes, cells, stats := { net.stats with delivered := net.stats.delivered + 1 } }) ∧
      nodes.brk = net.nodes.brk ∧ Repr { net with nodes, cells } [] (v.take clamp ep.addr) := by
  obtain ⟨p, n⟩ := c
  obtain ⟨k, m, hsplit, haddr, hk, hm⟩ := View.box_split hr.addrs hb
  have hupdate : (v.take clamp ep.addr).boxes = k ++ View.pop clamp b :: m := by
    rw [← View.update_split (f := View.pop clamp) haddr hk hm, ← hsplit]
    rfl
  have haddrs : (v.take clamp ep.addr).boxes.map Box.addr = v.boxes.map Box.addr :=
    View.map_update fun b => by
      unfold View.pop
      split
      · rfl
      · rfl
  obtain ⟨r, hcell⟩ := hr.cell (b := b) (by simp [hsplit])
  have hnodes := hr.nodes
  rw [hsplit, List.map_append, List.map_cons, hready] at hnodes
  obtain ⟨next, hp, hnext, hloose⟩ := Filed.pop (k := v.pending :: k.map Box.ready) hnodes
  obtain ⟨nodes, hfree, hbrk, hfiled⟩ := hloose.free
  have hpop : View.pop clamp b = { b with
      ready := rest
      bytes := if UInt64.ofNat n.len ≤ b.bytes then b.bytes - UInt64.ofNat n.len else clamp } := by
    unfold View.pop
    rw [hready]
  obtain ⟨cells, hmod, hchain⟩ := @Repr.modify net _ v b (View.pop clamp b) k m hr hsplit
    (fun e => { e with
      readyHead := next
      readyTail := if next = none then none else e.readyTail
      bytesInFlight := if UInt64.ofNat n.len ≤ e.bytesInFlight
        then e.bytesInFlight - UInt64.ofNat n.len else clamp }) (by
    rw [hpop, hnext]
    cases rest <;> simp [Box.cell, hready])
  refine ⟨nodes, cells, ?_, hbrk, ⟨?_, hr.pending, by rw [hupdate]; exact hchain,
    by rw [haddrs]; exact hr.addrs⟩⟩
  · have hhead : b.cell.2.readyHead = some p := by simp [Box.cell, hready]
    have hnot : ¬ outCap < n.len := Nat.not_lt.mpr hcap
    simp [NetSim.recvWith, hat, hr.find, hb, hcell, hhead, hp, hnot, hmod, hfree, Net.count]
  · have hlists : (k ++ View.pop clamp b :: m).map Box.ready =
        k.map Box.ready ++ rest :: m.map Box.ready := by
      simp [hpop]
    rw [hupdate, hlists]
    exact hfiled

/-! ## Removal -/

/-- Dropping a ready FIFO, of an endpoint in the list or out of it. -/
theorem dropReady (net : Net) {ep : Ptr} {r : Option Ptr} {e : Endpoint} {l : List Copy}
    {k m : List (List Copy)} {cells : Heap Endpoint} (hcell : net.cells.cell ep = some ⟨r, e⟩)
    (hhead : e.readyHead = start l) (hf : Filed net.nodes loose (k ++ l :: m))
    (hmod : net.cells.modify ep
      (fun e => { e with readyHead := none, readyTail := none, bytesInFlight := 0 }) = some cells) :
    ∃ nodes, dropEndpointReady net ep = some { net with nodes, cells } ∧
      nodes.brk = net.nodes.brk ∧ Filed nodes loose (k ++ [] :: m) := by
  obtain ⟨nodes, hfree, hbrk, hfiled⟩ := hf.freeAll
  rw [← hhead] at hfree
  exact ⟨nodes, by simp [dropEndpointReady, hcell, hfree, hmod], hbrk, hfiled⟩

theorem flushLoop {n : Nat} {p : Option Ptr} (hr : Repr net loose v)
    (hsplit : v.boxes = k ++ m) (hp : Chain net.cells p (m.map Box.cell)) (hn : m.length ≤ n) :
    ∃ nodes cells, NetSim.flushLoop n net p = some { net with nodes, cells } ∧
      nodes.brk = net.nodes.brk ∧
      Repr { net with nodes, cells } loose { v with boxes := k ++ m.map View.drained } := by
  induction m generalizing k n p net v with
  | nil =>
    obtain rfl : p = none := hp
    refine ⟨net.nodes, net.cells, ?_, rfl, ?_⟩
    · cases n <;> rfl
    · rw [List.map_nil, ← hsplit]
      exact hr
  | cons b m ih =>
    obtain ⟨rfl, r, hcell, hm⟩ := hp
    cases n with
    | zero => cases hn
    | succ n =>
      obtain ⟨cells, hmod, hchain⟩ := @Repr.modify net _ v b (View.drained b) k m hr hsplit
        (fun e => { e with readyHead := none, readyTail := none, bytesInFlight := 0 }) rfl
      have hnodes := hr.nodes
      rw [hsplit, List.map_append, List.map_cons] at hnodes
      obtain ⟨nodes, hdrop, hbrk, hfiled⟩ := dropReady net hcell rfl
        (k := v.pending :: k.map Box.ready) hnodes hmod
      have haddrs : (k ++ View.drained b :: m).map Box.addr = v.boxes.map Box.addr := by
        rw [hsplit]
        simp
      have hr₁ : Repr { net with nodes, cells } loose { v with boxes := k ++ View.drained b :: m } :=
        ⟨by simpa using hfiled, hr.pending, hchain, by rw [haddrs]; exact hr.addrs⟩
      rw [List.map_append] at hchain
      obtain ⟨_, -, -, r', hcell', hm'⟩ := Seg.append_iff.mp hchain
      rw [View.drained_ptr] at hcell'
      obtain ⟨nodes', cells', hloop, hbrk', hr₂⟩ := ih (k := k ++ [View.drained b]) hr₁
        (by simp) hm' (Nat.le_of_succ_le_succ hn)
      refine ⟨nodes', cells', ?_, hbrk'.trans hbrk, by simpa using hr₂⟩
      simp [NetSim.flushLoop, hdrop, hcell', hloop]

theorem flush (hr : Repr net [] v) :
    ∃ nodes cells, NetSim.flush net = some { net with nodes, pending := none, cells } ∧
      nodes.brk = net.nodes.brk ∧ Repr { net with nodes, pending := none, cells } [] v.clear := by
  obtain ⟨nodes, hfree, hbrk, hfiled⟩ := Filed.freeAll (k := []) hr.nodes
  rw [← hr.pending] at hfree
  have hr₁ : Repr { net with nodes, pending := none } [] { v with pending := [] } :=
    ⟨hfiled, rfl, hr.endpoints, hr.addrs⟩
  have hlen : v.boxes.length ≤ net.cells.brk := by
    simpa using hr.endpoints.length_le_brk
  obtain ⟨nodes', cells, hloop, hbrk', hr₂⟩ :=
    hr₁.flushLoop (k := []) (m := v.boxes) rfl hr.endpoints hlen
  exact ⟨nodes', cells, by simp [NetSim.flush, hfree, hloop], hbrk'.trans hbrk, hr₂⟩

/-- The endpoints without the one that is unlinked. -/
theorem erase_split {b : Box} (hsplit : v.boxes = k ++ b :: m) (haddr : b.addr = addr)
    (hk : ∀ x ∈ k, x.addr ≠ addr) :
    (v.boxes.map Box.cell).eraseP (fun x => isAt addr x.2) = (k ++ m).map Box.cell := by
  rw [List.eraseP_map, isAt_cell, hsplit, List.eraseP_append_right _ (by simpa using hk),
    List.eraseP_cons_of_pos (by simpa using haddr)]

theorem bind (hr : Repr net [] v) (hb : v.box addr = none) (env : Env)
    (hmem : env.memory net.requests = true) :
    ∃ p endpoints cells, NetSim.bind env net addr = some (⟨.ok, true, addr⟩,
        { net with endpoints, cells, requests := net.requests + 1 }) ∧
      Repr { net with endpoints, cells } [] (v.bind p addr) := by
  refine ⟨net.cells.brk, some net.cells.brk, (net.cells.alloc ⟨net.endpoints, ⟨addr, none, none, 0⟩⟩).2,
    ?_, ⟨?_, hr.pending, ⟨rfl, net.endpoints, ?_, hr.endpoints.alloc _⟩, ?_⟩⟩
  · simp [NetSim.bind, hr.find, hb, Net.request, hmem]
  · exact Filed.add_nil (k := [v.pending]) hr.nodes
  · exact if_pos rfl
  · refine List.nodup_cons.mpr ⟨fun hmem => ?_, hr.addrs⟩
    obtain ⟨b, hb', haddr⟩ := List.mem_map.mp hmem
    exact View.box_eq_none.mp hb b hb' haddr

theorem close (hr : Repr net [] v) (hopen : v.Open) (ep : Handle) (hat : ep.attached = true) :
    ∃ nodes pending endpoints cells, NetSim.close net (some ep) = some (some { ep with attached := false },
        { net with nodes, pending, endpoints, cells, stats := { net.stats with
          dropped := net.stats.dropped +
            UInt32.ofNat (Mailbox.bound dest ep.addr v.pending).length } }) ∧
      nodes.brk = net.nodes.brk ∧
      Repr { net with nodes, pending, endpoints, cells } [] (v.close ep.addr) := by
  obtain ⟨endpoints, cells, hunlink, hchain, -, hkeep⟩ :=
    unlinkFirst_chain (isAt ep.addr) hr.endpoints
  have hfind := find_cell v ep.addr
  rw [hfind] at hunlink hkeep
  unfold NetSim.close
  cases hb : v.box ep.addr with
  | none =>
    rw [List.eraseP_of_forall_not] at hchain
    · rw [hb] at hunlink
      refine ⟨net.nodes, net.pending, endpoints, cells, ?_, rfl, ?_⟩
      · rw [hopen.bound_eq_nil hb]
        simp [hat, hunlink]
      · rw [hopen.close_eq_self hb]
        exact ⟨hr.nodes, hr.pending, hchain, hr.addrs⟩
    · rintro ⟨p, e⟩ hmem
      rw [hb, Option.map_none, List.find?_eq_none] at hfind
      exact hfind _ hmem
  | some b =>
    obtain ⟨k, m, hsplit, haddr, hk, hm⟩ := View.box_split hr.addrs hb
    rw [erase_split hsplit haddr hk] at hchain
    rw [hb] at hunlink hkeep
    obtain ⟨r, hcell⟩ := hr.cell (b := b) (by simp [hsplit])
    have hkept : cells.cell b.ptr = net.cells.cell b.ptr := hkeep b.cell rfl
    rw [← hkept] at hcell
    obtain ⟨cells₁, hmod, hcell₁, hagree₁⟩ := Heap.modify_spec hcell
      (fun e => { e with readyHead := none, readyTail := none, bytesInFlight := 0 })
    have hnodes := hr.nodes
    rw [hsplit, List.map_append, List.map_cons] at hnodes
    obtain ⟨nodes₁, hdrop, hbrk₁, hfiled₁⟩ := dropReady { net with endpoints, cells } hcell rfl
      (k := v.pending :: k.map Box.ready) hnodes hmod
    obtain ⟨nodes₂, hremove, hbrk₂, hfiled₂⟩ := Filed.removeAll (k := []) hfiled₁ (isFor ep.addr)
    obtain ⟨cells₂, hfree, -, hagree₂⟩ := Heap.free_spec hcell₁
    rw [← hr.pending] at hremove
    rw [filter_isFor, filter_not_isFor] at hremove
    rw [filter_not_isFor] at hfiled₂
    refine ⟨nodes₂, start (v.close ep.addr).pending, endpoints, cells₂, ?_, hbrk₂.trans hbrk₁,
      ⟨?_, rfl, ?_, ?_⟩⟩
    · have hptr : b.cell.1 = b.ptr := rfl
      simp [hat, hunlink, hptr, hdrop, hremove, hfree, Net.count]
    · rw [View.close_split hsplit haddr hk hm, List.map_append]
      exact Filed.drop_nil (k := _ :: k.map Box.ready) hfiled₂
    · rw [View.close_split hsplit haddr hk hm]
      have hnd := hr.endpoints.nodup
      rw [hsplit, List.map_append, List.map_cons, ptrs_append, ptrs_cons] at hnd
      have hnot : ∀ p ∈ ptrs ((k ++ m).map Box.cell), p ∉ [b.ptr] := by
        intro p hp hpb
        obtain rfl := List.mem_singleton.mp hpb
        rw [List.map_append, ptrs_append] at hp
        exact (List.nodup_cons.mp (List.perm_middle.nodup_iff.mp hnd)).1 hp
      exact (hchain.agree hagree₁ hnot).agree hagree₂ hnot
    · have hsub : ((v.close ep.addr).boxes.map Box.addr).Sublist (v.boxes.map Box.addr) :=
        List.filter_sublist.map _
      exact hr.addrs.sublist hsub

end Repr

end CBase.NetSim
