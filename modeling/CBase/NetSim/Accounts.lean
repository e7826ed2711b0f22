import CBase.NetSim.Integrity

/-!
# The representation invariant

`Consistent` is what the lists of the simulator have in common: addresses, destinations, tails and byte
counts. It holds after every run, as long as no byte count wraps, and then two defensive branches are
dead: `cb_netsim_step` finds no unbound destination, and `cb_netsim_recv_from` has nothing to clamp.
-/

namespace CBase.NetSim

open LinkedHeap

def load (l : List Copy) : Nat := (l.map fun c => c.2.len).sum

/-- The bytes pending for an address and ready there. -/
def inFlight (net : Net) (a : Addr) : Nat := load (pendingFor net a) + load ((readyList net a).getD [])

def endpointList (net : Net) : List Endpoint := (toList net.cells net.endpoints).map Prod.snd

def stored (net : Net) : List Copy :=
  pendingList net ++ (endpointList net).flatMap fun e => toList net.nodes e.readyHead

/-- The representation invariant. -/
structure Consistent (net : Net) : Prop where
  endpoints : Chain net.cells net.endpoints (toList net.cells net.endpoints)
  pending : Chain net.nodes net.pending (pendingList net)
  distinct : ((endpointList net).map Endpoint.addr).Nodup
  sorted : (pendingList net).Pairwise (·.2.scheduledNs ≤ ·.2.scheduledNs)
  bound : ∀ c ∈ pendingList net, ∃ e ∈ endpointList net, e.addr = c.2.dest
  empty : ∀ e ∈ endpointList net, e.readyHead = none ↔ e.readyTail = none
  tail : ∀ e ∈ endpointList net, ∃ l, Chain net.nodes e.readyHead l ∧ readyList net e.addr = some l ∧
    e.readyTail = l.getLast?.map Prod.fst
  bytes : ∀ e ∈ endpointList net, e.bytesInFlight.toNat = inFlight net e.addr

theorem load_append (k l : List Copy) : load (k ++ l) = load k + load l := by
  simp [load]

theorem load_perm {k l : List Copy} (h : k.Perm l) : load k = load l := (h.map _).sum_eq

theorem load_sublist {k l : List Copy} (h : k.Sublist l) : load k ≤ load l :=
  (h.map _).sum_le_sum (fun _ _ => Nat.zero_le _)

/-! ## Byte counts -/

namespace View

variable {v : View} {a addr : Addr} {b : Box} {c : Copy}

/-- The bytes pending for an address and ready there. -/
def inFlight (v : View) (a : Addr) : Nat :=
  load (Mailbox.bound dest a v.pending) + load (((v.box a).map Box.ready).getD [])

/-- Every byte count is the number of bytes in flight. -/
def Accounted (v : View) : Prop := ∀ a b, v.box a = some b → b.bytes.toNat = v.inFlight a

/-! What the operations do to the bytes in flight. -/

theorem inFlight_bind (hb : v.box addr = none) (p : Ptr) (a : Addr) :
    (v.bind p addr).inFlight a = v.inFlight a := by
  unfold inFlight
  rw [box_bind]
  by_cases ha : addr = a
  · subst ha
    rw [if_pos rfl, hb]
    rfl
  · rw [if_neg ha]
    rfl

theorem inFlight_close (a : Addr) :
    (v.close addr).inFlight a = if a = addr then 0 else v.inFlight a := by
  unfold inFlight
  rw [box_close]
  by_cases ha : a = addr
  · subst ha
    simp [close, Mailbox.bound, load]
  · rw [if_neg ha, if_neg ha]
    refine congrArg (load · + _) ?_
    exact Mailbox.bound_closed ha

theorem inFlight_post (a : Addr) :
    (v.post c).inFlight a = v.inFlight a + if a = dest c then c.2.len else 0 := by
  have hready : ((v.post c).box a).map Box.ready = (v.box a).map Box.ready := by
    have hboxes : (v.post c).mail.boxes = v.mail.boxes := by rw [mail_post]
    exact congrFun hboxes a
  have hpending : load (Mailbox.bound dest a (v.post c).pending) =
      load (Mailbox.bound dest a (c :: v.pending)) :=
    load_perm (Mailbox.bound_perm a (Mailbox.insert_perm c v.pending))
  unfold inFlight
  rw [hready, hpending]
  by_cases ha : dest c = a
  · simp [Mailbox.bound, load, ha]
    omega
  · simp [Mailbox.bound, ha, Ne.symm ha]

theorem inFlight_posts_le (cs : List Copy) (a : Addr) :
    v.inFlight a ≤ (cs.foldl post v).inFlight a := by
  induction cs generalizing v with
  | nil => exact Nat.le_refl _
  | cons c cs ih =>
    refine Nat.le_trans ?_ (ih (v := v.post c))
    rw [inFlight_post]
    exact Nat.le_add_right _ _

theorem inFlight_deliver (now : UInt64) (hopen : v.Open) (a : Addr) :
    (v.deliver now).inFlight a = v.inFlight a := by
  have hsplit : Mailbox.bound dest a (v.pending.takeWhile (due · ≤ now.toNat)) ++
      Mailbox.bound dest a (v.pending.dropWhile (due · ≤ now.toNat)) =
      Mailbox.bound dest a v.pending := Mailbox.bound_takeWhile_dropWhile ..
  unfold inFlight
  rw [box_deliver, Option.map_map, ← hsplit, load_append]
  cases hb : v.box a with
  | none =>
    have hnil : Mailbox.bound dest a v.pending = [] := hopen.bound_eq_nil hb
    rw [hnil, List.append_eq_nil_iff] at hsplit
    simp [deliver, hsplit.1, load]
  | some b =>
    simp [deliver, arrive, load_append, box_addr hb]
    omega

theorem inFlight_take (clamp : UInt64) {rest : List Copy} (hb : v.box addr = some b)
    (hready : b.ready = c :: rest) (a : Addr) :
    v.inFlight a = (v.take clamp addr).inFlight a + if a = addr then c.2.len else 0 := by
  have hboxes := (mail_take clamp hb hready).2
  have hready' : ((v.take clamp addr).box a).map Box.ready =
      Function.update v.mail.boxes addr (some rest) a :=
    congrFun (congrArg Mailbox.Mail.boxes hboxes) a
  have hpending : (v.take clamp addr).pending = v.pending := rfl
  unfold inFlight
  rw [hready', hpending]
  by_cases ha : a = addr
  · subst ha
    simp [hb, hready, load]
    omega
  · rw [Function.update_of_ne ha, if_neg ha]
    rfl

theorem inFlight_clear (a : Addr) : v.clear.inFlight a = 0 := by
  unfold inFlight
  rw [box_clear]
  cases v.box a <;> rfl

theorem Accounted.bind (h : v.Accounted) (hopen : v.Open) (hb : v.box addr = none) (p : Ptr) :
    (v.bind p addr).Accounted := by
  intro a b hbox
  rw [box_bind] at hbox
  rw [inFlight_bind hb]
  by_cases ha : addr = a
  · subst ha
    rw [if_pos rfl] at hbox
    cases hbox
    simp [inFlight, hopen.bound_eq_nil hb, hb, load]
  · rw [if_neg ha] at hbox
    exact h a b hbox

theorem Accounted.close (h : v.Accounted) : (v.close addr).Accounted := by
  intro a b hbox
  rw [box_close] at hbox
  rw [inFlight_close]
  by_cases ha : a = addr
  · rw [if_pos ha] at hbox
    cases hbox
  · rw [if_neg ha] at hbox ⊢
    exact h a b hbox

theorem Accounted.post (h : v.Accounted) (hfits : (v.post c).inFlight (dest c) < 2 ^ 64) :
    (v.post c).Accounted := by
  intro a b hbox
  rw [box_post] at hbox
  obtain ⟨b', hb', rfl⟩ := Option.map_eq_some_iff.mp hbox
  have hbytes := h a b' hb'
  rw [inFlight_post]
  by_cases ha : a = dest c
  · subst ha
    rw [inFlight_post, if_pos rfl] at hfits
    rw [if_pos rfl, if_pos rfl, charge, UInt64.toNat_add, UInt64.toNat_ofNat', hbytes,
      Nat.add_mod_mod]
    exact Nat.mod_eq_of_lt hfits
  · rw [if_neg ha, if_neg ha]
    exact hbytes

theorem Accounted.posts {cs : List Copy} (h : v.Accounted)
    (hfits : ∀ a, (cs.foldl View.post v).inFlight a < 2 ^ 64) : (cs.foldl View.post v).Accounted := by
  induction cs generalizing v with
  | nil => exact h
  | cons c cs ih =>
    refine ih (h.post ?_) hfits
    exact (inFlight_posts_le cs _).trans_lt (hfits _)

theorem Accounted.deliver (h : v.Accounted) (hopen : v.Open) (now : UInt64) :
    (v.deliver now).Accounted := by
  intro a b hbox
  rw [box_deliver] at hbox
  obtain ⟨b', hb', rfl⟩ := Option.map_eq_some_iff.mp hbox
  rw [inFlight_deliver now hopen]
  exact h a b' hb'

/-- The head of a ready FIFO is within the byte count. -/
theorem Accounted.head_le (h : v.Accounted) {rest : List Copy} (hb : v.box a = some b)
    (hready : b.ready = c :: rest) : UInt64.ofNat c.2.len ≤ b.bytes := by
  have hsplit := inFlight_take 0 hb hready a
  rw [if_pos rfl, ← h a b hb] at hsplit
  rw [UInt64.le_iff_toNat_le, UInt64.toNat_ofNat']
  refine (Nat.mod_le _ _).trans ?_
  omega

theorem Accounted.take (h : v.Accounted) {rest : List Copy} (hb : v.box addr = some b)
    (hready : b.ready = c :: rest) (clamp : UInt64) : (v.take clamp addr).Accounted := by
  intro a x hbox
  have hle := h.head_le hb hready
  have hsplit := inFlight_take clamp hb hready a
  rw [box_take] at hbox
  obtain ⟨x', hx', rfl⟩ := Option.map_eq_some_iff.mp hbox
  rw [← h a x' hx'] at hsplit
  by_cases ha : a = addr
  · subst ha
    obtain rfl : x' = b := Option.some.inj (hx'.symm.trans hb)
    have hlt : c.2.len < 2 ^ 64 := by
      have hbytes := x'.bytes.toNat_lt
      rw [if_pos rfl] at hsplit
      omega
    rw [if_pos rfl] at hsplit ⊢
    simp only [pop, hready, if_pos hle]
    rw [UInt64.toNat_sub_of_le _ _ hle, UInt64.toNat_ofNat_of_lt' hlt]
    omega
  · rw [if_neg ha] at hsplit ⊢
    exact hsplit

theorem Accounted.clear : v.clear.Accounted := by
  intro a b hbox
  rw [box_clear] at hbox
  obtain ⟨b', hb', rfl⟩ := Option.map_eq_some_iff.mp hbox
  rw [inFlight_clear]
  rfl

theorem box_of_mem (hnd : (v.boxes.map Box.addr).Nodup) (hb : b ∈ v.boxes) : v.box b.addr = some b := by
  obtain ⟨b', hb'⟩ := Option.isSome_iff_exists.mp (box_isSome.mpr ⟨b, hb, rfl⟩)
  have hsame : b' = b :=
    List.inj_on_of_nodup_map hnd (List.mem_of_find?_eq_some hb') hb (box_addr hb')
  rw [hb', hsame]

end View

/-- A call keeps the byte counts right, if none of them wraps. -/
theorem Effect.accounted {env : Env} {s s' : Sim} {act : Call × Reply} (h : Effect env s act s')
    (hopen : s.Open) (hacc : s.Accounted) (hfits : ∀ a, s'.inFlight a < 2 ^ 64) : s'.Accounted := by
  cases h with
  | bound hb => exact hacc.bind hopen hb _
  | closed => exact hacc.close
  | sent hadmitted hb hroom hdrop hsent =>
    rw [hsent.frame.view] at hfits ⊢
    exact hacc.posts hfits
  | stepped => exact hacc.deliver hopen _
  | received hat hb hready => exact hacc.take hb hready 0
  | flushed => exact .clear
  | _ => exact hacc

namespace Laid

variable {env : Env} {net : Net} {v : View}

theorem inFlight_eq (h : Laid net v) (a : Addr) : inFlight net a = v.inFlight a := by
  unfold inFlight pendingFor
  rw [h.pendingList_eq, h.readyList_eq]
  rfl

theorem endpointList_eq (h : Laid net v) : endpointList net = v.boxes.map (·.cell.2) := by
  have hlist : toList net.cells net.endpoints = v.boxes.map Box.cell := toList_chain h.repr.endpoints
  rw [endpointList, hlist, List.map_map]
  rfl

theorem stored_eq (h : Laid net v) : stored net = v.copies := by
  have hready : v.boxes.map (fun b => toList net.nodes b.cell.2.readyHead) = v.boxes.map Box.ready :=
    List.map_congr_left fun b hb =>
      toList_chain (h.repr.nodes.chain b.ready (List.mem_cons_of_mem _ (List.mem_map_of_mem hb)))
  unfold stored View.copies
  rw [h.pendingList_eq, h.endpointList_eq, List.flatMap_map, List.flatMap_def, hready]
  rfl

theorem inFlight_le (h : Laid net v) (a : Addr) : inFlight net a ≤ load (stored net) := by
  rw [h.inFlight_eq, h.stored_eq]
  unfold View.copies
  rw [List.flatten_cons, load_append]
  refine Nat.add_le_add (load_sublist List.filter_sublist) ?_
  cases hb : v.box a with
  | none => exact Nat.zero_le _
  | some b =>
    have hin : b ∈ v.boxes := List.mem_of_find?_eq_some hb
    exact load_sublist (List.sublist_flatten_of_mem (List.mem_map_of_mem hin))

theorem consistent (h : Laid net v) (hacc : v.Accounted) : Consistent net := by
  have hendpoints : toList net.cells net.endpoints = v.boxes.map Box.cell := toList_chain h.repr.endpoints
  have hlist := h.endpointList_eq
  have hbox {e : Endpoint} (he : e ∈ endpointList net) :
      ∃ b ∈ v.boxes, e = b.cell.2 ∧ v.box b.addr = some b := by
    rw [hlist] at he
    obtain ⟨b, hb, rfl⟩ := List.mem_map.mp he
    exact ⟨b, hb, rfl, View.box_of_mem h.repr.addrs hb⟩
  refine ⟨?_, ?_, ?_, ?_, fun c hc => ?_, fun e he => ?_, fun e he => ?_, fun e he => ?_⟩
  · rw [hendpoints]
    exact h.repr.endpoints
  · rw [h.pendingList_eq, h.repr.pending]
    exact h.repr.nodes.chain _ List.mem_cons_self
  · rw [hlist, List.map_map]
    exact h.repr.addrs
  · rw [h.pendingList_eq]
    exact h.wf.sorted.imp fun hle => UInt64.le_iff_toNat_le.mpr hle
  · rw [h.pendingList_eq] at hc
    obtain ⟨b, hb, haddr⟩ := h.open' c hc
    exact ⟨b.cell.2, by rw [hlist]; exact List.mem_map_of_mem hb, haddr⟩
  · obtain ⟨b, -, rfl, -⟩ := hbox he
    simp [Box.cell, start]
  · obtain ⟨b, hb, rfl, hfind⟩ := hbox he
    refine ⟨b.ready, h.repr.nodes.chain _ ?_, ?_, rfl⟩
    · exact List.mem_cons_of_mem _ (List.mem_map_of_mem hb)
    · rw [h.readyList_eq]
      exact congrArg (Option.map Box.ready) hfind
  · obtain ⟨b, hb, rfl, hfind⟩ := hbox he
    rw [h.inFlight_eq]
    exact hacc b.addr b hfind

/-- The branch for unbound destinations does not matter. -/
theorem stepWith_unbound (h : Laid net v) (unbound : Net → Ptr → Option Net) :
    stepWith unbound env net = NetSim.step env net := by
  obtain ⟨nodes, pending, cells, hstep, -⟩ := h.repr.stepWith h.open' env
  rw [NetSim.step, hstep unbound, hstep dropSilently]

/-- The value to clamp to does not matter. -/
theorem recvWith_clamp (h : Laid net v) (hacc : v.Accounted) (clamp : UInt64) (ep : Option Handle)
    (outSrc outBuf : Bool) (outCap : Nat) (outLen : Bool) :
    recvWith clamp net ep outSrc outBuf outCap outLen = recvFrom net ep outSrc outBuf outCap outLen := by
  unfold recvFrom recvWith
  cases ep with
  | none => rfl
  | some ep =>
    have hfind := h.repr.find ep.addr
    cases hb : v.box ep.addr with
    | none =>
      rw [hb, Option.map_none] at hfind
      simp [hfind]
    | some b =>
      rw [hb, Option.map_some] at hfind
      obtain ⟨k, m, hsplit, -⟩ := View.box_split h.repr.addrs hb
      obtain ⟨r, hcell⟩ := h.repr.cell (b := b) (by simp [hsplit])
      cases hready : b.ready with
      | nil =>
        have hhead : b.cell.2.readyHead = none := by simp [Box.cell, hready]
        simp [hfind, hcell, hhead]
      | cons c rest =>
        have hle : UInt64.ofNat c.2.len ≤ b.cell.2.bytesInFlight := hacc.head_le hb hready
        have hhead : b.cell.2.readyHead = some c.1 := by simp [Box.cell, hready]
        have hchain := h.repr.nodes.chain b.ready (by simp [hsplit])
        rw [hready] at hchain
        obtain ⟨-, next, hp, -⟩ := hchain
        have hmod (clamp : UInt64) := Heap.modify_congr hcell (f := fun e => { e with
            readyHead := next
            readyTail := if next = none then none else e.readyTail
            bytesInFlight := if UInt64.ofNat c.2.len ≤ e.bytesInFlight
              then e.bytesInFlight - UInt64.ofNat c.2.len else clamp }) (g := fun e => { e with
            readyHead := next
            readyTail := if next = none then none else e.readyTail
            bytesInFlight := e.bytesInFlight - UInt64.ofNat c.2.len }) (by simp [hle])
        simp [hfind, hcell, hhead, hp, hmod]

/-- Neither the branch for unbound destinations nor the clamp matters. -/
theorem execWith_eq (h : Laid net v) (hacc : v.Accounted) (unbound : Net → Ptr → Option Net)
    (clamp : UInt64) (call : Call) : execWith unbound clamp env net call = NetSim.exec env net call := by
  cases call with
  | step => exact congrArg (Option.map _) (h.stepWith_unbound unbound)
  | recv ep outSrc outBuf outCap outLen =>
    exact congrArg (Option.map _) (h.recvWith_clamp hacc clamp ep outSrc outBuf outCap outLen)
  | _ => rfl

end Laid

section Runs

variable {env : Env} {seed : UInt64} {params : Params} {net : Net} {h : Calls}

theorem Run.accounted (hrun : Run (Exec env) (create seed params) h net)
    (hfits : ∀ t ∈ h, ∀ a, inFlight t.post a < 2 ^ 64) : ∃ v, Laid net v ∧ v.Accounted := by
  refine hrun.invariant_hist (fun h net => (∀ t ∈ h, ∀ a, inFlight t.post a < 2 ^ 64) →
    ∃ v, Laid net v ∧ v.Accounted) (fun _ => ⟨.empty, .create seed params, nofun⟩) ?_ hfits
  rintro h net act net' - ih hexec hfits
  obtain ⟨v, hlaid, hacc⟩ := ih fun t ht => hfits t (List.mem_append_left _ ht)
  obtain ⟨v', hlaid', heffect⟩ := hlaid.exec hexec
  refine ⟨v', hlaid', heffect.accounted hlaid.open' hacc fun a => ?_⟩
  have hfit := hfits _ (List.mem_append_right _ (List.mem_singleton_self _)) a
  rw [hlaid'.inFlight_eq] at hfit
  exact hfit

/-- The representation invariant holds in every state that a run reaches, whatever memory it gets, and
the defensive branches of `cb_netsim_step` and `cb_netsim_recv_from` are never taken. -/
theorem representation_invariant (hrun : Run (Exec env) (create seed params) h net)
    (hfits : ∀ t ∈ h, ∀ a, inFlight t.post a < 2 ^ 64) :
    Consistent net ∧ ∀ unbound clamp call, execWith unbound clamp env net call = exec env net call := by
  obtain ⟨v, hlaid, hacc⟩ := Run.accounted hrun hfits
  exact ⟨hlaid.consistent hacc, fun unbound clamp call => hlaid.execWith_eq hacc unbound clamp call⟩

/-- Two datagrams are sent and one of them is ready. -/
theorem representation_invariant_ready :
    ∃ h net, Run (Exec (still 0)) (create 0 calm) h net ∧ (stored net).length = 2 ∧ Consistent net := by
  let ep : Handle := ⟨.ok, true, ⟨1, 2⟩⟩
  let calls : List Call := [.bind ⟨1, 2⟩, .send (some ep) ⟨1, 2⟩ [7], .step,
    .send (some ep) ⟨1, 2⟩ [8, 9]]
  obtain ⟨h, net, hrun, hstored, hload⟩ := @script_reaches (still 0) (create 0 calm)
    (fun h net => (stored net).length = 2 ∧ ∀ t ∈ h, load (stored t.post) < 2 ^ 64) _ calls
    (by decide +kernel)
  refine ⟨h, net, hrun, hstored, (representation_invariant hrun fun t ht a => ?_).1⟩
  obtain ⟨h₁, h₂, rfl⟩ := List.append_of_mem ht
  obtain ⟨-, -, v', -, hlaid', -⟩ := Run.entry hrun
  exact (hlaid'.inFlight_le a).trans_lt (hload t ht)

end Runs

end CBase.NetSim
