import CBase.Lib.LinkedShape
import CBase.NetSim.Accounts

/-!
# The memory of the simulator

A datagram and its payload are one cell, so freeing a node frees both. The memory is that of `malloc`: an
arena takes nothing back, and what is freed here is left to its reset.

* `exec_sole`: after every call the list of endpoints has every endpoint that is allocated.
* `Kept.destroy`: `cb_netsim_destroy` frees all that is allocated.
* `memory_discipline`: over any sequence of calls with `cb_netsim_destroy` among them.
-/

namespace CBase.NetSim

open LinkedHeap

/-! ## Destroy -/

/-- The second loop of `cb_netsim_destroy`. -/
def destroyLoop : Nat → Net → Option Ptr → Option Net
  | _, net, none => some net
  | 0, _, some _ => none
  | n + 1, net, some e => do
    let c ← net.cells.cell e
    let net ← dropEndpointReady net e
    let cells ← net.cells.free e
    destroyLoop n { net with cells } c.next

def destroy (net : Net) : Option Net := do
  let nodes ← freeAll net.nodes net.pending
  let net ← destroyLoop net.cells.brk { net with nodes, pending := none } net.endpoints
  return { net with endpoints := none }

/-! ## The links of the endpoints -/

/-- The call leaves the endpoints where they are. -/
def Stays (net net' : Net) : Prop := net'.endpoints = net.endpoints ∧ SameLinks net.cells net'.cells

namespace Stays

variable {env : Env} {net net' net'' : Net}

theorem refl (net : Net) : Stays net net := ⟨rfl, .refl _⟩

theorem trans (h₁ : Stays net net') (h₂ : Stays net' net'') : Stays net net'' :=
  ⟨h₂.1.trans h₁.1, h₁.2.trans h₂.2⟩

/-- The rest of a call, after changes elsewhere. -/
theorem onward (h : Stays net' net'') (hendpoints : net'.endpoints = net.endpoints)
    (hcells : net'.cells = net.cells) : Stays net net'' := by
  rw [Stays, hendpoints, hcells] at h
  exact h

theorem sole (h : Stays net net') (hs : Sole net.cells net.endpoints) :
    Sole net'.cells net'.endpoints := by
  rw [h.1]
  exact hs.sameLinks h.2

theorem dropEndpointReady {ep : Ptr} (h : NetSim.dropEndpointReady net ep = some net') :
    Stays net net' := by
  unfold NetSim.dropEndpointReady at h
  obtain ⟨e, -, h⟩ := Option.bind_eq_some_iff.mp h
  obtain ⟨nodes, -, h⟩ := Option.bind_eq_some_iff.mp h
  obtain ⟨cells, hmod, h⟩ := Option.bind_eq_some_iff.mp h
  cases h
  exact ⟨rfl, .modify hmod⟩

theorem pendingInsert {node : Ptr} (h : NetSim.pendingInsert net node = some net') : Stays net net' := by
  unfold NetSim.pendingInsert at h
  obtain ⟨nodes, -, h⟩ := Option.bind_eq_some_iff.mp h
  split at h
  · cases h
    exact ⟨rfl, .refl _⟩
  · obtain ⟨n, -, h⟩ := Option.bind_eq_some_iff.mp h
    obtain ⟨f, -, h⟩ := Option.bind_eq_some_iff.mp h
    split at h
    · obtain ⟨nodes, -, h⟩ := Option.bind_eq_some_iff.mp h
      cases h
      exact ⟨rfl, .refl _⟩
    · obtain ⟨cur, -, h⟩ := Option.bind_eq_some_iff.mp h
      obtain ⟨c, -, h⟩ := Option.bind_eq_some_iff.mp h
      obtain ⟨nodes, -, h⟩ := Option.bind_eq_some_iff.mp h
      obtain ⟨nodes', -, h⟩ := Option.bind_eq_some_iff.mp h
      cases h
      exact ⟨rfl, .refl _⟩

theorem enqueueNode {node : Ptr} (h : NetSim.enqueueNode net node = some net') : Stays net net' := by
  unfold NetSim.enqueueNode at h
  obtain ⟨n, -, h⟩ := Option.bind_eq_some_iff.mp h
  obtain ⟨net₁, hcharge, h⟩ := Option.bind_eq_some_iff.mp h
  refine Stays.trans ?_ (pendingInsert h)
  unfold chargeEndpoint at hcharge
  obtain ⟨ep, -, hcharge⟩ := Option.bind_eq_some_iff.mp hcharge
  split at hcharge
  · cases hcharge
    exact .refl _
  · obtain ⟨cells, hmod, hcharge⟩ := Option.bind_eq_some_iff.mp hcharge
    cases hcharge
    exact ⟨rfl, .modify hmod⟩

theorem allocNode {node : Node} {buf : List UInt8} {p : Option Ptr}
    (h : NetSim.allocNode env net node buf = some (p, net')) : Stays net net' := by
  unfold NetSim.allocNode at h
  cases hnode : env.memory net.requests with
  | false =>
    simp [Net.request, hnode] at h
    obtain ⟨-, rfl⟩ := h
    exact ⟨rfl, .refl _⟩
  | true =>
    by_cases hbuf : buf = []
    · simp [Net.request, hnode, hbuf] at h
      obtain ⟨-, rfl⟩ := h
      exact ⟨rfl, .refl _⟩
    cases hpayload : env.memory (net.requests + 1) with
    | false =>
      simp [Net.request, hnode, hbuf, hpayload] at h
      obtain ⟨nodes, -, h⟩ := Option.bind_eq_some_iff.mp h
      cases h
      exact ⟨rfl, .refl _⟩
    | true =>
      simp [Net.request, hnode, hbuf, hpayload] at h
      obtain ⟨nodes, -, h⟩ := Option.bind_eq_some_iff.mp h
      cases h
      exact ⟨rfl, .refl _⟩

theorem corruptRoll {node : Ptr} {len : Nat} {flip : Option UInt32}
    (h : NetSim.corruptRoll net node len = some (flip, net')) : Stays net net' := by
  unfold NetSim.corruptRoll at h
  obtain ⟨⟨f, rng⟩, -, h⟩ := Option.bind_eq_some_iff.mp h
  cases f with
  | none =>
    cases h
    exact ⟨rfl, .refl _⟩
  | some bit =>
    obtain ⟨nodes, -, h⟩ := Option.bind_eq_some_iff.mp h
    cases h
    exact ⟨rfl, .refl _⟩

theorem reorderRoll {node : Ptr} {swap : Option Int32}
    (h : NetSim.reorderRoll net node = some (swap, net')) : Stays net net' := by
  unfold NetSim.reorderRoll at h
  obtain ⟨⟨f, rng⟩, -, h⟩ := Option.bind_eq_some_iff.mp h
  cases f with
  | none =>
    cases h
    exact ⟨rfl, .refl _⟩
  | some ms =>
    obtain ⟨nodes, -, h⟩ := Option.bind_eq_some_iff.mp h
    cases h
    exact ⟨rfl, .refl _⟩

theorem sendCopy {src dest : Addr} {buf : List UInt8} {now : UInt64} {rolls : Option Rolls}
    (h : NetSim.sendCopy env net src dest buf now = some (rolls, net')) : Stays net net' := by
  unfold NetSim.sendCopy at h
  obtain ⟨⟨lms, rng⟩, -, h⟩ := Option.bind_eq_some_iff.mp h
  obtain ⟨⟨copy, net₁⟩, hcopy, h⟩ := Option.bind_eq_some_iff.mp h
  cases h
  refine Stays.onward (?_ : Stays { net with rng } net') rfl rfl
  unfold enqueueCopy at hcopy
  obtain ⟨⟨node, net₂⟩, halloc, hcopy⟩ := Option.bind_eq_some_iff.mp hcopy
  refine (allocNode halloc).trans ?_
  cases node with
  | none =>
    cases hcopy
    exact .refl _
  | some node =>
    obtain ⟨⟨flip, net₃⟩, hflip, hcopy⟩ := Option.bind_eq_some_iff.mp hcopy
    obtain ⟨⟨swap, net₄⟩, hswap, hcopy⟩ := Option.bind_eq_some_iff.mp hcopy
    obtain ⟨net₅, hnode, hcopy⟩ := Option.bind_eq_some_iff.mp hcopy
    cases hcopy
    exact ((corruptRoll hflip).trans (reorderRoll hswap)).trans (enqueueNode hnode)

theorem sendCopies {src dest : Addr} {buf : List UInt8} {out : Info × List Rolls}
    (h : NetSim.sendCopies env net src dest buf = some (out, net')) : Stays net net' := by
  unfold NetSim.sendCopies at h
  simp only [Net.now] at h
  obtain ⟨⟨primary, net₁⟩, hprimary, h⟩ := Option.bind_eq_some_iff.mp h
  have hfirst : Stays net net₁ := (sendCopy hprimary).onward rfl rfl
  refine hfirst.trans ?_
  cases primary with
  | none =>
    cases h
    exact .refl _
  | some primary =>
    simp only at h
    split at h
    · cases h
      exact ⟨rfl, .refl _⟩
    · obtain ⟨⟨second, net₂⟩, hsecond, h⟩ := Option.bind_eq_some_iff.mp h
      have hsent := sendCopy hsecond
      cases second with
      | none =>
        cases h
        exact hsent
      | some second =>
        cases h
        exact hsent

theorem sendTo {ep : Option Handle} {dest : Addr} {buf : List UInt8} {out : Info × List Rolls}
    (h : NetSim.sendTo env net ep dest buf = some (out, net')) : Stays net net' := by
  unfold NetSim.sendTo at h
  cases ep with
  | none =>
    cases h
    exact .refl _
  | some ep =>
    simp only at h
    split at h
    · cases h
      exact .refl _
    split at h
    · cases h
      exact .refl _
    obtain ⟨found, -, h⟩ := Option.bind_eq_some_iff.mp h
    cases found with
    | none =>
      cases h
      exact ⟨rfl, .refl _⟩
    | some p =>
      obtain ⟨e, -, h⟩ := Option.bind_eq_some_iff.mp h
      split at h
      · cases h
        exact ⟨rfl, .refl _⟩
      split at h
      · cases h
        exact ⟨rfl, .refl _⟩
      · exact (sendCopies h).onward rfl rfl

theorem stepLoop {now : UInt64} {n : Nat} {moved moved' : UInt32}
    (h : NetSim.stepLoop dropSilently now n net moved = some (moved', net')) : Stays net net' := by
  induction n generalizing net moved with
  | zero => cases h
  | succ n ih =>
    unfold NetSim.stepLoop at h
    split at h
    · cases h
      exact .refl _
    · obtain ⟨c, -, h⟩ := Option.bind_eq_some_iff.mp h
      split at h
      · obtain ⟨nodes, -, h⟩ := Option.bind_eq_some_iff.mp h
        obtain ⟨found, -, h⟩ := Option.bind_eq_some_iff.mp h
        cases found with
        | none =>
          obtain ⟨net₁, hdrop, h⟩ := Option.bind_eq_some_iff.mp h
          unfold dropSilently at hdrop
          obtain ⟨nodes', -, hdrop⟩ := Option.bind_eq_some_iff.mp hdrop
          cases hdrop
          exact (ih h).onward rfl rfl
        | some ep =>
          obtain ⟨net₁, happend, h⟩ := Option.bind_eq_some_iff.mp h
          refine Stays.trans ?_ (ih h)
          unfold appendReady at happend
          obtain ⟨e, -, happend⟩ := Option.bind_eq_some_iff.mp happend
          split at happend
          · obtain ⟨nodes', -, happend⟩ := Option.bind_eq_some_iff.mp happend
            obtain ⟨cells, hmod, happend⟩ := Option.bind_eq_some_iff.mp happend
            cases happend
            exact ⟨rfl, .modify hmod⟩
          · obtain ⟨cells, hmod, happend⟩ := Option.bind_eq_some_iff.mp happend
            cases happend
            exact ⟨rfl, .modify hmod⟩
      · cases h
        exact .refl _

theorem recvFrom {ep : Option Handle} {outSrc outBuf outLen : Bool} {outCap : Nat} {r : Received}
    (h : NetSim.recvFrom net ep outSrc outBuf outCap outLen = some (r, net')) : Stays net net' := by
  unfold NetSim.recvFrom recvWith at h
  cases ep with
  | none =>
    cases h
    exact .refl _
  | some ep =>
    simp only at h
    split at h
    · cases h
      exact .refl _
    obtain ⟨found, -, h⟩ := Option.bind_eq_some_iff.mp h
    cases found with
    | none =>
      cases h
      exact .refl _
    | some e =>
      obtain ⟨c, -, h⟩ := Option.bind_eq_some_iff.mp h
      split at h
      · cases h
        exact .refl _
      · obtain ⟨n, -, h⟩ := Option.bind_eq_some_iff.mp h
        split at h
        · cases h
          exact .refl _
        · obtain ⟨cells, hmod, h⟩ := Option.bind_eq_some_iff.mp h
          obtain ⟨nodes, -, h⟩ := Option.bind_eq_some_iff.mp h
          cases h
          exact ⟨rfl, .modify hmod⟩

theorem flush (h : NetSim.flush net = some net') : Stays net net' := by
  unfold NetSim.flush at h
  obtain ⟨nodes, -, h⟩ := Option.bind_eq_some_iff.mp h
  have hloop : ∀ (n : Nat) (net : Net) (p : Option Ptr), flushLoop n net p = some net' → Stays net net' := by
    intro n
    induction n with
    | zero =>
      intro net p h
      cases p with
      | none =>
        cases h
        exact .refl _
      | some e => cases h
    | succ n ih =>
      intro net p h
      cases p with
      | none =>
        cases h
        exact .refl _
      | some e =>
        obtain ⟨net₁, hdrop, h⟩ := Option.bind_eq_some_iff.mp h
        obtain ⟨c, -, h⟩ := Option.bind_eq_some_iff.mp h
        exact (Stays.dropEndpointReady hdrop).trans (ih _ _ h)
  exact (hloop _ _ _ h).onward rfl rfl

end Stays

/-! ## Calls -/

section Calls

variable {env : Env} {net net' : Net}

theorem bind_sole {addr : Addr} {ep : Handle} (hs : Sole net.cells net.endpoints)
    (h : bind env net addr = some (ep, net')) : Sole net'.cells net'.endpoints := by
  unfold bind at h
  obtain ⟨found, -, h⟩ := Option.bind_eq_some_iff.mp h
  cases found with
  | some p =>
    cases h
    exact hs
  | none =>
    cases hmem : env.memory net.requests with
    | false =>
      simp [Net.request, hmem] at h
      obtain ⟨-, rfl⟩ := h
      exact hs
    | true =>
      simp [Net.request, hmem] at h
      obtain ⟨-, rfl⟩ := h
      exact hs.alloc _

theorem close_sole {ep ep' : Option Handle} (hs : Sole net.cells net.endpoints)
    (h : close net ep = some (ep', net')) : Sole net'.cells net'.endpoints := by
  unfold close at h
  cases ep with
  | none =>
    cases h
    exact hs
  | some ep =>
    simp only at h
    split at h
    · cases h
      exact hs
    obtain ⟨⟨found, endpoints, cells⟩, hunlink, h⟩ := Option.bind_eq_some_iff.mp h
    cases found with
    | none =>
      cases h
      exact hs.unlinkNone hunlink
    | some e =>
      obtain ⟨net₁, hdrop, h⟩ := Option.bind_eq_some_iff.mp h
      obtain ⟨⟨n, pending, nodes⟩, -, h⟩ := Option.bind_eq_some_iff.mp h
      obtain ⟨cells', hfree, h⟩ := Option.bind_eq_some_iff.mp h
      cases h
      obtain ⟨hend, hlinks⟩ := Stays.dropEndpointReady hdrop
      show Sole cells' net₁.endpoints
      rw [hend]
      exact hs.unlinkFirst hunlink hlinks hfree

theorem exec_sole {call : Call} {reply : Reply} (hs : Sole net.cells net.endpoints)
    (h : exec env net call = some (reply, net')) : Sole net'.cells net'.endpoints := by
  unfold exec execWith at h
  cases call with
  | bind addr =>
    obtain ⟨⟨ep, net₁⟩, hbind, heq⟩ := Option.map_eq_some_iff.mp h
    cases heq
    exact bind_sole hs hbind
  | close ep =>
    obtain ⟨⟨ep', net₁⟩, hclose, heq⟩ := Option.map_eq_some_iff.mp h
    cases heq
    exact close_sole hs hclose
  | send ep dest buf =>
    obtain ⟨⟨out, net₁⟩, hsend, heq⟩ := Option.map_eq_some_iff.mp h
    cases heq
    exact (Stays.sendTo hsend).sole hs
  | step =>
    obtain ⟨⟨moved, net₁⟩, hstep, heq⟩ := Option.map_eq_some_iff.mp h
    cases heq
    exact ((Stays.stepLoop hstep).onward rfl rfl).sole hs
  | recv ep outSrc outBuf outCap outLen =>
    obtain ⟨⟨r, net₁⟩, hrecv, heq⟩ := Option.map_eq_some_iff.mp h
    cases heq
    exact (Stays.recvFrom hrecv).sole hs
  | setParams params =>
    cases hok : paramsOk params with
    | false =>
      simp [setParams, hok] at h
      obtain ⟨-, rfl⟩ := h
      exact hs
    | true =>
      simp [setParams, hok] at h
      obtain ⟨-, rfl⟩ := h
      exact hs
  | flush =>
    obtain ⟨net₁, hflush, heq⟩ := Option.map_eq_some_iff.mp h
    cases heq
    exact (Stays.flush hflush).sole hs

end Calls

/-! ## All of the memory -/

/-- What is allocated is in the lists. -/
structure Kept (net : Net) (v : View) : Prop where
  laid : Laid net v
  sole : Sole net.cells net.endpoints

namespace Kept

variable {env : Env} {net : Net} {v : View}

theorem exec (h : Kept net v) (env : Env) (call : Call) :
    ∃ reply net' v', NetSim.exec env net call = some (reply, net') ∧ Kept net' v' := by
  obtain ⟨reply, net', -, hexec, -⟩ := h.laid.repr.exec_spec h.laid.open' env call
  obtain ⟨v', hlaid, -⟩ := @Laid.exec env net net' v (call, reply) h.laid hexec
  exact ⟨reply, net', v', hexec, hlaid, exec_sole h.sole hexec⟩

theorem destroyLoop {n : Nat} {p : Option Ptr} {boxes : List Box}
    (hnodes : Filed net.nodes [] (boxes.map Box.ready)) (hp : Chain net.cells p (boxes.map Box.cell))
    (hcells : Contents net.cells (boxes.map Box.cell)) (hn : boxes.length ≤ n) :
    ∃ nodes cells, NetSim.destroyLoop n net p = some { net with nodes, cells } ∧
      Contents nodes [] ∧ Contents cells [] := by
  induction boxes generalizing n p net with
  | nil =>
    obtain rfl : p = none := hp
    exact ⟨net.nodes, net.cells, by cases n <;> rfl, hnodes.contents, hcells⟩
  | cons b boxes ih =>
    have hnd := hp.nodup
    obtain ⟨rfl, r, hcell, htail⟩ := hp
    cases n with
    | zero => cases hn
    | succ n =>
      obtain ⟨cells₁, hmod, hcell₁, hagree₁⟩ := Heap.modify_spec hcell
        (fun e => { e with readyHead := none, readyTail := none, bytesInFlight := 0 })
      obtain ⟨nodes, hdrop, -, hfiled⟩ := Repr.dropReady (k := []) net hcell rfl hnodes hmod
      obtain ⟨cells₂, hfree, -, hagree₂⟩ := Heap.free_spec hcell₁
      have hcontents := (Contents.modify (k := []) hcells hmod).free hfree
      have hother : ∀ q ∈ ptrs (boxes.map Box.cell), q ∉ [b.ptr] := fun q hq hqb => by
        rw [List.mem_singleton.mp hqb] at hq
        exact (List.nodup_cons.mp hnd).1 hq
      have htail' := Seg.agree (Seg.agree htail hagree₁ hother) hagree₂ hother
      obtain ⟨nodes', cells', hloop, hempty⟩ := @ih { net with nodes, cells := cells₂ } n r
        (Filed.drop_nil (k := []) hfiled) htail' hcontents (Nat.le_of_succ_le_succ hn)
      refine ⟨nodes', cells', ?_, hempty⟩
      simp [NetSim.destroyLoop, hcell, hdrop, hfree, hloop]

/-- Nothing is left. -/
theorem destroy (h : Kept net v) : ∃ net', NetSim.destroy net = some net' ∧ Kept net' .empty ∧
    (∀ p, net'.nodes.cell p = none) ∧ ∀ p, net'.cells.cell p = none := by
  have hrepr := h.laid.repr
  obtain ⟨nodes, hfree, -, hfiled⟩ := Filed.freeAll (k := []) hrepr.nodes
  rw [← hrepr.pending] at hfree
  have hcells := h.sole.contents hrepr.endpoints
  have hlen : v.boxes.length ≤ net.cells.brk := by simpa using hrepr.endpoints.length_le_brk
  obtain ⟨nodes', cells, hloop, hnodes', hcells'⟩ :=
    @destroyLoop { net with nodes, pending := none } _ _ v.boxes (Filed.drop_nil (k := []) hfiled) hrepr.endpoints hcells hlen
  have hnone {α : Type} {heap : Heap α} (hc : Contents heap []) (p : Ptr) : heap.cell p = none := by
    by_contra hp
    cases (hc.mem_ptrs_iff (a := p)).mpr (Option.isSome_iff_ne_none.mpr hp)
  refine ⟨{ net with nodes := nodes', cells, pending := none, endpoints := none },
    by simp [NetSim.destroy, hfree, hloop], ⟨⟨⟨?_, rfl, rfl, .nil⟩, ⟨.nil, nofun⟩⟩, ?_⟩,
    hnone hnodes', hnone hcells'⟩
  · exact ⟨fun l hl => by rw [List.mem_singleton.mp hl]; exact rfl, hnodes'⟩
  · exact ⟨[], rfl, hcells'⟩

end Kept

/-! ## Runs -/

/-- A call on the simulator, or `cb_netsim_destroy`. -/
inductive Act where
  | call (call : Call)
  | destroy

def Act.run (env : Env) (net : Net) : Act → Option Net
  | call c => (exec env net c).map Prod.snd
  | destroy => NetSim.destroy net

end CBase.NetSim
