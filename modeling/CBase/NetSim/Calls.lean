import CBase.NetSim.View

/-!
# Calls on the simulator

`exec` is one call. `Sim` is the simulator without its pointers, and `Effect` what a call does to it:
`exec_spec` says that every call on a simulator that is laid out as a view has a result, and that this
result is an effect of the call.

A send is `refused`, finds its destination `unbound` or `full`, is `dropped`, or enqueues copies
(`Sent`), each with its own rolls.
-/

namespace CBase.NetSim

open LinkedHeap

/-! ## One call -/

inductive Call where
  | bind (addr : Addr)
  | close (ep : Option Handle)
  | send (ep : Option Handle) (dest : Addr) (buf : List UInt8)
  | step
  | recv (ep : Option Handle) (outSrc outBuf : Bool) (outCap : Nat) (outLen : Bool)
  | setParams (params : Params)
  | flush

def Call.isSend : Call → Bool
  | .send _ _ _ => true
  | _ => false

inductive Reply where
  | handle (ep : Handle)
  | closed (ep : Option Handle)
  | sent (info : Info) (rolls : List Rolls)
  | moved (n : UInt32)
  | received (r : Received)
  | info (info : Info)
  | flushed

/-- The rolls of the copies that a call enqueued. -/
def Reply.rolls : Reply → List Rolls
  | .sent _ rolls => rolls
  | _ => []

/-- A call, with any branch of `cb_netsim_step` for unbound destinations and any value in place of the 0
that `cb_netsim_recv_from` clamps to. -/
def execWith (unbound : Net → Ptr → Option Net) (clamp : UInt64) (env : Env) (net : Net) :
    Call → Option (Reply × Net)
  | .bind addr => (bind env net addr).map fun (ep, net) => (.handle ep, net)
  | .close ep => (close net ep).map fun (ep, net) => (.closed ep, net)
  | .send ep dest buf =>
    (sendTo env net ep dest buf).map fun ((info, rolls), net) => (.sent info rolls, net)
  | .step => (stepWith unbound env net).map fun (moved, net) => (.moved moved, net)
  | .recv ep outSrc outBuf outCap outLen =>
    (recvWith clamp net ep outSrc outBuf outCap outLen).map fun (r, net) => (.received r, net)
  | .setParams params => some (.info (setParams net params).1, (setParams net params).2)
  | .flush => (flush net).map fun net => (.flushed, net)

def exec (env : Env) (net : Net) (call : Call) : Option (Reply × Net) :=
  execWith dropSilently 0 env net call

/-- The call `act.1` with the reply `act.2`. -/
def Exec (env : Env) (net : Net) (act : Call × Reply) (net' : Net) : Prop :=
  exec env net act.1 = some (act.2, net')

/-! ## What a call does -/

/-- The simulator without its pointers. `brk` is the number of datagrams allocated so far. -/
structure Sim extends View where
  rng : Rng
  params : Params
  stats : Stats
  readings : Nat
  requests : Nat
  brk : Nat

def Net.sim (net : Net) (v : View) : Sim where
  toView := v
  rng := net.rng
  params := net.params
  stats := net.stats
  readings := net.readings
  requests := net.requests
  brk := net.nodes.brk

def rollCopy (rng : Rng) (params : Params) (len : Nat) (now : UInt64) : Option (Rolls × Rng) := do
  let (lms, rng) ← rng.i32Range params.latencyMsMin.toInt32 params.latencyMsMax.toInt32
  let (flip, rng) ← rollFlip rng params len
  let (swap, rng) ← rollSwap rng params
  return (⟨now, lms, flip, swap⟩, rng)

namespace Rolls

/-- When a copy with these rolls may be received. -/
def scheduledNs (r : Rolls) : UInt64 :=
  match r.swap with
  | none => r.now + msToNs r.latency
  | some rms => r.now + msToNs r.latency + msToNs rms

def payload (r : Rolls) (buf : List UInt8) : List UInt8 :=
  match r.flip with
  | none => buf
  | some bit => flipBit buf bit

/-- A copy with these rolls. -/
def node (r : Rolls) (src dest : Addr) (buf : List UInt8) : Node :=
  ⟨src, dest, r.scheduledNs, r.payload buf, buf.length⟩

def tallyFlip (flip : Option UInt32) (s : Stats) : Stats :=
  if flip.isSome then { s with corrupted := s.corrupted + 1 } else s

def tallySwap (swap : Option Int32) (s : Stats) : Stats :=
  if swap.isSome then { s with reordered := s.reordered + 1 } else s

def tally (r : Rolls) (s : Stats) : Stats := tallySwap r.swap (tallyFlip r.flip s)

end Rolls

/-- The requests for memory for a copy: one for the node, and one for a payload. -/
def copyRequests (n : Nat) (buf : List UInt8) : List Nat := if buf = [] then [n] else [n, n + 1]

/-- One copy is enqueued, or there is no memory for it. -/
inductive Enqueued (env : Env) (src dest : Addr) (buf : List UInt8) (now : UInt64) :
    Sim → Option Rolls → Sim → Prop
  | copy {s : Sim} {r : Rolls} {rng : Rng} : rollCopy s.rng s.params buf.length now = some (r, rng) →
      (∀ n ∈ copyRequests s.requests buf, env.memory n = true) →
      Enqueued env src dest buf now s (some r)
        { s with
          toView := s.post (s.brk, r.node src dest buf)
          rng
          stats := r.tally s.stats
          requests := s.requests + (copyRequests s.requests buf).length
          brk := s.brk + 1 }
  | failed {s : Sim} {rng : Rng} {brk n : Nat} : n ∈ copyRequests s.requests buf →
      env.memory n = false → s.brk ≤ brk →
      Enqueued env src dest buf now s none { s with rng, brk, requests := n + 1 }

/-- The copies of one datagram. -/
inductive Sent (env : Env) (src dest : Addr) (buf : List UInt8) (now : UInt64) :
    Sim → Info × List Rolls → Sim → Prop
  | failed {s s₁ : Sim} : Enqueued env src dest buf now s none s₁ →
      Sent env src dest buf now s (.netsimAllocFailed, []) s₁
  | single {s s₁ : Sim} {r : Rolls} {rng : Rng} : Enqueued env src dest buf now s (some r) s₁ →
      s₁.rng.chanceFx16 s₁.params.dupProb = (false, rng) →
      Sent env src dest buf now s (.ok, [r]) { s₁ with rng }
  -- the first copy stays on its way
  | half {s s₁ s₂ : Sim} {r : Rolls} {rng : Rng} : Enqueued env src dest buf now s (some r) s₁ →
      s₁.rng.chanceFx16 s₁.params.dupProb = (true, rng) →
      Enqueued env src dest buf now { s₁ with rng } none s₂ →
      Sent env src dest buf now s (.netsimAllocFailed, [r]) s₂
  | double {s s₁ s₂ : Sim} {r r' : Rolls} {rng : Rng} : Enqueued env src dest buf now s (some r) s₁ →
      s₁.rng.chanceFx16 s₁.params.dupProb = (true, rng) →
      Enqueued env src dest buf now { s₁ with rng } (some r') s₂ →
      Sent env src dest buf now s (.ok, [r, r'])
        { s₂ with stats := { s₂.stats with duplicated := s₂.stats.duplicated + 1 } }

/-- `n` datagrams are counted as dropped. -/
def Stats.discard (s : Stats) (n : Nat) : Stats := { s with dropped := s.dropped + UInt32.ofNat n }

/-- A send gets as far as the search for its destination. -/
def Admitted (ep : Option Handle) (buf : List UInt8) (e : Handle) : Prop :=
  ep = some e ∧ e.attached = true ∧ buf.length ≤ maxDatagramBytes

/-- The queue cap of `cb_netsim_send_to` stops a datagram of `len` bytes. -/
def overCap (params : Params) (bytes : UInt64) (len : Nat) : Bool :=
  params.maxQueueBytes ≠ 0 ∧ params.maxQueueBytes.toUInt64 < bytes + UInt64.ofNat len

inductive Quiet (s : Sim) : Call → Reply → Prop
  | duplicate {addr : Addr} : (s.box addr).isSome →
      Quiet s (.bind addr) (.handle ⟨.netsimDuplicateAddr, false, addr⟩)
  | kept {ep : Option Handle} : (∀ e, ep = some e → e.attached = false) →
      Quiet s (.close ep) (.closed ep)
  | refused {ep : Option Handle} {dest : Addr} {buf : List UInt8} {info : Info} : info ≠ .ok →
      (∀ e, ¬ Admitted ep buf e) → Quiet s (.send ep dest buf) (.sent info [])
  | unreceived {ep : Option Handle} {outSrc outBuf outLen : Bool} {outCap : Nat} {r : Received} :
      r.info ≠ .ok → Quiet s (.recv ep outSrc outBuf outCap outLen) (.received r)
  | rejected {params : Params} : paramsOk params = false →
      Quiet s (.setParams params) (.info .netsimBadParams)

inductive Effect (env : Env) (s : Sim) : Call × Reply → Sim → Prop
  | idle {call : Call} {reply : Reply} : Quiet s call reply → Effect env s (call, reply) s
  | unbindable {addr : Addr} : s.box addr = none → env.memory s.requests = false →
      Effect env s (.bind addr, .handle ⟨.netsimAllocFailed, false, addr⟩) { s with
        requests := s.requests + 1 }
  | bound {addr : Addr} {p : Ptr} : s.box addr = none → env.memory s.requests = true →
      Effect env s (.bind addr, .handle ⟨.ok, true, addr⟩) { s with
        toView := s.bind p addr
        requests := s.requests + 1 }
  | closed {ep : Handle} : ep.attached = true →
      Effect env s (.close (some ep), .closed (some { ep with attached := false })) { s with
        toView := s.close ep.addr
        stats := s.stats.discard (Mailbox.bound dest ep.addr s.pending).length }
  -- counted as enqueued and as dropped, and the caller hears of neither
  | unbound {ep : Option Handle} {e : Handle} {dest : Addr} {buf : List UInt8} : Admitted ep buf e →
      s.box dest = none → Effect env s (.send ep dest buf, .sent .ok []) { s with
        stats := { s.stats with
          enqueued := s.stats.enqueued + 1
          dropped := s.stats.dropped + 1 } }
  | full {ep : Option Handle} {e : Handle} {dest : Addr} {buf : List UInt8} {b : Box} :
      Admitted ep buf e → s.box dest = some b → overCap s.params b.bytes buf.length = true →
      Effect env s (.send ep dest buf, .sent .ok []) { s with
        stats := { s.stats with
          enqueued := s.stats.enqueued + 1
          queueFull := s.stats.queueFull + 1 } }
  | dropped {ep : Option Handle} {e : Handle} {dest : Addr} {buf : List UInt8} {b : Box} {rng : Rng} :
      Admitted ep buf e → s.box dest = some b → overCap s.params b.bytes buf.length = false →
      s.rng.chanceFx16 s.params.dropProb = (true, rng) →
      Effect env s (.send ep dest buf, .sent .ok []) { s with
        rng
        stats := { s.stats with
          enqueued := s.stats.enqueued + 1
          dropped := s.stats.dropped + 1 } }
  | sent {ep : Option Handle} {e : Handle} {dest : Addr} {buf : List UInt8} {b : Box} {rng : Rng}
      {out : Info × List Rolls} {s' : Sim} :
      Admitted ep buf e → s.box dest = some b → overCap s.params b.bytes buf.length = false →
      s.rng.chanceFx16 s.params.dropProb = (false, rng) →
      Sent env e.addr dest buf (env.clock s.readings) { s with
        rng
        stats := { s.stats with enqueued := s.stats.enqueued + 1 }
        readings := s.readings + 1 } out s' →
      Effect env s (.send ep dest buf, .sent out.1 out.2) s'
  | stepped : Effect env s (.step, .moved (UInt32.ofNat
        (s.pending.takeWhile (due · ≤ (env.clock s.readings).toNat)).length)) { s with
      toView := s.deliver (env.clock s.readings)
      readings := s.readings + 1 }
  | received {ep : Handle} {outSrc outBuf : Bool} {outCap : Nat} {b : Box} {c : Copy}
      {rest : List Copy} : ep.attached = true → s.box ep.addr = some b → b.ready = c :: rest →
      c.2.len ≤ outCap →
      Effect env s (.recv (some ep) outSrc outBuf outCap true, .received
          ⟨.ok, if outSrc then some c.2.src else none,
            if 0 < c.2.len ∧ outBuf then c.2.payload else [], some c.2.len⟩) { s with
        toView := s.take 0 ep.addr
        stats := { s.stats with delivered := s.stats.delivered + 1 } }
  | configured {params : Params} : paramsOk params = true →
      Effect env s (.setParams params, .info .ok) { s with params }
  | flushed : Effect env s (.flush, .flushed) { s with toView := s.clear }

/-! ## Requests for memory -/

theorem le_of_mem_copyRequests {n m : Nat} {buf : List UInt8} (h : m ∈ copyRequests n buf) : n ≤ m := by
  unfold copyRequests at h
  split at h
  · exact (List.mem_singleton.mp h).ge
  · rcases List.mem_pair.mp h with rfl | rfl
    · exact Nat.le_refl _
    · exact Nat.le_succ _

section Requests

variable {env : Env} {src dest : Addr} {buf : List UInt8} {now : UInt64} {s s' : Sim}

theorem Enqueued.requests {o : Option Rolls} (h : Enqueued env src dest buf now s o s') :
    s.requests ≤ s'.requests := by
  cases h with
  | copy => exact Nat.le_add_right _ _
  | failed hn => exact (le_of_mem_copyRequests hn).trans (Nat.le_succ _)

/-- A copy that is not enqueued had a request that failed. -/
theorem Enqueued.denied (h : Enqueued env src dest buf now s none s') :
    ∃ n ∈ copyRequests s.requests buf, n < s'.requests ∧ env.memory n ≠ true := by
  cases h with
  | failed hn hno => exact ⟨_, hn, Nat.lt_succ_self _, by rw [hno]; exact Bool.false_ne_true⟩

theorem Sent.requests {out : Info × List Rolls} (h : Sent env src dest buf now s out s') :
    s.requests ≤ s'.requests := by
  cases h with
  | failed hnone => exact hnone.requests
  | single hfirst => exact hfirst.requests
  | half hfirst hdup hnone => exact hfirst.requests.trans hnone.requests
  | double hfirst hdup hsecond => exact hfirst.requests.trans hsecond.requests

/-- With memory for every request a send succeeds. -/
theorem Sent.ok {out : Info × List Rolls} (h : Sent env src dest buf now s out s')
    (hmem : ∀ n < s'.requests, env.memory n = true) : out.1 = .ok := by
  cases h with
  | single => rfl
  | double => rfl
  | failed hnone =>
    obtain ⟨n, -, hlt, hno⟩ := hnone.denied
    exact absurd (hmem n hlt) hno
  | half hfirst hdup hnone =>
    obtain ⟨n, -, hlt, hno⟩ := hnone.denied
    exact absurd (hmem n hlt) hno

theorem Effect.requests {act : Call × Reply} (h : Effect env s act s') : s.requests ≤ s'.requests := by
  cases h with
  | unbindable => exact Nat.le_succ _
  | bound => exact Nat.le_succ _
  | sent hadmitted hb hroom hdrop hsent => exact hsent.requests
  | _ => exact Nat.le_refl _

end Requests

/-! ## Every call has a result -/

section Count

variable (net : Net) (f : Stats → Stats)

@[simp] theorem count_rng : (net.count f).rng = net.rng := rfl

@[simp] theorem count_params : (net.count f).params = net.params := rfl

@[simp] theorem count_cells : (net.count f).cells = net.cells := rfl

@[simp] theorem findEndpoint_count (addr : Addr) :
    findEndpoint (net.count f) addr = findEndpoint net addr := rfl

end Count

theorem rollFlip_total (rng : Rng) (params : Params) (len : Nat) :
    ∃ flip rng', rollFlip rng params len = some (flip, rng') := by
  unfold rollFlip
  by_cases hlen : len = 0
  · exact ⟨none, rng, by simp [hlen]⟩
  rcases hhit : rng.chanceFx16 params.corruptProb with ⟨hit, rng₁⟩
  cases hit with
  | false => exact ⟨none, rng₁, by simp [hlen]⟩
  | true =>
    obtain ⟨⟨bit, rng₂⟩, hbit⟩ :=
      Option.isSome_iff_exists.mp (rng₁.u32Below_total (UInt32.ofNat (len * 8)))
    refine ⟨some bit, rng₂, ?_⟩
    simp only [if_neg hlen, hbit]
    rfl

theorem rollSwap_total (rng : Rng) (params : Params) :
    ∃ swap rng', rollSwap rng params = some (swap, rng') := by
  unfold rollSwap
  rcases hhit : rng.chanceFx16 params.reorderProb with ⟨hit, rng₁⟩
  cases hit with
  | false => exact ⟨none, rng₁, by simp⟩
  | true =>
    obtain ⟨⟨rms, rng₂⟩, hrms⟩ := Option.isSome_iff_exists.mp
      (rng₁.i32Range_total params.reorderSwapMsMin.toInt32 params.reorderSwapMsMax.toInt32)
    exact ⟨some rms, rng₂, by simp [hrms]⟩

/-! `cb_netsim_send_to` for an attached handle and a datagram that is not too large. -/
section SendTo

variable {env : Env} {net : Net} {ep : Handle} {dest : Addr} {buf : List UInt8} {p : Ptr}
  {c : Cell Endpoint}

theorem sendTo_unbound (hadmitted : Admitted (some ep) buf ep) (hfind : findEndpoint net dest = some none) :
    sendTo env net (some ep) dest buf = some ((.ok, []), net.count fun s =>
      { s with enqueued := s.enqueued + 1, dropped := s.dropped + 1 }) := by
  obtain ⟨-, hat, hlen⟩ := hadmitted
  unfold sendTo
  simp only [hat, Nat.not_lt.mpr hlen, findEndpoint_count, hfind, Bool.not_true, Bool.false_eq_true,
    if_false, Option.bind_eq_bind, Option.bind_some]
  rfl

theorem sendTo_full (hadmitted : Admitted (some ep) buf ep) (hfind : findEndpoint net dest = some (some p))
    (hcell : net.cells.cell p = some c)
    (hfull : overCap net.params c.val.bytesInFlight buf.length = true) :
    sendTo env net (some ep) dest buf = some ((.ok, []), net.count fun s =>
      { s with enqueued := s.enqueued + 1, queueFull := s.queueFull + 1 }) := by
  obtain ⟨-, hat, hlen⟩ := hadmitted
  unfold sendTo
  simp only [hat, Nat.not_lt.mpr hlen, findEndpoint_count, hfind, Bool.not_true, Bool.false_eq_true,
    if_false, Option.bind_eq_bind, Option.bind_some, count_cells, count_params, hcell]
  exact (if_pos (of_decide_eq_true hfull)).trans rfl

theorem sendTo_room {drop : Bool} {rng : Rng} (hadmitted : Admitted (some ep) buf ep)
    (hfind : findEndpoint net dest = some (some p)) (hcell : net.cells.cell p = some c)
    (hroom : overCap net.params c.val.bytesInFlight buf.length = false)
    (hdrop : net.rng.chanceFx16 net.params.dropProb = (drop, rng)) :
    sendTo env net (some ep) dest buf =
      let net := { net with rng }.count fun s => { s with enqueued := s.enqueued + 1 }
      if drop then some ((.ok, []), net.count fun s => { s with dropped := s.dropped + 1 })
      else sendCopies env net ep.addr dest buf := by
  obtain ⟨-, hat, hlen⟩ := hadmitted
  unfold sendTo
  simp only [hat, Nat.not_lt.mpr hlen, findEndpoint_count, hfind, Bool.not_true, Bool.false_eq_true,
    if_false, Option.bind_eq_bind, Option.bind_some, count_cells, hcell, count_rng, count_params, hdrop]
  exact (if_neg (of_decide_eq_false hroom)).trans rfl

end SendTo

namespace Repr

variable {net : Net} {v : View}

theorem allocNode (hr : Repr net [] v) (env : Env) {node : Node} (hempty : node.payload = [])
    (buf : List UInt8) :
    (∃ n nodes, n ∈ copyRequests net.requests buf ∧ env.memory n = false ∧
      NetSim.allocNode env net node buf = some (none, { net with nodes, requests := n + 1 }) ∧
      net.nodes.brk ≤ nodes.brk ∧ Repr { net with nodes } [] v) ∨
    ∃ nodes, (∀ n ∈ copyRequests net.requests buf, env.memory n = true) ∧
      NetSim.allocNode env net node buf = some (some net.nodes.brk, { net with
        nodes, requests := net.requests + (copyRequests net.requests buf).length }) ∧
      nodes.brk = net.nodes.brk + 1 ∧
      Repr { net with nodes } [(net.nodes.brk, { node with payload := buf })] v := by
  unfold NetSim.allocNode
  cases hmem : env.memory net.requests with
  | false =>
    refine .inl ⟨net.requests, net.nodes, ?_, hmem, by simp [Net.request, hmem], Nat.le_refl _, hr⟩
    unfold copyRequests
    split <;> simp
  | true =>
    have halloc := hr.nodes.alloc ⟨none, node⟩
    by_cases hbuf : buf = []
    · have hone : copyRequests net.requests buf = [net.requests] := if_pos hbuf
      refine .inr ⟨(net.nodes.alloc ⟨none, node⟩).2, ?_, ?_, rfl, ?_⟩
      · simpa [hone] using hmem
      · simp [Net.request, hmem, hbuf, copyRequests]
      · rw [hbuf, ← hempty]
        exact ⟨halloc, hr.pending, hr.endpoints, hr.addrs⟩
    have htwo : copyRequests net.requests buf = [net.requests, net.requests + 1] := if_neg hbuf
    rw [htwo]
    cases hmem₂ : env.memory (net.requests + 1) with
    | false =>
      obtain ⟨nodes, hfree, hbrk, hfiled⟩ := halloc.free
      refine .inl ⟨net.requests + 1, nodes, by simp, hmem₂, ?_, ?_, ?_⟩
      · simp [Net.request, hmem, hbuf, hmem₂, hfree]
      · rw [hbrk]
        exact Nat.le_succ _
      · exact ⟨hfiled, hr.pending, hr.endpoints, hr.addrs⟩
    | true =>
      obtain ⟨nodes, hmod, hbrk, hfiled⟩ := halloc.modify fun n => { n with payload := buf }
      refine .inr ⟨nodes, by simp [hmem, hmem₂], ?_, hbrk, ?_⟩
      · simp [Net.request, hmem, hbuf, hmem₂, hmod]
      · exact ⟨hfiled, hr.pending, hr.endpoints, hr.addrs⟩

theorem corruptRoll {p : Ptr} {n : Node} {len : Nat} {flip : Option UInt32} {rng : Rng}
    (hr : Repr net [(p, n)] v) (hroll : rollFlip net.rng net.params len = some (flip, rng)) :
    ∃ nodes, NetSim.corruptRoll net p len = some (flip, { net with
        rng, nodes, stats := Rolls.tallyFlip flip net.stats }) ∧
      nodes.brk = net.nodes.brk ∧
      Repr { net with rng, nodes, stats := Rolls.tallyFlip flip net.stats }
        [(p, { n with payload := match flip with
          | none => n.payload
          | some bit => flipBit n.payload bit })] v := by
  unfold NetSim.corruptRoll
  cases flip with
  | none => exact ⟨net.nodes, by simp [hroll, Rolls.tallyFlip], rfl,
      ⟨hr.nodes, hr.pending, hr.endpoints, hr.addrs⟩⟩
  | some bit =>
    obtain ⟨nodes, hmod, hbrk, hfiled⟩ :=
      hr.nodes.modify fun n => { n with payload := flipBit n.payload bit }
    refine ⟨nodes, by simp [hroll, hmod, Rolls.tallyFlip, Net.count], hbrk, ?_⟩
    exact ⟨hfiled, hr.pending, hr.endpoints, hr.addrs⟩

theorem reorderRoll {p : Ptr} {n : Node} {swap : Option Int32} {rng : Rng}
    (hr : Repr net [(p, n)] v) (hroll : rollSwap net.rng net.params = some (swap, rng)) :
    ∃ nodes, NetSim.reorderRoll net p = some (swap, { net with
        rng, nodes, stats := Rolls.tallySwap swap net.stats }) ∧
      nodes.brk = net.nodes.brk ∧
      Repr { net with rng, nodes, stats := Rolls.tallySwap swap net.stats }
        [(p, { n with scheduledNs := match swap with
          | none => n.scheduledNs
          | some rms => n.scheduledNs + msToNs rms })] v := by
  unfold NetSim.reorderRoll
  cases swap with
  | none => exact ⟨net.nodes, by simp [hroll, Rolls.tallySwap], rfl,
      ⟨hr.nodes, hr.pending, hr.endpoints, hr.addrs⟩⟩
  | some rms =>
    obtain ⟨nodes, hmod, hbrk, hfiled⟩ :=
      hr.nodes.modify fun n => { n with scheduledNs := n.scheduledNs + msToNs rms }
    refine ⟨nodes, by simp [hroll, hmod, Rolls.tallySwap, Net.count], hbrk, ?_⟩
    exact ⟨hfiled, hr.pending, hr.endpoints, hr.addrs⟩

/-- The latency roll and one copy. -/
theorem sendCopy (hr : Repr net [] v) (env : Env) (src dest : Addr) (buf : List UInt8) (now : UInt64) :
    ∃ o net' v', NetSim.sendCopy env net src dest buf now = some (o, net') ∧ Repr net' [] v' ∧
      Enqueued env src dest buf now (net.sim v) o (net'.sim v') := by
  obtain ⟨⟨lms, rng⟩, hlms⟩ := Option.isSome_iff_exists.mp (net.rng.i32Range_total
    net.params.latencyMsMin.toInt32 net.params.latencyMsMax.toInt32)
  have hr₁ : Repr { net with rng := rng } [] v := ⟨hr.nodes, hr.pending, hr.endpoints, hr.addrs⟩
  have halloc := @allocNode _ _ hr₁ env ⟨src, dest, now + msToNs lms, [], buf.length⟩ rfl buf
  unfold NetSim.sendCopy enqueueCopy
  rcases halloc with ⟨n, nodes, hn, hmem, halloc, hbrk, hr₂⟩ | ⟨nodes, hmem, halloc, hbrk, hr₂⟩
  · refine ⟨none, { net with rng, nodes, requests := n + 1 }, v, by simp [hlms, halloc],
      ⟨hr₂.nodes, hr₂.pending, hr₂.endpoints, hr₂.addrs⟩, ?_⟩
    exact Enqueued.failed (s := net.sim v) hn hmem hbrk
  obtain ⟨flip, rng₁, hflip⟩ := rollFlip_total rng net.params buf.length
  have hr₂' : Repr { net with rng := rng, nodes := nodes, requests := net.requests +
      (copyRequests net.requests buf).length } _ v :=
    ⟨hr₂.nodes, hr₂.pending, hr₂.endpoints, hr₂.addrs⟩
  obtain ⟨nodes₁, hcorrupt, hbrk₁, hr₃⟩ := hr₂'.corruptRoll hflip
  obtain ⟨swap, rng₂, hswap⟩ := rollSwap_total rng₁ net.params
  obtain ⟨nodes₂, hreorder, hbrk₂, hr₄⟩ := hr₃.reorderRoll hswap
  obtain ⟨nodes₃, pending, cells, henqueue, hbrk₃, hr₅⟩ := hr₄.enqueue
  refine ⟨some ⟨now, lms, flip, swap⟩, _, _,
    by simp [hlms, halloc, hcorrupt, hreorder, henqueue], hr₅, ?_⟩
  have hroll : rollCopy net.rng net.params buf.length now = some (⟨now, lms, flip, swap⟩, rng₂) := by
    simp [rollCopy, hlms, hflip, hswap]
  have hcopy : Enqueued env src dest buf now (net.sim v) (some ⟨now, lms, flip, swap⟩) _ :=
    .copy hroll hmem
  have hbrk' : nodes₃.brk = net.nodes.brk + 1 := hbrk₃.trans (hbrk₂.trans (hbrk₁.trans hbrk))
  unfold Net.sim at hcopy ⊢
  rw [hbrk']
  cases flip <;> cases swap <;> exact hcopy

theorem sendCopies (hr : Repr net [] v) (env : Env) (src dest : Addr) (buf : List UInt8) :
    ∃ out net' v', NetSim.sendCopies env net src dest buf = some (out, net') ∧ Repr net' [] v' ∧
      Sent env src dest buf (env.clock net.readings)
        { net.sim v with readings := net.readings + 1 } out (net'.sim v') := by
  have hr₁ : Repr { net with readings := net.readings + 1 } [] v :=
    ⟨hr.nodes, hr.pending, hr.endpoints, hr.addrs⟩
  obtain ⟨o, net₁, v₁, hfirst, hr₂, henqueued⟩ := hr₁.sendCopy env src dest buf (env.clock net.readings)
  unfold NetSim.sendCopies
  cases o with
  | none => exact ⟨_, net₁, v₁, by simp [Net.now, hfirst], hr₂, .failed henqueued⟩
  | some r =>
    rcases hdup : net₁.rng.chanceFx16 net₁.params.dupProb with ⟨dup, rng⟩
    have hr₃ : Repr { net₁ with rng } [] v₁ := ⟨hr₂.nodes, hr₂.pending, hr₂.endpoints, hr₂.addrs⟩
    cases dup with
    | false => exact ⟨_, _, v₁, by simp [Net.now, hfirst, hdup], hr₃, .single henqueued hdup⟩
    | true =>
      obtain ⟨o₂, net₂, v₂, hsecond, hr₄, henqueued₂⟩ :=
        hr₃.sendCopy env src dest buf (env.clock net.readings)
      cases o₂ with
      | none =>
        exact ⟨_, net₂, v₂, by simp [Net.now, hfirst, hdup, hsecond], hr₄,
          .half henqueued hdup henqueued₂⟩
      | some r' =>
        refine ⟨(.ok, [r, r']), net₂.count fun s => { s with duplicated := s.duplicated + 1 }, v₂,
          by simp [Net.now, hfirst, hdup, hsecond], ?_, .double henqueued hdup henqueued₂⟩
        exact ⟨hr₄.nodes, hr₄.pending, hr₄.endpoints, hr₄.addrs⟩

/-- Every send has a result. -/
theorem sendTo (hr : Repr net [] v) (env : Env) (ep : Option Handle) (dest : Addr) (buf : List UInt8) :
    ∃ info rolls net' v', NetSim.sendTo env net ep dest buf = some ((info, rolls), net') ∧
      Repr net' [] v' ∧ Effect env (net.sim v) (.send ep dest buf, .sent info rolls) (net'.sim v') := by
  cases ep with
  | none =>
    refine ⟨_, _, net, v, rfl, hr, .idle (.refused nofun ?_)⟩
    rintro e ⟨hep, -⟩
    cases hep
  | some ep =>
    cases hat : ep.attached with
    | false =>
      refine ⟨.genericError, [], net, v, by simp [NetSim.sendTo, hat], hr, .idle (.refused nofun ?_)⟩
      rintro e ⟨hep, he, -⟩
      cases hep
      rw [hat] at he
      cases he
    | true =>
    by_cases hlen : maxDatagramBytes < buf.length
    · refine ⟨.netsimPayloadTooLarge, [], net, v, by simp [NetSim.sendTo, hat, hlen], hr,
        .idle (.refused nofun ?_)⟩
      rintro e ⟨-, -, hfits⟩
      exact Nat.not_le.mpr hlen hfits
    have hadmitted : Admitted (some ep) buf ep := ⟨rfl, hat, Nat.not_lt.mp hlen⟩
    have hfind := hr.find dest
    cases hb : v.box dest with
    | none =>
      rw [hb, Option.map_none] at hfind
      refine ⟨.ok, [], _, v, sendTo_unbound hadmitted hfind, ?_, .unbound hadmitted hb⟩
      exact ⟨hr.nodes, hr.pending, hr.endpoints, hr.addrs⟩
    | some b =>
      rw [hb, Option.map_some] at hfind
      obtain ⟨k, m, hsplit, -⟩ := View.box_split hr.addrs hb
      obtain ⟨r, hcell⟩ := hr.cell (b := b) (by simp [hsplit])
      cases hcap : overCap net.params b.bytes buf.length with
      | true =>
        refine ⟨.ok, [], _, v, sendTo_full hadmitted hfind hcell hcap, ?_, .full hadmitted hb hcap⟩
        exact ⟨hr.nodes, hr.pending, hr.endpoints, hr.addrs⟩
      | false =>
        rcases hdrop : net.rng.chanceFx16 net.params.dropProb with ⟨drop, rng⟩
        have hsend := @sendTo_room env _ _ _ _ _ _ _ _ hadmitted hfind hcell hcap hdrop
        cases drop with
        | true =>
          refine ⟨.ok, [], _, v, hsend, ?_, .dropped hadmitted hb hcap hdrop⟩
          exact ⟨hr.nodes, hr.pending, hr.endpoints, hr.addrs⟩
        | false =>
          have hr₁ : Repr ({ net with rng }.count fun s => { s with enqueued := s.enqueued + 1 }) [] v :=
            ⟨hr.nodes, hr.pending, hr.endpoints, hr.addrs⟩
          obtain ⟨out, net', v', hcopies, hr', hsent⟩ := hr₁.sendCopies env ep.addr dest buf
          exact ⟨out.1, out.2, net', v', hsend.trans hcopies, hr',
            .sent hadmitted hb hcap hdrop hsent⟩

/-- Every receive has a result. -/
theorem recvFrom (hr : Repr net [] v) (env : Env) (ep : Option Handle) (outSrc outBuf : Bool)
    (outCap : Nat) (outLen : Bool) :
    ∃ r net' v', NetSim.recvWith 0 net ep outSrc outBuf outCap outLen = some (r, net') ∧
      Repr net' [] v' ∧ Effect env (net.sim v) (.recv ep outSrc outBuf outCap outLen, .received r)
        (net'.sim v') := by
  unfold NetSim.recvWith
  cases ep with
  | none => exact ⟨_, net, v, rfl, hr, .idle (.unreceived (by simp))⟩
  | some ep =>
    by_cases hargs : ep.attached = true ∧ outLen = true
    swap
    · refine ⟨⟨.genericError, none, [], none⟩, net, v, ?_, hr, .idle (.unreceived (by simp))⟩
      have hbad : (!ep.attached || !outLen) = true := by
        rw [not_and_or] at hargs
        rcases hargs with h | h <;> simp [h]
      simp only [hbad, if_true]
      rfl
    obtain ⟨hat, rfl⟩ := hargs
    have hfind := hr.find ep.addr
    cases hb : v.box ep.addr with
    | none =>
      rw [hb, Option.map_none] at hfind
      exact ⟨⟨.netsimEmpty, none, [], some 0⟩, net, v, by simp [hat, hfind], hr,
        .idle (.unreceived (by simp))⟩
    | some b =>
      obtain ⟨k, m, hsplit, -⟩ := View.box_split hr.addrs hb
      obtain ⟨r, hcell⟩ := hr.cell (b := b) (by simp [hsplit])
      rw [hb, Option.map_some] at hfind
      cases hready : b.ready with
      | nil =>
        have hhead : b.cell.2.readyHead = none := by simp [Box.cell, hready]
        exact ⟨⟨.netsimEmpty, none, [], some 0⟩, net, v, by simp [hat, hfind, hcell, hhead], hr,
          .idle (.unreceived (by simp))⟩
      | cons c rest =>
        by_cases hcap : outCap < c.2.len
        · have hhead : b.cell.2.readyHead = some c.1 := by simp [Box.cell, hready]
          have hnodes := hr.nodes
          rw [hsplit, List.map_append, List.map_cons, hready] at hnodes
          obtain ⟨-, next, hp, -⟩ := Filed.list (k := v.pending :: k.map Box.ready) hnodes
          exact ⟨⟨.netsimBufTooSmall, none, [], some c.2.len⟩, net, v,
            by simp [hat, hfind, hcell, hhead, hp, hcap], hr, .idle (.unreceived (by simp))⟩
        · obtain ⟨nodes, cells, hrecv, hbrk, hr'⟩ :=
            hr.recvWith hat hb hready (Nat.not_lt.mp hcap) 0 outSrc outBuf
          refine ⟨_, _, _, hrecv, ⟨hr'.nodes, hr'.pending, hr'.endpoints, hr'.addrs⟩, ?_⟩
          have heffect : Effect env (net.sim v) (.recv (some ep) outSrc outBuf outCap true, _) _ :=
            .received hat hb hready (Nat.not_lt.mp hcap)
          unfold Net.sim at heffect ⊢
          rw [hbrk]
          exact heffect

/-- Every call on a simulator that is laid out as a view has a result, which is an effect of the
call. -/
theorem exec_spec (hr : Repr net [] v) (hopen : v.Open) (env : Env) (call : Call) :
    ∃ reply net' v', exec env net call = some (reply, net') ∧ Repr net' [] v' ∧
      Effect env (net.sim v) (call, reply) (net'.sim v') := by
  cases call with
  | bind addr =>
    cases hb : v.box addr with
    | some b =>
      refine ⟨_, net, v, ?_, hr, .idle (.duplicate (by simp [Net.sim, hb]))⟩
      simp [exec, execWith, NetSim.bind, hr.find, hb]
    | none =>
      cases hmem : env.memory net.requests with
      | false =>
        refine ⟨.handle ⟨.netsimAllocFailed, false, addr⟩, { net with requests := net.requests + 1 }, v,
          ?_, ⟨hr.nodes, hr.pending, hr.endpoints, hr.addrs⟩, .unbindable hb hmem⟩
        simp [exec, execWith, NetSim.bind, hr.find, hb, Net.request, hmem]
      | true =>
        obtain ⟨p, endpoints, cells, hbind, hr'⟩ := hr.bind hb env hmem
        have hexec : exec env net (.bind addr) = _ := congrArg (Option.map _) hbind
        exact ⟨_, _, _, hexec, ⟨hr'.nodes, hr'.pending, hr'.endpoints, hr'.addrs⟩, .bound hb hmem⟩
  | close ep =>
    by_cases hep : ∃ e, ep = some e ∧ e.attached = true
    · obtain ⟨e, rfl, hat⟩ := hep
      obtain ⟨nodes, pending, endpoints, cells, hclose, hbrk, hr'⟩ := hr.close hopen e hat
      have hexec : exec env net (.close (some e)) = _ := congrArg (Option.map _) hclose
      refine ⟨_, _, _, hexec, ⟨hr'.nodes, hr'.pending, hr'.endpoints, hr'.addrs⟩, ?_⟩
      have heffect : Effect env (net.sim v) (.close (some e), _) _ := .closed hat
      unfold Net.sim at heffect ⊢
      rw [hbrk]
      exact heffect
    · have hkept : ∀ e, ep = some e → e.attached = false := fun e he =>
        Bool.eq_false_iff.mpr fun hat => hep ⟨e, he, hat⟩
      refine ⟨_, net, v, ?_, hr, .idle (.kept hkept)⟩
      cases ep with
      | none => rfl
      | some e => simp [exec, execWith, NetSim.close, hkept e rfl]
  | send ep dest buf =>
    obtain ⟨info, rolls, net', v', hsend, hr', heffect⟩ := hr.sendTo env ep dest buf
    exact ⟨_, net', v', by simp only [exec, execWith, hsend, Option.map_some], hr', heffect⟩
  | step =>
    obtain ⟨nodes, pending, cells, hstep, hbrk, hr'⟩ := hr.stepWith hopen env
    have hexec : exec env net .step = _ := congrArg (Option.map _) (hstep dropSilently)
    refine ⟨_, _, _, hexec, ⟨hr'.nodes, hr'.pending, hr'.endpoints, hr'.addrs⟩, ?_⟩
    have heffect : Effect env (net.sim v) (.step, _) _ := .stepped
    unfold Net.sim at heffect ⊢
    rw [hbrk]
    exact heffect
  | recv ep outSrc outBuf outCap outLen =>
    obtain ⟨r, net', v', hrecv, hr', heffect⟩ := hr.recvFrom env ep outSrc outBuf outCap outLen
    exact ⟨_, net', v', by simp only [exec, execWith, hrecv, Option.map_some], hr', heffect⟩
  | setParams params =>
    cases hok : paramsOk params with
    | false =>
      exact ⟨_, net, v, by simp [exec, execWith, NetSim.setParams, hok], hr, .idle (.rejected hok)⟩
    | true =>
      refine ⟨.info .ok, { net with params }, v, by simp [exec, execWith, NetSim.setParams, hok],
        ⟨hr.nodes, hr.pending, hr.endpoints, hr.addrs⟩, .configured hok⟩
  | flush =>
    obtain ⟨nodes, cells, hflush, hbrk, hr'⟩ := hr.flush
    have hexec : exec env net .flush = _ := congrArg (Option.map _) hflush
    refine ⟨_, _, _, hexec, hr', ?_⟩
    have heffect : Effect env (net.sim v) (.flush, _) _ := .flushed
    unfold Net.sim at heffect ⊢
    rw [hbrk]
    exact heffect

end Repr

end CBase.NetSim
