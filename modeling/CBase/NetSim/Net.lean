import CBase.Info
import CBase.Random.Pcg
import CBase.Lib.LinkedLoops

/-!
# The network simulator

Endpoints and datagrams are cells of two heaps. `net->pending` and every `ready_head` lead into the
datagrams, `net->endpoints` into the endpoints.

`Env` is what the simulator does not decide: what its clock reads at the `n`-th reading, and whether
the `n`-th request for memory succeeds, from an arena or from `malloc`.

A call that follows a dangling pointer has no result.
-/

namespace CBase.NetSim

open LinkedHeap

/-! ## Data -/

structure Addr where
  ip : UInt32
  port : UInt16
  deriving DecidableEq

structure Params where
  dropProb : Int32
  dupProb : Int32
  corruptProb : Int32
  latencyMsMin : UInt32
  latencyMsMax : UInt32
  reorderProb : Int32
  reorderSwapMsMin : UInt32
  reorderSwapMsMax : UInt32
  maxQueueBytes : UInt32

structure Stats where
  enqueued : UInt32
  delivered : UInt32
  dropped : UInt32
  duplicated : UInt32
  corrupted : UInt32
  reordered : UInt32
  queueFull : UInt32

/-- `cb__netsim_pending_t` without its link. An empty payload is NULL. -/
structure Node where
  src : Addr
  dest : Addr
  scheduledNs : UInt64
  payload : List UInt8
  len : Nat

/-- `cb__netsim_endpoint_t` without its link. -/
structure Endpoint where
  addr : Addr
  readyHead : Option Ptr
  readyTail : Option Ptr
  bytesInFlight : UInt64

/-- `cb_netsim_t`, with the memory of its lists and the number of clock readings and of requests for
memory so far. -/
structure Net where
  info : Info
  rng : Rng
  params : Params
  endpoints : Option Ptr
  pending : Option Ptr
  stats : Stats
  nodes : Heap Node
  cells : Heap Endpoint
  readings : Nat
  requests : Nat

/-- `cb_netsim_endpoint_t`. `attached` says that its `net` is not NULL. -/
structure Handle where
  info : Info
  attached : Bool
  addr : Addr

structure Env where
  clock : Nat → UInt64
  memory : Nat → Bool

def Net.request (net : Net) (env : Env) : Bool × Net :=
  (env.memory net.requests, { net with requests := net.requests + 1 })

/-- `net->clock_fn(net->clock_user)`. -/
def Net.now (net : Net) (env : Env) : UInt64 × Net :=
  (env.clock net.readings, { net with readings := net.readings + 1 })

def Net.count (net : Net) (f : Stats → Stats) : Net := { net with stats := f net.stats }

def maxDatagramBytes : Nat := 65535

def paramsOk (p : Params) : Bool :=
  !(p.latencyMsMax < p.latencyMsMin) && !(p.reorderSwapMsMax < p.reorderSwapMsMin)

/-! ## Lists -/

/-- The comparison of addresses in the loops over the endpoints. -/
def isAt (addr : Addr) (e : Endpoint) : Bool := e.addr.ip == addr.ip && e.addr.port == addr.port

/-- The comparison of destinations in `cb_netsim_close`. -/
def isFor (addr : Addr) (n : Node) : Bool := n.dest.ip == addr.ip && n.dest.port == addr.port

def findEndpoint (net : Net) (addr : Addr) : Option (Option Ptr) :=
  find (isAt addr) net.cells net.endpoints

def dropEndpointReady (net : Net) (ep : Ptr) : Option Net := do
  let e ← net.cells.cell ep
  let nodes ← freeAll net.nodes e.val.readyHead
  let cells ← net.cells.modify ep
    ({ · with readyHead := none, readyTail := none, bytesInFlight := 0 })
  return { net with nodes, cells }

def pendingInsert (net : Net) (node : Ptr) : Option Net := do
  let nodes ← net.nodes.setNext node none
  match net.pending with
  | none => return { net with nodes, pending := some node }
  | some first =>
    let n ← nodes.cell node
    let f ← nodes.cell first
    if n.val.scheduledNs < f.val.scheduledNs then
      let nodes ← nodes.setNext node (some first)
      return { net with nodes, pending := some node }
    else
      -- behind the datagrams of the same time
      let cur ← advance (fun m => m.scheduledNs ≤ n.val.scheduledNs) nodes first
      let c ← nodes.cell cur
      let nodes ← nodes.setNext node c.next
      let nodes ← nodes.setNext cur (some node)
      return { net with nodes }

/-- The accounting of `cb__netsim_enqueue_node`. -/
def chargeEndpoint (net : Net) (dest : Addr) (len : Nat) : Option Net := do
  match ← findEndpoint net dest with
  | none => return net
  | some ep =>
    let cells ← net.cells.modify ep
      fun e => { e with bytesInFlight := e.bytesInFlight + UInt64.ofNat len }
    return { net with cells }

def enqueueNode (net : Net) (node : Ptr) : Option Net := do
  let n ← net.nodes.cell node
  let net ← chargeEndpoint net n.val.dest n.val.len
  pendingInsert net node

/-! ## Create, bind and close -/

def create (seed : UInt64) (params : Params) : Net where
  info := if paramsOk params then .ok else .netsimBadParams
  rng := .seed seed 0
  params := params
  endpoints := none
  pending := none
  stats := ⟨0, 0, 0, 0, 0, 0, 0⟩
  nodes := .empty
  cells := .empty
  readings := 0
  requests := 0

def setParams (net : Net) (params : Params) : Info × Net :=
  if paramsOk params then (.ok, { net with params }) else (.netsimBadParams, net)

def bind (env : Env) (net : Net) (addr : Addr) : Option (Handle × Net) := do
  match ← findEndpoint net addr with
  | some _ => return (⟨.netsimDuplicateAddr, false, addr⟩, net)
  | none =>
    let (got, net) := net.request env
    if !got then return (⟨.netsimAllocFailed, false, addr⟩, net)
    let (e, cells) := net.cells.alloc ⟨net.endpoints, ⟨addr, none, none, 0⟩⟩
    return (⟨.ok, true, addr⟩, { net with cells, endpoints := some e })

/-- `cb_netsim_close`. The result is the handle after the call. -/
def close (net : Net) (ep : Option Handle) : Option (Option Handle × Net) := do
  match ep with
  | none => return (none, net)
  | some ep =>
    if !ep.attached then return (some ep, net)
    let (e, endpoints, cells) ← unlinkFirst (isAt ep.addr) net.cells net.endpoints
    let net := { net with endpoints, cells }
    match e with
    | none => return (some { ep with attached := false }, net)
    | some e =>
      let net ← dropEndpointReady net e
      -- of the datagrams that are lost here, the pending ones are counted
      let (n, pending, nodes) ← removeAll (isFor ep.addr) net.nodes net.pending
      let net := { net with pending, nodes }
      let net := net.count fun s => { s with dropped := s.dropped + UInt32.ofNat n }
      let cells ← net.cells.free e
      return (some { ep with attached := false }, { net with cells })

/-! ## Send -/

/-- What was rolled for an enqueued copy: its latency over the clock reading, the bit that was flipped
and the extra latency. -/
structure Rolls where
  now : UInt64
  latency : Int32
  flip : Option UInt32
  swap : Option Int32

/-- The allocations of `cb__netsim_enqueue_copy`: the node, and for a non-empty datagram a copy of the
payload. The inner `none` is a failed request. -/
def allocNode (env : Env) (net : Net) (node : Node) (buf : List UInt8) :
    Option (Option Ptr × Net) := do
  let (got, net) := net.request env
  if !got then return (none, net)
  let (p, nodes) := net.nodes.alloc ⟨none, node⟩
  let net := { net with nodes }
  if buf = [] then return (some p, net)
  let (got, net) := net.request env
  if got then
    let nodes ← net.nodes.modify p ({ · with payload := buf })
    return (some p, { net with nodes })
  else
    let nodes ← net.nodes.free p
    return (none, { net with nodes })

/-- `payload[bit >> 3] ^= 1u << (bit & 7u)`. -/
def flipBit (payload : List UInt8) (bit : UInt32) : List UInt8 :=
  payload.modify (bit >>> 3).toNat (· ^^^ ((1 : UInt8) <<< (bit &&& 7).toUInt8))

/-- The draws of the corruption roll: the bit to flip, if the roll hits. -/
def rollFlip (rng : Rng) (params : Params) (len : Nat) : Option (Option UInt32 × Rng) := do
  if len = 0 then return (none, rng)
  let (hit, rng) := rng.chanceFx16 params.corruptProb
  if !hit then return (none, rng)
  let bits := UInt32.ofNat (len * 8)
  let (bit, rng) ← rng.u32Below bits
  return (some bit, rng)

/-- The corruption roll of `cb__netsim_enqueue_copy`. -/
def corruptRoll (net : Net) (node : Ptr) (len : Nat) : Option (Option UInt32 × Net) := do
  let (flip, rng) ← rollFlip net.rng net.params len
  let net := { net with rng }
  match flip with
  | none => return (none, net)
  | some bit =>
    let nodes ← net.nodes.modify node fun n => { n with payload := flipBit n.payload bit }
    return (some bit, { net with nodes }.count fun s => { s with corrupted := s.corrupted + 1 })

/-- `(uint64_t)ms * 1000000ull`. -/
def msToNs (ms : Int32) : UInt64 := ms.toInt64.toUInt64 * 1000000

/-- The draws of the reorder roll: the extra latency, if the roll hits. -/
def rollSwap (rng : Rng) (params : Params) : Option (Option Int32 × Rng) := do
  let (hit, rng) := rng.chanceFx16 params.reorderProb
  if !hit then return (none, rng)
  let rlo := params.reorderSwapMsMin.toInt32
  let rhi := params.reorderSwapMsMax.toInt32
  let (rms, rng) ← rng.i32Range rlo rhi
  return (some rms, rng)

/-- The reorder roll of `cb__netsim_enqueue_copy`. -/
def reorderRoll (net : Net) (node : Ptr) : Option (Option Int32 × Net) := do
  let (swap, rng) ← rollSwap net.rng net.params
  let net := { net with rng }
  match swap with
  | none => return (none, net)
  | some rms =>
    let nodes ← net.nodes.modify node fun n => { n with scheduledNs := n.scheduledNs + msToNs rms }
    return (some rms, { net with nodes }.count fun s => { s with reordered := s.reordered + 1 })

/-- `cb__netsim_enqueue_copy`. The inner `none` is `false`. -/
def enqueueCopy (env : Env) (net : Net) (src dest : Addr) (buf : List UInt8)
    (baseScheduledNs : UInt64) : Option (Option (Option UInt32 × Option Int32) × Net) := do
  let (node, net) ← allocNode env net ⟨src, dest, baseScheduledNs, [], buf.length⟩ buf
  match node with
  | none => return (none, net)
  | some node =>
    let (flip, net) ← corruptRoll net node buf.length
    let (swap, net) ← reorderRoll net node
    let net ← enqueueNode net node
    return (some (flip, swap), net)

/-- The latency roll of `cb_netsim_send_to` and the copy with that latency. The inner `none` is a
failed request. -/
def sendCopy (env : Env) (net : Net) (src dest : Addr) (buf : List UInt8) (now : UInt64) :
    Option (Option Rolls × Net) := do
  let (lms, rng) ← net.rng.i32Range net.params.latencyMsMin.toInt32 net.params.latencyMsMax.toInt32
  let (copy, net) ← enqueueCopy env { net with rng } src dest buf (now + msToNs lms)
  return (copy.map fun (flip, swap) => ⟨now, lms, flip, swap⟩, net)

/-- The end of `cb_netsim_send_to`: the primary copy, and perhaps a duplicate. -/
def sendCopies (env : Env) (net : Net) (src dest : Addr) (buf : List UInt8) :
    Option ((Info × List Rolls) × Net) := do
  let (now, net) := net.now env
  let (primary, net) ← sendCopy env net src dest buf now
  match primary with
  | none => return ((.netsimAllocFailed, []), net)
  | some primary =>
    let (dup, rng) := net.rng.chanceFx16 net.params.dupProb
    let net := { net with rng }
    if !dup then return ((.ok, [primary]), net)
    let (second, net) ← sendCopy env net src dest buf now
    match second with
    -- the first copy stays on its way
    | none => return ((.netsimAllocFailed, [primary]), net)
    | some second =>
      return ((.ok, [primary, second]),
        net.count fun s => { s with duplicated := s.duplicated + 1 })

/-- `cb_netsim_send_to`, with the rolls of the copies that it enqueued. `buf` holds the `len` bytes of
the datagram. -/
def sendTo (env : Env) (net : Net) (ep : Option Handle) (dest : Addr) (buf : List UInt8) :
    Option ((Info × List Rolls) × Net) := do
  match ep with
  | none => return ((.genericError, []), net)
  | some ep =>
    if !ep.attached then return ((.genericError, []), net)
    if maxDatagramBytes < buf.length then return ((.netsimPayloadTooLarge, []), net)
    let net := net.count fun s => { s with enqueued := s.enqueued + 1 }
    match ← findEndpoint net dest with
    | none => return ((.ok, []), net.count fun s => { s with dropped := s.dropped + 1 })
    | some destEp =>
      let e ← net.cells.cell destEp
      -- one test, whether or not a second copy is to follow
      if net.params.maxQueueBytes ≠ 0 ∧
          net.params.maxQueueBytes.toUInt64 < e.val.bytesInFlight + UInt64.ofNat buf.length then
        return ((.ok, []), net.count fun s => { s with queueFull := s.queueFull + 1 })
      let (drop, rng) := net.rng.chanceFx16 net.params.dropProb
      let net := { net with rng }
      if drop then return ((.ok, []), net.count fun s => { s with dropped := s.dropped + 1 })
      sendCopies env net ep.addr dest buf

/-! ## Step, receive and flush -/

/-- Append a node to the ready FIFO of an endpoint. -/
def appendReady (net : Net) (ep node : Ptr) : Option Net := do
  let e ← net.cells.cell ep
  match e.val.readyTail with
  | some tail =>
    let nodes ← net.nodes.setNext tail (some node)
    let cells ← net.cells.modify ep ({ · with readyTail := some node })
    return { net with nodes, cells }
  | none =>
    let cells ← net.cells.modify ep ({ · with readyHead := some node, readyTail := some node })
    return { net with cells }

/-- The branch of `cb_netsim_step` for a node whose destination is not bound. -/
def dropSilently (net : Net) (node : Ptr) : Option Net := do
  let nodes ← net.nodes.free node
  return { net with nodes }.count fun s => { s with dropped := s.dropped + 1 }

/-- The loop of `cb_netsim_step`. `unbound` is its branch for a node whose destination is not
bound. -/
def stepLoop (unbound : Net → Ptr → Option Net) (now : UInt64) :
    Nat → Net → UInt32 → Option (UInt32 × Net)
  | 0, _, _ => none
  | n + 1, net, moved =>
    match net.pending with
    | none => some (moved, net)
    | some node => do
      let c ← net.nodes.cell node
      if c.val.scheduledNs ≤ now then
        let nodes ← net.nodes.setNext node none
        let net := { net with pending := c.next, nodes }
        match ← findEndpoint net c.val.dest with
        -- its endpoint was closed since
        | none =>
          let net ← unbound net node
          stepLoop unbound now n net moved
        | some ep =>
          let net ← appendReady net ep node
          stepLoop unbound now n net (moved + 1)
      else some (moved, net)

/-- `cb_netsim_step` with any branch for unbound destinations. Every round takes a node off the pending
list. -/
def stepWith (unbound : Net → Ptr → Option Net) (env : Env) (net : Net) : Option (UInt32 × Net) :=
  let (now, net) := net.now env
  stepLoop unbound now (net.nodes.brk + 1) net 0

def step (env : Env) (net : Net) : Option (UInt32 × Net) := stepWith dropSilently env net

/-- What `cb_netsim_recv_from` returns and writes: the info, `*out_src`, the bytes at `out_buf` and
`*out_len`. -/
structure Received where
  info : Info
  src : Option Addr
  payload : List UInt8
  len : Option Nat

/-- `cb_netsim_recv_from` with any value in place of the 0 that it clamps to. `outSrc`, `outBuf` and
`outLen` say which of the pointers are not NULL. -/
def recvWith (clamp : UInt64) (net : Net) (ep : Option Handle) (outSrc outBuf : Bool)
    (outCap : Nat) (outLen : Bool) : Option (Received × Net) := do
  match ep with
  | none => return (⟨.genericError, none, [], none⟩, net)
  | some ep =>
    if !ep.attached || !outLen then return (⟨.genericError, none, [], none⟩, net)
    match ← findEndpoint net ep.addr with
    | none => return (⟨.netsimEmpty, none, [], some 0⟩, net)
    | some e =>
      let c ← net.cells.cell e
      match c.val.readyHead with
      | none => return (⟨.netsimEmpty, none, [], some 0⟩, net)
      | some node =>
        let n ← net.nodes.cell node
        -- the datagram stays at the head, for a larger buffer
        if outCap < n.val.len then
          return (⟨.netsimBufTooSmall, none, [], some n.val.len⟩, net)
        let len := UInt64.ofNat n.val.len
        let cells ← net.cells.modify e fun e => { e with
          readyHead := n.next
          readyTail := if n.next = none then none else e.readyTail
          bytesInFlight := if len ≤ e.bytesInFlight then e.bytesInFlight - len else clamp }
        let nodes ← net.nodes.free node
        let received : Received := {
          info := .ok
          src := if outSrc then some n.val.src else none
          payload := if 0 < n.val.len ∧ outBuf then n.val.payload else []
          len := some n.val.len }
        return (received,
          { net with cells, nodes }.count fun s => { s with delivered := s.delivered + 1 })

def recvFrom (net : Net) (ep : Option Handle) (outSrc outBuf : Bool) (outCap : Nat)
    (outLen : Bool) : Option (Received × Net) :=
  recvWith 0 net ep outSrc outBuf outCap outLen

/-- The second loop of `cb_netsim_flush`. -/
def flushLoop : Nat → Net → Option Ptr → Option Net
  | _, net, none => some net
  | 0, _, some _ => none
  | n + 1, net, some e => do
    let net ← dropEndpointReady net e
    let c ← net.cells.cell e
    flushLoop n net c.next

def flush (net : Net) : Option Net := do
  let nodes ← freeAll net.nodes net.pending
  flushLoop net.cells.brk { net with nodes, pending := none } net.endpoints

end CBase.NetSim
