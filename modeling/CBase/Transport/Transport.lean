import CBase.Network.Socket

/-!
# Transports

A transport sends and receives datagrams through a table of functions, of which there are two: one for
sockets and one for endpoints of the simulator. `impl` points to a variable of the caller, which is in
`World` with everything that the functions reach.

A function that follows a NULL or dangling pointer has no result.
-/

namespace CBase.Transport

open NetSim (Addr IoResult Handle Net)
open Network (Os Kernel Socket RecvResult)

/-- The operating system and the simulator, with the variables of the caller. -/
structure World where
  kernel : Kernel
  sockets : List Socket
  net : Net
  endpoints : List Handle

/-- `cb_transport_ops_t`. The buffer of a receive is not NULL. -/
structure Ops where
  send : Option (World → Option Nat → Addr → List UInt8 → Option (IoResult × World))
  recv : Option (World → Option Nat → Nat → Option (RecvResult × World))
  close : Option (World → Option Nat → Option (Info × World))

end CBase.Transport

namespace CBase

structure Transport where
  info : Info
  ops : Option Transport.Ops
  impl : Option Nat

end CBase

namespace CBase.Transport

open NetSim (Addr IoResult Handle Net)
open Network (Os Kernel Socket RecvResult)

def nothing (info : Info) : RecvResult := ⟨info, ⟨0, 0⟩, 0, []⟩

/-! ## Sockets -/

/-- `*(cb_udp_socket_t *)impl`. -/
def World.socket (w : World) (impl : Option Nat) : Option Socket := impl.bind (w.sockets[·]?)

def transportUdpSend (os : Os) (w : World) (impl : Option Nat) (dest : Addr) (data : List UInt8) :
    Option (IoResult × World) := do
  let s ← w.socket impl
  let (r, kernel) := Network.udpSend os w.kernel s dest data
  return (r, { w with kernel })

def transportUdpRecv (os : Os) (w : World) (impl : Option Nat) (bufSize : Nat) :
    Option (RecvResult × World) := do
  let s ← w.socket impl
  let (r, kernel) := Network.udpRecv os w.kernel s bufSize
  return (r, { w with kernel })

def transportUdpClose (w : World) (impl : Option Nat) : Option (Info × World) := do
  let i ← impl
  let s ← w.sockets[i]?
  let ((info, s), kernel) := Network.udpClose w.kernel s
  return (info, { w with kernel, sockets := w.sockets.set i s })

def transportUdpOps (os : Os) : Ops where
  send := some (transportUdpSend os)
  recv := some (transportUdpRecv os)
  close := some transportUdpClose

/-! ## Endpoints of the simulator -/

/-- `(cb_netsim_endpoint_t *)impl` and what it points to, if it is not NULL. -/
def World.endpoint (w : World) (impl : Option Nat) : Option (Option Handle) :=
  match impl with
  | none => some none
  | some i => w.endpoints[i]?.map some

def transportNetsimSend (env : NetSim.Env) (w : World) (impl : Option Nat) (dest : Addr)
    (data : List UInt8) : Option (IoResult × World) := do
  let ep ← w.endpoint impl
  let (r, net) ← NetSim.transportNetsimSend env w.net ep dest data
  return (r, { w with net })

/-- What `cb__transport_netsim_recv` makes of the answer of the simulator. -/
def adapt (got : NetSim.Received) : RecvResult :=
  if got.info = .netsimEmpty then nothing .netWouldBlock
  else if got.info ≠ .ok then nothing got.info
  else ⟨.ok, got.src.getD ⟨0, 0⟩, got.len.getD 0, got.payload⟩

def transportNetsimRecv (w : World) (impl : Option Nat) (bufSize : Nat) :
    Option (RecvResult × World) := do
  let ep ← w.endpoint impl
  let (got, net) ← NetSim.recvFrom w.net ep true true bufSize true
  return (adapt got, { w with net })

def transportNetsimClose (w : World) (_ : Option Nat) : Option (Info × World) := some (.ok, w)

def transportNetsimOps (env : NetSim.Env) : Ops where
  send := some (transportNetsimSend env)
  recv := some transportNetsimRecv
  close := some transportNetsimClose

/-! ## Factories -/

def transportUdp (os : Os) (w : World) (udp : Option Nat) : Option Transport :=
  match udp with
  | none => some ⟨.genericError, some (transportUdpOps os), none⟩
  | some i => do
    let s ← w.sockets[i]?
    return ⟨if s.info ≠ .ok then .genericError else .ok, some (transportUdpOps os), some i⟩

def transportNetsim (env : NetSim.Env) (w : World) (ep : Option Nat) : Option Transport :=
  match ep with
  | none => some ⟨.genericError, some (transportNetsimOps env), none⟩
  | some i => do
    let e ← w.endpoints[i]?
    return ⟨if e.info ≠ .ok then .genericError else .ok, some (transportNetsimOps env), some i⟩

/-! ## Dispatchers -/

def transportSend (w : World) (t : Option Transport) (dest : Addr) (data : List UInt8) :
    Option (IoResult × World) :=
  match t with
  | none => some (⟨.genericError, 0⟩, w)
  | some t =>
    match t.ops.bind Ops.send with
    | none => some (⟨.genericError, 0⟩, w)
    | some send => send w t.impl dest data

def transportRecv (w : World) (t : Option Transport) (bufSize : Nat) : Option (RecvResult × World) :=
  match t with
  | none => some (nothing .genericError, w)
  | some t =>
    match t.ops.bind Ops.recv with
    | none => some (nothing .genericError, w)
    | some recv => recv w t.impl bufSize

def transportClose (w : World) (t : Option Transport) : Option (Info × World) :=
  match t with
  | none => some (.genericError, w)
  | some t =>
    match t.ops.bind Ops.close with
    | none => some (.genericError, w)
    | some close => close w t.impl

end CBase.Transport
