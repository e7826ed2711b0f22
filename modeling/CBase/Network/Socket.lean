import CBase.Lib.LittleEndian
import CBase.NetSim.FailedSend

/-!
# Sockets

The POSIX build of `cbase_network.c`. `Kernel` is the operating system as the library sees it: the
descriptors that are open, and the system calls so far, oldest first. `Os` is what it answers: which
descriptor it grants, and how every other call ends. A call on a descriptor that is not open fails and
is never told to try again.
-/

namespace CBase.Network

open NetSim (Addr IoResult)

/-! ## The operating system -/

/-- The port and the address of a `struct sockaddr_in`, as bytes in memory. -/
structure Sockaddr where
  port : List UInt8
  addr : List UInt8
  deriving DecidableEq

/-- A system call, on a descriptor unless it is `socket`. -/
inductive Request where
  | socket (stream : Bool)
  | reuseAddr
  | bind (sa : Sockaddr)
  | listen (backlog : Int32)
  | connect (sa : Sockaddr)
  | getFlags
  | setNonblock
  | accept
  | sendTo (data : List UInt8) (sa : Sockaddr)
  | recvFrom (size : Nat)
  | send (data : List UInt8)
  | recv (size : Nat)
  | close

/-- How a system call ends. A failure may ask to try again (`EAGAIN`). -/
inductive Outcome where
  | done
  | again
  | failed
  deriving DecidableEq

/-- What the operating system answers to the `n`-th call. -/
structure Os where
  /-- The descriptor of a `socket` or an `accept`, beside those that are open. -/
  grant : Nat → List Nat → Option Nat
  fresh : ∀ n l fd, grant n l = some fd → fd ∉ l
  outcome : Nat → Outcome
  /-- How many bytes of `size` a send takes. -/
  taken : Nat → Nat → Nat
  /-- What a receive of at most `size` bytes gets, and from where. -/
  arrived : Nat → Nat → List UInt8 × Sockaddr

/-- A system call that was made. `live` says that its descriptor was open. -/
structure Entry where
  handle : Option Nat
  request : Request
  live : Bool

structure Kernel where
  opened : List Nat
  log : List Entry

def Kernel.calls (k : Kernel) : Nat := k.log.length

def Kernel.isOpen (k : Kernel) (handle : Option Nat) : Bool := handle.any (k.opened.contains ·)

def Kernel.record (k : Kernel) (handle : Option Nat) (request : Request) : Kernel :=
  { k with log := k.log ++ [⟨handle, request, k.isOpen handle⟩] }

def Kernel.call (os : Os) (k : Kernel) (handle : Option Nat) (request : Request) : Outcome × Kernel :=
  (if k.isOpen handle then os.outcome k.calls else .failed, k.record handle request)

def Kernel.socket (os : Os) (k : Kernel) (stream : Bool) : Option Nat × Kernel :=
  match os.grant k.calls k.opened with
  | none => (none, k.record none (.socket stream))
  | some fd => (some fd, { k.record none (.socket stream) with opened := fd :: k.opened })

/-- `accept`. The outcome is that of the call on the listener. -/
def Kernel.accept (os : Os) (k : Kernel) (handle : Option Nat) : Except Outcome Nat × Kernel :=
  let fd := os.grant k.calls k.opened
  match k.call os handle .accept, fd with
  | (.done, k), some fd => (.ok fd, { k with opened := fd :: k.opened })
  | (.done, k), none => (.error .failed, k)
  | (outcome, k), _ => (.error outcome, k)

def Kernel.close (k : Kernel) (fd : Nat) : Kernel :=
  { k.record (some fd) .close with opened := k.opened.erase fd }

/-! ## Addresses -/

/-- `cb__addr_to_sockaddr`: both fields in network byte order. -/
def addrToSockaddr (a : Addr) : Sockaddr :=
  ⟨(LittleEndian.toBytes 2 a.port.toNat).reverse, (LittleEndian.toBytes 4 a.ip.toNat).reverse⟩

def sockaddrToAddr (sa : Sockaddr) : Addr :=
  ⟨.ofNat (LittleEndian.ofBytes sa.addr.reverse), .ofNat (LittleEndian.ofBytes sa.port.reverse)⟩

theorem sockaddrToAddr_addrToSockaddr (a : Addr) : sockaddrToAddr (addrToSockaddr a) = a := by
  obtain ⟨ip, port⟩ := a
  have hport : port.toNat < 256 ^ 2 := port.toNat_lt
  have hip : ip.toNat < 256 ^ 4 := ip.toNat_lt
  simp only [sockaddrToAddr, addrToSockaddr, List.reverse_reverse, LittleEndian.ofBytes_toBytes]
  rw [Nat.mod_eq_of_lt hport, Nat.mod_eq_of_lt hip, UInt32.ofNat_toNat, UInt16.ofNat_toNat]

/-! ## Opening and closing -/

/-- `cb_udp_socket_t`, `cb_tcp_socket_t` and `cb_tcp_listener_t`. No handle is `CB__INVALID_SOCK`. -/
structure Socket where
  info : Info
  handle : Option Nat

def setNonblocking (os : Os) (k : Kernel) (fd : Nat) : Info × Kernel :=
  let (flags, k) := k.call os (some fd) .getFlags
  if flags ≠ .done then (.netNonblockFailed, k)
  else
    let (set, k) := k.call os (some fd) .setNonblock
    if set ≠ .done then (.netNonblockFailed, k) else (.ok, k)

/-- The end of the four functions that open a socket. -/
def nonblockingSocket (os : Os) (k : Kernel) (fd : Nat) : Socket × Kernel :=
  let (info, k) := setNonblocking os k fd
  if info ≠ .ok then (⟨.netNonblockFailed, none⟩, k.close fd) else (⟨.ok, some fd⟩, k)

/-- `INADDR_ANY` and a port. -/
def anyAddr (port : UInt16) : Sockaddr := addrToSockaddr ⟨0, port⟩

def udpOpen (os : Os) (k : Kernel) (bindPort : UInt16) : Socket × Kernel :=
  let (fd, k) := k.socket os false
  match fd with
  | none => (⟨.netSocketFailed, none⟩, k)
  | some fd =>
    -- whether the option was set is not looked at
    let (_, k) := k.call os (some fd) .reuseAddr
    let (bound, k) := k.call os (some fd) (.bind (anyAddr bindPort))
    if bound ≠ .done then (⟨.netBindFailed, none⟩, k.close fd) else nonblockingSocket os k fd

def tcpListen (os : Os) (k : Kernel) (port : UInt16) (backlog : Int32) : Socket × Kernel :=
  let (fd, k) := k.socket os true
  match fd with
  | none => (⟨.netSocketFailed, none⟩, k)
  | some fd =>
    let (_, k) := k.call os (some fd) .reuseAddr
    let (bound, k) := k.call os (some fd) (.bind (anyAddr port))
    if bound ≠ .done then (⟨.netBindFailed, none⟩, k.close fd)
    else
      let (listening, k) := k.call os (some fd) (.listen backlog)
      if listening ≠ .done then (⟨.netListenFailed, none⟩, k.close fd) else nonblockingSocket os k fd

def tcpConnect (os : Os) (k : Kernel) (dest : Addr) : Socket × Kernel :=
  let (fd, k) := k.socket os true
  match fd with
  | none => (⟨.netSocketFailed, none⟩, k)
  | some fd =>
    let (connected, k) := k.call os (some fd) (.connect (addrToSockaddr dest))
    if connected ≠ .done then (⟨.netConnectFailed, none⟩, k.close fd) else nonblockingSocket os k fd

def tcpAccept (os : Os) (k : Kernel) (l : Socket) : Socket × Kernel :=
  match k.accept os l.handle with
  | (.error .again, k) => (⟨.netWouldBlock, none⟩, k)
  | (.error _, k) => (⟨.netAcceptFailed, none⟩, k)
  | (.ok fd, k) => nonblockingSocket os k fd

/-- The body of the three functions that close a socket. -/
def closeSocket (k : Kernel) (s : Socket) : (Info × Socket) × Kernel :=
  match s.handle with
  | none => ((.ok, s), k)
  | some fd => ((.ok, { s with handle := none }), k.close fd)

def udpClose (k : Kernel) (s : Socket) : (Info × Socket) × Kernel := closeSocket k s

def tcpListenerClose (k : Kernel) (l : Socket) : (Info × Socket) × Kernel := closeSocket k l

def tcpClose (k : Kernel) (s : Socket) : (Info × Socket) × Kernel := closeSocket k s

/-! ## Sending and receiving -/

/-- `cb_udp_recv_result_t`, with the bytes that are written to the buffer. -/
structure RecvResult where
  info : Info
  source : Addr
  size : Nat
  data : List UInt8

def failure (outcome : Outcome) (info : Info) : Info := if outcome = .again then .netWouldBlock else info

def udpSend (os : Os) (k : Kernel) (s : Socket) (dest : Addr) (data : List UInt8) : IoResult × Kernel :=
  let (sent, k') := k.call os s.handle (.sendTo data (addrToSockaddr dest))
  if sent ≠ .done then (⟨failure sent .netSendFailed, 0⟩, k')
  else (⟨.ok, os.taken k.calls data.length⟩, k')

def udpRecv (os : Os) (k : Kernel) (s : Socket) (bufSize : Nat) : RecvResult × Kernel :=
  let (got, k') := k.call os s.handle (.recvFrom bufSize)
  if got ≠ .done then (⟨failure got .netRecvFailed, ⟨0, 0⟩, 0, []⟩, k')
  else
    let (data, sa) := os.arrived k.calls bufSize
    (⟨.ok, sockaddrToAddr sa, data.length, data⟩, k')

def tcpSend (os : Os) (k : Kernel) (s : Socket) (data : List UInt8) : IoResult × Kernel :=
  let (sent, k') := k.call os s.handle (.send data)
  if sent ≠ .done then (⟨failure sent .netSendFailed, 0⟩, k')
  else (⟨.ok, os.taken k.calls data.length⟩, k')

/-- `cb_tcp_recv`, with the bytes that are written to the buffer. -/
def tcpRecv (os : Os) (k : Kernel) (s : Socket) (bufSize : Nat) : (IoResult × List UInt8) × Kernel :=
  let (got, k') := k.call os s.handle (.recv bufSize)
  if got ≠ .done then ((⟨failure got .netRecvFailed, 0⟩, []), k')
  else
    let (data, _) := os.arrived k.calls bufSize
    -- without bytes the peer has closed the connection
    if data = [] then ((⟨.netClosed, 0⟩, []), k') else ((⟨.ok, data.length⟩, data), k')

end CBase.Network
