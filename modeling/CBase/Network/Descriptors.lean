import CBase.Lib.Run
import CBase.Network.Socket

/-!
# Descriptors

A program that keeps every socket in a variable of its own. `Owned` is what holds after every run, for
every answer of the operating system: the descriptors that are open are those of the sockets, each once,
and those that were open before. `cb_net_poll` is left out: it hands the descriptors of its caller to
`poll`, and opens and closes none.

* `Opens`: what a function that opens a socket does to the descriptors.
* `descriptor_discipline`: nothing leaks, nothing is closed twice, and no system call reaches a
  descriptor of somebody else.
-/

namespace CBase.Network

open NetSim (Addr)

/-- The operating system and the variables of the program. -/
structure World where
  kernel : Kernel
  sockets : List Socket

inductive Act where
  | udpOpen (port : UInt16)
  | tcpListen (port : UInt16) (backlog : Int32)
  | tcpConnect (dest : Addr)
  | tcpAccept (i : Nat)
  | close (i : Nat)
  | udpSend (i : Nat) (dest : Addr) (data : List UInt8)
  | udpRecv (i : Nat) (size : Nat)
  | tcpSend (i : Nat) (data : List UInt8)
  | tcpRecv (i : Nat) (size : Nat)

/-- A new variable holds what a function returned. -/
def World.keep (w : World) (r : Socket × Kernel) : World := ⟨r.2, w.sockets ++ [r.1]⟩

def World.on (w : World) (i : Nat) (f : Socket → World) : World :=
  match w.sockets[i]? with
  | none => w
  | some s => f s

def act (os : Os) (w : World) : Act → World
  | .udpOpen port => w.keep (udpOpen os w.kernel port)
  | .tcpListen port backlog => w.keep (tcpListen os w.kernel port backlog)
  | .tcpConnect dest => w.keep (tcpConnect os w.kernel dest)
  | .tcpAccept i => w.on i fun l => w.keep (tcpAccept os w.kernel l)
  | .close i => w.on i fun s =>
    ⟨(closeSocket w.kernel s).2, w.sockets.set i (closeSocket w.kernel s).1.2⟩
  | .udpSend i dest data => w.on i fun s => { w with kernel := (udpSend os w.kernel s dest data).2 }
  | .udpRecv i size => w.on i fun s => { w with kernel := (udpRecv os w.kernel s size).2 }
  | .tcpSend i data => w.on i fun s => { w with kernel := (tcpSend os w.kernel s data).2 }
  | .tcpRecv i size => w.on i fun s => { w with kernel := (tcpRecv os w.kernel s size).2 }

def Step (os : Os) (w : World) (a : Act) (w' : World) : Prop := act os w a = w'

def World.handles (w : World) : List Nat := w.sockets.filterMap Socket.handle

/-- Every call on a descriptor was on one that was open, and on none of `others`. -/
def Polite (others : List Nat) (log : List Entry) : Prop :=
  ∀ e ∈ log, ∀ fd, e.handle = some fd → e.live = true ∧ fd ∉ others

structure Owned (others : List Nat) (w : World) : Prop where
  opened : w.kernel.opened.Perm (w.handles ++ others)
  nodup : (w.handles ++ others).Nodup
  polite : Polite others w.kernel.log
  failed : ∀ s ∈ w.sockets, s.info ≠ .ok → s.handle = none

/-! ## One system call -/

variable {others l : List Nat} {os : Os} {k : Kernel} {fd : Nat} {handle : Option Nat} {request : Request}

@[simp] theorem opened_record : (k.record handle request).opened = k.opened := rfl

@[simp] theorem opened_call : (k.call os handle request).2.opened = k.opened := rfl

theorem Polite.record (h : Polite others k.log)
    (hhandle : ∀ fd, handle = some fd → fd ∈ k.opened ∧ fd ∉ others) :
    Polite others (k.record handle request).log := by
  intro e he fd hfd
  rcases List.mem_append.mp he with hold | hnew
  · exact h e hold fd hfd
  · rw [List.mem_singleton.mp hnew] at hfd ⊢
    obtain rfl : handle = some fd := hfd
    obtain ⟨hopen, hmine⟩ := hhandle fd rfl
    exact ⟨by simp [Kernel.isOpen, hopen], hmine⟩

theorem Polite.call (h : Polite others k.log)
    (hhandle : ∀ fd, handle = some fd → fd ∈ k.opened ∧ fd ∉ others) :
    Polite others (k.call os handle request).2.log := h.record hhandle

/-! ## Opening -/

/-- What a function that opens a socket does: it fails and leaves the descriptors as they are, or the
socket has a descriptor that was not open. -/
inductive Opens (others : List Nat) (opened : List Nat) : Socket × Kernel → Prop
  | failed {info : Info} {k : Kernel} : info ≠ .ok → k.opened = opened → Polite others k.log →
      Opens others opened (⟨info, none⟩, k)
  | granted {fd : Nat} {k : Kernel} : fd ∉ opened → k.opened = fd :: opened → Polite others k.log →
      Opens others opened (⟨.ok, some fd⟩, k)

/-- The descriptor that is being set up. -/
structure Fresh (others opened : List Nat) (fd : Nat) (k : Kernel) : Prop where
  fresh : fd ∉ opened
  opened : k.opened = fd :: opened
  mine : fd ∉ others
  polite : Polite others k.log

namespace Fresh

variable {opened : List Nat}

theorem call (h : Fresh others opened fd k) (os : Os) (request : Request) :
    Fresh others opened fd (k.call os (some fd) request).2 where
  fresh := h.fresh
  opened := h.opened
  mine := h.mine
  polite := h.polite.call fun fd' hfd' => by
    obtain rfl := Option.some.inj hfd'
    exact ⟨h.opened ▸ List.mem_cons_self, h.mine⟩

/-- A function that fails gives its descriptor back. -/
theorem close (h : Fresh others opened fd k) {info : Info} (hinfo : info ≠ .ok) :
    Opens others opened (⟨info, none⟩, k.close fd) := by
  refine .failed hinfo ?_ (h.polite.record fun fd' hfd' => ?_)
  · show k.opened.erase fd = opened
    rw [h.opened, List.erase_cons_head]
  · obtain rfl := Option.some.inj hfd'
    exact ⟨h.opened ▸ List.mem_cons_self, h.mine⟩

theorem nonblock_failed : Info.netNonblockFailed ≠ .ok := nofun

theorem nonblocking (h : Fresh others opened fd k) (os : Os) :
    Opens others opened (nonblockingSocket os k fd) := by
  have hflags := h.call os .getFlags
  unfold nonblockingSocket setNonblocking
  by_cases hfirst : (k.call os (some fd) .getFlags).1 = .done
  · have hset := hflags.call os .setNonblock
    by_cases hsecond : ((k.call os (some fd) .getFlags).2.call os (some fd) .setNonblock).1 = .done
    · simpa [hfirst, hsecond] using Opens.granted hset.fresh hset.opened hset.polite
    · simpa [hfirst, hsecond] using hset.close nonblock_failed
  · simpa [hfirst] using hflags.close nonblock_failed

end Fresh

variable {opened : List Nat}

/-- `socket` fails, or grants a descriptor to set up. -/
theorem socket_spec (hothers : ∀ fd ∈ others, fd ∈ k.opened) (hpolite : Polite others k.log) (os : Os)
    (stream : Bool) :
    ((k.socket os stream).1 = none ∧
      Opens others k.opened (⟨.netSocketFailed, none⟩, (k.socket os stream).2)) ∨
    ∃ fd, (k.socket os stream).1 = some fd ∧ Fresh others k.opened fd (k.socket os stream).2 := by
  have hlog : Polite others (k.record none (.socket stream)).log := hpolite.record nofun
  unfold Kernel.socket
  cases hgrant : os.grant k.calls k.opened with
  | none => exact .inl ⟨rfl, .failed nofun rfl hlog⟩
  | some fd =>
    have hfresh := os.fresh _ _ _ hgrant
    exact .inr ⟨fd, rfl, hfresh, rfl, fun hmem => hfresh (hothers fd hmem), hlog⟩

theorem udpOpen_opens (hothers : ∀ fd ∈ others, fd ∈ k.opened) (hpolite : Polite others k.log) (os : Os)
    (port : UInt16) : Opens others k.opened (udpOpen os k port) := by
  unfold udpOpen
  rcases socket_spec hothers hpolite os false with ⟨hnone, hopens⟩ | ⟨fd, hfd, hfresh⟩
  · simpa [hnone] using hopens
  · have hbind := (hfresh.call os .reuseAddr).call os (.bind (anyAddr port))
    simp only [hfd]
    split
    · exact hbind.close nofun
    · exact hbind.nonblocking os

theorem tcpListen_opens (hothers : ∀ fd ∈ others, fd ∈ k.opened) (hpolite : Polite others k.log) (os : Os)
    (port : UInt16) (backlog : Int32) : Opens others k.opened (tcpListen os k port backlog) := by
  unfold tcpListen
  rcases socket_spec hothers hpolite os true with ⟨hnone, hopens⟩ | ⟨fd, hfd, hfresh⟩
  · simpa [hnone] using hopens
  · have hbind := (hfresh.call os .reuseAddr).call os (.bind (anyAddr port))
    have hlisten := hbind.call os (.listen backlog)
    simp only [hfd]
    split
    · exact hbind.close nofun
    · split
      · exact hlisten.close nofun
      · exact hlisten.nonblocking os

theorem tcpConnect_opens (hothers : ∀ fd ∈ others, fd ∈ k.opened) (hpolite : Polite others k.log) (os : Os)
    (dest : Addr) : Opens others k.opened (tcpConnect os k dest) := by
  unfold tcpConnect
  rcases socket_spec hothers hpolite os true with ⟨hnone, hopens⟩ | ⟨fd, hfd, hfresh⟩
  · simpa [hnone] using hopens
  · have hconnect := hfresh.call os (.connect (addrToSockaddr dest))
    simp only [hfd]
    split
    · exact hconnect.close nofun
    · exact hconnect.nonblocking os

theorem tcpAccept_opens (hothers : ∀ fd ∈ others, fd ∈ k.opened) (hpolite : Polite others k.log) (os : Os)
    {s : Socket} (hs : ∀ fd, s.handle = some fd → fd ∈ k.opened ∧ fd ∉ others) :
    Opens others k.opened (tcpAccept os k s) := by
  have hlog : Polite others (k.call os s.handle .accept).2.log := hpolite.call hs
  have hopened : (k.call os s.handle .accept).2.opened = k.opened := rfl
  unfold tcpAccept Kernel.accept
  generalize k.call os s.handle .accept = c at hlog hopened ⊢
  obtain ⟨outcome, k'⟩ := c
  cases outcome with
  | done =>
    cases hgrant : os.grant k.calls k.opened with
    | none => exact .failed nofun hopened hlog
    | some fd =>
      have hnew := os.fresh _ _ _ hgrant
      have hfresh : Fresh others k.opened fd { k' with opened := fd :: k'.opened } :=
        ⟨hnew, congrArg (fd :: ·) hopened, fun hmem => hnew (hothers fd hmem), hlog⟩
      exact hfresh.nonblocking os
  | again => exact .failed nofun hopened hlog
  | failed => exact .failed nofun hopened hlog

/-! ## Sending and receiving -/

theorem kernel_udpSend (os : Os) (k : Kernel) (s : Socket) (dest : Addr) (data : List UInt8) :
    (udpSend os k s dest data).2 = k.record s.handle (.sendTo data (addrToSockaddr dest)) := by
  unfold udpSend
  dsimp only
  split <;> rfl

theorem kernel_udpRecv (os : Os) (k : Kernel) (s : Socket) (size : Nat) :
    (udpRecv os k s size).2 = k.record s.handle (.recvFrom size) := by
  unfold udpRecv
  dsimp only
  split <;> rfl

theorem kernel_tcpSend (os : Os) (k : Kernel) (s : Socket) (data : List UInt8) :
    (tcpSend os k s data).2 = k.record s.handle (.send data) := by
  unfold tcpSend
  dsimp only
  split <;> rfl

theorem kernel_tcpRecv (os : Os) (k : Kernel) (s : Socket) (size : Nat) :
    (tcpRecv os k s size).2 = k.record s.handle (.recv size) := by
  unfold tcpRecv
  dsimp only
  split
  · rfl
  · split <;> rfl

/-! ## Runs -/

namespace Owned

variable {w : World}

theorem others_open (h : Owned others w) : ∀ fd ∈ others, fd ∈ w.kernel.opened := fun _ hfd =>
  h.opened.mem_iff.mpr (List.mem_append_right _ hfd)

/-- The descriptor of a variable is open, and nobody else's. -/
theorem of_handle (h : Owned others w) {s : Socket} (hs : s ∈ w.sockets) (fd : Nat)
    (hfd : s.handle = some fd) : fd ∈ w.kernel.opened ∧ fd ∉ others := by
  have hmem : fd ∈ w.handles := List.mem_filterMap.mpr ⟨s, hs, hfd⟩
  exact ⟨h.opened.mem_iff.mpr (List.mem_append_left _ hmem),
    fun hother => (List.nodup_append.mp h.nodup).2.2 fd hmem fd hother rfl⟩

theorem keep (h : Owned others w) {r : Socket × Kernel} (hr : Opens others w.kernel.opened r) :
    Owned others (w.keep r) := by
  cases hr with
  | @failed info k hinfo hopened hpolite =>
    have hhandles : (w.keep (⟨info, none⟩, k)).handles = w.handles := by
      simp [World.handles, World.keep]
    refine ⟨?_, ?_, hpolite, ?_⟩
    · rw [hhandles]
      exact hopened ▸ h.opened
    · rw [hhandles]
      exact h.nodup
    · intro s hs hfailed
      rcases List.mem_append.mp hs with hold | hnew
      · exact h.failed s hold hfailed
      · rw [List.mem_singleton.mp hnew]
  | @granted fd k hfresh hopened hpolite =>
    have hhandles : (w.keep (⟨.ok, some fd⟩, k)).handles = w.handles ++ [fd] := by
      simp [World.handles, World.keep]
    have hperm : (w.handles ++ [fd] ++ others).Perm (fd :: (w.handles ++ others)) := by
      rw [List.append_assoc]
      exact List.perm_middle
    refine ⟨?_, ?_, hpolite, ?_⟩
    · rw [hhandles]
      show k.opened.Perm _
      rw [hopened]
      exact (h.opened.cons fd).trans hperm.symm
    · rw [hhandles, hperm.nodup_iff, List.nodup_cons, ← h.opened.mem_iff]
      exact ⟨hfresh, h.nodup⟩
    · intro s hs hfailed
      rcases List.mem_append.mp hs with hold | hnew
      · exact h.failed s hold hfailed
      · rw [List.mem_singleton.mp hnew] at hfailed
        exact absurd rfl hfailed

theorem close (h : Owned others w) {i : Nat} {s : Socket} (hs : w.sockets[i]? = some s) :
    Owned others ⟨(closeSocket w.kernel s).2, w.sockets.set i (closeSocket w.kernel s).1.2⟩ := by
  have hmem := List.mem_of_getElem? hs
  obtain ⟨hi, hget⟩ := List.getElem?_eq_some_iff.mp hs
  cases hhandle : s.handle with
  | none =>
    have hclose : closeSocket w.kernel s = ((.ok, s), w.kernel) := by simp [closeSocket, hhandle]
    have hsame : w.sockets.set i s = w.sockets := by rw [← hget, List.set_getElem_self]
    rw [hclose, hsame]
    exact h
  | some fd =>
    have hclose : closeSocket w.kernel s = ((.ok, { s with handle := none }), w.kernel.close fd) := by
      simp [closeSocket, hhandle]
    have hlist : w.sockets = w.sockets.take i ++ s :: w.sockets.drop (i + 1) := by
      rw [← hget, ← List.drop_eq_getElem_cons hi, List.take_append_drop]
    have hset : w.sockets.set i { s with handle := none } =
        w.sockets.take i ++ { s with handle := none } :: w.sockets.drop (i + 1) :=
      List.set_eq_take_append_cons_drop.trans (if_pos hi)
    rw [hclose]
    generalize w.sockets.take i = before at hlist hset
    generalize w.sockets.drop (i + 1) = after at hlist hset
    have hold : w.handles = before.filterMap Socket.handle ++ fd :: after.filterMap Socket.handle := by
      rw [World.handles, hlist, List.filterMap_append, List.filterMap_cons_some hhandle]
    have hnew : World.handles ⟨w.kernel.close fd, w.sockets.set i { s with handle := none }⟩ =
        before.filterMap Socket.handle ++ after.filterMap Socket.handle := by
      show List.filterMap Socket.handle (w.sockets.set i { s with handle := none }) = _
      rw [hset, List.filterMap_append, List.filterMap_cons_none rfl]
    have hperm : (w.handles ++ others).Perm (fd :: (before.filterMap Socket.handle ++
        after.filterMap Socket.handle ++ others)) := by
      rw [hold, List.append_assoc, List.append_assoc, List.cons_append]
      exact List.perm_middle
    have hnodup := hperm.nodup_iff.mp h.nodup
    refine ⟨?_, ?_, h.polite.record (h.of_handle hmem · <| hhandle.trans ·), ?_⟩
    · rw [hnew]
      have herase := (h.opened.trans hperm).erase fd
      rwa [List.erase_cons_head] at herase
    · rw [hnew]
      exact (List.nodup_cons.mp hnodup).2
    · intro x hx hfailed
      rcases List.mem_or_eq_of_mem_set hx with hold | rfl
      · exact h.failed x hold hfailed
      · rfl

/-- One call that neither opens nor closes. -/
theorem ofCall (h : Owned others w) {s : Socket} (hs : s ∈ w.sockets) {k : Kernel} {request : Request}
    (hk : k = w.kernel.record s.handle request) : Owned others { w with kernel := k } := by
  subst hk
  exact ⟨h.opened, h.nodup, h.polite.record (h.of_handle hs), h.failed⟩

theorem on (h : Owned others w) (i : Nat) {f : Socket → World}
    (hf : ∀ s, w.sockets[i]? = some s → Owned others (f s)) : Owned others (w.on i f) := by
  unfold World.on
  cases hs : w.sockets[i]? with
  | none => exact h
  | some s => exact hf s hs

theorem act (h : Owned others w) (os : Os) (a : Act) : Owned others (act os w a) := by
  cases a with
  | udpOpen port => exact h.keep (udpOpen_opens h.others_open h.polite os port)
  | tcpListen port backlog => exact h.keep (tcpListen_opens h.others_open h.polite os port backlog)
  | tcpConnect dest => exact h.keep (tcpConnect_opens h.others_open h.polite os dest)
  | tcpAccept i =>
    exact h.on i fun l hl => h.keep
      (tcpAccept_opens h.others_open h.polite os (h.of_handle (List.mem_of_getElem? hl)))
  | close i => exact h.on i fun s hs => h.close hs
  | udpSend i dest data => exact h.on i fun s hs => h.ofCall (List.mem_of_getElem? hs) (kernel_udpSend ..)
  | udpRecv i size => exact h.on i fun s hs => h.ofCall (List.mem_of_getElem? hs) (kernel_udpRecv ..)
  | tcpSend i data => exact h.on i fun s hs => h.ofCall (List.mem_of_getElem? hs) (kernel_tcpSend ..)
  | tcpRecv i size => exact h.on i fun s hs => h.ofCall (List.mem_of_getElem? hs) (kernel_tcpRecv ..)

end Owned

/-- A program that keeps every socket in a variable of its own, in any order of calls and for every
answer of the operating system: the open descriptors are those of its sockets, each once, and those
that were open before; a function that fails leaves no descriptor; every system call is on a
descriptor that is open then, and none touches a descriptor of somebody else. -/
theorem descriptor_discipline {h : List (Taken World Act)} {w : World} (hothers : others.Nodup)
    (hrun : Run (Step os) ⟨⟨others, []⟩, []⟩ h w) :
    w.kernel.opened.Perm (w.handles ++ others) ∧ (w.handles ++ others).Nodup ∧
      (∀ s ∈ w.sockets, s.info ≠ .ok → s.handle = none) ∧
      ∀ e ∈ w.kernel.log, ∀ fd, e.handle = some fd → e.live = true ∧ fd ∉ others := by
  have howned : Owned others w := by
    refine hrun.invariant (Owned others) ⟨List.Perm.refl _, hothers, nofun, nofun⟩ ?_
    rintro w a w' howned rfl
    exact howned.act os a
  exact ⟨howned.opened, howned.nodup, howned.failed, howned.polite⟩

/-- Every call succeeds, and a new descriptor is larger than those that are open. -/
def willing : Os where
  grant _ l := some (l.sum + 1)
  fresh n l fd h hmem := by
    have hle := List.le_sum_of_mem hmem
    rw [← Option.some.inj h] at hle
    omega
  outcome _ := .done
  taken _ size := size
  arrived _ _ := ([], ⟨[], []⟩)

/-- A socket is opened and closed twice. -/
theorem descriptor_discipline_closed :
    (act willing (act willing (act willing ⟨⟨[0, 1, 2], []⟩, []⟩ (.udpOpen 7)) (.close 0))
      (.close 0)).kernel.opened.Perm [0, 1, 2] :=
  (descriptor_discipline (by decide) (.snoc (.snoc (.snoc .nil rfl) rfl) rfl)).1

end CBase.Network
