import CBase.Lib.Machine
import CBase.NetSim.Order
import CBase.Transport.Lines
import CBase.Transport.Transport

/-!
# Transports over an ideal network

With one fixed latency, no impairments and memory for every request, the transports over the endpoints
of a simulator are a post office: one line for each bound address, on which every datagram arrives once,
unchanged, in order and after the latency. `Post.act` is the post office, `World.act` the code.

* `act_alike`: in related states they answer alike.
* `ideal_network`: no list of acts tells them apart.
-/

namespace CBase.Transport

open NetSim hiding Reply
open Network (Kernel Socket RecvResult)

/-! ## Acts -/

/-- What a caller asks of a simulator and of the transports over its endpoints. The `i`-th bind returns
the `i`-th variable of endpoints. -/
inductive Act where
  | bind (addr : Addr)
  | unbind (i : Nat)
  | step
  | flush
  | send (i : Nat) (dest : Addr) (data : List UInt8)
  | recv (i : Nat) (bufSize : Nat)
  | close (i : Nat)

inductive Answer where
  | bound (info : Info)
  | unbound
  | moved (n : UInt32)
  | flushed
  | sent (r : IoResult)
  | received (r : RecvResult)
  | closed (info : Info)

/-- One act of the code. An act on a variable that was not bound has no result. -/
def World.act (env : NetSim.Env) (w : World) : Act → Option (Answer × World)
  | .bind addr => do
    let (ep, net) ← NetSim.bind env w.net addr
    return (.bound ep.info, { w with net, endpoints := w.endpoints ++ [ep] })
  | .unbind i => do
    let ep ← w.endpoints[i]?
    let (ep', net) ← NetSim.close w.net (some ep)
    return (.unbound, { w with net, endpoints := w.endpoints.set i (ep'.getD ep) })
  | .step => do
    let (n, net) ← NetSim.step env w.net
    return (.moved n, { w with net })
  | .flush => do
    let net ← NetSim.flush w.net
    return (.flushed, { w with net })
  | .send i dest data => do
    let t ← transportNetsim env w (some i)
    let (r, w) ← transportSend w t dest data
    return (.sent r, w)
  | .recv i bufSize => do
    let t ← transportNetsim env w (some i)
    let (r, w) ← transportRecv w t bufSize
    return (.received r, w)
  | .close i => do
    let t ← transportNetsim env w (some i)
    let (info, w) ← transportClose w t
    return (.closed info, w)

/-! ## The post office -/

/-- A post office, with the variables of the caller and the number of clock readings so far. -/
structure Post where
  lines : Lines
  endpoints : List Handle
  readings : Nat

namespace Post

def empty : Post := ⟨[], [], 0⟩

def bind (p : Post) (addr : Addr) : Answer × Post :=
  match p.lines.find addr with
  | some _ => (.bound .netsimDuplicateAddr,
      { p with endpoints := p.endpoints ++ [⟨.netsimDuplicateAddr, false, addr⟩] })
  | none => (.bound .ok,
      { p with lines := p.lines.add addr, endpoints := p.endpoints ++ [⟨.ok, true, addr⟩] })

def unbind (p : Post) (i : Nat) (ep : Handle) : Answer × Post :=
  if ep.attached then (.unbound, { p with
    lines := p.lines.remove ep.addr
    endpoints := p.endpoints.set i { ep with attached := false } })
  else (.unbound, p)

def step (clock : Nat → UInt64) (p : Post) : Answer × Post :=
  let now := (clock p.readings).toNat
  (.moved (UInt32.ofNat (p.lines.arrivals now)),
    { p with lines := p.lines.deliver now, readings := p.readings + 1 })

/-- A datagram to nowhere is gone. -/
def send (clock : Nat → UInt64) (delay : Nat) (p : Post) (ep : Handle) (dest : Addr)
    (data : List UInt8) : IoResult × Post :=
  if !ep.attached then (⟨.genericError, 0⟩, p)
  else if maxDatagramBytes < data.length then (⟨.netsimPayloadTooLarge, 0⟩, p)
  else
    match p.lines.find dest with
    | none => (⟨.ok, data.length⟩, p)
    | some _ => (⟨.ok, data.length⟩, { p with
        lines := p.lines.update dest (·.post ((clock p.readings).toNat + delay) (ep.addr, data))
        readings := p.readings + 1 })

/-- A datagram that the buffer is too small for stays. -/
def recv (p : Post) (ep : Handle) (bufSize : Nat) : RecvResult × Post :=
  if !ep.attached then (nothing .genericError, p)
  else
    match p.lines.find ep.addr with
    | none => (nothing .netWouldBlock, p)
    | some l =>
      match l.ready with
      | [] => (nothing .netWouldBlock, p)
      | (source, data) :: _ =>
        if bufSize < data.length then (nothing .netsimBufTooSmall, p)
        else (⟨.ok, source, data.length, data⟩,
          { p with lines := p.lines.update ep.addr DelayLine.Line.pop })

/-- One act of the post office. -/
def act (clock : Nat → UInt64) (delay : Nat) (p : Post) : Act → Option (Answer × Post)
  | .bind addr => some (p.bind addr)
  | .unbind i => p.endpoints[i]?.map (p.unbind i)
  | .step => some (p.step clock)
  | .flush => some (.flushed, { p with lines := p.lines.clear })
  | .send i dest data => p.endpoints[i]?.map fun ep =>
    let (r, p) := p.send clock delay ep dest data
    (.sent r, p)
  | .recv i bufSize => p.endpoints[i]?.map fun ep =>
    let (r, p) := p.recv ep bufSize
    (.received r, p)
  | .close i => p.endpoints[i]?.map fun _ => (.closed .ok, p)

end Post

/-! ## An ideal network -/

/-- No impairments, no cap, and one latency of `L` milliseconds. -/
structure Ideal (params : Params) (L : UInt32) : Prop where
  drop : params.dropProb ≤ 0
  dup : params.dupProb ≤ 0
  corrupt : params.corruptProb ≤ 0
  reorder : params.reorderProb ≤ 0
  min : params.latencyMsMin = L
  max : params.latencyMsMax = L
  short : L.toNat < 2 ^ 31
  uncapped : params.maxQueueBytes = 0

/-- Memory for every request, and a clock that does not go back or reach its end. -/
structure Steady (env : NetSim.Env) (L : UInt32) : Prop where
  memory : ∀ n, env.memory n = true
  clock : ∀ m n, m ≤ n → env.clock m ≤ env.clock n
  room : ∀ n, (env.clock n).toNat + L.toNat * 1000000 < 2 ^ 64

def delay (L : UInt32) : Nat := L.toNat * 1000000

section Sends

variable {env : NetSim.Env} {params : Params} {L : UInt32} {src dest : Addr} {buf : List UInt8}
  {now : UInt64} {s s' : Sim}

theorem toNat_latency (h : L.toNat < 2 ^ 31) : (msToNs L.toInt32).toNat = delay L := by
  have hms := Rolls.toNat_msToNs L.toInt32
  rw [MachineInt.toInt_ofUInt32 h] at hms
  unfold delay
  omega

/-- The rolls of a copy that is not impaired. -/
theorem Ideal.rolls (h : Ideal params L) {len : Nat} {r : Rolls} (hr : Rolled params len now r) :
    r = ⟨now, L.toInt32, none, none⟩ := by
  obtain ⟨hlatency, hswap⟩ := hr.fixed h.reorder h.min h.max
  have hflip : r.flip = none := by
    cases hflip : r.flip with
    | none => rfl
    | some bit => exact absurd h.corrupt (Int32.not_le.mpr (hr.flip bit hflip).2)
  have hnow := hr.now
  obtain ⟨_, _, _, _⟩ := r
  subst hnow hlatency hswap hflip
  rfl

def letter (L : UInt32) (now : UInt64) (src dest : Addr) (buf : List UInt8) : Node :=
  ⟨src, dest, now + msToNs L.toInt32, buf, buf.length⟩

/-- With memory and without duplicates a send enqueues one copy as it is. -/
theorem Ideal.sent (h : Ideal params L) (hp : s.params = params) (hmem : ∀ n, env.memory n = true)
    {out : Info × List Rolls} (hlen : buf.length ≤ maxDatagramBytes) (hsent : Sent env src dest buf now s out s') :
    out.1 = .ok ∧ s'.toView = s.post (s.brk, letter L now src dest buf) ∧
      s'.readings = s.readings ∧ s'.params = s.params := by
  have henough {s s' : Sim} (hnone : Enqueued env src dest buf now s none s') : False := by
    obtain ⟨n, -, -, hno⟩ := hnone.denied
    exact hno (hmem n)
  have hparams {s s' : Sim} {o : Option Rolls} (hcopy : Enqueued env src dest buf now s o s') :
      s'.params = s.params := by
    cases hcopy with
    | copy => rfl
    | failed => rfl
  have honce {s₁ : Sim} {r : Rolls} {rng : Rng} (hfirst : Enqueued env src dest buf now s (some r) s₁)
      (hdup : s₁.rng.chanceFx16 s₁.params.dupProb = (true, rng)) : False := by
    have hpos := chanceFx16_pos hdup
    rw [hparams hfirst, hp] at hpos
    exact absurd h.dup (Int32.not_le.mpr hpos)
  cases hsent with
  | failed hnone => exact (henough hnone).elim
  | half hfirst hdup => exact (honce hfirst hdup).elim
  | double hfirst hdup => exact (honce hfirst hdup).elim
  | single hfirst =>
    cases hfirst with
    | copy hroll =>
      have hr := h.rolls (hp ▸ rollCopy_spec hroll hlen)
      subst hr
      exact ⟨rfl, rfl, rfl, rfl⟩

/-- A send to a bound address. -/
theorem Ideal.effect (h : Ideal s.params L) (hmem : ∀ n, env.memory n = true) {ep : Handle} {info : Info}
    {rolls : List Rolls} (hadmitted : Admitted (some ep) buf ep) (hb : (s.box dest).isSome)
    (heffect : Effect env s (.send (some ep) dest buf, .sent info rolls) s') :
    info = .ok ∧ s'.toView = s.post (s.brk, letter L (env.clock s.readings) ep.addr dest buf) ∧
      s'.readings = s.readings + 1 ∧ s'.params = s.params := by
  cases heffect with
  | idle hquiet =>
    cases hquiet with
    | refused _ hno => exact absurd hadmitted (hno ep)
  | unbound _ hnone =>
    rw [hnone] at hb
    cases hb
  | full _ _ hfull =>
    have hcap := of_decide_eq_true hfull
    exact absurd h.uncapped hcap.1
  | dropped _ _ _ hdrop => exact absurd h.drop (Int32.not_le.mpr (chanceFx16_pos hdrop))
  | @sent _ e _ _ _ _ out _ hsend _ _ _ hsent =>
    obtain ⟨heq, -⟩ := hsend
    cases heq
    refine h.sent ?_ hmem hadmitted.2.2 hsent
    rfl

/-- A receive that succeeds takes the head of the ready FIFO. -/
theorem taken_of_ok {ep : Handle} {outSrc outBuf outLen : Bool} {outCap : Nat} {r : Received}
    (h : Effect env s (.recv (some ep) outSrc outBuf outCap outLen, .received r) s')
    (hok : r.info = .ok) :
    s'.toView = s.take 0 ep.addr ∧ s'.readings = s.readings ∧ s'.params = s.params := by
  cases h with
  | idle hquiet =>
    cases hquiet with
    | unreceived hfail => exact absurd hok hfail
  | received => exact ⟨rfl, rfl, rfl⟩

end Sends

/-! ## The code carries the post office -/

/-- What is stored is due within the latency, with as many bytes as its length says. -/
structure Held (env : NetSim.Env) (params : Params) (L : UInt32) (net : Net) (v : View) : Prop where
  laid : Laid net v
  params : net.params = params
  soon : ∀ c ∈ v.copies, due c ≤ (env.clock net.readings).toNat + delay L
  whole : ∀ c ∈ v.copies, c.2.payload.length = c.2.len

/-- The post office whose lines are those of the simulator. -/
def Carries (env : NetSim.Env) (params : Params) (L : UInt32) (w : World) (p : Post) : Prop :=
  ∃ v, Held env params L w.net v ∧ p = ⟨v.lines, w.endpoints, w.net.readings⟩

section Acts

variable {env : NetSim.Env} {params : Params} {L : UInt32} {w : World} {p : Post} {net net' : Net}
  {v v' : View}

/-- Later readings of the clock leave what is stored due within the latency. -/
theorem Held.next (h : Held env params L net v) (hs : Steady env L) (hlaid : Laid net' v')
    (hparams : net'.params = net.params) (hread : net.readings ≤ net'.readings)
    (hcopies : ∀ c ∈ v'.copies, c ∈ v.copies ∨
      due c = (env.clock net.readings).toNat + delay L ∧ c.2.payload.length = c.2.len) :
    Held env params L net' v' := by
  have hclock := UInt64.le_iff_toNat_le.mp (hs.clock _ _ hread)
  refine ⟨hlaid, hparams.trans h.params, fun c hc => ?_, fun c hc => ?_⟩
  · rcases hcopies c hc with hold | ⟨hdue, -⟩
    · exact (h.soon c hold).trans (Nat.add_le_add_right hclock _)
    · exact hdue.le.trans (Nat.add_le_add_right hclock _)
  · rcases hcopies c hc with hold | ⟨-, hlen⟩
    · exact h.whole c hold
    · exact hlen

/-- A call on the simulator, and its effect. -/
theorem Held.call (h : Held env params L net v) (call : Call) :
    ∃ reply net' v', exec env net call = some (reply, net') ∧ Laid net' v' ∧
      Effect env (net.sim v) (call, reply) (net'.sim v') := by
  obtain ⟨reply, net', v', hexec, hrepr, heffect⟩ := h.laid.repr.exec_spec h.laid.open' env call
  exact ⟨reply, net', v', hexec, ⟨hrepr, heffect.mail.wf h.laid.wf⟩, heffect⟩

theorem alike_bind (h : Carries env params L w p) (hs : Steady env L) (addr : Addr) :
    Machine.Alike (Carries env params L) (w.act env (.bind addr))
      (p.act env.clock (delay L) (.bind addr)) := by
  obtain ⟨v, hheld, rfl⟩ := h
  obtain ⟨reply, net', v', hexec, hlaid, heffect⟩ := hheld.call (.bind addr)
  obtain ⟨⟨ep, _⟩, hbind, heq⟩ := Option.map_eq_some_iff.mp hexec
  cases heq
  have hcode : w.act env (.bind addr) = some (.bound ep.info,
      { w with net := net', endpoints := w.endpoints ++ [ep] }) := by
    rw [World.act, hbind]
    rfl
  rw [hcode]
  have hfind := v.lines_find addr
  generalize hs' : net'.sim v' = s' at heffect
  cases heffect with
  | idle hquiet =>
    cases hquiet with
    | duplicate hb =>
      obtain ⟨b, hb⟩ := Option.isSome_iff_exists.mp hb
      have hv : v' = v := congrArg Sim.toView hs'
      have hread : net'.readings = w.net.readings := congrArg Sim.readings hs'
      have hparams : net'.params = w.net.params := congrArg Sim.params hs'
      subst hv
      have hpost : Post.bind ⟨v'.lines, w.endpoints, w.net.readings⟩ addr =
          (.bound .netsimDuplicateAddr, ⟨v'.lines,
            w.endpoints ++ [⟨.netsimDuplicateAddr, false, addr⟩], w.net.readings⟩) := by
        have hbox : v'.box addr = some b := hb
        rw [hbox] at hfind
        unfold Post.bind
        rw [hfind]
        rfl
      refine .some ⟨?_, v', hheld.next hs hlaid hparams hread.ge fun c hc => .inl hc, ?_⟩
      · rw [hpost]
      · rw [hpost, hread]
  | unbindable _ hmem =>
    rw [hs.memory] at hmem
    cases hmem
  | @bound _ ptr hb =>
    have hv : v' = v.bind ptr addr := congrArg Sim.toView hs'
    have hread : net'.readings = w.net.readings := congrArg Sim.readings hs'
    have hparams : net'.params = w.net.params := congrArg Sim.params hs'
    subst hv
    have hpost : Post.bind ⟨v.lines, w.endpoints, w.net.readings⟩ addr =
        (.bound .ok, ⟨v.lines.add addr, w.endpoints ++ [⟨.ok, true, addr⟩], w.net.readings⟩) := by
      have hbox : v.box addr = none := hb
      rw [hbox] at hfind
      unfold Post.bind
      rw [hfind]
      rfl
    refine .some ⟨?_, v.bind ptr addr, hheld.next hs hlaid hparams hread.ge fun c hc => ?_, ?_⟩
    · rw [hpost]
    · rcases View.mem_copies.mp hc with hc | ⟨b, hb, hc⟩
      · exact .inl (View.mem_copies.mpr (.inl hc))
      · rcases List.mem_cons.mp hb with rfl | hb
        · cases hc
        · exact .inl (View.mem_copies.mpr (.inr ⟨b, hb, hc⟩))
    · rw [hpost, hread, View.lines_bind hheld.laid.open' hb]

theorem alike_unbind (h : Carries env params L w p) (hs : Steady env L) (i : Nat) :
    Machine.Alike (Carries env params L) (w.act env (.unbind i))
      (p.act env.clock (delay L) (.unbind i)) := by
  obtain ⟨v, hheld, rfl⟩ := h
  cases hi : w.endpoints[i]? with
  | none =>
    simp only [World.act, Post.act, hi, Option.bind_eq_bind, Option.bind_none, Option.map_none]
    exact .none
  | some ep =>
    obtain ⟨reply, net', v', hexec, hlaid, heffect⟩ := hheld.call (.close (some ep))
    obtain ⟨⟨ep', _⟩, hclose, heq⟩ := Option.map_eq_some_iff.mp hexec
    cases heq
    simp only [World.act, Post.act, hi, hclose, Option.bind_eq_bind, Option.bind_some, Option.map_some]
    generalize hs' : net'.sim v' = s' at heffect
    cases heffect with
    | idle hquiet =>
      cases hquiet with
      | kept hkept =>
        have hv : v' = v := congrArg Sim.toView hs'
        have hread : net'.readings = w.net.readings := congrArg Sim.readings hs'
        have hparams : net'.params = w.net.params := congrArg Sim.params hs'
        subst hv
        have hat : ep.attached = false := hkept ep rfl
        have hset : w.endpoints.set i ep = w.endpoints := by
          obtain ⟨hlt, hget⟩ := List.getElem?_eq_some_iff.mp hi
          rw [← hget, List.set_getElem_self]
        refine .some ⟨?_, v', hheld.next hs hlaid hparams hread.ge fun c hc => .inl hc, ?_⟩
        · simp [Post.unbind, hat]
        · simp [Post.unbind, hat, hread, hset]
    | closed hat =>
      have hv : v' = v.close ep.addr := congrArg Sim.toView hs'
      have hread : net'.readings = w.net.readings := congrArg Sim.readings hs'
      have hparams : net'.params = w.net.params := congrArg Sim.params hs'
      subst hv
      refine .some ⟨?_, v.close ep.addr, hheld.next hs hlaid hparams hread.ge fun c hc => ?_, ?_⟩
      · simp [Post.unbind, hat]
      · exact .inl (View.mem_copies_close hc)
      · simp [Post.unbind, hat, hread, View.lines_close]

theorem alike_step (h : Carries env params L w p) (hs : Steady env L) :
    Machine.Alike (Carries env params L) (w.act env .step) (p.act env.clock (delay L) .step) := by
  obtain ⟨v, hheld, rfl⟩ := h
  obtain ⟨reply, net', v', hexec, hlaid, heffect⟩ := hheld.call .step
  obtain ⟨⟨n, _⟩, hstep, heq⟩ := Option.map_eq_some_iff.mp hexec
  cases heq
  have hcode : w.act env .step = some (.moved n, { w with net := net' }) := by
    show Option.bind (stepWith dropSilently env w.net) _ = _
    rw [hstep]
    rfl
  rw [hcode]
  have hsorted : v.pending.Pairwise (due · ≤ due ·) := hheld.laid.wf.sorted
  have harrivals := View.arrivals hsorted hheld.laid.open' hheld.laid.repr.addrs
    (env.clock w.net.readings)
  generalize hs' : net'.sim v' = s' at heffect
  cases heffect with
  | idle hquiet => cases hquiet
  | stepped =>
    have hv : v' = v.deliver (env.clock w.net.readings) := congrArg Sim.toView hs'
    have hread : net'.readings = w.net.readings + 1 := congrArg Sim.readings hs'
    have hparams : net'.params = w.net.params := congrArg Sim.params hs'
    subst hv
    refine .some ⟨?_, _, hheld.next hs hlaid hparams ?_ fun c hc => ?_, ?_⟩
    · show Answer.moved (UInt32.ofNat _) = Answer.moved (UInt32.ofNat _)
      rw [harrivals]
      rfl
    · exact (Nat.le_succ _).trans hread.ge
    · exact .inl (View.mem_copies_deliver hc)
    · rw [View.lines_deliver hsorted, hread]
      rfl

theorem alike_flush (h : Carries env params L w p) (hs : Steady env L) :
    Machine.Alike (Carries env params L) (w.act env .flush) (p.act env.clock (delay L) .flush) := by
  obtain ⟨v, hheld, rfl⟩ := h
  obtain ⟨reply, net', v', hexec, hlaid, heffect⟩ := hheld.call .flush
  obtain ⟨_, hflush, heq⟩ := Option.map_eq_some_iff.mp hexec
  cases heq
  have hcode : w.act env .flush = some (.flushed, { w with net := net' }) := by
    rw [World.act, hflush]
    rfl
  rw [hcode]
  generalize hs' : net'.sim v' = s' at heffect
  cases heffect with
  | idle hquiet => cases hquiet
  | flushed =>
    have hv : v' = v.clear := congrArg Sim.toView hs'
    have hread : net'.readings = w.net.readings := congrArg Sim.readings hs'
    have hparams : net'.params = w.net.params := congrArg Sim.params hs'
    subst hv
    refine .some ⟨rfl, _, hheld.next hs hlaid hparams hread.ge fun c hc => ?_, ?_⟩
    · exact absurd hc View.not_mem_copies_clear
    · rw [View.lines_clear, hread]

/-- A send through the transport is a send of the endpoint. -/
theorem World.act_send {i : Nat} {ep : Handle} (hi : w.endpoints[i]? = some ep) (env : NetSim.Env)
    (dest : Addr) (data : List UInt8) : w.act env (.send i dest data) =
      (NetSim.sendTo env w.net (some ep) dest data).map fun ((info, _), net) =>
        (.sent ⟨info, if info = .ok then data.length else 0⟩, { w with net }) := by
  simp only [World.act, transportNetsim, hi, transportSend, transportNetsimOps, transportNetsimSend,
    NetSim.transportNetsimSend, World.endpoint, Option.bind_eq_bind, Option.bind_some, Option.map_some,
    Option.pure_def]
  cases NetSim.sendTo env w.net (some ep) dest data with
  | none => rfl
  | some out => rfl

theorem World.act_recv {i : Nat} {ep : Handle} (hi : w.endpoints[i]? = some ep) (env : NetSim.Env)
    (bufSize : Nat) : w.act env (.recv i bufSize) =
      (NetSim.recvFrom w.net (some ep) true true bufSize true).map fun (got, net) =>
        (.received (adapt got), { w with net }) := by
  simp only [World.act, transportNetsim, hi, transportRecv, transportNetsimOps, transportNetsimRecv,
    World.endpoint, Option.bind_eq_bind, Option.bind_some, Option.map_some, Option.pure_def]
  cases NetSim.recvFrom w.net (some ep) true true bufSize true with
  | none => rfl
  | some out => rfl

theorem World.act_none {i : Nat} (hi : w.endpoints[i]? = none) (env : NetSim.Env) :
    (∀ dest data, w.act env (.send i dest data) = none) ∧
      (∀ bufSize, w.act env (.recv i bufSize) = none) ∧ w.act env (.close i) = none := by
  refine ⟨fun _ _ => ?_, fun _ => ?_, ?_⟩
  · simp [World.act, transportNetsim, hi]
  · simp [World.act, transportNetsim, hi]
  · simp [World.act, transportNetsim, hi]

theorem alike_send (h : Carries env params L w p) (hideal : Ideal params L) (hs : Steady env L) (i : Nat)
    (dest : Addr) (data : List UInt8) :
    Machine.Alike (Carries env params L) (w.act env (.send i dest data))
      (p.act env.clock (delay L) (.send i dest data)) := by
  obtain ⟨v, hheld, rfl⟩ := h
  cases hi : w.endpoints[i]? with
  | none =>
    rw [(World.act_none hi env).1]
    simp only [Post.act, hi, Option.map_none]
    exact .none
  | some ep =>
    rw [World.act_send hi]
    simp only [Post.act, hi, Option.map_some]
    have hstay : Carries env params L w ⟨v.lines, w.endpoints, w.net.readings⟩ := ⟨v, hheld, rfl⟩
    unfold Post.send
    by_cases hat : ep.attached = true
    swap
    · have hsend : NetSim.sendTo env w.net (some ep) dest data =
          some ((.genericError, []), w.net) := by simp [NetSim.sendTo, hat]
      simp only [hsend, hat, Option.map_some]
      exact .some ⟨rfl, hstay⟩
    by_cases hlen : maxDatagramBytes < data.length
    · have hsend : NetSim.sendTo env w.net (some ep) dest data =
          some ((.netsimPayloadTooLarge, []), w.net) := by simp [NetSim.sendTo, hat, hlen]
      simp only [hsend, hat, hlen, Option.map_some]
      exact .some ⟨rfl, hstay⟩
    have hadmitted : Admitted (some ep) data ep := ⟨rfl, hat, Nat.not_lt.mp hlen⟩
    have hfind := v.lines_find dest
    cases hb : v.box dest with
    | none =>
      have hrepr := hheld.laid.repr
      have hnowhere := hrepr.find dest
      rw [hb, Option.map_none] at hfind hnowhere
      simp only [sendTo_unbound hadmitted hnowhere, hat, hlen, hfind, Option.map_some]
      refine .some ⟨rfl, v, hheld.next hs ⟨?_, hheld.laid.wf⟩ rfl (Nat.le_refl _) fun c hc => .inl hc, rfl⟩
      exact ⟨hrepr.nodes, hrepr.pending, hrepr.endpoints, hrepr.addrs⟩
    | some b =>
      obtain ⟨reply, net', v', hexec, hlaid, heffect⟩ := hheld.call (.send (some ep) dest data)
      obtain ⟨⟨⟨info, rolls⟩, _⟩, hsend, heq⟩ := Option.map_eq_some_iff.mp hexec
      cases heq
      have hideal' : Ideal (w.net.sim v).params L := by
        show Ideal w.net.params L
        rw [hheld.params]
        exact hideal
      have hbox : ((w.net.sim v).box dest).isSome := by
        show (v.box dest).isSome
        rw [hb]
        rfl
      obtain ⟨rfl, hv, hread, hparams⟩ := hideal'.effect hs.memory hadmitted hbox heffect
      rw [hb, Option.map_some] at hfind
      simp only [hsend, hat, hlen, hfind, Option.map_some]
      obtain rfl : v' = v.post (w.net.nodes.brk, letter L (env.clock w.net.readings) ep.addr dest data) := hv
      have hread' : net'.readings = w.net.readings + 1 := hread
      have hdue : (letter L (env.clock w.net.readings) ep.addr dest data).scheduledNs.toNat =
          (env.clock w.net.readings).toNat + delay L := by
        show (env.clock w.net.readings + msToNs L.toInt32).toNat = _
        rw [UInt64.toNat_add, toNat_latency hideal.short]
        exact Nat.mod_eq_of_lt (hs.room _)
      refine .some ⟨rfl, _, hheld.next hs hlaid hparams ?_ fun c hc => ?_, ?_⟩
      · exact (Nat.le_succ _).trans hread'.ge
      · rcases List.mem_cons.mp ((View.copies_post v _).mem_iff.mp hc) with rfl | hc
        · exact .inr ⟨hdue, rfl⟩
        · exact .inl hc
      · have hlate : ∀ c ∈ v.pending, due c ≤
            (letter L (env.clock w.net.readings) ep.addr dest data).scheduledNs.toNat := by
          intro c hc
          rw [hdue]
          exact hheld.soon c (View.mem_copies.mpr (.inl hc))
        rw [View.lines_post hlate]
        show Post.mk _ _ _ = Post.mk _ _ _
        rw [← hdue, hread']
        rfl

/-- A receive that leaves everything as it is. -/
theorem recvFrom_refused {ep : Handle} (h : Held env params L net v) (bufSize : Nat) :
    (ep.attached = false → NetSim.recvFrom net (some ep) true true bufSize true =
      some (⟨.genericError, none, [], none⟩, net)) ∧
    (ep.attached = true → (∀ b, v.box ep.addr = some b → b.ready = []) →
      NetSim.recvFrom net (some ep) true true bufSize true =
        some (⟨.netsimEmpty, none, [], some 0⟩, net)) ∧
    (ep.attached = true → ∀ b c rest, v.box ep.addr = some b → b.ready = c :: rest →
      bufSize < c.2.len → NetSim.recvFrom net (some ep) true true bufSize true =
        some (⟨.netsimBufTooSmall, none, [], some c.2.len⟩, net)) := by
  have hrepr := h.laid.repr
  have hfind := hrepr.find ep.addr
  unfold NetSim.recvFrom NetSim.recvWith
  refine ⟨fun hat => ?_, fun hat hnil => ?_, fun hat b c rest hb hready hcap => ?_⟩
  · simp [hat]
  · cases hb : v.box ep.addr with
    | none =>
      rw [hb, Option.map_none] at hfind
      simp [hat, hfind]
    | some b =>
      obtain ⟨k, m, hsplit, -⟩ := View.box_split hrepr.addrs hb
      obtain ⟨r, hcell⟩ := hrepr.cell (b := b) (by simp [hsplit])
      rw [hb, Option.map_some] at hfind
      have hhead : b.cell.2.readyHead = none := by simp [Box.cell, hnil b hb]
      simp [hat, hfind, hcell, hhead]
  · obtain ⟨k, m, hsplit, -⟩ := View.box_split hrepr.addrs hb
    obtain ⟨r, hcell⟩ := hrepr.cell (b := b) (by simp [hsplit])
    rw [hb, Option.map_some] at hfind
    have hhead : b.cell.2.readyHead = some c.1 := by simp [Box.cell, hready]
    have hnodes := hrepr.nodes
    rw [hsplit, List.map_append, List.map_cons, hready] at hnodes
    obtain ⟨-, next, hp, -⟩ := LinkedHeap.Filed.list (k := v.pending :: k.map Box.ready) hnodes
    simp [hat, hfind, hcell, hhead, hp, hcap]

theorem adapt_ok {c : Copy} (hlen : c.2.payload.length = c.2.len) :
    adapt ⟨.ok, if True then some c.2.src else none, if 0 < c.2.len ∧ True then c.2.payload else [],
      some c.2.len⟩ = ⟨.ok, (parcel c).1, (parcel c).2.length, (parcel c).2⟩ := by
  have hpayload : (if 0 < c.2.len ∧ True then c.2.payload else []) = c.2.payload := by
    by_cases hpos : 0 < c.2.len
    · simp [hpos]
    · have hnil : c.2.payload = [] := List.length_eq_zero_iff.mp (by omega)
      simp [hnil]
  rw [hpayload, adapt, if_neg (by simp), if_neg (by simp), parcel, hlen]
  rfl

theorem alike_recv (h : Carries env params L w p) (hs : Steady env L) (i bufSize : Nat) :
    Machine.Alike (Carries env params L) (w.act env (.recv i bufSize))
      (p.act env.clock (delay L) (.recv i bufSize)) := by
  obtain ⟨v, hheld, rfl⟩ := h
  cases hi : w.endpoints[i]? with
  | none =>
    rw [(World.act_none hi env).2.1]
    simp only [Post.act, hi, Option.map_none]
    exact .none
  | some ep =>
    rw [World.act_recv hi]
    simp only [Post.act, hi, Option.map_some]
    have hstay : Carries env params L w ⟨v.lines, w.endpoints, w.net.readings⟩ := ⟨v, hheld, rfl⟩
    obtain ⟨hdetached, hempty, hsmall⟩ := @recvFrom_refused env params L w.net v ep hheld bufSize
    have hfind := v.lines_find ep.addr
    unfold Post.recv
    by_cases hat : ep.attached = true
    swap
    · simp only [hdetached (Bool.eq_false_iff.mpr hat), hat, Option.map_some]
      exact .some ⟨rfl, hstay⟩
    cases hb : v.box ep.addr with
    | none =>
      rw [hb, Option.map_none] at hfind
      simp only [hempty hat (fun b hb' => by rw [hb] at hb'; cases hb'), hat, hfind, Option.map_some]
      exact .some ⟨rfl, hstay⟩
    | some b =>
      rw [hb, Option.map_some] at hfind
      cases hready : b.ready with
      | nil =>
        have hline : (b.line v.pending).2.ready = [] := by simp [Box.line, hready]
        have hnil : ∀ b', v.box ep.addr = some b' → b'.ready = [] := by
          intro b' hb'
          rw [hb] at hb'
          cases hb'
          exact hready
        simp only [hempty hat hnil, hat, hfind, hline, Option.map_some]
        exact .some ⟨rfl, hstay⟩
      | cons c rest =>
        have hline : (b.line v.pending).2.ready = parcel c :: rest.map parcel := by
          simp [Box.line, hready]
        have hmem : c ∈ v.copies :=
          View.mem_copies.mpr (.inr ⟨b, List.mem_of_find?_eq_some hb, by simp [hready]⟩)
        have hlen : (parcel c).2.length = c.2.len := hheld.whole c hmem
        by_cases hcap : bufSize < c.2.len
        · have hcap' : bufSize < (parcel c).2.length := hlen ▸ hcap
          simp only [hsmall hat b c rest hb hready hcap, hat, hfind, hline, hcap', if_true,
            Option.map_some]
          exact .some ⟨rfl, hstay⟩
        obtain ⟨reply, net', v', hexec, hlaid, heffect⟩ :=
          hheld.call (.recv (some ep) true true bufSize true)
        obtain ⟨⟨r, _⟩, hrecv, heq⟩ := Option.map_eq_some_iff.mp hexec
        cases heq
        have hcode : NetSim.recvFrom w.net (some ep) true true bufSize true = some (r, net') := hrecv
        obtain ⟨nodes, cells, htaken, -⟩ :=
          hheld.laid.repr.recvWith hat hb hready (Nat.not_lt.mp hcap) 0 true true
        rw [htaken] at hrecv
        obtain ⟨rfl, -⟩ := Prod.mk.inj (Option.some.inj hrecv)
        have hcap' : ¬ bufSize < (parcel c).2.length := hlen ▸ hcap
        simp only [hcode, hat, hfind, hline, hcap', if_false, Option.map_some]
        obtain ⟨hv, hread, hparams⟩ := taken_of_ok heffect rfl
        obtain rfl : v' = v.take 0 ep.addr := hv
        have hread' : net'.readings = w.net.readings := hread
        refine .some ⟨?_, _, hheld.next hs hlaid hparams hread'.ge fun c hc => ?_, ?_⟩
        · exact congrArg Answer.received (adapt_ok hlen)
        · exact .inl (View.mem_copies_take hc)
        · rw [View.lines_take, hread']
          rfl

theorem alike_close (h : Carries env params L w p) (i : Nat) :
    Machine.Alike (Carries env params L) (w.act env (.close i))
      (p.act env.clock (delay L) (.close i)) := by
  obtain ⟨v, hheld, rfl⟩ := h
  cases hi : w.endpoints[i]? with
  | none =>
    rw [(World.act_none hi env).2.2]
    simp only [Post.act, hi, Option.map_none]
    exact .none
  | some ep =>
    have hcode : w.act env (.close i) = some (.closed .ok, w) := by
      simp [World.act, transportNetsim, hi, transportClose, transportNetsimOps, transportNetsimClose]
    rw [hcode]
    simp only [Post.act, hi, Option.map_some]
    exact .some ⟨rfl, v, hheld, rfl⟩

/-- Every act of the code is the act of the post office that it carries. -/
theorem act_alike (h : Carries env params L w p) (hideal : Ideal params L) (hs : Steady env L)
    (a : Act) :
    Machine.Alike (Carries env params L) (w.act env a) (p.act env.clock (delay L) a) := by
  cases a with
  | bind addr => exact alike_bind h hs addr
  | unbind i => exact alike_unbind h hs i
  | step => exact alike_step h hs
  | flush => exact alike_flush h hs
  | send i dest data => exact alike_send h hideal hs i dest data
  | recv i bufSize => exact alike_recv h hs i bufSize
  | close i => exact alike_close h i

end Acts

/-! ## Runs -/

def World.fresh (kernel : Kernel) (sockets : List Socket) (seed : UInt64) (params : Params) : World :=
  ⟨kernel, sockets, create seed params, []⟩

section Runs

variable {env : NetSim.Env} {params : Params} {L : UInt32}

theorem carries_fresh (kernel : Kernel) (sockets : List Socket) (seed : UInt64) :
    Carries env params L (World.fresh kernel sockets seed params) .empty :=
  ⟨.empty, ⟨.create seed params, rfl, nofun, nofun⟩, rfl⟩

/-- No list of acts tells the transports over an ideal network from a post office. -/
theorem ideal_network (hideal : Ideal params L) (hs : Steady env L) (kernel : Kernel)
    (sockets : List Socket) (seed : UInt64) (acts : List Act) :
    (Machine.run (World.act env) (World.fresh kernel sockets seed params) acts).map Prod.fst =
      (Machine.run (Post.act env.clock (delay L)) .empty acts).map Prod.fst :=
  Machine.answers_eq (fun _ _ a h => act_alike h hideal hs a) (carries_fresh kernel sockets seed) acts

/-- A clock that stands still for two readings. -/
def late : NetSim.Env := ⟨fun n => if n < 2 then 0 else 6000000, fun _ => true⟩

/-- Five milliseconds between two endpoints. -/
theorem ideal_network_five :
    (Machine.run (World.act late)
      (World.fresh ⟨[], []⟩ [] 0 { calm with latencyMsMin := 5, latencyMsMax := 5 })
      [.bind ⟨1, 1⟩, .bind ⟨2, 2⟩, .send 0 ⟨2, 2⟩ [7], .step, .recv 1 8, .step, .recv 1 8]).map Prod.fst =
    some [.bound .ok, .bound .ok, .sent ⟨.ok, 1⟩, .moved 0, .received (nothing .netWouldBlock), .moved 1,
      .received ⟨.ok, ⟨1, 1⟩, 1, [7]⟩] := by
  refine (@ideal_network _ _ 5 ⟨by decide, by decide, by decide, by decide, rfl, rfl, by decide, rfl⟩
    ⟨fun _ => rfl, fun m n hle => ?_, fun n => ?_⟩ ⟨[], []⟩ [] 0 _).trans rfl
  · show (if m < 2 then (0 : UInt64) else 6000000) ≤ if n < 2 then 0 else 6000000
    by_cases hn : n < 2
    · rw [if_pos hn, if_pos (by omega)]
      decide
    · rw [if_neg hn]
      split
      · decide
      · decide
  · show (if n < 2 then (0 : UInt64) else 6000000).toNat + _ < _
    split
    · decide
    · decide

end Runs

end CBase.Transport
