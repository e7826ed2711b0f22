import CBase.Transport.Ideal

/-!
# Every datagram arrives

`Ledger` books what the acts and their answers say: a datagram that was accepted for a bound address is
unread there, until it is received. Over an ideal network nothing else happens to it.

* `Booked.act`: what a post office answers is what the ledger says.
* `everything_arrives`: after a step that is late enough, the receives of an endpoint return all that is
  unread there, in the order of the sends, and then would block.
-/

namespace CBase.Transport

open NetSim hiding Reply
open DelayLine (Line)
open Network (Kernel Socket RecvResult)

/-! ## The ledger -/

/-- The unread datagrams of every bound address, and the variables of endpoints with whether they are
attached. -/
structure Ledger where
  unread : Addr → Option (List Parcel)
  handles : List (Addr × Bool)

namespace Ledger

def empty : Ledger := ⟨fun _ => none, []⟩

/-- The address of a variable of endpoints. -/
def addr (l : Ledger) (i : Nat) : Option Addr := (l.handles[i]?).map Prod.fst

/-- Change what is unread at an address. -/
def change (l : Ledger) (a : Addr) (f : List Parcel → List Parcel) : Ledger :=
  { l with unread := Function.update l.unread a ((l.unread a).map f) }

def book (l : Ledger) : Act × Answer → Ledger
  | (.bind addr, .bound info) =>
    if info = .ok then ⟨Function.update l.unread addr (some []), l.handles ++ [(addr, true)]⟩
    else { l with handles := l.handles ++ [(addr, false)] }
  | (.unbind i, _) =>
    match l.handles[i]? with
    | some (addr, true) => ⟨Function.update l.unread addr none, l.handles.set i (addr, false)⟩
    | _ => l
  | (.flush, _) => { l with unread := fun a => (l.unread a).map fun _ => [] }
  | (.send i dest data, .sent r) =>
    if r.info = .ok then (l.addr i).elim l fun source => l.change dest (· ++ [(source, data)]) else l
  | (.recv i _, .received r) =>
    if r.info = .ok then (l.addr i).elim l fun addr => l.change addr List.tail else l
  | _ => l

end Ledger

def ledger (acts : List Act) (answers : List Answer) : Ledger :=
  (acts.zip answers).foldl Ledger.book .empty

/-- The ledger holds what the lines of a post office hold. -/
structure Booked (l : Ledger) (p : Post) : Prop where
  unread : ∀ a, l.unread a = (p.lines.find a).map Line.contents
  handles : l.handles = p.endpoints.map fun ep => (ep.addr, ep.attached)

section Book

variable {clock : Nat → UInt64} {delay : Nat} {l : Ledger} {p p' : Post} {r : Answer}

theorem Booked.empty : Booked .empty .empty := ⟨fun _ => rfl, rfl⟩

theorem Booked.handle (h : Booked l p) {i : Nat} {ep : Handle} (hi : p.endpoints[i]? = some ep) :
    l.handles[i]? = some (ep.addr, ep.attached) := by
  rw [h.handles, List.getElem?_map, hi]
  rfl

theorem Booked.addr (h : Booked l p) {i : Nat} {ep : Handle} (hi : p.endpoints[i]? = some ep) :
    l.addr i = some ep.addr := by
  rw [Ledger.addr, h.handle hi]
  rfl

/-- A change of one line, and the same change of its contents. -/
theorem Booked.change (h : Booked l p) {a : Addr} {f : Line Nat Parcel → Line Nat Parcel}
    {g : List Parcel → List Parcel} {readings : Nat}
    (hf : ∀ line, p.lines.find a = some line → (f line).contents = g line.contents) :
    Booked (l.change a g) ⟨p.lines.update a f, p.endpoints, readings⟩ := by
  refine ⟨fun b => ?_, h.handles⟩
  show Function.update l.unread a _ b = _
  rw [Lines.find_update]
  by_cases hb : b = a
  · subst hb
    rw [Function.update_self, if_pos rfl, h.unread]
    cases hline : p.lines.find b with
    | none => rfl
    | some line => exact congrArg some (hf line hline).symm
  · rw [Function.update_of_ne hb, if_neg hb, h.unread]

theorem Booked.bind (h : Booked l p) (addr : Addr) :
    Booked (l.book (.bind addr, (p.bind addr).1)) (p.bind addr).2 := by
  unfold Post.bind
  cases p.lines.find addr with
  | some line =>
    refine ⟨h.unread, ?_⟩
    show l.handles ++ [(addr, false)] = _
    rw [h.handles, List.map_append]
    rfl
  | none =>
    refine ⟨fun b => ?_, ?_⟩
    · show Function.update l.unread addr (some []) b = _
      rw [Lines.find_add]
      by_cases hb : addr = b
      · subst hb
        rw [Function.update_self, if_pos rfl]
        rfl
      · rw [Function.update_of_ne (Ne.symm hb), if_neg hb]
        exact h.unread b
    · show l.handles ++ [(addr, true)] = _
      rw [h.handles, List.map_append]
      rfl

theorem Booked.unbind (h : Booked l p) {i : Nat} {ep : Handle} (hi : p.endpoints[i]? = some ep) :
    Booked (l.book (.unbind i, (p.unbind i ep).1)) (p.unbind i ep).2 := by
  have hhandle := h.handle hi
  unfold Post.unbind
  cases hat : ep.attached with
  | false =>
    rw [hat] at hhandle
    simpa [Ledger.book, hhandle] using h
  | true =>
    rw [hat] at hhandle
    have hbook : l.book (.unbind i, .unbound) =
        ⟨Function.update l.unread ep.addr none, l.handles.set i (ep.addr, false)⟩ := by
      rw [Ledger.book, hhandle]
    show Booked (l.book (.unbind i, .unbound)) _
    rw [hbook]
    refine ⟨fun b => ?_, ?_⟩
    · show Function.update l.unread ep.addr none b = (Lines.find (p.lines.remove ep.addr) b).map _
      rw [Lines.find_remove]
      by_cases hb : b = ep.addr
      · rw [hb, Function.update_self, if_pos rfl]
        rfl
      · rw [Function.update_of_ne hb, if_neg hb]
        exact h.unread b
    · show l.handles.set i (ep.addr, false) = List.map _ (p.endpoints.set i _)
      rw [h.handles, List.map_set]

theorem Booked.step (h : Booked l p) (clock : Nat → UInt64) :
    Booked (l.book (.step, (p.step clock).1)) (p.step clock).2 := by
  refine ⟨fun b => ?_, h.handles⟩
  show l.unread b = (Lines.find (p.lines.deliver _) b).map _
  rw [Lines.find_deliver, Option.map_map, h.unread]
  refine Option.map_congr fun line _ => ?_
  exact (Line.contents_deliver _ line).symm

theorem Booked.flush (h : Booked l p) :
    Booked (l.book (.flush, .flushed)) { p with lines := p.lines.clear } := by
  refine ⟨fun b => ?_, h.handles⟩
  show (l.unread b).map _ = (Lines.find p.lines.clear b).map _
  rw [Lines.find_clear, Option.map_map, h.unread, Option.map_map]
  rfl

theorem Booked.send (h : Booked l p) {i : Nat} {ep : Handle} (hi : p.endpoints[i]? = some ep)
    (clock : Nat → UInt64) (delay : Nat) (dest : Addr) (data : List UInt8) :
    Booked (l.book (.send i dest data, .sent (p.send clock delay ep dest data).1))
      (p.send clock delay ep dest data).2 := by
  have hkept {info : Info} (hinfo : info ≠ .ok) :
      l.book (.send i dest data, .sent ⟨info, 0⟩) = l := if_neg hinfo
  have hbook : l.book (.send i dest data, .sent ⟨.ok, data.length⟩) =
      l.change dest (· ++ [(ep.addr, data)]) := by
    show Option.elim (l.addr i) _ _ = _
    rw [h.addr hi]
    rfl
  unfold Post.send
  by_cases hat : ep.attached = true
  swap
  · simpa [hat, hkept] using h
  by_cases hlen : maxDatagramBytes < data.length
  · simpa [hat, hlen, hkept] using h
  simp only [hat, hlen, if_false, Bool.not_true, Bool.false_eq_true]
  cases hline : p.lines.find dest with
  | none =>
    have hnone : l.unread dest = none := by rw [h.unread, hline, Option.map_none]
    show Booked (l.book (.send i dest data, .sent ⟨.ok, data.length⟩)) p
    rw [hbook, Ledger.change, hnone, Option.map_none, ← hnone, Function.update_eq_self]
    exact h
  | some line =>
    show Booked (l.book (.send i dest data, .sent ⟨.ok, data.length⟩)) _
    rw [hbook]
    exact h.change fun line _ => Line.contents_post _ _ line

theorem Booked.recv (h : Booked l p) {i : Nat} {ep : Handle} (hi : p.endpoints[i]? = some ep)
    (bufSize : Nat) : Booked (l.book (.recv i bufSize, .received (p.recv ep bufSize).1))
      (p.recv ep bufSize).2 := by
  have hkept {info : Info} (hinfo : info ≠ .ok) :
      l.book (.recv i bufSize, .received (nothing info)) = l := if_neg hinfo
  unfold Post.recv
  by_cases hat : ep.attached = true
  swap
  · simpa [hat, hkept] using h
  simp only [hat, if_false, Bool.not_true, Bool.false_eq_true]
  cases hline : p.lines.find ep.addr with
  | none => simpa [hkept] using h
  | some line =>
    cases hready : line.ready with
    | nil => simpa [hready, hkept] using h
    | cons m rest =>
      obtain ⟨source, data⟩ := m
      simp only [hready]
      by_cases hcap : bufSize < data.length
      · simpa [hcap, hkept] using h
      simp only [hcap, if_false]
      have hbook : l.book (.recv i bufSize, .received ⟨.ok, source, data.length, data⟩) =
          l.change ep.addr List.tail := by
        show Option.elim (l.addr i) _ _ = _
        rw [h.addr hi]
        rfl
      rw [hbook]
      refine h.change fun line' hline' => ?_
      rw [hline] at hline'
      cases hline'
      rw [Line.contents_pop hready, List.tail_cons]

/-- What a post office answers is what the ledger says. -/
theorem Booked.act (h : Booked l p) {a : Act} (hact : p.act clock delay a = some (r, p')) :
    Booked (l.book (a, r)) p' := by
  cases a with
  | bind addr =>
    have hbind := h.bind addr
    rwa [show p.bind addr = (r, p') from Option.some.inj hact] at hbind
  | unbind i =>
    obtain ⟨ep, hi, heq⟩ := Option.map_eq_some_iff.mp hact
    have hunbind := h.unbind hi
    rwa [heq] at hunbind
  | step =>
    have hstep := h.step clock
    rwa [show p.step clock = (r, p') from Option.some.inj hact] at hstep
  | flush =>
    cases hact
    exact h.flush
  | send i dest data =>
    obtain ⟨ep, hi, heq⟩ := Option.map_eq_some_iff.mp hact
    cases heq
    exact h.send hi clock delay dest data
  | recv i bufSize =>
    obtain ⟨ep, hi, heq⟩ := Option.map_eq_some_iff.mp hact
    cases heq
    exact h.recv hi bufSize
  | close i =>
    obtain ⟨ep, hi, heq⟩ := Option.map_eq_some_iff.mp hact
    cases heq
    exact h

end Book

/-! ## What is on its way -/

/-- Every datagram on its way was posted at an earlier reading of the clock. -/
def Punctual (clock : Nat → UInt64) (delay : Nat) (p : Post) : Prop :=
  ∀ line ∈ p.lines, ∀ e ∈ line.2.transit, ∃ n < p.readings, e.1 = (clock n).toNat + delay

section Lateness

variable {clock : Nat → UInt64} {delay : Nat} {p p' : Post} {r : Answer}

/-- Lines that hold no other datagrams than before. -/
theorem Punctual.shrink (h : Punctual clock delay p) (hread : p.readings ≤ p'.readings)
    (hlines : ∀ line ∈ p'.lines, ∀ e ∈ line.2.transit, ∃ old ∈ p.lines, e ∈ old.2.transit) :
    Punctual clock delay p' := by
  intro line hline e he
  obtain ⟨old, hold, he'⟩ := hlines line hline e he
  obtain ⟨n, hn, heq⟩ := h old hold e he'
  exact ⟨n, hn.trans_le hread, heq⟩

theorem Punctual.send (h : Punctual clock delay p) (ep : Handle) (dest : Addr) (data : List UInt8) :
    Punctual clock delay (p.send clock delay ep dest data).2 := by
  unfold Post.send
  split
  · exact h
  split
  · exact h
  split
  · exact h
  intro line hline e he
  obtain ⟨old, hold, rfl⟩ := List.mem_map.mp hline
  have hearlier (he : e ∈ old.2.transit) : ∃ n < p.readings + 1, e.1 = (clock n).toNat + delay := by
    obtain ⟨n, hn, heq⟩ := h old hold e he
    exact ⟨n, Nat.lt_succ_of_lt hn, heq⟩
  split at he
  · rcases List.mem_append.mp he with he | he
    · exact hearlier he
    · rw [List.mem_singleton.mp he]
      exact ⟨p.readings, Nat.lt_succ_self _, rfl⟩
  · exact hearlier he

theorem Punctual.recv (h : Punctual clock delay p) (ep : Handle) (bufSize : Nat) :
    Punctual clock delay (p.recv ep bufSize).2 := by
  unfold Post.recv
  split
  · exact h
  split
  · exact h
  split
  · exact h
  split
  · exact h
  refine h.shrink (Nat.le_refl _) fun line hline e he => ?_
  obtain ⟨old, hold, rfl⟩ := List.mem_map.mp hline
  refine ⟨old, hold, ?_⟩
  split at he
  · exact he
  · exact he

theorem Punctual.act (h : Punctual clock delay p) {a : Act} (hact : p.act clock delay a = some (r, p')) :
    Punctual clock delay p' := by
  cases a with
  | bind addr =>
    have hbind : Punctual clock delay (p.bind addr).2 := by
      unfold Post.bind
      split
      · exact h
      · intro line hline e he
        rcases List.mem_cons.mp hline with rfl | hline
        · cases he
        · exact h line hline e he
    rwa [show p.bind addr = (r, p') from Option.some.inj hact] at hbind
  | unbind i =>
    obtain ⟨ep, -, heq⟩ := Option.map_eq_some_iff.mp hact
    have hunbind : Punctual clock delay (p.unbind i ep).2 := by
      unfold Post.unbind
      split
      · exact h.shrink (Nat.le_refl _) fun line hline e he => ⟨line, (List.mem_filter.mp hline).1, he⟩
      · exact h
    rwa [heq] at hunbind
  | step =>
    cases hact
    refine h.shrink (Nat.le_succ _) fun line hline e he => ?_
    obtain ⟨old, hold, rfl⟩ := List.mem_map.mp hline
    exact ⟨old, hold, (List.dropWhile_sublist _).subset he⟩
  | flush =>
    cases hact
    intro line hline e he
    obtain ⟨old, -, rfl⟩ := List.mem_map.mp hline
    cases he
  | send i dest data =>
    obtain ⟨ep, -, heq⟩ := Option.map_eq_some_iff.mp hact
    cases heq
    exact h.send ep dest data
  | recv i bufSize =>
    obtain ⟨ep, -, heq⟩ := Option.map_eq_some_iff.mp hact
    cases heq
    exact h.recv ep bufSize
  | close i =>
    obtain ⟨ep, -, heq⟩ := Option.map_eq_some_iff.mp hact
    cases heq
    exact h

/-! ## Reading out an endpoint -/

/-- What the receives of an endpoint return for these datagrams. -/
def readOut (unread : List Parcel) : List Answer :=
  unread.map (fun m => .received ⟨.ok, m.1, m.2.length, m.2⟩) ++ [.received (nothing .netWouldBlock)]

/-- One receive for each datagram that has arrived, and one more. -/
theorem Post.read_out {i bufSize : Nat} {ep : Handle} (hi : p.endpoints[i]? = some ep)
    (hat : ep.attached = true) {ready : List Parcel} (hline : p.lines.find ep.addr = some ⟨ready, []⟩)
    (hfits : ∀ m ∈ ready, m.2.length ≤ bufSize) :
    ∃ p', Machine.run (Post.act clock delay) p (List.replicate (ready.length + 1) (.recv i bufSize)) =
      some (readOut ready, p') := by
  induction ready generalizing p with
  | nil =>
    have hact : p.act clock delay (.recv i bufSize) = some (.received (nothing .netWouldBlock), p) := by
      simp [Post.act, Post.recv, hi, hat, hline]
    exact ⟨p, by rw [List.length_nil, Nat.zero_add, List.replicate_one, Machine.run_cons hact]; rfl⟩
  | cons m ready ih =>
    obtain ⟨source, data⟩ := m
    have hcap : ¬ bufSize < data.length := Nat.not_lt.mpr (hfits _ List.mem_cons_self)
    have hact : p.act clock delay (.recv i bufSize) = some (.received ⟨.ok, source, data.length, data⟩,
        { p with lines := p.lines.update ep.addr Line.pop }) := by
      simp [Post.act, Post.recv, hi, hat, hline, hcap]
    have hrest : Lines.find (p.lines.update ep.addr Line.pop) ep.addr = some ⟨ready, []⟩ := by
      rw [Lines.find_update, if_pos rfl, hline]
      rfl
    obtain ⟨p', hrun⟩ := @ih { p with lines := p.lines.update ep.addr Line.pop } hi hrest
      fun m hm => hfits m (List.mem_cons_of_mem _ hm)
    refine ⟨p', ?_⟩
    rw [List.length_cons, List.replicate_succ, Machine.run_cons hact, hrun]
    rfl

end Lateness

section Runs

variable {env : NetSim.Env} {params : Params} {L : UInt32}

/-- After a step that is late enough an endpoint reads all that was sent to its address since its bind
and not read yet, in the order of the sends, and then would block. -/
theorem everything_arrives (hideal : Ideal params L) (hs : Steady env L) {kernel : Kernel}
    {sockets : List Socket} {seed : UInt64} {acts : List Act} {answers : List Answer} {w : World}
    (hrun : Machine.run (World.act env) (World.fresh kernel sockets seed params) acts = some (answers, w))
    (hlate : ∀ n < w.net.readings,
      (env.clock n).toNat + delay L ≤ (env.clock w.net.readings).toNat)
    {i : Nat} {a : Addr} {unread : List Parcel}
    (hat : (ledger acts answers).handles[i]? = some (a, true))
    (hunread : (ledger acts answers).unread a = some unread) {bufSize : Nat}
    (hfits : ∀ m ∈ unread, m.2.length ≤ bufSize) :
    ∃ n w', Machine.run (World.act env) w
        (.step :: List.replicate (unread.length + 1) (.recv i bufSize)) =
      some (.moved n :: readOut unread, w') := by
  have halike := fun w p a (h : Carries env params L w p) => act_alike h hideal hs a
  have hpost := Machine.run_alike halike (carries_fresh kernel sockets seed) acts
  rw [hrun] at hpost
  generalize hspec : Machine.run (Post.act env.clock (delay L)) .empty acts = x at hpost
  cases hpost with
  | @some _ x hx =>
  obtain ⟨rs, p⟩ := x
  obtain ⟨heq, hcarries⟩ := hx
  obtain rfl : answers = rs := heq
  have hbooked : Booked (ledger acts answers) p :=
    Machine.run_ghost Booked Ledger.book (fun _ _ _ _ _ h hact => h.act hact) .empty hspec
  have hpunctual : Punctual env.clock (delay L) p :=
    Machine.run_keeps (Punctual env.clock (delay L)) (fun _ _ _ _ h hact => h.act hact)
      (fun _ hline => absurd hline List.not_mem_nil) hspec
  have hread : p.readings = w.net.readings := by
    obtain ⟨v, -, rfl⟩ := hcarries
    rfl
  rw [hbooked.handles, List.getElem?_map] at hat
  obtain ⟨ep, hi, hep⟩ := Option.map_eq_some_iff.mp hat
  obtain ⟨rfl, hattached⟩ := Prod.mk.inj hep
  rw [hbooked.unread] at hunread
  obtain ⟨line, hline, rfl⟩ := Option.map_eq_some_iff.mp hunread
  have hmem : (ep.addr, line) ∈ p.lines := by
    obtain ⟨⟨addr, l⟩, hfound, rfl⟩ := Option.map_eq_some_iff.mp hline
    have haddr : addr = ep.addr := by simpa using List.find?_some hfound
    exact haddr ▸ List.mem_of_find?_eq_some hfound
  have hall : ∀ e ∈ line.transit, e.1 ≤ (env.clock p.readings).toNat := by
    intro e he
    obtain ⟨n, hn, hdue⟩ := hpunctual _ hmem e he
    rw [hread] at hn ⊢
    exact hdue.le.trans (hlate n hn)
  have hready : Lines.find (p.step env.clock).2.lines ep.addr = some ⟨line.contents, []⟩ := by
    show Lines.find (p.lines.deliver _) ep.addr = _
    rw [Lines.find_deliver, hline, Option.map_some, Line.deliver_all hall]
  have hstep : p.act env.clock (delay L) .step =
      some ((p.step env.clock).1, (p.step env.clock).2) := rfl
  obtain ⟨p', hout⟩ := @Post.read_out env.clock (delay L) (p.step env.clock).2 i bufSize ep hi hattached
    line.contents hready hfits
  have hspec' : Machine.run (Post.act env.clock (delay L)) p
      (.step :: List.replicate (line.contents.length + 1) (.recv i bufSize)) =
      some ((p.step env.clock).1 :: readOut line.contents, p') := by
    rw [Machine.run_cons hstep, hout]
    rfl
  have hcode := Machine.run_alike halike hcarries
    (.step :: List.replicate (line.contents.length + 1) (.recv i bufSize))
  rw [hspec'] at hcode
  generalize Machine.run (World.act env) w _ = y at hcode
  cases hcode with
  | @some y _ hy =>
  obtain ⟨out, w'⟩ := y
  obtain ⟨rfl, -⟩ := hy
  exact ⟨_, w', rfl⟩

/-- Two datagrams that wait for a step. -/
theorem everything_arrives_two : ∃ w, Machine.run (World.act (still 0)) (World.fresh ⟨[], []⟩ [] 0 calm)
      [.bind ⟨1, 1⟩, .bind ⟨2, 2⟩, .send 0 ⟨2, 2⟩ [7], .send 1 ⟨2, 2⟩ [8, 9]] =
        some ([.bound .ok, .bound .ok, .sent ⟨.ok, 1⟩, .sent ⟨.ok, 2⟩], w) ∧
    ∃ n w', Machine.run (World.act (still 0)) w (.step :: List.replicate 3 (.recv 1 8)) =
      some (.moved n :: readOut [(⟨1, 1⟩, [7]), (⟨2, 2⟩, [8, 9])], w') := by
  have hideal : Ideal calm 0 := ⟨by decide, by decide, by decide, by decide, rfl, rfl, by decide, rfl⟩
  have hs : Steady (still 0) 0 := ⟨fun _ => rfl, fun _ _ _ => UInt64.le_refl _, fun _ => by
    show (0 : UInt64).toNat + _ < _
    decide⟩
  have hanswers : (Machine.run (World.act (still 0)) (World.fresh ⟨[], []⟩ [] 0 calm)
      [.bind ⟨1, 1⟩, .bind ⟨2, 2⟩, .send 0 ⟨2, 2⟩ [7], .send 1 ⟨2, 2⟩ [8, 9]]).map Prod.fst =
        some [.bound .ok, .bound .ok, .sent ⟨.ok, 1⟩, .sent ⟨.ok, 2⟩] :=
    (Machine.answers_eq (fun _ _ a h => act_alike h hideal hs a)
      (carries_fresh ⟨[], []⟩ [] 0) _).trans rfl
  obtain ⟨⟨answers, w⟩, hrun, rfl⟩ := Option.map_eq_some_iff.mp hanswers
  refine ⟨w, hrun, ?_⟩
  exact @everything_arrives _ _ _ hideal hs _ _ _ _ _ _ hrun (fun _ _ => Nat.le_refl _) 1 ⟨2, 2⟩
    [(⟨1, 1⟩, [7]), (⟨2, 2⟩, [8, 9])] rfl rfl 8 (by decide)

end Runs

end CBase.Transport
