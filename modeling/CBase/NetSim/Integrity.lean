import CBase.NetSim.Delivery
import CBase.NetSim.Rolls

/-!
# Datagram integrity

Every copy is what was sent, except for one bit if its corruption roll hit. While its destination stays
bound it is pending, ready, or received once, until the next flush.
-/

namespace CBase.NetSim

/-- The two byte strings differ in bit `bit` and in no other. -/
def DiffersAt (buf payload : List UInt8) (bit : Nat) : Prop :=
  payload.length = buf.length ∧ ∀ i, bitAt payload i = (bitAt buf i ^^ decide (i = bit))

/-- A copy with the rolls `r` of a datagram. -/
structure IsCopy (src dest : Addr) (buf : List UInt8) (r : Rolls) (c : Copy) : Prop where
  src : c.2.src = src
  dest : c.2.dest = dest
  len : c.2.len = buf.length
  payload : match r.flip with
    | none => c.2.payload = buf
    | some bit => bit.toNat < buf.length * 8 ∧ DiffersAt buf c.2.payload bit.toNat

/-- The copies enqueued for `a` since its latest bind and the latest flush. -/
def copiesFor (env : Env) (a : Addr) (h : Calls) : List Copy :=
  Mailbox.sent dest a (Mailbox.since (Mailbox.Event.resets a) (events env h))

/-- The copies received at `a` since its latest bind and the latest flush. -/
def receivedAt (env : Env) (a : Addr) (h : Calls) : List Copy :=
  Mailbox.taken a (Mailbox.since (Mailbox.Event.resets a) (events env h))

def pendingFor (net : Net) (a : Addr) : List Copy := Mailbox.bound dest a (pendingList net)

section Effects

variable {env : Env} {s s' : Sim}

/-- The rolls that a send replies. -/
theorem Effect.rolled {ep : Option Handle} {dest : Addr} {buf : List UInt8} {info : Info}
    {rolls : List Rolls} (h : Effect env s (.send ep dest buf, .sent info rolls) s') :
    rolls.length ≤ 2 ∧ ∀ r ∈ rolls, Rolled s.params buf.length (env.clock s.readings) r := by
  cases h with
  | idle hquiet =>
    cases hquiet
    exact ⟨Nat.zero_le _, nofun⟩
  | unbound => exact ⟨Nat.zero_le _, nofun⟩
  | full => exact ⟨Nat.zero_le _, nofun⟩
  | dropped => exact ⟨Nat.zero_le _, nofun⟩
  | sent hadmitted hb hroom hdrop hsent =>
    have hframe := hsent.frame
    refine ⟨hframe.few, fun r hr => ?_⟩
    obtain ⟨rng, rng', hroll⟩ := hframe.rolled r hr
    exact rollCopy_spec hroll hadmitted.2.2

/-- They are drawn from the generator as the send finds it. -/
theorem Effect.drawn {ep : Option Handle} {dest : Addr} {buf : List UInt8} {info : Info}
    {rolls : List Rolls} (h : Effect env s (.send ep dest buf, .sent info rolls) s') :
    SendDraw s.rng s.params buf.length rolls := by
  cases h with
  | idle hquiet =>
    cases hquiet
    exact .none
  | unbound => exact .none
  | full => exact .none
  | dropped => exact .none
  | sent hadmitted hb hroom hdrop hsent => exact hsent.draw hdrop

/-- A successful receive takes the head of the ready FIFO. -/
theorem Effect.head {ep : Handle} {outSrc outBuf outLen : Bool} {outCap : Nat} {r : Received}
    (h : Effect env s (.recv (some ep) outSrc outBuf outCap outLen, .received r) s')
    (hok : r.info = .ok) :
    ∃ b c rest, s.box ep.addr = some b ∧ b.ready = c :: rest ∧
      r.src = (if outSrc then some c.2.src else none) ∧
      r.payload = (if 0 < c.2.len ∧ outBuf then c.2.payload else []) ∧ r.len = some c.2.len := by
  cases h with
  | idle hquiet =>
    cases hquiet with
    | unreceived hfail => exact absurd hok hfail
  | @received _ _ _ _ b c rest hat hb hready hcap => exact ⟨b, c, rest, hb, hready, rfl, rfl, rfl⟩

end Effects

theorem Rolls.length_payload (r : Rolls) (buf : List UInt8) : (r.payload buf).length = buf.length := by
  unfold Rolls.payload
  split
  · rfl
  · exact length_flipBit _ _

theorem Rolled.isCopy {params : Params} {now : UInt64} {src dest : Addr} {buf : List UInt8} {r : Rolls}
    (h : Rolled params buf.length now r) (p : LinkedHeap.Ptr) :
    IsCopy src dest buf r (p, r.node src dest buf) := by
  refine ⟨rfl, rfl, rfl, ?_⟩
  have hpayload : (r.node src dest buf).payload = r.payload buf := rfl
  cases hflip : r.flip with
  | none => simp only [hpayload, Rolls.payload, hflip]
  | some bit =>
    have hbit := (h.flip bit hflip).1
    simp only [hpayload, Rolls.payload, hflip]
    exact ⟨hbit, length_flipBit _ _, bitAt_flipBit hbit⟩

theorem forall₂_copiesOf {src dest : Addr} {buf : List UInt8} {P : Rolls → Copy → Prop}
    {rolls : List Rolls} (h : ∀ r ∈ rolls, ∀ p, P r (p, r.node src dest buf)) (brk : Nat) :
    List.Forall₂ P rolls (copiesOf brk src dest buf rolls) := by
  rw [List.forall₂_iff_get]
  refine ⟨by simp [copiesOf], fun i hi hi' => ?_⟩
  simp only [copiesOf, List.get_eq_getElem, List.getElem_mapIdx]
  exact h _ (List.getElem_mem _) _

section Runs

variable {env : Env} {seed : UInt64} {params : Params} {net : Net} {h : Calls}

/-- Every call of a run is made on a simulator that is laid out. -/
theorem Run.entry {h₁ h₂ : Calls} {t : Taken Net (Call × Reply)}
    (hrun : Run (Exec env) (create seed params) (h₁ ++ t :: h₂) net) :
    Run (Exec env) (create seed params) h₁ t.pre ∧ ∃ v v', Laid t.pre v ∧ Laid t.post v' ∧
      Effect env (t.pre.sim v) t.label (t.post.sim v') := by
  obtain ⟨hbefore, hexec, -⟩ := hrun.at_entry
  obtain ⟨v, hlaid⟩ := Run.laid hbefore
  obtain ⟨v', hlaid', heffect⟩ := hlaid.exec hexec
  exact ⟨hbefore, v, v', hlaid, hlaid', heffect⟩

/-- Where an enqueued copy comes from. -/
theorem Run.origin (hrun : Run (Exec env) (create seed params) h net) {c : Copy}
    (hc : c ∈ enqueued env h) :
    ∃ h₁ t h₂ v e dest buf info rolls r, h = h₁ ++ t :: h₂ ∧ Laid t.pre v ∧
      t.label = (.send (some e) dest buf, .sent info rolls) ∧ r ∈ rolls ∧
      c.2 = r.node e.addr dest buf ∧
      Rolled t.pre.params buf.length (env.clock t.pre.readings) r := by
  obtain ⟨_, he, hpost⟩ := List.mem_flatMap.mp hc
  obtain ⟨⟨pre, act, post⟩, ht, rfl⟩ := List.mem_map.mp he
  obtain ⟨h₁, h₂, rfl⟩ := List.append_of_mem ht
  obtain ⟨-, v, v', hlaid, hlaid', heffect⟩ := Run.entry hrun
  rw [hlaid.observe_eq hlaid' heffect] at hpost
  obtain ⟨e, dest, buf, info, rolls, rfl, hcopy⟩ := Sim.mem_posts hpost
  obtain ⟨-, -, r, hr, hnode⟩ := mem_copiesOf hcopy
  exact ⟨h₁, _, h₂, v, e, dest, buf, info, rolls, r, rfl, hlaid, rfl, hr, hnode, heffect.rolled.2 r hr⟩

/-- A payload is as long as its datagram says. -/
theorem Run.length_payload (hrun : Run (Exec env) (create seed params) h net) {c : Copy}
    (hc : c ∈ enqueued env h) : c.2.payload.length = c.2.len := by
  obtain ⟨_, _, _, _, e, dest, buf, _, _, r, -, -, -, -, hnode, -⟩ := Run.origin hrun hc
  rw [hnode]
  exact r.length_payload buf

theorem copiesFor_sublist (env : Env) (a : Addr) (h : Calls) :
    (copiesFor env a h).Sublist (enqueued env h) := Mailbox.sent_since_sublist _

/-- Each copy for a bound address is in one place. -/
theorem Run.places (hrun : Run (Exec env) (create seed params) h net) {a : Addr} {l : List Copy}
    (hl : readyList net a = some l) : (copiesFor env a h).Nodup ∧
      (copiesFor env a h).Perm (receivedAt env a h ++ l ++ pendingFor net a) := by
  obtain ⟨v, m, hlaid, hm, hlabels⟩ := Run.mail hrun
  have hpending : pendingList net = v.mail.waiting := hlaid.pendingList_eq
  refine ⟨?_, ?_⟩
  · exact ((Run.numbered hrun).1.sublist (copiesFor_sublist env a h)).imp fun hlt heq => by
      rw [heq] at hlt
      exact Nat.lt_irrefl _ hlt
  · rw [hlaid.readyList_eq] at hl
    have hperm := Mailbox.Run.conserved hm hl
    rw [hlabels, ← hpending] at hperm
    exact hperm

/-- A receive adds the head of the ready FIFO to what was received. -/
theorem receivedAt_snoc {t : Taken Net (Call × Reply)} {a : Addr} {c : Copy}
    (ht : observe env t = .took a c) : receivedAt env a (h ++ [t]) = receivedAt env a h ++ [c] := by
  have hkept : (Mailbox.Event.took a c : Mailbox.Event Copy Addr Nat).resets a = false := rfl
  unfold receivedAt
  rw [events_snoc, ht, Mailbox.since_snoc_neg hkept, Mailbox.taken_snoc]
  simp [Mailbox.Event.takes]

/-- A send creates at most two copies of what it was given, up to one bit of each, which its corruption
roll draws. -/
theorem Run.copies {h₁ h₂ : Calls} {pre post : Net} {ep : Option Handle} {dest : Addr}
    {buf : List UInt8} {info : Info} {rolls : List Rolls} (hrun : Run (Exec env) (create seed params)
      (h₁ ++ ⟨pre, (.send ep dest buf, .sent info rolls), post⟩ :: h₂) net) :
    (created pre post).length ≤ 2 ∧
      (∀ e, ep = some e → List.Forall₂ (IsCopy e.addr dest buf) rolls (created pre post)) ∧
      SendDraw pre.rng pre.params buf.length rolls ∧
      (pre.params.corruptProb ≤ 0 → ∀ r ∈ rolls, r.flip = none) := by
  obtain ⟨-, v, v', hlaid, hlaid', heffect⟩ := Run.entry hrun
  obtain ⟨hfew, hrolled⟩ := heffect.rolled
  have hcreated := hlaid.created_send hlaid' heffect
  refine ⟨?_, ?_, heffect.drawn, fun hcorrupt r hr => ?_⟩
  · rw [hcreated]
    cases ep with
    | none => exact Nat.zero_le _
    | some e => simpa [sentCopies, copiesOf] using hfew
  · rintro e rfl
    rw [hcreated]
    exact forall₂_copiesOf (fun r hr p => (hrolled r hr).isCopy p) _
  · cases hflip : r.flip with
    | none => rfl
    | some bit =>
      have hpos := ((hrolled r hr).flip bit hflip).2
      exact absurd hcorrupt (Int32.not_le.mpr hpos)

/-- A successful receive returns a copy that was not received before. -/
theorem Run.received {h₁ h₂ : Calls} {pre post : Net} {ep : Handle} {outSrc outLen : Bool}
    {outCap : Nat} {r : Received} (hrun : Run (Exec env) (create seed params)
      (h₁ ++ ⟨pre, (.recv (some ep) outSrc true outCap outLen, .received r), post⟩ :: h₂) net)
    (hok : r.info = .ok) :
    ∃ c ∈ copiesFor env ep.addr h₁, c ∉ receivedAt env ep.addr h₁ ∧
      receivedAt env ep.addr (h₁ ++ [⟨pre, (.recv (some ep) outSrc true outCap outLen, .received r),
        post⟩]) = receivedAt env ep.addr h₁ ++ [c] ∧
      r.src = (if outSrc then some c.2.src else none) ∧ r.payload = c.2.payload ∧
      r.len = some c.2.len := by
  obtain ⟨hbefore, v₁, v₂, hlaid₁, hlaid₂, heffect⟩ := Run.entry hrun
  obtain ⟨b, c, rest, hb, hready, hsrc, hpayload, hlen⟩ := heffect.head hok
  have hlist : readyList pre ep.addr = some (c :: rest) := by
    rw [hlaid₁.readyList_eq, ← hready]
    exact congrArg (Option.map Box.ready) hb
  obtain ⟨hnodup, hperm⟩ := Run.places hbefore hlist
  have hmem : c ∈ copiesFor env ep.addr h₁ := hperm.mem_iff.mpr (by simp)
  have hnew : c ∉ receivedAt env ep.addr h₁ := by
    have hsplit := hperm.nodup_iff.mp hnodup
    rw [List.append_assoc, List.nodup_append] at hsplit
    exact fun hin => hsplit.2.2 c hin c (by simp) rfl
  refine ⟨c, hmem, hnew, receivedAt_snoc ?_, hsrc, ?_, hlen⟩
  · simp [observe, hok, hlist]
  · have hlength := Run.length_payload hbefore ((copiesFor_sublist env ep.addr h₁).subset hmem)
    rw [hpayload]
    split
    · rfl
    · next hzero =>
      have hlen₀ : c.2.len = 0 := by simpa using hzero
      exact (List.length_eq_zero_iff.mp (hlength.trans hlen₀)).symm

/-- For every run, whatever memory it gets: every call has a result; every copy is what was sent, up to
one bit that its corruption roll flips, drawn from the generator as the send finds it; while an address is
bound, each copy enqueued for it since the latest bind and the latest flush is received once, ready or
pending; and a receive returns such a copy. -/
theorem datagram_integrity (hrun : Run (Exec env) (create seed params) h net) :
    (∀ call, (exec env net call).isSome) ∧
    (∀ t ∈ h, ∀ ep dest buf info rolls, t.label = (.send ep dest buf, .sent info rolls) →
      (created t.pre t.post).length ≤ 2 ∧
      (∀ e, ep = some e → List.Forall₂ (IsCopy e.addr dest buf) rolls (created t.pre t.post)) ∧
      SendDraw t.pre.rng t.pre.params buf.length rolls ∧
      (t.pre.params.corruptProb ≤ 0 → ∀ r ∈ rolls, r.flip = none)) ∧
    (∀ a l, readyList net a = some l → (copiesFor env a h).Nodup ∧
      (copiesFor env a h).Perm (receivedAt env a h ++ l ++ pendingFor net a)) ∧
    (∀ a, readyList net a = none → pendingFor net a = []) ∧
    ∀ h₁ t h₂ ep outSrc outCap outLen r, h = h₁ ++ t :: h₂ →
      t.label = (.recv (some ep) outSrc true outCap outLen, .received r) → r.info = .ok →
      ∃ c ∈ copiesFor env ep.addr h₁, c ∉ receivedAt env ep.addr h₁ ∧
        receivedAt env ep.addr (h₁ ++ [t]) = receivedAt env ep.addr h₁ ++ [c] ∧
        r.src = (if outSrc then some c.2.src else none) ∧ r.payload = c.2.payload ∧
        r.len = some c.2.len := by
  obtain ⟨v, hlaid⟩ := Run.laid hrun
  refine ⟨hlaid.total env, ?_, fun a l hl => Run.places hrun hl, fun a ha => ?_, ?_⟩
  · rintro ⟨pre, act, post⟩ ht ep dest buf info rolls hlabel
    obtain rfl : act = _ := hlabel
    obtain ⟨h₁, h₂, rfl⟩ := List.append_of_mem ht
    exact Run.copies hrun
  · rw [hlaid.readyList_eq] at ha
    unfold pendingFor
    rw [hlaid.pendingList_eq]
    exact hlaid.wf.bound_eq_nil ha
  · rintro h₁ ⟨pre, act, post⟩ h₂ ep outSrc outCap outLen r rfl hlabel hok
    obtain rfl : act = _ := hlabel
    exact Run.received hrun hok

/-- A datagram is sent, delivered and received. -/
theorem datagram_integrity_received :
    ∃ h net, Run (Exec (still 0)) (create 0 calm) h net ∧ (receivedAt (still 0) ⟨1, 2⟩ h).length = 1 ∧
      (copiesFor (still 0) ⟨1, 2⟩ h).Perm
        (receivedAt (still 0) ⟨1, 2⟩ h ++ [] ++ pendingFor net ⟨1, 2⟩) := by
  let ep : Handle := ⟨.ok, true, ⟨1, 2⟩⟩
  let calls : List Call := [.bind ⟨1, 2⟩, .send (some ep) ⟨1, 2⟩ [7], .step,
    .recv (some ep) true true 1 true]
  obtain ⟨h, net, hrun, hreceived, hready⟩ := @script_reaches (still 0) (create 0 calm)
    (fun h net => (receivedAt (still 0) ⟨1, 2⟩ h).length = 1 ∧
      (readyList net ⟨1, 2⟩).map List.length = some 0) _ calls (by decide +kernel)
  obtain ⟨l, hl, hlen⟩ := Option.map_eq_some_iff.mp hready
  obtain rfl := List.length_eq_zero_iff.mp hlen
  exact ⟨h, net, hrun, hreceived, ((datagram_integrity hrun).2.2.1 _ _ hl).2⟩

/-- Closing an endpoint discards what was enqueued for it since its latest bind. -/
theorem close_discards :
    ∃ h net, Run (Exec (still 0)) (create 0 calm) h net ∧ ∃ c ∈ copiesFor (still 0) ⟨1, 2⟩ h,
      c ∉ pendingList net ∧ readyList net ⟨1, 2⟩ = none ∧ c ∉ receivedAt (still 0) ⟨1, 2⟩ h := by
  let ep : Handle := ⟨.ok, true, ⟨1, 2⟩⟩
  let calls : List Call := [.bind ⟨1, 2⟩, .send (some ep) ⟨1, 2⟩ [7], .close (some ep)]
  obtain ⟨h, net, hrun, hcopies, hpending, hready, hreceived⟩ := @script_reaches (still 0)
    (create 0 calm) (fun h net => (copiesFor (still 0) ⟨1, 2⟩ h).length = 1 ∧
      (pendingList net).length = 0 ∧ (readyList net ⟨1, 2⟩).isNone = true ∧
      (receivedAt (still 0) ⟨1, 2⟩ h).length = 0) _ calls (by decide +kernel)
  obtain ⟨c, hc⟩ := List.length_eq_one_iff.mp hcopies
  refine ⟨h, net, hrun, c, by simp [hc], ?_, Option.isNone_iff_eq_none.mp hready, ?_⟩
  · simp [List.length_eq_zero_iff.mp hpending]
  · simp [List.length_eq_zero_iff.mp hreceived]

end Runs

end CBase.NetSim
