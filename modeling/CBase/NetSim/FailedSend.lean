import CBase.NetSim.QueueCap

/-!
# Sends that fail

`cb_netsim_send_to` enqueues the primary copy of a datagram before it asks for the memory of a
duplicate. When that request fails, the send fails too, but its primary copy stays on its way: the
send is `HalfSent`.

* `FailsClean`: a send that fails leaves no datagram behind, and one that is too large changes nothing.
* `fails_clean_iff`: in every reachable state this holds of the sends that are not half sent.
* `failed_send_delivers`: a send that fails and puts its datagram on the pending list.
-/

namespace CBase.NetSim

structure IoResult where
  info : Info
  bytes : Nat

/-- `cb__transport_netsim_send`. `data` holds the `size` bytes. -/
def transportNetsimSend (env : Env) (net : Net) (impl : Option Handle) (dest : Addr)
    (data : List UInt8) : Option (IoResult × Net) := do
  let ((info, _), net) ← sendTo env net impl dest data
  return (⟨info, if info = .ok then data.length else 0⟩, net)

/-- The pending list, every ready FIFO and every endpoint with its `bytes_in_flight` are the same. -/
structure Untouched (net net' : Net) : Prop where
  pending : pendingList net' = pendingList net
  ready : ∀ a, readyList net' a = readyList net a
  endpoints : endpointList net' = endpointList net

/-- A send has an answer, and no datagram stays behind when it is a failure. -/
def FailsClean (env : Env) (net : Net) (ep : Option Handle) (dest : Addr) (buf : List UInt8) : Prop :=
  ∃ info rolls net', sendTo env net ep dest buf = some ((info, rolls), net') ∧
    (info ≠ .ok → transportNetsimSend env net ep dest buf = some (⟨info, 0⟩, net') ∧
      Untouched net net') ∧
    (info = .netsimPayloadTooLarge → net' = net)

/-- A send of two copies, with memory for the first and not for the second. -/
structure HalfSent (env : Env) (net : Net) (ep : Option Handle) (dest : Addr) (buf : List UInt8) :
    Prop where
  admitted : ∃ e, Admitted ep buf e
  room : ∃ e ∈ endpointList net, e.addr = dest ∧
    overCap net.params e.bytesInFlight buf.length = false
  duplicated : duplicates net.rng net.params buf.length = true
  first : ∀ n ∈ copyRequests net.requests buf, env.memory n = true
  second : ∃ n ∈ copyRequests (net.requests + (copyRequests net.requests buf).length) buf,
    env.memory n = false

structure Sim.HalfSent (env : Env) (s : Sim) (ep : Option Handle) (dest : Addr) (buf : List UInt8) :
    Prop where
  admitted : ∃ e, Admitted ep buf e
  room : ∃ b, s.box dest = some b ∧ overCap s.params b.bytes buf.length = false
  duplicated : duplicates s.rng s.params buf.length = true
  first : ∀ n ∈ copyRequests s.requests buf, env.memory n = true
  second : ∃ n ∈ copyRequests (s.requests + (copyRequests s.requests buf).length) buf,
    env.memory n = false

section Sends

variable {env : Env} {src dest : Addr} {buf : List UInt8} {now : UInt64} {s s' : Sim}
  {ep : Option Handle} {info : Info} {rolls : List Rolls}

/-- A send fails with one copy on its way if the duplicate roll hits and there is memory for the first
copy only. -/
theorem Sent.half_iff {rng : Rng} {out : Info × List Rolls} (h : Sent env src dest buf now s out s')
    (hdrop : rng.chanceFx16 s.params.dropProb = (false, s.rng)) :
    (out.1 ≠ .ok ∧ out.2 ≠ []) ↔
      duplicates rng s.params buf.length = true ∧
      (∀ n ∈ copyRequests s.requests buf, env.memory n = true) ∧
      ∃ n ∈ copyRequests (s.requests + (copyRequests s.requests buf).length) buf,
        env.memory n = false := by
  cases h with
  | failed hnone =>
    obtain ⟨n, hn, -, hno⟩ := hnone.denied
    exact iff_of_false (fun h => h.2 rfl) fun h => hno (h.2.1 n hn)
  | single hfirst hdup =>
    cases hfirst with
    | copy hfirst =>
      refine iff_of_false (fun h => h.1 rfl) fun h => ?_
      have hhit := (congrArg Prod.fst hdup).symm.trans ((duplicates_of_roll hdrop hfirst).symm.trans h.1)
      cases hhit
  | half hfirst hdup hnone =>
    cases hfirst with
    | copy hfirst hmem =>
      cases hnone with
      | failed hn hno =>
        have hdouble := (duplicates_of_roll hdrop hfirst).trans (congrArg Prod.fst hdup)
        exact iff_of_true ⟨by simp, by simp⟩ ⟨hdouble, hmem, _, hn, hno⟩
  | double hfirst hdup hsecond =>
    cases hfirst with
    | copy hfirst hmem =>
      cases hsecond with
      | copy hsecond hmem' =>
        refine iff_of_false (fun h => h.1 rfl) ?_
        rintro ⟨-, -, n, hn, hno⟩
        exact absurd ((hmem' n hn).symm.trans hno) (by simp)

theorem Sent.not_large {out : Info × List Rolls} (h : Sent env src dest buf now s out s') :
    out.1 ≠ .netsimPayloadTooLarge := by
  cases h <;> simp

/-- What a send answers and enqueues. -/
theorem Effect.half_iff (h : Effect env s (.send ep dest buf, .sent info rolls) s') :
    (info ≠ .ok ∧ rolls ≠ []) ↔ s.HalfSent env ep dest buf := by
  cases h with
  | idle hquiet =>
    cases hquiet with
    | refused _ hno => exact iff_of_false (fun h => h.2 rfl) fun h => h.admitted.elim hno
  | unbound hadmitted hb =>
    refine iff_of_false (fun h => h.1 rfl) ?_
    rintro ⟨-, ⟨b, hbox, -⟩, -⟩
    rw [hb] at hbox
    cases hbox
  | full hadmitted hb hfull =>
    refine iff_of_false (fun h => h.1 rfl) ?_
    rintro ⟨-, ⟨b, hbox, hroom⟩, -⟩
    obtain rfl := Option.some.inj (hb.symm.trans hbox)
    rw [hfull] at hroom
    cases hroom
  | dropped hadmitted hb hroom hdrop =>
    refine iff_of_false (fun h => h.1 rfl) fun h => ?_
    have hdup := h.duplicated
    unfold duplicates at hdup
    rw [hdrop] at hdup
    cases hdup
  | @sent _ e _ _ b rng out _ hadmitted hb hroom hdrop hsent =>
    refine (hsent.half_iff hdrop).trans ⟨fun ⟨hdup, hfirst, hsecond⟩ => ?_, fun h => ?_⟩
    · exact ⟨⟨e, hadmitted⟩, ⟨b, hb, hroom⟩, hdup, hfirst, hsecond⟩
    · exact ⟨h.duplicated, h.first, h.second⟩

/-- Only a send that is refused at once is too large. -/
theorem Effect.not_admitted (h : Effect env s (.send ep dest buf, .sent info rolls) s')
    (hinfo : info = .netsimPayloadTooLarge) : ∀ e, ¬ Admitted ep buf e := by
  cases h with
  | idle hquiet =>
    cases hquiet with
    | refused _ hno => exact hno
  | sent _ _ _ _ hsent => exact absurd hinfo hsent.not_large
  | _ => cases hinfo

/-- A send that is refused at once changes nothing at all. -/
theorem sendTo_refused (env : Env) (net : Net) (dest : Addr) (hno : ∀ e, ¬ Admitted ep buf e) :
    ∃ info, sendTo env net ep dest buf = some ((info, []), net) := by
  cases ep with
  | none => exact ⟨_, rfl⟩
  | some ep =>
    unfold sendTo
    by_cases hat : ep.attached = true
    · have hlarge : maxDatagramBytes < buf.length := Nat.lt_of_not_le fun hle => hno ep ⟨rfl, hat, hle⟩
      exact ⟨_, by simp [hat, hlarge]; rfl⟩
    · exact ⟨_, by simp [hat]; rfl⟩

theorem length_pending_posts {v : View} (cs : List Copy) :
    (cs.foldl View.post v).pending.length = v.pending.length + cs.length := by
  induction cs generalizing v with
  | nil => rfl
  | cons c cs ih =>
    have hinsert : (v.post c).pending.length = v.pending.length + 1 :=
      (Mailbox.insert_perm c v.pending).length_eq
    rw [List.foldl_cons, ih, hinsert, List.length_cons]
    omega

end Sends

namespace Laid

variable {net net' : Net} {v v' : View}

theorem untouched (h : Laid net v) (h' : Laid net' v) : Untouched net net' where
  pending := by rw [h.pendingList_eq, h'.pendingList_eq]
  ready := fun a => by rw [h.readyList_eq, h'.readyList_eq]
  endpoints := by rw [h.endpointList_eq, h'.endpointList_eq]

theorem halfSent_iff (h : Laid net v) (env : Env) (ep : Option Handle) (dest : Addr)
    (buf : List UInt8) :
    HalfSent env net ep dest buf ↔ (net.sim v).HalfSent env ep dest buf := by
  have hroom : (∃ e ∈ endpointList net, e.addr = dest ∧
        overCap net.params e.bytesInFlight buf.length = false) ↔
      ∃ b, v.box dest = some b ∧ overCap net.params b.bytes buf.length = false := by
    rw [h.endpointList_eq]
    constructor
    · rintro ⟨e, he, rfl, hroom⟩
      obtain ⟨b, hb, rfl⟩ := List.mem_map.mp he
      exact ⟨b, View.box_of_mem h.repr.addrs hb, hroom⟩
    · rintro ⟨b, hb, hroom⟩
      exact ⟨b.cell.2, List.mem_map_of_mem (List.mem_of_find?_eq_some hb), View.box_addr hb, hroom⟩
  constructor
  · exact fun ⟨hadmitted, hr, hdup, hfirst, hsecond⟩ => ⟨hadmitted, hroom.mp hr, hdup, hfirst, hsecond⟩
  · exact fun ⟨hadmitted, hr, hdup, hfirst, hsecond⟩ => ⟨hadmitted, hroom.mpr hr, hdup, hfirst, hsecond⟩

variable {env : Env} {ep : Option Handle} {dest : Addr} {buf : List UInt8} {info : Info}
  {rolls : List Rolls}

/-- A send without copies leaves nothing behind. -/
theorem untouched_of_nil (h : Laid net v) (h' : Laid net' v')
    (heffect : Effect env (net.sim v) (.send ep dest buf, .sent info []) (net'.sim v')) :
    Untouched net net' := by
  have hcopies : sentCopies net.nodes.brk ep dest buf [] = [] := by cases ep <;> rfl
  have hview : v' = (sentCopies net.nodes.brk ep dest buf []).foldl View.post v := heffect.sent_view
  rw [hcopies, List.foldl_nil] at hview
  exact h.untouched (hview ▸ h')

/-- A copy stays on the pending list. -/
theorem nil_of_untouched {e : Handle} (h : Laid net v) (h' : Laid net' v')
    (heffect : Effect env (net.sim v) (.send (some e) dest buf, .sent info rolls) (net'.sim v'))
    (hsame : Untouched net net') : rolls = [] := by
  have hview : v' = (copiesOf net.nodes.brk e.addr dest buf rolls).foldl View.post v :=
    heffect.sent_view
  have hlength := congrArg List.length hsame.pending
  rw [h.pendingList_eq, h'.pendingList_eq, hview, length_pending_posts, copiesOf,
    List.length_mapIdx] at hlength
  exact List.length_eq_zero_iff.mp (by omega)

/-- A send fails without a trace if it is not half sent. -/
theorem failsClean_iff (h : Laid net v) (env : Env) (ep : Option Handle) (dest : Addr)
    (buf : List UInt8) : FailsClean env net ep dest buf ↔ ¬ HalfSent env net ep dest buf := by
  obtain ⟨info, rolls, net', v', hsend, hrepr, heffect⟩ := h.repr.sendTo env ep dest buf
  have h' : Laid net' v' := ⟨hrepr, heffect.mail.wf h.wf⟩
  rw [h.halfSent_iff, ← heffect.half_iff]
  constructor
  · rintro ⟨info', rolls', net'', hsend', hfail, -⟩ ⟨hne, hrolls⟩
    obtain ⟨hout, rfl⟩ := Prod.mk.inj (Option.some.inj (hsend.symm.trans hsend'))
    obtain ⟨rfl, rfl⟩ := Prod.mk.inj hout
    obtain ⟨e, rfl, -⟩ := (heffect.half_iff.mp ⟨hne, hrolls⟩).admitted
    exact hrolls (h.nil_of_untouched h' heffect (hfail hne).2)
  · intro hwhole
    refine ⟨info, rolls, net', hsend, fun hne => ⟨?_, ?_⟩, fun hlarge => ?_⟩
    · simp [transportNetsimSend, hsend, hne]
    · obtain rfl : rolls = [] := by
        by_contra hrolls
        exact hwhole ⟨hne, hrolls⟩
      exact h.untouched_of_nil h' heffect
    · obtain ⟨_, hsame⟩ := sendTo_refused env net dest (heffect.not_admitted hlarge)
      exact (Prod.mk.inj (Option.some.inj (hsend.symm.trans hsame))).2

end Laid

section Runs

variable {env : Env} {seed : UInt64} {params : Params} {net : Net} {h : Calls}

/-- In every reachable state, with any state of the generator and any memory for the requests of the
call: a send fails without a trace if and only if it is not half sent. -/
theorem fails_clean_iff (hrun : Run (Exec env) (create seed params) h net) (env' : Env) (rng : Rng)
    (ep : Option Handle) (dest : Addr) (buf : List UInt8) :
    FailsClean env' { net with rng } ep dest buf ↔ ¬ HalfSent env' { net with rng } ep dest buf := by
  obtain ⟨v, hlaid⟩ := Run.laid hrun
  have hlaid' : Laid { net with rng } v :=
    ⟨⟨hlaid.repr.nodes, hlaid.repr.pending, hlaid.repr.endpoints, hlaid.repr.addrs⟩, hlaid.wf⟩
  exact hlaid'.failsClean_iff env' ep dest buf

/-- Memory for every request but one. -/
def deny (n : Nat) : Env := ⟨fun _ => 0, fun m => m != n⟩

/-- A send without memory for its only copy. -/
theorem fails_clean_single :
    ∃ h net, Run (Exec (deny 1)) (create 0 calm) h net ∧
      FailsClean (deny 1) net (some ⟨.ok, true, ⟨1, 2⟩⟩) ⟨1, 2⟩ [7] := by
  obtain ⟨h, net, hrun, hrolls⟩ := @script_reaches (deny 1) (create 0 calm)
    (fun _ net => duplicates net.rng net.params 1 = false) _ [.bind ⟨1, 2⟩] (by decide +kernel)
  refine ⟨h, net, hrun, (fails_clean_iff hrun (deny 1) net.rng _ _ _).mpr fun hhalf => ?_⟩
  exact absurd (hrolls.symm.trans hhalf.duplicated) (by simp)

/-- A send that duplicates one byte, with memory for one copy. It answers that it has no memory, and the
byte is pending. -/
theorem failed_send_delivers :
    ¬ ∀ (env : Env) (seed : UInt64) (params : Params) (h : Calls) (net : Net),
      paramsOk params = true → Run (Exec env) (create seed params) h net →
      ∀ ep dest buf, FailsClean env net ep dest buf := by
  intro hall
  obtain ⟨h, net, hrun, hdup, hrequests, hroom⟩ := @script_reaches (deny 3)
    (create 0 { calm with dupProb := 65536 })
    (fun _ net => duplicates net.rng net.params 1 = true ∧ net.requests = 1 ∧
      ∃ e ∈ endpointList net, e.addr = ⟨1, 2⟩ ∧ overCap net.params e.bytesInFlight 1 = false)
    _ [.bind ⟨1, 2⟩] (by decide +kernel)
  obtain ⟨v, hlaid⟩ := Run.laid hrun
  have hclean := hall _ _ _ _ _ (by decide) hrun (some ⟨.ok, true, ⟨1, 2⟩⟩) ⟨1, 2⟩ [7]
  refine (hlaid.failsClean_iff _ _ _ _).mp hclean ⟨⟨_, rfl, rfl, by decide⟩, hroom, hdup, ?_, ?_⟩
  · rw [hrequests]
    decide
  · rw [hrequests]
    decide

end Runs

end CBase.NetSim
