import CBase.NetSim.Integrity

/-!
# Delivery order

If the clock does not go back and no schedule wraps, what an endpoint received, then its ready FIFO,
then what is pending for it, is in the order of the schedules, and of the sends where these agree. With
one fixed latency it is in the order of the sends.
-/

namespace CBase.NetSim

/-- The readings of the clock so far never decrease. -/
def ClockMonotone (env : Env) (net : Net) : Prop :=
  ∀ i j, i ≤ j → j < net.readings → env.clock i ≤ env.clock j

def NoWraps (h : Calls) : Prop :=
  ∀ t ∈ h, ∀ r ∈ t.label.2.rolls, r.NoWrap

instance (h : Calls) : Decidable (NoWraps h) := List.decidableBAll _ h

/-- The copies enqueued for `a` since its latest bind. -/
def sentSinceBind (env : Env) (a : Addr) (h : Calls) : List Copy :=
  Mailbox.sent dest a (Mailbox.since (Mailbox.Event.opens a) (events env h))

/-- The copies received at `a` since its latest bind. -/
def receivedSinceBind (env : Env) (a : Addr) (h : Calls) : List Copy :=
  Mailbox.taken a (Mailbox.since (Mailbox.Event.opens a) (events env h))

/-- Scheduled earlier, or at the same time and enqueued earlier. -/
def InOrder (copies : List Copy) (x y : Copy) : Prop :=
  x.2.scheduledNs < y.2.scheduledNs ∨
    x.2.scheduledNs = y.2.scheduledNs ∧ [x, y].Sublist copies

def callsSinceBind (env : Env) (a : Addr) (h : Calls) : Calls :=
  h.rtakeWhile fun t => !(observe env t).opens a

section Runs

variable {env : Env} {seed : UInt64} {params : Params} {net : Net} {h : Calls}

theorem Sim.event_delivered {s : Sim} {act : Call × Reply} {now : Nat}
    (h : s.event env act = .delivered now) : act.1 = .step ∧ now = (env.clock s.readings).toNat := by
  obtain ⟨call, reply⟩ := act
  cases call with
  | step =>
    cases h
    exact ⟨rfl, rfl⟩
  | bind addr =>
    cases reply with
    | handle ep =>
      rw [Sim.event] at h
      split at h <;> cases h
    | _ => cases h
  | close ep =>
    cases ep with
    | none => cases h
    | some e =>
      rw [Sim.event] at h
      split at h <;> cases h
  | recv ep =>
    cases ep with
    | none => cases h
    | some e =>
      cases reply with
      | received r =>
        rw [Sim.event] at h
        split at h
        · split at h <;> cases h
        · cases h
      | _ => cases h
  | send => cases reply <;> cases h
  | _ => cases h

/-- Only a flush clears the mailboxes. -/
theorem observe_cleared {t : Taken Net (Call × Reply)} (h : observe env t = .cleared) :
    t.label.1 = .flush := by
  unfold observe at h
  split at h
  · split at h <;> cases h
  · split at h <;> cases h
  · cases h
  · cases h
  · split at h
    · split at h <;> cases h
    · cases h
  · next hcall => rw [hcall]
  · cases h

/-- A step reads the clock, and so does a send that posts a copy. -/
theorem Effect.readings {s s' : Sim} {act : Call × Reply} (heffect : Effect env s act s') :
    s.readings ≤ s'.readings ∧
      (∀ now, s.event env act = .delivered now → now = (env.clock s.readings).toNat ∧
        s.readings < s'.readings) ∧
      ((s.event env act).posts ≠ [] → s.readings < s'.readings) := by
  refine ⟨?_, fun now hnow => ?_, fun hposts => ?_⟩
  · cases heffect with
    | sent hadmitted hb hroom hdrop hsent =>
      rw [hsent.frame.readings]
      exact Nat.le_succ _
    | stepped => exact Nat.le_succ _
    | _ => exact Nat.le_refl _
  · obtain ⟨hcall, hnow⟩ := Sim.event_delivered hnow
    refine ⟨hnow, ?_⟩
    cases heffect with
    | stepped => exact Nat.lt_succ_self _
    | idle hquiet => cases hquiet <;> cases hcall
    | _ => cases hcall
  · obtain ⟨c, hc⟩ := List.exists_mem_of_ne_nil _ hposts
    obtain ⟨e, dest, buf, info, rolls, rfl, hcopy⟩ := Sim.mem_posts hc
    cases heffect with
    | sent hadmitted hb hroom hdrop hsent =>
      rw [hsent.frame.readings]
      exact Nat.lt_succ_self _
    | idle hquiet =>
      cases hquiet
      cases hcopy
    | _ => cases hcopy

/-- A copy is due no earlier than the clock showed when it was sent. -/
theorem Effect.punctual {s s' : Sim} {act : Call × Reply} (heffect : Effect env s act s')
    (hwrap : ∀ r ∈ act.2.rolls, r.NoWrap) {c : Copy} (hc : c ∈ (s.event env act).posts) :
    (env.clock s.readings).toNat ≤ due c := by
  obtain ⟨e, dest, buf, info, rolls, rfl, hcopy⟩ := Sim.mem_posts hc
  obtain ⟨-, -, r, hr, hnode⟩ := mem_copiesOf hcopy
  have hrolled := heffect.rolled.2 r hr
  have hdue : due c = r.scheduledNs.toNat := by rw [due, hnode, Rolls.node]
  rw [hdue, Rolls.toNat_scheduledNs (hwrap r hr), hrolled.now]
  omega

/-- What the mailboxes need to know about the clock. -/
theorem Run.timely (hrun : Run (Exec env) (create seed params) h net) (hclock : ClockMonotone env net)
    (hwrap : NoWraps h) : Mailbox.Timely due Prod.fst (events env h) := by
  refine ⟨(Run.numbered hrun).1, ?_⟩
  suffices hpast : ∀ N, (∀ i j, i ≤ j → j < N → env.clock i ≤ env.clock j) → net.readings ≤ N →
      NoWraps h → (∀ now, .delivered now ∈ events env h → ∃ i < net.readings,
        now = (env.clock i).toNat) ∧ (events env h).Pairwise fun e e' => ∀ now, e = .delivered now →
          ∀ m ∈ e'.posts, now ≤ due m from
    (hpast net.readings hclock (Nat.le_refl _) hwrap).2
  intro N hmono
  refine hrun.invariant_hist (fun h net => net.readings ≤ N → NoWraps h →
    (∀ now, .delivered now ∈ events env h → ∃ i < net.readings, now = (env.clock i).toNat) ∧
      (events env h).Pairwise fun e e' => ∀ now, e = .delivered now → ∀ m ∈ e'.posts, now ≤ due m)
    (fun _ _ => ⟨nofun, .nil⟩) ?_
  rintro h net act net' hr ih hexec hN hwrap
  obtain ⟨v, hlaid⟩ := Run.laid hr
  obtain ⟨v', hlaid', heffect⟩ := hlaid.exec hexec
  obtain ⟨hle, hdelivered, hposted⟩ := heffect.readings
  have hobserve := hlaid.observe_eq hlaid' heffect
  obtain ⟨hpast, hpairs⟩ := ih (Nat.le_trans hle hN) fun t ht => hwrap t (List.mem_append_left _ ht)
  rw [events_snoc, hobserve]
  refine ⟨fun now hnow => ?_, List.pairwise_append.mpr ⟨hpairs, List.pairwise_singleton _ _, ?_⟩⟩
  · rcases List.mem_append.mp hnow with hnow | hnow
    · obtain ⟨i, hi, heq⟩ := hpast now hnow
      exact ⟨i, hi.trans_le hle, heq⟩
    · obtain ⟨heq, hlt⟩ := hdelivered now (List.mem_singleton.mp hnow).symm
      exact ⟨_, hlt, heq⟩
  · rintro e he e' he' now rfl m hm
    rw [List.mem_singleton.mp he'] at hm
    obtain ⟨i, hi, rfl⟩ := hpast now he
    have hlt : net.readings < net'.readings := hposted (List.ne_nil_of_mem hm)
    have hdue := heffect.punctual (hwrap _ (List.mem_append_right _ (List.mem_singleton_self _))) hm
    refine Nat.le_trans ?_ hdue
    exact UInt64.le_iff_toNat_le.mp (hmono i net.readings hi.le (hlt.trans_le hN))

/-- Of two members of a sorted list the smaller comes first. -/
theorem pair_sublist {l : List Copy} (hl : l.Pairwise (·.1 < ·.1)) {x y : Copy} (hx : x ∈ l)
    (hy : y ∈ l) (hxy : x.1 < y.1) : [x, y].Sublist l := by
  induction l with
  | nil => cases hx
  | cons z l ih =>
    rw [List.pairwise_cons] at hl
    rcases List.mem_cons.mp hx with rfl | hx'
    · rcases List.mem_cons.mp hy with rfl | hy'
      · exact absurd hxy (Nat.lt_irrefl _)
      · exact (List.singleton_sublist.mpr hy').cons_cons x
    · rcases List.mem_cons.mp hy with rfl | hy'
      · exact absurd (hl.1 x hx') (Nat.lt_asymm hxy)
      · exact (ih hl.2 hx' hy').cons z

theorem since_opens (env : Env) (a : Addr) (h : Calls) :
    Mailbox.since (Mailbox.Event.opens a) (events env h) =
      (callsSinceBind env a h).map (observe env) := by
  unfold Mailbox.since callsSinceBind events List.rtakeWhile
  rw [← List.map_reverse, List.takeWhile_map, List.map_reverse]
  rfl

/-- The clock readings of a run are made one after the other. -/
theorem Run.readings (hrun : Run (Exec env) (create seed params) h net) :
    (h.Pairwise fun t t' => t.post.readings ≤ t'.pre.readings) ∧
      ∀ t ∈ h, t.pre.readings ≤ t.post.readings ∧ t.post.readings ≤ net.readings := by
  refine hrun.invariant_hist (fun h net =>
    (h.Pairwise fun t t' => t.post.readings ≤ t'.pre.readings) ∧
      ∀ t ∈ h, t.pre.readings ≤ t.post.readings ∧ t.post.readings ≤ net.readings)
    ⟨.nil, fun t ht => absurd ht List.not_mem_nil⟩ ?_
  rintro h net act net' hr ⟨hpairs, hbound⟩ hexec
  obtain ⟨v, hlaid⟩ := Run.laid hr
  obtain ⟨v', hlaid', heffect⟩ := hlaid.exec hexec
  have hle : net.readings ≤ net'.readings := heffect.readings.1
  refine ⟨List.pairwise_append.mpr ⟨hpairs, List.pairwise_singleton _ _, ?_⟩, fun t ht => ?_⟩
  · intro t ht t' ht'
    rw [List.mem_singleton.mp ht']
    exact (hbound t ht).2
  · rcases List.mem_append.mp ht with ht | ht
    · exact ⟨(hbound t ht).1, (hbound t ht).2.trans hle⟩
    · rw [List.mem_singleton.mp ht]
      exact ⟨hle, Nat.le_refl _⟩

/-- A latency from `L` to `L` is `L`. -/
theorem Rolled.fixed {params : Params} {len : Nat} {now : UInt64} {r : Rolls} {L : UInt32}
    (h : Rolled params len now r) (hreorder : params.reorderProb ≤ 0) (hmin : params.latencyMsMin = L)
    (hmax : params.latencyMsMax = L) : r.latency = L.toInt32 ∧ r.swap = none := by
  obtain ⟨rng, rng', hlatency⟩ := h.latency
  rw [hmin, hmax] at hlatency
  obtain ⟨hlow, -, hhigh⟩ := i32Range_bounds hlatency
  refine ⟨Int32.le_antisymm (hhigh (Int32.le_refl _)) hlow, ?_⟩
  cases hswap : r.swap with
  | none => rfl
  | some rms => exact absurd hreorder (Int32.not_le.mpr (h.swap rms hswap).1)

/-- With one fixed latency the schedules are in the order of the sends. -/
theorem Run.schedules (hrun : Run (Exec env) (create seed params) h net) (hclock : ClockMonotone env net)
    (hwrap : NoWraps h) {k : Calls} (hk : k.Sublist h) {L : UInt32}
    (hfixed : ∀ t ∈ k, t.pre.params.reorderProb ≤ 0 ∧ t.pre.params.latencyMsMin = L ∧
      t.pre.params.latencyMsMax = L) :
    (k.flatMap fun t => (observe env t).posts).Pairwise (due · ≤ due ·) := by
  have hdue : ∀ t ∈ k, ∀ c ∈ (observe env t).posts, due c =
      (env.clock t.pre.readings).toNat + (msToNs L.toInt32).toNat ∧ t.pre.readings < net.readings := by
    rintro ⟨pre, act, post⟩ ht c hc
    have hin := hk.subset ht
    have hpost := ((Run.readings hrun).2 _ hin).2
    obtain ⟨h₁, h₂, hsplit⟩ := List.append_of_mem hin
    rw [hsplit] at hrun
    obtain ⟨-, v, v', hlaid, hlaid', heffect⟩ := Run.entry hrun
    rw [hlaid.observe_eq hlaid' heffect] at hc
    have hlt : pre.readings < post.readings := heffect.readings.2.2 (List.ne_nil_of_mem hc)
    obtain ⟨e, dest, buf, info, rolls, rfl, hcopy⟩ := Sim.mem_posts hc
    obtain ⟨-, -, r, hr, hnode⟩ := mem_copiesOf hcopy
    have hrolled := heffect.rolled.2 r hr
    obtain ⟨hreorder, hmin, hmax⟩ := hfixed _ ht
    obtain ⟨hlatency, hswap⟩ := hrolled.fixed hreorder hmin hmax
    refine ⟨?_, hlt.trans_le hpost⟩
    have hnoSwap : r.swapNs = 0 := by rw [Rolls.swapNs, hswap]
    have hschedule := Rolls.toNat_scheduledNs (hwrap _ hin r hr)
    have hsum : due c = r.scheduledNs.toNat := by rw [due, hnode, Rolls.node]
    have hnow : r.now = env.clock pre.readings := hrolled.now
    rw [hsum, hschedule, hnow, hlatency, hnoSwap, UInt64.toNat_zero, Nat.add_zero]
  rw [List.pairwise_flatMap]
  refine ⟨fun t ht => ?_, ?_⟩
  · refine List.pairwise_of_forall_mem_list fun x hx y hy => ?_
    rw [(hdue t ht x hx).1, (hdue t ht y hy).1]
  · refine ((Run.readings hrun).1.sublist hk).imp_of_mem fun {t t'} ht ht' hle x hx y hy => ?_
    obtain ⟨heq, -⟩ := hdue t ht x hx
    obtain ⟨heq', hlt⟩ := hdue t' ht' y hy
    have hread := ((Run.readings hrun).2 t (hk.subset ht)).1.trans hle
    rw [heq, heq']
    exact Nat.add_le_add_right (UInt64.le_iff_toNat_le.mp (hclock _ _ hread hlt)) _

/-- Copies that are due in the order of `Before` are in the order of the schedules. -/
theorem inOrder (hrun : Run (Exec env) (create seed params) h net) {l : List Copy}
    (hl : l.Pairwise (Mailbox.Before due Prod.fst)) (hsub : l ⊆ enqueued env h) :
    l.Pairwise (InOrder (enqueued env h)) := by
  refine hl.imp_of_mem fun {x y} hx hy hxy => ?_
  rcases hxy with hlt | ⟨heq, hlt⟩
  · exact .inl (UInt64.lt_iff_toNat_lt.mpr hlt)
  · refine .inr ⟨UInt64.toNat_inj.mp heq, ?_⟩
    exact pair_sublist (Run.numbered hrun).1 (hsub hx) (hsub hy) hlt

/-- For every run under a clock that does not go back and without wraps: what an endpoint received since
its bind, its ready FIFO and what is pending for it are in the order of the schedules, and of the sends
where these agree. With one fixed latency since the bind this is the order of the sends, and only a
flush takes something out of it. -/
theorem delivery_order (hrun : Run (Exec env) (create seed params) h net)
    (hclock : ClockMonotone env net) (hwrap : NoWraps h) {a : Addr} {l : List Copy}
    (hl : readyList net a = some l) :
    (receivedSinceBind env a h ++ l ++ pendingFor net a).Pairwise (InOrder (enqueued env h)) ∧
    ∀ L, (∀ t ∈ callsSinceBind env a h, t.pre.params.reorderProb ≤ 0 ∧
        t.pre.params.latencyMsMin = L ∧ t.pre.params.latencyMsMax = L) →
      (receivedSinceBind env a h ++ l ++ pendingFor net a).Sublist (sentSinceBind env a h) ∧
      ((∀ t ∈ callsSinceBind env a h, t.label.1 ≠ .flush) →
        receivedSinceBind env a h ++ l ++ pendingFor net a = sentSinceBind env a h) := by
  obtain ⟨v, m, hlaid, hm, hlabels⟩ := Run.mail hrun
  have htimely := Run.timely hrun hclock hwrap
  have hpending : pendingList net = v.mail.waiting := hlaid.pendingList_eq
  rw [hlaid.readyList_eq] at hl
  have hlane : Mailbox.lane dest a (events env h) l v.mail =
      receivedSinceBind env a h ++ l ++ pendingFor net a := by
    rw [Mailbox.lane, ← hpending]
    rfl
  rw [← hlabels] at htimely
  have hordered := Mailbox.Run.ordered hm htimely
  have hinOrder := hordered.lanes a l hl
  have horigin := hordered.origin a l hl
  rw [hlabels, hlane] at hinOrder horigin
  refine ⟨inOrder hrun hinOrder fun c hc => ?_, fun L hfixed => ?_⟩
  · exact (Mailbox.sent_since_sublist _).subset (horigin hc)
  · have hk : (callsSinceBind env a h).Sublist h := (List.rtakeWhile_suffix _ h).sublist
    have hsent : sentSinceBind env a h =
        Mailbox.sent dest a ((callsSinceBind env a h).map (observe env)) :=
      congrArg (Mailbox.sent dest a) (since_opens env a h)
    have hmono : (sentSinceBind env a h).Pairwise (due · ≤ due ·) := by
      rw [hsent, Mailbox.sent, List.flatMap_map]
      exact (Run.schedules hrun hclock hwrap hk hfixed).sublist List.filter_sublist
    have hfifo := Mailbox.Run.fifo hm htimely hl (by rw [hlabels]; exact hmono)
    rw [hlabels, hlane, since_opens, ← hsent] at hfifo
    refine ⟨hfifo.1, fun hkept => hfifo.2 fun e he => ?_⟩
    obtain ⟨t, ht, rfl⟩ := List.mem_map.mp he
    exact fun hcleared => hkept t ht (observe_cleared hcleared)

/-- Two datagrams are sent and one of them is received. -/
theorem delivery_order_fixed :
    ∃ h net l, Run (Exec (still 0)) (create 0 calm) h net ∧ readyList net ⟨1, 2⟩ = some l ∧
      l.length = 1 ∧ (receivedSinceBind (still 0) ⟨1, 2⟩ h).length = 1 ∧
      receivedSinceBind (still 0) ⟨1, 2⟩ h ++ l ++ pendingFor net ⟨1, 2⟩ =
        sentSinceBind (still 0) ⟨1, 2⟩ h := by
  let ep : Handle := ⟨.ok, true, ⟨1, 2⟩⟩
  let calls : List Call := [.bind ⟨1, 2⟩, .send (some ep) ⟨1, 2⟩ [7], .send (some ep) ⟨1, 2⟩ [8, 9],
    .step, .recv (some ep) true true 1 true]
  obtain ⟨h, net, hrun, hready, hreceived, hwrap, hfixed⟩ := @script_reaches (still 0) (create 0 calm)
    (fun h net => (readyList net ⟨1, 2⟩).map List.length = some 1 ∧
      (receivedSinceBind (still 0) ⟨1, 2⟩ h).length = 1 ∧ NoWraps h ∧
      ∀ t ∈ callsSinceBind (still 0) ⟨1, 2⟩ h, t.pre.params.reorderProb ≤ 0 ∧
        t.pre.params.latencyMsMin = 0 ∧ t.pre.params.latencyMsMax = 0 ∧
        (match t.label.1 with | .flush => false | _ => true) = true) _ calls (by decide +kernel)
  obtain ⟨l, hl, hlen⟩ := Option.map_eq_some_iff.mp hready
  have hclock : ClockMonotone (still 0) net := fun _ _ _ _ => UInt64.le_refl _
  refine ⟨h, net, l, hrun, hl, hlen, hreceived, ?_⟩
  refine ((delivery_order hrun hclock hwrap hl).2 0 fun t ht => ?_).2 fun t ht hflush => ?_
  · exact ⟨(hfixed t ht).1, (hfixed t ht).2.1, (hfixed t ht).2.2.1⟩
  · have hno := (hfixed t ht).2.2.2
    rw [hflush] at hno
    cases hno

end Runs

end CBase.NetSim
