import CBase.Lib.Projection
import CBase.NetSim.Statistics

/-!
# Replays

Without a queue cap and with memory for every request, what is drawn does not depend on what is received.
`Core` is the part of the simulator that the draws see. `Core.replay` is the machine of the calls that
see it, and the other calls leave it alone (`Effect.replays`), so that two runs with the same calls of the
first kind draw the same (`replay_agrees`).
-/

namespace CBase.NetSim

deriving instance DecidableEq for Params, Handle, Call

/-- What the draws of a send depend on, and whether it gets as far. -/
structure Core where
  rng : Rng
  params : Params
  bound : Addr → Bool

def Net.core (net : Net) : Core := ⟨net.rng, net.params, fun a => (readyList net a).isSome⟩

namespace Core

/-- The calls that draw or that change what is drawn: a send only if it is attached, not too large, and to a
bound address. -/
def shares (c : Core) : Call → Bool
  | .bind _ => true
  | .close _ => true
  | .setParams _ => true
  | .send (some ep) dest buf => ep.attached && decide (buf.length ≤ maxDatagramBytes) && c.bound dest
  | _ => false

def replay (c : Core) (now : UInt64) : Call → Option (Core × Reply)
  | .bind addr =>
    if c.bound addr then some (c, .handle ⟨.netsimDuplicateAddr, false, addr⟩)
    else some ({ c with bound := Function.update c.bound addr true }, .handle ⟨.ok, true, addr⟩)
  | .close (some ep) =>
    if ep.attached then some ({ c with bound := Function.update c.bound ep.addr false },
      .closed (some { ep with attached := false }))
    else some (c, .closed (some ep))
  | .close none => some (c, .closed none)
  | .setParams params =>
    if paramsOk params then some ({ c with params }, .info .ok) else some (c, .info .netsimBadParams)
  | .send _ _ buf => do
    let (rolls, rng) ← drawSend c.rng c.params buf.length now
    return ({ c with rng }, .sent .ok rolls)
  | _ => none

/-- A call leaves the core alone, or it is shared and a step of the core. `reads` says that the call reads
the clock, and `clock` what that shows. -/
structure Replays (reads : Prop) (clock : UInt64) (c : Core) (act : Call × Reply) (c' : Core) : Prop where
  kept : c.shares act.1 = false → c' = c
  shared : c.shares act.1 = true → ∀ now, (reads → now = clock) →
    c.replay now act.1 = some (c', act.2)

theorem Replays.of_kept {reads : Prop} {clock : UInt64} {c c' : Core} {act : Call × Reply}
    (hno : c.shares act.1 = false) (hcore : c' = c) : c.Replays reads clock act c' :=
  ⟨fun _ => hcore, fun hyes => absurd hyes (by rw [hno]; exact Bool.false_ne_true)⟩

theorem Replays.of_shared {reads : Prop} {clock : UInt64} {c c' : Core} {act : Call × Reply}
    (hyes : c.shares act.1 = true)
    (hreplay : ∀ now, (reads → now = clock) → c.replay now act.1 = some (c', act.2)) :
    c.Replays reads clock act c' :=
  ⟨fun hno => absurd hyes (by rw [hno]; exact Bool.false_ne_true), fun _ => hreplay⟩

end Core

def Sim.core (s : Sim) : Core := ⟨s.rng, s.params, fun a => (s.mail.boxes a).isSome⟩

theorem Laid.core_eq {net : Net} {v : View} (h : Laid net v) : net.core = (net.sim v).core :=
  congrArg (Core.mk _ _) (funext fun a => by rw [h.readyList_eq]; rfl)

section Effects

variable {env : Env} {s s' : Sim}

theorem shares_of_admitted {c : Core} {ep : Option Handle} {e : Handle} {dest : Addr} {buf : List UInt8}
    (h : Admitted ep buf e) : c.shares (.send ep dest buf) = c.bound dest := by
  obtain ⟨rfl, hat, hlen⟩ := h
  simp [Core.shares, hat, hlen]

theorem Sim.core_bound (s : Sim) (addr : Addr) : s.core.bound addr = (s.box addr).isSome := by
  simp [Sim.core, View.mail]

/-- A call that does nothing is also nothing to the core. -/
theorem Quiet.replays {call : Call} {reply : Reply} (h : Quiet s call reply) {reads : Prop}
    {clock : UInt64} : s.core.Replays reads clock (call, reply) s.core := by
  cases h with
  | duplicate hdup =>
    exact .of_shared rfl fun now _ => by simp [Core.replay, Sim.core_bound, hdup]
  | @kept ep hkept =>
    cases ep with
    | none => exact .of_shared rfl fun now _ => rfl
    | some e => exact .of_shared rfl fun now _ => by simp [Core.replay, hkept e rfl]
  | @refused ep dest buf info hinfo hno =>
    refine .of_kept ?_ rfl
    cases ep with
    | none => rfl
    | some e =>
      have hnot : ¬ (e.attached = true ∧ buf.length ≤ maxDatagramBytes) := fun h =>
        hno e ⟨rfl, h.1, h.2⟩
      refine Bool.eq_false_iff.mpr fun hyes => hnot ?_
      simp only [Core.shares, Bool.and_eq_true, decide_eq_true_eq] at hyes
      exact hyes.1
  | unreceived => exact .of_kept rfl rfl
  | rejected hbad => exact .of_shared rfl fun now _ => by simp [Core.replay, hbad]

/-- A call that the core does not share leaves it alone, and a call that it shares is a step of it. -/
theorem Effect.replays {act : Call × Reply} (h : Effect env s act s')
    (hcap : s.params.maxQueueBytes = 0) (hmem : ∀ n < s'.requests, env.memory n = true) :
    s.core.Replays (s.readings < s'.readings) (env.clock s.readings) act s'.core := by
  have hbound := s.core_bound
  have hview {v : View} (hboxes : Option.isSome ∘ v.mail.boxes = Option.isSome ∘ s.mail.boxes) :
      Core.mk s.rng s.params (fun a => (v.mail.boxes a).isSome) = s.core := congrArg (Core.mk _ _) hboxes
  cases h with
  | idle hquiet => exact hquiet.replays
  | unbindable hb hno =>
    have hgot := hmem _ (Nat.lt_succ_self _)
    rw [hno] at hgot
    cases hgot
  | @bound addr p hb =>
    refine .of_shared rfl fun now _ => ?_
    have hopened : Option.isSome ∘ (s.bind p addr).mail.boxes = Function.update s.core.bound addr true := by
      rw [View.mail_bind]
      exact Function.comp_update ..
    have hcore : Core.mk s.rng s.params (fun a => ((s.bind p addr).mail.boxes a).isSome) =
        { s.core with bound := Function.update s.core.bound addr true } := congrArg (Core.mk _ _) hopened
    simp only [Core.replay, hbound, hb, ← hcore]
    rfl
  | @closed ep hat =>
    refine .of_shared rfl fun now _ => ?_
    have hclosed : Option.isSome ∘ (s.close ep.addr).mail.boxes =
        Function.update s.core.bound ep.addr false := by
      rw [View.mail_close]
      exact Function.comp_update ..
    have hcore : Core.mk s.rng s.params (fun a => ((s.close ep.addr).mail.boxes a).isSome) =
        { s.core with bound := Function.update s.core.bound ep.addr false } :=
      congrArg (Core.mk _ _) hclosed
    simp only [Core.replay, hat, ← hcore]
    rfl
  | unbound hadmitted hb =>
    refine .of_kept ?_ rfl
    rw [shares_of_admitted hadmitted, hbound, hb]
    rfl
  | full hadmitted hb hfull =>
    simp [overCap, hcap] at hfull
  | dropped hadmitted hb hroom hdrop =>
    refine .of_shared ?_ fun now _ => ?_
    · rw [shares_of_admitted hadmitted, hbound, hb]
      rfl
    · simp only [Core.replay, drawSend, Sim.core, hdrop]
      rfl
  | @sent ep e dest buf b rng out s' hadmitted hb hroom hdrop hsent =>
    have hframe := hsent.frame
    refine .of_shared ?_ fun now hnow => ?_
    · rw [shares_of_admitted hadmitted, hbound, hb]
      rfl
    · have hok := hsent.ok hmem
      obtain ⟨rolls, rng', hdraw, -, hall⟩ := hsent.draws hdrop
      obtain ⟨rfl, hrng⟩ := hall (by simp [hok])
      have hclock : now = env.clock s.readings := hnow (by rw [hframe.readings]; exact Nat.lt_succ_self _)
      have hboxes : s'.mail.boxes = s.mail.boxes := by rw [hframe.view, View.mail_posts]
      have hcore : s'.core = { s.core with rng := rng' } := by
        unfold Sim.core
        rw [hrng, hframe.params, hboxes]
      have hdraw' : drawSend s.core.rng s.core.params buf.length now = some (out.2, rng') := by
        rw [hclock]
        exact hdraw
      simp only [Core.replay, hdraw', hcore, hok]
      rfl
  | stepped =>
    refine .of_kept rfl (hview ?_)
    rw [View.mail_deliver]
    exact funext fun a => Option.isSome_map ..
  | @received ep _ _ _ b c rest hat hb hready =>
    refine .of_kept rfl (hview ?_)
    obtain ⟨hbox, hmail⟩ := View.mail_take 0 hb hready
    rw [hmail]
    refine (Function.comp_update ..).trans ?_
    refine Function.update_eq_self_iff.mpr ?_
    rw [Function.comp_apply, hbox]
    rfl
  | configured hok => exact .of_shared rfl fun now _ => by simp [Core.replay, hok]; rfl
  | flushed =>
    refine .of_kept rfl (hview ?_)
    rw [View.mail_clear]
    exact funext fun a => Option.isSome_map ..

theorem Effect.sent_reply {ep : Option Handle} {dest : Addr} {buf : List UInt8} {reply : Reply}
    (h : Effect env s (.send ep dest buf, reply) s') : ∃ info rolls, reply = .sent info rolls := by
  cases h with
  | idle hquiet =>
    cases hquiet
    exact ⟨_, _, rfl⟩
  | _ => exact ⟨_, _, rfl⟩

end Effects

/-! ## Two runs -/

/-- The calls of a run that the core shares. -/
def sharedCalls (h : Calls) : Calls := h.filter fun t => t.pre.core.shares t.label.1

/-- `max_queue_bytes` is 0 throughout the run. -/
def Uncapped (h : Calls) : Prop := ∀ t ∈ h, t.pre.params.maxQueueBytes = 0

instance (h : Calls) : Decidable (Uncapped h) := List.decidableBAll _ h

/-- The same call, at the same clock reading if both read the clock. -/
def SameCall (env env' : Env) (t t' : Taken Net (Call × Reply)) : Prop :=
  t.label.1 = t'.label.1 ∧ (t.pre.readings < t.post.readings → t'.pre.readings < t'.post.readings →
    env.clock t.pre.readings = env'.clock t'.pre.readings)

/-- The same reply, and for a send the same datagrams. -/
def SameReply (t t' : Taken Net (Call × Reply)) : Prop :=
  t.label.2 = t'.label.2 ∧ ∀ ep dest buf, t.label.1 = .send ep dest buf →
    (created t.pre t.post).map Prod.snd = (created t'.pre t'.post).map Prod.snd

theorem map_snd_sentCopies (brk : Nat) (ep : Option Handle) (dest : Addr) (buf : List UInt8)
    (rolls : List Rolls) : (sentCopies brk ep dest buf rolls).map Prod.snd =
      (sentCopies 0 ep dest buf rolls).map Prod.snd := by
  cases ep with
  | none => rfl
  | some e =>
    refine List.ext_getElem ?_ fun i _ _ => ?_
    · simp [sentCopies, copiesOf]
    · simp [sentCopies, copiesOf]

section Runs

variable {env env' : Env} {seed : UInt64} {params : Params} {net net' : Net} {h h' : Calls}

theorem Run.requests_le {start : Net} {v : View} (hrun : Run (Exec env) start h net)
    (hlaid : Laid start v) : start.requests ≤ net.requests := by
  have hinv : (∃ v, Laid net v) ∧ start.requests ≤ net.requests := by
    refine hrun.invariant (fun net => (∃ v, Laid net v) ∧ start.requests ≤ net.requests)
      ⟨⟨v, hlaid⟩, Nat.le_refl _⟩ ?_
    rintro net act net' ⟨⟨v, hlaid⟩, hle⟩ hexec
    obtain ⟨v', hlaid', heffect⟩ := hlaid.exec hexec
    exact ⟨⟨v', hlaid'⟩, hle.trans heffect.requests⟩
  exact hinv.2

/-- Every call of a run leaves the core alone or is a step of it. -/
theorem Run.replays (hrun : Run (Exec env) (create seed params) h net) (hcap : Uncapped h)
    (hmem : ∀ n < net.requests, env.memory n = true) : ∀ t ∈ h, t.pre.core.Replays
      (t.pre.readings < t.post.readings) (env.clock t.pre.readings) t.label t.post.core := by
  intro t ht
  obtain ⟨h₁, h₂, rfl⟩ := List.append_of_mem ht
  obtain ⟨-, v, v', hlaid, hlaid', heffect⟩ := Run.entry hrun
  have hle := Run.requests_le hrun.at_entry.2.2 hlaid'
  rw [hlaid.core_eq, hlaid'.core_eq]
  exact heffect.replays (hcap t ht) fun n hn => hmem n (Nat.lt_of_lt_of_le hn hle)

/-- The datagrams of a send follow from the call and its reply. -/
theorem Run.created (hrun : Run (Exec env) (create seed params) h net)
    {t : Taken Net (Call × Reply)} (ht : t ∈ h) {ep : Option Handle} {dest : Addr} {buf : List UInt8}
    (hcall : t.label.1 = .send ep dest buf) : ∃ info rolls, t.label.2 = .sent info rolls ∧
      (created t.pre t.post).map Prod.snd = (sentCopies 0 ep dest buf rolls).map Prod.snd := by
  obtain ⟨h₁, h₂, rfl⟩ := List.append_of_mem ht
  obtain ⟨-, v, v', hlaid, hlaid', heffect⟩ := Run.entry hrun
  obtain ⟨pre, ⟨call, reply⟩, post⟩ := t
  obtain rfl : call = _ := hcall
  obtain ⟨info, rolls, rfl⟩ := heffect.sent_reply
  refine ⟨info, rolls, rfl, ?_⟩
  rw [hlaid.created_send hlaid' heffect]
  exact map_snd_sentCopies ..

/-- For any two runs on nets with the same seed and parameters, without a queue cap and without failed
allocations: if they make the same calls of those that the core shares, in the same order and with the
same clock reading wherever both read the clock, then their generators are in the same state before and
after each of these calls and at the end, and each of these calls has the same reply and creates the
same datagrams. -/
theorem replay_agrees (hrun : Run (Exec env) (create seed params) h net)
    (hrun' : Run (Exec env') (create seed params) h' net') (hcap : Uncapped h) (hcap' : Uncapped h')
    (hmem : ∀ n < net.requests, env.memory n = true) (hmem' : ∀ n < net'.requests, env'.memory n = true)
    (hsame : List.Forall₂ (SameCall env env') (sharedCalls h) (sharedCalls h')) :
    net.rng = net'.rng ∧ List.Forall₂ (fun t t' => t.pre.rng = t'.pre.rng ∧ t.post.rng = t'.post.rng ∧
      SameReply t t') (sharedCalls h) (sharedCalls h') := by
  have hreplay := Run.replays hrun hcap hmem
  have hreplay' := Run.replays hrun' hcap' hmem'
  have hlinked : Linked Net.core (create seed params).core (sharedCalls h) net.core :=
    Run.linked hrun fun t ht => (hreplay t ht).kept
  have hlinked' : Linked Net.core (create seed params).core (sharedCalls h') net'.core :=
    Run.linked hrun' fun t ht => (hreplay' t ht).kept
  obtain ⟨hend, hall⟩ := hlinked.agree (Q := SameReply) hlinked' hsame fun t ht t' ht' hcall hpre => by
    obtain ⟨ht, hshares⟩ := List.mem_filter.mp ht
    obtain ⟨ht', hshares'⟩ := List.mem_filter.mp ht'
    obtain ⟨hlabel, hclock⟩ := hcall
    obtain ⟨now, hnow, hnow'⟩ : ∃ now,
        (t.pre.readings < t.post.readings → now = env.clock t.pre.readings) ∧
        (t'.pre.readings < t'.post.readings → now = env'.clock t'.pre.readings) := by
      by_cases hreads : t.pre.readings < t.post.readings
      · exact ⟨_, fun _ => rfl, hclock hreads⟩
      · exact ⟨_, fun hr => absurd hr hreads, fun _ => rfl⟩
    have hstep := (hreplay t ht).shared hshares now hnow
    have hstep' := (hreplay' t' ht').shared hshares' now hnow'
    rw [hpre, hlabel, hstep'] at hstep
    obtain ⟨hpost, hreply⟩ := Prod.mk.inj (Option.some.inj hstep)
    refine ⟨hpost.symm, hreply.symm, fun ep dest buf hsend => ?_⟩
    obtain ⟨info, rolls, hsent, hcreated⟩ := Run.created hrun ht hsend
    obtain ⟨info', rolls', hsent', hcreated'⟩ := Run.created hrun' ht' (hlabel ▸ hsend)
    rw [← hreply, hsent'] at hsent
    cases hsent
    exact hcreated.trans hcreated'.symm
  refine ⟨congrArg Core.rng hend, hall.imp fun t t' h => ?_⟩
  exact ⟨congrArg Core.rng h.1, congrArg Core.rng h.2.1, h.2.2⟩

/-- The second run steps and receives between its sends, and sends to an unbound address. -/
theorem replay_agrees_stepped :
    ∃ h net h' net', Run (Exec (still 0)) (create 7 { calm with corruptProb := 32768 }) h net ∧
      Run (Exec (still 0)) (create 7 { calm with corruptProb := 32768 }) h' net' ∧
      (sharedCalls h).length = 3 ∧ h'.length = 6 ∧ net.rng = net'.rng := by
  let ep : Handle := ⟨.ok, true, ⟨1, 2⟩⟩
  let shared : List Call := [.bind ⟨1, 2⟩, .send (some ep) ⟨1, 2⟩ [7], .send (some ep) ⟨1, 2⟩ [8]]
  let calls : List Call := [.bind ⟨1, 2⟩, .send (some ep) ⟨1, 2⟩ [7], .step,
    .recv (some ep) true true 1 true, .send (some ep) ⟨3, 4⟩ [9], .send (some ep) ⟨1, 2⟩ [8]]
  obtain ⟨h, net, hrun, hcap, hshared⟩ := @script_reaches (still 0)
    (create 7 { calm with corruptProb := 32768 }) (fun h _ => Uncapped h ∧
      (sharedCalls h).map (·.label.1) = shared) _ shared (by decide +kernel)
  obtain ⟨h', net', hrun', hcap', hshared', hlength⟩ := @script_reaches (still 0)
    (create 7 { calm with corruptProb := 32768 }) (fun h _ => Uncapped h ∧
      (sharedCalls h).map (·.label.1) = shared ∧ h.length = 6) _ calls (by decide +kernel)
  have hsame : List.Forall₂ (SameCall (still 0) (still 0)) (sharedCalls h) (sharedCalls h') := by
    have heq : List.Forall₂ (· = ·) ((sharedCalls h).map (·.label.1))
        ((sharedCalls h').map (·.label.1)) := by
      rw [hshared, hshared']
      exact List.forall₂_refl _
    have hlabels := List.forall₂_map_left_iff.mp (List.forall₂_map_right_iff.mp heq)
    exact hlabels.imp fun t t' hcall => ⟨hcall, fun _ _ => rfl⟩
  refine ⟨h, net, h', net', hrun, hrun', ?_, hlength, ?_⟩
  · have hlen := congrArg List.length hshared
    rw [List.length_map] at hlen
    exact hlen
  · exact (replay_agrees hrun hrun' hcap hcap' (fun _ _ => rfl) (fun _ _ => rfl) hsame).1

end Runs

end CBase.NetSim
