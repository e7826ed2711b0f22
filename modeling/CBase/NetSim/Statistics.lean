import CBase.NetSim.Accounts

/-!
# The statistics

What was enqueued and duplicated is delivered, dropped, rejected by the queue cap, stored, flushed, or was
ready at an endpoint when that was closed. The last are counted nowhere: `cb_netsim_close` counts what it
takes off the pending list as dropped, but not what it takes off the ready FIFO.
-/

namespace CBase.NetSim

open LinkedHeap

def flushDiscards (net : Net) : Call → Nat
  | .flush => (stored net).length
  | _ => 0

/-- The datagrams that a close takes off a ready FIFO. -/
def closeDiscards (net : Net) : Call → Nat
  | .close (some ep) => if ep.attached then ((readyList net ep.addr).getD []).length else 0
  | _ => 0

def flushed (h : Calls) : Nat := (h.map fun t => flushDiscards t.pre t.label.1).sum

def closedReady (h : Calls) : Nat := (h.map fun t => closeDiscards t.pre t.label.1).sum

/-- The statistics account for every datagram, modulo 2³². -/
def Balanced (net : Net) (discarded : Nat) : Prop :=
  net.stats.enqueued.toNat + net.stats.duplicated.toNat ≡
    net.stats.delivered.toNat + net.stats.dropped.toNat + net.stats.queueFull.toNat +
      (stored net).length + discarded [MOD 2 ^ 32]

instance (net : Net) (discarded : Nat) : Decidable (Balanced net discarded) :=
  inferInstanceAs (Decidable (_ ≡ _ [MOD _]))

namespace View

variable {v : View} {a addr : Addr} {b : Box} {c : Copy}

theorem length_copies (v : View) :
    v.copies.length = v.pending.length + (v.boxes.map (·.ready.length)).sum := by
  unfold copies
  rw [List.length_flatten, List.map_cons, List.sum_cons, List.map_map]
  rfl

theorem length_bind (p : Ptr) : (v.bind p addr).copies.length = v.copies.length := by
  rw [length_copies, length_copies]
  simp [bind]

theorem length_close (hnd : (v.boxes.map Box.addr).Nodup) :
    v.copies.length = (v.close addr).copies.length + (Mailbox.bound dest addr v.pending).length +
      (((v.box addr).map Box.ready).getD []).length := by
  have hpending : v.pending.length = (Mailbox.bound dest addr v.pending).length +
      (v.pending.filter (dest · ≠ addr)).length := Mailbox.length_bound_closed addr v.pending
  have hclose : (v.close addr).pending = v.pending.filter (dest · ≠ addr) := rfl
  rw [length_copies, length_copies, hclose]
  cases hb : v.box addr with
  | none =>
    have hboxes : (v.close addr).boxes = v.boxes := by
      refine List.filter_eq_self.mpr fun b hmem => ?_
      simpa using box_eq_none.mp hb b hmem
    rw [hboxes]
    simp only [Option.map_none, Option.getD_none, List.length_nil]
    omega
  | some b =>
    obtain ⟨k, m, hsplit, haddr, hk, hm⟩ := box_split hnd hb
    rw [close_split hsplit haddr hk hm, hsplit]
    simp only [List.map_append, List.map_cons, List.sum_append, List.sum_cons, Option.map_some,
      Option.getD_some]
    omega

theorem length_deliver (hnd : (v.boxes.map Box.addr).Nodup) (hopen : v.Open) (now : UInt64) :
    (v.deliver now).copies.length = v.copies.length := by
  have hsplit := congrArg List.length
    (List.takeWhile_append_dropWhile (p := (due · ≤ now.toNat)) (l := v.pending))
  have hdest : ∀ c ∈ v.pending.takeWhile (due · ≤ now.toNat), dest c ∈ v.boxes.map Box.addr := by
    intro c hc
    obtain ⟨b, hb, haddr⟩ := hopen c ((List.takeWhile_sublist _).subset hc)
    rw [← haddr]
    exact List.mem_map_of_mem hb
  have harrive := Mailbox.sum_length_bound hnd hdest
  rw [List.length_append] at hsplit
  rw [List.map_map] at harrive
  rw [length_copies, length_copies, ← hsplit, ← harrive]
  simp only [deliver, List.map_map, Function.comp_def, arrive, List.length_append, List.sum_map_add]
  omega

theorem length_take (hnd : (v.boxes.map Box.addr).Nodup) (clamp : UInt64) {rest : List Copy}
    (hb : v.box addr = some b) (hready : b.ready = c :: rest) :
    v.copies.length = (v.take clamp addr).copies.length + 1 := by
  obtain ⟨k, m, hsplit, haddr, hk, hm⟩ := box_split hnd hb
  have htake : (v.take clamp addr).boxes = k ++ pop clamp b :: m := by
    rw [← update_split haddr hk hm, ← hsplit]
    rfl
  have hpop : (pop clamp b).ready = rest := by
    unfold pop
    rw [hready]
  have hpending : (v.take clamp addr).pending = v.pending := rfl
  rw [length_copies, length_copies, htake, hsplit, hpending]
  simp only [List.map_append, List.map_cons, List.sum_append, List.sum_cons, hpop, hready,
    List.length_cons]
  omega

theorem length_clear : v.clear.copies.length = 0 := by
  rw [length_copies]
  simp [clear, Function.comp_def]

end View

/-! ## Calls -/

/-- The counters of the balance, besides the duplicates, are the same. -/
structure Stats.Same (s s' : Stats) : Prop where
  enqueued : s'.enqueued = s.enqueued
  delivered : s'.delivered = s.delivered
  dropped : s'.dropped = s.dropped
  queueFull : s'.queueFull = s.queueFull

theorem Rolls.tally_same (r : Rolls) (s : Stats) :
    s.Same (r.tally s) ∧ (r.tally s).duplicated = s.duplicated := by
  unfold tally tallySwap tallyFlip
  cases r.flip <;> cases r.swap <;> exact ⟨⟨rfl, rfl, rfl, rfl⟩, rfl⟩

def Sim.Balanced (s : Sim) (discarded : Nat) : Prop :=
  s.stats.enqueued.toNat + s.stats.duplicated.toNat ≡
    s.stats.delivered.toNat + s.stats.dropped.toNat + s.stats.queueFull.toNat + s.copies.length +
      discarded [MOD 2 ^ 32]

/-- The datagrams that a call discards without a count. -/
def Sim.discards (s : Sim) : Call → Nat
  | .flush => s.copies.length
  | .close (some ep) => if ep.attached then (((s.box ep.addr).map Box.ready).getD []).length else 0
  | _ => 0

section Effects

variable {env : Env} {s s' : Sim}

/-- With memory for every request a send makes one copy or counts a duplicate. -/
theorem Sent.counts {src dest : Addr} {buf : List UInt8} {now : UInt64} {out : Info × List Rolls}
    (h : Sent env src dest buf now s out s') (hmem : ∀ n < s'.requests, env.memory n = true) :
    s.stats.Same s'.stats ∧ (out.2.length = 1 ∧ s'.stats.duplicated = s.stats.duplicated ∨
      out.2.length = 2 ∧ s'.stats.duplicated = s.stats.duplicated + 1) := by
  have hok := h.ok hmem
  cases h with
  | failed => cases hok
  | half => cases hok
  | @single s₁ r rng hfirst hdup =>
    cases hfirst with
    | copy =>
      obtain ⟨hsame, hduplicated⟩ := r.tally_same s.stats
      exact ⟨⟨hsame.enqueued, hsame.delivered, hsame.dropped, hsame.queueFull⟩, .inl ⟨rfl, hduplicated⟩⟩
  | @double s₁ s₂ r r' rng hfirst hdup hsecond =>
    cases hfirst with
    | copy =>
      cases hsecond with
      | copy =>
        obtain ⟨hsame, hduplicated⟩ := r.tally_same s.stats
        obtain ⟨hsame', hduplicated'⟩ := r'.tally_same (r.tally s.stats)
        refine ⟨⟨hsame'.enqueued.trans hsame.enqueued, hsame'.delivered.trans hsame.delivered,
          hsame'.dropped.trans hsame.dropped, hsame'.queueFull.trans hsame.queueFull⟩, .inr ⟨rfl, ?_⟩⟩
        exact congrArg (· + 1) (hduplicated'.trans hduplicated)

theorem toNat_succ (n : UInt32) : (n + 1).toNat = (n.toNat + 1) % 2 ^ 32 := UInt32.toNat_add n 1

/-- What a call discards without a count is missing from the balance. -/
theorem Effect.balanced {act : Call × Reply} (h : Effect env s act s')
    (hnd : (s.boxes.map Box.addr).Nodup) (hopen : s.Open)
    (hmem : ∀ n < s'.requests, env.memory n = true) {discarded : Nat} (hbal : s.Balanced discarded) :
    s'.Balanced (discarded + s.discards act.1) := by
  unfold Sim.Balanced Nat.ModEq at hbal ⊢
  cases h with
  | @idle call reply hquiet =>
    have hnone : s.discards call = 0 := by
      cases hquiet with
      | @kept ep hkept =>
        cases ep with
        | none => rfl
        | some e => simp [Sim.discards, hkept e rfl]
      | _ => rfl
    simp only [hnone]
    exact hbal
  | unbindable => exact hbal
  | bound hb =>
    simp only [Sim.discards, View.length_bind]
    exact hbal
  | @closed ep hat =>
    have hclose := @View.length_close s.toView ep.addr hnd
    simp only [Sim.discards, hat, if_true, Stats.discard, UInt32.toNat_add, UInt32.toNat_ofNat']
    omega
  | unbound hadmitted hb =>
    simp only [Sim.discards, toNat_succ]
    omega
  | full hadmitted hb hfull =>
    simp only [Sim.discards, toNat_succ]
    omega
  | dropped hadmitted hb hroom hdrop =>
    simp only [Sim.discards, toNat_succ]
    omega
  | @sent ep e dest buf b rng out s' hadmitted hb hroom hdrop hsent =>
    obtain ⟨hsame, hcopies⟩ := hsent.counts hmem
    have hlength : s'.copies.length = out.2.length + s.copies.length := by
      rw [hsent.frame.view, (View.copies_posts s.toView _).length_eq, List.length_append]
      simp [copiesOf]
    rw [hsame.enqueued, hsame.delivered, hsame.dropped, hsame.queueFull, hlength]
    rcases hcopies with ⟨hone, hduplicated⟩ | ⟨htwo, hduplicated⟩
    · rw [hone, hduplicated]
      simp only [Sim.discards, toNat_succ]
      omega
    · rw [htwo, hduplicated]
      simp only [Sim.discards, toNat_succ]
      omega
  | stepped =>
    simp only [Sim.discards, View.length_deliver hnd hopen]
    exact hbal
  | received hat hb hready =>
    have htake := View.length_take hnd 0 hb hready
    simp only [Sim.discards, toNat_succ]
    omega
  | configured => exact hbal
  | flushed =>
    simp only [Sim.discards, View.length_clear]
    omega

end Effects

/-! ## Runs -/

section Runs

variable {env : Env} {seed : UInt64} {params : Params} {net : Net} {h : Calls}

theorem Laid.discards_eq {v : View} (hlaid : Laid net v) (call : Call) :
    flushDiscards net call + closeDiscards net call = (net.sim v).discards call := by
  cases call with
  | close ep =>
    cases ep with
    | none => rfl
    | some e =>
      simp only [flushDiscards, closeDiscards, Sim.discards, hlaid.readyList_eq, Nat.zero_add]
      rfl
  | flush =>
    simp only [flushDiscards, closeDiscards, Sim.discards, hlaid.stored_eq, Nat.add_zero]
    rfl
  | _ => rfl

theorem Run.balanced (hrun : Run (Exec env) (create seed params) h net)
    (hmem : ∀ n < net.requests, env.memory n = true) :
    ∃ v, Laid net v ∧ (net.sim v).Balanced (flushed h + closedReady h) := by
  refine hrun.invariant_hist (fun h net => (∀ n < net.requests, env.memory n = true) →
    ∃ v, Laid net v ∧ (net.sim v).Balanced (flushed h + closedReady h))
    (fun _ => ⟨.empty, .create seed params, rfl⟩) ?_ hmem
  rintro h net act net' hr ih hexec hmem
  have hle : net.requests ≤ net'.requests := by
    obtain ⟨v, hlaid⟩ := Run.laid hr
    obtain ⟨v', -, heffect⟩ := hlaid.exec hexec
    exact heffect.requests
  obtain ⟨v, hlaid, hbal⟩ := ih fun n hn => hmem n (hn.trans_le hle)
  obtain ⟨v', hlaid', heffect⟩ := hlaid.exec hexec
  refine ⟨v', hlaid', ?_⟩
  have hnext := heffect.balanced hlaid.repr.addrs hlaid.open' hmem hbal
  have hsum : flushed (h ++ [⟨net, act, net'⟩]) + closedReady (h ++ [⟨net, act, net'⟩]) =
      flushed h + closedReady h + (net.sim v).discards act.1 := by
    rw [← hlaid.discards_eq, flushed, closedReady]
    simp only [List.map_append, List.sum_append, List.map_cons, List.map_nil, List.sum_cons, List.sum_nil]
    rw [flushed, closedReady]
    omega
  rw [hsum]
  exact hnext

/-- For every run without a failed allocation: the statistics account for every datagram if and only if
the number of datagrams that were ready at closed endpoints is a multiple of 2³². -/
theorem statistics_iff (hrun : Run (Exec env) (create seed params) h net)
    (hmem : ∀ n < net.requests, env.memory n = true) :
    Balanced net (flushed h) ↔ closedReady h ≡ 0 [MOD 2 ^ 32] := by
  obtain ⟨v, hlaid, hbal⟩ := Run.balanced hrun hmem
  unfold Balanced
  unfold Sim.Balanced at hbal
  rw [hlaid.stored_eq]
  unfold Nat.ModEq at *
  have hstats : (net.sim v).stats = net.stats := rfl
  have hcopies : (net.sim v).copies = v.copies := rfl
  rw [hstats, hcopies] at hbal
  omega

/-- A flush discards a pending datagram and a ready one, and the close after it nothing. -/
theorem statistics_flushed :
    ∃ h net, Run (Exec (still 0)) (create 0 calm) h net ∧ flushed h = 2 ∧ Balanced net (flushed h) := by
  let ep : Handle := ⟨.ok, true, ⟨1, 2⟩⟩
  let calls : List Call := [.bind ⟨1, 2⟩, .send (some ep) ⟨1, 2⟩ [7], .step,
    .send (some ep) ⟨1, 2⟩ [8, 9], .flush, .close (some ep)]
  obtain ⟨h, net, hrun, hflushed, hclosed⟩ := @script_reaches (still 0) (create 0 calm)
    (fun h _ => flushed h = 2 ∧ closedReady h = 0) _ calls (by decide +kernel)
  refine ⟨h, net, hrun, hflushed, (statistics_iff hrun fun _ _ => rfl).mpr ?_⟩
  have hzero : closedReady h = 0 := hclosed
  rw [hzero]

/-- A datagram that is ready when its endpoint is closed is counted nowhere. -/
theorem statistics_closed :
    ∃ h net, Run (Exec (still 0)) (create 0 calm) h net ∧ ¬ Balanced net (flushed h) := by
  let ep : Handle := ⟨.ok, true, ⟨1, 2⟩⟩
  let calls : List Call := [.bind ⟨1, 2⟩, .send (some ep) ⟨1, 2⟩ [7], .step, .close (some ep)]
  exact @script_reaches (still 0) (create 0 calm) (fun h net => ¬ Balanced net (flushed h)) _ calls
    (by decide +kernel)

end Runs

end CBase.NetSim
