import CBase.NetSim.Integrity

/-!
# The latency window

The bounds of the latencies are `uint32_t` and are drawn as `int32_t`. A copy is scheduled within its
window if and only if the lower ends of the ranges that were rolled are not negative as `int32_t`.
-/

namespace CBase.NetSim

/-- The schedule of a copy is in its window. `swapped` says that the reorder roll hit. -/
def InWindow (params : Params) (now : UInt64) (swapped : Bool) (scheduledNs : UInt64) : Prop :=
  now.toNat + (params.latencyMsMin.toNat + if swapped then params.reorderSwapMsMin.toNat else 0) *
      1000000 ≤ scheduledNs.toNat ∧
    scheduledNs.toNat ≤ now.toNat + (params.latencyMsMax.toNat +
      if swapped then params.reorderSwapMsMax.toNat else 0) * 1000000

instance (params : Params) (now : UInt64) (swapped : Bool) (scheduledNs : UInt64) :
    Decidable (InWindow params now swapped scheduledNs) := inferInstanceAs (Decidable (_ ∧ _))

/-- The lower ends of the ranges that are rolled fit in `int32_t`. -/
def FitsInt32 (params : Params) (swapped : Bool) : Prop :=
  params.latencyMsMin.toNat < 2 ^ 31 ∧ (swapped = true → params.reorderSwapMsMin.toNat < 2 ^ 31)

theorem paramsOk_le {params : Params} (h : paramsOk params = true) :
    params.latencyMsMin ≤ params.latencyMsMax ∧ params.reorderSwapMsMin ≤ params.reorderSwapMsMax := by
  unfold paramsOk at h
  rw [Bool.and_eq_true, Bool.not_eq_true', Bool.not_eq_true', decide_eq_false_iff_not,
    decide_eq_false_iff_not, UInt32.not_lt, UInt32.not_lt] at h
  exact h

/-- A sum that wraps at most once. -/
theorem emod_cases {x : Int} (hlo : -2 ^ 64 ≤ x) (hhi : x < 2 ^ 64) :
    0 ≤ x ∧ x % 2 ^ 64 = x ∨ x < 0 ∧ x % 2 ^ 64 = x + 2 ^ 64 := by
  omega

theorem Rolled.inWindow_iff {params : Params} {len : Nat} {now : UInt64} {r : Rolls}
    (h : Rolled params len now r) (hok : paramsOk params = true)
    (hnow : now.toNat + (params.latencyMsMax.toNat + params.reorderSwapMsMax.toNat) * 1000000 < 2 ^ 64) :
    InWindow params now r.swap.isSome r.scheduledNs ↔ FitsInt32 params r.swap.isSome := by
  obtain ⟨hlatencyOk, hswapOk⟩ := paramsOk_le hok
  obtain ⟨_, _, hdraw⟩ := h.latency
  obtain ⟨hsmall, hlarge⟩ := i32Range_unsigned hdraw hlatencyOk
  have hsched := r.scheduledNs_emod
  have hmin := params.latencyMsMin.toNat_lt
  have hmax := params.latencyMsMax.toNat_lt
  have hle := UInt32.le_iff_toNat_le.mp hlatencyOk
  rw [h.now] at hsched
  unfold InWindow FitsInt32
  cases hswap : r.swap with
  | none =>
    have hms : r.swapMs = 0 := by rw [Rolls.swapMs, hswap]
    rw [hms, Int.add_zero] at hsched
    simp only [Option.isSome_none, Bool.false_eq_true, if_false, false_imp_iff, and_true]
    have hwrap := @emod_cases (now.toNat + r.latency.toInt * 1000000) (by omega) (by omega)
    rw [← hsched] at hwrap
    omega
  | some rms =>
    have hms : r.swapMs = rms.toInt := by rw [Rolls.swapMs, hswap]
    obtain ⟨-, _, _, hextra⟩ := h.swap rms hswap
    obtain ⟨hsmall', hlarge'⟩ := i32Range_unsigned hextra hswapOk
    have hmin' := params.reorderSwapMsMin.toNat_lt
    have hmax' := params.reorderSwapMsMax.toNat_lt
    have hle' := UInt32.le_iff_toNat_le.mp hswapOk
    have hlatencyLt := r.latency.toInt_lt
    have hextraLt := rms.toInt_lt
    rw [hms] at hsched
    simp only [Option.isSome_some, if_true, true_imp_iff]
    have hwrap := @emod_cases (now.toNat + (r.latency.toInt + rms.toInt) * 1000000) (by omega) (by omega)
    rw [← hsched] at hwrap
    omega

section Effects

variable {env : Env} {s s' : Sim} {dest : Addr} {buf : List UInt8} {info : Info} {rolls : List Rolls}

theorem Effect.sent_none (h : Effect env s (.send none dest buf, .sent info rolls) s') : rolls = [] := by
  cases h with
  | idle hquiet =>
    cases hquiet
    rfl
  | sent hadmitted =>
    cases hadmitted.1
  | _ => rfl

/-- The rolls of a send are a function of the generator, the parameters and the length, as far as there
are copies. -/
theorem Effect.draws {ep : Option Handle} (h : Effect env s (.send ep dest buf, .sent info rolls) s') :
    ∃ drawn rng', drawSend s.rng s.params buf.length (env.clock s.readings) = some (drawn, rng') ∧
      rolls <+: drawn := by
  obtain ⟨drawn, rng', hdraw⟩ := drawSend_total s.rng s.params buf.length (env.clock s.readings)
  refine ⟨drawn, rng', hdraw, ?_⟩
  cases h with
  | idle hquiet =>
    cases hquiet
    exact List.nil_prefix
  | sent hadmitted hb hroom hdrop hsent =>
    obtain ⟨drawn', _, hdraw', hrolls, -⟩ := hsent.draws hdrop
    cases hdraw.symm.trans hdraw'
    exact hrolls
  | _ => exact List.nil_prefix

end Effects

/-- A step makes copies ready that are due. -/
theorem Laid.step_ready {env : Env} {net net' : Net} {v : View} {reply : Reply} (h : Laid net v)
    (hexec : Exec env net (.step, reply) net') {a : Addr} {l' : List Copy}
    (hl' : readyList net' a = some l') :
    ∃ l k, readyList net a = some l ∧ l' = l ++ k ∧ ∀ c ∈ k, c.2.scheduledNs ≤ env.clock net.readings := by
  obtain ⟨v', hlaid', heffect⟩ := h.exec hexec
  have hstep : Mailbox.Step due dest v.mail (.delivered (env.clock net.readings).toNat) v'.mail :=
    heffect.mail
  rw [hlaid'.readyList_eq] at hl'
  rw [h.readyList_eq]
  generalize v'.mail = m at hstep hl'
  cases hstep with
  | delivered =>
    obtain ⟨l, hl, rfl⟩ := Option.map_eq_some_iff.mp hl'
    refine ⟨l, _, hl, rfl, fun c hc => ?_⟩
    obtain ⟨hc, -⟩ := Mailbox.mem_bound.mp hc
    have hdue := List.mem_takeWhile_imp hc
    exact UInt64.le_iff_toNat_le.mpr (of_decide_eq_true hdue)

/-- For every simulator that is laid out, with accepted parameters and any state of its generator: a copy
is scheduled in its window if and only if the lower ends of the ranges that are rolled fit in `int32_t`,
and a step makes only copies ready that are due. -/
theorem latency_window_iff {env : Env} {net : Net} {v : View} (hlaid : Laid net v)
    (hok : paramsOk net.params = true) :
    (∀ ep dest buf info rolls net',
      Exec env net (.send ep dest buf, .sent info rolls) net' →
      (env.clock net.readings).toNat + (net.params.latencyMsMax.toNat +
        net.params.reorderSwapMsMax.toNat) * 1000000 < 2 ^ 64 →
      (∃ drawn rng, drawSend net.rng net.params buf.length (env.clock net.readings) =
        some (drawn, rng) ∧ rolls <+: drawn) ∧
      List.Forall₂ (fun r c =>
        InWindow net.params (env.clock net.readings) r.swap.isSome c.2.scheduledNs ↔
          FitsInt32 net.params r.swap.isSome) rolls (created net net')) ∧
    ∀ reply net', Exec env net (.step, reply) net' → ∀ a l', readyList net' a = some l' →
      ∃ l k, readyList net a = some l ∧ l' = l ++ k ∧
        ∀ c ∈ k, c.2.scheduledNs ≤ env.clock net.readings := by
  refine ⟨fun ep dest buf info rolls net' hexec hnow => ?_,
    fun reply net' hexec a l' hl' => hlaid.step_ready hexec hl'⟩
  obtain ⟨v', hlaid', heffect⟩ := hlaid.exec hexec
  refine ⟨heffect.draws, ?_⟩
  rw [hlaid.created_send hlaid' heffect]
  cases ep with
  | none =>
    rw [heffect.sent_none]
    exact .nil
  | some e =>
    obtain ⟨-, hrolled⟩ := heffect.rolled
    exact forall₂_copiesOf (fun r hr p => (hrolled r hr).inWindow_iff hok hnow) _

/-- Latencies of 5 ms. -/
theorem latency_window_five :
    ∃ net info rolls net', Exec (still 7) net (.send (some ⟨.ok, true, ⟨1, 2⟩⟩) ⟨1, 2⟩ [7],
        .sent info rolls) net' ∧ (created net net').length = 1 ∧
      List.Forall₂ (fun r c => InWindow net.params 7 r.swap.isSome c.2.scheduledNs ↔
        FitsInt32 net.params r.swap.isSome) rolls (created net net') := by
  let ep : Handle := ⟨.ok, true, ⟨1, 2⟩⟩
  let five : Params := { calm with latencyMsMin := 5, latencyMsMax := 5 }
  have hcheck : ((script (still 7) (create 0 five) [.bind ⟨1, 2⟩]).bind fun x =>
      (sendTo (still 7) x.2 (some ep) ⟨1, 2⟩ [7]).map fun y =>
        decide (paramsOk x.2.params = true ∧ (x.2.params.latencyMsMax.toNat +
          x.2.params.reorderSwapMsMax.toNat) = 5 ∧ (created x.2 y.2).length = 1)) = some true := by
    decide +kernel
  obtain ⟨⟨h, net⟩, hscript, hcheck⟩ := Option.bind_eq_some_iff.mp hcheck
  obtain ⟨⟨⟨info, rolls⟩, net'⟩, hsend, heq⟩ := Option.map_eq_some_iff.mp hcheck
  obtain ⟨hok, hmax, hone⟩ := of_decide_eq_true heq
  obtain ⟨v, hlaid⟩ := Run.laid (script_run hscript)
  have hexec : Exec (still 7) net (.send (some ep) ⟨1, 2⟩ [7], .sent info rolls) net' :=
    congrArg (Option.map _) hsend
  have hnow : ((still 7).clock net.readings).toNat + (net.params.latencyMsMax.toNat +
      net.params.reorderSwapMsMax.toNat) * 1000000 < 2 ^ 64 := by
    rw [hmax]
    show (7 : UInt64).toNat + 5 * 1000000 < 2 ^ 64
    decide
  exact ⟨net, info, rolls, net', hexec, hone,
    ((latency_window_iff hlaid hok).1 _ _ _ _ _ _ hexec hnow).2⟩

/-- A latency of 2³¹ ms is drawn as a negative number, and the copy is due before it is sent. -/
theorem latency_window_negative :
    ∃ h net info rolls net', Run (Exec (still 3000000000000000)) (create 0 { calm with
        latencyMsMin := 2147483648, latencyMsMax := 2147483648 }) h net ∧
      Exec (still 3000000000000000) net
        (.send (some ⟨.ok, true, ⟨1, 2⟩⟩) ⟨1, 2⟩ [7], .sent info rolls) net' ∧
      paramsOk net.params = true ∧
      3000000000000000 + (net.params.latencyMsMax.toNat + net.params.reorderSwapMsMax.toNat) *
        1000000 < 2 ^ 64 ∧
      net.params.reorderProb = 0 ∧ ∃ c ∈ created net net',
        ¬ InWindow net.params 3000000000000000 false c.2.scheduledNs := by
  let ep : Handle := ⟨.ok, true, ⟨1, 2⟩⟩
  let large : Params := { calm with latencyMsMin := 2147483648, latencyMsMax := 2147483648 }
  have hcheck : ((script (still 3000000000000000) (create 0 large) [.bind ⟨1, 2⟩]).bind fun x =>
      (sendTo (still 3000000000000000) x.2 (some ep) ⟨1, 2⟩ [7]).map fun y =>
        decide (paramsOk x.2.params = true ∧ 3000000000000000 + (x.2.params.latencyMsMax.toNat +
          x.2.params.reorderSwapMsMax.toNat) * 1000000 < 2 ^ 64 ∧ x.2.params.reorderProb = 0 ∧
          ∃ c ∈ created x.2 y.2,
            ¬ InWindow x.2.params 3000000000000000 false c.2.scheduledNs)) = some true := by
    decide +kernel
  obtain ⟨⟨h, net⟩, hscript, hcheck⟩ := Option.bind_eq_some_iff.mp hcheck
  obtain ⟨⟨⟨info, rolls⟩, net'⟩, hsend, heq⟩ := Option.map_eq_some_iff.mp hcheck
  exact ⟨h, net, info, rolls, net', script_run hscript, congrArg (Option.map _) hsend,
    of_decide_eq_true heq⟩

end CBase.NetSim
