import CBase.Info
import CBase.Lib.MachineInt
import CBase.Lib.Run
import Mathlib.Algebra.BigOperators.Group.List.Basic
import Mathlib.Algebra.GroupWithZero.Nat
import Mathlib.Data.List.Pairwise
import Mathlib.Data.Nat.Basic
import Mathlib.Order.Basic

/-!
# The tick loop

`cb_tick_loop_advance` turns clock readings into batches of ticks. The clock is a parameter of every
call.

* `advance_conserves_time`: for every partition of the elapsed time into calls, the accumulator keeps
  the phase, the batches follow one another, and a tick is missing only where a call reports that it
  discarded some.
-/

namespace CBase.Time

/-! ## The loop -/

/-- `cb_tick_loop_t`, less its clock. -/
structure TickLoop where
  info : Info
  tickNs : UInt64
  maxTicksPerCall : UInt32
  lastTimeNs : UInt64
  accumulatorNs : UInt64
  simTickIndex : UInt64
  started : Bool

/-- `cb_tick_loop_step_t`. -/
structure TickStep where
  info : Info
  ticksToRun : UInt32
  firstTickIndex : UInt64
  leftoverNs : UInt64

def create (tickHz maxTicksPerCall : UInt32) : TickLoop :=
  let loop : TickLoop := ⟨.ok, 0, maxTicksPerCall, 0, 0, 0, false⟩
  if tickHz = 0 then { loop with info := .timeBadTickHz }
  -- 0 for a rate above one tick a nanosecond
  else { loop with tickNs := 1000000000 / tickHz.toUInt64 }

/-- The elapsed time that `cb_tick_loop_advance` adds to the accumulator. -/
def elapsed (loop : TickLoop) (now : UInt64) : UInt64 :=
  if loop.lastTimeNs ≤ now then now - loop.lastTimeNs else 0

/-- The two clamps of `cb_tick_loop_advance`, and whether one of them did something. -/
def clampTicks (maxTicks : UInt32) (ticks64 : UInt64) : UInt64 × Bool :=
  let (ticks64, clamped) :=
    if maxTicks ≠ 0 ∧ maxTicks.toUInt64 < ticks64 then (maxTicks.toUInt64, true) else (ticks64, false)
  if 0xffffffff < ticks64 then (0xffffffff, true) else (ticks64, clamped)

/-- `cb_tick_loop_advance`, when the clock reads `now`. -/
def advance (loop : TickLoop) (now : UInt64) : TickStep × TickLoop :=
  let step : TickStep := ⟨.ok, 0, loop.simTickIndex, 0⟩
  -- the first call has no earlier reading to count from
  if !loop.started then (step, { loop with started := true, lastTimeNs := now })
  else
    let accumulatorNs := loop.accumulatorNs + elapsed loop now
    let loop : TickLoop := { loop with lastTimeNs := now, accumulatorNs }
    if loop.tickNs = 0 then
      ({ step with info := .timeBadTickHz }, { loop with info := .timeBadTickHz })
    else
      let ticks64 := accumulatorNs / loop.tickNs
      let leftover := accumulatorNs - ticks64 * loop.tickNs
      -- the time of discarded ticks is gone: `leftover` is what was behind them all
      let (ticks64, clamped) := clampTicks loop.maxTicksPerCall ticks64
      let info := if clamped then .timeTickLag else .ok
      (⟨info, ticks64.toUInt32, loop.simTickIndex, leftover⟩,
        { loop with
          info := if clamped then .timeTickLag else loop.info
          simTickIndex := loop.simTickIndex + ticks64
          accumulatorNs := leftover })

/-- The quotient of `cb_tick_loop_alpha` before it is clamped. -/
def alphaQuotient (loop : TickLoop) : UInt64 := (loop.accumulatorNs <<< 16) / loop.tickNs

/-- The bound of the clamp in `cb_tick_loop_alpha`. -/
def alphaCap : UInt64 := ((1 : UInt64) <<< 16) - 1

def alpha (loop : TickLoop) : Int32 :=
  if loop.tickNs = 0 then 0
  else
    let q := alphaQuotient loop
    (if alphaCap < q then alphaCap else q).toUInt32.toInt32

def reset (loop : TickLoop) : TickLoop :=
  { loop with
    info := if loop.tickNs = 0 then .timeBadTickHz else .ok
    lastTimeNs := 0
    accumulatorNs := 0
    simTickIndex := 0
    started := false }

/-! ## Runs -/

/-- A call of `advance`: what the clock read and what the call returned. -/
structure Call where
  now : UInt64
  step : TickStep

def Advance (loop : TickLoop) (c : Call) (loop' : TickLoop) : Prop :=
  advance loop c.now = (c.step, loop')

/-- The loops that `advance` and `reset` lead to. -/
inductive Reachable (tickHz maxTicks : UInt32) : TickLoop → Prop
  | create : Reachable tickHz maxTicks (create tickHz maxTicks)
  | advance {loop : TickLoop} (now : UInt64) :
      Reachable tickHz maxTicks loop → Reachable tickHz maxTicks (advance loop now).2
  | reset {loop : TickLoop} : Reachable tickHz maxTicks loop → Reachable tickHz maxTicks (reset loop)

/-- A fresh loop, or one that was just reset. -/
inductive Start (tickHz maxTicks : UInt32) : TickLoop → Prop
  | fresh : Start tickHz maxTicks (create tickHz maxTicks)
  | reset {loop : TickLoop} : Reachable tickHz maxTicks loop → Start tickHz maxTicks (reset loop)

abbrev History := List (Taken TickLoop Call)

def readings (h : History) : List UInt64 := h.map (·.label.now)

/-- Nanoseconds from the first reading to the last. -/
def span : List UInt64 → Nat
  | [] => 0
  | t :: ts => (ts.getLast?.getD t).toNat - t.toNat

def ticks (h : History) : Nat := (h.map (·.label.step.ticksToRun.toNat)).sum

/-- The most ticks that one call runs: the cap of the loop, or without one what a `uint32_t` holds. -/
def maxRun (maxTicks : UInt32) : Nat := if maxTicks = 0 then 2 ^ 32 - 1 else maxTicks.toNat

/-- Some call reported `CB_INFO_TIME_TICK_LAG`. -/
def Lagged (h : History) : Prop := ∃ t ∈ h, t.label.step.info = .timeTickLag

/-- No operation on `uint64_t` wraps in a call of `advance` when the clock reads `now`, and none in a
call of `alpha` before it. -/
structure NoWrap (loop : TickLoop) (now : UInt64) : Prop where
  difference : (elapsed loop now).toNat = now.toNat - loop.lastTimeNs.toNat
  sum : loop.accumulatorNs.toNat + (elapsed loop now).toNat < 2 ^ 64
  product : ((loop.accumulatorNs + elapsed loop now) / loop.tickNs).toNat * loop.tickNs.toNat ≤
    (loop.accumulatorNs + elapsed loop now).toNat
  index : loop.simTickIndex.toNat +
    ((loop.accumulatorNs + elapsed loop now) / loop.tickNs).toNat < 2 ^ 64
  shift : loop.accumulatorNs.toNat * 2 ^ 16 < 2 ^ 64

/-! ## One call -/

/-- Both clamps only take ticks away, and say so. -/
theorem clampTicks_spec {maxTicks : UInt32} {t ticks64 : UInt64} {clamped : Bool}
    (h : clampTicks maxTicks t = (ticks64, clamped)) :
    ticks64.toNat = min t.toNat (maxRun maxTicks) ∧ (clamped = true ↔ ticks64.toNat < t.toNat) := by
  have hmax := maxTicks.toNat_lt
  have hceil : (0xffffffff : UInt64).toNat = 2 ^ 32 - 1 := rfl
  unfold maxRun
  by_cases hcap : maxTicks ≠ 0 ∧ maxTicks.toUInt64 < t
  · have hlt : maxTicks.toNat < t.toNat := by
      simpa [UInt64.lt_iff_toNat_lt] using hcap.2
    have hno : ¬ 0xffffffff < maxTicks.toUInt64 := by
      rw [UInt64.lt_iff_toNat_lt, UInt32.toNat_toUInt64]
      omega
    simp only [clampTicks, if_pos hcap, if_neg hno, Prod.mk.injEq] at h
    obtain ⟨rfl, rfl⟩ := h
    rw [UInt32.toNat_toUInt64, if_neg hcap.1]
    exact ⟨by omega, by simpa using hlt⟩
  · have hle : (if maxTicks = 0 then 2 ^ 32 - 1 else maxTicks.toNat) = 2 ^ 32 - 1 ∨
        t.toNat ≤ maxTicks.toNat ∧ ¬ maxTicks = 0 := by
      by_cases hzero : maxTicks = 0
      · exact .inl (if_pos hzero)
      · rw [UInt64.lt_iff_toNat_lt, UInt32.toNat_toUInt64] at hcap
        exact .inr ⟨Nat.not_lt.mp fun hlt => hcap ⟨hzero, hlt⟩, hzero⟩
    simp only [clampTicks, if_neg hcap] at h
    split_ifs at h with hbig <;> rw [UInt64.lt_iff_toNat_lt] at hbig <;>
      obtain ⟨rfl, rfl⟩ := Prod.mk.injEq .. ▸ h
    · refine ⟨?_, ?_⟩
      · rcases hle with hle | ⟨hle, -⟩
        · omega
        · omega
      · simp only [true_iff]
        omega
    · refine ⟨?_, ?_⟩
      · rcases hle with hle | ⟨hle, hzero⟩
        · omega
        · rw [if_neg hzero]
          omega
      · simp only [Bool.false_eq_true, false_iff]
        omega

theorem maxRun_lt (maxTicks : UInt32) : maxRun maxTicks < 2 ^ 32 := by
  have hmax := maxTicks.toNat_lt
  unfold maxRun
  split_ifs
  · decide
  · exact hmax

/-- The first call only takes the baseline. -/
theorem advance_first {loop : TickLoop} {now : UInt64} (h : loop.started = false) :
    advance loop now =
      (⟨.ok, 0, loop.simTickIndex, 0⟩, { loop with started := true, lastTimeNs := now }) := by
  simp [advance, h]

theorem advance_later {loop : TickLoop} {now ticks64 total : UInt64} {clamped : Bool}
    (h : loop.started = true) (htick : loop.tickNs ≠ 0)
    (htotal : loop.accumulatorNs + elapsed loop now = total)
    (hclamp : clampTicks loop.maxTicksPerCall (total / loop.tickNs) = (ticks64, clamped)) :
    advance loop now =
      (⟨if clamped then .timeTickLag else .ok, ticks64.toUInt32, loop.simTickIndex,
          total - total / loop.tickNs * loop.tickNs⟩,
        { loop with
          info := if clamped then .timeTickLag else loop.info
          lastTimeNs := now
          accumulatorNs := total - total / loop.tickNs * loop.tickNs
          simTickIndex := loop.simTickIndex + ticks64 }) := by
  simp [advance, h, htick, htotal, hclamp]

theorem advance_config (loop : TickLoop) (now : UInt64) :
    (advance loop now).2.tickNs = loop.tickNs ∧
      (advance loop now).2.maxTicksPerCall = loop.maxTicksPerCall := by
  rcases Bool.eq_false_or_eq_true loop.started with hs | hs
  · by_cases htick : loop.tickNs = 0
    · simp [advance, hs, htick]
    · rcases hclamp : clampTicks loop.maxTicksPerCall
        ((loop.accumulatorNs + elapsed loop now) / loop.tickNs) with ⟨ticks64, clamped⟩
      rw [advance_later hs htick rfl hclamp]
      exact ⟨rfl, rfl⟩
  · rw [advance_first hs]
    exact ⟨rfl, rfl⟩

/-- The subtraction of the whole ticks leaves the phase. -/
theorem toNat_phase (total tick : UInt64) :
    (total - total / tick * tick).toNat = total.toNat % tick.toNat := by
  have hle : total.toNat / tick.toNat * tick.toNat ≤ total.toNat := Nat.div_mul_le_self _ _
  have hprod : (total / tick * tick).toNat = total.toNat / tick.toNat * tick.toNat := by
    rw [UInt64.toNat_mul, UInt64.toNat_div]
    exact Nat.mod_eq_of_lt (hle.trans_lt total.toNat_lt)
  rw [UInt64.toNat_sub_of_le _ _ (by rwa [UInt64.le_iff_toNat_le, hprod]), hprod, Nat.mul_comm,
    ← Nat.mod_eq_sub_mul_div]

/-! ## The configuration -/

theorem Reachable.config {tickHz maxTicks : UInt32} {loop : TickLoop}
    (h : Reachable tickHz maxTicks loop) :
    loop.tickNs = (Time.create tickHz maxTicks).tickNs ∧ loop.maxTicksPerCall = maxTicks := by
  induction h with
  | create =>
    rw [Time.create]
    split_ifs <;> exact ⟨rfl, rfl⟩
  | advance now _ ih =>
    obtain ⟨htick, hmax⟩ := advance_config _ now
    exact ⟨htick.trans ih.1, hmax.trans ih.2⟩
  | reset _ ih => exact ih

/-- The length of a tick is at least a nanosecond and at most a second. -/
theorem create_tickNs {tickHz : UInt32} (maxTicks : UInt32) (hpos : 1 ≤ tickHz.toNat) :
    (create tickHz maxTicks).tickNs.toNat = 10 ^ 9 / tickHz.toNat := by
  have hne : tickHz ≠ 0 := fun h0 => by simp [h0] at hpos
  simp [create, hne, UInt64.toNat_div]

/-- A reset takes a loop back to what `create` made. -/
theorem Start.eq_create {tickHz maxTicks : UInt32} {loop : TickLoop} (h : Start tickHz maxTicks loop)
    (htick : (create tickHz maxTicks).tickNs ≠ 0) : loop = create tickHz maxTicks := by
  cases h with
  | fresh => rfl
  | reset hreach =>
    obtain ⟨htick', hmax⟩ := hreach.config
    have hne : tickHz ≠ 0 := by
      rintro rfl
      exact htick rfl
    simp only [create, if_neg hne] at htick htick'
    simp [Time.reset, create, htick', hmax, hne, htick]

/-! ## The span of the readings -/

theorem readings_snoc (h : History) (t : Taken TickLoop Call) :
    readings (h ++ [t]) = readings h ++ [t.label.now] := by
  simp [readings]

theorem ticks_snoc (h : History) (t : Taken TickLoop Call) :
    ticks (h ++ [t]) = ticks h + t.label.step.ticksToRun.toNat := by
  simp [ticks]

theorem lagged_snoc (h : History) (t : Taken TickLoop Call) :
    Lagged (h ++ [t]) ↔ Lagged h ∨ t.label.step.info = .timeTickLag := by
  simp [Lagged, or_and_right, exists_or]

/-- A new reading adds the time since the last one. -/
theorem span_snoc {ts : List UInt64} {u now : UInt64} (hlast : ts.getLast? = some u)
    (hmono : (ts ++ [now]).Pairwise (· ≤ ·)) :
    span (ts ++ [now]) = span ts + (now.toNat - u.toNat) ∧ u.toNat ≤ now.toNat := by
  cases ts with
  | nil => simp at hlast
  | cons t ts =>
    rw [List.pairwise_append] at hmono
    have hu : u ∈ t :: ts := List.mem_of_getLast? hlast
    have hnow : u.toNat ≤ now.toNat :=
      UInt64.le_iff_toNat_le.mp (hmono.2.2 u hu now (List.mem_singleton_self now))
    have hfirst : t.toNat ≤ u.toNat := by
      rcases List.mem_cons.mp hu with rfl | hu
      · exact le_rfl
      · exact UInt64.le_iff_toNat_le.mp (List.rel_of_pairwise_cons hmono.1 hu)
    have hget : (ts.getLast?.getD t) = u := by
      rw [List.getLast?_cons] at hlast
      exact Option.some.inj hlast
    refine ⟨?_, hnow⟩
    simp only [List.cons_append, span, hget, List.getLast?_concat, Option.getD_some]
    omega

theorem span_le_last {ts : List UInt64} {u : UInt64} (hlast : ts.getLast? = some u) :
    span ts ≤ u.toNat := by
  cases ts with
  | nil => simp [span]
  | cons t ts =>
    rw [List.getLast?_cons] at hlast
    rw [span, Option.some.inj hlast]
    exact Nat.sub_le _ _

/-! ## The ledger -/

/-- What a loop has to show for the calls so far, with `n` nanoseconds in a tick and the cap `m`. -/
structure Ledger (n : Nat) (m : UInt32) (h : History) (loop : TickLoop) : Prop where
  tick : loop.tickNs.toNat = n
  cap : loop.maxTicksPerCall = m
  fresh : h = [] → loop.started = false ∧ loop.accumulatorNs = 0
  running : ∀ u, (readings h).getLast? = some u → loop.started = true ∧ loop.lastTimeNs = u
  phase : loop.accumulatorNs.toNat = span (readings h) % n
  index : loop.simTickIndex.toNat = ticks h
  bounded : ticks h ≤ span (readings h) / n
  complete : ticks h = span (readings h) / n ↔ ¬ Lagged h
  info : loop.info = .timeTickLag ∧ Lagged h ∨ loop.info = .ok ∧ ¬ Lagged h

/-- The ticks that are due in a call after the calls of `h`. -/
def due (n : Nat) (h : History) (t : Taken TickLoop Call) : Nat :=
  span (readings (h ++ [t])) / n - span (readings h) / n

/-- What holds of a call after the calls of `h`: it runs the ticks that are due up to the cap, and lags
if more are due. -/
structure Settled (n : Nat) (m : UInt32) (h : History) (t : Taken TickLoop Call) : Prop where
  noWrap : NoWrap t.pre t.label.now
  first : t.label.step.firstTickIndex.toNat = ticks h
  run : t.label.step.ticksToRun.toNat = min (due n h t) (maxRun m)
  lag : t.label.step.info = .timeTickLag ↔ maxRun m < due n h t
  discards : t.label.step.info = .timeTickLag ↔ t.label.step.ticksToRun.toNat < due n h t

theorem toNat_elapsed (loop : TickLoop) (now : UInt64) :
    (elapsed loop now).toNat = now.toNat - loop.lastTimeNs.toNat := by
  rw [elapsed]
  split_ifs with h
  · exact UInt64.toNat_sub_of_le _ _ h
  · rw [UInt64.le_iff_toNat_le] at h
    simp only [UInt64.toNat_zero]
    omega

/-- The phase carries the time that is not yet a whole tick over to the next call. -/
theorem carry {n : Nat} (hn : 0 < n) (span e : Nat) :
    (span % n + e) % n = (span + e) % n ∧ (span % n + e) / n = (span + e) / n - span / n := by
  have hsplit : span + e = span % n + e + n * (span / n) := by
    rw [Nat.add_right_comm, Nat.mod_add_div]
  have hdiv : (span + e) / n = (span % n + e) / n + span / n := by
    rw [hsplit, Nat.add_mul_div_left _ _ hn]
  exact ⟨Nat.mod_add_mod _ _ _, (Nat.sub_eq_of_eq_add hdiv).symm⟩

/-- Nothing wraps when the accumulated time and the ticks so far fit in the clock. -/
theorem noWrap_of {loop : TickLoop} {now : UInt64}
    (hsum : loop.accumulatorNs.toNat + (now.toNat - loop.lastTimeNs.toNat) ≤ now.toNat)
    (hindex : loop.simTickIndex.toNat + (loop.accumulatorNs.toNat +
      (now.toNat - loop.lastTimeNs.toNat)) / loop.tickNs.toNat ≤ now.toNat)
    (hphase : loop.accumulatorNs.toNat < 10 ^ 9) : NoWrap loop now := by
  have hnow := now.toNat_lt
  have helapsed := toNat_elapsed loop now
  have hadd : (loop.accumulatorNs + elapsed loop now).toNat =
      loop.accumulatorNs.toNat + (now.toNat - loop.lastTimeNs.toNat) := by
    rw [UInt64.toNat_add, helapsed]
    exact Nat.mod_eq_of_lt (by omega)
  refine ⟨helapsed, by omega, ?_, ?_, by omega⟩
  · rw [UInt64.toNat_div]
    exact Nat.div_mul_le_self _ _
  · rw [UInt64.toNat_div, hadd]
    omega

/-- The first call. -/
theorem Ledger.first {n : Nat} {m : UInt32} {loop loop' : TickLoop} {c : Call} (h : Ledger n m [] loop)
    (hs : Advance loop c loop') :
    Ledger n m [⟨loop, c, loop'⟩] loop' ∧ Settled n m [] ⟨loop, c, loop'⟩ := by
  obtain ⟨now, step⟩ := c
  obtain ⟨hstarted, hzero⟩ := h.fresh rfl
  have hindex : loop.simTickIndex.toNat = 0 := h.index
  rw [Advance, advance_first hstarted] at hs
  obtain ⟨rfl, rfl⟩ := Prod.mk.injEq .. ▸ hs
  have hwrap : NoWrap loop now := by
    have hle := Nat.div_le_self (now.toNat - loop.lastTimeNs.toNat) loop.tickNs.toNat
    have hacc : loop.accumulatorNs.toNat = 0 := by rw [hzero, UInt64.toNat_zero]
    refine noWrap_of ?_ ?_ ?_ <;> rw [hacc]
    · omega
    · rw [Nat.zero_add, hindex]
      omega
    · omega
  have hspan : span (readings [⟨loop, ⟨now, ⟨.ok, 0, loop.simTickIndex, 0⟩⟩,
      { loop with started := true, lastTimeNs := now }⟩]) = 0 := Nat.sub_self _
  have hquiet : ¬ Lagged [⟨loop, ⟨now, ⟨.ok, 0, loop.simTickIndex, 0⟩⟩,
      { loop with started := true, lastTimeNs := now }⟩] := by simp [Lagged]
  have hinfo : loop.info = .ok := by
    rcases h.info with ⟨-, ht, hmem, -⟩ | ⟨hinfo, -⟩
    · cases hmem
    · exact hinfo
  have hdue : due n [] ⟨loop, ⟨now, ⟨.ok, 0, loop.simTickIndex, 0⟩⟩,
      { loop with started := true, lastTimeNs := now }⟩ = 0 := by
    rw [due, List.nil_append, hspan, Nat.zero_div, Nat.zero_sub]
  refine ⟨⟨h.tick, h.cap, nofun, ?_, ?_, hindex, ?_, ?_, .inr ⟨hinfo, hquiet⟩⟩,
    ⟨hwrap, hindex, ?_, ?_, ?_⟩⟩
  · rintro u hu
    exact ⟨rfl, Option.some.inj hu⟩
  · rw [hspan, Nat.zero_mod]
    exact h.phase
  · exact Nat.zero_le _
  · simp [hspan, hquiet, ticks]
  · rw [hdue, Nat.zero_min]
    rfl
  · simp [hdue]
  · simp [hdue]

/-- What a later call works with: the time is that of the span, and nothing wraps. -/
structure Elapse (n : Nat) (h : History) (loop : TickLoop) (now : UInt64) : Prop where
  noWrap : NoWrap loop now
  total_mod : (loop.accumulatorNs + elapsed loop now).toNat % n = span (readings h ++ [now]) % n
  total_div : (loop.accumulatorNs + elapsed loop now).toNat / n =
    span (readings h ++ [now]) / n - span (readings h) / n
  grows : span (readings h) / n ≤ span (readings h ++ [now]) / n
  fits : span (readings h ++ [now]) / n ≤ now.toNat

theorem Ledger.elapse {n : Nat} {m : UInt32} {h : History} {loop : TickLoop} {u now : UInt64} (hn : 0 < n)
    (hsecond : n ≤ 10 ^ 9) (hledger : Ledger n m h loop) (hu : (readings h).getLast? = some u)
    (hmono : (readings h ++ [now]).Pairwise (· ≤ ·)) : Elapse n h loop now := by
  obtain ⟨-, hlast⟩ := hledger.running u hu
  obtain ⟨hspan, hnow⟩ := span_snoc hu hmono
  have hpast := span_le_last hu
  obtain ⟨hmod, hdiv⟩ := carry hn (span (readings h)) (now.toNat - u.toNat)
  rw [← hspan, ← hledger.phase] at hmod hdiv
  have hphase : loop.accumulatorNs.toNat < n := hledger.phase ▸ Nat.mod_lt _ hn
  have hphase' : loop.accumulatorNs.toNat ≤ u.toNat :=
    hledger.phase ▸ (Nat.mod_le _ _).trans hpast
  have htotal : (loop.accumulatorNs + elapsed loop now).toNat =
      loop.accumulatorNs.toNat + (now.toNat - u.toNat) := by
    have hlt := now.toNat_lt
    rw [UInt64.toNat_add, toNat_elapsed, hlast]
    exact Nat.mod_eq_of_lt (by omega)
  have hgrow : span (readings h) / n ≤ span (readings h ++ [now]) / n :=
    Nat.div_le_div_right (by omega)
  have hle := Nat.div_le_self (span (readings h ++ [now])) n
  have hwrap : NoWrap loop now := by
    refine noWrap_of ?_ ?_ (hphase.trans_le hsecond) <;> rw [hlast]
    · omega
    · have hbounded := hledger.bounded
      rw [hledger.tick, hdiv, hledger.index]
      omega
  exact ⟨hwrap, by rw [htotal, hmod], by rw [htotal, hdiv], hgrow, by omega⟩

/-- A later call. -/
theorem Ledger.later {n : Nat} {m : UInt32} {h : History} {loop loop' : TickLoop} {c : Call} (hn : 0 < n)
    (hsecond : n ≤ 10 ^ 9) (hledger : Ledger n m h loop) (hne : h ≠ [])
    (hmono : (readings (h ++ [⟨loop, c, loop'⟩])).Pairwise (· ≤ ·)) (hs : Advance loop c loop') :
    Ledger n m (h ++ [⟨loop, c, loop'⟩]) loop' ∧ Settled n m h ⟨loop, c, loop'⟩ := by
  obtain ⟨now, step⟩ := c
  obtain ⟨u, hu⟩ : ∃ u, (readings h).getLast? = some u := by
    cases hlast : (readings h).getLast? with
    | none => simp [readings] at hlast; exact (hne hlast).elim
    | some u => exact ⟨u, rfl⟩
  obtain ⟨hstarted, -⟩ := hledger.running u hu
  have hreadings : readings (h ++ [⟨loop, ⟨now, step⟩, loop'⟩]) = readings h ++ [now] :=
    readings_snoc ..
  rw [hreadings] at hmono
  obtain ⟨hwrap, hmod, hdiv, hgrow, hfits⟩ := hledger.elapse hn hsecond hu hmono
  have htick : loop.tickNs ≠ 0 := by
    intro h0
    rw [← hledger.tick, h0] at hn
    exact absurd hn (by decide)
  rcases hclamp : clampTicks loop.maxTicksPerCall
    ((loop.accumulatorNs + elapsed loop now) / loop.tickNs) with ⟨ticks64, clamped⟩
  rw [Advance, advance_later hstarted htick rfl hclamp] at hs
  obtain ⟨hran, hclamped⟩ := clampTicks_spec hclamp
  rw [UInt64.toNat_div, hledger.tick, hdiv] at hran hclamped
  rw [hledger.cap] at hran
  have hmost : ticks64.toNat ≤ span (readings h ++ [now]) / n - span (readings h) / n :=
    hran ▸ Nat.min_le_left _ _
  have hsmall : ticks64.toNat < 2 ^ 32 :=
    (hran ▸ Nat.min_le_right _ _ : ticks64.toNat ≤ maxRun m).trans_lt (maxRun_lt m)
  have hrun : ticks64.toUInt32.toNat = ticks64.toNat := by
    rw [UInt64.toNat_toUInt32]
    exact Nat.mod_eq_of_lt hsmall
  have hticks := ticks_snoc h ⟨loop, ⟨now, step⟩, loop'⟩
  have hlagged := lagged_snoc h ⟨loop, ⟨now, step⟩, loop'⟩
  obtain ⟨rfl, rfl⟩ := Prod.mk.injEq .. ▸ hs
  have hlag : (if clamped then Info.timeTickLag else Info.ok) = .timeTickLag ↔
      ticks64.toNat < span (readings h ++ [now]) / n - span (readings h) / n := by
    rw [← hclamped]
    cases clamped <;> simp
  simp only [hrun] at hticks hlagged
  rw [hlag] at hlagged
  have hbounded := hledger.bounded
  have hcomplete := hledger.complete
  have hrange := now.toNat_lt
  refine ⟨⟨hledger.tick, hledger.cap, by simp, ?_, ?_, ?_, ?_, ?_, ?_⟩,
    ⟨hwrap, hledger.index, ?_, ?_, ?_⟩⟩
  · rintro v hv
    rw [hreadings, List.getLast?_concat] at hv
    exact ⟨hstarted, Option.some.inj hv⟩
  · rw [hreadings]
    simp only
    rw [toNat_phase, hledger.tick, hmod]
  · simp only
    rw [hticks, UInt64.toNat_add, hledger.index]
    exact Nat.mod_eq_of_lt (by omega)
  · rw [hreadings, hticks]
    omega
  · rw [hreadings, hticks, hlagged]
    by_cases hl : Lagged h
    · simp only [hl, not_true_eq_false, iff_false, true_or] at hcomplete ⊢
      omega
    · simp only [hl, not_false_eq_true, iff_true, false_or] at hcomplete ⊢
      omega
  · rw [hlagged, ← hclamped]
    cases clamped with
    | false => simpa using hledger.info
    | true => simp
  · rw [due, hreadings]
    simp only
    rw [hrun]
    exact hran
  · rw [due, hreadings]
    simp only
    rw [hlag, hran]
    omega
  · rw [due, hreadings]
    simp only
    rw [hrun]
    exact hlag

theorem Ledger.step {n : Nat} {m : UInt32} {h : History} {loop loop' : TickLoop} {c : Call} (hn : 0 < n)
    (hsecond : n ≤ 10 ^ 9) (hledger : Ledger n m h loop)
    (hmono : (readings (h ++ [⟨loop, c, loop'⟩])).Pairwise (· ≤ ·)) (hs : Advance loop c loop') :
    Ledger n m (h ++ [⟨loop, c, loop'⟩]) loop' ∧ Settled n m h ⟨loop, c, loop'⟩ := by
  by_cases hne : h = []
  · subst hne
    exact hledger.first hs
  · exact hledger.later hn hsecond hne hmono hs

theorem Ledger.create {tickHz : UInt32} (maxTicks : UInt32) (hpos : 1 ≤ tickHz.toNat) :
    Ledger (10 ^ 9 / tickHz.toNat) maxTicks [] (create tickHz maxTicks) := by
  refine ⟨create_tickNs maxTicks hpos, ?_, fun _ => ?_, nofun, ?_, ?_, Nat.zero_le _, ?_, ?_⟩
  all_goals
    have hne : tickHz ≠ 0 := fun h0 => by simp [h0] at hpos
    simp [Time.create, hne, Lagged, readings, span, ticks]

/-- Every call on a running loop settles its part of the elapsed time. -/
theorem Run.ledger {n : Nat} {m : UInt32} {h : History} {loop₀ loop : TickLoop} (hn : 0 < n)
    (hsecond : n ≤ 10 ^ 9) (hstart : Ledger n m [] loop₀) (hrun : Run Advance loop₀ h loop)
    (hmono : (readings h).Pairwise (· ≤ ·)) : Ledger n m h loop := by
  refine hrun.invariant_hist (fun h loop => (readings h).Pairwise (· ≤ ·) → Ledger n m h loop)
    (fun _ => hstart) (fun h loop c loop' _ ih hs hmono => ?_) hmono
  have hpast : (readings h).Pairwise (· ≤ ·) := by
    rw [readings_snoc, List.pairwise_append] at hmono
    exact hmono.1
  exact ((ih hpast).step hn hsecond hmono hs).1

/-! ## Interpolation -/

/-- The quotient of `alpha` is exact and below one. -/
theorem alphaQuotient_spec {loop : TickLoop} (hphase : loop.accumulatorNs.toNat < loop.tickNs.toNat)
    (hsecond : loop.tickNs.toNat ≤ 10 ^ 9) :
    (alphaQuotient loop).toNat = loop.accumulatorNs.toNat * 65536 / loop.tickNs.toNat ∧
      (alphaQuotient loop).toNat < 65536 := by
  have hshift : (loop.accumulatorNs <<< 16).toNat = loop.accumulatorNs.toNat * 65536 := by
    rw [UInt64.toNat_shiftLeft, Nat.shiftLeft_eq]
    exact Nat.mod_eq_of_lt (by simp; omega)
  have hquot : (alphaQuotient loop).toNat =
      loop.accumulatorNs.toNat * 65536 / loop.tickNs.toNat := by
    rw [alphaQuotient, UInt64.toNat_div, hshift]
  refine ⟨hquot, ?_⟩
  rw [hquot, Nat.div_lt_iff_lt_mul (by omega)]
  omega

/-- `alpha` returns its quotient: the clamp does nothing. -/
theorem alpha_spec {loop : TickLoop} (hphase : loop.accumulatorNs.toNat < loop.tickNs.toNat)
    (hsecond : loop.tickNs.toNat ≤ 10 ^ 9) :
    alphaQuotient loop ≤ alphaCap ∧ (alpha loop).toInt = (alphaQuotient loop).toNat := by
  obtain ⟨-, hlt⟩ := alphaQuotient_spec hphase hsecond
  have hcap : alphaCap.toNat = 65535 := rfl
  have hle : alphaQuotient loop ≤ alphaCap := by
    rw [UInt64.le_iff_toNat_le, hcap]
    omega
  have hne : loop.tickNs ≠ 0 := fun h0 => by simp [h0] at hphase
  refine ⟨hle, ?_⟩
  have hno : ¬ alphaCap < alphaQuotient loop := UInt64.not_lt.mpr hle
  have hnat : (alphaQuotient loop).toUInt32.toNat = (alphaQuotient loop).toNat := by
    rw [UInt64.toNat_toUInt32]
    exact Nat.mod_eq_of_lt (by omega)
  simp only [alpha, if_neg hne, if_neg hno]
  rw [MachineInt.toInt_ofUInt32 (by omega), hnat]

/-! ## The whole run -/

/-- For every rate up to one tick in a nanosecond, every cap on the ticks of a call and every
partition of the time into calls: the accumulator holds the phase, the ticks are all those that
elapsed unless a call reported that it discarded some, which it does exactly if more are due than it may
run, and `alpha` is the phase as a fraction of a tick. -/
theorem advance_conserves_time {tickHz maxTicks : UInt32} {loop₀ loop : TickLoop} {h : History}
    (hpos : 1 ≤ tickHz.toNat) (hhz : tickHz.toNat ≤ 10 ^ 9) (hstart : Start tickHz maxTicks loop₀)
    (hrun : Run Advance loop₀ h loop) (hmono : (readings h).Pairwise (· ≤ ·)) :
    let n := 10 ^ 9 / tickHz.toNat
    loop.accumulatorNs.toNat = span (readings h) % n ∧
    ticks h ≤ span (readings h) / n ∧
    (ticks h = span (readings h) / n ↔ ¬ Lagged h) ∧
    (loop.info = .timeTickLag ∧ Lagged h ∨ loop.info = .ok ∧ ¬ Lagged h) ∧
    (∀ h₁ t h₂, h = h₁ ++ t :: h₂ → Settled n maxTicks h₁ t) ∧
    loop.accumulatorNs.toNat * 2 ^ 16 < 2 ^ 64 ∧
    alphaQuotient loop ≤ alphaCap ∧
    (alpha loop).toInt = (loop.accumulatorNs.toNat * 65536 / n : Nat) ∧
    loop.accumulatorNs.toNat * 65536 / n < 65536 := by
  intro n
  have hn : 0 < n := Nat.div_pos hhz hpos
  have hsecond : n ≤ 10 ^ 9 := Nat.div_le_self _ _
  have hcreate : Ledger n maxTicks [] (create tickHz maxTicks) := .create maxTicks hpos
  have hne : (create tickHz maxTicks).tickNs ≠ 0 := by
    intro h0
    have htick := hcreate.tick
    rw [h0, UInt64.toNat_zero] at htick
    omega
  rw [hstart.eq_create hne] at hrun
  have hledger := Run.ledger hn hsecond hcreate hrun hmono
  have hphase : loop.accumulatorNs.toNat < loop.tickNs.toNat := by
    rw [hledger.phase, hledger.tick]
    exact Nat.mod_lt _ hn
  have hsecond' : loop.tickNs.toNat ≤ 10 ^ 9 := hledger.tick ▸ hsecond
  obtain ⟨hquot, hlt⟩ := alphaQuotient_spec hphase hsecond'
  obtain ⟨hcap, halpha⟩ := alpha_spec hphase hsecond'
  rw [hquot, hledger.tick] at halpha hlt
  refine ⟨hledger.phase, hledger.bounded, hledger.complete, hledger.info, ?_, by omega, hcap, halpha,
    hlt⟩
  rintro h₁ t h₂ rfl
  obtain ⟨hbefore, hs, -⟩ := hrun.at_entry
  have hmono' : (readings (h₁ ++ [t])).Pairwise (· ≤ ·) := by
    rw [List.append_cons, readings, List.map_append, List.pairwise_append] at hmono
    exact hmono.1
  have hmono₁ : (readings h₁).Pairwise (· ≤ ·) := by
    rw [readings_snoc, List.pairwise_append] at hmono'
    exact hmono'.1
  exact ((Run.ledger hn hsecond hcreate hbefore hmono₁).step hn hsecond hmono' hs).2

/-- Three and a half ticks elapse in one call that may run two. -/
theorem advance_conserves_time_capped :
    ∃ h loop, Run Advance (create 1000 2) h loop ∧ readings h = [7, 3500007] ∧
      loop.accumulatorNs.toNat = 500000 ∧ ticks h < 3 ∧ loop.info = .timeTickLag := by
  let first := advance (create 1000 2) 7
  let second := advance first.2 3500007
  have hrun : Run Advance (create 1000 2)
      [⟨create 1000 2, ⟨7, first.1⟩, first.2⟩, ⟨first.2, ⟨3500007, second.1⟩, second.2⟩] second.2 :=
    .snoc (.snoc .nil rfl) rfl
  obtain ⟨hphase, hbounded, hcomplete, hinfo, -⟩ :=
    advance_conserves_time (by decide) (by decide) .fresh hrun (by decide)
  have hlag : second.2.info = .timeTickLag := by decide
  refine ⟨_, _, hrun, rfl, hphase.trans (by decide), ?_, hlag⟩
  rcases hinfo with ⟨-, hlagged⟩ | ⟨hok, -⟩
  · exact (hbounded.lt_of_ne fun heq => hcomplete.mp heq hlagged).trans_eq (by decide)
  · simp [hlag] at hok

end CBase.Time
