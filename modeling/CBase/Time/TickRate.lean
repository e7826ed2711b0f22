import CBase.Time.TickLoop

/-!
# Which rates make a loop that ticks

`create` accepts every rate but zero, `advance` and `reset` ask instead whether the length of a tick
is zero. A comment in `cb_tick_loop_advance` calls `tick_ns > 0` an invariant of a loop that
`create` accepted. It is one up to a billion ticks per second: above, the division rounds to zero.

* `AlwaysTicks`: an accepted loop has a positive `tick_ns`, and no call on it reports a bad rate.
* `always_ticks_iff`: the rates with that property.
* `accepted_rate_stops`: a rate without it.
-/

namespace CBase.Time

/-- A loop that `create` accepts ticks: whatever the clock reads, and however `advance` and `reset`
follow one another, no `advance` reports a bad rate, and no call leaves one in `info`. -/
def AlwaysTicks (tickHz maxTicks : UInt32) : Prop :=
  (create tickHz maxTicks).info = .ok →
    0 < (create tickHz maxTicks).tickNs ∧
    ∀ loop, Reachable tickHz maxTicks loop →
      (∀ now, (advance loop now).1.info ≠ .timeBadTickHz ∧
        (advance loop now).2.info ≠ .timeBadTickHz) ∧
      (reset loop).info ≠ .timeBadTickHz

theorem create_info (tickHz maxTicks : UInt32) :
    (create tickHz maxTicks).info = .ok ↔ tickHz ≠ 0 := by
  rw [create]
  split_ifs with hz
  · simp [hz]
  · simp [hz]

theorem create_tickNs_pos {tickHz : UInt32} (maxTicks : UInt32) (hz : tickHz ≠ 0) :
    0 < (create tickHz maxTicks).tickNs ↔ tickHz.toNat ≤ 10 ^ 9 := by
  have hpos : 0 < tickHz.toNat := Nat.pos_of_ne_zero fun h => hz (UInt32.toNat_inj.mp h)
  rw [UInt64.lt_iff_toNat_lt, create_tickNs maxTicks hpos, UInt64.toNat_zero, Nat.div_pos_iff]
  exact ⟨fun h => h.2, fun h => ⟨hpos, h⟩⟩

/-- With a positive `tick_ns`, `advance` reports nothing but a lag. -/
theorem advance_info {loop : TickLoop} (htick : loop.tickNs ≠ 0) (now : UInt64) :
    (advance loop now).1.info ≠ .timeBadTickHz ∧
      ((advance loop now).2.info = loop.info ∨ (advance loop now).2.info = .timeTickLag) := by
  rcases Bool.eq_false_or_eq_true loop.started with hs | hs
  · rcases hclamp : clampTicks loop.maxTicksPerCall
      ((loop.accumulatorNs + elapsed loop now) / loop.tickNs) with ⟨ticks64, clamped⟩
    rw [advance_later hs htick rfl hclamp]
    cases clamped with
    | false => exact ⟨by simp, .inl rfl⟩
    | true => exact ⟨by simp, .inr rfl⟩
  · rw [advance_first hs]
    exact ⟨by simp, .inl rfl⟩

/-- With a positive `tick_ns`, no call of a run reports a bad rate. -/
theorem Reachable.info {tickHz maxTicks : UInt32} {loop : TickLoop}
    (h : Reachable tickHz maxTicks loop) (hok : (Time.create tickHz maxTicks).info = .ok)
    (htick : (Time.create tickHz maxTicks).tickNs ≠ 0) : loop.info ≠ .timeBadTickHz := by
  induction h with
  | create => simp [hok]
  | advance now hreach ih =>
    rcases (advance_info (hreach.config.1 ▸ htick) now).2 with hinfo | hinfo
    · rwa [hinfo]
    · simp [hinfo]
  | reset hreach _ => simp [Time.reset, hreach.config.1, htick]

/-- Which rates keep the invariant of the comment. A loop that `create` accepts always ticks if and
only if its rate is at most a billion ticks per second. -/
theorem always_ticks_iff (tickHz maxTicks : UInt32) :
    AlwaysTicks tickHz maxTicks ↔ tickHz.toNat ≤ 10 ^ 9 := by
  by_cases hz : tickHz = 0
  · subst hz
    exact ⟨fun _ => Nat.zero_le _, fun _ hok => absurd rfl ((create_info 0 maxTicks).mp hok)⟩
  constructor
  · intro h
    exact (create_tickNs_pos maxTicks hz).mp (h ((create_info tickHz maxTicks).mpr hz)).1
  · intro hle hok
    have hpos := (create_tickNs_pos maxTicks hz).mpr hle
    have htick : (create tickHz maxTicks).tickNs ≠ 0 := fun h0 => by
      rw [h0] at hpos
      exact absurd hpos (by decide)
    refine ⟨hpos, fun loop hreach => ⟨fun now => ⟨?_, ?_⟩, ?_⟩⟩
    · exact (advance_info (hreach.config.1 ▸ htick) now).1
    · exact (hreach.advance now).info hok htick
    · exact hreach.reset.info hok htick

/-- At two billion ticks per second `create` answers OK, and the second `advance` reports the rate
as bad, as every later one and every reset does. -/
theorem accepted_rate_stops : ¬ ∀ tickHz maxTicks : UInt32, AlwaysTicks tickHz maxTicks := by
  intro h
  obtain ⟨-, hrun⟩ := h 2000000000 0 rfl
  have hstarted : Reachable 2000000000 0 (advance (create 2000000000 0) 0).2 := .advance 0 .create
  exact ((hrun _ hstarted).1 1).1 rfl

end CBase.Time
