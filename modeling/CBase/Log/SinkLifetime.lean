import CBase.Log.Sections

/-!
# Lifetime of the file sink

The header says that the sink setter is safe to call concurrently with a log call, because it
serialises behind any write in flight. The mutex does serialise the sections, but a log call writes
to the sink of its first section, and the setter can run between the two.

1. `detached_sink_written`: a thread detaches the sink, and afterwards a log call of another thread
   still writes to it.
2. `attached_of_quiet`: if every setter runs while no call in flight holds another sink, then every
   file write goes to the sink attached at that moment.
3. `sink_lifetime`: under that condition no run writes to a sink after it was replaced, and without
   it the very next emit does.
-/

namespace CBase.Log

variable {θ : Type}

/-! ## Definitions -/

/-- The section writes to the file sink `f`. -/
def Label.WritesTo (f : File) : Label θ → Prop
  | .emit _ ws => ∃ x ∈ ws, x.target = .file f
  | _ => False

/-- The section replaces the file sink. -/
def Label.SetsSink : Label θ → Prop
  | .setFileSink _ _ => True
  | _ => False

/-- No call in flight would write to a file sink other than `g`. -/
def Quiet (w : World θ) (g : Option File) : Prop :=
  ∀ u c, w.phase u = .formatting c → c.fileSink = none ∨ c.fileSink = g

/-- A setter of the history ran when no call in flight held another sink. -/
def QuietSwap (s : Taken (World θ) (Label θ)) : Prop :=
  ∀ t g, s.label = .setFileSink t g → Quiet s.pre g

/-- What the header promises of a history: once the sink was set to `g`, a write to another file
sink `f` comes only after `f` was set again. -/
def SinkLifetime (h : List (Taken (World θ) (Label θ))) : Prop :=
  ∀ before s between e after t g f, h = before ++ s :: (between ++ e :: after) →
    s.label = .setFileSink t g → e.label.WritesTo f → some f ≠ g →
    ∃ s' ∈ between, ∃ t', s'.label = .setFileSink t' (some f)

/-! ## What the sections do to the sink -/

@[simp] theorem noteWrite_fileSink (s : State) (w : Write) :
    (noteWrite s w).fileSink = s.fileSink := by
  unfold noteWrite
  split <;> rfl

@[simp] theorem emit_fileSink (s : State) (c : Snapshot) (b p : List UInt8) (n m : Nat) :
    (emit s c b p n m).1.fileSink = s.fileSink := by
  unfold emit
  cases c.fileSink <;> simp

/-- The only file an emit section writes to is the sink of its snapshot. -/
theorem emit_target (s : State) (c : Snapshot) (b p : List UInt8) (n m : Nat) (f : File) :
    (∃ x ∈ (emit s c b p n m).2, x.target = .file f) ↔ c.fileSink = some f := by
  unfold emit
  cases hc : c.fileSink with
  | none => simp
  | some g => simp

variable [DecidableEq θ]

/-- A step leaves the sink alone unless it is a setter. -/
theorem step_fileSink {w w' : World θ} {l : Label θ} (hs : Step w l w') :
    w'.log.fileSink = w.log.fileSink ∨ ∃ t, l = .setFileSink t w'.log.fileSink := by
  cases hs with
  | @setFileSink t f _ => exact .inr ⟨t, rfl⟩
  | emit _ => exact .inl (emit_fileSink ..)
  | _ => exact .inl rfl

/-- A sink that is attached at the end of a run was attached at its start or by one of its
setters. -/
theorem run_fileSink {w w' : World θ} {h : List (Taken (World θ) (Label θ))}
    (hrun : Run Step w h w') :
    w'.log.fileSink = w.log.fileSink ∨
    ∃ s ∈ h, ∃ t, s.label = .setFileSink t w'.log.fileSink := by
  induction hrun with
  | nil => exact .inl rfl
  | snoc _ hs ih =>
    rcases step_fileSink hs with hsame | ⟨t, hl⟩
    · rw [hsame]
      rcases ih with ih | ⟨s, hmem, ht⟩
      · exact .inl ih
      · exact .inr ⟨s, List.mem_append_left _ hmem, ht⟩
    · exact .inr ⟨_, List.mem_append_right _ (List.mem_singleton_self _), t, hl⟩

/-- A write to a file comes from a call in flight whose snapshot has that file. -/
theorem writesTo_snapshot {w w' : World θ} {l : Label θ} {f : File} (hs : Step w l w')
    (hw : l.WritesTo f) : ∃ t c, w.phase t = .formatting c ∧ c.fileSink = some f := by
  cases hs with
  | @emit t c b p n m hp => exact ⟨t, c, hp, (emit_target ..).mp hw⟩
  | _ => exact hw.elim

/-! ## Quiet swaps -/

/-- The snapshots in flight stay in step with the attached sink as long as every setter is
quiet. -/
theorem quiet_step {w w' : World θ} {l : Label θ} (hq : Quiet w w.log.fileSink)
    (hs : Step w l w') (hset : ∀ t g, l = .setFileSink t g → Quiet w g) :
    Quiet w' w'.log.fileSink := by
  cases hs with
  | @begin t level _ _ =>
    intro u c hu
    simp only at hu
    split at hu
    · cases hu; exact .inr rfl
    · exact hq u c hu
  | @emit t c b p n m _ =>
    intro u c' hu
    simp only at hu
    split at hu
    · cases hu
    · rw [emit_fileSink]; exact hq u c' hu
  | @setFileSink t f _ => exact hset t f rfl
  | _ => exact hq

/-- With quiet setters only, every write to a file goes to the sink attached at that moment. -/
theorem attached_of_quiet {w w' : World θ} {h : List (Taken (World θ) (Label θ))}
    (hq : Quiet w w.log.fileSink) (hrun : Run Step w h w') (hquiet : ∀ s ∈ h, QuietSwap s) :
    Quiet w' w'.log.fileSink ∧
    ∀ s ∈ h, ∀ f, s.label.WritesTo f → s.pre.log.fileSink = some f := by
  induction hrun with
  | nil => exact ⟨hq, by simp⟩
  | @snoc h v v' l _ hs ih =>
    obtain ⟨hv, hall⟩ := ih fun s hmem => hquiet s (List.mem_append_left _ hmem)
    have hlast : QuietSwap ⟨v, l, v'⟩ :=
      hquiet _ (List.mem_append_right _ (List.mem_singleton_self _))
    refine ⟨quiet_step hv hs hlast, fun s hmem f hf => ?_⟩
    rcases List.mem_append.mp hmem with hmem | hmem
    · exact hall s hmem f hf
    · rw [List.mem_singleton.mp hmem] at hf ⊢
      obtain ⟨u, c, hu, hc⟩ := writesTo_snapshot hs hf
      rcases hv u c hu with hnone | hsame
      · rw [hc] at hnone; cases hnone
      · rw [← hc]; exact hsame.symm

omit [DecidableEq θ] in
theorem quiet_init (tty : Bool) (now : UInt64) (g : Option File) :
    Quiet (World.init θ tty now) g := by
  intro u c hu
  cases hu

/-- The world after a thread set the sink to `g`. -/
def World.afterSet (w : World θ) (g : Option File) : World θ :=
  { w with log := setFileSink w.log g }

theorem step_setFileSink {w w' : World θ} {t : θ} {g : Option File}
    (hs : Step w (.setFileSink t g) w') : w' = w.afterSet g := by
  cases hs
  rfl

/-- A run of quiet setters keeps the promise of the header. -/
theorem sinkLifetime_of_quiet {tty : Bool} {now : UInt64} {w : World θ}
    {h : List (Taken (World θ) (Label θ))} (hrun : Run Step (World.init θ tty now) h w)
    (hquiet : ∀ s ∈ h, QuietSwap s) : SinkLifetime h := by
  intro before s between e after t g f hh hset hwrite hne
  obtain ⟨_, hall⟩ := attached_of_quiet (quiet_init tty now _) hrun hquiet
  have hattached : e.pre.log.fileSink = some f := hall e (by simp [hh]) f hwrite
  subst hh
  obtain ⟨_, hs, hrest⟩ := hrun.at_entry
  obtain ⟨hbetween, _, _⟩ := hrest.at_entry
  have hg : s.post.log.fileSink = g := by
    rw [hset] at hs
    rw [step_setFileSink hs]
    rfl
  rcases run_fileSink hbetween with hsame | hmid
  · exact absurd (by rw [← hattached, hsame, hg]) hne
  · rw [hattached] at hmid
    exact hmid

/-- A setter is quiet exactly when no continuation without further setters writes to another
file. -/
theorem quiet_iff_no_stale_write (w : World θ) (g : Option File) :
    Quiet w g ↔ ∀ h w', Run Step (w.afterSet g) h w' → (∀ s ∈ h, ¬ s.label.SetsSink) →
      ∀ s ∈ h, ∀ f, s.label.WritesTo f → some f = g := by
  constructor
  · intro hq h w' hrun hnoset s hmem f hf
    have hquiet : ∀ s ∈ h, QuietSwap s := by
      intro s hs t g' hl
      exact absurd (by rw [hl]; trivial) (hnoset s hs)
    obtain ⟨_, hall⟩ := attached_of_quiet (w := w.afterSet g) hq hrun hquiet
    obtain ⟨l, r, hh⟩ := List.append_of_mem hmem
    subst hh
    obtain ⟨hpre, _, _⟩ := hrun.at_entry
    rcases run_fileSink hpre with hsame | ⟨s', hs', t, hl⟩
    · rw [← hall s hmem f hf, hsame]; rfl
    · exact absurd (by rw [hl]; trivial) (hnoset s' (List.mem_append_left _ hs'))
  · intro hno u c hu
    cases hc : c.fileSink with
    | none => exact .inl rfl
    | some f =>
      have hs : Step (w.afterSet g) _ _ :=
        @Step.emit _ _ _ u c [] [] 0 0 hu
      have hf := hno _ _ (.single hs) (by simp [Label.SetsSink]) _ (List.mem_singleton_self _) f
        ((emit_target ..).mpr hc)
      exact .inr hf

/-- When the logger keeps the promise of its header. In every run whose setters are all quiet, no
log call writes to a replaced sink; and a setter that is not quiet, in any reachable state, is one
after which a stale write is possible. -/
theorem sink_lifetime (tty : Bool) (now : UInt64) :
    (∀ h (w : World θ), Run Step (World.init θ tty now) h w → (∀ s ∈ h, QuietSwap s) →
      SinkLifetime h) ∧
    ∀ h (w : World θ), Run Step (World.init θ tty now) h w → ∀ g,
      (Quiet w g ↔ ∀ h' w', Run Step (w.afterSet g) h' w' → (∀ s ∈ h', ¬ s.label.SetsSink) →
        ∀ s ∈ h', ∀ f, s.label.WritesTo f → some f = g) :=
  ⟨fun _ _ hrun hquiet => sinkLifetime_of_quiet hrun hquiet,
    fun _ w _ g => quiet_iff_no_stale_write w g⟩

/-- With two threads: one attaches a sink and detaches it once the other has logged a line. The
run is quiet, so nothing is written to the detached sink. -/
theorem sink_lifetime_quiet_run :
    ∃ h, ∃ w : World Bool, Run Step (World.init Bool false 0) h w ∧ h.length = 4 ∧
      SinkLifetime h := by
  have hstart : Run Step (World.init Bool false 0) [] _ := .nil
  have hrun := ((hstart.snoc (i := .setFileSink true (some 7)) (.setFileSink rfl)).snoc
    (i := .begin false .error) (.begin rfl rfl)).snoc
    (@Step.emit _ _ _ false _ [10] [10] 1 1 rfl) |>.snoc
    (i := .setFileSink true none) (.setFileSink rfl)
  refine ⟨_, _, hrun, rfl, (sink_lifetime false 0).1 _ _ hrun ?_⟩
  intro s hs
  simp only [List.nil_append, List.cons_append, List.mem_cons, List.not_mem_nil, or_false] at hs
  rcases hs with rfl | rfl | rfl | rfl
  · intro t g _ u c hu
    cases hu
  · intro t g hl
    cases hl
  · intro t g hl
    cases hl
  · intro t g _ u c hu
    cases u <;> cases hu

/-- The promise of the header fails: the first thread attaches a sink, the second passes the first
section of a log call, the first detaches the sink, and the second writes to it. -/
theorem detached_sink_written :
    ¬ ∀ h, ∀ w : World Bool, Run Step (World.init Bool false 0) h w → SinkLifetime h := by
  intro hall
  have hstart : Run Step (World.init Bool false 0) [] _ := .nil
  have hrun := ((hstart.snoc (i := .setFileSink true (some 7)) (.setFileSink rfl)).snoc
    (i := .begin false .error) (.begin rfl rfl)).snoc
    (i := .setFileSink true none) (.setFileSink rfl) |>.snoc
    (@Step.emit _ _ _ false _ [10] [10] 1 1 rfl)
  obtain ⟨s, hs, _⟩ := hall _ _ hrun [_, _] _ [] _ [] true none 7 rfl rfl
    ⟨⟨.file 7, [10], 1⟩, by decide, rfl⟩ (by decide)
  cases hs

end CBase.Log
