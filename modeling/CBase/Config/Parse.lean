import CBase.Config.Grammar
import CBase.Config.Store
import Mathlib.Algebra.Group.Nat.Defs

/-!
# Parsing a config file

`read` is the reference: it takes the meanings of the lines one by one and stops at the first error
or at the first line whose memory is not granted. `parse` does the same for every text
(`parse_outcome`), and what `read` returns is read off the list of meanings (`reading_read`).
-/

namespace CBase.Config

open LinkedHeap Assoc

/-! ## The reference -/

namespace Line

def error : Line → Option Info
  | skip => none
  | assign _ _ => none
  | bad info => some info
  | badValue info => some info

def apply : Line → Store → Store
  | assign key value, s => Assoc.assign key value s
  | _, s => s

/-- How often a line asks for memory. -/
def requests (s : Store) : Line → Nat
  | skip => 0
  | bad _ => 0
  | badValue _ => 1
  | assign key _ => setRequests s key + 1

/-- The pair that a line assigns. -/
def assignment : Line → Option (List UInt8 × List UInt8)
  | assign key value => some (key, value)
  | _ => none

end Line

/-- A parse behind `line` lines and `r` requests for memory: the store, or the error and its line. -/
def read (ok : Nat → Bool) : Store → Nat → Nat → List Line → Except (Info × Nat) Store
  | s, _, _, [] => .ok s
  | s, line, r, m :: ms =>
    if granted ok r (m.requests s) then
      match m.error with
      | none => read ok (m.apply s) (line + 1) (r + m.requests s) ms
      | some info => .error (info, line + 1)
    else .error (.configAllocFailed, line + 1)

/-- The requests for memory that the lines `ms` make. -/
def requestsAll : Store → List Line → Nat
  | _, [] => 0
  | s, m :: ms => m.requests s + requestsAll (m.apply s) ms

def assignments (ms : List Line) : List (List UInt8 × List UInt8) := ms.filterMap Line.assignment

/-- No line of `ms` is in error. -/
def AllGood (ms : List Line) : Prop := ∀ m ∈ ms, m.error = none

/-- How a parse can end: with all assignments, at the first line in error, or at the first line that is
not granted its memory. -/
inductive Reading (ok : Nat → Bool) (s : Store) (line r : Nat) :
    List Line → Except (Info × Nat) Store → Prop
  | good {ms : List Line} : AllGood ms →
      Reading ok s line r ms (.ok (assignAll (assignments ms) s))
  | bad {p post : List Line} {m : Line} {info : Info} : AllGood p → m.error = some info →
      Reading ok s line r (p ++ m :: post) (.error (info, line + p.length + 1))
  | denied {p post : List Line} {m : Line} : AllGood p →
      granted ok r (requestsAll s p) = true →
      granted ok (r + requestsAll s p) (m.requests (assignAll (assignments p) s)) = false →
      Reading ok s line r (p ++ m :: post) (.error (.configAllocFailed, line + p.length + 1))

theorem assignAll_assignments (m : Line) (ms : List Line) (s : Store) :
    assignAll (assignments (m :: ms)) s = assignAll (assignments ms) (m.apply s) := by
  cases m <;> rfl

theorem AllGood.cons {m : Line} {ms : List Line} (hm : m.error = none) (hms : AllGood ms) :
    AllGood (m :: ms) := by
  rintro m' (_ | ⟨_, hm'⟩)
  · exact hm
  · exact hms m' hm'

/-- A good line in front of a reading. -/
theorem Reading.cons {ok : Nat → Bool} {s : Store} {line r : Nat} {m : Line} {ms : List Line}
    {x : Except (Info × Nat) Store} (hm : m.error = none)
    (hg : granted ok r (m.requests s) = true)
    (h : Reading ok (m.apply s) (line + 1) (r + m.requests s) ms x) :
    Reading ok s line r (m :: ms) x := by
  cases h with
  | good hms =>
    rw [← assignAll_assignments]
    exact .good (hms.cons hm)
  | @bad pre post m' info hpre hm' =>
    rw [show line + 1 + pre.length + 1 = line + (m :: pre).length + 1 by rw [List.length_cons]; omega,
      ← List.cons_append]
    exact .bad (hpre.cons hm) hm'
  | @denied pre post m' hpre hpg hdenied =>
    rw [show line + 1 + pre.length + 1 = line + (m :: pre).length + 1 by rw [List.length_cons]; omega,
      ← List.cons_append]
    refine .denied (hpre.cons hm) ?_ ?_
    · rw [requestsAll, granted_add, hg, hpg]
      rfl
    · rwa [requestsAll, assignAll_assignments, ← Nat.add_assoc]

theorem reading_read (ok : Nat → Bool) (s : Store) (line r : Nat) (ms : List Line) :
    Reading ok s line r ms (read ok s line r ms) := by
  induction ms generalizing s line r with
  | nil => exact .good nofun
  | cons m ms ih =>
    unfold read
    split
    · next hg =>
      split
      · next hm => exact (ih ..).cons hm hg
      · next info hm => exact .bad (p := []) nofun hm
    · next hg => exact .denied (p := []) nofun rfl (Bool.eq_false_of_not_eq_true hg)

theorem Reading.store {ok : Nat → Bool} {s s' : Store} {line r : Nat} {ms : List Line}
    (h : Reading ok s line r ms (.ok s')) : s' = assignAll (assignments ms) s := by
  cases h with
  | good => rfl

/-! ## One line -/

section

variable {cfg : Config} {s : Store} {line : List UInt8} {m : Line}

theorem Quoted.error_ne_ok {t : List UInt8} {r : Except Info (List UInt8)} (h : Quoted t r) :
    r ≠ .error .ok := by
  induction h with
  | @plain c t r _ _ _ ih =>
    cases r with
    | error info => exact ih
    | ok v => nofun
  | @escape e c t r _ _ ih =>
    cases r with
    | error info => exact ih
    | ok v => nofun
  | _ => nofun

theorem Value.error_ne_ok {v : List UInt8} {info : Info} (h : Value v (.error info)) :
    info ≠ .ok := by
  cases h with
  | quoted _ hq =>
    rintro rfl
    exact hq.error_ne_ok rfl

theorem Means.error_ne_ok (h : Means line m) : m.error ≠ some .ok := by
  cases h with
  | tooLong => simp [Line.error]
  | blank => simp [Line.error]
  | comment => simp [Line.error]
  | noEquals => simp [Line.error]
  | badKey => simp [Line.error]
  | badValue _ _ _ _ hvalue => simpa [Line.error] using hvalue.error_ne_ok
  | assign => simp [Line.error]

/-- A line that is too long means that. -/
theorem Means.eq_tooLong (h : Means line m) (hlong : lineMax < line.length) :
    m = .bad .configLineTooLong := by
  have hmax : lineMax = 4096 := rfl
  cases h with
  | tooLong => rfl
  | _ => omega

/-- What a line does to a config that holds the store `s`. -/
theorem Line.run_spec (hr : Holds cfg s) (ok : Nat → Bool)
    (hnul : ∀ key value, m = .assign key value → 0 ∉ key) :
    ∃ cfg', m.run ok cfg =
        some (bif granted ok cfg.requests (m.requests s) then m.error.getD .ok
          else .configAllocFailed, cfg') ∧
      Holds cfg' (bif granted ok cfg.requests (m.requests s) then m.apply s else s) ∧
      (granted ok cfg.requests (m.requests s) = true → m.error = none →
        cfg'.requests = cfg.requests + m.requests s) ∧
      cfg'.info = cfg.info ∧ cfg'.errorLine = cfg.errorLine := by
  have hasked (n : Nat) : Holds { cfg with requests := n } s := ⟨hr.chain, hr.count, hr.nulFree⟩
  cases m with
  | skip => exact ⟨cfg, rfl, hr, fun _ _ => rfl, rfl, rfl⟩
  | bad info => exact ⟨cfg, rfl, hr, by simp [Line.error], rfl, rfl⟩
  | badValue info =>
    rw [show (Line.badValue info).requests s = 0 + 1 from rfl, granted_succ, granted_zero]
    refine ⟨{ cfg with requests := cfg.requests + 1 }, ?_, ?_, by simp [Line.error], rfl, rfl⟩
    · cases h : ok cfg.requests <;> simp [Line.run, Config.request, h, Line.error]
    · cases ok cfg.requests <;> exact hasked _
  | assign key value =>
    have hk := hnul key value rfl
    rw [show (Line.assign key value).requests s = setRequests s key + 1 from rfl, granted_succ]
    cases h : ok cfg.requests with
    | false =>
      exact ⟨{ cfg with requests := cfg.requests + 1 }, by simp [Line.run, Config.request, h],
        hasked _, by simp, rfl, rfl⟩
    | true =>
      obtain ⟨cfg', hset, hr', hreq, hinfo, hline⟩ :=
        set_spec (hasked (cfg.requests + 1)) ok hk value
      refine ⟨cfg', by simp [Line.run, Config.request, h, hset, Line.error], hr', fun hg _ => ?_,
        hinfo, hline⟩
      rw [hreq hg]
      simp only
      omega

end

/-! ## The lines of a text -/

theorem pieces_nil : pieces [] = [] := rfl

/-- The first line of a text and the rest, as the loop cuts them. -/
theorem pieces_of_ne_nil {text : List UInt8} (h : text ≠ []) :
    pieces text = chomp (text.takeWhile (· ≠ newline)) ::
      pieces (text.dropWhile (· ≠ newline)).tail := by
  have hraw : ∀ c ∈ text.takeWhile (· ≠ newline), (c == 0x0A) = false := by
    intro c hc
    have hne := List.mem_takeWhile_imp hc
    rw [decide_eq_true_eq] at hne
    exact beq_eq_false_iff_ne.mpr hne
  cases hrest : text.dropWhile (· ≠ newline) with
  | nil =>
    have htext : text.takeWhile (· ≠ newline) = text :=
      List.takeWhile_eq_self_iff.mpr (List.dropWhile_eq_nil_iff.mp hrest)
    rw [htext] at hraw ⊢
    rw [pieces, List.splitOn_eq_splitOnP, List.splitOnP_eq_singleton hraw]
    simp [h, pieces_nil]
  | cons c rest =>
    obtain rfl : c = newline := by
      simpa using head_dropWhile (p := fun c => decide (c ≠ newline)) (s := text) (by rw [hrest]; rfl)
    have htext : text = text.takeWhile (· ≠ newline) ++ newline :: rest := by
      rw [← hrest, List.takeWhile_append_dropWhile]
    have hsplit : text.splitOn 0x0A = text.takeWhile (· ≠ newline) :: rest.splitOn 0x0A := by
      rw [List.splitOn_eq_splitOnP]
      nth_rewrite 1 [htext]
      exact List.splitOnP_append_cons_of_forall_mem hraw newline (by decide) rest
    obtain ⟨first, more, hmore⟩ := List.exists_cons_of_ne_nil (List.splitOn_ne_nil 0x0A rest)
    rw [pieces, hsplit, List.tail_cons, pieces, hmore, List.getLast?_cons_cons]
    split <;> simp

theorem chomp_subset (raw : List UInt8) : chomp raw ⊆ raw := by
  rw [← stripCr_eq, stripCr]
  split
  · exact List.dropLast_subset raw
  · exact List.Subset.refl raw

theorem pieces_subset {text line : List UInt8} (h : line ∈ pieces text) : line ⊆ text := by
  induction hlen : text.length using Nat.strongRecOn generalizing text with
  | _ n ih =>
    by_cases htext : text = []
    · rw [htext, pieces_nil] at h
      cases h
    rw [pieces_of_ne_nil htext, List.mem_cons] at h
    rcases h with rfl | h
    · exact fun c hc => (List.takeWhile_prefix _).subset (chomp_subset _ hc)
    · have hsuffix : (text.dropWhile (· ≠ newline)).tail <:+ text :=
        (List.tail_suffix _).trans (List.dropWhile_suffix _)
      have hlt : (text.dropWhile (· ≠ newline)).tail.length < n := by
        have hle := (List.dropWhile_suffix (· ≠ newline) (l := text)).length_le
        have hpos := List.length_pos_of_ne_nil htext
        rw [List.length_tail]
        omega
      exact fun c hc => hsuffix.subset (ih _ hlt h rfl hc)

theorem drop_takeWhile_length (text : List UInt8) :
    text.drop (text.takeWhile (· ≠ newline)).length = text.dropWhile (· ≠ newline) := by
  have hdrop := @List.drop_left _ (text.takeWhile (· ≠ newline)) (text.dropWhile (· ≠ newline))
  rwa [List.takeWhile_append_dropWhile] at hdrop

/-! ## The loop -/

/-- A config that holds what the reference returned. -/
def Refines (cfg : Config) : Except (Info × Nat) Store → Prop
  | .ok s => cfg.info = .ok ∧ cfg.errorLine = 0 ∧ Repr cfg s
  | .error (info, line) => cfg.info = info ∧ cfg.errorLine.toNat = line ∧ Repr cfg []

/-- The same for texts of any bytes and any number of lines: the line number wraps. -/
def Outcome (cfg : Config) : Except (Info × Nat) Store → Prop
  | .ok s => cfg.info = .ok ∧ cfg.errorLine = 0 ∧ Holds cfg s
  | .error (info, line) => info ≠ .ok ∧ cfg.info = info ∧ cfg.errorLine = UInt32.ofNat line ∧
      Holds cfg []

theorem fail_spec {cfg : Config} {s : Store} (hr : Holds cfg s) (info : Info) (hbad : info ≠ .ok)
    (line : Nat) :
    ∃ cfg', fail cfg info (UInt32.ofNat line) = some cfg' ∧
      Outcome cfg' (.error (info, line)) := by
  have hr' : Holds { cfg with info, errorLine := UInt32.ofNat line } s :=
    ⟨hr.chain, hr.count, hr.nulFree⟩
  obtain ⟨cfg', hfree, hempty, hinfo, hline⟩ := freeEntries_spec hr'
  exact ⟨cfg', hfree, hbad, hinfo, hline, hempty⟩

/-- The loop does with the rest of a text what the reference does with its lines. -/
theorem parseLoop_outcome {ok : Nat → Bool} {n : Nat} {cfg : Config} {s : Store} {line : Nat}
    {text : List UInt8} {ms : List Line} (hms : List.Forall₂ Means (pieces text) ms)
    (hr : Holds cfg s) (hinfo : cfg.info = .ok) (hline : cfg.errorLine = 0)
    (hn : text.length < n) :
    ∃ cfg', parseLoop ok n cfg (UInt32.ofNat line) text = some cfg' ∧
      Outcome cfg' (read ok s line cfg.requests ms) := by
  induction n generalizing cfg s line text ms with
  | zero => omega
  | succ n ih =>
    by_cases htext : text = []
    · subst htext
      rw [pieces_nil] at hms
      cases hms
      exact ⟨cfg, rfl, hinfo, hline, hr⟩
    rw [pieces_of_ne_nil htext] at hms
    cases hms with
    | @cons _ m _ ms hm hms =>
    have hnext : UInt32.ofNat (line + 1) = UInt32.ofNat line + 1 := UInt32.ofNat_add ..
    unfold parseLoop
    simp only [if_neg htext, drop_takeWhile_length, stripCr_eq]
    by_cases hlong : lineMax < (chomp (text.takeWhile (· ≠ newline))).length
    · obtain rfl := hm.eq_tooLong hlong
      obtain ⟨cfg', hfail, houtcome⟩ := fail_spec hr .configLineTooLong nofun (line + 1)
      rw [hnext] at hfail
      exact ⟨cfg', by rw [if_pos hlong, hfail], houtcome⟩
    obtain ⟨cfg₁, hrun, hr₁, hreq, hinfo₁, hline₁⟩ := Line.run_spec (m := m) hr ok
      fun key value he => by
        subst he
        exact hm.key_nulFree
    rw [if_neg hlong, parseLine_of hm (by omega), hrun]
    unfold read
    cases hg : granted ok cfg.requests (m.requests s) with
    | false =>
      obtain ⟨cfg', hfail, houtcome⟩ := fail_spec hr₁ .configAllocFailed nofun (line + 1)
      rw [hnext] at hfail
      exact ⟨cfg', by simp [hfail], houtcome⟩
    | true =>
      rw [hg] at hr₁ hreq
      cases herror : m.error with
      | some info =>
        have hbad : info ≠ .ok := fun h => hm.error_ne_ok (h ▸ herror)
        obtain ⟨cfg', hfail, houtcome⟩ := fail_spec hr₁ info hbad (line + 1)
        rw [hnext] at hfail
        exact ⟨cfg', by simp [hbad, hfail], houtcome⟩
      | none =>
        rw [herror] at hrun
        cases hrest : text.dropWhile (· ≠ newline) with
        | nil =>
          rw [hrest, List.tail_nil, pieces_nil] at hms
          cases hms
          exact ⟨cfg₁, by simp, hinfo₁.trans hinfo, hline₁.trans hline, hr₁⟩
        | cons c rest =>
          rw [hrest, List.tail_cons] at hms
          have hsuffix : c :: rest <:+ text := hrest ▸ List.dropWhile_suffix _
          have hlen := hsuffix.length_le
          rw [List.length_cons] at hlen
          obtain ⟨cfg', hloop, houtcome⟩ :=
            @ih _ _ (line + 1) _ _ hms hr₁ (hinfo₁.trans hinfo) (hline₁.trans hline) (by omega)
          rw [hnext] at hloop
          rw [hreq rfl herror] at houtcome
          exact ⟨cfg', by simp [hloop], houtcome⟩

/-- Every assignment comes from a line. -/
theorem mem_assignments {lines : List (List UInt8)} {ms : List Line} {x : List UInt8 × List UInt8}
    (hms : List.Forall₂ Means lines ms) (hx : x ∈ assignments ms) :
    ∃ line ∈ lines, Means line (.assign x.1 x.2) := by
  induction hms with
  | nil => cases hx
  | @cons line m lines ms hm _ ih =>
    by_cases hmx : m.assignment = some x
    · cases m <;> cases hmx
      exact ⟨line, List.mem_cons_self, hm⟩
    · have hmem : x ∈ assignments ms := by
        obtain ⟨m', hm', hx'⟩ := List.mem_filterMap.mp hx
        rcases List.mem_cons.mp hm' with rfl | hm'
        · exact absurd hx' hmx
        · exact List.mem_filterMap.mpr ⟨m', hm', hx'⟩
      obtain ⟨line', hline', hmeans⟩ := ih hmem
      exact ⟨line', List.mem_cons_of_mem _ hline', hmeans⟩

/-- `cb_config_parse` does what the reference does, for every text. -/
theorem parse_outcome (ok : Nat → Bool) {text : List UInt8} {ms : List Line}
    (hms : List.Forall₂ Means (pieces text) ms) :
    ∃ cfg, parse ok (some text) text.length = some cfg ∧ Outcome cfg (read ok [] 0 0 ms) := by
  obtain ⟨cfg, hloop, houtcome⟩ := @parseLoop_outcome ok (text.length + 1) _ _ 0 _ _ hms
    .empty rfl rfl (by omega)
  rw [show UInt32.ofNat 0 = 0 from rfl] at hloop
  exact ⟨cfg, by rw [parse, List.take_length, hloop], houtcome⟩

/-- With fewer than `2 ^ 32` lines and no NUL in the text, the line number does not wrap and the values
are C strings. -/
theorem Outcome.refines {ok : Nat → Bool} {cfg : Config} {text : List UInt8} {ms : List Line}
    (hms : List.Forall₂ Means (pieces text) ms) (hnul : 0 ∉ text) (hlines : ms.length < 2 ^ 32)
    (h : Outcome cfg (read ok [] 0 0 ms)) : Refines cfg (read ok [] 0 0 ms) := by
  have herror {info : Info} {line : Nat} (hline : line ≤ ms.length)
      (h : Outcome cfg (.error (info, line))) : Refines cfg (.error (info, line)) := by
    obtain ⟨_, hinfo, hcfg, hr⟩ := h
    refine ⟨hinfo, ?_, hr.repr nofun⟩
    rw [hcfg, UInt32.toNat_ofNat_of_lt' (show line < 2 ^ 32 by omega)]
  have hreading := reading_read ok [] 0 0 ms
  generalize read ok [] 0 0 ms = x at h hreading
  cases hreading with
  | good hgood =>
    obtain ⟨hinfo, hline, hr⟩ := h
    refine ⟨hinfo, hline, hr.repr fun x hx => ?_⟩
    rcases mem_assignAll hx with hx | hx
    · obtain ⟨line, hmem, hmeans⟩ := mem_assignments hms hx
      exact (hmeans.nulFree fun h0 => hnul (pieces_subset hmem h0)).2
    · cases hx
  | bad => exact herror (by simp) h
  | denied => exact herror (by simp) h

/-! ## The result -/

structure Emptied (cfg : Config) : Prop where
  count : cfg.count = 0
  get : ∀ key, get cfg key = some none

theorem Repr.emptied {cfg : Config} (hr : Repr cfg []) : Emptied cfg :=
  ⟨hr.count, fun key => get_spec hr key⟩

/-- The result for lines of the meanings `ms`: every key once, where it was first assigned and with the
value it was last assigned, or the first error. -/
inductive Reference (ms : List Line) (cfg : Config) : Prop
  | good : AllGood ms → cfg.info = .ok → cfg.errorLine = 0 →
      cfg.keyList = ((assignments ms).map Prod.fst).eraseDups → cfg.count.toNat = cfg.keyList.length →
      (∀ key, get cfg key = some ((assignments ms).reverse.lookup key)) → Reference ms cfg
  | bad {pre post : List Line} {m : Line} {info : Info} : ms = pre ++ m :: post → AllGood pre →
      m.error = some info → cfg.info = info → cfg.errorLine.toNat = pre.length + 1 →
      Emptied cfg → Reference ms cfg

/-- The result when the line behind the good lines `pre` is the first that is not granted its
memory. -/
inductive Denied (ok : Nat → Bool) (ms : List Line) (cfg : Config) : Prop
  | intro {pre post : List Line} {m : Line} : ms = pre ++ m :: post → AllGood pre →
      granted ok 0 (requestsAll [] pre) = true →
      granted ok (requestsAll [] pre) (m.requests (assignAll (assignments pre) [])) = false →
      cfg.info = .configAllocFailed → cfg.errorLine.toNat = pre.length + 1 → Emptied cfg →
      Denied ok ms cfg

theorem Repr.good {cfg : Config} {ms : List Line} (hr : Repr cfg (assignAll (assignments ms) []))
    (hms : AllGood ms) (hlines : ms.length < 2 ^ 32) (hinfo : cfg.info = .ok)
    (hline : cfg.errorLine = 0) : Reference ms cfg := by
  refine .good hms hinfo hline ?_ ?_ fun key => ?_
  · rw [keys_spec hr.holds, keys_assignAll]
  · have hstore := length_assignAll_le (assignments ms) []
    have hassign : (assignments ms).length ≤ ms.length := List.length_filterMap_le ..
    rw [List.length_nil] at hstore
    rw [keys_spec hr.holds, keys, List.length_map, hr.count,
      UInt32.toNat_ofNat_of_lt' (show _ < 2 ^ 32 by omega)]
  · rw [get_spec hr, lookup_assignAll]

theorem meanings_exist (lines : List (List UInt8)) : ∃ ms, List.Forall₂ Means lines ms := by
  induction lines with
  | nil => exact ⟨[], .nil⟩
  | cons line lines ih =>
    obtain ⟨m, hm⟩ := means_exists line
    obtain ⟨ms, hms⟩ := ih
    exact ⟨m :: ms, .cons hm hms⟩

/-- `cb_config_parse` returns the reference's result for the lines of its text, or reports the line that
was denied memory. -/
theorem parse_reference (text : List UInt8) (hnul : 0 ∉ text)
    (hlines : (pieces text).length < 2 ^ 32) (ok : Nat → Bool) :
    (∃ ms, List.Forall₂ Means (pieces text) ms) ∧
    ∀ ms, List.Forall₂ Means (pieces text) ms →
      ∃ cfg, parse ok (some text) text.length = some cfg ∧
        ((∀ n, ok n = true) → Reference ms cfg) ∧ (Reference ms cfg ∨ Denied ok ms cfg) := by
  refine ⟨meanings_exist _, fun ms hms => ?_⟩
  rw [hms.length_eq] at hlines
  obtain ⟨cfg, hparse, houtcome⟩ := parse_outcome ok hms
  have hrefines := houtcome.refines hms hnul hlines
  refine ⟨cfg, hparse, ?_⟩
  have hreading := reading_read ok [] 0 0 ms
  generalize read ok [] 0 0 ms = x at hrefines hreading
  cases hreading with
  | good hgood =>
    obtain ⟨hinfo, hline, hr⟩ := hrefines
    have href := hr.good hgood hlines hinfo hline
    exact ⟨fun _ => href, .inl href⟩
  | @bad pre post m info hpre herror =>
    obtain ⟨hinfo, hline, hr⟩ := hrefines
    have href : Reference (pre ++ m :: post) cfg := .bad rfl hpre herror hinfo (by omega) hr.emptied
    exact ⟨fun _ => href, .inl href⟩
  | denied hpre hg hdenied =>
    obtain ⟨hinfo, hline, hr⟩ := hrefines
    rw [Nat.zero_add] at hdenied
    refine ⟨fun hall => ?_, .inr (.intro rfl hpre hg hdenied hinfo (by omega) hr.emptied)⟩
    rw [granted_of_all hall] at hdenied
    cases hdenied

/-- Two assignments to `a` around one to `b`, with a comment and a carriage return: the store has `a`
with its second value, then `b`, and no other key. -/
theorem parse_reference_override : ∃ cfg,
    parse (fun _ => true) (some "a=1\n#c\nb = \"x\"\r\na=2".toUTF8.toList) 19 = some cfg ∧
    cfg.info = .ok ∧ cfg.errorLine = 0 ∧ cfg.keyList = [[0x61], [0x62]] ∧ cfg.count.toNat = 2 ∧
    get cfg [0x61] = some (some [0x32]) ∧ get cfg [0x62] = some (some [0x78]) ∧
    ∀ key, key ≠ [0x61] → key ≠ [0x62] → get cfg key = some none := by
  have hpieces : pieces "a=1\n#c\nb = \"x\"\r\na=2".toUTF8.toList =
      [[0x61, 0x3D, 0x31], [0x23, 0x63], [0x62, 0x20, 0x3D, 0x20, 0x22, 0x78, 0x22],
        [0x61, 0x3D, 0x32]] := by
    decide +kernel
  have hdigit (d : UInt8) (hcomment : ¬ IsComment d) (hblank : ¬ IsBlank d) (hquote : d ≠ 0x22) :
      Means [0x61, 0x3D, d] (.assign [0x61] [d]) := by
    refine @Means.plain [0x61] [d] (by simp) (keyValid_iff.mp rfl) (by simpa using hcomment) ?_ ?_
    · rintro c ⟨⟩
      exact ⟨hblank, hquote⟩
    · rintro c ⟨⟩
      exact hblank
  have hcomment : Means ([] ++ 0x23 :: [0x63]) .skip := .comment (by simp) nofun (.inl rfl)
  have hclose : Quoted [0x22] (.ok []) := .close ⟨[], [], rfl, nofun, nofun⟩
  have hvalue : Value ([0x20] ++ 0x22 :: [0x78, 0x22]) (.ok [0x78]) :=
    .quoted (by simp [AllBlank, IsBlank]) (.plain (by decide) (by decide) hclose)
  have hquoted : Means ([] ++ ([0x62] ++ ([0x20] ++ 0x3D :: [0x20, 0x22, 0x78, 0x22])))
      (.assign [0x62] [0x78]) :=
    .assign (by simp) nofun (by simp [AllBlank, IsBlank]) (keyValid_iff.mp rfl) hvalue
  have hms : List.Forall₂ Means (pieces "a=1\n#c\nb = \"x\"\r\na=2".toUTF8.toList)
      [.assign [0x61] [0x31], .skip, .assign [0x62] [0x78], .assign [0x61] [0x32]] := by
    rw [hpieces]
    exact .cons (hdigit 0x31 (by decide) (by decide) (by decide)) (.cons hcomment (.cons hquoted
      (.cons (hdigit 0x32 (by decide) (by decide) (by decide)) .nil)))
  obtain ⟨cfg, hcfg, href, -⟩ := (parse_reference "a=1\n#c\nb = \"x\"\r\na=2".toUTF8.toList
    (by decide +kernel) (by decide +kernel) fun _ => true).2 _ hms
  rw [show "a=1\n#c\nb = \"x\"\r\na=2".toUTF8.toList.length = 19 by decide +kernel] at hcfg
  refine ⟨cfg, hcfg, ?_⟩
  cases href fun _ => rfl with
  | @bad p post m info hsplit _ herror =>
    have hgood : AllGood [.assign [0x61] [0x31], .skip, .assign [0x62] [0x78],
        .assign [0x61] [0x32]] := by
      simp [AllGood, Line.error]
    rw [hgood m (by simp [hsplit])] at herror
    cases herror
  | good _ hinfo hline hkeys hcount hget =>
    refine ⟨hinfo, hline, hkeys, hcount.trans (by rw [hkeys]; rfl), hget _, hget _, ?_⟩
    intro key ha hb
    rw [hget, List.lookup_eq_none_iff.mpr]
    intro x hx
    rw [bne_iff_ne]
    have hx : x.1 = [0x61] ∨ x.1 = [0x62] := by
      simp only [assignments, Line.assignment, List.filterMap_cons, List.filterMap_nil,
        List.mem_reverse, List.mem_cons, List.not_mem_nil, or_false] at hx
      rcases hx with rfl | rfl | rfl
      · exact .inl rfl
      · exact .inr rfl
      · exact .inl rfl
    rcases hx with hx | hx
    · rwa [hx]
    · rwa [hx]

end CBase.Config
