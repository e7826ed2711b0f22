import CBase.Config.Entries
import CBase.Config.Syntax

/-!
# The parser follows the grammar

The tests of the code on single bytes are the ones of the grammar. `decodeValue` computes the value of
a right-hand side (`decodeValue_of`), and `parseLine` does what a line means (`parseLine_of`). Every
line has a meaning (`means_exists`).
-/

namespace CBase.Config

/-! ## Characters -/

theorem forall_byte {p : UInt8 → Prop} (h : ∀ n : Fin 256, p (UInt8.ofFin n)) (c : UInt8) :
    p c := by
  simpa using h c.toFin

theorem isSpace_iff {c : UInt8} : isSpace c = true ↔ IsBlank c := by
  simp [isSpace, IsBlank, or_assoc]

theorem isSpace_eq_false_iff {c : UInt8} : isSpace c = false ↔ ¬ IsBlank c := by
  rw [← isSpace_iff, Bool.not_eq_true]

theorem isComment_iff {c : UInt8} : IsComment c ↔ c = hash ∨ c = semicolon := Iff.rfl

theorem keyHeadOk_iff (c : UInt8) : keyHeadOk c = true ↔ IsLetter c :=
  forall_byte (p := fun c => keyHeadOk c = true ↔ IsLetter c) (by decide +kernel) c

theorem keyTailOk_iff (c : UInt8) : keyTailOk c = true ↔ IsKeyByte c :=
  forall_byte (p := fun c => keyTailOk c = true ↔ IsKeyByte c) (by decide +kernel) c

/-- `cb__config_key_valid` accepts the keys. -/
theorem keyValid_iff {key : List UInt8} : keyValid key = true ↔ IsKey key := by
  cases key with
  | nil => exact ⟨nofun, nofun⟩
  | cons c t =>
    rw [keyValid, Bool.and_eq_true, List.all_eq_true, keyHeadOk_iff]
    simp only [keyTailOk_iff]
    constructor
    · rintro ⟨hc, ht⟩
      exact .intro hc ht
    · rintro ⟨hc, ht⟩
      exact ⟨hc, ht⟩

/-- The switch behind a backslash knows the five escapes. -/
theorem unescape_iff {e c : UInt8} : unescape e = some c ↔ Escape e c := by
  constructor
  · intro h
    unfold unescape at h
    split_ifs at h with h₁ h₂ h₃ h₄ h₅
    · cases h
      cases h₁
      exact .quote
    · cases h
      cases h₂
      exact .backslash
    · cases h
      cases h₃
      exact .newline
    · cases h
      cases h₄
      exact .tab
    · cases h
      cases h₅
      exact .carriageReturn
  · intro h
    cases h <;> rfl

theorem unescape_none_iff {e : UInt8} : unescape e = none ↔ ∀ c, ¬ Escape e c := by
  rw [Option.eq_none_iff_forall_ne_some]
  exact forall_congr' fun c => not_congr unescape_iff

/-- The loop strips what the grammar strips off a line. -/
theorem stripCr_eq (raw : List UInt8) : stripCr raw = chomp raw := by
  induction raw with
  | nil => rfl
  | cons c t ih =>
    cases t with
    | nil =>
      by_cases hc : c = carriageReturn
      · subst hc
        rfl
      · rw [stripCr, List.getLast?_singleton, if_neg (by simpa using hc)]
        exact (if_neg hc).symm
    | cons d t =>
      rw [chomp, ← ih, stripCr, stripCr, List.getLast?_cons_cons, List.dropLast_cons_cons]
      split <;> rfl

/-! ## Blanks -/

section Blanks

variable {b s t : List UInt8} {c : UInt8}

theorem allBlank_iff : AllBlank b ↔ ∀ c ∈ b, isSpace c = true := by
  simp only [AllBlank, isSpace_iff]

theorem AllBlank.space (hb : AllBlank b) : ∀ c ∈ b, isSpace c = true := allBlank_iff.mp hb

theorem dropWhile_space (hb : AllBlank b) (hc : ¬ IsBlank c) :
    (b ++ c :: t).dropWhile isSpace = c :: t := by
  rw [List.dropWhile_append_of_pos hb.space, List.dropWhile_cons_of_neg (by rwa [isSpace_iff])]

theorem dropWhile_space_nil (hb : AllBlank b) : b.dropWhile isSpace = [] :=
  List.dropWhile_eq_nil_iff.mpr hb.space

/-- Every text is blanks, and then nothing or a character that is not blank. -/
theorem leading_space (s : List UInt8) :
    AllBlank s ∨ ∃ b c t, s = b ++ c :: t ∧ AllBlank b ∧ ¬ IsBlank c := by
  cases h : s.dropWhile isSpace with
  | nil => exact .inl (allBlank_iff.mpr (List.dropWhile_eq_nil_iff.mp h))
  | cons c t =>
    refine .inr ⟨s.takeWhile isSpace, c, t, ?_, allBlank_iff.mpr fun d => List.mem_takeWhile_imp, ?_⟩
    · rw [← h, List.takeWhile_append_dropWhile]
    · have hne : s.dropWhile isSpace ≠ [] := by simp [h]
      rw [← isSpace_eq_false_iff]
      simpa [h] using List.head_dropWhile_not isSpace hne

/-- Stripping the blanks behind a text that does not end with one. -/
theorem rdropWhile_space (hb : AllBlank b) (hs : ∀ c, s.getLast? = some c → ¬ IsBlank c) :
    (s ++ b).rdropWhile isSpace = s := by
  induction b using List.reverseRecOn with
  | nil =>
    rw [List.append_nil, List.rdropWhile_eq_self_iff]
    intro hne
    rw [isSpace_iff]
    exact hs _ (List.getLast?_eq_some_getLast hne)
  | append_singleton b c ih =>
    rw [← List.append_assoc, List.rdropWhile_concat_pos _ _ _ (hb.space c (by simp))]
    exact ih fun d hd => hb d (by simp [hd])

/-- Every text ends with blanks, and before them not with one. -/
theorem trailing_space (s : List UInt8) : ∃ t b, s = t ++ b ∧ AllBlank b ∧
    (∀ c, t.getLast? = some c → ¬ IsBlank c) ∧ t <+: s := by
  refine ⟨s.rdropWhile isSpace, s.rtakeWhile isSpace,
    List.rdropWhile_append_rtakeWhile.symm, allBlank_iff.mpr fun c => List.mem_rtakeWhile_imp, ?_,
    List.rdropWhile_prefix isSpace s⟩
  intro c hc
  have hne : s.rdropWhile isSpace ≠ [] := by
    rintro hnil
    simp [hnil] at hc
  have hlast := List.rdropWhile_last_not isSpace s hne
  rw [List.getLast?_eq_some_getLast hne, Option.some.injEq] at hc
  rwa [hc, isSpace_iff] at hlast

end Blanks

/-! ## Values -/

theorem IsComment.not_blank {c : UInt8} (hc : IsComment c) : ¬ IsBlank c := by
  rcases hc with rfl | rfl <;> decide

theorem quote_not_blank : ¬ IsBlank quote := by
  decide

theorem equals_not_blank : ¬ IsBlank equals := by
  decide

/-- How the walk behind a closing quote recognises a trailer. -/
theorem trailer_iff {t : List UInt8} :
    Trailer t ↔ CommentOrEnd (t.dropWhile isSpace) := by
  constructor
  · rintro ⟨b, u, rfl, hb, hu⟩
    rw [List.dropWhile_append_of_pos hb.space]
    cases u with
    | nil => exact hu
    | cons c u =>
      have hc : ¬ isSpace c = true := by
        rw [isSpace_iff]
        exact (hu c rfl).not_blank
      rwa [List.dropWhile_cons_of_neg hc]
  · intro h
    exact ⟨t.takeWhile isSpace, t.dropWhile isSpace, List.takeWhile_append_dropWhile.symm,
      allBlank_iff.mpr fun c => List.mem_takeWhile_imp, h⟩

theorem push_room {cap : Nat} {out : List UInt8} (h : out.length < cap) (c : UInt8) :
    push cap out c = out ++ [c] := if_pos h

/-- The decoder follows the rules for what stands in quotes. -/
theorem decodeQuoted_of {s : List UInt8} {r : Except Info (List UInt8)} (h : Quoted s r)
    {cap : Nat} {out : List UInt8} (hcap : out.length + s.length ≤ cap) :
    decodeQuoted cap s out = r.map (out ++ ·) := by
  induction h generalizing out with
  | @close t ht =>
    rw [trailer_iff] at ht
    change decodeQuoted cap (quote :: t) out = _
    unfold decodeQuoted
    simp only [if_true, Except.map, List.append_nil]
    split
    · rfl
    · next d _ hd =>
      have hcomment := isComment_iff.mp (ht d (by rw [hd]; rfl))
      rw [if_neg (by tauto)]
  | @trailing t ht =>
    rw [trailer_iff] at ht
    change decodeQuoted cap (quote :: t) out = _
    unfold decodeQuoted
    simp only [if_true, Except.map]
    split
    · next hnil => exact absurd (by simp [CommentOrEnd, hnil]) ht
    · next d u hd =>
      have hno : ¬ IsComment d := fun hc => ht fun e he => by
        rw [hd] at he
        cases he
        exact hc
      rw [isComment_iff, not_or] at hno
      rw [if_pos hno]
  | unterminated => rfl
  | unterminatedEscape => rfl
  | @badEscape e t he =>
    have hne : ¬ backslash = quote := by decide
    change decodeQuoted cap (backslash :: e :: t) out = _
    unfold decodeQuoted
    simp only [hne, if_false, if_true, unescape_none_iff.mpr he, Except.map]
  | @plain c t r hq hb _ ih =>
    rw [List.length_cons] at hcap
    change c ≠ quote at hq
    change c ≠ backslash at hb
    unfold decodeQuoted
    simp only [hq, hb, if_false]
    rw [push_room (by omega), ih (by rw [List.length_append, List.length_singleton]; omega)]
    cases r <;> simp [Except.map]
  | @escape e c t r he _ ih =>
    have hne : ¬ backslash = quote := by decide
    rw [List.length_cons, List.length_cons] at hcap
    change decodeQuoted cap (backslash :: e :: t) out = _
    unfold decodeQuoted
    simp only [hne, if_false, if_true, unescape_iff.mpr he]
    rw [push_room (by omega), ih (by rw [List.length_append, List.length_singleton]; omega)]
    cases r <;> simp [Except.map]

theorem quoted_exists : ∀ s : List UInt8, ∃ r, Quoted s r
  | [] => ⟨_, .unterminated⟩
  | c :: t => by
    by_cases hq : c = 0x22
    · subst hq
      by_cases ht : Trailer t
      · exact ⟨_, .close ht⟩
      · exact ⟨_, .trailing ht⟩
    by_cases hb : c = 0x5C
    · subst hb
      match t with
      | [] => exact ⟨_, .unterminatedEscape⟩
      | e :: t =>
        cases he : unescape e with
        | none => exact ⟨_, .badEscape (unescape_none_iff.mp he)⟩
        | some d =>
          obtain ⟨r, hr⟩ := quoted_exists t
          exact ⟨_, .escape (unescape_iff.mp he) hr⟩
    · obtain ⟨r, hr⟩ := quoted_exists t
      exact ⟨_, .plain hq hb hr⟩

/-- The value in front of a comment, with the blanks behind it. -/
theorem takeWhile_value {v b' t : List UInt8} (hb' : AllBlank b') (ht : CommentOrEnd t)
    (hv : ∀ c ∈ v, ¬ IsComment c) :
    ((v ++ (b' ++ t)).takeWhile fun c => c ≠ hash ∧ c ≠ semicolon) = v ++ b' := by
  rw [← List.append_assoc, List.takeWhile_append_of_pos, (?_ : t.takeWhile _ = []),
    List.append_nil]
  · cases t with
    | nil => rfl
    | cons c t =>
      have hc := isComment_iff.mp (ht c rfl)
      rw [List.takeWhile_cons_of_neg]
      simpa [imp_iff_not_or, or_comm] using hc
  · intro c hc
    have hno : ¬ IsComment c := by
      rcases List.mem_append.mp hc with hc | hc
      · exact hv c hc
      · exact fun hcom => hcom.not_blank (hb' c hc)
    simpa [isComment_iff] using hno

/-- `cb__config_decode_value` follows the rules, when the buffer is as long as the text. -/
theorem decodeValue_of {s : List UInt8} {r : Except Info (List UInt8)} (h : Value s r) {cap : Nat}
    (hcap : s.length ≤ cap) : decodeValue s cap = r := by
  cases h with
  | @unquoted b v b' t hb hb' ht hv hhead hlast =>
    have hstop := takeWhile_value hb' ht hv
    have hlen : (v.take cap) = v := by
      rw [List.take_of_length_le]
      simp only [List.length_append] at hcap
      omega
    unfold decodeValue
    rw [List.dropWhile_append_of_pos hb.space]
    cases v with
    | nil =>
      rw [List.nil_append, List.dropWhile_append_of_pos hb'.space]
      cases t with
      | nil => rfl
      | cons c t =>
        have hcom := ht c rfl
        have hc := isComment_iff.mp hcom
        have hq : c ≠ quote := by
          rcases hc with rfl | rfl <;> decide
        rw [List.dropWhile_cons_of_neg (by rw [isSpace_iff]; exact hcom.not_blank)]
        simp only [hq, if_false]
        rw [List.takeWhile_cons_of_neg (by simpa [imp_iff_not_or, or_comm] using hc),
          List.rdropWhile_nil, List.take_nil]
    | cons c v =>
      obtain ⟨hc, hq⟩ := hhead c rfl
      change c ≠ quote at hq
      rw [List.cons_append] at hstop ⊢
      rw [List.dropWhile_cons_of_neg (by rwa [isSpace_iff])]
      simp only [hq, if_false]
      rw [hstop, rdropWhile_space hb' hlast, hlen]
  | @quoted b s r hb hs =>
    change decodeValue (b ++ quote :: s) cap = r
    unfold decodeValue
    rw [dropWhile_space hb quote_not_blank]
    simp only [if_true]
    rw [decodeQuoted_of hs (by simp only [List.length_append, List.length_cons] at hcap; simp; omega)]
    cases r <;> simp [Except.map]

theorem head_dropWhile {p : UInt8 → Bool} {s : List UInt8} {c : UInt8}
    (h : (s.dropWhile p).head? = some c) : p c = false := by
  have hnot := List.head?_dropWhile_not p s
  rwa [h] at hnot

theorem value_exists (s : List UInt8) : ∃ r, Value s r := by
  rcases leading_space s with hs | ⟨b, c, t, rfl, hb, hc⟩
  · have hempty : Value (s ++ ([] ++ ([] ++ []))) (.ok []) :=
      .unquoted hs (fun c hc => nomatch hc) (fun c hc => nomatch hc) (fun c hc => nomatch hc)
        (fun c hc => nomatch hc) (fun c hc => nomatch hc)
    exact ⟨_, by simpa using hempty⟩
  by_cases hq : c = 0x22
  · subst hq
    obtain ⟨r, hr⟩ := quoted_exists t
    exact ⟨_, .quoted hb hr⟩
  · obtain ⟨v, b', hw, hb', hlast, hpre⟩ :=
      trailing_space ((c :: t).takeWhile fun c => ¬ IsComment c)
    have hall : c :: t = v ++ (b' ++ (c :: t).dropWhile fun c => ¬ IsComment c) := by
      rw [← List.append_assoc, ← hw, List.takeWhile_append_dropWhile]
    refine ⟨.ok v, ?_⟩
    rw [hall]
    refine .unquoted hb hb' (fun d hd => ?_) (fun d hd => ?_) (fun d hd => ?_) hlast
    · simpa using head_dropWhile hd
    · simpa using List.mem_takeWhile_imp (hpre.subset hd)
    · cases v with
      | nil => cases hd
      | cons e v =>
        cases hd
        obtain ⟨rfl, _⟩ := List.cons.inj hall
        exact ⟨hc, hq⟩

/-! ## Lines -/

/-- What `parseLine` does for a line of a meaning. A good key makes it ask for the memory of the
decoded value. -/
def Line.run (ok : Nat → Bool) (cfg : Config) : Line → Option (Info × Config)
  | .skip => some (.ok, cfg)
  | .bad info => some (info, cfg)
  | .badValue info =>
    let (got, cfg) := cfg.request ok
    if !got then some (.configAllocFailed, cfg) else some (info, cfg)
  | .assign key value =>
    let (got, cfg) := cfg.request ok
    if !got then some (.configAllocFailed, cfg) else set ok cfg key value

theorem IsKeyByte.spec {c : UInt8} (h : IsKeyByte c) :
    ¬ IsBlank c ∧ ¬ IsComment c ∧ c ≠ equals ∧ c ≠ 0 :=
  forall_byte (p := fun c => IsKeyByte c → ¬ IsBlank c ∧ ¬ IsComment c ∧ c ≠ equals ∧ c ≠ 0)
    (by decide +kernel) c h

theorem IsKey.bytes {key : List UInt8} (hk : IsKey key) : ∀ c ∈ key, IsKeyByte c := by
  cases hk with
  | intro hc ht =>
    rintro d (_ | ⟨_, hd⟩)
    · exact .inl hc
    · exact ht d hd

/-- A key is what `split_equals` asks of the text in front of the `=`. -/
theorem IsKey.head {key : List UInt8} (hk : IsKey key) :
    (∀ c, key.head? = some c → ¬ IsBlank c ∧ ¬ IsComment c) ∧
    (∀ c, key.getLast? = some c → ¬ IsBlank c) ∧ equals ∉ key := by
  refine ⟨fun c hc => ?_, fun c hc => (hk.bytes c (List.mem_of_getLast? hc)).spec.1, fun hm =>
    (hk.bytes _ hm).spec.2.2.1 rfl⟩
  obtain ⟨hblank, hcomment, -⟩ := (hk.bytes c (List.mem_of_head? hc)).spec
  exact ⟨hblank, hcomment⟩

theorem IsKey.nulFree {key : List UInt8} (hk : IsKey key) : 0 ∉ key := fun hm =>
  (hk.bytes 0 hm).spec.2.2.2 rfl

theorem AllBlank.no_equals {b : List UInt8} (hb : AllBlank b) : equals ∉ b := fun hm =>
  equals_not_blank (hb equals hm)

/-- Splitting a line at its `=`. -/
theorem split_equals {b key b' rhs : List UInt8} (hb : AllBlank b) (hb' : AllBlank b')
    (hkey : equals ∉ key)
    (hhead : ∀ c, key.head? = some c → ¬ IsBlank c ∧ ¬ IsComment c)
    (hlast : ∀ c, key.getLast? = some c → ¬ IsBlank c) :
    ∃ c t, (b ++ (key ++ (b' ++ equals :: rhs))).dropWhile isSpace = c :: t ∧ ¬ IsComment c ∧
      (c :: t).dropWhile (· ≠ equals) = equals :: rhs ∧
      ((c :: t).takeWhile (· ≠ equals)).rdropWhile isSpace = key := by
  have hsplit {s : List UInt8} (hs : equals ∉ s) :
      (s ++ equals :: rhs).dropWhile (· ≠ equals) = equals :: rhs ∧
      (s ++ equals :: rhs).takeWhile (· ≠ equals) = s := by
    have hall : ∀ c ∈ s, decide (c ≠ equals) = true := fun c hc => by
      simpa using fun h : c = equals => hs (h ▸ hc)
    rw [List.dropWhile_append_of_pos hall, List.takeWhile_append_of_pos hall]
    simp
  rw [List.dropWhile_append_of_pos hb.space]
  cases key with
  | nil =>
    rw [List.nil_append, List.dropWhile_append_of_pos hb'.space,
      List.dropWhile_cons_of_neg (by decide)]
    refine ⟨equals, rhs, rfl, by decide, ?_, ?_⟩
    · exact (hsplit (s := []) (by simp)).1
    · rw [← List.nil_append (equals :: rhs), (hsplit (s := []) (by simp)).2]
      rfl
  | cons c t =>
    obtain ⟨hc, hcom⟩ := hhead c rfl
    have hs : equals ∉ (c :: t) ++ b' := by
      rw [List.mem_append, not_or]
      exact ⟨hkey, hb'.no_equals⟩
    rw [List.cons_append, List.dropWhile_cons_of_neg (by rwa [isSpace_iff])]
    refine ⟨c, _, rfl, hcom, ?_, ?_⟩
    · rw [← List.cons_append, ← List.append_assoc, (hsplit hs).1]
    · rw [← List.cons_append, ← List.append_assoc, (hsplit hs).2, rdropWhile_space hb' hlast]

/-- A line with a key and an `=`. -/
theorem parseLine_equals {b key b' rhs : List UInt8} (hb : AllBlank b) (hb' : AllBlank b')
    (heq : equals ∉ key)
    (hhead : ∀ c, key.head? = some c → ¬ IsBlank c ∧ ¬ IsComment c)
    (hlast : ∀ c, key.getLast? = some c → ¬ IsBlank c) (ok : Nat → Bool) (cfg : Config) :
    parseLine ok cfg (b ++ (key ++ (b' ++ equals :: rhs))) =
      if keyValid key = true then
        (match decodeValue rhs rhs.length with
          | .error info => Line.badValue info
          | .ok value => Line.assign key value).run ok cfg
      else some (.configBadKey, cfg) := by
  obtain ⟨c, t, hdrop, hcom, hafter, hbefore⟩ := split_equals hb hb' heq hhead hlast
  unfold parseLine
  rw [hdrop]
  simp only [isComment_iff.not.mp hcom, if_false]
  rw [hafter, hbefore]
  cases hkey : keyValid key with
  | false => rfl
  | true => cases hvalue : decodeValue rhs rhs.length <;> simp only [hvalue] <;> rfl

/-- `cb__config_parse_line` follows the meaning of a line. -/
theorem parseLine_of {line : List UInt8} {m : Line} (h : Means line m)
    (hlen : line.length ≤ lineMax) (ok : Nat → Bool) (cfg : Config) :
    parseLine ok cfg line = m.run ok cfg := by
  have hmax : lineMax = 4096 := rfl
  cases h with
  | tooLong hlong => omega
  | blank _ hb =>
    unfold parseLine
    rw [dropWhile_space_nil hb]
    rfl
  | comment _ hb hc =>
    unfold parseLine
    rw [dropWhile_space hb hc.not_blank]
    exact if_pos hc
  | @noEquals b t c _ hb hc hcom heq =>
    have hall : ∀ d ∈ c :: t, decide (d ≠ equals) = true := by
      intro d hd
      rw [decide_eq_true_eq]
      rintro rfl
      exact heq hd
    unfold parseLine
    rw [dropWhile_space hb hc]
    simp only [isComment_iff.not.mp hcom, if_false]
    rw [List.dropWhile_eq_nil_iff.mpr hall]
    rfl
  | @badKey b key b' rhs _ hb hb' heq hhead hlast hkey =>
    exact (parseLine_equals hb hb' heq hhead hlast ok cfg).trans (if_neg (keyValid_iff.not.mpr hkey))
  | @badValue b key b' rhs info _ hb hb' hkey hvalue =>
    obtain ⟨hhead, hlast, heq⟩ := hkey.head
    refine (parseLine_equals hb hb' heq hhead hlast ok cfg).trans ?_
    rw [if_pos (keyValid_iff.mpr hkey), decodeValue_of hvalue (Nat.le_refl _)]
  | @assign b key b' rhs v _ hb hb' hkey hvalue =>
    obtain ⟨hhead, hlast, heq⟩ := hkey.head
    refine (parseLine_equals hb hb' heq hhead hlast ok cfg).trans ?_
    rw [if_pos (keyValid_iff.mpr hkey), decodeValue_of hvalue (Nat.le_refl _)]

/-- Every line means something. -/
theorem means_exists (line : List UInt8) : ∃ m, Means line m := by
  by_cases hlen : 4096 < line.length
  · exact ⟨_, .tooLong hlen⟩
  rw [Nat.not_lt] at hlen
  rcases leading_space line with hs | ⟨b, c, t, rfl, hb, hc⟩
  · exact ⟨_, .blank hlen hs⟩
  by_cases hcom : IsComment c
  · exact ⟨_, .comment hlen hb hcom⟩
  by_cases heq : equals ∈ c :: t
  · obtain ⟨lhs, rhs, hct, hlhs⟩ := List.eq_append_cons_of_mem heq
    obtain ⟨key, b', rfl, hb', hlast, -⟩ := trailing_space lhs
    have hkeyeq : equals ∉ key := fun hm => hlhs (List.mem_append_left _ hm)
    rw [hct, List.append_assoc] at hlen ⊢
    by_cases hkey : IsKey key
    · obtain ⟨r, hr⟩ := value_exists rhs
      cases r with
      | error info => exact ⟨_, .badValue hlen hb hb' hkey hr⟩
      | ok v => exact ⟨_, .assign hlen hb hb' hkey hr⟩
    · refine ⟨_, .badKey hlen hb hb' hkeyeq (fun d hd => ?_) hlast hkey⟩
      cases key with
      | nil => cases hd
      | cons e key =>
        cases hd
        obtain ⟨rfl, -⟩ := List.cons.inj hct
        exact ⟨hc, hcom⟩
  · exact ⟨_, .noEquals hlen hb hc hcom heq⟩

/-- A line `k=v` without blanks, quotes and comments. -/
theorem Means.plain {key v : List UInt8} (hlen : (key ++ 0x3D :: v).length ≤ 4096)
    (hkey : IsKey key) (hv : ∀ c ∈ v, ¬ IsComment c)
    (hhead : ∀ c, v.head? = some c → ¬ IsBlank c ∧ c ≠ 0x22)
    (hlast : ∀ c, v.getLast? = some c → ¬ IsBlank c) :
    Means (key ++ 0x3D :: v) (.assign key v) := by
  have hvalue : Value ([] ++ (v ++ ([] ++ []))) (.ok v) :=
    .unquoted nofun nofun nofun hv hhead hlast
  rw [List.nil_append, List.nil_append, List.append_nil] at hvalue
  have hmeans : Means ([] ++ (key ++ ([] ++ 0x3D :: v))) (.assign key v) :=
    .assign (by simpa using hlen) nofun nofun hkey hvalue
  rwa [List.nil_append, List.nil_append] at hmeans

/-! ## Values are C strings -/

theorem Escape.ne_zero {e c : UInt8} (h : Escape e c) : c ≠ 0 := by
  cases h <;> decide

theorem Quoted.nulFree {s : List UInt8} {r : Except Info (List UInt8)} (h : Quoted s r)
    (hs : 0 ∉ s) : ∀ v, r = .ok v → 0 ∉ v := by
  induction h with
  | close => rintro _ ⟨⟩; simp
  | trailing => rintro _ ⟨⟩
  | unterminated => rintro _ ⟨⟩
  | unterminatedEscape => rintro _ ⟨⟩
  | badEscape => rintro _ ⟨⟩
  | @plain c t r _ _ _ ih =>
    rw [List.mem_cons, not_or] at hs
    cases r with
    | error info => rintro _ ⟨⟩
    | ok v =>
      rintro _ ⟨⟩
      rw [List.mem_cons, not_or]
      exact ⟨hs.1, ih hs.2 v rfl⟩
  | @escape e c t r he _ ih =>
    rw [List.mem_cons, List.mem_cons, not_or, not_or] at hs
    cases r with
    | error info => rintro _ ⟨⟩
    | ok v =>
      rintro _ ⟨⟩
      rw [List.mem_cons, not_or]
      exact ⟨he.ne_zero.symm, ih hs.2.2 v rfl⟩

theorem Value.nulFree {s v : List UInt8} (h : Value s (.ok v)) (hs : 0 ∉ s) : 0 ∉ v := by
  cases h with
  | unquoted => exact fun hm => hs (by simp [hm])
  | quoted _ hq =>
    rw [List.mem_append, List.mem_cons, not_or, not_or] at hs
    exact hq.nulFree hs.2.2 v rfl

/-- A key has no NUL, whatever the line. -/
theorem Means.key_nulFree {line key value : List UInt8} (h : Means line (.assign key value)) :
    0 ∉ key := by
  cases h with
  | assign _ _ _ hkey => exact hkey.nulFree

/-- The keys and values of a line without NUL have none. -/
theorem Means.nulFree {line key value : List UInt8} (h : Means line (.assign key value))
    (hline : 0 ∉ line) : 0 ∉ key ∧ 0 ∉ value := by
  cases h with
  | assign _ _ _ hkey hvalue =>
    refine ⟨hkey.nulFree, hvalue.nulFree fun hm => hline ?_⟩
    simp [hm]

end CBase.Config
