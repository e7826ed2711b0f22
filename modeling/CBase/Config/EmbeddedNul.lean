import CBase.Config.Integers
import CBase.Config.Parse

/-!
# NUL bytes in a config text

A text may hold NUL bytes, and an entry is a C string. The key validator rejects a NUL in a key; a NUL
in a value is stored like any other byte, and the string that `cb_config_get` returns ends there.

* `valuePart`: the bytes of a right-hand side that belong to its value.
* `Whole`: a key has its value, and the integer getters accept no less than the whole value.
* `whole_iff_no_nul`: that holds exactly of the keys whose last assignment has no NUL in its value part.
* `nul_shortens_value`: a text whose value is cut.
-/

namespace CBase.Config

open Assoc

def quotedPart : List UInt8 → List UInt8
  | [] => []
  | c :: s =>
    if c = quote then []
    else if c = backslash then
      match s with
      | [] => [c]
      | e :: s => c :: e :: quotedPart s
    else c :: quotedPart s

/-- The part of a right-hand side that is its value: what stands between the quotes, or in front of the
comment. -/
def valuePart (s : List UInt8) : List UInt8 :=
  match s.dropWhile isSpace with
  | [] => []
  | c :: rest =>
    if c = quote then quotedPart rest
    else (c :: rest).takeWhile fun c => c ≠ hash ∧ c ≠ semicolon

def rightHandSide (line : List UInt8) : List UInt8 := (line.dropWhile (· ≠ equals)).tail

/-- The line of a text that assigns a key last, and the value that it assigns. -/
structure LastAssignment (text key value line : List UInt8) : Prop where
  means : Means line (.assign key value)
  last : ∃ pre post, pieces text = pre ++ line :: post ∧
    ∀ l ∈ post, ∀ v, ¬ Means l (.assign key v)

/-- The lookups of a key see its whole value. -/
structure Whole (cfg : Config) (key value : List UInt8) : Prop where
  get : get cfg key = some (some value)
  i64 : ∀ fallback r, getI64 cfg key fallback = some r → r.info = .ok → IsInteger value
  u64 : ∀ fallback r, getU64 cfg key fallback = some r → r.info = .ok → IsDecimal value

/-! ## Where the NULs of a value come from -/

theorem quotedPart_close (t : List UInt8) : quotedPart (0x22 :: t) = [] := by
  rw [quotedPart.eq_def]
  exact if_pos rfl

theorem quotedPart_escape (e : UInt8) (t : List UInt8) :
    quotedPart (0x5C :: e :: t) = 0x5C :: e :: quotedPart t := by
  rw [quotedPart.eq_def]
  exact (if_neg (by decide)).trans (if_pos rfl)

theorem quotedPart_plain {c : UInt8} (hq : c ≠ 0x22) (hb : c ≠ 0x5C) (t : List UInt8) :
    quotedPart (c :: t) = c :: quotedPart t := by
  rw [quotedPart.eq_def]
  exact (if_neg hq).trans (if_neg hb)

theorem mem_quotedPart {s : List UInt8} {r : Except Info (List UInt8)} (h : Quoted s r) :
    ∀ v, r = .ok v → (0 ∈ v ↔ 0 ∈ quotedPart s) := by
  induction h with
  | close =>
    rintro _ ⟨⟩
    rw [quotedPart_close]
  | trailing => rintro _ ⟨⟩
  | unterminated => rintro _ ⟨⟩
  | unterminatedEscape => rintro _ ⟨⟩
  | badEscape => rintro _ ⟨⟩
  | @plain c t r hq hb _ ih =>
    cases r with
    | error info => rintro _ ⟨⟩
    | ok v =>
      rintro _ ⟨⟩
      rw [quotedPart_plain hq hb, List.mem_cons, List.mem_cons, ih v rfl]
  | @escape e c t r he _ ih =>
    cases r with
    | error info => rintro _ ⟨⟩
    | ok v =>
      rintro _ ⟨⟩
      have hc : (0 : UInt8) ≠ c := he.ne_zero.symm
      have he0 : (0 : UInt8) ≠ e := by
        rintro rfl
        cases he
      have hb0 : (0 : UInt8) ≠ 0x5C := by decide
      rw [quotedPart_escape]
      simp only [List.mem_cons, hc, he0, hb0, false_or, ih v rfl]

theorem AllBlank.nulFree {b : List UInt8} (hb : AllBlank b) : 0 ∉ b := fun hm =>
  absurd (hb 0 hm) (by decide)

/-- A value has a NUL exactly when its part of the text has one. -/
theorem Value.mem_iff {s v : List UInt8} (h : Value s (.ok v)) : 0 ∈ v ↔ 0 ∈ valuePart s := by
  cases h with
  | @quoted b s _ hb hs =>
    change 0 ∈ v ↔ 0 ∈ valuePart (b ++ quote :: s)
    rw [valuePart, dropWhile_space hb quote_not_blank]
    simp only [if_true]
    exact mem_quotedPart hs v rfl
  | @unquoted b v b' t hb hb' ht hv hhead hlast =>
    rw [valuePart, List.dropWhile_append_of_pos hb.space]
    cases v with
    | nil =>
      rw [List.nil_append, List.dropWhile_append_of_pos hb'.space]
      cases t with
      | nil => rfl
      | cons c t =>
        have hc := ht c rfl
        have hq : c ≠ quote := by
          rcases hc with rfl | rfl <;> decide
        have hempty := @takeWhile_value [] [] (c :: t) nofun ht nofun
        rw [List.dropWhile_cons_of_neg (by rw [isSpace_iff]; exact hc.not_blank)]
        simp only [hq, if_false]
        rw [List.nil_append, List.nil_append] at hempty
        rw [hempty, List.append_nil]
    | cons c v =>
      obtain ⟨hc, hq⟩ := hhead c rfl
      change c ≠ quote at hq
      have hstop := takeWhile_value hb' ht hv
      rw [List.cons_append] at hstop ⊢
      rw [List.dropWhile_cons_of_neg (by rwa [isSpace_iff])]
      simp only [hq, if_false]
      rw [hstop, List.mem_append]
      exact (or_iff_left hb'.nulFree).symm

/-! ## Every text -/

theorem rightHandSide_of {b key b' rhs : List UInt8} (hb : AllBlank b) (hb' : AllBlank b')
    (hkey : equals ∉ key) : rightHandSide (b ++ (key ++ (b' ++ equals :: rhs))) = rhs := by
  have hall : ∀ c ∈ b ++ (key ++ b'), decide (c ≠ equals) = true := by
    intro c hc
    rw [decide_eq_true_eq]
    rintro rfl
    simp only [List.mem_append, hb.no_equals, hb'.no_equals, hkey, or_self] at hc
  rw [rightHandSide, ← List.append_assoc key, ← List.append_assoc b,
    List.dropWhile_append_of_pos hall]
  simp

/-- A line that assigns a value: its key has no NUL, and its value has one exactly when the value part
of its text has. -/
theorem Means.mem_iff {line key value : List UInt8} (h : Means line (.assign key value)) :
    0 ∈ value ↔ 0 ∈ valuePart (rightHandSide line) := by
  cases h with
  | @assign b key b' rhs v _ hb hb' hkey hvalue =>
    have hrhs : rightHandSide (b ++ (key ++ (b' ++ 0x3D :: rhs))) = rhs :=
      rightHandSide_of hb hb' hkey.head.2.2
    rw [hrhs]
    exact hvalue.mem_iff

theorem cstr_eq_self_iff {s : List UInt8} : cstr s = s ↔ 0 ∉ s := by
  rw [cstr, List.takeWhile_eq_self_iff]
  simp only [decide_eq_true_eq]
  exact ⟨fun h hm => h 0 hm rfl, fun h c hc heq => h (heq ▸ hc)⟩

/-- What `cb_config_get` returns for a key of a text that was parsed: the value of its last assignment
up to the first NUL. -/
theorem get_lastAssignment {ok : Nat → Bool} {text : List UInt8} {cfg : Config}
    (hparse : parse ok (some text) text.length = some cfg) (hok : cfg.info = .ok)
    {key value line : List UInt8} (hlast : LastAssignment text key value line) :
    get cfg key = some (some (cstr value)) := by
  obtain ⟨pre, post, hpieces, hpost⟩ := hlast.last
  obtain ⟨ms₁, hms₁⟩ := meanings_exist pre
  obtain ⟨ms₂, hms₂⟩ := meanings_exist post
  have hms : List.Forall₂ Means (pieces text) (ms₁ ++ .assign key value :: ms₂) := by
    rw [hpieces]
    exact List.rel_append hms₁ (.cons hlast.means hms₂)
  obtain ⟨cfg', hparse', houtcome⟩ := parse_outcome ok hms
  obtain rfl := Option.some.inj (hparse.symm.trans hparse')
  have hlookup : (assignments (ms₁ ++ .assign key value :: ms₂)).reverse.lookup key = some value := by
    have hnone : (assignments ms₂).reverse.lookup key = none := by
      rw [List.lookup_eq_none_iff]
      intro x hx
      obtain ⟨l, hl, hmeans⟩ := mem_assignments hms₂ (List.mem_reverse.mp hx)
      rw [bne_iff_ne]
      rintro rfl
      exact hpost l hl x.2 hmeans
    have hsplit : assignments (ms₁ ++ .assign key value :: ms₂) =
        assignments ms₁ ++ (key, value) :: assignments ms₂ := List.filterMap_append
    rw [hsplit, List.reverse_append, List.reverse_cons, List.append_assoc, List.lookup_append, hnone]
    simp
  have hreading := reading_read ok [] 0 0 (ms₁ ++ .assign key value :: ms₂)
  generalize read ok [] 0 0 (ms₁ ++ .assign key value :: ms₂) = x at houtcome hreading
  cases x with
  | error e => exact absurd (houtcome.2.1.symm.trans hok) houtcome.1
  | ok s =>
    obtain rfl := hreading.store
    rw [houtcome.2.2.get, lookup_assignAll, hlookup, Option.map_some]

/-- **Embedded NULs.** In a text that was parsed without an error, a key has its whole value exactly
when the value part of its last assignment has no NUL. The line by line form: a line that is accepted
has no NUL in its key, and it has one in its value exactly when its value part has. -/
theorem whole_iff_no_nul {ok : Nat → Bool} {text : List UInt8} {cfg : Config}
    (hparse : parse ok (some text) text.length = some cfg) (hok : cfg.info = .ok) :
    (∀ key value line, LastAssignment text key value line →
      (Whole cfg key value ↔ 0 ∉ valuePart (rightHandSide line))) ∧
    ∀ line ∈ pieces text, ∀ key value, Means line (.assign key value) →
      0 ∉ key ∧ (0 ∈ value ↔ 0 ∈ valuePart (rightHandSide line)) := by
  refine ⟨fun key value line hlast => ?_, fun line _ key value hm => ⟨hm.key_nulFree, hm.mem_iff⟩⟩
  have hget := get_lastAssignment hparse hok hlast
  rw [← hlast.means.mem_iff, ← cstr_eq_self_iff]
  constructor
  · intro hwhole
    simpa [hget] using hwhole.get
  · intro hvalue
    rw [hvalue] at hget
    exact ⟨hget, fun fallback r h hr => parseI64_integer (getTyped_ok hget h nofun hr),
      fun fallback r h hr => parseMagnitude_decimal (getTyped_ok hget h nofun hr)⟩

/-- A value that replaces one with a NUL is whole. -/
theorem whole_iff_no_nul_override : ∃ cfg,
    parse (fun _ => true) (some [0x61, 0x3D, 0x31, 0x00, 0x0A, 0x61, 0x3D, 0x32]) 8 = some cfg ∧
    Whole cfg [0x61] [0x32] := by
  have hlast : LastAssignment [0x61, 0x3D, 0x31, 0x00, 0x0A, 0x61, 0x3D, 0x32] [0x61] [0x32]
      [0x61, 0x3D, 0x32] := by
    refine ⟨@Means.plain [0x61] [0x32] (by decide) (keyValid_iff.mp rfl) (by simp [IsComment]) ?_ ?_,
      [[0x61, 0x3D, 0x31, 0x00]], [], by decide +kernel, nofun⟩
    · rintro c ⟨⟩
      decide
    · rintro c ⟨⟩
      decide
  refine ⟨(parse (fun _ => true) _ 8).get (by decide +kernel), (Option.some_get _).symm,
    ((whole_iff_no_nul (Option.some_get _).symm ?_).1 _ _ _ hlast).mpr ?_⟩
  · decide +kernel
  · decide

/-- The key `a` is assigned `12`, a NUL and `x`, and the lookups see the integer `12`. -/
theorem nul_shortens_value : ∃ cfg,
    parse (fun _ => true) (some [0x61, 0x3D, 0x31, 0x32, 0x00, 0x78]) 6 = some cfg ∧
    cfg.info = .ok ∧
    LastAssignment [0x61, 0x3D, 0x31, 0x32, 0x00, 0x78] [0x61] [0x31, 0x32, 0x00, 0x78]
      [0x61, 0x3D, 0x31, 0x32, 0x00, 0x78] ∧
    get cfg [0x61] = some (some [0x31, 0x32]) ∧ getI64 cfg [0x61] 0 = some ⟨.ok, 12⟩ ∧
    ¬ IsInteger [0x31, 0x32, 0x00, 0x78] ∧ ¬ Whole cfg [0x61] [0x31, 0x32, 0x00, 0x78] := by
  refine ⟨(parse (fun _ => true) _ 6).get (by decide +kernel), (Option.some_get _).symm,
    by decide +kernel, ⟨?_, [], [], by decide +kernel, nofun⟩, by decide +kernel,
    by decide +kernel, ?_, fun hwhole => absurd hwhole.get (by decide +kernel)⟩
  · refine @Means.plain [0x61] [0x31, 0x32, 0x00, 0x78] (by decide) (keyValid_iff.mp rfl)
      (by simp [IsComment]) ?_ ?_
    · rintro c ⟨⟩
      decide
    · rintro c ⟨⟩
      decide
  · rintro (⟨_, hdigits⟩ | ⟨t, ht, _⟩)
    · exact absurd (hdigits 0 (by decide)).1 (by decide)
    · exact absurd (List.cons.inj ht).1 (by decide)

end CBase.Config
