import CBase.Config.Grammar
import CBase.Lib.Memory

/-!
# The value decoder, read by read

`decodeValue` cuts its text with list functions. Here is the same function as the code has it: an
index runs over the text, every read is checked against the bounds of the text, and one outside of
them leaves no result.

* `decodeValueAt_eq`: both are the same function, so no read is out of bounds.
* `QuotedOutcome`: what may stand behind an opening quote, as a sequence of items and what ends it.
* `config_value_exact`: the decoder accepts exactly the grammar, drops nothing, and reports the error
  that comes first.
-/

namespace CBase.Config

open Memory

/-! ## The scanner -/

/-- `while (i < len && p(s[i])) ++i;` -/
def scanWhile (p : UInt8 → Bool) (s : List UInt8) (len i : Nat) : Option Nat :=
  if i < len then do
    let c ← load s i
    if p c then scanWhile p s len (i + 1) else return i
  else return i
termination_by len - i

/-- `while (end > start && cb__config_is_space(s[end - 1])) --end;` -/
def stripSpaces (s : List UInt8) (start : Nat) : Nat → Option Nat
  | 0 => return 0
  | i + 1 =>
    if start < i + 1 then do
      let c ← load s i
      if isSpace c then stripSpaces s start i else return i + 1
    else return i + 1

/-- The value without quotes, from `start` on. -/
def unquotedAt (s : List UInt8) (len cap start : Nat) : Option (Except Info (List UInt8)) := do
  let j ← scanWhile (fun c => c ≠ hash ∧ c ≠ semicolon) s len start
  let stop ← stripSpaces s start j
  let n := if cap < stop - start then cap else stop - start
  let text ← slice s start n
  return .ok text

/-- The walk behind the opening quote. `j` is the index into the text, `out` what was written. -/
def quotedAt (s : List UInt8) (len cap j : Nat) (out : List UInt8) :
    Option (Except Info (List UInt8)) :=
  if j < len then do
    let c ← load s j
    if c = quote then
      let k ← scanWhile isSpace s len (j + 1)
      if k < len then
        let d ← load s k
        if d ≠ hash ∧ d ≠ semicolon then return .error .configParseError
        return .ok out
      return .ok out
    if c = backslash then
      if len ≤ j + 1 then return .error .configUnterminatedString
      let esc ← load s (j + 1)
      match unescape esc with
      | none => return .error .configBadEscape
      | some d => quotedAt s len cap (j + 2) (push cap out d)
    else quotedAt s len cap (j + 1) (push cap out c)
  else return .error .configUnterminatedString
termination_by len - j

/-- `cb__config_decode_value`, for the first `len` bytes of `s`. -/
def decodeValueAt (s : List UInt8) (len cap : Nat) : Option (Except Info (List UInt8)) := do
  let i ← scanWhile isSpace s len 0
  if i < len then
    let c ← load s i
    if c = quote then quotedAt s len cap (i + 1) [] else unquotedAt s len cap i
  else unquotedAt s len cap i

/-! ## Reads stay in bounds -/

section

variable {s t u : List UInt8} {c : UInt8} {i start : Nat}

theorem lt_of_drop (h : s.drop i = c :: t) : i < s.length := by
  by_contra hge
  rw [List.drop_eq_nil_of_le (Nat.le_of_not_lt hge)] at h
  cases h

theorem load_of_drop (h : s.drop i = c :: t) : load s i = some c := by
  rw [load, ← List.head?_drop, h, List.head?_cons]

theorem drop_succ (h : s.drop i = c :: t) : s.drop (i + 1) = t := by
  rw [← List.drop_drop, h, List.drop_succ_cons, List.drop_zero]

theorem drop_add (h : s.drop i = t ++ u) : s.drop (i + t.length) = u := by
  rw [← List.drop_drop, h, List.drop_left]

theorem scanWhile_spec (p : UInt8 → Bool) (h : s.drop i = t) :
    scanWhile p s s.length i = some (i + (t.takeWhile p).length) := by
  induction t generalizing i with
  | nil =>
    have hge : ¬ i < s.length := Nat.not_lt.mpr (List.drop_eq_nil_iff.mp h)
    rw [scanWhile, if_neg hge]
    rfl
  | cons c t ih =>
    rw [scanWhile, if_pos (lt_of_drop h), load_of_drop h]
    simp only [Option.bind_eq_bind, Option.bind_some]
    cases hc : p c with
    | false =>
      rw [List.takeWhile_cons_of_neg (by simp [hc])]
      rfl
    | true =>
      rw [if_pos rfl, ih (drop_succ h), List.takeWhile_cons_of_pos hc, List.length_cons,
        Nat.add_right_comm, Nat.add_assoc]

/-- What stands where a scan ends. -/
theorem drop_scan (p : UInt8 → Bool) (h : s.drop i = t) :
    s.drop (i + (t.takeWhile p).length) = t.dropWhile p :=
  drop_add (h.trans List.takeWhile_append_dropWhile.symm)

theorem stripSpaces_spec (h : s.drop start = t ++ u) :
    stripSpaces s start (start + t.length) = some (start + (t.rdropWhile isSpace).length) := by
  induction t using List.reverseRecOn generalizing u with
  | nil =>
    cases start with
    | zero => rfl
    | succ start => exact if_neg (Nat.lt_irrefl _)
  | append_singleton t c ih =>
    rw [List.append_assoc] at h
    rw [List.length_append, List.length_singleton, ← Nat.add_assoc, stripSpaces,
      if_pos (by omega), load_of_drop (drop_add h)]
    simp only [Option.bind_eq_bind, Option.bind_some]
    cases hc : isSpace c with
    | false =>
      rw [List.rdropWhile_concat_neg _ _ _ (by simp [hc]), List.length_append,
        List.length_singleton]
      rfl
    | true => rw [if_pos rfl, ih h, List.rdropWhile_concat_pos _ _ _ hc]

/-- The text in front of a comment, without the blanks behind it. -/
def uncommented (t : List UInt8) : List UInt8 :=
  (t.takeWhile fun c => ¬ IsComment c).rdropWhile fun c => IsBlank c

theorem isSpace_eq : isSpace = fun c => decide (IsBlank c) :=
  funext fun c => by rw [Bool.eq_iff_iff, isSpace_iff, decide_eq_true_eq]

theorem not_comment_eq :
    (fun c => decide (c ≠ hash ∧ c ≠ semicolon)) = fun c => decide (¬ IsComment c) :=
  funext fun c => decide_eq_decide.mpr (by rw [isComment_iff, not_or])

/-- What the code cuts off. -/
theorem uncommented_eq (t : List UInt8) : uncommented t =
    (t.takeWhile fun c => c ≠ hash ∧ c ≠ semicolon).rdropWhile isSpace := by
  rw [uncommented, isSpace_eq, not_comment_eq]

theorem uncommented_nil : uncommented [] = [] := by
  rw [uncommented, List.takeWhile_nil, List.rdropWhile_nil]

theorem uncommented_isPrefix (t : List UInt8) : uncommented t <+: t :=
  (List.rdropWhile_prefix _ _).trans (List.takeWhile_prefix _)

theorem unquotedAt_spec (cap : Nat) (h : s.drop start = t) (hstart : start ≤ s.length) :
    unquotedAt s s.length cap start = some (.ok ((uncommented t).take cap)) := by
  obtain ⟨u, hu⟩ := uncommented_isPrefix t
  have hlen : start + t.length = s.length := by
    rw [← h, List.length_drop, Nat.add_sub_cancel' hstart]
  have hle : (uncommented t).length ≤ t.length := (uncommented_isPrefix t).length_le
  have hn : (if cap < (uncommented t).length then cap else (uncommented t).length) =
      min cap (uncommented t).length := by
    split_ifs <;> omega
  have hstrip : stripSpaces s start
      (start + (t.takeWhile fun c => c ≠ hash ∧ c ≠ semicolon).length) =
      some (start + (uncommented t).length) := by
    rw [uncommented_eq]
    exact stripSpaces_spec (h.trans List.takeWhile_append_dropWhile.symm)
  rw [unquotedAt, scanWhile_spec _ h]
  have htake := calc t.take (min cap (uncommented t).length)
    _ = (uncommented t ++ u).take (min cap (uncommented t).length) := by rw [hu]
    _ = (uncommented t).take (min cap (uncommented t).length) :=
      List.take_append_of_le_length (Nat.min_le_right _ _)
    _ = (uncommented t).take cap := List.take_eq_take_min.symm
  simp only [Option.bind_eq_bind, Option.bind_some, hstrip, Nat.add_sub_cancel_left, hn]
  rw [slice_of_le (by omega), h, htake]
  rfl

theorem quotedAt_spec (cap : Nat) (out : List UInt8) (h : s.drop i = t) :
    quotedAt s s.length cap i out = some (decodeQuoted cap t out) := by
  fun_induction decodeQuoted cap t out generalizing i with
  | case1 out =>
    rw [quotedAt, if_neg (Nat.not_lt.mpr (List.drop_eq_nil_iff.mp h))]
    rfl
  | case2 rest out hrest =>
    have hk := drop_scan isSpace (drop_succ h)
    rw [hrest, List.drop_eq_nil_iff] at hk
    rw [quotedAt, if_pos (lt_of_drop h), load_of_drop h]
    simp only [Option.bind_eq_bind, Option.bind_some, if_true, scanWhile_spec _ (drop_succ h)]
    rw [if_neg (Nat.not_lt.mpr hk)]
    rfl
  | case3 rest out d rest' hrest hd =>
    have hk := drop_scan isSpace (drop_succ h)
    rw [hrest] at hk
    rw [quotedAt, if_pos (lt_of_drop h), load_of_drop h]
    simp only [Option.bind_eq_bind, Option.bind_some, if_true, scanWhile_spec _ (drop_succ h),
      if_pos (lt_of_drop hk), load_of_drop hk, if_pos hd]
    rfl
  | case4 rest out d rest' hrest hd =>
    have hk := drop_scan isSpace (drop_succ h)
    rw [hrest] at hk
    rw [quotedAt, if_pos (lt_of_drop h), load_of_drop h]
    simp only [Option.bind_eq_bind, Option.bind_some, if_true, scanWhile_spec _ (drop_succ h),
      if_pos (lt_of_drop hk), load_of_drop hk, if_neg hd]
    rfl
  | case5 out hq =>
    have hend : s.length ≤ i + 1 := List.drop_eq_nil_iff.mp (drop_succ h)
    rw [quotedAt, if_pos (lt_of_drop h), load_of_drop h]
    simp only [Option.bind_eq_bind, Option.bind_some, if_neg hq, if_true, if_pos hend]
    rfl
  | case6 out esc rest hesc hq =>
    have hmore : ¬ s.length ≤ i + 1 := Nat.not_le.mpr (lt_of_drop (drop_succ h))
    rw [quotedAt, if_pos (lt_of_drop h), load_of_drop h]
    simp only [Option.bind_eq_bind, Option.bind_some, if_neg hq, if_true, if_neg hmore,
      load_of_drop (drop_succ h), hesc]
    rfl
  | case7 out esc rest d hesc hq ih =>
    have hmore : ¬ s.length ≤ i + 1 := Nat.not_le.mpr (lt_of_drop (drop_succ h))
    rw [quotedAt, if_pos (lt_of_drop h), load_of_drop h]
    simp only [Option.bind_eq_bind, Option.bind_some, if_neg hq, if_true, if_neg hmore,
      load_of_drop (drop_succ h), hesc]
    exact ih (drop_succ (drop_succ h))
  | case8 c rest out hq hb ih =>
    rw [quotedAt, if_pos (lt_of_drop h), load_of_drop h]
    simp only [Option.bind_eq_bind, Option.bind_some, if_neg hq, if_neg hb]
    exact ih (drop_succ h)

/-- The decoder does what `decodeValue` says, and all its reads are in bounds. -/
theorem decodeValueAt_eq (s : List UInt8) (cap : Nat) :
    decodeValueAt s s.length cap = some (decodeValue s cap) := by
  have hscan : scanWhile isSpace s s.length 0 = some (s.takeWhile isSpace).length := by
    rw [scanWhile_spec isSpace (t := s) rfl, Nat.zero_add]
  have hdrop : s.drop (s.takeWhile isSpace).length = s.dropWhile isSpace := by
    rw [← Nat.zero_add (s.takeWhile isSpace).length]
    exact drop_scan isSpace rfl
  have hle : (s.takeWhile isSpace).length ≤ s.length := (List.takeWhile_prefix _).length_le
  rw [decodeValueAt, hscan, decodeValue]
  simp only [Option.bind_eq_bind, Option.bind_some]
  cases hrest : s.dropWhile isSpace with
  | nil =>
    rw [hrest] at hdrop
    rw [if_neg (Nat.not_lt.mpr (List.drop_eq_nil_iff.mp hdrop)), unquotedAt_spec cap hdrop hle,
      uncommented_nil, List.take_nil]
  | cons c rest =>
    rw [hrest] at hdrop
    rw [if_pos (lt_of_drop hdrop), load_of_drop hdrop]
    simp only [Option.bind_some]
    split_ifs with hq
    · exact quotedAt_spec cap [] (drop_succ hdrop)
    · rw [← uncommented_eq]
      exact unquotedAt_spec cap hdrop hle

end

/-! ## The grammar of a quoted value -/

/-- What a quoted value is made of: a byte that stands for itself, or an escape. -/
inductive Item where
  | char (c : UInt8) (not_quote : c ≠ 0x22) (not_backslash : c ≠ 0x5C)
  | escape (esc c : UInt8) (known : Escape esc c)

def Item.bytes : Item → List UInt8
  | char c _ _ => [c]
  | escape esc _ _ => [0x5C, esc]

def Item.decoded : Item → UInt8
  | char c _ _ => c
  | escape _ c _ => c

/-- A sequence of items as it is written. -/
def written (items : List Item) : List UInt8 := items.flatMap Item.bytes

@[simp] theorem written_nil : written [] = [] := rfl

@[simp] theorem written_cons (x : Item) (items : List Item) :
    written (x :: items) = x.bytes ++ written items := rfl

/-- What the text behind an opening quote comes to: items, and then a closing quote with a trailer,
a closing quote with other text behind it, an escape that is none, or the end of the line. -/
inductive QuotedOutcome (t : List UInt8) : Except Info (List UInt8) → Prop
  | closed (items : List Item) {u : List UInt8} : t = written items ++ 0x22 :: u → Trailer u →
      QuotedOutcome t (.ok (items.map Item.decoded))
  | trailing (items : List Item) {u : List UInt8} : t = written items ++ 0x22 :: u →
      ¬ Trailer u → QuotedOutcome t (.error .configParseError)
  | badEscape (items : List Item) {esc : UInt8} {u : List UInt8} :
      t = written items ++ 0x5C :: esc :: u → (∀ c, ¬ Escape esc c) →
      QuotedOutcome t (.error .configBadEscape)
  | unterminated (items : List Item) : t = written items ∨ t = written items ++ [0x5C] →
      QuotedOutcome t (.error .configUnterminatedString)

/-- One more item in front. -/
theorem QuotedOutcome.cons {t : List UInt8} {r : Except Info (List UInt8)} (x : Item)
    (h : QuotedOutcome t r) : QuotedOutcome (x.bytes ++ t) (r.map (x.decoded :: ·)) := by
  cases h with
  | closed items ht hu => exact .closed (x :: items) (by rw [ht, written_cons, List.append_assoc]) hu
  | trailing items ht hu =>
    exact .trailing (x :: items) (by rw [ht, written_cons, List.append_assoc]) hu
  | badEscape items ht hesc =>
    exact .badEscape (x :: items) (by rw [ht, written_cons, List.append_assoc]) hesc
  | unterminated items ht =>
    refine .unterminated (x :: items) (ht.imp (fun ht => ?_) fun ht => ?_)
    · rw [ht, written_cons]
    · rw [ht, written_cons, List.append_assoc]

/-- The items of an outcome are the steps of the rules for what stands in quotes. -/
theorem Quoted.prepend {u : List UInt8} {r : Except Info (List UInt8)} (h : Quoted u r)
    (items : List Item) : Quoted (written items ++ u) (r.map (items.map Item.decoded ++ ·)) := by
  induction items with
  | nil => cases r <;> exact h
  | cons x items ih =>
    cases x with
    | char c hq hb => cases r <;> exact .plain hq hb ih
    | escape esc c known => cases r <;> exact .escape known ih

theorem quotedOutcome_iff {t : List UInt8} {r : Except Info (List UInt8)} :
    QuotedOutcome t r ↔ Quoted t r := by
  constructor
  · rintro (⟨items, rfl, hu⟩ | ⟨items, rfl, hu⟩ | ⟨items, rfl, hesc⟩ | ⟨items, rfl | rfl⟩)
    · have h := (Quoted.close hu).prepend items
      rwa [Except.map, List.append_nil] at h
    · exact (Quoted.trailing hu).prepend items
    · exact (Quoted.badEscape hesc).prepend items
    · have h := Quoted.unterminated.prepend items
      rwa [List.append_nil] at h
    · exact Quoted.unterminatedEscape.prepend items
  · intro h
    induction h with
    | close ht => exact .closed [] rfl ht
    | trailing ht => exact .trailing [] rfl ht
    | unterminated => exact .unterminated [] (.inl rfl)
    | unterminatedEscape => exact .unterminated [] (.inr rfl)
    | badEscape hesc => exact .badEscape [] rfl hesc
    | @plain c t r hq hb _ ih => exact ih.cons (.char c hq hb)
    | @escape esc c t r known _ ih => exact ih.cons (.escape esc c known)

/-- Values are decoded exactly. With a buffer as long as the text, every read is inside the text and
the guards of the buffer drop nothing, so that more room changes nothing. Without an opening quote
the value is the text up to a comment, without the blanks around it. Behind an opening quote the
decoder returns what the items stand for, or the error that ends them. -/
theorem config_value_exact (s : List UInt8) :
    (∃ r, ∀ cap, s.length ≤ cap → decodeValueAt s s.length cap = some r) ∧
    ((s.dropWhile fun c => IsBlank c).head? ≠ some 0x22 →
      decodeValueAt s s.length s.length =
        some (.ok (uncommented (s.dropWhile fun c => IsBlank c)))) ∧
    ∀ b t, s = b ++ 0x22 :: t → AllBlank b →
      ∀ r, decodeValueAt s s.length s.length = some r ↔ QuotedOutcome t r := by
  refine ⟨?_, fun hq => ?_, ?_⟩
  · obtain ⟨r, hr⟩ := value_exists s
    exact ⟨r, fun cap hcap => by rw [decodeValueAt_eq, decodeValue_of hr hcap]⟩
  · rw [← isSpace_eq] at hq ⊢
    rw [decodeValueAt_eq, decodeValue]
    cases hrest : s.dropWhile isSpace with
    | nil => rw [uncommented_nil]
    | cons c rest =>
      have hc : c ≠ quote := fun hc => hq (by rw [hrest, hc, List.head?_cons, quote])
      have hrestle : (c :: rest).length ≤ s.length :=
        hrest ▸ (List.dropWhile_suffix isSpace).length_le
      have hle := (uncommented_isPrefix (c :: rest)).length_le.trans hrestle
      simp only [if_neg hc]
      rw [← uncommented_eq, List.take_of_length_le hle]
  · rintro b t rfl hb r
    obtain ⟨r', hr'⟩ := quoted_exists t
    have hvalue := decodeValue_of (Value.quoted hb hr') (Nat.le_refl _)
    rw [decodeValueAt_eq, hvalue, Option.some.injEq, quotedOutcome_iff]
    refine ⟨fun h => h ▸ hr', fun h => ?_⟩
    rw [← hvalue]
    exact decodeValue_of (Value.quoted hb h) (Nat.le_refl _)

/-- The value ` "a\t\"" #` is an `a`, a tab and a quote; `"a\q"` has a bad escape. -/
theorem config_value_exact_escapes :
    decodeValueAt [0x20, 0x22, 0x61, 0x5C, 0x74, 0x5C, 0x22, 0x22, 0x20, 0x23] 10 10 =
      some (.ok [0x61, 0x09, 0x22]) ∧
    decodeValueAt [0x22, 0x61, 0x5C, 0x71, 0x22] 5 5 = some (.error .configBadEscape) := by
  constructor
  · refine ((config_value_exact [0x20, 0x22, 0x61, 0x5C, 0x74, 0x5C, 0x22, 0x22, 0x20, 0x23]).2.2
      [0x20] _ rfl ?_ _).mpr (.closed [.char 0x61 (by decide) (by decide), .escape 0x74 0x09 .tab,
        .escape 0x22 0x22 .quote] rfl ⟨[0x20], [0x23], rfl, ?_, ?_⟩)
    · simp [AllBlank, IsBlank]
    · simp [AllBlank, IsBlank]
    · simp [CommentOrEnd, IsComment]
  · refine ((config_value_exact [0x22, 0x61, 0x5C, 0x71, 0x22]).2.2 [] _ rfl ?_ _).mpr
      (.badEscape [.char 0x61 (by decide) (by decide)] rfl ?_)
    · simp [AllBlank]
    · intro b hb
      cases hb

end CBase.Config
