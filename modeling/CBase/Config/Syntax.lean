import CBase.Info

/-!
# The grammar of a config file

The grammar that the header documents, as rules over bytes. Nothing here is taken from the parser.

* `pieces`: the lines of a text.
* `Value s r`: the right-hand side `s` has the value, or the error, `r`.
* `Means line m`: the line is blank, a comment, an assignment or an error.
-/

namespace CBase.Config

/-! ## Characters -/

/-- Space, tab, vertical tab or form feed. -/
def IsBlank (c : UInt8) : Prop := c = 0x20 ∨ c = 0x09 ∨ c = 0x0B ∨ c = 0x0C

/-- `#` and `;` start a comment. -/
def IsComment (c : UInt8) : Prop := c = 0x23 ∨ c = 0x3B

/-- `[A-Za-z_]`. -/
def IsLetter (c : UInt8) : Prop :=
  (0x41 ≤ c.toNat ∧ c.toNat ≤ 0x5A) ∨ (0x61 ≤ c.toNat ∧ c.toNat ≤ 0x7A) ∨ c = 0x5F

/-- `[A-Za-z0-9_.-]`. -/
def IsKeyByte (c : UInt8) : Prop :=
  IsLetter c ∨ (0x30 ≤ c.toNat ∧ c.toNat ≤ 0x39) ∨ c = 0x2E ∨ c = 0x2D

/-- The escapes in quotes: `\"`, `\\`, `\n`, `\t` and `\r`. -/
inductive Escape : UInt8 → UInt8 → Prop
  | quote : Escape 0x22 0x22
  | backslash : Escape 0x5C 0x5C
  | newline : Escape 0x6E 0x0A
  | tab : Escape 0x74 0x09
  | carriageReturn : Escape 0x72 0x0D

instance (c : UInt8) : Decidable (IsBlank c) :=
  inferInstanceAs (Decidable (_ ∨ _))

instance (c : UInt8) : Decidable (IsComment c) :=
  inferInstanceAs (Decidable (_ ∨ _))

instance (c : UInt8) : Decidable (IsLetter c) :=
  inferInstanceAs (Decidable (_ ∨ _))

instance (c : UInt8) : Decidable (IsKeyByte c) :=
  inferInstanceAs (Decidable (_ ∨ _))

def AllBlank (s : List UInt8) : Prop := ∀ c ∈ s, IsBlank c

/-- `[A-Za-z_][A-Za-z0-9_.-]*`. -/
inductive IsKey : List UInt8 → Prop
  | intro {c : UInt8} {t : List UInt8} : IsLetter c → (∀ d ∈ t, IsKeyByte d) → IsKey (c :: t)

/-! ## Values -/

def CommentOrEnd (t : List UInt8) : Prop := ∀ c, t.head? = some c → IsComment c

def Trailer (t : List UInt8) : Prop := ∃ b u, t = b ++ u ∧ AllBlank b ∧ CommentOrEnd u

/-- What stands behind an opening quote: characters and escapes up to the closing quote, behind which
only a trailer may follow. -/
inductive Quoted : List UInt8 → Except Info (List UInt8) → Prop
  | close {t : List UInt8} : Trailer t → Quoted (0x22 :: t) (.ok [])
  | trailing {t : List UInt8} : ¬ Trailer t → Quoted (0x22 :: t) (.error .configParseError)
  | unterminated : Quoted [] (.error .configUnterminatedString)
  | unterminatedEscape : Quoted [0x5C] (.error .configUnterminatedString)
  | badEscape {e : UInt8} {t : List UInt8} : (∀ c, ¬ Escape e c) →
      Quoted (0x5C :: e :: t) (.error .configBadEscape)
  | plain {c : UInt8} {t : List UInt8} {r : Except Info (List UInt8)} :
      c ≠ 0x22 → c ≠ 0x5C → Quoted t r → Quoted (c :: t) (r.map (c :: ·))
  | escape {e c : UInt8} {t : List UInt8} {r : Except Info (List UInt8)} :
      Escape e c → Quoted t r → Quoted (0x5C :: e :: t) (r.map (c :: ·))

/-- The value of a right-hand side: in quotes, or up to a comment and without blanks around it. -/
inductive Value : List UInt8 → Except Info (List UInt8) → Prop
  | unquoted {b v b' t : List UInt8} : AllBlank b → AllBlank b' → CommentOrEnd t →
      (∀ c ∈ v, ¬ IsComment c) → (∀ c, v.head? = some c → ¬ IsBlank c ∧ c ≠ 0x22) →
      (∀ c, v.getLast? = some c → ¬ IsBlank c) → Value (b ++ (v ++ (b' ++ t))) (.ok v)
  | quoted {b s : List UInt8} {r : Except Info (List UInt8)} : AllBlank b → Quoted s r →
      Value (b ++ 0x22 :: s) r

/-! ## Lines -/

/-- The meanings of a line. A line with a bad value has a good key. -/
inductive Line where
  | skip
  | assign (key value : List UInt8)
  | bad (info : Info)
  | badValue (info : Info)

/-- What a line means. A line has at most 4096 bytes, and a key ends at the first `=`. -/
inductive Means : List UInt8 → Line → Prop
  | tooLong {line : List UInt8} : 4096 < line.length → Means line (.bad .configLineTooLong)
  | blank {line : List UInt8} : line.length ≤ 4096 → AllBlank line → Means line .skip
  | comment {b t : List UInt8} {c : UInt8} : (b ++ c :: t).length ≤ 4096 → AllBlank b →
      IsComment c → Means (b ++ c :: t) .skip
  | noEquals {b t : List UInt8} {c : UInt8} : (b ++ c :: t).length ≤ 4096 → AllBlank b →
      ¬ IsBlank c → ¬ IsComment c → 0x3D ∉ c :: t →
      Means (b ++ c :: t) (.bad .configParseError)
  | badKey {b key b' rhs : List UInt8} : (b ++ (key ++ (b' ++ 0x3D :: rhs))).length ≤ 4096 →
      AllBlank b → AllBlank b' → 0x3D ∉ key →
      (∀ c, key.head? = some c → ¬ IsBlank c ∧ ¬ IsComment c) →
      (∀ c, key.getLast? = some c → ¬ IsBlank c) → ¬ IsKey key →
      Means (b ++ (key ++ (b' ++ 0x3D :: rhs))) (.bad .configBadKey)
  | badValue {b key b' rhs : List UInt8} {info : Info} :
      (b ++ (key ++ (b' ++ 0x3D :: rhs))).length ≤ 4096 → AllBlank b → AllBlank b' →
      IsKey key → Value rhs (.error info) →
      Means (b ++ (key ++ (b' ++ 0x3D :: rhs))) (.badValue info)
  | assign {b key b' rhs v : List UInt8} :
      (b ++ (key ++ (b' ++ 0x3D :: rhs))).length ≤ 4096 → AllBlank b → AllBlank b' →
      IsKey key → Value rhs (.ok v) →
      Means (b ++ (key ++ (b' ++ 0x3D :: rhs))) (.assign key v)

/-! ## Texts -/

/-- A line without the carriage return at its end. -/
def chomp : List UInt8 → List UInt8
  | [] => []
  | [c] => if c = 0x0D then [] else [c]
  | c :: d :: t => c :: chomp (d :: t)

/-- Split at the newlines, ignore an empty last piece, and strip at most one carriage return off each
piece. -/
def pieces (text : List UInt8) : List (List UInt8) :=
  let raw := text.splitOn 0x0A
  (if raw.getLast? = some [] then raw.dropLast else raw).map chomp

end CBase.Config
