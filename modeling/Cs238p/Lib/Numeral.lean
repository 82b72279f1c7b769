import Cs238p.Lib.WhiteSpace
import Mathlib.Algebra.Order.Field.Rat
import Mathlib.Algebra.Order.Floor.Ring
import Mathlib.Data.Rat.Floor
import Mathlib.Tactic.FieldSimp
import Mathlib.Tactic.Positivity
import Mathlib.Tactic.Ring

set_option relaxedAutoImplicit false
set_option autoImplicit false

/-!
# Numerals of C

The numbers that `strtod` reads from the beginning of a text, the text that `printf` writes for
`%f`, and the floating constants of the language. Numbers are exact: a finite number is rational.

## Main definitions

* `Number` — a finite number, an infinity or a NaN.
* `strtod` — the longest prefix that is a number, its value and the rest.
* `unsignedLong` — the number that `strtoul` computes from digits, at most `2 ^ 64 - 1`.
* `scanUnsigned` — the conversion `%u`, of such a number modulo `2 ^ 32`.
* `formatF` — the conversion `%f`, with six digits behind the point.
* `floatingConstant` — the value of a floating constant without suffix.
* `Numeral` — a decimal numeral, its text and its value.

## Main results

* `strtod_text` — a numeral that no further letter, digit or point follows is read as a whole.
* `floatingConstant_formatF` — what `%f` writes is a constant, rounded to six digits.
-/

namespace CNumeral

open WhiteSpace

/-! ## Characters -/

/-- `isxdigit`. -/
def isXDigit (c : Char) : Bool :=
  c.isDigit || ('a' ≤ c && c ≤ 'f') || ('A' ≤ c && c ≤ 'F')

/-- The value of a hexadecimal digit. -/
def xdigitVal (c : Char) : ℕ :=
  if c.isDigit then c.toNat - 48 else if 'a' ≤ c then c.toNat - 87 else c.toNat - 55

/-- A notation for numbers: its digits, and the letters and the base of its exponents. -/
structure Radix where
  base : ℕ
  isDigit : Char → Bool
  digitVal : Char → ℕ
  marker : Char → Bool
  scale : ℕ

/-- Decimal numbers. -/
def decimal : Radix where
  base := 10
  isDigit := Char.isDigit
  digitVal c := c.toNat - 48
  marker c := c = 'e' ∨ c = 'E'
  scale := 10

/-- Hexadecimal numbers, whose exponents are decimal and count factors of two. -/
def hexadecimal : Radix where
  base := 16
  isDigit := isXDigit
  digitVal := xdigitVal
  marker c := c = 'p' ∨ c = 'P'
  scale := 2

/-! ## Reading -/

namespace Radix

variable (r : Radix)

/-- The number with the given digits. -/
def value (ds : List Char) : ℕ := ds.foldl (fun n c => r.base * n + r.digitVal c) 0

/-- Digits with at most one point among them, at least one of them: the digits before the point, the
digits behind it, and the rest. -/
def mantissa (s : List Char) : Option (List Char × List Char × List Char) :=
  let int := s.takeWhile r.isDigit
  match s.dropWhile r.isDigit with
  | '.' :: s' =>
    let frac := s'.takeWhile r.isDigit
    if int = [] ∧ frac = [] then none else some (int, frac, s'.dropWhile r.isDigit)
  | s' => if int = [] then none else some (int, [], s')

end Radix

/-- An optional sign: whether it is a minus, and the rest. -/
def sign : List Char → Bool × List Char
  | '-' :: s => (true, s)
  | '+' :: s => (false, s)
  | s => (false, s)

namespace Radix

variable (r : Radix)

/-- An optional exponent: its value and the rest. A letter without digits is no exponent. -/
def exponent (s : List Char) : ℤ × List Char :=
  match s with
  | c :: s' =>
    let (neg, s'') := sign s'
    let ds := s''.takeWhile Char.isDigit
    if r.marker c ∧ ds ≠ [] then
      (if neg then -(decimal.value ds : ℤ) else decimal.value ds, s''.dropWhile Char.isDigit)
    else (0, s)
  | [] => (0, [])

/-- The number with the given digits before and behind the point, and the given exponent. -/
def number (int frac : List Char) (e : ℤ) : ℚ :=
  r.value (int ++ frac) * (r.scale : ℚ) ^ e / (r.base : ℚ) ^ frac.length

/-- The longest prefix that is an unsigned number: its value and the rest. -/
def read (s : List Char) : Option (ℚ × List Char) :=
  (r.mantissa s).map fun m => (r.number m.1 m.2.1 (r.exponent m.2.2).1, (r.exponent m.2.2).2)

end Radix

/-- A number that `strtod` can return. Infinities and NaNs have a sign. -/
inductive Number
  | finite (q : ℚ)
  | inf (neg : Bool)
  | nan (neg : Bool)
  deriving DecidableEq

/-- The text behind a word at the beginning of a text, whatever the case of its letters. -/
def afterWord (w s : List Char) : Option (List Char) :=
  if (s.take w.length).map Char.toLower = w then some (s.drop w.length) else none

/-- The text behind the characters in parentheses that may follow `nan`. -/
def afterNan (s : List Char) : List Char :=
  match s with
  | '(' :: s' =>
    match s'.dropWhile fun c => c.isAlphanum || c = '_' with
    | ')' :: s'' => s''
    | _ => s
  | _ => s

/-- The longest prefix that is an unsigned number in a form that `strtod` accepts. -/
def readUnsigned (s : List Char) : Option (Number × List Char) :=
  match (afterWord "infinity".toList s).or (afterWord "inf".toList s) with
  | some s' => some (.inf false, s')
  | none =>
    match afterWord "nan".toList s with
    | some s' => some (.nan false, afterNan s')
    | none =>
      -- `0x` without a hexadecimal digit is the number `0`
      (((afterWord "0x".toList s).bind hexadecimal.read).or (decimal.read s)).map fun p =>
        (.finite p.1, p.2)

/-- The number with the opposite sign. -/
def Number.neg : Number → Number
  | .finite q => .finite (-q)
  | .inf neg => .inf !neg
  | .nan neg => .nan !neg

/-- `strtod`: the number at the beginning of a text and the text behind it, `none` if there is no
number. -/
def strtod (s : List Char) : Option (Number × List Char) :=
  let (neg, s') := sign (s.dropWhile fun c => isspace c.toNat)
  (readUnsigned s').map fun p => (if neg then p.1.neg else p.1, p.2)

example : strtod "0x1.8p1z".toList = some (.finite 3, ['z']) := by decide +kernel

/-- The number that `strtoul` computes from digits behind a sign. A number of `2 ^ 64` or more is
read as the largest number of its type. -/
def unsignedLong (neg : Bool) (ds : List Char) : UInt64 :=
  let n := decimal.value ds
  if 2 ^ 64 ≤ n then UInt64.ofNat (2 ^ 64 - 1)
  else if neg then -UInt64.ofNat n else UInt64.ofNat n

/-- The conversion `%u` of `scanf`: the number at the beginning of a text, as `strtoul` computes it,
modulo `2 ^ 32`, and the text behind it, `none` if there is no number. -/
def scanUnsigned (s : List Char) : Option (UInt32 × List Char) :=
  let (neg, s') := sign (s.dropWhile fun c => isspace c.toNat)
  let ds := s'.takeWhile Char.isDigit
  if ds = [] then none else some ((unsignedLong neg ds).toUInt32, s'.dropWhile Char.isDigit)

example : scanUnsigned "18446744073709551621 7".toList = some (2 ^ 32 - 1, " 7".toList) := by
  decide +kernel

/-! ## Writing -/

/-- The nearest integer, the even one of two. -/
def roundHalfEven (q : ℚ) : ℤ :=
  if Int.fract q < 1 / 2 then ⌊q⌋
  else if 1 / 2 < Int.fract q then ⌊q⌋ + 1
  else if 2 ∣ ⌊q⌋ then ⌊q⌋ else ⌊q⌋ + 1

/-- The decimal text of a number of millionths. -/
def millionths (n : ℕ) : List Char :=
  Nat.toDigits 10 (n / 10 ^ 6) ++ '.' :: (Nat.toDigits 10 (n % 10 ^ 6)).leftpad 6 '0'

/-- The conversion `%f` of `printf`. -/
def formatF : Number → List Char
  | .finite q => (if q < 0 then ['-'] else []) ++ millionths (roundHalfEven (|q| * 10 ^ 6)).toNat
  | .inf neg => (if neg then ['-'] else []) ++ "inf".toList
  | .nan neg => (if neg then ['-'] else []) ++ "nan".toList

/-! ## Constants -/

/-- The value of a floating constant of C without suffix, in decimal notation: it has a point or an
exponent. -/
def floatingConstant (s : List Char) : Option ℚ :=
  match decimal.mantissa s with
  | some (int, frac, s') =>
    if (decimal.exponent s').2 = [] ∧ ('.' ∈ s ∨ s' ≠ []) then
      some (decimal.number int frac (decimal.exponent s').1)
    else none
  | none => none

example : floatingConstant "2.50e1".toList = some 25 := by decide +kernel

/-! ## Decimal numerals are read back -/

/-- The exponent of a decimal numeral; its sign may be missing. -/
structure Exponent where
  marker : Char
  sign : Option Bool
  digits : List Char
  marker_eq : marker = 'e' ∨ marker = 'E'
  isDigit : ∀ c ∈ digits, c.isDigit = true
  ne_nil : digits ≠ []

namespace Exponent

/-- The text of an exponent. -/
def text (e : Exponent) : List Char :=
  e.marker :: ((e.sign.elim [] fun neg => [if neg then '-' else '+']) ++ e.digits)

/-- The value of an exponent. -/
def value (e : Exponent) : ℤ :=
  if e.sign = some true then -(decimal.value e.digits : ℤ) else decimal.value e.digits

end Exponent

/-- A decimal numeral: digits, at least one of them, with an optional point and an optional
exponent. -/
structure Numeral where
  int : List Char
  frac : Option (List Char)
  exp : Option Exponent
  int_isDigit : ∀ c ∈ int, c.isDigit = true
  frac_isDigit : ∀ ds ∈ frac, ∀ c ∈ ds, c.isDigit = true
  ne_nil : int ++ frac.getD [] ≠ []

namespace Numeral

/-- The text of a numeral. -/
def text (n : Numeral) : List Char :=
  n.int ++ (n.frac.elim [] fun ds => '.' :: ds) ++ n.exp.elim [] Exponent.text

/-- The number that a numeral denotes. -/
def value (n : Numeral) : ℚ :=
  decimal.number n.int (n.frac.getD []) (n.exp.elim 0 Exponent.value)

end Numeral

/-- The text begins with no letter, digit or point. -/
def Ends (s : List Char) : Prop := ∀ c ∈ s.head?, c.isAlphanum = false ∧ c ≠ '.'

/-- A text begins with no character of a kind. -/
def Avoids (p : Char → Bool) (s : List Char) : Prop := ∀ c ∈ s.head?, p c = false

lemma avoids_nil (p : Char → Bool) : Avoids p [] := by simp [Avoids]

lemma avoids_cons {p : Char → Bool} {c : Char} (s : List Char) (h : p c = false) :
    Avoids p (c :: s) := by
  simpa [Avoids] using h

/-- The characters of a kind before a text that begins with none of them. -/
lemma Avoids.span {p : Char → Bool} {s : List Char} (h : Avoids p s) {ds : List Char}
    (hds : ∀ c ∈ ds, p c = true) :
    (ds ++ s).takeWhile p = ds ∧ (ds ++ s).dropWhile p = s := by
  rw [List.takeWhile_append_of_pos hds, List.dropWhile_append_of_pos hds]
  cases s with
  | nil => simp
  | cons c s =>
    have hc : ¬ p c = true := by simpa using h c (by simp)
    rw [List.takeWhile_cons_of_neg hc, List.dropWhile_cons_of_neg hc, List.append_nil]
    exact ⟨rfl, rfl⟩

/-- A text that ends a numeral begins with no digit. -/
lemma Ends.avoids {s : List Char} (h : Ends s) : Avoids Char.isDigit s := fun c hc => by
  have halnum := (h c hc).1
  rw [Char.isAlphanum, Bool.or_eq_false_iff] at halnum
  exact halnum.2

/-- An exponent marker is not a digit. -/
lemma Exponent.not_isDigit (e : Exponent) : e.marker.isDigit = false := by
  rcases e.marker_eq with h | h <;> rw [h] <;> rfl

/-- A text that begins with another character has no sign. -/
lemma sign_of_ne {c : Char} {s : List Char} (hminus : c ≠ '-') (hplus : c ≠ '+') :
    sign (c :: s) = (false, c :: s) := by
  unfold sign
  split
  · next h => exact absurd (List.cons.inj h).1 hminus
  · next h => exact absurd (List.cons.inj h).1 hplus
  · rfl

/-- An exponent is read as a whole. -/
lemma exponent_text (e : Exponent) {rest : List Char} (h : Avoids Char.isDigit rest) :
    decimal.exponent (e.text ++ rest) = (e.value, rest) := by
  obtain ⟨marker, sgn, digits, hmarker, hdigit, hne⟩ := e
  obtain ⟨htake, hdrop⟩ := h.span hdigit
  have hmark : decimal.marker marker = true := by simpa [decimal] using hmarker
  have hsign : sign ((sgn.elim [] fun neg => [if neg then '-' else '+']) ++ digits ++ rest) =
      (sgn == some true, digits ++ rest) := by
    cases sgn with
    | none =>
      cases digits with
      | nil => exact absurd rfl hne
      | cons d ds =>
        have hd : d.isDigit = true := hdigit d List.mem_cons_self
        rw [Option.elim_none, List.nil_append, List.cons_append, sign_of_ne]
        · rfl
        · rintro rfl
          exact absurd hd (by decide)
        · rintro rfl
          exact absurd hd (by decide)
    | some neg => cases neg <;> rfl
  rw [Exponent.text, List.cons_append, Radix.exponent, hsign]
  simp only [htake, hdrop, hmark, true_and, if_pos hne, Exponent.value, beq_iff_eq]

/-- A text that ends a numeral has no exponent. -/
lemma exponent_of_ends {rest : List Char} (h : Ends rest) : decimal.exponent rest = (0, rest) := by
  cases rest with
  | nil => rfl
  | cons c s =>
    have hmark : ¬ decimal.marker c = true := by
      intro hc
      have halnum := (h c rfl).1
      rcases (by simpa [decimal] using hc : c = 'e' ∨ c = 'E') with rfl | rfl <;>
        exact absurd halnum (by decide)
    rw [Radix.exponent]
    simp only [hmark]
    rfl

/-- The digits of a numeral are read as a whole. -/
lemma mantissa_append {int rest : List Char} {frac : Option (List Char)}
    (hint : ∀ c ∈ int, c.isDigit = true) (hfrac : ∀ ds ∈ frac, ∀ c ∈ ds, c.isDigit = true)
    (hne : int ++ frac.getD [] ≠ []) (hrest : Avoids Char.isDigit rest)
    (hpoint : frac = none → rest.head? ≠ some '.') :
    decimal.mantissa (int ++ (frac.elim [] fun ds => '.' :: ds) ++ rest) =
      some (int, frac.getD [], rest) := by
  have hdigit : decimal.isDigit = Char.isDigit := rfl
  cases frac with
  | none =>
    obtain ⟨htake, hdrop⟩ := hrest.span hint
    have hne' : int ≠ [] := by simpa using hne
    rw [Option.elim_none, List.append_nil, Radix.mantissa, hdigit, htake, hdrop]
    split
    · exact absurd rfl (hpoint rfl)
    · rw [if_neg hne', Option.getD_none]
  | some ds =>
    have hds := hfrac ds rfl
    have hdot : Avoids Char.isDigit ('.' :: (ds ++ rest)) := avoids_cons _ rfl
    obtain ⟨htake, hdrop⟩ := hdot.span hint
    obtain ⟨htake', hdrop'⟩ := hrest.span hds
    have hne' : ¬ (int = [] ∧ ds = []) := by
      rintro ⟨rfl, rfl⟩
      exact hne rfl
    rw [Option.elim_some, List.append_assoc, List.cons_append, Radix.mantissa, hdigit, htake, hdrop]
    simp only [htake', hdrop', if_neg hne', Option.getD_some]

/-- **A numeral is read as a whole** and as the number it denotes. -/
lemma read_text (n : Numeral) {rest : List Char} (h : Ends rest) :
    decimal.read (n.text ++ rest) = some (n.value, rest) := by
  have hexp : decimal.exponent (n.exp.elim [] Exponent.text ++ rest) =
      (n.exp.elim 0 Exponent.value, rest) := by
    cases n.exp with
    | none => exact exponent_of_ends h
    | some e => exact exponent_text e h.avoids
  have hmantissa : decimal.mantissa (n.text ++ rest) =
      some (n.int, n.frac.getD [], n.exp.elim [] Exponent.text ++ rest) := by
    rw [Numeral.text, List.append_assoc]
    apply mantissa_append n.int_isDigit n.frac_isDigit n.ne_nil
    · cases n.exp with
      | none => exact h.avoids
      | some e => exact avoids_cons _ e.not_isDigit
    · cases n.exp with
      | none => exact fun _ hdot => (h '.' hdot).2 rfl
      | some e =>
        rintro - hdot
        rcases e.marker_eq with he | he <;> simp [Exponent.text, he] at hdot
  rw [Radix.read, hmantissa, Option.map_some, hexp, Numeral.value]

/-- The characters of numerals. -/
def numeralChar (c : Char) : Bool := c.isDigit || c ∈ ['.', 'e', 'E', '+', '-']

/-- The text of a numeral has only the characters of numerals. -/
lemma Numeral.numeralChar_of_mem {n : Numeral} {c : Char} (h : c ∈ n.text) :
    numeralChar c = true := by
  have hdigit {d : Char} (hd : d.isDigit = true) : numeralChar d = true := by
    rw [numeralChar, hd, Bool.true_or]
  simp only [Numeral.text, List.mem_append] at h
  rcases h with (h | h) | h
  · exact hdigit (n.int_isDigit c h)
  · cases hfrac : n.frac with
    | none => simp [hfrac] at h
    | some ds =>
      rw [hfrac] at h
      rcases List.mem_cons.mp h with rfl | h
      · rfl
      · exact hdigit (n.frac_isDigit ds hfrac c h)
  · cases hexp : n.exp with
    | none => simp [hexp] at h
    | some e =>
      rw [hexp] at h
      rcases List.mem_cons.mp h with rfl | h
      · rcases e.marker_eq with he | he <;> rw [he] <;> rfl
      · rcases List.mem_append.mp h with h | h
        · cases hsign : e.sign with
          | none => simp [hsign] at h
          | some neg =>
            rw [hsign] at h
            obtain rfl := List.mem_singleton.mp h
            cases neg <;> rfl
        · exact hdigit (e.isDigit c h)

/-- A character of a numeral begins no word that `strtod` knows. -/
lemma toLower_of_numeralChar {c : Char} (h : numeralChar c = true) :
    c.toLower ≠ 'i' ∧ c.toLower ≠ 'n' ∧ c.toLower ≠ 'x' := by
  rw [numeralChar, Bool.or_eq_true] at h
  rcases h with h | h
  · have hlower : c.toLower = c := by
      rw [Char.isDigit, Bool.and_eq_true, decide_eq_true_eq, decide_eq_true_eq] at h
      unfold Char.toLower
      rw [dif_neg]
      simp only [ge_iff_le, UInt32.le_iff_toNat_le] at h ⊢
      simp at h ⊢
      omega
    rw [hlower]
    refine ⟨?_, ?_, ?_⟩ <;> rintro rfl <;> exact absurd h (by decide)
  · simp at h
    rcases h with rfl | rfl | rfl | rfl | rfl <;> decide

/-- A word that the text does not begin with is not found. -/
lemma afterWord_cons_of_ne {l c : Char} (w : List Char) {s : List Char} (hc : c.toLower ≠ l) :
    afterWord (l :: w) (c :: s) = none := by
  rw [afterWord, if_neg]
  rw [List.length_cons, List.take_succ_cons, List.map_cons]
  exact fun heq => hc (List.cons.inj heq).1

/-- The text of a numeral is not empty. -/
lemma Numeral.text_ne_nil (n : Numeral) : n.text ≠ [] := by
  intro htext
  rw [Numeral.text, List.append_eq_nil_iff, List.append_eq_nil_iff] at htext
  obtain ⟨⟨hint, hfrac⟩, -⟩ := htext
  apply n.ne_nil
  cases hf : n.frac with
  | none => rw [hint, Option.getD_none, List.append_nil]
  | some ds => simp [hf] at hfrac

/-- A text that ends a numeral does not begin with an `x`. -/
lemma Ends.toLower_ne {c : Char} {s : List Char} (h : Ends (c :: s)) : c.toLower ≠ 'x' := by
  have halnum := (h c rfl).1
  have hlower : c.toLower = c := by
    unfold Char.isAlphanum Char.isAlpha Char.isUpper at halnum
    rw [Bool.or_eq_false_iff, Bool.or_eq_false_iff] at halnum
    unfold Char.toLower
    rw [dif_neg]
    simpa using halnum.1.1
  rw [hlower]
  rintro rfl
  exact absurd halnum (by decide)

/-- A numeral is not read as hexadecimal. -/
lemma afterWord_hex (n : Numeral) {rest : List Char} (h : Ends rest) :
    afterWord "0x".toList (n.text ++ rest) = none := by
  have hne := n.text_ne_nil
  have hmem {c : Char} (hc : c ∈ n.text) := toLower_of_numeralChar (n.numeralChar_of_mem hc)
  rw [afterWord, if_neg]
  -- the second character is one of the numeral or the one behind it
  match htext : n.text, rest, h with
  | [], _, _ => exact absurd htext hne
  | [c], [], _ => simp
  | [c], d :: rest, h => simp [h.toLower_ne]
  | c :: d :: text, _, _ => simp [(hmem (c := d) (by simp [htext])).2.2]

/-- A character of a numeral is no white space. -/
lemma isspace_of_numeralChar {c : Char} (h : numeralChar c = true) : isspace c.toNat = false := by
  rw [numeralChar, Bool.or_eq_true] at h
  rcases h with h | h
  · rw [Char.isDigit, Bool.and_eq_true, decide_eq_true_eq, decide_eq_true_eq] at h
    simp only [ge_iff_le, UInt32.le_iff_toNat_le] at h
    have hcode : c.toNat = c.val.toNat := rfl
    simp at h
    simp only [isspace, decide_eq_false_iff_not, hcode]
    omega
  · simp at h
    rcases h with rfl | rfl | rfl | rfl | rfl <;> decide

/-- The text of a numeral begins with a digit or a point. -/
lemma Numeral.exists_text_eq_cons (n : Numeral) : ∃ c s, n.text = c :: s ∧
    (c.isDigit = true ∨ c = '.') := by
  cases hint : n.int with
  | cons c s =>
    exact ⟨c, _, by rw [Numeral.text, hint]; rfl, .inl (n.int_isDigit c (by simp [hint]))⟩
  | nil =>
    cases hfrac : n.frac with
    | none => exact absurd (by simp [hint, hfrac]) n.ne_nil
    | some ds => exact ⟨'.', _, by rw [Numeral.text, hint, hfrac]; rfl, .inr rfl⟩

/-- **`strtod` reads a numeral as a whole** and returns the number that it denotes, if no letter,
digit or point follows. -/
theorem strtod_text (n : Numeral) {rest : List Char} (h : Ends rest) :
    strtod (n.text ++ rest) = some (.finite n.value, rest) := by
  obtain ⟨c, s, htext, hc⟩ := n.exists_text_eq_cons
  have hchar := n.numeralChar_of_mem (c := c) (by simp [htext])
  obtain ⟨hi, hn, -⟩ := toLower_of_numeralChar hchar
  have hspace : (n.text ++ rest).dropWhile (fun c => isspace c.toNat) = n.text ++ rest := by
    rw [htext, List.cons_append, List.dropWhile_cons_of_neg]
    simp [isspace_of_numeralChar hchar]
  have hsign : sign (n.text ++ rest) = (false, n.text ++ rest) := by
    rw [htext, List.cons_append]
    apply sign_of_ne
    · rintro rfl
      exact absurd hc (by decide)
    · rintro rfl
      exact absurd hc (by decide)
  have hword (l : Char) (w : List Char) (hl : c.toLower ≠ l) :
      afterWord (l :: w) (n.text ++ rest) = none := by
    rw [htext, List.cons_append]
    exact afterWord_cons_of_ne w hl
  have hread : readUnsigned (n.text ++ rest) = some (.finite n.value, rest) := by
    rw [readUnsigned, afterWord_hex n h, read_text n h]
    rw [show afterWord "infinity".toList (n.text ++ rest) = none from hword 'i' _ hi,
      show afterWord "inf".toList (n.text ++ rest) = none from hword 'i' _ hi,
      show afterWord "nan".toList (n.text ++ rest) = none from hword 'n' _ hn]
    rfl
  rw [strtod, hspace, hsign]
  simp only [hread]
  rfl

/-! ## What `%f` writes -/

/-- An integer is its own nearest integer. -/
lemma roundHalfEven_intCast (n : ℤ) : roundHalfEven n = n := by
  rw [roundHalfEven, Int.fract_intCast, if_pos (by norm_num), Int.floor_intCast]

/-- The nearest integer to a number that is not negative is not negative. -/
lemma roundHalfEven_nonneg {q : ℚ} (h : 0 ≤ q) : 0 ≤ roundHalfEven q := by
  have hfloor : 0 ≤ ⌊q⌋ := Int.floor_nonneg.mpr h
  unfold roundHalfEven
  split_ifs <;> omega

/-- The number of digits in decimal notation. -/
lemma value_decimal (ds : List Char) : decimal.value ds = Nat.ofDigitChars 10 ds 0 := by
  rw [Nat.ofDigitChars_eq_foldl]
  rfl

/-- Digits without a sign denote their number, if it is less than `2 ^ 64`. -/
lemma unsignedLong_of_lt {ds : List Char} (h : decimal.value ds < 2 ^ 64) :
    unsignedLong false ds = UInt64.ofNat (decimal.value ds) := by
  rw [unsignedLong]
  simp only [Nat.not_le.mpr h, if_false, Bool.false_eq_true]

/-- **`%u` reads digits as a whole**, if no digit follows. -/
lemma scanUnsigned_digits {ws ds rest : List Char} (hws : ∀ c ∈ ws, isspace c.toNat = true)
    (hds : ∀ c ∈ ds, c.isDigit = true) (hne : ds ≠ []) (hlt : decimal.value ds < 2 ^ 64)
    (hrest : Avoids Char.isDigit rest) :
    scanUnsigned (ws ++ (ds ++ rest)) = some (UInt32.ofNat (decimal.value ds), rest) := by
  obtain ⟨d, ds', rfl⟩ := List.exists_cons_of_ne_nil hne
  have hd := hds d List.mem_cons_self
  obtain ⟨htake, hdrop⟩ := hrest.span hds
  have hchar : numeralChar d = true := by simp [numeralChar, hd]
  have hspace : (ws ++ (d :: ds' ++ rest)).dropWhile (fun c => isspace c.toNat) =
      d :: ds' ++ rest := by
    rw [List.dropWhile_append_of_pos hws, List.cons_append, List.dropWhile_cons_of_neg]
    simp [isspace_of_numeralChar hchar]
  have hsign : sign (d :: ds' ++ rest) = (false, d :: ds' ++ rest) := by
    rw [List.cons_append]
    apply sign_of_ne
    · rintro rfl
      exact absurd hd (by decide)
    · rintro rfl
      exact absurd hd (by decide)
  rw [scanUnsigned, hspace, hsign]
  simp only [htake, hdrop]
  rw [if_neg hne, unsignedLong_of_lt hlt, UInt64.toUInt32_ofNat']

/-- **The text of a number of millionths is a constant**, and denotes that number. -/
lemma floatingConstant_millionths (n : ℕ) :
    floatingConstant (millionths n) = some ((n : ℚ) / 10 ^ 6) := by
  have hint : ∀ c ∈ Nat.toDigits 10 (n / 10 ^ 6), c.isDigit = true := fun c hc =>
    Nat.isDigit_of_mem_toDigits (by decide) (by decide) hc
  have hfrac : ∀ c ∈ (Nat.toDigits 10 (n % 10 ^ 6)).leftpad 6 '0', c.isDigit = true := by
    intro c hc
    rw [List.leftpad, List.mem_append] at hc
    rcases hc with hc | hc
    · rw [List.eq_of_mem_replicate hc]
      rfl
    · exact Nat.isDigit_of_mem_toDigits (by decide) (by decide) hc
  have hlen : ((Nat.toDigits 10 (n % 10 ^ 6)).leftpad 6 '0').length = 6 := by
    rw [List.length_leftpad]
    have := (Nat.length_toDigits_le_iff (b := 10) (n := n % 10 ^ 6) (by decide)
      (by decide : 0 < 6)).mpr (Nat.mod_lt _ (by decide))
    omega
  have hval :
      Nat.ofDigitChars 10 ((Nat.toDigits 10 (n % 10 ^ 6)).leftpad 6 '0') 0 = n % 10 ^ 6 := by
    rw [List.leftpad, Nat.ofDigitChars_append, Nat.ofDigitChars_replicate_zero, Nat.mul_zero,
      Nat.ofDigitChars_ten_toDigits]
  rw [floatingConstant, millionths]
  generalize (Nat.toDigits 10 (n % 10 ^ 6)).leftpad 6 '0' = frac at hfrac hlen hval ⊢
  have hmantissa : decimal.mantissa (Nat.toDigits 10 (n / 10 ^ 6) ++ '.' :: frac) =
      some (Nat.toDigits 10 (n / 10 ^ 6), frac, []) := by
    have h := @mantissa_append _ [] (some frac) hint (by simpa using hfrac)
      (by simp [Nat.toDigits_ne_nil]) (avoids_nil _) (by simp)
    simpa using h
  have hnumber : decimal.value (Nat.toDigits 10 (n / 10 ^ 6) ++ frac) = n := by
    rw [value_decimal, Nat.ofDigitChars_append, Nat.ofDigitChars_ten_toDigits,
      Nat.ofDigitChars_eq_ofDigitChars_zero, hlen, hval, Nat.div_add_mod]
  have hexp : decimal.exponent [] = (0, []) := rfl
  have hbase : (decimal.base : ℚ) = 10 := Nat.cast_ofNat
  simp only [hmantissa, hexp]
  rw [if_pos ⟨trivial, .inl (by simp)⟩, Radix.number, hnumber, hlen, zpow_zero, mul_one, hbase]

/-- **What `%f` writes for a number that is not negative is a constant**: the number, rounded to
millionths. -/
theorem floatingConstant_formatF {q : ℚ} (h : 0 ≤ q) :
    floatingConstant (formatF (.finite q)) = some ((roundHalfEven (q * 10 ^ 6) : ℚ) / 10 ^ 6) := by
  have hround := roundHalfEven_nonneg (mul_nonneg h (by positivity : (0 : ℚ) ≤ 10 ^ 6))
  rw [formatF, if_neg (not_lt.mpr h), List.nil_append, floatingConstant_millionths, abs_of_nonneg h]
  congr 2
  exact_mod_cast congrArg (Int.cast (R := ℚ)) (Int.toNat_of_nonneg hround)

/-- **`%f` writes a constant for the number itself** exactly if the number has no more than six
digits behind the point. -/
theorem floatingConstant_formatF_iff {q : ℚ} (h : 0 ≤ q) :
    floatingConstant (formatF (.finite q)) = some q ↔ ∃ n : ℤ, q * 10 ^ 6 = n := by
  rw [floatingConstant_formatF h, Option.some.injEq, div_eq_iff (by positivity)]
  constructor
  · intro heq
    exact ⟨_, heq.symm⟩
  · rintro ⟨n, hn⟩
    rw [hn, roundHalfEven_intCast]

/-! ## Unsigned numbers -/

/-- The number has no minus sign. -/
def Number.Unsigned : Number → Prop
  | .finite q => 0 ≤ q
  | .inf neg => neg = false
  | .nan neg => neg = false

/-- The number is finite and has no more than six digits behind the point. -/
def Number.SixDigits : Number → Prop
  | .finite q => ∃ n : ℤ, q * 10 ^ 6 = n
  | .inf _ => False
  | .nan _ => False

/-- The text is a floating constant for the number. -/
def Denotes (s : List Char) (v : Number) : Prop := ∃ q, v = .finite q ∧ floatingConstant s = some q

/-- **What `%f` writes for an unsigned number denotes it** exactly if the number is finite and has
no more than six digits behind the point. -/
theorem denotes_formatF_iff {v : Number} (h : v.Unsigned) :
    Denotes (formatF v) v ↔ v.SixDigits := by
  cases v with
  | finite q =>
    rw [Number.SixDigits, ← floatingConstant_formatF_iff h]
    constructor
    · rintro ⟨q', hq, hconst⟩
      rwa [← Number.finite.inj hq] at hconst
    · exact fun hconst => ⟨q, rfl, hconst⟩
  | inf neg =>
    refine iff_of_false ?_ id
    rintro ⟨q, hq, -⟩
    cases hq
  | nan neg =>
    refine iff_of_false ?_ id
    rintro ⟨q, hq, -⟩
    cases hq

/-- A number that is read without its sign is unsigned. -/
lemma unsigned_of_readUnsigned {s s' : List Char} {v : Number} (h : readUnsigned s = some (v, s')) :
    v.Unsigned := by
  have hnonneg (r : Radix) (int frac : List Char) (e : ℤ) : 0 ≤ r.number int frac e := by
    have hscale := zpow_nonneg (Nat.cast_nonneg r.scale : (0 : ℚ) ≤ r.scale) e
    rw [Radix.number]
    exact div_nonneg (mul_nonneg (Nat.cast_nonneg _) hscale) (pow_nonneg (Nat.cast_nonneg _) _)
  have hread {r : Radix} {t : List Char} {p : ℚ × List Char} (hr : r.read t = some p) :
      0 ≤ p.1 := by
    obtain ⟨m, -, rfl⟩ := Option.map_eq_some_iff.mp hr
    exact hnonneg r _ _ _
  unfold readUnsigned at h
  split at h
  · cases h
    rfl
  · split at h
    · cases h
      rfl
    · obtain ⟨p, hp, hpv⟩ := Option.map_eq_some_iff.mp h
      cases hpv
      rcases Option.or_eq_some_iff.mp hp with hp | ⟨-, hp⟩
      · obtain ⟨t, -, ht⟩ := Option.bind_eq_some_iff.mp hp
        exact hread ht
      · exact hread hp

/-- A number that begins with neither white space nor a minus is unsigned. -/
lemma unsigned_of_strtod {c : Char} {s s' : List Char} {v : Number}
    (hspace : isspace c.toNat = false) (hminus : c ≠ '-')
    (h : strtod (c :: s) = some (v, s')) : v.Unsigned := by
  have hsign : (sign (c :: s)).1 = false := by
    unfold sign
    split
    · next heq => exact absurd (List.cons.inj heq).1 hminus
    · rfl
    · rfl
  rw [strtod, List.dropWhile_cons_of_neg (by simp [hspace])] at h
  generalize sign (c :: s) = r at h hsign
  obtain ⟨neg, t⟩ := r
  obtain rfl : neg = false := hsign
  obtain ⟨p, hp, hpv⟩ := Option.map_eq_some_iff.mp h
  cases hpv
  exact unsigned_of_readUnsigned hp

end CNumeral
