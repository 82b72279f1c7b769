import Cs238p.Lib.Numeral
import Mathlib.Data.List.Infix

set_option relaxedAutoImplicit false
set_option autoImplicit false

/-!
# Reading text with the C library

The lines that calls of `fgets` read from a text one after the other, and the values that `sscanf`
assigns.

## Main definitions

* `Stdio.fgetsFrom` — what is read through a buffer until the end of the text.
* `Stdio.Directive`, `Stdio.format` — the directives of a format, and those that its text denotes.
* `Stdio.sscanf` — the values that are assigned, up to the first directive that fails.
* `Stdio.Numbers` — a text begins with numbers in decimal notation.

## Main results

* `Stdio.fgetsFrom_lines` — lines that fit into the buffer are read as they are.
* `Stdio.sscanf_numbers` — numbers are read in their order, modulo the size of the variables.
* `Stdio.infix_append_cons_iff` — where `strstr` finds a text.

## Implementation notes

A number of `2 ^ 64` or more is read as `2 ^ 64 - 1`, and a number that is too large for its
variable is stored modulo its size. The text has no zero bytes.
-/

namespace Stdio

open CNumeral WhiteSpace

/-! ## Lines -/

/-- What the calls of `fgets` read from a text through a buffer of the given size, until it returns
a null pointer; `line` is in the buffer already. -/
def fgetsFrom (size : ℕ) : List Char → List Char → List (List Char)
  | line, [] => if line = [] then [] else [line]
  | line, c :: s =>
    if c = '\n' ∨ size ≤ line.length + 2 then (line ++ [c]) :: fgetsFrom size [] s
    else fgetsFrom size (line ++ [c]) s

/-- A text that consists of lines. -/
def textOf (lines : List (List Char)) : List Char := lines.flatMap fun l => l ++ ['\n']

/-- A line of a text, which fits into a buffer with its newline and a zero byte. -/
def FitsLine (size : ℕ) (line : List Char) : Prop := '\n' ∉ line ∧ line.length + 2 ≤ size

instance (size : ℕ) (line : List Char) : Decidable (FitsLine size line) :=
  inferInstanceAs (Decidable (_ ∧ _))

/-- The rest of a line is read. -/
lemma fgetsFrom_line {size : ℕ} {line l : List Char} (h : '\n' ∉ l)
    (hlen : line.length + l.length + 2 ≤ size) (s : List Char) :
    fgetsFrom size line (l ++ '\n' :: s) = (line ++ l ++ ['\n']) :: fgetsFrom size [] s := by
  induction l generalizing line with
  | nil => rw [List.nil_append, fgetsFrom, if_pos (.inl rfl), List.append_nil]
  | cons c l ih =>
    obtain ⟨hc, hl⟩ := List.ne_and_not_mem_of_not_mem_cons h
    rw [List.length_cons] at hlen
    rw [List.cons_append, fgetsFrom, if_neg (by rintro (rfl | h) <;> [exact hc rfl; omega]),
      ih hl (by rw [List.length_append, List.length_singleton]; omega), List.append_assoc line,
      List.singleton_append]

/-- **Lines that fit into the buffer are read as they are.** -/
theorem fgetsFrom_lines {size : ℕ} {lines : List (List Char)} (h : ∀ l ∈ lines, FitsLine size l) :
    fgetsFrom size [] (textOf lines) = lines.map fun l => l ++ ['\n'] := by
  induction lines with
  | nil => rfl
  | cons l lines ih =>
    obtain ⟨hline, hlen⟩ := h l List.mem_cons_self
    have htext : textOf (l :: lines) = l ++ '\n' :: textOf lines := by
      rw [textOf, List.flatMap_cons, List.append_assoc, List.singleton_append]
      rfl
    rw [htext, fgetsFrom_line hline (by rw [List.length_nil]; omega), List.nil_append,
      ih fun l' hl' => h l' (List.mem_cons_of_mem l hl'), List.map_cons]

/-! ## Formats -/

/-- The directives of a format: white space, a character, a number of so many bits, which is stored
or not, and a word. -/
inductive Directive
  | space
  | char (c : Char)
  | unsigned (bits : ℕ) (stored : Bool)
  | string
  deriving DecidableEq, Repr

/-- The directives that a text denotes. -/
def format : List Char → List Directive
  | '%' :: '*' :: 'u' :: s => .unsigned 32 false :: format s
  | '%' :: 'l' :: 'u' :: s => .unsigned 64 true :: format s
  | '%' :: 'u' :: s => .unsigned 32 true :: format s
  | '%' :: 's' :: s => .string :: format s
  | c :: s => (if isspace c.toNat then .space else .char c) :: format s
  | [] => []

/-- A value that is assigned. -/
inductive Value
  | unsigned (n : ℕ)
  | string (s : List Char)
  deriving DecidableEq, Repr

/-- The text behind white space. -/
def skip (s : List Char) : List Char := s.dropWhile fun c => isspace c.toNat

/-- The number at the beginning of a text, as `strtoul` computes it, modulo `2 ^ bits`, and the text
behind it. -/
def scanNumber (bits : ℕ) (s : List Char) : Option (ℕ × List Char) :=
  let (neg, s') := sign (skip s)
  let ds := s'.takeWhile Char.isDigit
  if ds = [] then none
  else some ((unsignedLong neg ds).toNat % 2 ^ bits, s'.dropWhile Char.isDigit)

/-- `sscanf`: the values that are assigned, up to the first directive that fails. -/
def sscanf : List Directive → List Char → List Value
  | [], _ => []
  | .space :: fmt, s => sscanf fmt (skip s)
  | .char _ :: _, [] => []
  | .char c :: fmt, c' :: s => if c = c' then sscanf fmt s else []
  | .unsigned bits stored :: fmt, s =>
    match scanNumber bits s with
    | none => []
    | some (n, s') => if stored then .unsigned n :: sscanf fmt s' else sscanf fmt s'
  | .string :: fmt, s =>
    let word := (skip s).takeWhile fun c => !isspace c.toNat
    if word = [] then []
    else .string word :: sscanf fmt ((skip s).dropWhile fun c => !isspace c.toNat)

/-- The text begins with numbers of 64 bits in decimal notation, each of them behind white space, if
any. -/
inductive Numbers : List ℕ → List Char → List Char → Prop
  | nil (rest : List Char) : Numbers [] rest rest
  | cons {ws ds s rest : List Char} {ns : List ℕ} (hws : ∀ c ∈ ws, isspace c.toNat = true)
      (hds : ∀ c ∈ ds, c.isDigit = true) (hne : ds ≠ []) (hlt : decimal.value ds < 2 ^ 64)
      (havoids : Avoids Char.isDigit s) (hs : Numbers ns s rest) :
      Numbers (decimal.value ds :: ns) (ws ++ (ds ++ s)) rest

/-! ## Reading values -/

variable {fmt : List Directive} {bits : ℕ} {stored : Bool} {ws ds s rest : List Char} {ns : List ℕ}

/-- White space is skipped once. -/
lemma skip_skip (s : List Char) : skip (skip s) = skip s := List.dropWhile_idempotent _ s

lemma skip_append (hws : ∀ c ∈ ws, isspace c.toNat = true) (s : List Char) :
    skip (ws ++ s) = skip s := List.dropWhile_append_of_pos hws

lemma skip_cons {c : Char} (hc : isspace c.toNat = false) (s : List Char) :
    skip (c :: s) = c :: s := List.dropWhile_cons_of_neg (by simp [hc])

/-- A number is read behind white space anyway, -/
@[simp] lemma sscanf_space_unsigned :
    sscanf (.space :: .unsigned bits stored :: fmt) s =
      sscanf (.unsigned bits stored :: fmt) s := by
  rw [sscanf, sscanf, sscanf, scanNumber, scanNumber, skip_skip]

/-- and so is a word. -/
@[simp] lemma sscanf_space_string :
    sscanf (.space :: .string :: fmt) s = sscanf (.string :: fmt) s := by
  rw [sscanf, sscanf, sscanf, skip_skip]

/-- **Digits are read as a whole**, if no digit follows. -/
lemma scanNumber_digits (hws : ∀ c ∈ ws, isspace c.toNat = true)
    (hds : ∀ c ∈ ds, c.isDigit = true) (hne : ds ≠ []) (hlt : decimal.value ds < 2 ^ 64)
    (hrest : Avoids Char.isDigit rest) :
    scanNumber bits (ws ++ (ds ++ rest)) = some (decimal.value ds % 2 ^ bits, rest) := by
  obtain ⟨d, ds', rfl⟩ := List.exists_cons_of_ne_nil hne
  have hd := hds d List.mem_cons_self
  obtain ⟨htake, hdrop⟩ := hrest.span hds
  have hspace : skip (ws ++ (d :: ds' ++ rest)) = d :: ds' ++ rest := by
    rw [skip_append hws, List.cons_append,
      skip_cons (isspace_of_numeralChar (by simp [numeralChar, hd]))]
  have hsign : sign (d :: ds' ++ rest) = (false, d :: ds' ++ rest) := by
    rw [List.cons_append]
    apply sign_of_ne
    · rintro rfl
      exact absurd hd (by decide)
    · rintro rfl
      exact absurd hd (by decide)
  rw [scanNumber, hspace, hsign]
  simp only [htake, hdrop]
  rw [if_neg hne, unsignedLong_of_lt hlt, UInt64.toNat_ofNat', Nat.mod_eq_of_lt hlt]

/-- The directives of numbers, which are stored or not. -/
def numbersFormat (stored : List Bool) : List Directive :=
  stored.flatMap fun st => [.space, .unsigned 32 st]

/-- The numbers that are stored. -/
def picked : List Bool → List ℕ → List Value
  | true :: stored, n :: ns => .unsigned (n % 2 ^ 32) :: picked stored ns
  | false :: stored, _ :: ns => picked stored ns
  | _, _ => []

/-- **Numbers are read in their order.** -/
theorem sscanf_numbers (h : Numbers ns s rest) (stored : List Bool) (fmt : List Directive)
    (hlen : stored.length = ns.length) :
    sscanf (numbersFormat stored ++ fmt) s = picked stored ns ++ sscanf fmt rest := by
  induction h generalizing stored with
  | nil rest =>
    obtain rfl := List.length_eq_zero_iff.mp hlen
    rfl
  | cons hws hds hne hlt havoids hs ih =>
    obtain ⟨st, stored, rfl⟩ := List.exists_cons_of_length_eq_add_one hlen
    have ih := ih stored (Nat.succ.inj hlen)
    show sscanf (.space :: .unsigned 32 st :: (numbersFormat stored ++ fmt)) _ = _
    rw [sscanf_space_unsigned, sscanf, scanNumber_digits hws hds hne hlt havoids]
    cases st with
    | true => simp only [if_true, ih, picked, List.cons_append]
    | false => simp only [Bool.false_eq_true, if_false, ih, picked]

/-- The numbers have 64 bits. -/
lemma Numbers.lt (h : Numbers ns s rest) : ∀ n ∈ ns, n < 2 ^ 64 := by
  induction h with
  | nil rest => simp
  | cons hws hds hne hlt havoids hs ih => exact List.forall_mem_cons.mpr ⟨hlt, ih⟩

/-- More text may follow. -/
lemma Numbers.append (h : Numbers ns s rest) {t : List Char} (ht : Avoids Char.isDigit t) :
    Numbers ns (s ++ t) (rest ++ t) := by
  induction h with
  | nil rest => exact .nil _
  | @cons ws ds s rest ns hws hds hne hlt havoids hs ih =>
    rw [List.append_assoc, List.append_assoc]
    refine .cons hws hds hne hlt ?_ ih
    cases s with
    | nil => exact ht
    | cons c s => exact havoids

/-- Fewer numbers may be read. -/
lemma Numbers.take (h : Numbers ns s rest) (k : ℕ) : ∃ rest', Numbers (ns.take k) s rest' := by
  induction h generalizing k with
  | nil rest => exact ⟨rest, by rw [List.take_nil]; exact .nil rest⟩
  | @cons ws ds s rest ns hws hds hne hlt havoids hs ih =>
    cases k with
    | zero => exact ⟨_, .nil _⟩
    | succ k =>
      obtain ⟨rest', h'⟩ := ih k
      exact ⟨rest', .cons hws hds hne hlt havoids h'⟩

/-- What is in the text is white space, a digit, or behind the numbers. -/
lemma Numbers.mem (h : Numbers ns s rest) {c : Char} (hc : c ∈ s) :
    isspace c.toNat = true ∨ c.isDigit = true ∨ c ∈ rest := by
  induction h with
  | nil rest => exact .inr (.inr hc)
  | cons hws hds hne hlt havoids hs ih =>
    rcases List.mem_append.mp hc with hc | hc
    · exact .inl (hws c hc)
    · rcases List.mem_append.mp hc with hc | hc
      · exact .inr (.inl (hds c hc))
      · exact ih hc

/-- A word is read up to the white space behind it. -/
lemma sscanf_string {word : List Char} (hws : ∀ c ∈ ws, isspace c.toNat = true)
    (hword : ∀ c ∈ word, isspace c.toNat = false) (hne : word ≠ [])
    (hs : ∀ c ∈ s.head?, isspace c.toNat = true) :
    sscanf (.string :: fmt) (ws ++ (word ++ s)) = .string word :: sscanf fmt s := by
  obtain ⟨c, word', rfl⟩ := List.exists_cons_of_ne_nil hne
  have hskip : skip (ws ++ (c :: word' ++ s)) = c :: word' ++ s := by
    rw [skip_append hws, List.cons_append, skip_cons (hword c List.mem_cons_self)]
  have hspan : (c :: word' ++ s).takeWhile (fun c => !isspace c.toNat) = c :: word' ∧
      (c :: word' ++ s).dropWhile (fun c => !isspace c.toNat) = s :=
    Avoids.span (fun c hc => by simp [hs c hc]) (fun c hc => by simp [hword c hc])
  rw [sscanf, hskip, hspan.1, hspan.2, if_neg hne]

/-- Characters are read as they are. -/
lemma sscanf_chars (w s : List Char) :
    sscanf (w.map .char ++ fmt) (w ++ s) = sscanf fmt s := by
  induction w with
  | nil => rfl
  | cons c w ih => rw [List.map_cons, List.cons_append, List.cons_append, sscanf, if_pos rfl, ih]

/-- Characters are read only where they are. -/
lemma isPrefix_of_sscanf_chars {w s : List Char}
    (h : sscanf (w.map .char ++ fmt) s ≠ []) : w <+: s := by
  induction w generalizing s with
  | nil => exact List.nil_prefix
  | cons c w ih =>
    cases s with
    | nil => exact absurd rfl h
    | cons c' s =>
      rw [List.map_cons, List.cons_append, sscanf] at h
      split at h
      · next hc =>
        subst hc
        exact List.cons_prefix_cons.mpr ⟨rfl, ih h⟩
      · exact absurd rfl h

/-! ## Searching a text -/

section Infix

variable {α : Type*} {w l r : List α} {c : α}

lemma prefix_append_cons_iff (hc : c ∉ w) : w <+: l ++ c :: r ↔ w <+: l := by
  refine ⟨fun h => ?_, fun h => h.trans (List.prefix_append l _)⟩
  have hl : l ++ [c] <+: l ++ c :: r := ⟨r, by simp⟩
  rcases List.prefix_or_prefix_of_prefix h hl with hw | hw
  · rcases List.prefix_concat_iff.mp hw with rfl | hw
    · exact absurd (List.mem_append_right l (List.mem_singleton_self c)) hc
    · exact hw
  · exact absurd (hw.subset (List.mem_append_right l (List.mem_singleton_self c))) hc

/-- A text without a character is in front of this character or behind it. -/
lemma infix_append_cons_iff (hc : c ∉ w) : w <:+: l ++ c :: r ↔ w <:+: l ∨ w <:+: r := by
  induction l with
  | nil =>
    have hnil : w <+: c :: r ↔ w <+: [] := prefix_append_cons_iff (l := []) hc
    rw [List.nil_append, List.infix_cons_iff, hnil, List.prefix_nil, List.infix_nil]
  | cons a l ih =>
    rw [List.cons_append, List.infix_cons_iff, ih, List.infix_cons_iff, ← List.cons_append,
      prefix_append_cons_iff hc, or_assoc]

/-- Characters that are not in the text may be left out in front. -/
lemma infix_append_iff {pad : List α} (hpad : ∀ c ∈ pad, c ∉ w) (hw : w ≠ []) :
    w <:+: pad ++ l ↔ w <:+: l := by
  induction pad with
  | nil => exact Iff.rfl
  | cons c pad ih =>
    have hc := infix_append_cons_iff (l := []) (r := pad ++ l) (hpad c List.mem_cons_self)
    rw [List.nil_append, List.infix_nil, or_iff_right hw,
      ih fun c' hc' => hpad c' (List.mem_cons_of_mem c hc')] at hc
    exact hc

end Infix

end Stdio
