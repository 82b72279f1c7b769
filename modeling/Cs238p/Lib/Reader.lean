import Cs238p.Lib.Numeral

set_option relaxedAutoImplicit false
set_option autoImplicit false

/-!
# Reading texts back

A reader takes something off the beginning of a text and leaves the text behind it. This module
shows that readers undo the texts that were written.

## Main definitions

* `Reader.word`, `Reader.natural` — the readers of a given word and of a natural number.
* `Reader.many` — reads as often as possible.

## Main results

* `Reader.natural_toDigits` — a number is read back, if no digit follows.
* `Reader.many_flatMap` — a sequence is read back, if its parts are.
-/

namespace Reader

open CNumeral

variable {α β : Type}

/-- The text behind a word. -/
def word (w : String) (s : List Char) : Option (List Char) := w.toList.isPrefixOf? s

/-- A natural number in decimal notation, and the text behind it. -/
def natural (s : List Char) : Option (ℕ × List Char) :=
  if s.takeWhile Char.isDigit = [] then none
  else some (decimal.value (s.takeWhile Char.isDigit), s.dropWhile Char.isDigit)

/-- What a reader reads as often as it can, at most `fuel` times, and the text behind it. -/
def many (r : List Char → Option (α × List Char)) : ℕ → List Char → List α × List Char
  | 0, s => ([], s)
  | fuel + 1, s =>
    match r s with
    | none => ([], s)
    | some (a, s') => (a :: (many r fuel s').1, (many r fuel s').2)

/-- A word is read. -/
@[simp] lemma word_append (w : String) (s : List Char) : word w (w.toList ++ s) = some s :=
  List.isPrefixOf?_eq_some_iff_append_eq.mpr rfl

/-- **A number is read back**, if no digit follows. -/
lemma natural_toDigits (n : ℕ) {s : List Char} (h : Avoids Char.isDigit s) :
    natural (Nat.toDigits 10 n ++ s) = some (n, s) := by
  have hdigit : ∀ c ∈ Nat.toDigits 10 n, c.isDigit = true := fun c hc =>
    Nat.isDigit_of_mem_toDigits (by decide) (by decide) hc
  obtain ⟨htake, hdrop⟩ := h.span hdigit
  rw [natural, htake, hdrop, if_neg (by simp [Nat.toDigits_ne_nil]), value_decimal,
    Nat.ofDigitChars_ten_toDigits]

/-- **A sequence is read back**, if its parts are. -/
lemma many_flatMap {r : List Char → Option (β × List Char)} {text : α → List Char} {f : α → β}
    {l : List α} (h : ∀ a ∈ l, ∀ s, r (text a ++ s) = some (f a, s)) {s : List Char}
    (hs : r s = none) {fuel : ℕ} (hfuel : l.length ≤ fuel) :
    many r fuel (l.flatMap text ++ s) = (l.map f, s) := by
  induction l generalizing fuel with
  | nil => cases fuel <;> simp [many, hs]
  | cons a l ih =>
    obtain ⟨fuel, rfl⟩ := Nat.exists_eq_add_of_le hfuel
    rw [List.length_cons, Nat.add_right_comm, List.flatMap_cons, List.append_assoc, many,
      h a List.mem_cons_self]
    simp only
    rw [ih (fun b hb => h b (List.mem_cons_of_mem a hb)) (Nat.le_add_right _ _), List.map_cons]

/-- There are at least as many characters as parts that are not empty. -/
lemma length_le_flatMap {text : α → List Char} {l : List α} (h : ∀ a ∈ l, text a ≠ []) :
    l.length ≤ (l.flatMap text).length := by
  induction l with
  | nil => exact le_rfl
  | cons a l ih =>
    have ha := List.length_pos_of_ne_nil (h a List.mem_cons_self)
    have hl := ih fun b hb => h b (List.mem_cons_of_mem a hb)
    rw [List.length_cons, List.flatMap_cons, List.length_append]
    omega

end Reader
