import Mathlib.Data.List.DropRight
import Mathlib.Data.Nat.Notation

set_option relaxedAutoImplicit false
set_option autoImplicit false

/-!
# White space

The characters that `isspace` admits, and lists without the elements of a kind at both ends.

## Main definitions

* `WhiteSpace.isspace` — the C library function, in the `"C"` locale.
* `WhiteSpace.trim` — a list without the elements of a kind at its ends.

## Main results

* `WhiteSpace.trim_eq_nil_iff` — nothing is left exactly of lists of this kind.
* `WhiteSpace.trim_append_left`, `WhiteSpace.trim_append_right` — what is trimmed may be left out.
-/

namespace WhiteSpace

/-- `isspace`, on the code of a character. -/
def isspace (code : ℕ) : Bool := code = 32 ∨ 9 ≤ code ∧ code ≤ 13

section Trim

variable {α : Type*} (p : α → Bool)

/-- The list without the elements of a kind at its ends. -/
def trim (l : List α) : List α := (l.dropWhile p).rdropWhile p

variable {p}

/-- Nothing is left exactly if all elements are of the kind. -/
lemma trim_eq_nil_iff {l : List α} : trim p l = [] ↔ ∀ x ∈ l, p x = true := by
  rw [trim, List.rdropWhile_eq_nil_iff]
  constructor
  · intro h
    rw [← List.dropWhile_eq_nil_iff]
    by_contra hne
    have hhead := List.head_dropWhile_not p hne
    rw [h _ (List.head_mem hne)] at hhead
    cases hhead
  · exact fun h x hx => h x ((List.dropWhile_sublist p).subset hx)

/-- What is trimmed is a part of the list. -/
lemma trim_subset (l : List α) : trim p l ⊆ l := fun _ hx =>
  (List.dropWhile_sublist p).subset ((List.rdropWhile_prefix p _).subset hx)

/-- If not all elements are of the kind, then taking them off the end leaves those in front. -/
lemma takeWhile_append_trim {l : List α} (h : trim p l ≠ []) :
    l.takeWhile p ++ trim p l = l.rdropWhile p := by
  have hne : (l.dropWhile p).reverse.dropWhile p ≠ [] := fun hnil => h <| by
    rw [trim, List.rdropWhile, hnil, List.reverse_nil]
  conv_rhs => rw [← @List.takeWhile_append_dropWhile _ p l]
  rw [List.rdropWhile, List.reverse_append, List.dropWhile_append,
    if_neg (by simpa using hne), List.reverse_append, List.reverse_reverse, trim, List.rdropWhile]

/-- Elements of the kind in front may be left out. -/
lemma trim_append_left {bs : List α} (h : ∀ x ∈ bs, p x = true) (l : List α) :
    trim p (bs ++ l) = trim p l := by
  rw [trim, List.dropWhile_append_of_pos h, trim]

/-- Elements of the kind at the end may be left out. -/
lemma trim_append_right {bs : List α} (h : ∀ x ∈ bs, p x = true) (l : List α) :
    trim p (l ++ bs) = trim p l := by
  by_cases hl : ∀ x ∈ l, p x = true
  · rw [trim_eq_nil_iff.mpr hl, trim_eq_nil_iff]
    intro x hx
    rcases List.mem_append.mp hx with hx | hx
    · exact hl x hx
    · exact h x hx
  · have hne : l.dropWhile p ≠ [] := fun hnil => hl (List.dropWhile_eq_nil_iff.mp hnil)
    rw [trim, List.dropWhile_append, if_neg (by simpa using hne), trim, List.rdropWhile,
      List.reverse_append, List.dropWhile_append_of_pos (by simpa using h), List.rdropWhile]

end Trim

end WhiteSpace
