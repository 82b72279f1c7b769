import Mathlib.Data.List.Nodup
import Mathlib.Logic.Function.Basic
import Mathlib.Tactic.Common

set_option relaxedAutoImplicit false
set_option autoImplicit false

/-!
# Circular singly linked lists

Cells are linked by a partial function `next`, undefined on cells that are not allocated. A list
of cells is a ring if following `next` from its first cell visits the list and returns to the first
cell.

## Main definitions

* `CircularList.Path` — following `next` leads from one cell through a list to another cell.
* `CircularList.Ring` — a list of distinct cells that are linked in a circle.

## Main results

* `path_append` — paths compose.
* `Ring.rotate` — a ring seen from any of its cells.
* `Ring.snoc` — a cell linked in behind the last one.
-/

namespace CircularList

variable {α : Type*}

/-- Following `next` leads from `x` through the cells of the list to `y`. -/
def Path (next : α → Option α) : α → List α → α → Prop
  | x, [], y => next x = some y
  | x, z :: l, y => next x = some z ∧ Path next z l y

/-- The cells of the list are distinct and linked in a circle. -/
def Ring (next : α → Option α) : List α → Prop
  | [] => True
  | a :: l => (a :: l).Nodup ∧ Path next a l a

variable {next next' : α → Option α} {x y z : α} {l r : List α}

/-- Paths compose. -/
lemma path_append : Path next x (l ++ z :: r) y ↔ Path next x l z ∧ Path next z r y := by
  induction l generalizing x with
  | nil => rfl
  | cons a l ih => rw [List.cons_append, Path, Path, ih, and_assoc]

/-- A path depends on the links of its cells only. -/
lemma Path.congr (h : Path next x l y) (hnext : ∀ u ∈ x :: l, next' u = next u) :
    Path next' x l y := by
  induction l generalizing x with
  | nil => exact (hnext x List.mem_cons_self).trans h
  | cons a l ih =>
    exact ⟨(hnext x List.mem_cons_self).trans h.1,
      ih h.2 fun u hu => hnext u (List.mem_cons_of_mem _ hu)⟩

/-- The last cell of a path is linked to its target. -/
lemma Path.next_getLast (h : Path next x l y) (hlast : (x :: l).getLast? = some z) :
    next z = some y := by
  induction l generalizing x with
  | nil =>
    obtain rfl : x = z := Option.some.inj hlast
    exact h
  | cons a l ih =>
    rw [List.getLast?_cons_cons] at hlast
    exact ih h.2 hlast

lemma Ring.nodup {l : List α} (h : Ring next l) : l.Nodup := by
  cases l with
  | nil => exact List.nodup_nil
  | cons a l => exact h.1

/-- A cell of a ring is not among the others. -/
lemma Ring.not_mem (h : Ring next (l ++ z :: r)) : z ∉ r ++ l := by
  have hnot := (List.nodup_cons.mp (List.nodup_middle.mp h.nodup)).1
  rwa [List.mem_append, or_comm, ← List.mem_append]

/-- **A ring seen from one of its cells.** -/
theorem Ring.rotate (h : Ring next (l ++ z :: r)) : Path next z (r ++ l) z := by
  cases l with
  | nil =>
    rw [List.append_nil]
    exact h.2
  | cons a l =>
    obtain ⟨hl, hr⟩ := path_append.mp h.2
    exact path_append.mpr ⟨hr, hl⟩

/-- The last cell of a ring is linked to the first one. -/
lemma Ring.next_getLast (h : Ring next l) (hlast : l.getLast? = some z) : next z = l.head? := by
  cases l with
  | nil => simp at hlast
  | cons a l => exact h.2.next_getLast hlast

/-- A ring depends on the links of its cells only. -/
lemma Ring.congr (h : Ring next l) (hnext : ∀ u ∈ l, next' u = next u) : Ring next' l := by
  cases l with
  | nil => trivial
  | cons a l => exact ⟨h.1, h.2.congr hnext⟩

variable [DecidableEq α]

/-- A path whose last cell is linked to another target. -/
lemma Path.redirect (h : Path next x (l ++ [z]) y) (hnodup : (x :: (l ++ [z])).Nodup) (y' : α) :
    Path (Function.update next z (some y')) x (l ++ [z]) y' := by
  obtain ⟨hl, -⟩ := path_append.mp h
  refine path_append.mpr ⟨hl.congr fun u hu => Function.update_of_ne ?_ _ _, ?_⟩
  · rintro rfl
    rw [← List.cons_append, List.nodup_append] at hnodup
    exact hnodup.2.2 u hu u List.mem_cons_self rfl
  · rw [Path, Function.update_self]

/-- A path whose last cell, named as such, is linked to another target. -/
lemma Path.redirect_getLast (h : Path next x l y) (hnodup : (x :: l).Nodup)
    (hlast : (x :: l).getLast? = some z) (y' : α) :
    Path (Function.update next z (some y')) x l y' := by
  rcases List.eq_nil_or_concat l with rfl | ⟨l', w, rfl⟩
  · obtain rfl : x = z := Option.some.inj hlast
    rw [Path, Function.update_self]
  · rw [List.concat_eq_append] at h hlast hnodup ⊢
    rw [← List.cons_append, List.getLast?_concat] at hlast
    obtain rfl := Option.some.inj hlast
    exact h.redirect hnodup y'

/-- **A cell linked in behind the last one**: the last cell points to it, and it points to the
first cell. -/
theorem Ring.snoc {a : α} (h : Ring next (a :: l)) (hlast : (a :: l).getLast? = some y)
    (hz : z ∉ a :: l) :
    Ring (Function.update (Function.update next y (some z)) z (some a)) (a :: l ++ [z]) := by
  have hnodup : (a :: l ++ [z]).Nodup := by
    rw [List.nodup_append]
    refine ⟨h.1, List.nodup_singleton z, fun u hu v hv => ?_⟩
    obtain rfl := List.mem_singleton.mp hv
    rintro rfl
    exact hz hu
  refine ⟨hnodup, ?_⟩
  rw [List.append_eq, path_append]
  refine ⟨?_, by rw [Path, Function.update_self]⟩
  have hpath := h.2.redirect_getLast h.1 hlast z
  refine hpath.congr fun u hu => Function.update_of_ne ?_ _ _
  rintro rfl
  exact hz hu

end CircularList
