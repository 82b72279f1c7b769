import Mathlib.Algebra.BigOperators.Group.Multiset.Basic
import Mathlib.Algebra.Order.BigOperators.Group.Multiset
import Mathlib.Data.Multiset.Replicate
import Mathlib.Data.Multiset.Dedup
import Mathlib.Data.Finset.Card
import Mathlib.Data.Multiset.Count
import Mathlib.Tactic.Common

set_option relaxedAutoImplicit false
set_option autoImplicit false

/-!
# Multisets as sorted lists of counted elements

The in-order traversal of a search tree with a counter in each node is a list of pairs
`(element, count)` that is strictly increasing in the element. This module gives the operations of
a multiset on such lists, the rules by which an operation at a sorted list `a ++ (k, c) :: b`
happens entirely in `a`, at `k` or in `b`, and the multiset that a list stands for.

## Main definitions

* `SortedCounts.Sorted` — strictly increasing elements; `SortedCounts.Pos` — positive counts.
* `SortedCounts.get`, `SortedCounts.inc`, `SortedCounts.dec` — the count of an element, adding one
  occurrence, removing one occurrence.
* `SortedCounts.toMultiset` — the multiset of a list of counted elements.

## Main results

* `get_append`, `inc_append`, `dec_append` — locality of the operations at a middle element.
* `count_toMultiset`, `toMultiset_inc`, `toMultiset_dec`, `toFinset_card_toMultiset` — the
  operations are those of multisets.
-/

namespace SortedCounts

variable {α : Type} [LinearOrder α]

/-- The elements of the list are strictly increasing. -/
def Sorted (l : List (α × ℕ)) : Prop := l.Pairwise fun p q => p.1 < q.1

/-- All counts of the list are positive. -/
def Pos (l : List (α × ℕ)) : Prop := ∀ p ∈ l, 1 ≤ p.2

/-- The count of an element, zero if it does not occur. -/
def get (x : α) : List (α × ℕ) → ℕ
  | [] => 0
  | (k, c) :: l => if x = k then c else get x l

/-- Add one occurrence of an element. -/
def inc (x : α) : List (α × ℕ) → List (α × ℕ)
  | [] => [(x, 1)]
  | (k, c) :: l =>
    if x < k then (x, 1) :: (k, c) :: l
    else if x = k then (k, c + 1) :: l
    else (k, c) :: inc x l

/-- Remove one occurrence of an element, and the element with its last occurrence. -/
def dec (x : α) : List (α × ℕ) → List (α × ℕ)
  | [] => []
  | (k, c) :: l => if x = k then (if 1 < c then (k, c - 1) :: l else l) else (k, c) :: dec x l

/-- The multiset in which every element has its count. -/
def toMultiset (l : List (α × ℕ)) : Multiset α :=
  (l.map fun p => Multiset.replicate p.2 p.1).sum

/-! ## Sorted lists around a middle element -/

/-- A list around a middle element is sorted if and only if both sides are and the middle element
separates them. -/
lemma sorted_append_cons {a b : List (α × ℕ)} {k : α} {c : ℕ} :
    Sorted (a ++ (k, c) :: b) ↔
      Sorted a ∧ Sorted b ∧ (∀ p ∈ a, p.1 < k) ∧ ∀ p ∈ b, k < p.1 := by
  unfold Sorted
  rw [List.pairwise_append, List.pairwise_cons]
  constructor
  · rintro ⟨ha, ⟨hkb, hb⟩, hab⟩
    exact ⟨ha, hb, fun p hp => hab p hp _ List.mem_cons_self, hkb⟩
  · rintro ⟨ha, hb, hak, hkb⟩
    refine ⟨ha, ⟨hkb, hb⟩, fun p hp q hq => ?_⟩
    rcases List.mem_cons.mp hq with rfl | hq
    · exact hak p hp
    · exact (hak p hp).trans (hkb q hq)

/-- The count of an element that is not in the list. -/
lemma get_of_forall_ne {x : α} {l : List (α × ℕ)} (h : ∀ p ∈ l, x ≠ p.1) : get x l = 0 := by
  induction l with
  | nil => rfl
  | cons p l ih =>
    obtain ⟨k, c⟩ := p
    rw [get, if_neg (h (k, c) List.mem_cons_self)]
    exact ih fun p hp => h p (List.mem_cons_of_mem _ hp)

/-- Looking up a smaller element happens in the left part. -/
lemma get_append_of_lt {a b : List (α × ℕ)} {k x : α} {c : ℕ} (hs : Sorted (a ++ (k, c) :: b))
    (hx : x < k) : get x (a ++ (k, c) :: b) = get x a := by
  obtain ⟨-, -, -, hkb⟩ := sorted_append_cons.mp hs
  have hright : get x ((k, c) :: b) = 0 := by
    refine get_of_forall_ne fun p hp => ?_
    rcases List.mem_cons.mp hp with rfl | hp
    · exact hx.ne
    · exact (hx.trans (hkb p hp)).ne
  clear hs hkb
  induction a with
  | nil => simpa [get] using hright
  | cons p a ih =>
    obtain ⟨k', c'⟩ := p
    simp only [List.cons_append, get]
    split
    · rfl
    · exact ih

/-- Looking up an element that is not in the left part happens to the right of it. -/
lemma get_append_of_forall_lt {a l : List (α × ℕ)} {x : α} (h : ∀ p ∈ a, p.1 < x) :
    get x (a ++ l) = get x l := by
  induction a with
  | nil => rfl
  | cons p a ih =>
    obtain ⟨k, c⟩ := p
    rw [List.cons_append, get, if_neg (h (k, c) List.mem_cons_self).ne']
    exact ih fun p hp => h p (List.mem_cons_of_mem _ hp)

/-- **Lookup is local.** -/
lemma get_append {a b : List (α × ℕ)} {k x : α} {c : ℕ} (hs : Sorted (a ++ (k, c) :: b)) :
    get x (a ++ (k, c) :: b) = if x < k then get x a else if x = k then c else get x b := by
  obtain ⟨-, -, hak, -⟩ := sorted_append_cons.mp hs
  rcases lt_trichotomy x k with hx | rfl | hx
  · rw [if_pos hx, get_append_of_lt hs hx]
  · rw [if_neg (lt_irrefl x), if_pos rfl, get_append_of_forall_lt hak, get, if_pos rfl]
  · rw [if_neg hx.asymm, if_neg hx.ne', get_append_of_forall_lt fun p hp => (hak p hp).trans hx,
      get, if_neg hx.ne']

/-- An element larger than the left part is added to the right of it. -/
lemma inc_append_of_forall_lt {a l : List (α × ℕ)} {x : α} (h : ∀ p ∈ a, p.1 < x) :
    inc x (a ++ l) = a ++ inc x l := by
  induction a with
  | nil => rfl
  | cons p a ih =>
    obtain ⟨k, c⟩ := p
    have hk : k < x := h (k, c) List.mem_cons_self
    rw [List.cons_append, inc, if_neg hk.asymm, if_neg hk.ne',
      ih fun p hp => h p (List.mem_cons_of_mem _ hp), List.cons_append]

/-- An element smaller than the first of the right part is added in the left part. -/
lemma inc_append_of_lt {a l : List (α × ℕ)} {x k : α} {c : ℕ} (hx : x < k) :
    inc x (a ++ (k, c) :: l) = inc x a ++ (k, c) :: l := by
  induction a with
  | nil => simp [inc, hx]
  | cons p a ih =>
    obtain ⟨k', c'⟩ := p
    simp only [List.cons_append, inc]
    split
    · rfl
    · split
      · rfl
      · rw [ih, List.cons_append]

/-- **Adding an occurrence is local.** -/
lemma inc_append {a b : List (α × ℕ)} {k x : α} {c : ℕ} (hs : Sorted (a ++ (k, c) :: b)) :
    inc x (a ++ (k, c) :: b) =
      if x < k then inc x a ++ (k, c) :: b
      else if x = k then a ++ (k, c + 1) :: b
      else a ++ (k, c) :: inc x b := by
  obtain ⟨-, -, hak, -⟩ := sorted_append_cons.mp hs
  rcases lt_trichotomy x k with hx | rfl | hx
  · rw [if_pos hx, inc_append_of_lt hx]
  · rw [if_neg (lt_irrefl x), if_pos rfl, inc_append_of_forall_lt hak, inc,
      if_neg (lt_irrefl x), if_pos rfl]
  · rw [if_neg hx.asymm, if_neg hx.ne', inc_append_of_forall_lt fun p hp => (hak p hp).trans hx,
      inc, if_neg hx.asymm, if_neg hx.ne']

/-- Removing an element that does not occur changes nothing. -/
lemma dec_of_forall_ne {x : α} {l : List (α × ℕ)} (h : ∀ p ∈ l, x ≠ p.1) : dec x l = l := by
  induction l with
  | nil => rfl
  | cons p l ih =>
    obtain ⟨k, c⟩ := p
    rw [dec, if_neg (h (k, c) List.mem_cons_self), ih fun p hp => h p (List.mem_cons_of_mem _ hp)]

/-- An element that is not in the left part is removed to the right of it. -/
lemma dec_append_of_forall_ne {a l : List (α × ℕ)} {x : α} (h : ∀ p ∈ a, x ≠ p.1) :
    dec x (a ++ l) = a ++ dec x l := by
  induction a with
  | nil => rfl
  | cons p a ih =>
    obtain ⟨k, c⟩ := p
    rw [List.cons_append, dec, if_neg (h (k, c) List.mem_cons_self),
      ih fun p hp => h p (List.mem_cons_of_mem _ hp), List.cons_append]

/-- An element that is not in the right part is removed in the left part. -/
lemma dec_append_of_ne {a l : List (α × ℕ)} {x : α} (h : ∀ p ∈ l, x ≠ p.1) :
    dec x (a ++ l) = dec x a ++ l := by
  induction a with
  | nil => exact dec_of_forall_ne h
  | cons p a ih =>
    obtain ⟨k, c⟩ := p
    simp only [List.cons_append, dec]
    split
    · split <;> rfl
    · rw [ih, List.cons_append]

/-- **Removing an occurrence is local.** -/
lemma dec_append {a b : List (α × ℕ)} {k x : α} {c : ℕ} (hs : Sorted (a ++ (k, c) :: b)) :
    dec x (a ++ (k, c) :: b) =
      if x < k then dec x a ++ (k, c) :: b
      else if x = k then (if 1 < c then a ++ (k, c - 1) :: b else a ++ b)
      else a ++ (k, c) :: dec x b := by
  obtain ⟨-, -, hak, hkb⟩ := sorted_append_cons.mp hs
  rcases lt_trichotomy x k with hx | rfl | hx
  · rw [if_pos hx, dec_append_of_ne]
    intro p hp
    rcases List.mem_cons.mp hp with rfl | hp
    · exact hx.ne
    · exact (hx.trans (hkb p hp)).ne
  · rw [if_neg (lt_irrefl x), if_pos rfl, dec_append_of_forall_ne fun p hp => (hak p hp).ne', dec,
      if_pos rfl]
    split <;> rfl
  · rw [if_neg hx.asymm, if_neg hx.ne',
      dec_append_of_forall_ne fun p hp => ((hak p hp).trans hx).ne', dec, if_neg hx.ne']

/-- An element with its count is in a sorted list of positive counts exactly if it is the count
that lookup finds. -/
lemma mem_iff_get {l : List (α × ℕ)} (hs : Sorted l) (hp : Pos l) {x : α} {c : ℕ} :
    (x, c) ∈ l ↔ 0 < c ∧ c = get x l := by
  induction l with
  | nil =>
    simp only [List.not_mem_nil, get, false_iff]
    omega
  | cons p l ih =>
    obtain ⟨k, d⟩ := p
    obtain ⟨hk, hl⟩ := List.pairwise_cons.mp hs
    have hpl : Pos l := fun p hp' => hp p (List.mem_cons_of_mem _ hp')
    rw [List.mem_cons, ih hl hpl, Prod.mk.injEq, get]
    by_cases hx : x = k
    · subst hx
      have hd : 1 ≤ d := hp (x, d) List.mem_cons_self
      have hnot : get x l = 0 := get_of_forall_ne fun p hp' => (hk p hp').ne
      rw [if_pos rfl, hnot]
      constructor
      · rintro (⟨-, rfl⟩ | ⟨hc, h0⟩)
        · exact ⟨hd, rfl⟩
        · omega
      · rintro ⟨-, rfl⟩
        exact .inl ⟨rfl, rfl⟩
    · simp [hx]

/-! ## The operations keep the lists sorted and positive -/

/-- The elements after adding an occurrence of `x`. -/
lemma mem_inc {x y : α} {l : List (α × ℕ)} {c : ℕ} (h : (y, c) ∈ inc x l) :
    y = x ∨ ∃ c', (y, c') ∈ l := by
  induction l with
  | nil => simp_all [inc]
  | cons p l ih =>
    obtain ⟨k, d⟩ := p
    rw [inc] at h
    split at h
    · rcases List.mem_cons.mp h with h | h
      · exact .inl (congrArg Prod.fst h)
      · exact .inr ⟨c, h⟩
    · split at h
      · next hk =>
        rcases List.mem_cons.mp h with h | h
        · exact .inl ((congrArg Prod.fst h).trans hk.symm)
        · exact .inr ⟨c, List.mem_cons_of_mem _ h⟩
      · rcases List.mem_cons.mp h with h | h
        · exact .inr ⟨c, h ▸ List.mem_cons_self⟩
        · rcases ih h with h | ⟨c', h⟩
          · exact .inl h
          · exact .inr ⟨c', List.mem_cons_of_mem _ h⟩

/-- Adding an occurrence keeps the list sorted. -/
lemma Sorted.inc {x : α} {l : List (α × ℕ)} (h : Sorted l) : Sorted (inc x l) := by
  induction l with
  | nil => simp [SortedCounts.inc, Sorted]
  | cons p l ih =>
    obtain ⟨k, c⟩ := p
    obtain ⟨hk, hl⟩ := List.pairwise_cons.mp h
    rw [SortedCounts.inc]
    split
    · next hx =>
      refine List.pairwise_cons.mpr ⟨fun p hp => ?_, h⟩
      rcases List.mem_cons.mp hp with rfl | hp
      · exact hx
      · exact hx.trans (hk p hp)
    · next hx =>
      split
      · exact List.pairwise_cons.mpr ⟨hk, hl⟩
      · next hne =>
        have hkx : k < x := lt_of_le_of_ne (not_lt.mp hx) (Ne.symm hne)
        refine List.pairwise_cons.mpr ⟨fun ⟨y, c'⟩ hp => ?_, ih hl⟩
        rcases mem_inc hp with rfl | ⟨d, hd⟩
        · exact hkx
        · exact (hk (y, d) hd : k < y)

/-- The elements after removing an occurrence were there before. -/
lemma mem_dec {x y : α} {l : List (α × ℕ)} {c : ℕ} (h : (y, c) ∈ dec x l) :
    ∃ c', (y, c') ∈ l := by
  induction l with
  | nil => simp [dec] at h
  | cons p l ih =>
    obtain ⟨k, d⟩ := p
    rw [dec] at h
    split at h
    · split at h
      · rcases List.mem_cons.mp h with h | h
        · obtain ⟨rfl, -⟩ := Prod.mk.inj h
          exact ⟨d, List.mem_cons_self⟩
        · exact ⟨c, List.mem_cons_of_mem _ h⟩
      · exact ⟨c, List.mem_cons_of_mem _ h⟩
    · rcases List.mem_cons.mp h with h | h
      · exact ⟨c, h ▸ List.mem_cons_self⟩
      · obtain ⟨c', h⟩ := ih h
        exact ⟨c', List.mem_cons_of_mem _ h⟩

/-- Removing an occurrence keeps the list sorted. -/
lemma Sorted.dec {x : α} {l : List (α × ℕ)} (h : Sorted l) : Sorted (dec x l) := by
  induction l with
  | nil => simpa [SortedCounts.dec] using h
  | cons p l ih =>
    obtain ⟨k, c⟩ := p
    obtain ⟨hk, hl⟩ := List.pairwise_cons.mp h
    rw [SortedCounts.dec]
    split
    · split
      · exact List.pairwise_cons.mpr ⟨hk, hl⟩
      · exact hl
    · refine List.pairwise_cons.mpr ⟨fun ⟨y, c'⟩ hp => ?_, ih hl⟩
      obtain ⟨d, hd⟩ := mem_dec hp
      exact (hk (y, d) hd : k < y)

/-- Adding an occurrence keeps the counts positive. -/
lemma Pos.inc {x : α} {l : List (α × ℕ)} (h : Pos l) : Pos (inc x l) := by
  induction l with
  | nil => simp [SortedCounts.inc, Pos]
  | cons p l ih =>
    obtain ⟨k, c⟩ := p
    have hl : Pos l := fun p hp => h p (List.mem_cons_of_mem _ hp)
    rw [SortedCounts.inc]
    split
    · intro p hp
      rcases List.mem_cons.mp hp with rfl | hp
      · exact le_rfl
      · exact h p hp
    · split
      · intro p hp
        rcases List.mem_cons.mp hp with rfl | hp
        · exact Nat.le_add_left 1 c
        · exact hl p hp
      · intro p hp
        rcases List.mem_cons.mp hp with rfl | hp
        · exact h _ List.mem_cons_self
        · exact ih hl p hp

/-- Removing an occurrence keeps the counts positive. -/
lemma Pos.dec {x : α} {l : List (α × ℕ)} (h : Pos l) : Pos (dec x l) := by
  induction l with
  | nil => simpa [SortedCounts.dec] using h
  | cons p l ih =>
    obtain ⟨k, c⟩ := p
    have hl : Pos l := fun p hp => h p (List.mem_cons_of_mem _ hp)
    rw [SortedCounts.dec]
    split
    · split
      · next hc =>
        intro p hp
        rcases List.mem_cons.mp hp with rfl | hp
        · exact Nat.le_sub_one_of_lt hc
        · exact hl p hp
      · exact hl
    · intro p hp
      rcases List.mem_cons.mp hp with rfl | hp
      · exact h _ List.mem_cons_self
      · exact ih hl p hp

/-! ## The multiset of a list -/

omit [LinearOrder α] in
@[simp] lemma toMultiset_nil : toMultiset ([] : List (α × ℕ)) = 0 := rfl

omit [LinearOrder α] in
@[simp] lemma toMultiset_cons (p : α × ℕ) (l : List (α × ℕ)) :
    toMultiset (p :: l) = Multiset.replicate p.2 p.1 + toMultiset l := by
  simp [toMultiset]

omit [LinearOrder α] in
/-- An element of the multiset is an element of the list. -/
lemma exists_mem_of_mem_toMultiset {x : α} {l : List (α × ℕ)} (h : x ∈ toMultiset l) :
    ∃ c, (x, c) ∈ l := by
  induction l with
  | nil => simp at h
  | cons p l ih =>
    obtain ⟨k, c⟩ := p
    rw [toMultiset_cons, Multiset.mem_add] at h
    rcases h with h | h
    · exact ⟨c, Multiset.eq_of_mem_replicate h ▸ List.mem_cons_self⟩
    · obtain ⟨c', h⟩ := ih h
      exact ⟨c', List.mem_cons_of_mem _ h⟩

/-- **The count of an element in the multiset** is its count in the list. -/
theorem count_toMultiset {l : List (α × ℕ)} (hs : Sorted l) (x : α) :
    (toMultiset l).count x = get x l := by
  induction l with
  | nil => simp [get]
  | cons p l ih =>
    obtain ⟨k, c⟩ := p
    obtain ⟨hk, hl⟩ := List.pairwise_cons.mp hs
    rw [toMultiset_cons, Multiset.count_add, Multiset.count_replicate, get]
    split
    · next hx =>
      subst hx
      have hnot : (toMultiset l).count k = 0 := by
        rw [Multiset.count_eq_zero]
        intro hmem
        obtain ⟨d, hd⟩ := exists_mem_of_mem_toMultiset hmem
        exact lt_irrefl k (hk (k, d) hd)
      simp [hnot]
    · next hx =>
      rw [if_neg (Ne.symm hx), Nat.zero_add, ih hl]

/-- Adding an occurrence adds the element to the multiset. -/
theorem toMultiset_inc (x : α) (l : List (α × ℕ)) :
    toMultiset (inc x l) = x ::ₘ toMultiset l := by
  induction l with
  | nil => simp [inc]
  | cons p l ih =>
    obtain ⟨k, c⟩ := p
    rw [inc]
    split
    · simp
    · split
      · next hx =>
        subst hx
        simp [Multiset.replicate_succ]
      · rw [toMultiset_cons, toMultiset_cons, ih, Multiset.add_cons]

/-- Removing an occurrence erases the element from the multiset. -/
theorem toMultiset_dec {l : List (α × ℕ)} (hp : Pos l) (x : α) :
    toMultiset (dec x l) = (toMultiset l).erase x := by
  induction l with
  | nil => simp [dec]
  | cons p l ih =>
    obtain ⟨k, c⟩ := p
    have hl : Pos l := fun p hp' => hp p (List.mem_cons_of_mem _ hp')
    have hc : 1 ≤ c := hp (k, c) List.mem_cons_self
    obtain ⟨d, rfl⟩ : ∃ d, c = d + 1 := ⟨c - 1, by omega⟩
    rw [dec]
    split
    · next hx =>
      subst hx
      have herase : (toMultiset ((x, d + 1) :: l)).erase x =
          Multiset.replicate d x + toMultiset l := by
        rw [toMultiset_cons, Multiset.replicate_succ, Multiset.cons_add, Multiset.erase_cons_head]
      rw [herase]
      split
      · simp
      · have hd : d = 0 := by omega
        simp [hd]
    · next hx =>
      have hnot : x ∉ Multiset.replicate (d + 1) k := fun h =>
        hx (Multiset.eq_of_mem_replicate h)
      rw [toMultiset_cons, toMultiset_cons, Multiset.erase_add_right_neg _ hnot, ih hl]

/-- The distinct elements of the multiset are those of the list. -/
theorem toFinset_card_toMultiset {l : List (α × ℕ)} (hs : Sorted l) (hp : Pos l) :
    (toMultiset l).toFinset.card = l.length := by
  induction l with
  | nil => rfl
  | cons p l ih =>
    obtain ⟨k, c⟩ := p
    obtain ⟨hk, hl⟩ := List.pairwise_cons.mp hs
    have hc : c ≠ 0 := by
      have := hp (k, c) List.mem_cons_self
      omega
    have hnot : k ∉ (toMultiset l).toFinset := fun hmem => by
      obtain ⟨d, hd⟩ := exists_mem_of_mem_toMultiset (Multiset.mem_toFinset.mp hmem)
      exact lt_irrefl k (hk (k, d) hd)
    rw [toMultiset_cons, Multiset.toFinset_add, Multiset.toFinset_replicate, if_neg hc,
      Finset.singleton_union, Finset.card_insert_of_notMem hnot,
      ih hl fun p hp' => hp p (List.mem_cons_of_mem _ hp'), List.length_cons]

end SortedCounts
