import Mathlib.Data.Nat.Fib.Basic
import Cs238p.P3.Avl
import Cs238p.Lib.SortedCounts

set_option relaxedAutoImplicit false
set_option autoImplicit false

/-!
# The representation invariant of the AVL tree

Every tree that a sequence of insertions and removals reaches is a search tree with positive
counts, exact stored depths and balanced children. The search-tree part is carried by the
in-order list: `update` and `removeNode` act on it as `SortedCounts.inc` and `SortedCounts.dec`
do. The balance part is one lemma for each rotation, and from them one lemma each for the two
places where the source rebalances.

## Main definitions

* `Tree.height` — the true height; `Tree.Balanced` — exact depths and balanced children.
* `Tree.Valid` — the representation invariant.

## Main results

* `Tree.balanced_update`, `Tree.balanced_removeNode` — balance, with the change of the depth.
* `Tree.traverse_update`, `Tree.traverse_removeNode` — the in-order list after a call.
* `valid_runCalls` — the invariant of every reachable tree, and the Fibonacci bound.
-/

namespace Cs238p.P3

open SortedCounts

namespace Tree

variable {ι : Type}

/-! ## Heights and balance -/

/-- The true height of a tree; a leaf has height `0`. -/
def height : Tree ι → ℤ
  | nil => -1
  | node _ _ _ _ l r => max l.height r.height + 1

/-- Every stored depth is the height, and the depths of siblings differ by at most one. -/
def Balanced : Tree ι → Prop
  | nil => True
  | node a d c i l r =>
    d = height (node a d c i l r) ∧ (l.delta - r.delta).natAbs ≤ 1 ∧ l.Balanced ∧ r.Balanced

/-- In a balanced tree the stored depth is the height. -/
lemma Balanced.delta_eq_height {t : Tree ι} (h : t.Balanced) : t.delta = t.height := by
  cases t with
  | nil => rfl
  | node a d c i l r => exact h.1

/-- `depth` is one more than the maximum of the stored depths. -/
lemma depth_eq_max (l r : Tree ι) : depth l r = max l.delta r.delta + 1 := by
  unfold depth
  split <;> omega

/-- `depth` does not depend on the order of its arguments. -/
lemma depth_comm (a b : Tree ι) : depth a b = depth b a := by
  rw [depth_eq_max, depth_eq_max, max_comm]

@[simp] lemma delta_nil : (nil : Tree ι).delta = -1 := rfl

@[simp] lemma delta_node (a : ι) (d : ℤ) (c : ℕ) (i : CString) (l r : Tree ι) :
    (node a d c i l r).delta = d := rfl

/-- A node over balanced children of similar depth, with the depth that `depth` computes, is
balanced. -/
lemma balanced_node_depth {a : ι} {c : ℕ} {i : CString} {l r : Tree ι} (hl : l.Balanced)
    (hr : r.Balanced) (h : (l.delta - r.delta).natAbs ≤ 1) :
    (node a (depth l r) c i l r).Balanced := by
  refine ⟨?_, h, hl, hr⟩
  rw [depth_eq_max, hl.delta_eq_height, hr.delta_eq_height]
  rfl

/-- The parts of a balanced node. -/
lemma Balanced.node_iff {a : ι} {d : ℤ} {c : ℕ} {i : CString} {l r : Tree ι} :
    (node a d c i l r).Balanced ↔
      d = max l.delta r.delta + 1 ∧ (l.delta - r.delta).natAbs ≤ 1 ∧ l.Balanced ∧ r.Balanced := by
  constructor
  · rintro ⟨hd, hb, hl, hr⟩
    refine ⟨?_, hb, hl, hr⟩
    rw [hd, hl.delta_eq_height, hr.delta_eq_height]
    rfl
  · rintro ⟨hd, hb, hl, hr⟩
    have h := balanced_node_depth (a := a) (c := c) (i := i) hl hr hb
    rwa [depth_eq_max, ← hd] at h

/-- A stored depth is at least `-1`, and `-1` only in the empty tree. -/
lemma Balanced.neg_one_le_delta {t : Tree ι} (h : t.Balanced) : -1 ≤ t.delta := by
  induction t with
  | nil => simp
  | node a d c i l r ihl ihr =>
    obtain ⟨hd, -, hl, hr⟩ := Balanced.node_iff.mp h
    have := ihl hl
    simp only [delta_node]
    omega

/-- A balanced tree of non-negative depth is a node. -/
lemma Balanced.exists_node {t : Tree ι} (hd : 0 ≤ t.delta) :
    ∃ a d c i l r, t = node a d c i l r := by
  cases t with
  | nil => simp at hd
  | node a d c i l r => exact ⟨a, d, c, i, l, r, rfl⟩

/-! ## Rotations -/

/-- **A single right rotation** of a node whose left child is too tall on the outside. -/
lemma balanced_rotateRight {a a' : ι} {d d' : ℤ} {c c' : ℕ} {i i' : CString}
    {ll lr r : Tree ι} (hl : (node a' d' c' i' ll lr).Balanced) (hr : r.Balanced)
    (hd : d' = r.delta + 2) (hside : lr.delta ≤ ll.delta) :
    (rotateRight (node a d c i (node a' d' c' i' ll lr) r)).Balanced ∧
      (rotateRight (node a d c i (node a' d' c' i' ll lr) r)).delta = lr.delta + 2 := by
  obtain ⟨hd', hb, hll, hlr⟩ := Balanced.node_iff.mp hl
  have hinner : (node a (depth lr r) c i lr r).Balanced :=
    balanced_node_depth hlr hr (by omega)
  have hinnerd : depth lr r = lr.delta + 1 := by rw [depth_eq_max]; omega
  refine ⟨balanced_node_depth hll hinner ?_, ?_⟩
  · rw [delta_node, hinnerd]
    omega
  · rw [rotateRight, delta_node, depth_eq_max, delta_node, hinnerd]
    omega

/-- **A single left rotation** of a node whose right child is too tall on the outside. -/
lemma balanced_rotateLeft {a a' : ι} {d d' : ℤ} {c c' : ℕ} {i i' : CString}
    {l rl rr : Tree ι} (hl : l.Balanced) (hr : (node a' d' c' i' rl rr).Balanced)
    (hd : d' = l.delta + 2) (hside : rl.delta ≤ rr.delta) :
    (rotateLeft (node a d c i l (node a' d' c' i' rl rr))).Balanced ∧
      (rotateLeft (node a d c i l (node a' d' c' i' rl rr))).delta = rl.delta + 2 := by
  obtain ⟨hd', hb, hrl, hrr⟩ := Balanced.node_iff.mp hr
  have hinner : (node a (depth l rl) c i l rl).Balanced :=
    balanced_node_depth hl hrl (by omega)
  have hinnerd : depth l rl = rl.delta + 1 := by rw [depth_eq_max]; omega
  rw [rotateLeft, depth_comm rr]
  refine ⟨balanced_node_depth hinner hrr ?_, ?_⟩
  · rw [delta_node, hinnerd]
    omega
  · rw [delta_node, depth_eq_max, delta_node, hinnerd]
    omega

/-- **A double rotation** of a node whose left child is too tall on the inside. -/
lemma balanced_rotateLeftRight {a a' : ι} {d d' : ℤ} {c c' : ℕ} {i i' : CString}
    {ll lr r : Tree ι} (hl : (node a' d' c' i' ll lr).Balanced) (hr : r.Balanced)
    (hd : d' = r.delta + 2) (hside : lr.delta = ll.delta + 1) :
    (rotateLeftRight (node a d c i (node a' d' c' i' ll lr) r)).Balanced ∧
      (rotateLeftRight (node a d c i (node a' d' c' i' ll lr) r)).delta = r.delta + 2 := by
  obtain ⟨hd', hb, hll, hlr⟩ := Balanced.node_iff.mp hl
  have hll' := hll.neg_one_le_delta
  obtain ⟨a'', d'', c'', i'', m₁, m₂, rfl⟩ := Balanced.exists_node (t := lr) (by omega)
  obtain ⟨hd'', hb', hm₁, hm₂⟩ := Balanced.node_iff.mp hlr
  rw [delta_node] at hside hd' hb
  have hleft : (node a' (depth ll m₁) c' i' ll m₁).Balanced :=
    balanced_node_depth hll hm₁ (by omega)
  have hright : (node a (depth m₂ r) c i m₂ r).Balanced :=
    balanced_node_depth hm₂ hr (by omega)
  have hleftd : depth ll m₁ = ll.delta + 1 := by rw [depth_eq_max]; omega
  have hrightd : depth m₂ r = r.delta + 1 := by rw [depth_eq_max]; omega
  rw [rotateLeftRight, rotateLeft, rotateRight]
  refine ⟨balanced_node_depth hleft hright ?_, ?_⟩
  · rw [delta_node, delta_node, hleftd, hrightd]
    omega
  · rw [delta_node, depth_eq_max, delta_node, delta_node, hleftd, hrightd]
    omega

/-- **A double rotation** of a node whose right child is too tall on the inside. -/
lemma balanced_rotateRightLeft {a a' : ι} {d d' : ℤ} {c c' : ℕ} {i i' : CString}
    {l rl rr : Tree ι} (hl : l.Balanced) (hr : (node a' d' c' i' rl rr).Balanced)
    (hd : d' = l.delta + 2) (hside : rl.delta = rr.delta + 1) :
    (rotateRightLeft (node a d c i l (node a' d' c' i' rl rr))).Balanced ∧
      (rotateRightLeft (node a d c i l (node a' d' c' i' rl rr))).delta = l.delta + 2 := by
  obtain ⟨hd', hb, hrl, hrr⟩ := Balanced.node_iff.mp hr
  have hrr' := hrr.neg_one_le_delta
  obtain ⟨a'', d'', c'', i'', m₁, m₂, rfl⟩ := Balanced.exists_node (t := rl) (by omega)
  obtain ⟨hd'', hb', hm₁, hm₂⟩ := Balanced.node_iff.mp hrl
  rw [delta_node] at hside hd' hb
  have hright : (node a' (depth m₂ rr) c' i' m₂ rr).Balanced :=
    balanced_node_depth hm₂ hrr (by omega)
  have hleft : (node a (depth l m₁) c i l m₁).Balanced :=
    balanced_node_depth hl hm₁ (by omega)
  have hrightd : depth m₂ rr = rr.delta + 1 := by rw [depth_eq_max]; omega
  have hleftd : depth l m₁ = l.delta + 1 := by rw [depth_eq_max]; omega
  rw [rotateRightLeft, rotateRight, rotateLeft, depth_comm (node a' (depth m₂ rr) c' i' m₂ rr)]
  refine ⟨balanced_node_depth hleft hright ?_, ?_⟩
  · rw [delta_node, delta_node, hleftd, hrightd]
    omega
  · rw [delta_node, depth_eq_max, delta_node, delta_node, hleftd, hrightd]
    omega

/-- The depth of a balanced node is already the one that `depth` computes. -/
lemma setDepth_of_balanced {t : Tree ι} (h : t.Balanced) : setDepth t = t := by
  cases t with
  | nil => rfl
  | node a d c i l r =>
    obtain ⟨hd, -⟩ := Balanced.node_iff.mp h
    rw [setDepth, depth_eq_max, ← hd]

/-! ## Insertion -/

/-- The side of a node on which an item was inserted is the taller one. -/
def TallerTowards (x : CString) : Tree ι → Prop
  | nil => False
  | node _ _ _ i l r => (x < i ∧ l.delta = r.delta + 1) ∨ (i < x ∧ r.delta = l.delta + 1)

/-- What an insertion of `x` may have done to the depth of a subtree: nothing, or one more, and
then the subtree was empty or is taller towards `x`. -/
def Grown (x : CString) (t t' : Tree ι) : Prop :=
  t'.Balanced ∧ (t'.delta = t.delta ∨
    (t'.delta = t.delta + 1 ∧ (t = nil ∨ TallerTowards x t')))

/-- If an insertion into the left child brings a node out of balance, then this child is two levels
deeper than the other one, and taller towards the item: it grew and was the taller one before. -/
lemma Grown.tall_left {x : CString} {a : ι} {d : ℤ} {c : ℕ} {i : CString} {l l' r : Tree ι}
    (hl' : Grown x l l') (h : (node a d c i l r).Balanced)
    (himb : 1 < (l'.delta - r.delta).natAbs) :
    l.delta = r.delta + 1 ∧ l'.delta = r.delta + 2 ∧ TallerTowards x l' := by
  obtain ⟨hd, hb, hl, hr⟩ := Balanced.node_iff.mp h
  have hr' := hr.neg_one_le_delta
  have hnil : (nil : Tree ι).delta = -1 := delta_nil
  rcases hl'.2 with hsame | ⟨hld, hside⟩
  · omega
  · refine ⟨by omega, by omega, ?_⟩
    rcases hside with rfl | hside
    · omega
    · exact hside

/-- If an insertion into the right child brings a node out of balance, then this child is two
levels deeper than the other one, and taller towards the item. -/
lemma Grown.tall_right {x : CString} {a : ι} {d : ℤ} {c : ℕ} {i : CString} {l r r' : Tree ι}
    (hr' : Grown x r r') (h : (node a d c i l r).Balanced)
    (himb : 1 < (l.delta - r'.delta).natAbs) :
    r.delta = l.delta + 1 ∧ r'.delta = l.delta + 2 ∧ TallerTowards x r' := by
  obtain ⟨hd, hb, hl, hr⟩ := Balanced.node_iff.mp h
  have hl' := hl.neg_one_le_delta
  have hnil : (nil : Tree ι).delta = -1 := delta_nil
  rcases hr'.2 with hsame | ⟨hrd, hside⟩
  · omega
  · refine ⟨by omega, by omega, ?_⟩
    rcases hside with rfl | hside
    · omega
    · exact hside

/-- **Rebalancing after an insertion to the left.** The comparison of the item with the item of
the left child tells on which side of that child the insertion happened.

**Proof sketch.** The node is out of balance only if the left child grew and was already the
taller one. It was then not empty, so it is taller towards `x`: on the outside if `x` is smaller
than its item, on the inside if it is larger. -/
lemma grown_fixLeft {x : CString} {a : ι} {d : ℤ} {c : ℕ} {i : CString} {l l' r : Tree ι}
    (h : (node a d c i l r).Balanced) (hx : x < i) (hl' : Grown x l l') :
    Grown x (node a d c i l r) (fixLeft x (node a d c i l' r)) := by
  obtain ⟨hd, hb, hl, hr⟩ := Balanced.node_iff.mp h
  obtain ⟨hbal', hgrow⟩ := hl'
  have hr' := hr.neg_one_le_delta
  rw [fixLeft, balance]
  split
  · next himb =>
    obtain ⟨hold, hld, htall⟩ := Grown.tall_left ⟨hbal', hgrow⟩ h himb
    obtain ⟨a', d', c', i', ll, lr, rfl⟩ := Balanced.exists_node (t := l') (by omega)
    rw [delta_node] at himb hld
    simp only [item, gt_iff_lt, CString.strcmp_neg_iff]
    rcases htall with ⟨hxi, hll⟩ | ⟨hix, hlr⟩
    · have hrot := balanced_rotateRight (a := a) (d := d) (c := c) (i := i) hbal' hr (by omega)
        (by omega)
      obtain ⟨hd', -⟩ := Balanced.node_iff.mp hbal'
      rw [if_pos hxi, setDepth_of_balanced hrot.1]
      refine ⟨hrot.1, .inl ?_⟩
      rw [hrot.2, delta_node]
      omega
    · have hrot := balanced_rotateLeftRight (a := a) (d := d) (c := c) (i := i) hbal' hr (by omega)
        hlr
      rw [if_neg hix.asymm, setDepth_of_balanced hrot.1]
      refine ⟨hrot.1, .inl ?_⟩
      rw [hrot.2, delta_node]
      omega
  · next hbalance =>
    refine ⟨balanced_node_depth hbal' hr (by omega), ?_⟩
    simp only [setDepth, delta_node, depth_eq_max]
    by_cases hsame : max l'.delta r.delta + 1 = d
    · exact .inl hsame
    · have hld : l'.delta = l.delta + 1 := by omega
      exact .inr ⟨by omega, .inr (.inl ⟨hx, by omega⟩)⟩

/-- **Rebalancing after an insertion to the right.** -/
lemma grown_fixRight {x : CString} {a : ι} {d : ℤ} {c : ℕ} {i : CString} {l r r' : Tree ι}
    (h : (node a d c i l r).Balanced) (hx : i < x) (hr' : Grown x r r') :
    Grown x (node a d c i l r) (fixRight x (node a d c i l r')) := by
  obtain ⟨hd, hb, hl, hr⟩ := Balanced.node_iff.mp h
  obtain ⟨hbal', hgrow⟩ := hr'
  have hl' := hl.neg_one_le_delta
  rw [fixRight, balance]
  split
  · next himb =>
    obtain ⟨hold, hrd, htall⟩ := Grown.tall_right ⟨hbal', hgrow⟩ h himb
    obtain ⟨a', d', c', i', rl, rr, rfl⟩ := Balanced.exists_node (t := r') (by omega)
    rw [delta_node] at himb hrd
    simp only [item, CString.strcmp_pos_iff]
    rcases htall with ⟨hxi, hrl⟩ | ⟨hix, hrr⟩
    · have hrot := balanced_rotateRightLeft (a := a) (d := d) (c := c) (i := i) hl hbal' (by omega)
        hrl
      rw [if_neg hxi.asymm, setDepth_of_balanced hrot.1]
      refine ⟨hrot.1, .inl ?_⟩
      rw [hrot.2, delta_node]
      omega
    · have hrot := balanced_rotateLeft (a := a) (d := d) (c := c) (i := i) hl hbal' (by omega)
        (by omega)
      obtain ⟨hd', -⟩ := Balanced.node_iff.mp hbal'
      rw [if_pos hix, setDepth_of_balanced hrot.1]
      refine ⟨hrot.1, .inl ?_⟩
      rw [hrot.2, delta_node]
      omega
  · next hbalance =>
    refine ⟨balanced_node_depth hl hbal' (by omega), ?_⟩
    simp only [setDepth, delta_node, depth_eq_max]
    by_cases hsame : max l.delta r'.delta + 1 = d
    · exact .inl hsame
    · have hrd : r'.delta = r.delta + 1 := by omega
      exact .inr ⟨by omega, .inr (.inr ⟨hx, by omega⟩)⟩

/-- **`update` keeps the tree balanced** and makes it at most one level deeper. -/
theorem balanced_update (fresh : ι) (x : CString) (s : Counters) {t : Tree ι} (h : t.Balanced) :
    Grown x t (update fresh x s t).2 := by
  induction t with
  | nil => exact ⟨⟨rfl, by simp, trivial, trivial⟩, .inr ⟨rfl, .inl rfl⟩⟩
  | node a d c i l r ihl ihr =>
    obtain ⟨hd, hb, hl, hr⟩ := Balanced.node_iff.mp h
    rw [update]
    split
    · refine ⟨balanced_node_depth hl hr hb, .inl ?_⟩
      rw [setDepth, delta_node, delta_node, depth_eq_max, hd]
    · next hne =>
      split
      · next hlt => exact grown_fixLeft h (CString.strcmp_neg_iff.mp hlt) (ihl hl)
      · next hnlt =>
        have hpos : 0 < CString.strcmp x i := by omega
        exact grown_fixRight h (CString.strcmp_pos_iff.mp hpos) (ihr hr)

/-! ## Removal -/

/-- What a removal may have done to the depth of a subtree: nothing, or one less. -/
def Shrunk (t t' : Tree ι) : Prop :=
  t'.Balanced ∧ (t'.delta = t.delta ∨ t'.delta = t.delta - 1)

/-- The three cases of `rebalance`. -/
lemma rebalance_node (a : ι) (d : ℤ) (c : ℕ) (i : CString) (l r : Tree ι) :
    rebalance (node a d c i l r) =
      if l.delta - r.delta > 1 then
        if balance l ≥ 0 then rotateRight (node a (depth l r) c i l r)
        else rotateLeftRight (node a (depth l r) c i l r)
      else if l.delta - r.delta < -1 then
        if balance r ≤ 0 then rotateLeft (node a (depth l r) c i l r)
        else rotateRightLeft (node a (depth l r) c i l r)
      else node a (depth l r) c i l r := rfl

/-- **Rebalancing after a removal**: children whose depths differ by at most two are joined to a
balanced tree, which is one level deeper than the taller child or as deep as it.

**Proof sketch.** Within the bound nothing is rotated. A left child that is too tall is rotated
singly if it is not taller on the inside, and doubly otherwise; the right side is symmetric. -/
lemma balanced_rebalance {a : ι} {d : ℤ} {c : ℕ} {i : CString} {l r : Tree ι} (hl : l.Balanced)
    (hr : r.Balanced) (h : (l.delta - r.delta).natAbs ≤ 2) :
    (rebalance (node a d c i l r)).Balanced ∧
      ((rebalance (node a d c i l r)).delta = max l.delta r.delta + 1 ∨
        ((l.delta - r.delta).natAbs = 2 ∧
          (rebalance (node a d c i l r)).delta = max l.delta r.delta)) := by
  have hl' := hl.neg_one_le_delta
  have hr' := hr.neg_one_le_delta
  rw [rebalance_node]
  by_cases hleft : l.delta - r.delta > 1
  · obtain ⟨a', d', c', i', ll, lr, rfl⟩ := Balanced.exists_node (t := l) (by omega)
    obtain ⟨hd', hb', -⟩ := Balanced.node_iff.mp hl
    rw [if_pos hleft]
    rw [delta_node] at hleft h
    by_cases hside : balance (node a' d' c' i' ll lr) ≥ 0
    · rw [if_pos hside]
      rw [balance] at hside
      obtain ⟨hrot, hrotd⟩ := balanced_rotateRight (a := a)
        (d := depth (node a' d' c' i' ll lr) r) (c := c) (i := i) hl hr (by omega) (by omega)
      refine ⟨hrot, ?_⟩
      rw [hrotd, delta_node]
      omega
    · rw [if_neg hside]
      rw [balance] at hside
      obtain ⟨hrot, hrotd⟩ := balanced_rotateLeftRight (a := a)
        (d := depth (node a' d' c' i' ll lr) r) (c := c) (i := i) hl hr (by omega) (by omega)
      refine ⟨hrot, ?_⟩
      rw [hrotd, delta_node]
      omega
  · rw [if_neg hleft]
    by_cases hright : l.delta - r.delta < -1
    · obtain ⟨a', d', c', i', rl, rr, rfl⟩ := Balanced.exists_node (t := r) (by omega)
      obtain ⟨hd', hb', -⟩ := Balanced.node_iff.mp hr
      rw [if_pos hright]
      rw [delta_node] at hright h
      by_cases hside : balance (node a' d' c' i' rl rr) ≤ 0
      · rw [if_pos hside]
        rw [balance] at hside
        obtain ⟨hrot, hrotd⟩ := balanced_rotateLeft (a := a)
          (d := depth l (node a' d' c' i' rl rr)) (c := c) (i := i) hl hr (by omega) (by omega)
        refine ⟨hrot, ?_⟩
        rw [hrotd, delta_node]
        omega
      · rw [if_neg hside]
        rw [balance] at hside
        obtain ⟨hrot, hrotd⟩ := balanced_rotateRightLeft (a := a)
          (d := depth l (node a' d' c' i' rl rr)) (c := c) (i := i) hl hr (by omega) (by omega)
        refine ⟨hrot, ?_⟩
        rw [hrotd, delta_node]
        omega
    · rw [if_neg hright]
      refine ⟨balanced_node_depth hl hr (by omega), .inl ?_⟩
      rw [delta_node, depth_eq_max]

/-- A node whose left child shrank is rebalanced. -/
lemma shrunk_rebalance_left {a a' : ι} {d : ℤ} {c c' : ℕ} {i i' : CString} {l l' r : Tree ι}
    (h : (node a d c i l r).Balanced) (hl' : Shrunk l l') :
    Shrunk (node a d c i l r) (rebalance (node a' d c' i' l' r)) := by
  obtain ⟨hd, hb, hl, hr⟩ := Balanced.node_iff.mp h
  obtain ⟨hbal, hdelta⟩ := hl'
  obtain ⟨hres, hresd⟩ := balanced_rebalance (a := a') (d := d) (c := c') (i := i') hbal hr
    (by omega)
  refine ⟨hres, ?_⟩
  rw [delta_node]
  omega

/-- A node whose right child shrank is rebalanced. -/
lemma shrunk_rebalance_right {a a' : ι} {d : ℤ} {c c' : ℕ} {i i' : CString} {l r r' : Tree ι}
    (h : (node a d c i l r).Balanced) (hr' : Shrunk r r') :
    Shrunk (node a d c i l r) (rebalance (node a' d c' i' l r')) := by
  obtain ⟨hd, hb, hl, hr⟩ := Balanced.node_iff.mp h
  obtain ⟨hbal, hdelta⟩ := hr'
  obtain ⟨hres, hresd⟩ := balanced_rebalance (a := a') (d := d) (c := c') (i := i') hl hbal
    (by omega)
  refine ⟨hres, ?_⟩
  rw [delta_node]
  omega

/-- A balanced subtree has not shrunk. -/
lemma Balanced.shrunk_refl {t : Tree ι} (h : t.Balanced) : Shrunk t t := ⟨h, .inl rfl⟩

/-- A balanced tree is not changed by rebalancing. -/
lemma rebalance_of_balanced {t : Tree ι} (h : t.Balanced) : rebalance t = t := by
  cases t with
  | nil => rfl
  | node a d c i l r =>
    obtain ⟨hd, hb, -⟩ := Balanced.node_iff.mp h
    rw [rebalance_node, if_neg (by omega), if_neg (by omega), depth_eq_max, ← hd]

/-- Setting the count of the leftmost node changes no depth. -/
lemma balanced_setMinCount {t : Tree ι} (h : t.Balanced) :
    t.setMinCount.Balanced ∧ t.setMinCount.delta = t.delta := by
  induction t with
  | nil => exact ⟨trivial, rfl⟩
  | node a d c i l r ihl _ =>
    obtain ⟨hd, hb, hl, hr⟩ := Balanced.node_iff.mp h
    cases l with
    | nil => exact ⟨Balanced.node_iff.mpr ⟨hd, hb, hl, hr⟩, rfl⟩
    | node a' d' c' i' l' r' =>
      obtain ⟨ihb, ihd⟩ := ihl hl
      refine ⟨Balanced.node_iff.mpr ⟨?_, ?_, ihb, hr⟩, rfl⟩
      · rw [ihd, hd]
      · rw [ihd]
        exact hb

section RemoveNode

variable (redup : ι → ι) {x : CString} (flag : Bool) {a : ι} {d : ℤ} {c : ℕ} {i : CString}
  {l r : Tree ι}

@[simp] lemma removeNode_nil : removeNode redup nil x flag = nil := by
  rw [removeNode.eq_def]

/-- A smaller item is removed from the left subtree. -/
lemma removeNode_of_lt (h : x < i) : removeNode redup (node a d c i l r) x flag =
    rebalance (node a d c i (removeNode redup l x false) r) := by
  rw [removeNode.eq_def]
  simp only [CString.strcmp_neg_iff, h, if_true]

/-- A larger item is removed from the right subtree. -/
lemma removeNode_of_gt (h : i < x) : removeNode redup (node a d c i l r) x flag =
    rebalance (node a d c i l (removeNode redup r x false)) := by
  rw [removeNode.eq_def]
  simp only [CString.strcmp_neg_iff, gt_iff_lt, CString.strcmp_pos_iff, h, h.asymm, if_true,
    if_false]

/-- One of several occurrences is removed by counting down. -/
lemma removeNode_of_count (hc : c > 1) : removeNode redup (node a d c i l r) i false =
    rebalance (node a d (c - 1) i l r) := by
  rw [removeNode.eq_def]
  simp only [CString.strcmp_neg_iff, gt_iff_lt, CString.strcmp_pos_iff, lt_irrefl, if_false,
    hc, and_self, if_true]

/-- The last occurrence is removed with its node. -/
lemma removeNode_of_last (hc : ¬ (c > 1 ∧ flag = false)) :
    removeNode redup (node a d c i l r) i flag =
      match l, r with
      | nil, r => rebalance r
      | l, nil => rebalance l
      | l, r => rebalance (node (redup a) d (findMin r).2 (findMin r).1 l
          (removeNode redup (setMinCount r) (findMin r).1 true)) := by
  rw [removeNode.eq_def]
  simp only [CString.strcmp_neg_iff, gt_iff_lt, CString.strcmp_pos_iff, lt_irrefl, if_false,
    if_neg hc]
  cases l <;> cases r <;> rfl

end RemoveNode

/-- **`removeNode` keeps the tree balanced** and makes it at most one level less deep. -/
theorem balanced_removeNode (redup : ι → ι) (x : CString) (flag : Bool) (t : Tree ι)
    (h : t.Balanced) : Shrunk t (removeNode redup t x flag) := by
  induction t, x, flag using removeNode.induct with
  | case1 x flag => simpa using h.shrunk_refl
  | case2 x flag a d c i l r hlt ih =>
    obtain ⟨-, -, hl, -⟩ := Balanced.node_iff.mp h
    rw [removeNode_of_lt redup flag (CString.strcmp_neg_iff.mp hlt)]
    exact shrunk_rebalance_left h (ih hl)
  | case3 x flag a d c i l r _ hgt ih =>
    obtain ⟨-, -, -, hr⟩ := Balanced.node_iff.mp h
    rw [removeNode_of_gt redup flag (CString.strcmp_pos_iff.mp hgt)]
    exact shrunk_rebalance_right h (ih hr)
  | case4 x flag a d c i l r hlt hgt hc =>
    obtain rfl : x = i := CString.strcmp_eq_zero_iff.mp (by omega)
    have hcount : (node a d (c - 1) x l r).Balanced :=
      Balanced.node_iff.mpr (Balanced.node_iff.mp h)
    rw [hc.2, removeNode_of_count redup hc.1, rebalance_of_balanced hcount]
    exact ⟨hcount, .inl rfl⟩
  | case5 x flag a d c i hlt hgt hc =>
    obtain rfl : x = i := CString.strcmp_eq_zero_iff.mp (by omega)
    obtain ⟨hd, -⟩ := Balanced.node_iff.mp h
    rw [removeNode_of_last redup flag hc]
    refine ⟨trivial, .inr ?_⟩
    simp only [rebalance, delta_nil, delta_node] at hd ⊢
    omega
  | case6 x flag a d c i hlt hgt hc a' d' c' i' l' r' =>
    obtain rfl : x = i := CString.strcmp_eq_zero_iff.mp (by omega)
    obtain ⟨hd, hb, -, hr⟩ := Balanced.node_iff.mp h
    have hr' := hr.neg_one_le_delta
    rw [removeNode_of_last redup flag hc]
    simp only [rebalance_of_balanced hr]
    refine ⟨hr, .inr ?_⟩
    simp only [delta_nil, delta_node] at hd hb hr' ⊢
    omega
  | case7 x flag a d c i hlt hgt hc a' d' c' i' l' r' =>
    obtain rfl : x = i := CString.strcmp_eq_zero_iff.mp (by omega)
    obtain ⟨hd, hb, hl, -⟩ := Balanced.node_iff.mp h
    have hl' := hl.neg_one_le_delta
    rw [removeNode_of_last redup flag hc]
    simp only [rebalance_of_balanced hl]
    refine ⟨hl, .inr ?_⟩
    simp only [delta_nil, delta_node] at hd hb hl' ⊢
    omega
  | case8 x flag a d c i hlt hgt hc a₁ d₁ c₁ i₁ l₁ r₁ a₂ d₂ c₂ i₂ l₂ r₂ min ih =>
    obtain rfl : x = i := CString.strcmp_eq_zero_iff.mp (by omega)
    obtain ⟨-, -, -, hr⟩ := Balanced.node_iff.mp h
    obtain ⟨hmin, hmind⟩ := balanced_setMinCount hr
    obtain ⟨hres, hresd⟩ := ih hmin
    rw [removeNode_of_last redup flag hc]
    exact shrunk_rebalance_right h ⟨hres, by rwa [hmind] at hresd⟩

/-! ## The in-order list -/

@[simp] lemma traverse_nil : (nil : Tree ι).traverse = [] := rfl

@[simp] lemma traverse_node (a : ι) (d : ℤ) (c : ℕ) (i : CString) (l r : Tree ι) :
    (node a d c i l r).traverse = l.traverse ++ (i, c) :: r.traverse := rfl

@[simp] lemma traverse_setDepth (t : Tree ι) : t.setDepth.traverse = t.traverse := by
  cases t <;> rfl

/-- Rotations keep the in-order list. -/
@[simp] lemma traverse_rotateRight (t : Tree ι) : t.rotateRight.traverse = t.traverse := by
  rcases t with _ | ⟨a, d, c, i, _ | ⟨a', d', c', i', ll, lr⟩, r⟩ <;> simp [rotateRight]

@[simp] lemma traverse_rotateLeft (t : Tree ι) : t.rotateLeft.traverse = t.traverse := by
  rcases t with _ | ⟨a, d, c, i, l, _ | ⟨a', d', c', i', rl, rr⟩⟩ <;> simp [rotateLeft]

@[simp] lemma traverse_rotateLeftRight (t : Tree ι) :
    t.rotateLeftRight.traverse = t.traverse := by
  cases t <;> simp [rotateLeftRight]

@[simp] lemma traverse_rotateRightLeft (t : Tree ι) :
    t.rotateRightLeft.traverse = t.traverse := by
  cases t <;> simp [rotateRightLeft]

@[simp] lemma traverse_fixLeft (x : CString) (t : Tree ι) :
    (fixLeft x t).traverse = t.traverse := by
  cases t with
  | nil => rfl
  | node a d c i l r => rw [fixLeft]; split_ifs <;> simp

@[simp] lemma traverse_fixRight (x : CString) (t : Tree ι) :
    (fixRight x t).traverse = t.traverse := by
  cases t with
  | nil => rfl
  | node a d c i l r => rw [fixRight]; split_ifs <;> simp

@[simp] lemma traverse_rebalance (t : Tree ι) : t.rebalance.traverse = t.traverse := by
  cases t with
  | nil => rfl
  | node a d c i l r => rw [rebalance_node]; split_ifs <;> simp

/-- **An insertion adds one occurrence to the in-order list.** -/
theorem traverse_update (fresh : ι) (x : CString) (s : Counters) {t : Tree ι}
    (h : Sorted t.traverse) : (update fresh x s t).2.traverse = inc x t.traverse := by
  induction t with
  | nil => rfl
  | node a d c i l r ihl ihr =>
    obtain ⟨hl, hr, -, -⟩ := sorted_append_cons.mp h
    rw [traverse_node, inc_append h, update]
    simp only [CString.strcmp_eq_zero_iff, gt_iff_lt, CString.strcmp_neg_iff]
    rcases lt_trichotomy x i with hx | rfl | hx
    · rw [if_neg hx.ne, if_pos hx, if_pos hx, traverse_fixLeft, traverse_node, ihl hl]
    · rw [if_pos rfl, if_neg (lt_irrefl x), if_pos rfl, traverse_setDepth, traverse_node]
    · rw [if_neg hx.ne', if_neg hx.asymm, if_neg hx.asymm, if_neg hx.ne', traverse_fixRight,
        traverse_node, ihr hr]

/-- The leftmost node is the head of the in-order list, and `setMinCount` sets its count. -/
lemma traverse_setMinCount {t : Tree ι} (h : t ≠ nil) :
    ∃ l, t.traverse = t.findMin :: l ∧ t.setMinCount.traverse = (t.findMin.1, 1) :: l := by
  induction t with
  | nil => exact absurd rfl h
  | node a d c i l r ihl _ =>
    cases l with
    | nil => exact ⟨r.traverse, rfl, rfl⟩
    | node a' d' c' i' l' r' =>
      obtain ⟨k, hk, hk'⟩ := ihl (by simp)
      refine ⟨k ++ (i, c) :: r.traverse, ?_, ?_⟩
      · rw [traverse_node, hk, findMin, List.cons_append]
      · rw [setMinCount, traverse_node, hk', findMin, List.cons_append]

/-- Where a node is removed as a whole, its count is at most one. -/
lemma not_one_lt_of_last {a : ι} {d : ℤ} {c : ℕ} {x : CString} {l r : Tree ι} {flag : Bool}
    (h : Sorted (node a d c x l r).traverse)
    (hflag : flag = true → get x (node a d c x l r).traverse ≤ 1)
    (hc : ¬ (c > 1 ∧ flag = false)) : ¬ 1 < c := by
  rw [traverse_node, get_append h, if_neg (lt_irrefl x), if_pos rfl] at hflag
  cases flag <;> simp_all

/-- **A removal removes one occurrence from the in-order list.** The flag does not change this if
the item has at most one occurrence.

**Proof sketch.** Induction along `removeNode`. In the last case the head `(m, k)` of the in-order
list of the right subtree becomes the item and count of the node, and is removed from the right
subtree after its count was set to one. -/
theorem traverse_removeNode (redup : ι → ι) (x : CString) (flag : Bool) (t : Tree ι)
    (h : Sorted t.traverse) (hflag : flag = true → get x t.traverse ≤ 1) :
    (removeNode redup t x flag).traverse = dec x t.traverse := by
  induction t, x, flag using removeNode.induct with
  | case1 x flag => simp [dec]
  | case2 x flag a d c i l r hlt ih =>
    have hx := CString.strcmp_neg_iff.mp hlt
    obtain ⟨hl, -, -, -⟩ := sorted_append_cons.mp h
    rw [removeNode_of_lt redup flag hx, traverse_rebalance, traverse_node, traverse_node,
      ih hl (by simp), dec_append h, if_pos hx]
  | case3 x flag a d c i l r _ hgt ih =>
    have hx := CString.strcmp_pos_iff.mp hgt
    obtain ⟨-, hr, -, -⟩ := sorted_append_cons.mp h
    rw [removeNode_of_gt redup flag hx, traverse_rebalance, traverse_node, traverse_node,
      ih hr (by simp), dec_append h, if_neg hx.asymm, if_neg hx.ne']
  | case4 x flag a d c i l r hlt hgt hc =>
    obtain rfl : x = i := CString.strcmp_eq_zero_iff.mp (by omega)
    rw [hc.2, removeNode_of_count redup hc.1, traverse_rebalance, traverse_node, traverse_node,
      dec_append h, if_neg (lt_irrefl x), if_pos rfl, if_pos hc.1]
  | case5 x flag a d c i hlt hgt hc =>
    obtain rfl : x = i := CString.strcmp_eq_zero_iff.mp (by omega)
    have hcount : ¬ 1 < c := not_one_lt_of_last h hflag hc
    rw [removeNode_of_last redup flag hc, traverse_node, dec_append h, if_neg (lt_irrefl x),
      if_pos rfl, if_neg hcount]
    rfl
  | case6 x flag a d c i hlt hgt hc a' d' c' i' l' r' =>
    obtain rfl : x = i := CString.strcmp_eq_zero_iff.mp (by omega)
    have hcount : ¬ 1 < c := not_one_lt_of_last h hflag hc
    rw [removeNode_of_last redup flag hc, traverse_node, dec_append h, if_neg (lt_irrefl x),
      if_pos rfl, if_neg hcount]
    simp
  | case7 x flag a d c i hlt hgt hc a' d' c' i' l' r' =>
    obtain rfl : x = i := CString.strcmp_eq_zero_iff.mp (by omega)
    have hcount : ¬ 1 < c := not_one_lt_of_last h hflag hc
    rw [removeNode_of_last redup flag hc, traverse_node, dec_append h, if_neg (lt_irrefl x),
      if_pos rfl, if_neg hcount]
    simp
  | case8 x flag a d c i hlt hgt hc a₁ d₁ c₁ i₁ l₁ r₁ a₂ d₂ c₂ i₂ l₂ r₂ min ih =>
    obtain rfl : x = i := CString.strcmp_eq_zero_iff.mp (by omega)
    have hcount : ¬ 1 < c := not_one_lt_of_last h hflag hc
    obtain ⟨-, hr, -, -⟩ := sorted_append_cons.mp h
    obtain ⟨k, hk, hk'⟩ := traverse_setMinCount (t := node a₂ d₂ c₂ i₂ l₂ r₂) (by simp)
    have hsorted : Sorted ((min.1, 1) :: k) := by
      rw [hk] at hr
      exact List.pairwise_cons.mpr (List.pairwise_cons.mp hr)
    rw [hk'] at ih
    have hrest := ih hsorted (fun _ => by rw [SortedCounts.get, if_pos rfl])
    rw [removeNode_of_last redup flag hc, traverse_node, dec_append h, if_neg (lt_irrefl x),
      if_pos rfl, if_neg hcount]
    simp only [traverse_rebalance]
    rw [traverse_node, hrest, dec, if_pos rfl, if_neg (by omega), hk]

/-! ## The representation invariant -/

/-- The representation invariant: a search tree with positive counts, exact depths and balanced
children. -/
structure Valid (t : Tree ι) : Prop where
  sorted : Sorted t.traverse
  pos : Pos t.traverse
  balanced : t.Balanced

lemma valid_nil : (nil : Tree ι).Valid :=
  ⟨List.Pairwise.nil, fun _ h => absurd h List.not_mem_nil, trivial⟩

/-- An insertion keeps the invariant. -/
lemma Valid.update {t : Tree ι} (h : t.Valid) (fresh : ι) (x : CString) (s : Counters) :
    (update fresh x s t).2.Valid where
  sorted := by rw [traverse_update fresh x s h.sorted]; exact h.sorted.inc
  pos := by rw [traverse_update fresh x s h.sorted]; exact h.pos.inc
  balanced := (balanced_update fresh x s h.balanced).1

/-- A removal keeps the invariant. -/
lemma Valid.removeNode {t : Tree ι} (h : t.Valid) (redup : ι → ι) (x : CString) :
    (removeNode redup t x false).Valid where
  sorted := by rw [traverse_removeNode redup x false t h.sorted (by simp)]; exact h.sorted.dec
  pos := by rw [traverse_removeNode redup x false t h.sorted (by simp)]; exact h.pos.dec
  balanced := (balanced_removeNode redup x false t h.balanced).1

/-- **The Fibonacci bound**: a balanced tree of depth `d` has at least `fib (d + 3) - 1` nodes.

**Proof sketch.** Induction on the tree. The taller child has depth `d - 1` and the other one at
least `d - 2`; the bound is monotone, and `fib (d + 3) = fib (d + 2) + fib (d + 1)`. -/
theorem fib_le_length {t : Tree ι} (h : t.Balanced) :
    Nat.fib (t.delta + 3).toNat ≤ t.traverse.length + 1 := by
  induction t with
  | nil =>
    rw [delta_nil, traverse_nil]
    decide
  | node a d c i l r ihl ihr =>
    obtain ⟨hd, hb, hl, hr⟩ := Balanced.node_iff.mp h
    have hl' := hl.neg_one_le_delta
    have hr' := hr.neg_one_le_delta
    obtain ⟨n, hn⟩ : ∃ n : ℕ, d = n := ⟨d.toNat, by omega⟩
    have hfib : Nat.fib (d + 3).toNat = Nat.fib (n + 1) + Nat.fib (n + 2) := by
      rw [show (d + 3).toNat = n + 1 + 2 by omega, Nat.fib_add_two]
    have hlen : (node a d c i l r).traverse.length + 1 =
        (l.traverse.length + 1) + (r.traverse.length + 1) := by
      simp only [traverse_node, List.length_append, List.length_cons]
      omega
    have hmono : ∀ {m : ℕ} {u : Tree ι}, (m : ℤ) ≤ u.delta + 3 →
        Nat.fib m ≤ Nat.fib (u.delta + 3).toNat := fun hm => Nat.fib_mono (by omega)
    rw [delta_node, hfib, hlen]
    by_cases htall : r.delta ≤ l.delta
    · have h₁ : Nat.fib (n + 2) ≤ Nat.fib (l.delta + 3).toNat := hmono (by push_cast; omega)
      have h₂ : Nat.fib (n + 1) ≤ Nat.fib (r.delta + 3).toNat := hmono (by push_cast; omega)
      have := ihl hl
      have := ihr hr
      omega
    · have h₁ : Nat.fib (n + 2) ≤ Nat.fib (r.delta + 3).toNat := hmono (by push_cast; omega)
      have h₂ : Nat.fib (n + 1) ≤ Nat.fib (l.delta + 3).toNat := hmono (by push_cast; omega)
      have := ihl hl
      have := ihr hr
      omega

end Tree

/-! ## Reachable trees -/

variable {ι : Type}

/-- The tree after `avl_remove`. -/
lemma root_avlRemove (redup : ι → ι) (avl : Avl ι) (item : Word) :
    (avlRemove redup avl item).2.root =
      if avlExists avl item = 0 then avl.root
      else Tree.removeNode redup avl.root item.1 false := by
  unfold avlRemove
  split
  · rfl
  · dsimp only
    split <;> rfl

/-- One call keeps the invariant. -/
lemma valid_exec {avl : Avl ι} (h : avl.root.Valid) (call : Call ι) :
    (call.exec avl).2.root.Valid := by
  cases call with
  | insert item fresh => exact h.update fresh item.1 _
  | remove item redup =>
    rw [Call.exec, root_avlRemove]
    split
    · exact h
    · exact h.removeNode redup item.1

/-- The invariant holds of the tree of every run. -/
lemma valid_root_runCalls (calls : List (Call ι)) : (runCalls calls).root.Valid := by
  unfold runCalls
  induction calls using List.reverseRecOn with
  | nil => exact Tree.valid_nil
  | append_singleton calls call ih =>
    rw [List.foldl_append]
    exact valid_exec ih call

/-- **The representation invariant of every reachable tree.** The in-order keys are strictly
increasing under `strcmp`, every count is positive, every stored depth is the true height, and
the stored depths of siblings differ by at most one; so a tree of `n` distinct items and root
depth `d` has `n ≥ fib (d + 3) - 1`. -/
theorem valid_runCalls (calls : List (Call ι)) :
    (runCalls calls).root.traverse.Pairwise (fun p q => CString.strcmp p.1 q.1 < 0) ∧
    (∀ p ∈ (runCalls calls).root.traverse, 1 ≤ p.2) ∧
    (runCalls calls).root.Balanced ∧
    Nat.fib ((runCalls calls).root.delta + 3).toNat - 1 ≤
      (runCalls calls).root.traverse.length := by
  have h := valid_root_runCalls calls
  refine ⟨?_, h.pos, h.balanced, ?_⟩
  · simp only [CString.strcmp_neg_iff]
    exact h.sorted
  · have := Tree.fib_le_length h.balanced
    omega

end Cs238p.P3
