import Cs238p.P3.AvlInvariant

set_option relaxedAutoImplicit false
set_option autoImplicit false

/-!
# The nodes of an AVL tree

The storage of a node and its string, in the order of the tree. Rotations do not move strings or
nodes, so what a tree occupies depends on this list only.

## Main definitions

* `Tree.nodes` — the storage and the items of the nodes, in order.
* `Tree.unlinked` — the node that a removal takes out of the tree.
* `Tree.released` — the node whose blocks it releases.

## Main results

* `Tree.nodes_rebalance`, `Tree.nodes_fixLeft`, `Tree.nodes_fixRight` — rebalancing keeps the nodes.
* `Tree.unlinked_setMinCount` — the removal of the leftmost item unlinks the leftmost node.
-/

namespace Cs238p.P3.Tree

variable {ι : Type}

/-- The storage and the item of every node, in order. -/
def nodes : Tree ι → List (ι × CString)
  | nil => []
  | node a _ _ i l r => l.nodes ++ (a, i) :: r.nodes

@[simp] lemma nodes_nil : (nil : Tree ι).nodes = [] := rfl

@[simp] lemma nodes_node (a : ι) (d : ℤ) (c : ℕ) (i : CString) (l r : Tree ι) :
    (node a d c i l r).nodes = l.nodes ++ (a, i) :: r.nodes := rfl

@[simp] lemma nodes_setDepth (t : Tree ι) : t.setDepth.nodes = t.nodes := by
  cases t <;> rfl

/-- Rotations keep the nodes. -/
@[simp] lemma nodes_rotateRight (t : Tree ι) : t.rotateRight.nodes = t.nodes := by
  rcases t with _ | ⟨a, d, c, i, _ | ⟨a', d', c', i', ll, lr⟩, r⟩ <;> simp [rotateRight]

@[simp] lemma nodes_rotateLeft (t : Tree ι) : t.rotateLeft.nodes = t.nodes := by
  rcases t with _ | ⟨a, d, c, i, l, _ | ⟨a', d', c', i', rl, rr⟩⟩ <;> simp [rotateLeft]

@[simp] lemma nodes_rotateLeftRight (t : Tree ι) : t.rotateLeftRight.nodes = t.nodes := by
  cases t <;> simp [rotateLeftRight]

@[simp] lemma nodes_rotateRightLeft (t : Tree ι) : t.rotateRightLeft.nodes = t.nodes := by
  cases t <;> simp [rotateRightLeft]

@[simp] lemma nodes_fixLeft (x : CString) (t : Tree ι) : (fixLeft x t).nodes = t.nodes := by
  cases t with
  | nil => rfl
  | node a d c i l r => rw [fixLeft]; split_ifs <;> simp

@[simp] lemma nodes_fixRight (x : CString) (t : Tree ι) : (fixRight x t).nodes = t.nodes := by
  cases t with
  | nil => rfl
  | node a d c i l r => rw [fixRight]; split_ifs <;> simp

@[simp] lemma nodes_rebalance (t : Tree ι) : t.rebalance.nodes = t.nodes := by
  cases t with
  | nil => rfl
  | node a d c i l r => rw [rebalance_node]; split_ifs <;> simp

/-- Counts are no part of the nodes. -/
@[simp] lemma nodes_setMinCount (t : Tree ι) : t.setMinCount.nodes = t.nodes := by
  induction t with
  | nil => rfl
  | node a d c i l r ihl _ =>
    cases l with
    | nil => rfl
    | node a' d' c' i' l' r' => rw [setMinCount, nodes_node, nodes_node, ihl]

/-! ## The node that a removal unlinks -/

/-- The leftmost node, with what hangs below it. -/
def minNode : Tree ι → Tree ι
  | nil => nil
  | node a d c i nil r => node a d c i nil r
  | node _ _ _ _ (node a d c i l r) _ => minNode (node a d c i l r)

/-- The node that `remove_node` takes out of the tree, with what hangs below it: the node of the
item, or the next larger one if the node of the item has two children and takes over its item. It
is `nil` if no node is taken out. -/
def unlinked (x : CString) : Tree ι → Bool → Tree ι
  | nil, _ => nil
  | node a d c i l r, flag =>
    if CString.strcmp x i < 0 then l.unlinked x false
    else if CString.strcmp x i > 0 then r.unlinked x false
    else if c > 1 ∧ flag = false then nil
    else if l.size = 0 ∨ r.size = 0 then node a d c i l r
    else r.minNode

/-- The root has exactly one child. -/
def OneChild : Tree ι → Prop
  | node _ _ _ _ nil (node _ _ _ _ _ _) => True
  | node _ _ _ _ (node _ _ _ _ _ _) nil => True
  | _ => False

instance : DecidablePred (OneChild : Tree ι → Prop)
  | nil => inferInstanceAs (Decidable False)
  | node _ _ _ _ nil nil => inferInstanceAs (Decidable False)
  | node _ _ _ _ nil (node _ _ _ _ _ _) => inferInstanceAs (Decidable True)
  | node _ _ _ _ (node _ _ _ _ _ _) nil => inferInstanceAs (Decidable True)
  | node _ _ _ _ (node _ _ _ _ _ _) (node _ _ _ _ _ _) => inferInstanceAs (Decidable False)

/-- The root of the tree. -/
def top : Tree ι → List (ι × CString)
  | nil => []
  | node a _ _ i _ _ => [(a, i)]

/-- The node whose blocks `remove_node` releases when it unlinks the root: the child if there is
exactly one. -/
def released : Tree ι → List (ι × CString)
  | node _ _ _ _ nil (node a _ _ i _ _) => [(a, i)]
  | node _ _ _ _ (node a _ _ i _ _) nil => [(a, i)]
  | t => t.top

lemma released_of_not_oneChild {t : Tree ι} (h : ¬ t.OneChild) : t.released = t.top := by
  rcases t with _ | ⟨a, d, c, i, _ | ⟨_, _, _, _, _, _⟩, _ | ⟨_, _, _, _, _, _⟩⟩
  · rfl
  · rfl
  · exact absurd trivial h
  · exact absurd trivial h
  · rfl

/-- The leftmost node of a sorted tree is what the search for its item unlinks. -/
lemma unlinked_setMinCount (t : Tree ι) (h : SortedCounts.Sorted t.traverse) (flag : Bool) :
    t.setMinCount.unlinked t.findMin.1 flag = t.setMinCount.minNode := by
  induction t generalizing flag with
  | nil => rfl
  | node a d c i l r ihl _ =>
    cases l with
    | nil =>
      have heq : CString.strcmp i i = 0 := CString.strcmp_eq_zero_iff.mpr rfl
      simp only [setMinCount, findMin, unlinked, heq, lt_irrefl, if_false, size, true_or, if_true,
        false_and, minNode]
    | node a' d' c' i' l' r' =>
      obtain ⟨hl, -, hlt, -⟩ := SortedCounts.sorted_append_cons.mp h
      obtain ⟨k, hk, -⟩ := traverse_setMinCount (t := node a' d' c' i' l' r') (by simp)
      have hmem : (node a' d' c' i' l' r').findMin ∈ (node a' d' c' i' l' r').traverse := by
        rw [hk]
        exact List.mem_cons_self
      rw [setMinCount, findMin, unlinked, if_pos (CString.strcmp_neg_iff.mpr (hlt _ hmem)),
        ihl hl false]
      cases l' <;> rfl

/-- Counts do not matter for what is unlinked. -/
lemma top_minNode_setMinCount (t : Tree ι) : t.setMinCount.minNode.top = t.minNode.top ∧
    t.setMinCount.minNode.released = t.minNode.released := by
  induction t with
  | nil => exact ⟨rfl, rfl⟩
  | node a d c i l r ihl _ =>
    cases l with
    | nil => cases r <;> exact ⟨rfl, rfl⟩
    | node a' d' c' i' l' r' => cases l' <;> exact ihl

end Cs238p.P3.Tree
