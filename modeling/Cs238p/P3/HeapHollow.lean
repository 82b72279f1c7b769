import Cs238p.P3.HeapRemove

set_option relaxedAutoImplicit false
set_option autoImplicit false

/-!
# Nodes without an item

The functions that restructure the tree read and write the depths and the links of nodes only. So
they treat a node whose item is the null pointer in the same way as a node with an item: they
commute with the assignment of null to the item.

## Main definitions

* `hollow` — a memory with the item of one node set to null.
* `Pointers` — a set of pointers to nodes that lie apart; `Closed` — links stay inside of it.
* `Tree.pointers` — the pointers to the nodes of a tree.
* `Linked` — a node is reached by child pointers.

## Main results

* `rotateRight_hollow`, `rotateLeft_hollow`, `rebalance_hollow` — the operations do not look at
  items.
* `Tree.Stored.linked` — the nodes of a stored tree are linked, also the one without an item.
-/

namespace Cs238p.P3

open Heap Cs238p.P3.Tree

/-! ## A node without an item -/

/-- The memory in which the item of a node is null. -/
def hollow (z : ℕ) (m : Mem) : Mem := set m z .item 0

/-- The set holds null and pointers to nodes that lie apart, that of `z` among them. -/
structure Pointers (S : Set ℕ) (z : ℕ) : Prop where
  apart : ∀ p ∈ S, p ≠ 0 → ∀ q ∈ S, q ≠ 0 → p = q ∨ (nodeLayout.span p).Disjoint (nodeLayout.span q)
  lt : ∀ p ∈ S, p < 2 ^ 64
  mem : z ∈ S
  ne_zero : z ≠ 0

/-- The children of the nodes in the set belong to it. -/
def Closed (S : Set ℕ) (m : Mem) : Prop :=
  ∀ p ∈ S, p ≠ 0 → ∀ f, f = .left ∨ f = .right → get m p f ∈ S

section Hollow

variable {S : Set ℕ} {z p q v : ℕ} {f : NodeField} {m : Mem} (hS : Pointers S z)

include hS

/-- All other fields are read as before. -/
lemma get_hollow (hp : p ∈ S) (hp0 : p ≠ 0) (hf : f ≠ .item) :
    get (hollow z m) p f = get m p f := by
  rcases hS.apart z hS.mem hS.ne_zero p hp hp0 with rfl | hdisj
  · exact RecordLayout.get_set_of_ne hf.symm
  · exact RecordLayout.get_set_of_disjoint hdisj

/-- Stores into other fields do not touch the item. -/
lemma set_hollow (hp : p ∈ S) (hp0 : p ≠ 0) (hf : f ≠ .item) :
    set (hollow z m) p f v = hollow z (set m p f v) := by
  rcases hS.apart z hS.mem hS.ne_zero p hp hp0 with rfl | hdisj
  · exact RecordLayout.set_comm_of_ne hf.symm
  · exact RecordLayout.set_comm_of_disjoint hdisj

/-- A store keeps the links inside of the set, if it links to a member. -/
lemma Closed.set (hm : Closed S m) (hp : p ∈ S) (hp0 : p ≠ 0)
    (hv : f = .left ∨ f = .right → v ∈ S) : Closed S (Heap.set m p f v) := by
  intro q hq hq0 g hg
  rcases hS.apart p hp hp0 q hq hq0 with rfl | hdisj
  · by_cases hfg : f = g
    · subst hfg
      have hlt := hS.lt v (hv hg)
      have hself : get (Heap.set m p f v) p f = v := by
        apply RecordLayout.get_set_self
        rcases hg with rfl | rfl <;> exact hlt
      rw [hself]
      exact hv hg
    · rw [Heap.get, RecordLayout.get_set_of_ne hfg]
      exact hm p hp hp0 g hg
  · rw [Heap.get, RecordLayout.get_set_of_disjoint hdisj]
    exact hm q hq hq0 g hg

lemma delta_hollow (hp : p ∈ S) : Heap.delta (hollow z m) p = Heap.delta m p := by
  unfold Heap.delta
  split
  · next hp0 => rw [get_hollow hS hp hp0 (by decide)]
  · rfl

lemma balance_hollow (hm : Closed S m) (hp : p ∈ S) (hp0 : p ≠ 0) :
    Heap.balance (hollow z m) p = Heap.balance m p := by
  rw [Heap.balance, get_hollow hS hp hp0 (by decide), get_hollow hS hp hp0 (by decide),
    delta_hollow hS (hm p hp hp0 .left (.inl rfl)), delta_hollow hS (hm p hp hp0 .right (.inr rfl)),
    Heap.balance]

lemma depth_hollow (hp : p ∈ S) (hq : q ∈ S) :
    Heap.depth (hollow z m) p q = Heap.depth m p q := by
  rw [Heap.depth, delta_hollow hS hp, delta_hollow hS hq, Heap.depth]

lemma setDepth_hollow (hm : Closed S m) (hp : p ∈ S) (hp0 : p ≠ 0) :
    Heap.setDepth (hollow z m) p = hollow z (Heap.setDepth m p) := by
  rw [Heap.setDepth, get_hollow hS hp hp0 (by decide), get_hollow hS hp hp0 (by decide),
    depth_hollow hS (hm p hp hp0 .left (.inl rfl)) (hm p hp hp0 .right (.inr rfl)),
    set_hollow hS hp hp0 (by decide), Heap.setDepth]

lemma Closed.setDepth (hm : Closed S m) (hp : p ∈ S) (hp0 : p ≠ 0) :
    Closed S (Heap.setDepth m p) :=
  hm.set hS hp hp0 (by simp)

/-- **`rotate_right`** does not look at items. -/
lemma rotateRight_hollow (hm : Closed S m) (hp : p ∈ S) (hp0 : p ≠ 0) (hl : get m p .left ≠ 0) :
    Heap.rotateRight (hollow z m) p =
        ((Heap.rotateRight m p).1, hollow z (Heap.rotateRight m p).2) ∧
      Closed S (Heap.rotateRight m p).2 := by
  have hq := hm p hp hp0 .left (.inl rfl)
  simp only [Heap.rotateRight, get_hollow hS hp hp0 (show NodeField.left ≠ .item by decide)]
  generalize get m p .left = q at hq hl ⊢
  -- the links
  have hv := hm q hq hl .right (.inr rfl)
  rw [get_hollow hS hq hl (by decide), set_hollow hS hp hp0 (by decide),
    set_hollow hS hq hl (by decide)]
  have h₁ := (hm.set hS hp hp0 (f := .left) fun _ => hv).set hS hq hl (f := .right) fun _ => hp
  generalize Heap.set (Heap.set m p .left (get m q .right)) q .right p = m₁ at h₁ ⊢
  -- the depths
  rw [setDepth_hollow hS h₁ hp hp0]
  have h₂ := h₁.setDepth hS hp hp0
  generalize Heap.setDepth m₁ p = m₂ at h₂ ⊢
  rw [get_hollow hS hq hl (by decide), depth_hollow hS (h₂ q hq hl .left (.inl rfl)) hp,
    set_hollow hS hq hl (by decide)]
  exact ⟨rfl, h₂.set hS hq hl (by simp)⟩

/-- **`rotate_left`** does not look at items. -/
lemma rotateLeft_hollow (hm : Closed S m) (hp : p ∈ S) (hp0 : p ≠ 0) (hr : get m p .right ≠ 0) :
    Heap.rotateLeft (hollow z m) p =
        ((Heap.rotateLeft m p).1, hollow z (Heap.rotateLeft m p).2) ∧
      Closed S (Heap.rotateLeft m p).2 := by
  have hq := hm p hp hp0 .right (.inr rfl)
  simp only [Heap.rotateLeft, get_hollow hS hp hp0 (show NodeField.right ≠ .item by decide)]
  generalize get m p .right = q at hq hr ⊢
  -- the links
  have hv := hm q hq hr .left (.inl rfl)
  rw [get_hollow hS hq hr (by decide), set_hollow hS hp hp0 (by decide),
    set_hollow hS hq hr (by decide)]
  have h₁ := (hm.set hS hp hp0 (f := .right) fun _ => hv).set hS hq hr (f := .left) fun _ => hp
  generalize Heap.set (Heap.set m p .right (get m q .left)) q .left p = m₁ at h₁ ⊢
  -- the depths
  rw [setDepth_hollow hS h₁ hp hp0]
  have h₂ := h₁.setDepth hS hp hp0
  generalize Heap.setDepth m₁ p = m₂ at h₂ ⊢
  rw [get_hollow hS hq hr (by decide), depth_hollow hS (h₂ q hq hr .right (.inr rfl)) hp,
    set_hollow hS hq hr (by decide)]
  exact ⟨rfl, h₂.set hS hq hr (by simp)⟩

/-- A child that was stored is read back. -/
lemma get_set_child (hv : v ∈ S) (hf : f = .left ∨ f = .right) :
    get (Heap.set m p f v) p f = v := by
  have hlt := hS.lt v hv
  apply RecordLayout.get_set_self
  rcases hf with rfl | rfl <;> exact hlt

/-- **`rotate_left_right`** does not look at items. -/
lemma rotateLeftRight_hollow (hm : Closed S m) (hp : p ∈ S) (hp0 : p ≠ 0)
    (hl : get m p .left ≠ 0) (hlr : get m (get m p .left) .right ≠ 0) :
    Heap.rotateLeftRight (hollow z m) p =
      ((Heap.rotateLeftRight m p).1, hollow z (Heap.rotateLeftRight m p).2) := by
  have hq := hm p hp hp0 .left (.inl rfl)
  have hv := hm _ hq hl .right (.inr rfl)
  obtain ⟨hrot, h₁⟩ := rotateLeft_hollow hS hm hq hl hlr
  have hroot : (Heap.rotateLeft m (get m p .left)).1 = get m (get m p .left) .right := rfl
  simp only [Heap.rotateLeftRight, get_hollow hS hp hp0 (show NodeField.left ≠ .item by decide),
    hrot]
  rw [set_hollow hS hp hp0 (by decide)]
  rw [hroot] at hrot ⊢
  refine (rotateRight_hollow hS (h₁.set hS hp hp0 fun _ => hv) hp hp0 ?_).1
  rwa [get_set_child hS hv (.inl rfl)]

/-- **`rotate_right_left`** does not look at items. -/
lemma rotateRightLeft_hollow (hm : Closed S m) (hp : p ∈ S) (hp0 : p ≠ 0)
    (hr : get m p .right ≠ 0) (hrl : get m (get m p .right) .left ≠ 0) :
    Heap.rotateRightLeft (hollow z m) p =
      ((Heap.rotateRightLeft m p).1, hollow z (Heap.rotateRightLeft m p).2) := by
  have hq := hm p hp hp0 .right (.inr rfl)
  have hv := hm _ hq hr .left (.inl rfl)
  obtain ⟨hrot, h₁⟩ := rotateRight_hollow hS hm hq hr hrl
  have hroot : (Heap.rotateRight m (get m p .right)).1 = get m (get m p .right) .left := rfl
  simp only [Heap.rotateRightLeft, get_hollow hS hp hp0 (show NodeField.right ≠ .item by decide),
    hrot]
  rw [set_hollow hS hp hp0 (by decide)]
  rw [hroot] at hrot ⊢
  refine (rotateLeft_hollow hS (h₁.set hS hp hp0 fun _ => hv) hp hp0 ?_).1
  rwa [get_set_child hS hv (.inr rfl)]

end Hollow

/-! ## Stored trees -/

namespace Tree

variable {n lo hi z : ℕ} {m : Mem} {t t' l r : Tree Place} {a : Place} {d : ℤ} {c : ℕ} {i : CString}

/-- Null and the pointers to the nodes. -/
def pointers (t : Tree Place) : Set ℕ := {p | p = 0 ∨ ∃ e ∈ t.nodes, e.1.ptr = p}

lemma mem_pointers_node {p : ℕ} :
    p ∈ (node a d c i l r).pointers ↔ p = a.ptr ∨ p ∈ l.pointers ∨ p ∈ r.pointers := by
  simp only [pointers, Set.mem_ofPred_eq, nodes_node, List.mem_append, List.mem_cons]
  constructor
  · rintro (rfl | ⟨e, he | rfl | he, rfl⟩)
    · exact .inr (.inl (.inl rfl))
    · exact .inr (.inl (.inr ⟨e, he, rfl⟩))
    · exact .inl rfl
    · exact .inr (.inr (.inr ⟨e, he, rfl⟩))
  · rintro (rfl | (rfl | ⟨e, he, rfl⟩) | (rfl | ⟨e, he, rfl⟩))
    · exact .inr ⟨_, .inr (.inl rfl), rfl⟩
    · exact .inl rfl
    · exact .inr ⟨e, .inl he, rfl⟩
    · exact .inl rfl
    · exact .inr ⟨e, .inr (.inr he), rfl⟩

lemma ptr_mem_pointers (t : Tree Place) : t.ptr ∈ t.pointers := by
  cases t with
  | nil => exact .inl rfl
  | node a d c i l r => exact mem_pointers_node.mpr (.inl rfl)

/-- Trees with the same nodes have the same pointers. -/
lemma pointers_of_nodes (h : t.nodes = t'.nodes) : t.pointers = t'.pointers := by
  rw [pointers, h, pointers]

lemma minPtr_mem_pointers (t : Tree Place) : t.minPtr ∈ t.pointers := by
  induction t with
  | nil => exact .inl rfl
  | node a d c i l r ihl _ =>
    cases l with
    | nil => exact mem_pointers_node.mpr (.inl rfl)
    | node a' d' c' i' l' r' => exact mem_pointers_node.mpr (.inr (.inl ihl))

lemma minPtr_ne_zero (ht : t ≠ nil) : t.minPtr ≠ 0 := by
  induction t with
  | nil => exact absurd rfl ht
  | node a d c i l r ihl _ =>
    cases l with
    | nil => exact a.ptr_ne_zero
    | node a' d' c' i' l' r' => exact ihl (by simp)

/-- The links of a stored tree stay inside of it. -/
lemma Stored.closed (h : t.Stored n m) : Closed t.pointers m := by
  induction t with
  | nil =>
    rintro p (rfl | ⟨e, he, -⟩) hp0
    · exact absurd rfl hp0
    · exact absurd he List.not_mem_nil
  | node a d c i l r ihl ihr =>
    obtain ⟨ha, hl, hr⟩ := h
    intro p hp hp0 f hf
    rw [mem_pointers_node]
    rcases mem_pointers_node.mp hp with rfl | hp | hp
    · rcases hf with rfl | rfl
      · exact .inr (.inl (ha.left ▸ l.ptr_mem_pointers))
      · exact .inr (.inr (ha.right ▸ r.ptr_mem_pointers))
    · exact .inr (.inl (ihl hl p hp hp0 f hf))
    · exact .inr (.inr (ihr hr p hp hp0 f hf))

/-- A pointer to a node points into a block of the tree. -/
lemma exists_nodeBlock {p : ℕ} (hp : p ∈ t.pointers) (hp0 : p ≠ 0) :
    ∃ a : Place, a.ptr = p ∧ a.nodeBlock ∈ t.blocks := by
  rcases hp with rfl | ⟨e, he, rfl⟩
  · exact absurd rfl hp0
  · refine ⟨e.1, rfl, t.blocks_perm_nodes.mem_iff.mpr (List.mem_flatMap.mpr ⟨e, he, ?_⟩)⟩
    exact List.mem_cons_self

/-- The nodes of a tree whose blocks lie apart. -/
lemma pointers_of_packed (hpack : Span.Packed lo hi t.blocks) (hhi : hi ≤ 2 ^ 64)
    (hz : z ∈ t.pointers) (hz0 : z ≠ 0) : Pointers t.pointers z := by
  refine ⟨fun p hp hp0 q hq hq0 => ?_, fun p hp => ?_, hz, hz0⟩
  · obtain ⟨a, rfl, ha⟩ := exists_nodeBlock hp hp0
    obtain ⟨b, rfl, hb⟩ := exists_nodeBlock hq hq0
    by_cases heq : a.nodeBlock = b.nodeBlock
    · have hstart : a.node = b.node := congrArg Span.start heq
      exact .inl (by rw [Place.ptr, Place.ptr, hstart])
    · refine .inr ((hpack.disjoint.forall ha hb heq).mono ?_ ?_)
      · exact payload_within (b := a.nodeBlock) (Nat.le_add_right _ _)
      · exact payload_within (b := b.nodeBlock) (Nat.le_add_right _ _)
  · by_cases hp0 : p = 0
    · rw [hp0]
      exact Nat.two_pow_pos 64
    · obtain ⟨a, rfl, ha⟩ := exists_nodeBlock hp hp0
      have hstop := hpack.stop _ ha
      have hsize : nodeLayout.size = 40 := rfl
      rw [Place.nodeBlock, Span.stop] at hstop
      rw [Place.ptr]
      simp only at hstop
      omega

end Tree

section Rebalance

variable {n lo hi z : ℕ} {m : Mem} {l r : Tree Place} {a : Place} {d : ℤ} {c : ℕ} {i : CString}

/-- **The end of `remove_node`** does not look at items. -/
theorem rebalance_hollow (hhi : hi ≤ 2 ^ 64) (h : (node a d c i l r).Stored n m)
    (hpack : Span.Packed lo hi (node a d c i l r).blocks) (hl : l.Balanced) (hr : r.Balanced)
    (hlsh : l.Shallow 3) (hrsh : r.Shallow 3) (hz : z ∈ (node a d c i l r).pointers)
    (hz0 : z ≠ 0) :
    Heap.rebalance (hollow z m) a.ptr =
      ((Heap.rebalance m a.ptr).1, hollow z (Heap.rebalance m a.ptr).2) := by
  have hS := pointers_of_packed hpack hhi hz hz0
  have ha := (node a d c i l r).ptr_mem_pointers
  have ha0 := a.ptr_ne_zero
  rw [ptr_node] at ha
  have hdepth := setDepth_performs h hpack (hlsh.mono (by decide)) (hrsh.mono (by decide))
  have hm := h.closed.setDepth hS ha ha0
  have hl' := hl.neg_one_le_delta
  have hr' := hr.neg_one_le_delta
  simp only [Heap.rebalance, if_pos ha0, setDepth_hollow hS h.closed ha ha0]
  generalize Heap.setDepth m a.ptr = m₁ at hdepth hm ⊢
  have hstored : (node a (Tree.depth l r) c i l r).Stored n m₁ := hdepth.stored
  rw [balance_hollow hS hm ha ha0, get_hollow hS ha ha0 (by decide),
    get_hollow hS ha ha0 (by decide)]
  by_cases hleft : Heap.balance m₁ a.ptr > 1
  · rw [if_pos hleft, if_pos hleft]
    rw [hstored.balance] at hleft
    obtain ⟨a', d', c', i', ll, lr, rfl⟩ := Balanced.exists_node (t := l) (by omega)
    have hchild : get m₁ a.ptr .left = a'.ptr := hstored.1.left
    have hne : get m₁ a.ptr .left ≠ 0 := hchild ▸ a'.ptr_ne_zero
    rw [balance_hollow hS hm (hm _ ha ha0 .left (.inl rfl)) hne]
    by_cases hside : Heap.balance m₁ (get m₁ a.ptr .left) ≥ 0
    · rw [if_pos hside, if_pos hside]
      exact (rotateRight_hollow hS hm ha ha0 hne).1
    · rw [if_neg hside, if_neg hside]
      obtain ⟨-, -, hll, -⟩ := Balanced.node_iff.mp hl
      have hll' := hll.neg_one_le_delta
      rw [hchild, hstored.2.1.balance] at hside
      obtain ⟨a'', d'', c'', i'', lm, rm, rfl⟩ := Balanced.exists_node (t := lr) (by omega)
      refine rotateLeftRight_hollow hS hm ha ha0 hne ?_
      rw [hchild, hstored.2.1.1.right]
      exact a''.ptr_ne_zero
  · rw [if_neg hleft, if_neg hleft]
    by_cases hright : Heap.balance m₁ a.ptr < -1
    · rw [if_pos hright, if_pos hright]
      rw [hstored.balance] at hright
      obtain ⟨a', d', c', i', rl, rr, rfl⟩ := Balanced.exists_node (t := r) (by omega)
      have hchild : get m₁ a.ptr .right = a'.ptr := hstored.1.right
      have hne : get m₁ a.ptr .right ≠ 0 := hchild ▸ a'.ptr_ne_zero
      rw [balance_hollow hS hm (hm _ ha ha0 .right (.inr rfl)) hne]
      by_cases hside : Heap.balance m₁ (get m₁ a.ptr .right) ≤ 0
      · rw [if_pos hside, if_pos hside]
        exact (rotateLeft_hollow hS hm ha ha0 hne).1
      · rw [if_neg hside, if_neg hside]
        obtain ⟨-, -, -, hrr⟩ := Balanced.node_iff.mp hr
        have hrr' := hrr.neg_one_le_delta
        rw [hchild, hstored.2.2.balance] at hside
        obtain ⟨a'', d'', c'', i'', lm, rm, rfl⟩ := Balanced.exists_node (t := rl) (by omega)
        refine rotateRightLeft_hollow hS hm ha ha0 hne ?_
        rw [hchild, hstored.2.2.1.left]
        exact a''.ptr_ne_zero
    · rw [if_neg hright, if_neg hright]

end Rebalance

/-! ## Linked nodes -/

/-- A node is reached from another one by child pointers. -/
inductive Linked (m : Mem) : ℕ → ℕ → Prop
  | here {p : ℕ} (hp : p ≠ 0) : Linked m p p
  | left {p q : ℕ} (hp : p ≠ 0) (h : Linked m (get m p .left) q) : Linked m p q
  | right {p q : ℕ} (hp : p ≠ 0) (h : Linked m (get m p .right) q) : Linked m p q

section Linked

variable {n z : ℕ} {m : Mem} {t : Tree Place}

/-- The nodes of a stored tree are linked, also if one of them has no item. -/
lemma Tree.Stored.linked {S : Set ℕ} (hS : Pointers S z) (h : t.Stored n m) (hsub : t.pointers ⊆ S)
    (hz : z ∈ t.pointers) : Linked (hollow z m) t.ptr z := by
  induction t with
  | nil =>
    rcases hz with h0 | ⟨e, he, -⟩
    · exact absurd h0 hS.ne_zero
    · exact absurd he List.not_mem_nil
  | node a d c i l r ihl ihr =>
    obtain ⟨ha, hl, hr⟩ := h
    have hmem : a.ptr ∈ S := hsub (ptr_mem_pointers _)
    have hleft := (get_hollow (m := m) hS hmem a.ptr_ne_zero (by decide)).trans ha.left
    have hright := (get_hollow (m := m) hS hmem a.ptr_ne_zero (by decide)).trans ha.right
    have hsubl : l.pointers ⊆ S := fun p hp => hsub (mem_pointers_node.mpr (.inr (.inl hp)))
    have hsubr : r.pointers ⊆ S := fun p hp => hsub (mem_pointers_node.mpr (.inr (.inr hp)))
    rcases mem_pointers_node.mp hz with heq | hz | hz
    · rw [ptr_node, ← heq]
      exact .here hS.ne_zero
    · exact .left a.ptr_ne_zero (hleft ▸ ihl hl hsubl hz)
    · exact .right a.ptr_ne_zero (hright ▸ ihr hr hsubr hz)

end Linked

end Cs238p.P3
