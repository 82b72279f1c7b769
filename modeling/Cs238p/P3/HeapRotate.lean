import Cs238p.P3.HeapRepr

set_option relaxedAutoImplicit false
set_option autoImplicit false

/-!
# Rotations of a stored tree

The rotations of `avl.c` store into fields of nodes: they turn a stored tree into the tree that the
rotations of `Tree` yield, in the same blocks. The same holds of what `update` does after each of
its recursive calls.

## Main definitions

* `Performs` — an operation on the memory turns a stored tree into another one.
* `Tree.Shallow` — the depth does not overflow soon.

## Main results

* `rotateRight_performs`, `rotateLeft_performs`, `rotateLeftRight_performs`,
  `rotateRightLeft_performs` — the rotations.
* `fixLeft_performs`, `fixRight_performs` — rebalancing after an insertion.
-/

namespace Cs238p.P3

open Heap Cs238p.P3.Tree

/-- An operation, which returns a pointer and a memory, turns the stored tree into another one and
changes its blocks only. -/
structure Performs (n : ℕ) (m : Mem) (t : Tree Place) (res : ℕ × Mem) (t' : Tree Place) : Prop where
  ptr : res.1 = t'.ptr
  stored : t'.Stored n res.2
  frame : Mem.AgreesOutside t.blocks m res.2

variable {n lo hi : ℕ} {m : Mem} {t t' t'' l l' r r' ll lr rl rr : Tree Place}
  {a a' a'' : Place} {d d' d'' : ℤ} {c c' c'' : ℕ} {i i' i'' x : CString}

/-- Two operations after each other; the first one does not add blocks. -/
lemma Performs.trans {res res' : ℕ × Mem} (h : Performs n m t res t')
    (h' : Performs n res.2 t' res' t'') (hblocks : t'.blocks ⊆ t.blocks) :
    Performs n m t res' t'' :=
  ⟨h'.ptr, h'.stored, h.frame.trans (h'.frame.of_subset hblocks)⟩

namespace Tree

/-! ## The blocks of a rotated tree -/

lemma blocks_setDepth (t : Tree Place) : t.setDepth.blocks = t.blocks := by
  cases t <;> rfl

@[simp] lemma ptr_setDepth (t : Tree Place) : t.setDepth.ptr = t.ptr := by
  cases t <;> rfl

/-- `rotate_left` in the order in which the source assigns the depths. -/
lemma rotateLeft_eq_setDepth : Tree.rotateLeft (node a d c i l (node a' d' c' i' rl rr)) =
    Tree.setDepth (node a' d' c' i' (Tree.setDepth (node a d c i l rl)) rr) := by
  rw [rotateLeft, setDepth, setDepth, Tree.depth_comm rr]

lemma blocks_rotateRight (t : Tree Place) : t.rotateRight.blocks.Perm t.blocks :=
  blocks_perm_of_nodes (nodes_rotateRight t)

lemma blocks_rotateLeft (t : Tree Place) : t.rotateLeft.blocks.Perm t.blocks :=
  blocks_perm_of_nodes (nodes_rotateLeft t)

lemma blocks_rotateLeftRight (t : Tree Place) : t.rotateLeftRight.blocks.Perm t.blocks :=
  blocks_perm_of_nodes (nodes_rotateLeftRight t)

lemma blocks_rotateRightLeft (t : Tree Place) : t.rotateRightLeft.blocks.Perm t.blocks :=
  blocks_perm_of_nodes (nodes_rotateRightLeft t)

/-- `rotate_right_left` in the order in which the source assigns the depths. -/
lemma rotateRightLeft_eq_setDepth :
    Tree.rotateRightLeft (node a d c i l (node a' d' c' i' (node a'' d'' c'' i'' l' r') rr)) =
      Tree.setDepth (node a'' (depth l' (node a' (depth r' rr) c' i' r' rr)) c'' i''
        (Tree.setDepth (node a d c i l l')) (node a' (depth r' rr) c' i' r' rr)) := by
  rw [rotateRightLeft, rotateRight, rotateLeft_eq_setDepth]

/-- The cases of `fixLeft`. -/
lemma fixLeft_node : fixLeft x (node a d c i l r) =
    if 1 < (l.delta - r.delta).natAbs then
      if 0 > CString.strcmp x l.item then setDepth (rotateRight (node a d c i l r))
      else setDepth (rotateLeftRight (node a d c i l r))
    else setDepth (node a d c i l r) := rfl

/-- The cases of `fixRight`. -/
lemma fixRight_node : fixRight x (node a d c i l r) =
    if 1 < (l.delta - r.delta).natAbs then
      if 0 < CString.strcmp x r.item then setDepth (rotateLeft (node a d c i l r))
      else setDepth (rotateRightLeft (node a d c i l r))
    else setDepth (node a d c i l r) := rfl

lemma blocks_fixLeft (x : CString) (t : Tree Place) : (fixLeft x t).blocks.Perm t.blocks :=
  blocks_perm_of_nodes (nodes_fixLeft x t)

lemma blocks_fixRight (x : CString) (t : Tree Place) : (fixRight x t).blocks.Perm t.blocks :=
  blocks_perm_of_nodes (nodes_fixRight x t)

/-! ## Depths that fit into an `int` -/

/-- The tree may become `k` levels deeper before its depth overflows. -/
def Shallow (k : ℤ) (t : Tree Place) : Prop := -1 ≤ t.delta ∧ t.delta + k < 2 ^ 31

lemma shallow_node_depth {j k : ℤ} (hl : l.Shallow j) (hr : r.Shallow j) (hjk : k < j) :
    (node a (depth l r) c i l r).Shallow k := by
  unfold Shallow at hl hr ⊢
  rw [delta_node, depth_eq_max]
  omega

/-- The children of a balanced tree are not deeper than it. -/
lemma Shallow.children {k : ℤ} (h : (node a d c i l r).Shallow k)
    (hbal : (node a d c i l r).Balanced) : l.Shallow (k + 1) ∧ r.Shallow (k + 1) := by
  obtain ⟨hd, -, hl, hr⟩ := Balanced.node_iff.mp hbal
  have hlt := h.2
  rw [delta_node] at hlt
  exact ⟨⟨hl.neg_one_le_delta, by omega⟩, ⟨hr.neg_one_le_delta, by omega⟩⟩

lemma Shallow.mono {j k : ℤ} (h : t.Shallow k) (hjk : j ≤ k) : t.Shallow j :=
  ⟨h.1, by have := h.2; omega⟩

end Tree

/-! ## Rotations -/

lemma Heap.depth_comm (m : Mem) (p q : ℕ) : Heap.depth m p q = Heap.depth m q p := by
  unfold Heap.depth
  split <;> split <;> omega

/-- The last assignment of `rotate_right` is that of the depth. -/
lemma setDepth_of_right {p q : ℕ} (h : get m p .right = q) :
    set m p .depth (ofInt (Heap.depth m (get m p .left) q)) = Heap.setDepth m p := by
  rw [Heap.setDepth, h]

/-- The last assignment of `rotate_left` is that of the depth. -/
lemma setDepth_of_left {p q : ℕ} (h : get m p .left = q) :
    set m p .depth (ofInt (Heap.depth m (get m p .right) q)) = Heap.setDepth m p := by
  rw [Heap.setDepth, h, Heap.depth_comm]

section Rotations

variable {k : ℤ} (hhi : hi ≤ 2 ^ 64)

/-- The assignment of the depth. -/
lemma setDepth_performs (h : (node a d c i l r).Stored n m)
    (hpack : Span.Packed lo hi (node a d c i l r).blocks) (hl : l.Shallow 1) (hr : r.Shallow 1) :
    Performs n m (node a d c i l r) (a.ptr, Heap.setDepth m a.ptr)
      (Tree.setDepth (node a d c i l r)) := by
  obtain ⟨ha, hls, hrs⟩ := h
  obtain ⟨hstr, hnodel, hnoder⟩ := apart_node hpack
  have hdepth : Heap.depth m (get m a.ptr .left) (get m a.ptr .right) = Tree.depth l r := by
    rw [ha.left, ha.right, Stored.depth hls hrs]
  have hshallow := shallow_node_depth (k := 0) (a := a) (c := c) (i := i) hl hr (by decide)
  rw [Shallow, delta_node] at hshallow
  have hframe := set_frame m a .depth (ofInt (Tree.depth l r))
  simp only [Heap.setDepth, hdepth]
  refine ⟨rfl, ⟨?_, ?_, ?_⟩, hframe.of_subset (by simp [blocks_node])⟩
  · exact ha.storeDepth hshallow.1 (by omega) hstr
  · exact hls.frame_blocks hframe (by simpa using hnodel)
  · exact hrs.frame_blocks hframe (by simpa using hnoder)

/-- An operation on the left child that returns its pointer again. -/
lemma Performs.under_left {res : ℕ × Mem} (h : (node a d c i l r).Stored n m)
    (hpack : Span.Packed lo hi (node a d c i l r).blocks) (hP : Performs n m l res l')
    (hres : res.1 = l.ptr) : (node a d c i l' r).Stored n res.2 := by
  have happart : ∀ s ∈ l.blocks, ∀ b ∈ a.nodeBlock :: a.strBlock i :: r.blocks, s.Disjoint b :=
    hpack.apart fun s => by
      simp only [count_blocks_node, List.count_cons, List.count_nil]
      omega
  simp only [List.forall_mem_cons] at happart
  obtain ⟨ha, -, hr⟩ := h
  have ha' := ha.frame_blocks hP.frame fun s hs => ⟨(happart s hs).1, (happart s hs).2.1⟩
  rw [← hres, hP.ptr] at ha'
  exact ⟨ha', hP.stored, hr.frame_blocks hP.frame fun s hs => (happart s hs).2.2⟩

/-- An operation on the right child that returns its pointer again. -/
lemma Performs.under_right {res : ℕ × Mem} (h : (node a d c i l r).Stored n m)
    (hpack : Span.Packed lo hi (node a d c i l r).blocks) (hP : Performs n m r res r')
    (hres : res.1 = r.ptr) : (node a d c i l r').Stored n res.2 := by
  have happart : ∀ s ∈ r.blocks, ∀ b ∈ a.nodeBlock :: a.strBlock i :: l.blocks, s.Disjoint b :=
    hpack.apart fun s => by
      simp only [count_blocks_node, List.count_cons, List.count_nil]
      omega
  simp only [List.forall_mem_cons] at happart
  obtain ⟨ha, hl, -⟩ := h
  have ha' := ha.frame_blocks hP.frame fun s hs => ⟨(happart s hs).1, (happart s hs).2.1⟩
  rw [← hres, hP.ptr] at ha'
  exact ⟨ha', hl.frame_blocks hP.frame fun s hs => (happart s hs).2.2, hP.stored⟩

include hhi

/-- **`rotate_right`** turns the stored tree. -/
lemma rotateRight_performs (h : (node a d c i (node a' d' c' i' ll lr) r).Stored n m)
    (hpack : Span.Packed lo hi (node a d c i (node a' d' c' i' ll lr) r).blocks)
    (hll : ll.Shallow 2) (hlr : lr.Shallow 2) (hr : r.Shallow 2) :
    Performs n m (node a d c i (node a' d' c' i' ll lr) r) (Heap.rotateRight m a.ptr)
      (Tree.rotateRight (node a d c i (node a' d' c' i' ll lr) r)) := by
  have hl := h.2.1
  have hpack' : Span.Packed lo hi (node a' d' c' i' ll (node a d c i lr r)).blocks :=
    hpack.of_count fun s => by
      simp only [count_blocks_node]
      omega
  have hpackr : Span.Packed lo hi (node a d c i lr r).blocks := hpack'.of_count fun s => by
    rw [count_blocks_node (a := a')]
    omega
  simp only [Heap.rotateRight, h.1.left, hl.1.right, ptr_node]
  -- the node takes over the inner child
  have h₁ : (node a d c i lr r).Stored n (set m a.ptr .left lr.ptr) :=
    h.relink_left (W := []) (Mem.AgreesOutside.refl _ m) (by simp) hl.2.2 hpackr hhi
  have hframe₁ := set_frame m a .left lr.ptr
  generalize set m a.ptr .left lr.ptr = m₁ at h₁ hframe₁ ⊢
  -- and becomes a child itself
  have h₂ := hl.relink_right hframe₁ (hpack.apart fun s => by
    simp only [count_blocks_node, List.count_cons, List.count_nil]
    omega) h₁ hpack' hhi
  rw [ptr_node] at h₂
  have hframe₂ := set_frame m₁ a' .right a.ptr
  generalize set m₁ a'.ptr .right a.ptr = m₂ at h₂ hframe₂ ⊢
  -- the two depths
  have h₃ := setDepth_performs h₂.2.2 hpackr (hlr.mono (by decide)) (hr.mono (by decide))
  have h₄ : (node a' d' c' i' ll (Tree.setDepth (node a d c i lr r))).Stored n
      (Heap.setDepth m₂ a.ptr) := h₃.under_right h₂ hpack' rfl
  have h₅ := setDepth_performs h₄ hpack' (hll.mono (by decide))
    (shallow_node_depth hlr hr (by decide))
  have hright := h₄.1.right
  rw [ptr_setDepth, ptr_node] at hright
  rw [setDepth_of_right hright]
  have hf₁ := hframe₁.of_count (V := (node a d c i (node a' d' c' i' ll lr) r).blocks) fun s => by
    simp only [count_blocks_node]
    omega
  have hf₂ := hframe₂.of_count (V := (node a d c i (node a' d' c' i' ll lr) r).blocks) fun s => by
    simp only [count_blocks_node]
    omega
  have hf₃ := h₃.frame.of_count (V := (node a d c i (node a' d' c' i' ll lr) r).blocks) fun s => by
    simp only [count_blocks_node]
    omega
  have hf₅ := h₅.frame.of_count (V := (node a d c i (node a' d' c' i' ll lr) r).blocks) fun s => by
    simp only [count_blocks_node, blocks_setDepth]
    omega
  exact ⟨rfl, h₅.stored, ((hf₁.trans hf₂).trans hf₃).trans hf₅⟩

/-- **`rotate_left`** turns the stored tree. -/
lemma rotateLeft_performs (h : (node a d c i l (node a' d' c' i' rl rr)).Stored n m)
    (hpack : Span.Packed lo hi (node a d c i l (node a' d' c' i' rl rr)).blocks)
    (hl : l.Shallow 2) (hrl : rl.Shallow 2) (hrr : rr.Shallow 2) :
    Performs n m (node a d c i l (node a' d' c' i' rl rr)) (Heap.rotateLeft m a.ptr)
      (Tree.rotateLeft (node a d c i l (node a' d' c' i' rl rr))) := by
  have hr := h.2.2
  have hpack' : Span.Packed lo hi (node a' d' c' i' (node a d c i l rl) rr).blocks :=
    hpack.of_count fun s => by
      simp only [count_blocks_node]
      omega
  have hpackl : Span.Packed lo hi (node a d c i l rl).blocks := hpack'.of_count fun s => by
    rw [count_blocks_node (a := a')]
    omega
  simp only [Heap.rotateLeft, h.1.right, hr.1.left, ptr_node]
  -- the node takes over the inner child
  have h₁ : (node a d c i l rl).Stored n (set m a.ptr .right rl.ptr) :=
    h.relink_right (W := []) (Mem.AgreesOutside.refl _ m) (by simp) hr.2.1 hpackl hhi
  have hframe₁ := set_frame m a .right rl.ptr
  generalize set m a.ptr .right rl.ptr = m₁ at h₁ hframe₁ ⊢
  -- and becomes a child itself
  have h₂ := hr.relink_left hframe₁ (hpack.apart fun s => by
    simp only [count_blocks_node, List.count_cons, List.count_nil]
    omega) h₁ hpack' hhi
  rw [ptr_node] at h₂
  have hframe₂ := set_frame m₁ a' .left a.ptr
  generalize set m₁ a'.ptr .left a.ptr = m₂ at h₂ hframe₂ ⊢
  -- the two depths
  have h₃ := setDepth_performs h₂.2.1 hpackl (hl.mono (by decide)) (hrl.mono (by decide))
  have h₄ : (node a' d' c' i' (Tree.setDepth (node a d c i l rl)) rr).Stored n
      (Heap.setDepth m₂ a.ptr) := h₃.under_left h₂ hpack' rfl
  have h₅ := setDepth_performs h₄ hpack' (shallow_node_depth hl hrl (by decide))
    (hrr.mono (by decide))
  have hleft := h₄.1.left
  rw [ptr_setDepth, ptr_node] at hleft
  rw [setDepth_of_left hleft, rotateLeft_eq_setDepth]
  have hf₁ := hframe₁.of_count (V := (node a d c i l (node a' d' c' i' rl rr)).blocks) fun s => by
    simp only [count_blocks_node]
    omega
  have hf₂ := hframe₂.of_count (V := (node a d c i l (node a' d' c' i' rl rr)).blocks) fun s => by
    simp only [count_blocks_node]
    omega
  have hf₃ := h₃.frame.of_count (V := (node a d c i l (node a' d' c' i' rl rr)).blocks) fun s => by
    simp only [count_blocks_node]
    omega
  have hf₅ := h₅.frame.of_count (V := (node a d c i l (node a' d' c' i' rl rr)).blocks) fun s => by
    simp only [count_blocks_node, blocks_setDepth]
    omega
  exact ⟨rfl, h₅.stored, ((hf₁.trans hf₂).trans hf₃).trans hf₅⟩

/-- **`rotate_left_right`** turns the stored tree. -/
lemma rotateLeftRight_performs
    (h : (node a d c i (node a' d' c' i' ll (node a'' d'' c'' i'' l' r')) r).Stored n m)
    (hpack : Span.Packed lo hi
      (node a d c i (node a' d' c' i' ll (node a'' d'' c'' i'' l' r')) r).blocks)
    (hll : ll.Shallow 3) (hl' : l'.Shallow 3) (hr' : r'.Shallow 3) (hr : r.Shallow 3) :
    Performs n m (node a d c i (node a' d' c' i' ll (node a'' d'' c'' i'' l' r')) r)
      (Heap.rotateLeftRight m a.ptr)
      (Tree.rotateLeftRight
        (node a d c i (node a' d' c' i' ll (node a'' d'' c'' i'' l' r')) r)) := by
  have hpackl : Span.Packed lo hi (node a' d' c' i' ll (node a'' d'' c'' i'' l' r')).blocks :=
    hpack.of_count fun s => by
      rw [count_blocks_node (a := a)]
      omega
  have hrot := rotateLeft_performs hhi h.2.1 hpackl (hll.mono (by decide)) (hl'.mono (by decide))
    (hr'.mono (by decide))
  have hblocks := List.perm_iff_count.mp
    (blocks_rotateLeft (node a' d' c' i' ll (node a'' d'' c'' i'' l' r')))
  simp only [Heap.rotateLeftRight, h.1.left, ptr_node, hrot.ptr]
  have hpack' : Span.Packed lo hi (node a d c i
      (Tree.rotateLeft (node a' d' c' i' ll (node a'' d'' c'' i'' l' r'))) r).blocks :=
    hpack.of_count fun s => by
      rw [count_blocks_node, hblocks, ← count_blocks_node]
  have h₁ := h.relink_left hrot.frame (hpack.apart fun s => by
    rw [count_blocks_node (a := a)]
    simp only [List.count_cons, List.count_nil]
    omega) hrot.stored hpack' hhi
  have hframe₁ := set_frame (Heap.rotateLeft m a'.ptr).2 a .left
    (Tree.rotateLeft (node a' d' c' i' ll (node a'' d'' c'' i'' l' r'))).ptr
  have h₂ := rotateRight_performs hhi h₁ hpack' (shallow_node_depth hll hl' (by decide))
    (hr'.mono (by decide)) (hr.mono (by decide))
  have hf₀ := hrot.frame.of_count
      (V := (node a d c i (node a' d' c' i' ll (node a'' d'' c'' i'' l' r')) r).blocks) fun s => by
    rw [count_blocks_node (a := a)]
    omega
  have hf₁ := hframe₁.of_count
      (V := (node a d c i (node a' d' c' i' ll (node a'' d'' c'' i'' l' r')) r).blocks) fun s => by
    rw [count_blocks_node (a := a)]
    omega
  have hf₂ := h₂.frame.of_count
      (V := (node a d c i (node a' d' c' i' ll (node a'' d'' c'' i'' l' r')) r).blocks) fun s => by
    simp only [count_blocks_node]
    omega
  exact ⟨h₂.ptr, h₂.stored, (hf₀.trans hf₁).trans hf₂⟩

/-- **`rotate_right_left`** turns the stored tree. -/
lemma rotateRightLeft_performs
    (h : (node a d c i l (node a' d' c' i' (node a'' d'' c'' i'' l' r') rr)).Stored n m)
    (hpack : Span.Packed lo hi
      (node a d c i l (node a' d' c' i' (node a'' d'' c'' i'' l' r') rr)).blocks)
    (hl : l.Shallow 3) (hl' : l'.Shallow 3) (hr' : r'.Shallow 3) (hrr : rr.Shallow 3) :
    Performs n m (node a d c i l (node a' d' c' i' (node a'' d'' c'' i'' l' r') rr))
      (Heap.rotateRightLeft m a.ptr)
      (Tree.rotateRightLeft
        (node a d c i l (node a' d' c' i' (node a'' d'' c'' i'' l' r') rr))) := by
  have hpackr : Span.Packed lo hi (node a' d' c' i' (node a'' d'' c'' i'' l' r') rr).blocks :=
    hpack.of_count fun s => by
      rw [count_blocks_node (a := a)]
      omega
  have hrot := rotateRight_performs hhi h.2.2 hpackr (hl'.mono (by decide)) (hr'.mono (by decide))
    (hrr.mono (by decide))
  have hblocks := List.perm_iff_count.mp
    (blocks_rotateRight (node a' d' c' i' (node a'' d'' c'' i'' l' r') rr))
  simp only [Heap.rotateRightLeft, h.1.right, ptr_node, hrot.ptr]
  have hpack' : Span.Packed lo hi (node a d c i l
      (Tree.rotateRight (node a' d' c' i' (node a'' d'' c'' i'' l' r') rr))).blocks :=
    hpack.of_count fun s => by
      rw [count_blocks_node, hblocks, ← count_blocks_node]
  have h₁ := h.relink_right hrot.frame (hpack.apart fun s => by
    rw [count_blocks_node (a := a)]
    simp only [List.count_cons, List.count_nil]
    omega) hrot.stored hpack' hhi
  have hframe₁ := set_frame (Heap.rotateRight m a'.ptr).2 a .right
    (Tree.rotateRight (node a' d' c' i' (node a'' d'' c'' i'' l' r') rr)).ptr
  have h₂ := rotateLeft_performs hhi h₁ hpack' (hl.mono (by decide)) (hl'.mono (by decide))
    (shallow_node_depth hr' hrr (by decide))
  have hf₀ := hrot.frame.of_count
      (V := (node a d c i l (node a' d' c' i' (node a'' d'' c'' i'' l' r') rr)).blocks) fun s => by
    rw [count_blocks_node (a := a)]
    omega
  have hf₁ := hframe₁.of_count
      (V := (node a d c i l (node a' d' c' i' (node a'' d'' c'' i'' l' r') rr)).blocks) fun s => by
    rw [count_blocks_node (a := a)]
    omega
  have hf₂ := h₂.frame.of_count
      (V := (node a d c i l (node a' d' c' i' (node a'' d'' c'' i'' l' r') rr)).blocks) fun s => by
    simp only [count_blocks_node]
    omega
  exact ⟨h₂.ptr, h₂.stored, (hf₀.trans hf₁).trans hf₂⟩

/-- The rotations of `update`, followed by the assignment of the depth, for the left child. -/
lemma fixLeft_performs (h : (node a d c i l' r).Stored n m)
    (hpack : Span.Packed lo hi (node a d c i l' r).blocks)
    (hbal : (node a d' c' i' l r).Balanced) (hgrown : Grown x l l') (hl : l'.Shallow 3)
    (hr : r.Shallow 3) :
    Performs n m (node a d c i l' r) (Heap.fixLeft n m a.ptr x)
      (Tree.fixLeft x (node a d c i l' r)) := by
  rw [fixLeft_node]
  simp only [Heap.fixLeft, h.balance]
  by_cases himb : 1 < (l'.delta - r.delta).natAbs
  · rw [if_pos himb, if_pos himb]
    obtain ⟨-, hld, htall⟩ := hgrown.tall_left hbal himb
    have hbal' := hgrown.1
    have hr' := hr.1
    obtain ⟨a', d', c', i', ll, lr, rfl⟩ := Balanced.exists_node (t := l') (by omega)
    obtain ⟨hll, hlr⟩ := hl.children hbal'
    have hitem : strAt n m (get m (get m a.ptr .left) .item) = i' := by
      rw [h.1.left]
      exact h.2.1.1.strAt
    rw [hitem, Tree.item]
    by_cases hside : 0 > CString.strcmp x i'
    · rw [if_pos hside, if_pos hside]
      have hrot := rotateRight_performs hhi h hpack (hll.mono (by decide)) (hlr.mono (by decide))
        (hr.mono (by decide))
      have hpack' := hpack.subperm (blocks_rotateRight _).subperm
      rw [hrot.ptr]
      refine hrot.trans ?_ (blocks_rotateRight _).subset
      exact setDepth_performs hrot.stored hpack' (hll.mono (by decide))
        (shallow_node_depth (hlr.mono (by decide)) hr (by decide))
    · rw [if_neg hside, if_neg hside]
      have hlr' : lr.delta = ll.delta + 1 := by
        rcases htall with ⟨hx, -⟩ | ⟨-, hlr'⟩
        · exact absurd (CString.strcmp_neg_iff.mpr hx) hside
        · exact hlr'
      have hll' := hll.1
      obtain ⟨a'', d'', c'', i'', lm, rm, rfl⟩ := Balanced.exists_node (t := lr) (by omega)
      obtain ⟨hlm, hrm⟩ := hlr.children (Balanced.node_iff.mp hbal').2.2.2
      have hrot := rotateLeftRight_performs hhi h hpack (hll.mono (by decide))
        (hlm.mono (by decide)) (hrm.mono (by decide)) hr
      have hpack' := hpack.subperm (blocks_rotateLeftRight _).subperm
      rw [hrot.ptr]
      refine hrot.trans ?_ (blocks_rotateLeftRight _).subset
      exact setDepth_performs hrot.stored hpack'
        (shallow_node_depth hll (hlm.mono (by decide)) (by decide))
        (shallow_node_depth (hrm.mono (by decide)) hr (by decide))
  · rw [if_neg himb, if_neg himb]
    exact setDepth_performs h hpack (hl.mono (by decide)) (hr.mono (by decide))

/-- The rotations of `update`, followed by the assignment of the depth, for the right child. -/
lemma fixRight_performs (h : (node a d c i l r').Stored n m)
    (hpack : Span.Packed lo hi (node a d c i l r').blocks)
    (hbal : (node a d' c' i' l r).Balanced) (hgrown : Grown x r r') (hl : l.Shallow 3)
    (hr : r'.Shallow 3) :
    Performs n m (node a d c i l r') (Heap.fixRight n m a.ptr x)
      (Tree.fixRight x (node a d c i l r')) := by
  rw [fixRight_node]
  simp only [Heap.fixRight, h.balance]
  by_cases himb : 1 < (l.delta - r'.delta).natAbs
  · rw [if_pos himb, if_pos himb]
    obtain ⟨-, hrd, htall⟩ := hgrown.tall_right hbal himb
    have hbal' := hgrown.1
    have hl' := hl.1
    obtain ⟨a', d', c', i', rl, rr, rfl⟩ := Balanced.exists_node (t := r') (by omega)
    obtain ⟨hrl, hrr⟩ := hr.children hbal'
    have hitem : strAt n m (get m (get m a.ptr .right) .item) = i' := by
      rw [h.1.right]
      exact h.2.2.1.strAt
    rw [hitem, Tree.item]
    by_cases hside : 0 < CString.strcmp x i'
    · rw [if_pos hside, if_pos hside]
      have hrot := rotateLeft_performs hhi h hpack (hl.mono (by decide)) (hrl.mono (by decide))
        (hrr.mono (by decide))
      have hpack' := hpack.subperm (blocks_rotateLeft _).subperm
      rw [hrot.ptr]
      refine hrot.trans ?_ (blocks_rotateLeft _).subset
      rw [rotateLeft_eq_setDepth] at hrot hpack' ⊢
      exact setDepth_performs hrot.stored hpack'
        (shallow_node_depth hl (hrl.mono (by decide)) (by decide)) (hrr.mono (by decide))
    · rw [if_neg hside, if_neg hside]
      have hrl' : rl.delta = rr.delta + 1 := by
        rcases htall with ⟨-, hrl'⟩ | ⟨hx, -⟩
        · exact hrl'
        · exact absurd (CString.strcmp_pos_iff.mpr hx) hside
      have hrr' := hrr.1
      obtain ⟨a'', d'', c'', i'', lm, rm, rfl⟩ := Balanced.exists_node (t := rl) (by omega)
      obtain ⟨hlm, hrm⟩ := hrl.children (Balanced.node_iff.mp hbal').2.2.1
      have hrot := rotateRightLeft_performs hhi h hpack hl (hlm.mono (by decide))
        (hrm.mono (by decide)) (hrr.mono (by decide))
      have hpack' := hpack.subperm (blocks_rotateRightLeft _).subperm
      rw [hrot.ptr]
      refine hrot.trans ?_ (blocks_rotateRightLeft _).subset
      rw [rotateRightLeft_eq_setDepth] at hrot hpack' ⊢
      exact setDepth_performs hrot.stored hpack'
        (shallow_node_depth hl (hlm.mono (by decide)) (by decide))
        (shallow_node_depth (hrm.mono (by decide)) hrr (by decide))
  · rw [if_neg himb, if_neg himb]
    exact setDepth_performs h hpack (hl.mono (by decide)) (hr.mono (by decide))

end Rotations

end Cs238p.P3
