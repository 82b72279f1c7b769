import Cs238p.P3.HeapUpdate

set_option relaxedAutoImplicit false
set_option autoImplicit false

/-!
# Removal from a stored tree

`remove_node` on the bytes of the region does to a stored tree what `Tree.removeNode` does to the
tree, if the string that it may duplicate goes to a free block. A removal releases blocks that may
still be in use: those of the child that takes the place of its parent. Their bytes are kept by the
release itself; what becomes of them is up to the next allocation.

## Main definitions

* `Tree.duplicated` — the string that a removal duplicates, if any.
* `Tree.removeBlocks` — the block that it allocates for that.

## Main results

* `rebalance_performs` — the end of `remove_node`.
* `takeOver_stored` — a node takes over the item of the next larger one.
* `removeNode_stored` — the removal from a stored tree.
-/

namespace Cs238p.P3

open Heap Cs238p.P3.Tree SortedCounts

variable {n lo hi : ℕ} {m : Mem} {scm : Scm} {t t' l l' r r' : Tree Place} {a : Place} {d : ℤ}
  {c : ℕ} {i x : CString} {new : List Span} {res : ℕ × Scm}

/-! ## Rebalancing -/

lemma Tree.blocks_rebalance (t : Tree Place) : t.rebalance.blocks.Perm t.blocks :=
  blocks_perm_of_nodes (nodes_rebalance t)

/-- **The end of `remove_node`** on a stored tree. -/
lemma rebalance_performs (hhi : hi ≤ 2 ^ 64) (h : (node a d c i l r).Stored n m)
    (hpack : Span.Packed lo hi (node a d c i l r).blocks) (hl : l.Balanced) (hr : r.Balanced)
    (hlsh : l.Shallow 3) (hrsh : r.Shallow 3) :
    Performs n m (node a d c i l r) (Heap.rebalance m a.ptr)
      (Tree.rebalance (node a d c i l r)) := by
  have hdepth := setDepth_performs h hpack (hlsh.mono (by decide)) (hrsh.mono (by decide))
  have hl' := hl.neg_one_le_delta
  have hr' := hr.neg_one_le_delta
  rw [rebalance_node]
  simp only [Heap.rebalance, if_pos a.ptr_ne_zero]
  generalize Heap.setDepth m a.ptr = m₁ at hdepth ⊢
  have hstored : (node a (Tree.depth l r) c i l r).Stored n m₁ := hdepth.stored
  have hpack' : Span.Packed lo hi (node a (Tree.depth l r) c i l r).blocks := hpack
  rw [hstored.balance]
  by_cases hleft : l.delta - r.delta > 1
  · rw [if_pos hleft, if_pos hleft]
    obtain ⟨a', d', c', i', ll, lr, rfl⟩ := Balanced.exists_node (t := l) (by omega)
    obtain ⟨hllsh, hlrsh⟩ := hlsh.children hl
    obtain ⟨-, -, hll, hlr⟩ := Balanced.node_iff.mp hl
    have hll' := hll.neg_one_le_delta
    rw [hstored.1.left, ptr_node, hstored.2.1.balance, Tree.balance]
    by_cases hside : ll.delta - lr.delta ≥ 0
    · rw [if_pos hside, if_pos hside]
      refine hdepth.trans ?_ (List.Subset.refl _)
      exact rotateRight_performs hhi hstored hpack' (hllsh.mono (by decide))
        (hlrsh.mono (by decide)) (hrsh.mono (by decide))
    · rw [if_neg hside, if_neg hside]
      obtain ⟨a'', d'', c'', i'', lm, rm, rfl⟩ := Balanced.exists_node (t := lr) (by omega)
      obtain ⟨hlm, hrm⟩ := hlrsh.children hlr
      refine hdepth.trans ?_ (List.Subset.refl _)
      exact rotateLeftRight_performs hhi hstored hpack' (hllsh.mono (by decide))
        (hlm.mono (by decide)) (hrm.mono (by decide)) hrsh
  · rw [if_neg hleft, if_neg hleft]
    by_cases hright : l.delta - r.delta < -1
    · rw [if_pos hright, if_pos hright]
      obtain ⟨a', d', c', i', rl, rr, rfl⟩ := Balanced.exists_node (t := r) (by omega)
      obtain ⟨hrlsh, hrrsh⟩ := hrsh.children hr
      obtain ⟨-, -, hrl, hrr⟩ := Balanced.node_iff.mp hr
      have hrr' := hrr.neg_one_le_delta
      rw [hstored.1.right, ptr_node, hstored.2.2.balance, Tree.balance]
      by_cases hside : rl.delta - rr.delta ≤ 0
      · rw [if_pos hside, if_pos hside]
        refine hdepth.trans ?_ (List.Subset.refl _)
        exact rotateLeft_performs hhi hstored hpack' (hlsh.mono (by decide))
          (hrlsh.mono (by decide)) (hrrsh.mono (by decide))
      · rw [if_neg hside, if_neg hside]
        obtain ⟨a'', d'', c'', i'', lm, rm, rfl⟩ := Balanced.exists_node (t := rl) (by omega)
        obtain ⟨hlm, hrm⟩ := hrlsh.children hrl
        refine hdepth.trans ?_ (List.Subset.refl _)
        exact rotateRightLeft_performs hhi hstored hpack' hlsh (hlm.mono (by decide))
          (hrm.mono (by decide)) (hrrsh.mono (by decide))
    · rw [if_neg hright, if_neg hright]
      exact hdepth

/-! ## The leftmost node -/

namespace Tree

/-- The pointer to the leftmost node. -/
def minPtr : Tree Place → ℕ
  | nil => 0
  | node a _ _ _ nil _ => a.ptr
  | node _ _ _ _ (node a d c i l r) _ => minPtr (node a d c i l r)

@[simp] lemma ptr_setMinCount (t : Tree Place) : t.setMinCount.ptr = t.ptr := by
  cases t with
  | nil => rfl
  | node a d c i l r => cases l <;> rfl

@[simp] lemma minPtr_setMinCount (t : Tree Place) : t.setMinCount.minPtr = t.minPtr := by
  induction t with
  | nil => rfl
  | node a d c i l r ihl _ =>
    cases l with
    | nil => rfl
    | node a' d' c' i' l' r' =>
      rw [minPtr, ← ihl, setMinCount]
      cases l' <;> rfl

lemma findMin_setMinCount {ι : Type} (t : Tree ι) : t.setMinCount.findMin.1 = t.findMin.1 := by
  induction t with
  | nil => rfl
  | node a d c i l r ihl _ =>
    cases l with
    | nil => rfl
    | node a' d' c' i' l' r' =>
      rw [findMin, ← ihl, setMinCount]
      cases l' <;> rfl

/-- Counts are no part of the layout. -/
@[simp] lemma blocks_setMinCount (t : Tree Place) : t.setMinCount.blocks = t.blocks := by
  induction t with
  | nil => rfl
  | node a d c i l r ihl _ =>
    cases l with
    | nil => rfl
    | node a' d' c' i' l' r' => rw [setMinCount, blocks_node, blocks_node, ihl]

/-- **`find_min`** finds the leftmost node. -/
lemma Stored.findMin (h : t.Stored n m) (ht : t ≠ nil) {fuel : ℕ} (hfuel : t.size ≤ fuel) :
    Heap.findMin m fuel t.ptr = some t.minPtr := by
  induction t generalizing fuel with
  | nil => exact absurd rfl ht
  | node a d c i l r ihl _ =>
    rw [size] at hfuel
    obtain ⟨fuel, rfl⟩ : ∃ k, fuel = k + 1 := ⟨fuel - 1, by omega⟩
    obtain ⟨ha, hl, -⟩ := h
    rw [ptr_node, Heap.findMin, ha.left]
    cases l with
    | nil => rfl
    | node a' d' c' i' l' r' =>
      rw [if_pos (by exact a'.ptr_ne_zero)]
      exact ihl hl (by simp) (by omega)

/-- What the leftmost node holds. -/
lemma Stored.min (h : t.Stored n m) (ht : t ≠ nil) :
    strAt n m (get m t.minPtr .item) = t.findMin.1 ∧ get m t.minPtr .count = t.findMin.2 := by
  induction t with
  | nil => exact absurd rfl ht
  | node a d c i l r ihl _ =>
    obtain ⟨ha, hl, -⟩ := h
    cases l with
    | nil => exact ⟨ha.strAt, ha.count⟩
    | node a' d' c' i' l' r' => exact ihl hl (by simp)

end Tree

/-- **The assignment `temp->count = 1`**, for the leftmost node. -/
lemma setMinCount_performs (h : t.Stored n m) (hpack : Span.Packed lo hi t.blocks) (ht : t ≠ nil) :
    Performs n m t (t.ptr, set m t.minPtr .count 1) t.setMinCount := by
  induction t with
  | nil => exact absurd rfl ht
  | node a d c i l r ihl _ =>
    cases l with
    | nil =>
      obtain ⟨hstr, hnodel, hnoder⟩ := apart_node hpack
      obtain ⟨ha, -, hr⟩ := h
      have hframe := set_frame m a .count 1
      refine ⟨rfl, ⟨ha.store .count (by decide) (by decide) hstr, trivial, ?_⟩, ?_⟩
      · exact hr.frame_blocks hframe (by simpa using hnoder)
      · exact hframe.of_subset (by simp [blocks_node])
    | node a' d' c' i' l' r' =>
      have hpackl : Span.Packed lo hi (node a' d' c' i' l' r').blocks := hpack.of_count fun s => by
        rw [count_blocks_node (a := a)]
        omega
      have hmin := ihl h.2.1 hpackl (by simp)
      have hunder := hmin.under_left h hpack rfl
      refine ⟨rfl, hunder, hmin.frame.of_count fun s => ?_⟩
      rw [count_blocks_node (a := a)]
      omega

/-! ## Releasing blocks -/

/-- `scm_free` writes the flag of the block and the first word. -/
lemma scmFree_agrees (scm : Scm) (b : Span) :
    Mem.AgreesOutside [counterSpan, ⟨b.start, 2⟩] scm.mem (scmFree scm (b.start + 2 + 8)).mem := by
  intro x hx
  refine scmFree_frame ?_ (hx _ (by simp))
  rw [show b.start + 2 + 8 - 2 - 8 = b.start by omega]
  exact hx _ (by simp)

lemma flag_within {b : Span} (h : 2 + 8 ≤ b.len) : (Span.mk b.start 2).Within b := by
  rw [Span.within_def]
  simp only
  omega

lemma scmFree_agrees_block (scm : Scm) {b : Span} (h : 2 + 8 ≤ b.len) :
    Mem.AgreesOutside [counterSpan, b] scm.mem (scmFree scm (b.start + 2 + 8)).mem := by
  refine (scmFree_agrees scm b).mono ?_
  simp only [List.forall_mem_cons]
  refine ⟨⟨_, List.mem_cons_self, Span.Within.refl _⟩, ⟨b, by simp, flag_within h⟩, ?_⟩
  exact fun _ h => absurd h List.not_mem_nil

/-- **A release keeps the tree**, even if the block belongs to it: flags are no payload. -/
lemma Tree.Stored.scmFree (h : t.Stored n scm.mem) (hpack : Span.Packed addr hi t.blocks) {b : Span}
    (hb : b ∈ t.blocks) : t.Stored n (scmFree scm (b.start + 2 + 8)).mem := by
  have hlen := (le_len_of_mem_blocks hb).le
  apply h.frame (scmFree_agrees scm b)
  simp only [List.forall_mem_cons]
  refine ⟨fun c hc => ?_, fun c hc => ?_, fun _ h => absurd h List.not_mem_nil⟩
  · exact (counterSpan_disjoint (hpack.start c hc)).mono (Span.Within.refl _)
      (payload_within (le_len_of_mem_blocks hc).le)
  · by_cases heq : b = c
    · subst heq
      rw [payload, Span.disjoint_def]
      simp only
      omega
    · exact (hpack.disjoint.forall hb hc heq).mono (flag_within hlen)
        (payload_within (le_len_of_mem_blocks hc).le)

/-! ## Duplicated strings -/

namespace Tree

variable {ι : Type}

/-- The string that `remove_node` duplicates: the item of the next larger node, if a node with two
children is to be removed. -/
def duplicated (x : CString) : Tree ι → Bool → Option CString
  | nil, _ => none
  | node _ _ c i l r, flag =>
    if CString.strcmp x i < 0 then l.duplicated x false
    else if CString.strcmp x i > 0 then r.duplicated x false
    else if c > 1 ∧ flag = false then none
    else if l.size = 0 ∨ r.size = 0 then none
    else some r.findMin.1

/-- The leftmost node is removed without duplicating a string. -/
lemma duplicated_setMinCount (t : Tree ι) (h : Sorted t.traverse) (flag : Bool) :
    t.setMinCount.duplicated t.findMin.1 flag = none := by
  induction t generalizing flag with
  | nil => rfl
  | node a d c i l r ihl _ =>
    cases l with
    | nil =>
      have heq : CString.strcmp i i = 0 := CString.strcmp_eq_zero_iff.mpr rfl
      simp only [setMinCount, findMin, duplicated, heq, lt_irrefl, if_false, size, true_or, if_true,
        ite_self]
    | node a' d' c' i' l' r' =>
      obtain ⟨hl, -, hlt, -⟩ := sorted_append_cons.mp h
      obtain ⟨k, hk, -⟩ := traverse_setMinCount (t := node a' d' c' i' l' r') (by simp)
      have hmem : (node a' d' c' i' l' r').findMin ∈ (node a' d' c' i' l' r').traverse := by
        rw [hk]
        exact List.mem_cons_self
      rw [setMinCount, findMin, duplicated, if_pos (CString.strcmp_neg_iff.mpr (hlt _ hmem))]
      exact ihl hl false

lemma sorted_setMinCount {t : Tree ι} (h : Sorted t.traverse) : Sorted t.setMinCount.traverse := by
  by_cases ht : t = nil
  · subst ht
    exact h
  · obtain ⟨k, hk, hk'⟩ := traverse_setMinCount ht
    rw [hk] at h
    rw [hk']
    exact List.pairwise_cons.mpr (List.pairwise_cons.mp h)

/-- The block that a removal allocates for a duplicated string. -/
def removeBlocks (scm : Scm) (t : Tree ι) (x : CString) (flag : Bool) : List Span :=
  (t.duplicated x flag).toList.map fun s => scm.place (s.strlen + 1)

end Tree

/-- A node whose string is duplicated next. -/
def Scm.redup (scm : Scm) (a : Place) : Place := ⟨a.node, addr + scm.utilized⟩

/-- A removal keeps the blocks of the tree or drops some, and adds that of a duplicated string. -/
lemma blocks_removeNode (scm : Scm) (redup : Place → Place) (t : Tree Place) (x : CString)
    (flag : Bool) (hsorted : Sorted t.traverse)
    (hredup : t.duplicated x flag ≠ none → redup = scm.redup) :
    (Tree.removeNode redup t x flag).blocks.Subperm (t.removeBlocks scm x flag ++ t.blocks) := by
  rw [List.subperm_iff_count]
  intro s
  rw [List.count_append]
  induction t, x, flag using Tree.removeNode.induct with
  | case1 x flag => simp [removeBlocks, blocks]
  | case2 x flag a d c i l r hlt ih =>
    obtain ⟨hl, -, -, -⟩ := sorted_append_cons.mp hsorted
    rw [removeNode_of_lt redup flag (CString.strcmp_neg_iff.mp hlt)]
    rw [duplicated, if_pos hlt] at hredup
    have hl' := ih hl hredup
    rw [List.perm_iff_count.mp (blocks_rebalance _), removeBlocks, duplicated, if_pos hlt,
      count_blocks_node, count_blocks_node]
    rw [removeBlocks] at hl'
    omega
  | case3 x flag a d c i l r hlt hgt ih =>
    obtain ⟨-, hr, -, -⟩ := sorted_append_cons.mp hsorted
    rw [removeNode_of_gt redup flag (CString.strcmp_pos_iff.mp hgt)]
    rw [duplicated, if_neg hlt, if_pos hgt] at hredup
    have hr' := ih hr hredup
    rw [List.perm_iff_count.mp (blocks_rebalance _), removeBlocks, duplicated, if_neg hlt,
      if_pos hgt, count_blocks_node, count_blocks_node]
    rw [removeBlocks] at hr'
    omega
  | case4 x flag a d c i l r hlt hgt hc =>
    obtain rfl : x = i := CString.strcmp_eq_zero_iff.mp (by omega)
    rw [hc.2, removeNode_of_count redup hc.1, List.perm_iff_count.mp (blocks_rebalance _),
      count_blocks_node, count_blocks_node]
    omega
  | case5 x flag a d c i hlt hgt hc =>
    obtain rfl : x = i := CString.strcmp_eq_zero_iff.mp (by omega)
    rw [removeNode_of_last redup flag hc]
    simp [Tree.rebalance, blocks]
  | case6 x flag a d c i hlt hgt hc a' d' c' i' l' r' =>
    obtain rfl : x = i := CString.strcmp_eq_zero_iff.mp (by omega)
    rw [removeNode_of_last redup flag hc]
    simp only
    rw [List.perm_iff_count.mp (blocks_rebalance _), count_blocks_node (a := a)]
    omega
  | case7 x flag a d c i hlt hgt hc a' d' c' i' l' r' =>
    obtain rfl : x = i := CString.strcmp_eq_zero_iff.mp (by omega)
    rw [removeNode_of_last redup flag hc]
    simp only
    rw [List.perm_iff_count.mp (blocks_rebalance _), count_blocks_node (a := a)]
    omega
  | case8 x flag a d c i hlt hgt hc a₁ d₁ c₁ i₁ l₁ r₁ a₂ d₂ c₂ i₂ l₂ r₂ min ih =>
    obtain rfl : x = i := CString.strcmp_eq_zero_iff.mp (by omega)
    obtain ⟨-, hr, -, -⟩ := sorted_append_cons.mp hsorted
    have hdup : (node a d c x (node a₁ d₁ c₁ i₁ l₁ r₁) (node a₂ d₂ c₂ i₂ l₂ r₂)).duplicated x flag =
        some (node a₂ d₂ c₂ i₂ l₂ r₂).findMin.1 := by
      rw [duplicated, if_neg hlt, if_neg hgt, if_neg hc, if_neg (by simp [size])]
    obtain rfl : redup = scm.redup := hredup (by rw [hdup]; exact Option.some_ne_none _)
    have hnone := duplicated_setMinCount (node a₂ d₂ c₂ i₂ l₂ r₂) hr true
    have hr' := ih (sorted_setMinCount hr) (fun h => absurd hnone h)
    rw [show min = (node a₂ d₂ c₂ i₂ l₂ r₂).findMin from rfl, removeBlocks, hnone,
      blocks_setMinCount] at hr'
    have hplace : (scm.redup a).strBlock (node a₂ d₂ c₂ i₂ l₂ r₂).findMin.1 =
        scm.place ((node a₂ d₂ c₂ i₂ l₂ r₂).findMin.1.strlen + 1) := rfl
    have hnode : (scm.redup a).nodeBlock = a.nodeBlock := rfl
    rw [removeNode_of_last scm.redup flag hc]
    simp only
    rw [List.perm_iff_count.mp (blocks_rebalance _), removeBlocks, hdup, count_blocks_node,
      count_blocks_node (a := a), hplace, hnode]
    simp only [Option.toList_none, Option.toList_some, List.map_cons, List.map_nil,
      List.count_nil] at hr' ⊢
    omega

/-! ## The string of the next larger node -/

/-- A node gets another string, which is stored in another block. -/
lemma NodeAt.storeItem {b : Place} {j : CString} {p q : ℕ} (h : NodeAt n m a d c i p q)
    (hb : b.node = a.node) (hread : m.read b.strPtr (j.strlen + 1) = j.bytes ++ [0])
    (hlen : j.strlen ≤ n) (hlt : b.strPtr < 2 ^ 64)
    (hdisj : b.nodeBlock.Disjoint (b.strBlock j)) :
    NodeAt n (set m b.ptr .item b.strPtr) b d c j p q := by
  have hptr : b.ptr = a.ptr := by rw [Place.ptr, hb, Place.ptr]
  have hne {f : NodeField} (hf : .item ≠ f) :
      get (set m b.ptr .item b.strPtr) b.ptr f = get m a.ptr f := by
    rw [← hptr]
    exact RecordLayout.get_set_of_ne hf
  refine ⟨?_, ?_, RecordLayout.get_set_self hlt, ?_, ?_, ?_, hlen⟩
  · rw [hne (by decide), h.depth]
  · rw [hne (by decide), h.count]
  · rw [hne (by decide), h.left]
  · rw [hne (by decide), h.right]
  · rw [read_strPtr_set hdisj, hread]

/-- **A node takes over the item of the next larger one**, in a new block. -/
lemma takeOver_stored (hspace : virtAddr + scm.capacity ≤ 2 ^ 64)
    (h : (node a d c i l r).Stored scm.capacity scm.mem) (hr : r ≠ nil)
    (hpack : Span.Packed addr (virtAddr + scm.capacity)
      (scm.place (r.findMin.1.strlen + 1) :: (node a d c i l r).blocks)) :
    Changes (counterSpan :: scm.place (r.findMin.1.strlen + 1) :: (node a d c i l r).blocks) scm
      (node (scm.redup a) d r.findMin.2 r.findMin.1 l r.setMinCount)
      (a.ptr, takeOver scm a.ptr r.minPtr) := by
  obtain ⟨hmin, -⟩ := Stored.min h.2.2 hr
  have hfits : scm.Fits (r.findMin.1.strlen + 1) := fits_of_stop_le (hpack.stop _ (by simp))
  have hunfold : takeOver scm a.ptr r.minPtr =
      let m := set (scm.growString r.findMin.1).mem (scm.redup a).ptr .item (scm.redup a).strPtr
      let m := set m (scm.redup a).ptr .count (get m r.minPtr .count)
      let scm' := scmFree { scm.growString r.findMin.1 with mem := m } a.strPtr
      { scm' with mem := set scm'.mem r.minPtr .count 1 } := by
    rw [takeOver, h.1.item, hmin, scmStrdup_of_fits hfits]
    rfl
  rw [hunfold]
  have hread := read_growString scm r.findMin.1
  have hframe₀ := growString_agrees scm r.findMin.1
  have hcap : (scm.growString r.findMin.1).capacity = scm.capacity := rfl
  generalize hj : r.findMin.1 = j at hpack hread hframe₀ hcap ⊢
  generalize scm.growString j = scm₀ at hread hframe₀ hcap ⊢
  -- the blocks
  have hplace : scm.place (j.strlen + 1) = (scm.redup a).strBlock j := rfl
  have hnode : a.nodeBlock = (scm.redup a).nodeBlock := rfl
  rw [hplace] at hpack hframe₀ ⊢
  have hpack' : Span.Packed addr (virtAddr + scm.capacity)
      (a.strBlock i :: (node (scm.redup a) d c j l r).blocks) := hpack.of_count fun s => by
    simp only [count_blocks_node, List.count_cons, List.count_nil, hnode]
    omega
  obtain ⟨⟨-, -, hold⟩, hpack₁⟩ := Span.packed_cons.mp hpack'
  obtain ⟨hstr, hnodel, hnoder⟩ := apart_node hpack₁
  obtain ⟨⟨hstart, hstop, hnew⟩, hpack₀⟩ := Span.packed_cons.mp hpack
  rw [Place.strBlock, addr] at hstart
  rw [Place.strBlock, Span.stop] at hstop
  simp only at hstart hstop
  have hlt : (scm.redup a).strPtr < 2 ^ 64 := by
    rw [Place.strPtr]
    omega
  -- the new string
  obtain ⟨ha, hl, hrs⟩ := h.frame_blocks hframe₀ (List.forall_mem_cons.mpr
    ⟨fun b hb => counterSpan_disjoint (hpack₀.start b hb), List.forall_mem_singleton.mpr hnew⟩)
  have hframe₁ := set_frame scm₀.mem (scm.redup a) .item (scm.redup a).strPtr
  have h₁ : (node (scm.redup a) d c j l r).Stored scm.capacity
      (set scm₀.mem (scm.redup a).ptr .item (scm.redup a).strPtr) :=
    ⟨ha.storeItem rfl hread (by omega) hlt hstr,
      hl.frame_blocks hframe₁ (List.forall_mem_singleton.mpr hnodel),
      hrs.frame_blocks hframe₁ (List.forall_mem_singleton.mpr hnoder)⟩
  dsimp only
  generalize set scm₀.mem (scm.redup a).ptr .item (scm.redup a).strPtr = m₁ at hframe₁ h₁ ⊢
  -- the new count
  have hcount := (Stored.min h₁.2.2 hr).2
  rw [hcount]
  have hcountlt : r.findMin.2 < 2 ^ 64 := by
    rw [← hcount]
    exact RecordLayout.get_lt
  have hframe₂ := set_frame m₁ (scm.redup a) .count r.findMin.2
  have h₂ : (node (scm.redup a) d r.findMin.2 j l r).Stored scm.capacity
      (set m₁ (scm.redup a).ptr .count r.findMin.2) :=
    ⟨h₁.1.store .count (by decide) hcountlt hstr,
      h₁.2.1.frame_blocks hframe₂ (List.forall_mem_singleton.mpr hnodel),
      h₁.2.2.frame_blocks hframe₂ (List.forall_mem_singleton.mpr hnoder)⟩
  generalize set m₁ (scm.redup a).ptr .count r.findMin.2 = m₂ at hframe₂ h₂ ⊢
  -- the release of the old string
  have hframe₃ : Mem.AgreesOutside [counterSpan, a.strBlock i] m₂
      (scmFree { scm₀ with mem := m₂ } a.strPtr).mem :=
    scmFree_agrees_block { scm₀ with mem := m₂ } (Nat.le_add_right _ _)
  have h₃ := h₂.frame_blocks hframe₃ (List.forall_mem_cons.mpr
    ⟨fun b hb => counterSpan_disjoint (hpack₁.start b hb), List.forall_mem_singleton.mpr hold⟩)
  have hcap₃ : (scmFree { scm₀ with mem := m₂ } a.strPtr).capacity = scm₀.capacity :=
    capacity_scmFree
  generalize scmFree { scm₀ with mem := m₂ } a.strPtr = scm₃ at hframe₃ h₃ hcap₃ ⊢
  -- the count of the next larger node
  have hpackr : Span.Packed addr (virtAddr + scm.capacity) r.blocks := hpack₁.of_count fun s => by
    rw [count_blocks_node]
    omega
  have h₄ := setMinCount_performs h₃.2.2 hpackr hr
  have h₅ := h₄.under_right h₃ hpack₁ rfl
  refine ⟨rfl, hcap₃.trans hcap, h₅, ?_⟩
  refine ((((hframe₀.of_count fun s => ?_).trans (hframe₁.of_count fun s => ?_)).trans
    (hframe₂.of_count fun s => ?_)).trans (hframe₃.of_count fun s => ?_)).trans
    (h₄.frame.of_count fun s => ?_)
  all_goals
    simp only [count_blocks_node, List.count_cons, List.count_nil, hnode]
    omega

/-! ## Removal -/

/-- A subtree that a removal has shrunk is not deeper than before. -/
lemma Tree.Shallow.shrunk {k : ℤ} (h : t.Shallow k) (hshrunk : Shrunk t t') : t'.Shallow k := by
  have hneg := hshrunk.1.neg_one_le_delta
  have hdelta := hshrunk.2
  have hlt := h.2
  exact ⟨hneg, by omega⟩

/-- The end of `remove_node` on the memory of the region. -/
lemma finish_changes {W : List Span} {scm' : Scm} (hspace : virtAddr + scm.capacity ≤ 2 ^ 64)
    (hcap : scm'.capacity = scm.capacity) (hframe : Mem.AgreesOutside W scm.mem scm'.mem)
    (h : (node a d c i l r).Stored scm.capacity scm'.mem)
    (hpack : Span.Packed lo (virtAddr + scm.capacity) (node a d c i l r).blocks)
    (hW : (node a d c i l r).blocks ⊆ W) (hl : l.Balanced) (hr : r.Balanced) (hlsh : l.Shallow 3)
    (hrsh : r.Shallow 3) :
    Changes W scm (Tree.rebalance (node a d c i l r)) (finish scm' a.ptr) := by
  have hreb := rebalance_performs hspace h hpack hl hr hlsh hrsh
  rw [finish]
  generalize Heap.rebalance scm'.mem a.ptr = fix at hreb ⊢
  exact ⟨hreb.ptr, hcap, hreb.stored, hframe.trans (hreb.frame.of_subset hW)⟩

/-- **The case of `remove_node` for a smaller item**, after the recursive call. -/
lemma remove_left (hspace : virtAddr + scm.capacity ≤ 2 ^ 64)
    (h : (node a d c i l r).Stored scm.capacity scm.mem) (hbal : (node a d c i l r).Balanced)
    (hshallow : (node a d c i l r).Shallow 3)
    (hpack : Span.Packed addr (virtAddr + scm.capacity) (new ++ (node a d c i l r).blocks))
    (hres : Changes (counterSpan :: (new ++ l.blocks)) scm l' res)
    (hsub : l'.blocks.Subperm (new ++ l.blocks)) (hshrunk : Shrunk l l') :
    Changes (counterSpan :: (new ++ (node a d c i l r).blocks)) scm
      (Tree.rebalance (node a d c i l' r))
      (finish { res.2 with mem := set res.2.mem a.ptr .left res.1 } a.ptr) := by
  obtain ⟨hsub', hrelinked⟩ := relinked_left hspace h hpack hres hsub
  have hpack' := hpack.subperm hsub'
  obtain ⟨hl, hr⟩ := hshallow.children hbal
  obtain ⟨-, -, -, hrbal⟩ := Balanced.node_iff.mp hbal
  exact finish_changes hspace hrelinked.capacity hrelinked.frame hrelinked.stored hpack'
    (List.Subset.trans hsub'.subset (List.subset_cons_self _ _)) hshrunk.1 hrbal
    ((hl.mono (by decide)).shrunk hshrunk) (hr.mono (by decide))

/-- **The case of `remove_node` for a larger item**, after the recursive call. -/
lemma remove_right (hspace : virtAddr + scm.capacity ≤ 2 ^ 64)
    (h : (node a d c i l r).Stored scm.capacity scm.mem) (hbal : (node a d c i l r).Balanced)
    (hshallow : (node a d c i l r).Shallow 3)
    (hpack : Span.Packed addr (virtAddr + scm.capacity) (new ++ (node a d c i l r).blocks))
    (hres : Changes (counterSpan :: (new ++ r.blocks)) scm r' res)
    (hsub : r'.blocks.Subperm (new ++ r.blocks)) (hshrunk : Shrunk r r') :
    Changes (counterSpan :: (new ++ (node a d c i l r).blocks)) scm
      (Tree.rebalance (node a d c i l r'))
      (finish { res.2 with mem := set res.2.mem a.ptr .right res.1 } a.ptr) := by
  obtain ⟨hsub', hrelinked⟩ := relinked_right hspace h hpack hres hsub
  have hpack' := hpack.subperm hsub'
  obtain ⟨hl, hr⟩ := hshallow.children hbal
  obtain ⟨-, -, hlbal, -⟩ := Balanced.node_iff.mp hbal
  exact finish_changes hspace hrelinked.capacity hrelinked.frame hrelinked.stored hpack'
    (List.Subset.trans hsub'.subset (List.subset_cons_self _ _)) hlbal hshrunk.1
    (hl.mono (by decide)) ((hr.mono (by decide)).shrunk hshrunk)

/-- **The case of `remove_node` for one of several occurrences.** -/
lemma remove_here (hspace : virtAddr + scm.capacity ≤ 2 ^ 64)
    (h : (node a d c i l r).Stored scm.capacity scm.mem) (hbal : (node a d c i l r).Balanced)
    (hshallow : (node a d c i l r).Shallow 3)
    (hpack : Span.Packed addr (virtAddr + scm.capacity) (node a d c i l r).blocks) :
    Changes (counterSpan :: (node a d c i l r).blocks) scm
      (Tree.rebalance (node a d (c - 1) i l r))
      (finish { scm with mem := set scm.mem a.ptr .count (c - 1) } a.ptr) := by
  obtain ⟨hstr, hnodel, hnoder⟩ := apart_node hpack
  obtain ⟨hl, hr⟩ := hshallow.children hbal
  obtain ⟨-, -, hlbal, hrbal⟩ := Balanced.node_iff.mp hbal
  have hc : c < 2 ^ 64 := by
    rw [← h.1.count]
    exact RecordLayout.get_lt
  have hframe := set_frame scm.mem a .count (c - 1)
  have h₁ : (node a d (c - 1) i l r).Stored scm.capacity (set scm.mem a.ptr .count (c - 1)) :=
    ⟨h.1.store .count (by decide) (by omega) hstr,
      h.2.1.frame_blocks hframe (List.forall_mem_singleton.mpr hnodel),
      h.2.2.frame_blocks hframe (List.forall_mem_singleton.mpr hnoder)⟩
  refine finish_changes hspace rfl (hframe.of_count fun b => ?_) h₁ hpack
    (List.subset_cons_self _ _) hlbal hrbal (hl.mono (by decide)) (hr.mono (by decide))
  simp only [count_blocks_node, List.count_cons, List.count_nil]
  omega

/-- The two releases of `remove_node` change blocks of the released node only. -/
lemma free_agrees (scm : Scm) (a : Place) (i : CString) :
    Mem.AgreesOutside [counterSpan, a.nodeBlock, a.strBlock i] scm.mem
      (scmFree (scmFree scm a.strPtr) a.ptr).mem := by
  have hstr : Mem.AgreesOutside [counterSpan, a.strBlock i] scm.mem (scmFree scm a.strPtr).mem :=
    scmFree_agrees_block scm (Nat.le_add_right _ _)
  have hnode : Mem.AgreesOutside [counterSpan, a.nodeBlock] (scmFree scm a.strPtr).mem
      (scmFree (scmFree scm a.strPtr) a.ptr).mem :=
    scmFree_agrees_block (b := a.nodeBlock) (scmFree scm a.strPtr) (Nat.le_add_right _ _)
  refine (hstr.of_count fun b => ?_).trans (hnode.of_count fun b => ?_)
  all_goals
    simp only [List.count_cons, List.count_nil]
    omega

lemma finish_zero (scm : Scm) : finish scm 0 = (0, scm) := by
  rw [finish, Heap.rebalance, if_neg (not_not.mpr rfl)]

/-- **The case of `remove_node` for a leaf**: its blocks are released. -/
lemma unlink_leaf (h : (node a d c i nil nil).Stored scm.capacity scm.mem) :
    Changes (counterSpan :: (node a d c i nil nil).blocks) scm nil
      (finish (unlinkNode scm a.ptr).2 (unlinkNode scm a.ptr).1) := by
  have hunlink : unlinkNode scm a.ptr = (0, scmFree (scmFree scm a.strPtr) a.ptr) := by
    simp only [unlinkNode, h.1.left, h.1.right, h.1.item, ptr_nil, ne_eq, not_true_eq_false,
      if_false, if_true]
  rw [hunlink, finish_zero]
  refine ⟨rfl, ?_, trivial, free_agrees scm a i⟩
  rw [capacity_scmFree, capacity_scmFree]

/-- **The case of `remove_node` for a node with one child**: the child takes its place, and the
blocks of the child are released. -/
lemma unlink_child (hspace : virtAddr + scm.capacity ≤ 2 ^ 64)
    (h : (node a d c i l r).Stored scm.capacity scm.mem)
    (hlr : (l = nil ∧ r = t) ∨ (r = nil ∧ l = t)) (ht : t ≠ nil) (hbal : t.Balanced)
    (hshallow : t.Shallow 2)
    (hpack : Span.Packed addr (virtAddr + scm.capacity) (node a d c i l r).blocks) :
    Changes (counterSpan :: (node a d c i l r).blocks) scm t.rebalance
      (finish (unlinkNode scm a.ptr).2 (unlinkNode scm a.ptr).1) := by
  have hsub (b : Span) : t.blocks.count b ≤ (node a d c i l r).blocks.count b := by
    rw [count_blocks_node]
    rcases hlr with ⟨-, rfl⟩ | ⟨-, rfl⟩ <;> omega
  have hpackt := hpack.of_count hsub
  have hstored : t.Stored scm.capacity scm.mem := by
    rcases hlr with ⟨-, rfl⟩ | ⟨-, rfl⟩
    · exact h.2.2
    · exact h.2.1
  have hchild : (if get scm.mem a.ptr .left ≠ 0 then get scm.mem a.ptr .left
      else get scm.mem a.ptr .right) = t.ptr := by
    rw [h.1.left, h.1.right]
    rcases hlr with ⟨rfl, rfl⟩ | ⟨rfl, rfl⟩
    · rfl
    · exact if_pos fun h0 => ht (ptr_eq_zero_iff.mp h0)
  obtain ⟨a', d', c', i', l', r', rfl⟩ : ∃ a d c i l r, t = node a d c i l r := by
    cases t with
    | nil => exact absurd rfl ht
    | node a d c i l r => exact ⟨a, d, c, i, l, r, rfl⟩
  have hunlink : unlinkNode scm a.ptr = (a'.ptr, scmFree (scmFree scm a'.strPtr) a'.ptr) := by
    rw [ptr_node] at hchild
    simp only [unlinkNode, hchild, if_neg a'.ptr_ne_zero, hstored.1.item]
  rw [hunlink]
  obtain ⟨-, -, hl, hr⟩ := Balanced.node_iff.mp hbal
  obtain ⟨hlsh, hrsh⟩ := hshallow.children hbal
  have hfree := (hstored.scmFree hpackt (b := a'.strBlock i') (by simp [blocks_node])).scmFree
    hpackt (b := a'.nodeBlock) (by simp [blocks_node])
  refine finish_changes hspace ?_ ((free_agrees scm a' i').of_subset ?_) hfree hpackt ?_ hl hr
    hlsh hrsh
  · rw [capacity_scmFree, capacity_scmFree]
  · refine List.cons_subset_cons _ fun b hb => (List.subperm_iff_count.mpr hsub).subset ?_
    rw [blocks_node]
    rcases List.mem_cons.mp hb with rfl | hb
    · exact List.mem_cons_self
    · obtain rfl := List.mem_singleton.mp hb
      exact List.mem_cons_of_mem _ List.mem_cons_self
  · intro b hb
    exact List.mem_cons_of_mem _ ((List.subperm_iff_count.mpr hsub).subset hb)

/-- Setting the count of the leftmost node of the right subtree keeps a node balanced. -/
lemma balanced_setMinCount_right (a' : Place) (c' : ℕ) (i' : CString)
    (h : (node a d c i l r).Balanced) : (node a' d c' i' l r.setMinCount).Balanced := by
  obtain ⟨hd, hb, hl, hr⟩ := Balanced.node_iff.mp h
  obtain ⟨hmin, hdelta⟩ := balanced_setMinCount hr
  rw [← hdelta] at hd hb
  exact Balanced.node_iff.mpr ⟨hd, hb, hl, hmin⟩

/-- **The case of `remove_node` for a node with two children**, after the call that removes the next
larger node. -/
lemma remove_successor (hspace : virtAddr + scm.capacity ≤ 2 ^ 64)
    (h : (node a d c i l r).Stored scm.capacity scm.mem) (hr : r ≠ nil)
    (hsorted : Sorted r.traverse) (hbal : (node a d c i l r).Balanced)
    (hshallow : (node a d c i l r).Shallow 3)
    (hpack : Span.Packed addr (virtAddr + scm.capacity)
      (scm.place (r.findMin.1.strlen + 1) :: (node a d c i l r).blocks))
    (hres : Changes (counterSpan :: r.blocks) (takeOver scm a.ptr r.minPtr)
      (Tree.removeNode scm.redup r.setMinCount r.findMin.1 true) res) :
    Changes (counterSpan :: scm.place (r.findMin.1.strlen + 1) :: (node a d c i l r).blocks) scm
      (Tree.rebalance (node (scm.redup a) d r.findMin.2 r.findMin.1 l
        (Tree.removeNode scm.redup r.setMinCount r.findMin.1 true)))
      (finish { res.2 with mem := set res.2.mem a.ptr .right res.1 } a.ptr) := by
  have htake := takeOver_stored hspace h hr hpack
  have hcap : (takeOver scm a.ptr r.minPtr).capacity = scm.capacity := htake.capacity
  have hstored : (node (scm.redup a) d r.findMin.2 r.findMin.1 l r.setMinCount).Stored
      (takeOver scm a.ptr r.minPtr).capacity (takeOver scm a.ptr r.minPtr).mem := by
    rw [hcap]
    exact htake.stored
  have hbal' := balanced_setMinCount_right (scm.redup a) r.findMin.2 r.findMin.1 hbal
  have hnone := duplicated_setMinCount r hsorted true
  have hsub := blocks_removeNode scm scm.redup r.setMinCount r.findMin.1 true
    (sorted_setMinCount hsorted) fun h => absurd hnone h
  rw [removeBlocks, hnone] at hsub
  have hplace : (scm.redup a).strBlock r.findMin.1 = scm.place (r.findMin.1.strlen + 1) := rfl
  have hnode : (scm.redup a).nodeBlock = a.nodeBlock := rfl
  have hle (b : Span) :
      (node (scm.redup a) d r.findMin.2 r.findMin.1 l r.setMinCount).blocks.count b ≤
        (scm.place (r.findMin.1.strlen + 1) :: (node a d c i l r).blocks).count b := by
    simp only [count_blocks_node, List.count_cons, List.count_nil, hplace, hnode,
      blocks_setMinCount]
    omega
  have hframe := htake.frame
  rw [← hcap] at hspace hpack
  have hres' : Changes (counterSpan :: ([] ++ r.setMinCount.blocks)) (takeOver scm a.ptr r.minPtr)
      (Tree.removeNode scm.redup r.setMinCount r.findMin.1 true) res := by
    rwa [List.nil_append, blocks_setMinCount]
  have hremove := remove_right hspace hstored hbal' hshallow (hpack.of_count hle) hres' hsub
    (balanced_removeNode scm.redup r.findMin.1 true r.setMinCount
      (balanced_setMinCount (Balanced.node_iff.mp hbal).2.2.2).1)
  refine ⟨hremove.ptr, hremove.capacity.trans hcap, ?_, hframe.trans (hremove.frame.of_count ?_)⟩
  · rw [← hcap]
    exact hremove.stored
  · intro b
    have hb := hle b
    simp only [List.nil_append, List.count_cons] at hb ⊢
    omega

/-- **`remove_node` removes from the stored tree.** The block for a duplicated string must be free;
the call changes this block, those of the tree, and the first word of the mapping.

**Proof sketch.** Induction along `Tree.removeNode`. A recursive call changes blocks of its subtree
only, so the rest of the node is kept. Where a child takes the place of its parent, releasing the
blocks of this child changes no payload. In the last case the node takes over the item of the next
larger one, and the removal of that one allocates nothing. -/
theorem removeNode_stored (redup : Place → Place) (t : Tree Place) (x : CString) (flag : Bool)
    (hspace : virtAddr + scm.capacity ≤ 2 ^ 64) (h : t.Stored scm.capacity scm.mem)
    (hsorted : Sorted t.traverse) (hbal : t.Balanced) (hshallow : t.Shallow 3) {fuel : ℕ}
    (hfuel : t.size < fuel) (hredup : t.duplicated x flag ≠ none → redup = scm.redup)
    (hpack : Span.Packed addr (virtAddr + scm.capacity) (t.removeBlocks scm x flag ++ t.blocks)) :
    ∃ res, Heap.removeNode fuel scm t.ptr x flag = some res ∧
      Changes (counterSpan :: (t.removeBlocks scm x flag ++ t.blocks)) scm
        (Tree.removeNode redup t x flag) res := by
  induction t, x, flag using Tree.removeNode.induct generalizing scm fuel with
  | case1 x flag =>
    obtain ⟨fuel, rfl⟩ : ∃ k, fuel = k + 1 := ⟨fuel - 1, by omega⟩
    rw [removeNode_nil]
    exact ⟨(0, scm), rfl, rfl, rfl, trivial, Mem.AgreesOutside.refl _ _⟩
  | case2 x flag a d c i l r hlt ih =>
    obtain ⟨fuel, rfl⟩ : ∃ k, fuel = k + 1 := ⟨fuel - 1, by omega⟩
    obtain ⟨hl, -, -, -⟩ := sorted_append_cons.mp hsorted
    obtain ⟨-, -, hlbal, -⟩ := Balanced.node_iff.mp hbal
    have hlsh := (hshallow.children hbal).1
    rw [size] at hfuel
    rw [duplicated, if_pos hlt] at hredup
    have hblocks : (node a d c i l r).removeBlocks scm x flag = l.removeBlocks scm x false := by
      rw [removeBlocks, duplicated, if_pos hlt, removeBlocks]
    rw [hblocks] at hpack ⊢
    obtain ⟨⟨left, scm'⟩, hres, hchanges⟩ := ih hspace h.2.1 hl hlbal (hlsh.mono (by decide))
      (by omega : l.size < fuel) hredup (hpack.of_count fun b => by
        simp only [count_blocks_node, List.count_append]
        omega)
    have hremove := remove_left hspace h hbal hshallow hpack hchanges
      (blocks_removeNode scm redup l x false hl hredup) (balanced_removeNode redup x false l hlbal)
    rw [removeNode_of_lt redup flag (CString.strcmp_neg_iff.mp hlt)]
    simp only [Heap.removeNode, ptr_node, if_neg a.ptr_ne_zero, h.1.strAt, if_pos hlt, h.1.left,
      hres]
    exact ⟨_, rfl, hremove⟩
  | case3 x flag a d c i l r hlt hgt ih =>
    obtain ⟨fuel, rfl⟩ : ∃ k, fuel = k + 1 := ⟨fuel - 1, by omega⟩
    obtain ⟨-, hr, -, -⟩ := sorted_append_cons.mp hsorted
    obtain ⟨-, -, -, hrbal⟩ := Balanced.node_iff.mp hbal
    have hrsh := (hshallow.children hbal).2
    rw [size] at hfuel
    rw [duplicated, if_neg hlt, if_pos hgt] at hredup
    have hblocks : (node a d c i l r).removeBlocks scm x flag = r.removeBlocks scm x false := by
      rw [removeBlocks, duplicated, if_neg hlt, if_pos hgt, removeBlocks]
    rw [hblocks] at hpack ⊢
    obtain ⟨⟨right, scm'⟩, hres, hchanges⟩ := ih hspace h.2.2 hr hrbal (hrsh.mono (by decide))
      (by omega : r.size < fuel) hredup (hpack.of_count fun b => by
        simp only [count_blocks_node, List.count_append]
        omega)
    have hremove := remove_right hspace h hbal hshallow hpack hchanges
      (blocks_removeNode scm redup r x false hr hredup) (balanced_removeNode redup x false r hrbal)
    rw [removeNode_of_gt redup flag (CString.strcmp_pos_iff.mp hgt)]
    simp only [Heap.removeNode, ptr_node, if_neg a.ptr_ne_zero, h.1.strAt, if_neg hlt, if_pos hgt,
      h.1.right, hres]
    exact ⟨_, rfl, hremove⟩
  | case4 x flag a d c i l r hlt hgt hc =>
    obtain ⟨fuel, rfl⟩ : ∃ k, fuel = k + 1 := ⟨fuel - 1, by omega⟩
    obtain rfl : x = i := CString.strcmp_eq_zero_iff.mp (by omega)
    have hblocks : (node a d c x l r).removeBlocks scm x flag = [] := by
      rw [removeBlocks, duplicated, if_neg hlt, if_neg hgt, if_pos hc]
      rfl
    rw [hblocks, List.nil_append] at hpack ⊢
    have hremove := remove_here hspace h hbal hshallow hpack
    rw [hc.2, removeNode_of_count redup hc.1]
    simp only [Heap.removeNode, ptr_node, if_neg a.ptr_ne_zero, h.1.strAt, if_neg hlt, if_neg hgt,
      h.1.count, hc.1, and_self, if_true]
    exact ⟨_, rfl, hremove⟩
  | case5 x flag a d c i hlt hgt hc =>
    obtain ⟨fuel, rfl⟩ : ∃ k, fuel = k + 1 := ⟨fuel - 1, by omega⟩
    obtain rfl : x = i := CString.strcmp_eq_zero_iff.mp (by omega)
    have hblocks : (node a d c x nil nil).removeBlocks scm x flag = [] := by
      rw [removeBlocks, duplicated, if_neg hlt, if_neg hgt, if_neg hc, if_pos (.inl rfl)]
      rfl
    rw [hblocks, List.nil_append] at hpack ⊢
    have hremove := unlink_leaf h
    rw [removeNode_of_last redup flag hc]
    simp only [Heap.removeNode, ptr_node, if_neg a.ptr_ne_zero, h.1.strAt, if_neg hlt, if_neg hgt,
      h.1.count, if_neg hc, h.1.left, ptr_nil, true_or, if_true]
    exact ⟨_, rfl, hremove⟩
  | case6 x flag a d c i hlt hgt hc a' d' c' i' l' r' =>
    obtain ⟨fuel, rfl⟩ : ∃ k, fuel = k + 1 := ⟨fuel - 1, by omega⟩
    obtain rfl : x = i := CString.strcmp_eq_zero_iff.mp (by omega)
    obtain ⟨-, -, -, hrbal⟩ := Balanced.node_iff.mp hbal
    have hrsh := (hshallow.children hbal).2
    have hblocks : (node a d c x nil (node a' d' c' i' l' r')).removeBlocks scm x flag = [] := by
      rw [removeBlocks, duplicated, if_neg hlt, if_neg hgt, if_neg hc, if_pos (.inl rfl)]
      rfl
    rw [hblocks, List.nil_append] at hpack ⊢
    have hremove := unlink_child hspace h (.inl ⟨rfl, rfl⟩) (by simp) hrbal
      (hrsh.mono (by decide)) hpack
    rw [removeNode_of_last redup flag hc]
    simp only [Heap.removeNode, ptr_node, if_neg a.ptr_ne_zero, h.1.strAt, if_neg hlt, if_neg hgt,
      h.1.count, if_neg hc, h.1.left, ptr_nil, true_or, if_true]
    exact ⟨_, rfl, hremove⟩
  | case7 x flag a d c i hlt hgt hc a' d' c' i' l' r' =>
    obtain ⟨fuel, rfl⟩ : ∃ k, fuel = k + 1 := ⟨fuel - 1, by omega⟩
    obtain rfl : x = i := CString.strcmp_eq_zero_iff.mp (by omega)
    obtain ⟨-, -, hlbal, -⟩ := Balanced.node_iff.mp hbal
    have hlsh := (hshallow.children hbal).1
    have hblocks : (node a d c x (node a' d' c' i' l' r') nil).removeBlocks scm x flag = [] := by
      rw [removeBlocks, duplicated, if_neg hlt, if_neg hgt, if_neg hc, if_pos (.inr rfl)]
      rfl
    rw [hblocks, List.nil_append] at hpack ⊢
    have hremove := unlink_child hspace h (.inr ⟨rfl, rfl⟩) (by simp) hlbal
      (hlsh.mono (by decide)) hpack
    rw [removeNode_of_last redup flag hc]
    simp only [Heap.removeNode, ptr_node, if_neg a.ptr_ne_zero, h.1.strAt, if_neg hlt, if_neg hgt,
      h.1.count, if_neg hc, h.1.right, ptr_nil, or_true, if_true]
    exact ⟨_, rfl, hremove⟩
  | case8 x flag a d c i hlt hgt hc a₁ d₁ c₁ i₁ l₁ r₁ a₂ d₂ c₂ i₂ l₂ r₂ min =>
    rename_i ih
    obtain ⟨fuel, rfl⟩ : ∃ k, fuel = k + 1 := ⟨fuel - 1, by omega⟩
    obtain rfl : x = i := CString.strcmp_eq_zero_iff.mp (by omega)
    obtain ⟨-, hr, -, -⟩ := sorted_append_cons.mp hsorted
    obtain ⟨-, -, -, hrbal⟩ := Balanced.node_iff.mp hbal
    have hrsh := (hshallow.children hbal).2
    have hl0 : (node a₁ d₁ c₁ i₁ l₁ r₁).ptr ≠ 0 := a₁.ptr_ne_zero
    have hr0 : (node a₂ d₂ c₂ i₂ l₂ r₂).ptr ≠ 0 := a₂.ptr_ne_zero
    rw [size] at hfuel
    have hdup : (node a d c x (node a₁ d₁ c₁ i₁ l₁ r₁) (node a₂ d₂ c₂ i₂ l₂ r₂)).duplicated x flag =
        some (node a₂ d₂ c₂ i₂ l₂ r₂).findMin.1 := by
      rw [duplicated, if_neg hlt, if_neg hgt, if_neg hc, if_neg (by simp [size])]
    obtain rfl : redup = scm.redup := hredup (by rw [hdup]; exact Option.some_ne_none _)
    rw [removeBlocks, hdup] at hpack ⊢
    rw [removeNode_of_last scm.redup flag hc]
    rw [show min = (node a₂ d₂ c₂ i₂ l₂ r₂).findMin from rfl] at ih
    dsimp only
    have hne : node a₂ d₂ c₂ i₂ l₂ r₂ ≠ nil := by simp
    generalize node a₂ d₂ c₂ i₂ l₂ r₂ = r at *
    generalize node a₁ d₁ c₁ i₁ l₁ r₁ = l at *
    have htake := takeOver_stored hspace h hne hpack
    have hcap : (takeOver scm a.ptr r.minPtr).capacity = scm.capacity := htake.capacity
    have hstored := htake.stored
    have hnone := duplicated_setMinCount r hr true
    have hblocks (scm' : Scm) : r.setMinCount.removeBlocks scm' r.findMin.1 true ++
        r.setMinCount.blocks = r.blocks := by
      rw [removeBlocks, hnone, blocks_setMinCount]
      rfl
    obtain ⟨hmin, hdelta⟩ := balanced_setMinCount hrbal
    have hne' : r.setMinCount ≠ nil := by
      rw [ne_eq, ← ptr_eq_zero_iff, ptr_setMinCount]
      exact hr0
    obtain ⟨hitem, -⟩ := Stored.min hstored.2.2 hne'
    rw [minPtr_setMinCount, findMin_setMinCount, ← hcap] at hitem
    have hright : get (takeOver scm a.ptr r.minPtr).mem a.ptr .right = r.setMinCount.ptr :=
      hstored.1.right
    obtain ⟨⟨right, scm'⟩, hres, hchanges⟩ := @ih (takeOver scm a.ptr r.minPtr)
      (by rwa [hcap]) (by rw [hcap]; exact hstored.2.2) (sorted_setMinCount hr) hmin
      (by rw [Shallow, hdelta]; exact hrsh.mono (by decide)) fuel (by rw [size_setMinCount]; omega)
      (fun h => absurd hnone h) (by
        rw [hblocks, hcap]
        exact hpack.of_count fun b => by
          simp only [Option.toList_some, List.map_cons, List.map_nil, List.count_append,
            count_blocks_node]
          omega)
    rw [hblocks] at hchanges
    have hremove := remove_successor hspace h hne hr hbal hshallow hpack hchanges
    simp only [Heap.removeNode, ptr_node, if_neg a.ptr_ne_zero, h.1.strAt, if_neg hlt, if_neg hgt,
      h.1.count, if_neg hc, h.1.left, h.1.right, hl0, hr0, or_self, if_false,
      Stored.findMin h.2.2 hne (by omega : r.size ≤ fuel), hitem, hright, hres]
    exact ⟨_, rfl, hremove⟩

end Cs238p.P3
