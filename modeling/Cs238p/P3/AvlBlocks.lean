import Cs238p.Lib.Transition
import Cs238p.P3.HeapStore

set_option relaxedAutoImplicit false
set_option autoImplicit false

/-!
# The blocks of the AVL store

The functions of `avl.c` over trees whose nodes carry the numbers of their blocks, with an allocator
that gives every block a number of its own and keeps track of the live ones. A removal that unlinks
a node with one child releases the blocks of the child and keeps those of the node; every other
call leaves exactly the blocks of the tree live.

## Main definitions

* `Arena` — the allocator; `Handle` — the blocks of a node.
* `Arena.update`, `Arena.removeNode`, `Store.avlInsert`, `Store.avlRemove` — as in the source.
* `Store.Exact` — the live blocks are those in use.
* `Store.Spares` — the call does not unlink a node with one child.

## Main results

* `Arena.removeNode_tree` — the tree is that of `Tree.removeNode`.
* `Arena.removeNode_counts` — the blocks that a removal releases, and those that leave the tree.
* `exact_iff_spares` — the calls of a run leave exactly the blocks in use live if and only if none
  of them unlinks a node with one child.
-/

namespace Cs238p.P3

open SortedCounts Transition

/-- A block: its number and its size. -/
abbrev Block := ℕ × ℕ

/-- An allocator that returns fresh storage: the number of the next block, the live blocks, the
releases of blocks that were not live, and the number of utilized bytes. -/
structure Arena where
  next : ℕ
  live : List Block
  stray : List ℕ
  utilized : ℕ
  deriving DecidableEq

/-- The numbers of the two blocks of a node. -/
structure Handle where
  node : ℕ
  str : ℕ
  deriving DecidableEq

/-- The blocks of a node. -/
def nodeBlocks (e : Handle × CString) : List Block :=
  [(e.1.node, 2 + 8 + nodeLayout.size), (e.1.str, 2 + 8 + (e.2.strlen + 1))]

/-- The blocks of a tree. -/
def Tree.owned (t : Tree Handle) : List Block := t.nodes.flatMap nodeBlocks

namespace Arena

open Cs238p.P3.Tree

/-- `scm_malloc`. -/
def scmMalloc (ar : Arena) (n : ℕ) : ℕ × Arena :=
  (ar.next, ⟨ar.next + 1, (ar.next, 2 + 8 + n) :: ar.live, ar.stray, ar.utilized + (2 + 8 + n)⟩)

/-- `scm_strdup`. -/
def scmStrdup (ar : Arena) (s : CString) : ℕ × Arena := ar.scmMalloc (s.strlen + 1)

/-- `scm_free`. -/
def scmFree (ar : Arena) (p : ℕ) : Arena :=
  match ar.live.find? fun b => b.1 = p with
  | some b => { ar with live := ar.live.erase b, utilized := ar.utilized - b.2 }
  | none => { ar with stray := p :: ar.stray }

/-- `update`. -/
def update (ar : Arena) (item : CString) (s : Counters) :
    Tree Handle → Arena × Counters × Tree Handle
  | nil =>
    let root := ar.scmMalloc nodeLayout.size
    let str := root.2.scmStrdup item
    (str.2, ⟨s.items + 1, s.unique + 1⟩, node ⟨root.1, str.1⟩ 0 1 item nil nil)
  | node a d c i l r =>
    if CString.strcmp item i = 0 then
      (ar, ⟨s.items + 1, s.unique⟩, setDepth (node a d (c + 1) i l r))
    else if 0 > CString.strcmp item i then
      let res := ar.update item s l
      (res.1, res.2.1, fixLeft item (node a d c i res.2.2 r))
    else
      let res := ar.update item s r
      (res.1, res.2.1, fixRight item (node a d c i l res.2.2))

/-- The two calls of `scm_free` for a node. -/
def freeNode (ar : Arena) (a : Handle) : Arena := (ar.scmFree a.str).scmFree a.node

/-- `remove_node`. -/
def removeNode (ar : Arena) (t : Tree Handle) (item : CString) (flag : Bool) :
    Arena × Tree Handle :=
  match t with
  | nil => (ar, nil)
  | node a d c i l r =>
    if CString.strcmp item i < 0 then
      let res := ar.removeNode l item false
      (res.1, rebalance (node a d c i res.2 r))
    else if CString.strcmp item i > 0 then
      let res := ar.removeNode r item false
      (res.1, rebalance (node a d c i l res.2))
    else if c > 1 ∧ flag = false then (ar, rebalance (node a d (c - 1) i l r))
    else
      match l, r with
      | nil, nil => (ar.freeNode a, nil)
      | nil, node a' d' c' i' l' r' => (ar.freeNode a', rebalance (node a' d' c' i' l' r'))
      | node a' d' c' i' l' r', nil => (ar.freeNode a', rebalance (node a' d' c' i' l' r'))
      | node a₁ d₁ c₁ i₁ l₁ r₁, node a₂ d₂ c₂ i₂ l₂ r₂ =>
        let min := findMin (node a₂ d₂ c₂ i₂ l₂ r₂)
        let str := ar.scmStrdup min.1
        let res :=
          (str.2.scmFree a.str).removeNode (setMinCount (node a₂ d₂ c₂ i₂ l₂ r₂)) min.1 true
        (res.1, rebalance (node ⟨a.node, str.1⟩ d min.2 min.1 (node a₁ d₁ c₁ i₁ l₁ r₁) res.2))
termination_by t.size
decreasing_by all_goals simp only [size_setMinCount, size]; omega

end Arena

/-- An open store. -/
structure Store where
  arena : Arena
  avl : Avl Handle
  deriving DecidableEq

/-- A call on a store. -/
inductive AvlOp
  | insert (item : Word)
  | remove (item : Word)
  deriving DecidableEq

namespace Store

/-- The store after `avl_open` with truncation: the first block is that of `struct state`. -/
def avlOpen : Store := ⟨((⟨0, [], [], 0⟩ : Arena).scmMalloc stateLayout.size).2, Avl.empty⟩

/-- `avl_insert`. -/
def avlInsert (s : Store) (item : Word) : Store :=
  let res := s.arena.update item.1 ⟨s.avl.items, s.avl.unique⟩ s.avl.root
  ⟨res.1, ⟨res.2.1.items, res.2.1.unique, res.2.2⟩⟩

/-- `avl_remove`. -/
def avlRemove (s : Store) (item : Word) : Store :=
  if avlExists s.avl item = 0 then s
  else
    let res := s.arena.removeNode s.avl.root item.1 false
    let avl : Avl Handle := ⟨s.avl.items - 1, s.avl.unique, res.2⟩
    if avlExists avl item = 0 then ⟨res.1, { avl with unique := avl.unique - 1 }⟩
    else ⟨res.1, avl⟩

/-- The store after a call. -/
def step (s : Store) : AvlOp → Option Store
  | .insert item => some (s.avlInsert item)
  | .remove item => some (s.avlRemove item)

/-- The blocks in use: that of `struct state` and those of the nodes and strings of the tree. -/
def inUse (s : Store) : List Block := (0, 2 + 8 + stateLayout.size) :: s.avl.root.owned

/-- The live blocks are exactly those in use, no other block was ever released, and the number of
utilized bytes is the sum of their sizes. -/
structure Exact (s : Store) : Prop where
  live : s.arena.live.Perm s.inUse
  stray : s.arena.stray = []
  utilized : s.arena.utilized = (s.inUse.map Prod.snd).sum

/-- After the call the live blocks are exactly those in use. -/
def StaysExact (s : Store) (op : AvlOp) : Prop := ∀ s', s.step op = some s' → s'.Exact

/-- The call does not unlink a node that has exactly one child. -/
def Spares (s : Store) : AvlOp → Prop
  | .insert _ => True
  | .remove item => ¬ (s.avl.root.unlinked item.1 false).OneChild

instance (s : Store) : DecidablePred s.Spares
  | .insert _ => inferInstanceAs (Decidable True)
  | .remove _ => inferInstanceAs (Decidable (¬ _))

end Store

/-! ## The allocator -/

namespace Arena

open Cs238p.P3.Tree

variable {ar : Arena} {b : Block} {n : ℕ}

/-- The live blocks have numbers of their own, and their sizes add up to the utilized bytes. -/
structure Good (ar : Arena) : Prop where
  nodup : (ar.live.map Prod.fst).Nodup
  fresh : ∀ b ∈ ar.live, b.1 < ar.next
  utilized : ar.utilized = (ar.live.map Prod.snd).sum

lemma Good.scmMalloc (h : ar.Good) (n : ℕ) : (ar.scmMalloc n).2.Good := by
  refine ⟨?_, ?_, ?_⟩
  · refine List.nodup_cons.mpr ⟨fun hmem => ?_, h.nodup⟩
    obtain ⟨b, hb, heq⟩ := List.mem_map.mp hmem
    exact absurd (h.fresh b hb) (by simp [heq])
  · intro b hb
    rcases List.mem_cons.mp hb with rfl | hb
    · exact Nat.lt_succ_self _
    · exact Nat.lt_succ_of_lt (h.fresh b hb)
  · simp only [Arena.scmMalloc, List.map_cons, List.sum_cons]
    rw [h.utilized]
    omega

/-- A live block is found by its number. -/
lemma Good.find (h : ar.Good) (hb : b ∈ ar.live) :
    (ar.live.find? fun c => c.1 = b.1) = some b := by
  cases hfind : ar.live.find? fun c => c.1 = b.1 with
  | none => simpa using List.find?_eq_none.mp hfind b hb
  | some c =>
    have hnum : c.1 = b.1 := by simpa using List.find?_some hfind
    have hc := List.mem_of_find?_eq_some hfind
    rw [List.inj_on_of_nodup_map h.nodup hc hb hnum]

/-- The release of a live block. -/
lemma Good.scmFree_eq (h : ar.Good) (hb : b ∈ ar.live) : ar.scmFree b.1 =
    { ar with live := ar.live.erase b, utilized := ar.utilized - b.2 } := by
  rw [Arena.scmFree, h.find hb]

lemma Good.scmFree (h : ar.Good) (hb : b ∈ ar.live) : (ar.scmFree b.1).Good := by
  rw [h.scmFree_eq hb]
  have hperm := List.perm_cons_erase hb
  refine ⟨?_, fun c hc => h.fresh c (List.mem_of_mem_erase hc), ?_⟩
  · exact ((hperm.map Prod.fst).nodup_iff.mp h.nodup).of_cons
  · have hsum := (hperm.map Prod.snd).sum_eq
    rw [List.map_cons, List.sum_cons] at hsum
    simp only
    rw [h.utilized, hsum]
    omega

/-- How often a block is live after a release. -/
lemma Good.count_scmFree (h : ar.Good) (hb : b ∈ ar.live) (s : Block) :
    (ar.scmFree b.1).live.count s + [b].count s = ar.live.count s := by
  rw [h.scmFree_eq hb, (List.perm_cons_erase hb).count_eq s]
  simp only [List.count_cons, List.count_nil]
  omega

/-- No block is live twice. -/
lemma Good.count_le_one (h : ar.Good) (s : Block) : ar.live.count s ≤ 1 :=
  List.nodup_iff_count_le_one.mp h.nodup.of_map s

/-- The release of a live block after the allocation of a new one. -/
lemma Good.scmMalloc_scmFree (h : ar.Good) (n : ℕ) (hb : b ∈ ar.live) :
    ((ar.scmMalloc n).2.scmFree b.1).Good ∧ ((ar.scmMalloc n).2.scmFree b.1).stray = ar.stray ∧
      ∀ s, ((ar.scmMalloc n).2.scmFree b.1).live.count s + [b].count s =
        ar.live.count s + [(ar.next, 2 + 8 + n)].count s := by
  have hgood := h.scmMalloc n
  have hmem : b ∈ (ar.scmMalloc n).2.live := List.mem_cons_of_mem _ hb
  refine ⟨hgood.scmFree hmem, ?_, fun s => ?_⟩
  · rw [hgood.scmFree_eq hmem]
    rfl
  · rw [hgood.count_scmFree hmem s]
    show ((ar.next, 2 + 8 + n) :: ar.live).count s = _
    rw [← List.singleton_append, List.count_append, Nat.add_comm]

/-- **The release of a node** whose blocks are live. -/
lemma Good.freeNode (h : ar.Good) {a : Handle} {i : CString}
    (hlive : ∀ s, (nodeBlocks (a, i)).count s ≤ ar.live.count s) :
    (ar.freeNode a).Good ∧ (ar.freeNode a).stray = ar.stray ∧
      ∀ s, (ar.freeNode a).live.count s + (nodeBlocks (a, i)).count s = ar.live.count s := by
  have hmem : ∀ b ∈ nodeBlocks (a, i), b ∈ ar.live := fun b hb =>
    List.count_pos_iff.mp ((List.count_pos_iff.mpr hb).trans_le (hlive b))
  set bs : Block := (a.str, 2 + 8 + (i.strlen + 1)) with hbs
  set bn : Block := (a.node, 2 + 8 + nodeLayout.size) with hbn
  have hs : bs ∈ ar.live := hmem bs (by simp [nodeBlocks, hbs])
  have hn : bn ∈ ar.live := hmem bn (by simp [nodeBlocks, hbn])
  have hs' := h.scmFree hs
  have hcount := h.count_scmFree hs
  have hn' : bn ∈ (ar.scmFree bs.1).live := by
    have hle := hlive bn
    have heq := hcount bn
    simp only [nodeBlocks, List.count_cons, List.count_nil] at hle heq
    refine List.count_pos_iff.mp ?_
    simp only [← hbs, ← hbn, beq_self_eq_true, if_true] at hle heq
    omega
  have hcount' := hs'.count_scmFree hn'
  refine ⟨hs'.scmFree hn', ?_, fun s => ?_⟩
  · rw [Arena.freeNode, hs'.scmFree_eq hn', h.scmFree_eq hs]
  · have h₁ := hcount s
    have h₂ := hcount' s
    simp only [nodeBlocks, List.count_cons, List.count_nil, ← hbs, ← hbn] at h₁ h₂ ⊢
    show ((ar.scmFree bs.1).scmFree bn.1).live.count s + _ = _
    omega

/-! ## Removal -/

section Equations

variable {l r : Tree Handle} {a : Handle} {d : ℤ} {c : ℕ} {i x : CString} {flag : Bool}

/-- An item that is smaller, larger, counted or in the last of its occurrences. -/
lemma removeNode_of_lt (h : CString.strcmp x i < 0) :
    ar.removeNode (node a d c i l r) x flag =
      ((ar.removeNode l x false).1, rebalance (node a d c i (ar.removeNode l x false).2 r)) := by
  rw [Arena.removeNode.eq_def]
  simp only [h, if_true]

lemma removeNode_of_gt (h : CString.strcmp x i > 0) :
    ar.removeNode (node a d c i l r) x flag =
      ((ar.removeNode r x false).1, rebalance (node a d c i l (ar.removeNode r x false).2)) := by
  rw [Arena.removeNode.eq_def]
  simp only [h, h.asymm, if_true, if_false]

lemma removeNode_of_count (h : CString.strcmp x i = 0) (hc : c > 1 ∧ flag = false) :
    ar.removeNode (node a d c i l r) x flag = (ar, rebalance (node a d (c - 1) i l r)) := by
  rw [Arena.removeNode.eq_def]
  simp only [h, lt_irrefl, gt_iff_lt, if_false, if_pos hc]

lemma removeNode_of_both (h : CString.strcmp x i = 0) (hc : ¬ (c > 1 ∧ flag = false))
    {t : Tree Handle} (ht : ∃ a' d' c' i' l' r', t = node a' d' c' i' l' r')
    {a₁ : Handle} {d₁ : ℤ} {c₁ : ℕ} {i₁ : CString} {l₁ r₁ : Tree Handle}
    {m : CString × ℕ} (hm : t.findMin = m) {res : Arena × Tree Handle}
    (hres : ((ar.scmStrdup m.1).2.scmFree a.str).removeNode (setMinCount t) m.1 true = res) :
    ar.removeNode (node a d c i (node a₁ d₁ c₁ i₁ l₁ r₁) t) x flag =
      (res.1, rebalance (node ⟨a.node, ar.next⟩ d m.2 m.1 (node a₁ d₁ c₁ i₁ l₁ r₁) res.2)) := by
  obtain ⟨a', d', c', i', l', r', rfl⟩ := ht
  subst hm
  rw [Arena.removeNode.eq_def]
  simp only [h, lt_irrefl, gt_iff_lt, if_false, if_neg hc, hres]
  rfl

end Equations

/-- **The tree after a removal** is that of `Tree.removeNode`, which does not look at the blocks. -/
theorem removeNode_tree (redup : Handle → Handle) (ar : Arena) (t : Tree Handle) (x : CString)
    (flag : Bool) (hsorted : Sorted t.traverse)
    (hredup : t.duplicated x flag ≠ none → redup = fun a => ⟨a.node, ar.next⟩) :
    (ar.removeNode t x flag).2 = Tree.removeNode redup t x flag := by
  induction ar, t, x, flag using Arena.removeNode.induct with
  | case1 ar x flag => rw [Arena.removeNode, Tree.removeNode_nil]
  | case2 ar x flag a d c i l r hlt ih =>
    obtain ⟨hl, -, -, -⟩ := sorted_append_cons.mp hsorted
    rw [duplicated, if_pos hlt] at hredup
    rw [Tree.removeNode_of_lt redup flag (CString.strcmp_neg_iff.mp hlt), ← ih hl hredup,
      Arena.removeNode_of_lt hlt]
  | case3 ar x flag a d c i l r hlt hgt ih =>
    obtain ⟨-, hr, -, -⟩ := sorted_append_cons.mp hsorted
    rw [duplicated, if_neg hlt, if_pos hgt] at hredup
    rw [Tree.removeNode_of_gt redup flag (CString.strcmp_pos_iff.mp hgt), ← ih hr hredup,
      Arena.removeNode_of_gt hgt]
  | case4 ar x flag a d c i l r hlt hgt hc =>
    have heq : CString.strcmp x i = 0 := by omega
    rw [Arena.removeNode_of_count heq hc]
    obtain rfl : x = i := CString.strcmp_eq_zero_iff.mp heq
    rw [hc.2, Tree.removeNode_of_count redup hc.1]
  | case5 ar x flag a d c i hlt hgt hc =>
    obtain rfl : x = i := CString.strcmp_eq_zero_iff.mp (by omega)
    rw [Arena.removeNode, if_neg hlt, if_neg hgt, if_neg hc, removeNode_of_last redup flag hc]
    rfl
  | case6 ar x flag a d c i hlt hgt hc a' d' c' i' l' r' =>
    obtain rfl : x = i := CString.strcmp_eq_zero_iff.mp (by omega)
    rw [Arena.removeNode, if_neg hlt, if_neg hgt, if_neg hc, removeNode_of_last redup flag hc]
  | case7 ar x flag a d c i hlt hgt hc a' d' c' i' l' r' =>
    obtain rfl : x = i := CString.strcmp_eq_zero_iff.mp (by omega)
    rw [Arena.removeNode, if_neg hlt, if_neg hgt, if_neg hc, removeNode_of_last redup flag hc]
  | case8 ar x flag a d c i hlt hgt hc a₁ d₁ c₁ i₁ l₁ r₁ a₂ d₂ c₂ i₂ l₂ r₂ min str ih =>
    obtain rfl : x = i := CString.strcmp_eq_zero_iff.mp (by omega)
    obtain ⟨-, hr, -, -⟩ := sorted_append_cons.mp hsorted
    have hdup : redup = fun a => ⟨a.node, ar.next⟩ := hredup (by
      rw [duplicated, if_neg hlt, if_neg hgt, if_neg hc, if_neg (by simp [size])]
      exact Option.some_ne_none _)
    have hnone := duplicated_setMinCount (node a₂ d₂ c₂ i₂ l₂ r₂) hr true
    rw [Arena.removeNode, if_neg hlt, if_neg hgt, if_neg hc, removeNode_of_last redup flag hc]
    simp only
    rw [ih (sorted_setMinCount hr) fun h => absurd hnone h, hdup]
    rfl

/-! ## The blocks of a tree -/

variable {t l r : Tree Handle} {a : Handle} {d : ℤ} {c : ℕ} {i x : CString}

lemma count_owned_node (s : Block) : (node a d c i l r).owned.count s =
    (nodeBlocks (a, i)).count s + l.owned.count s + r.owned.count s := by
  rw [owned, nodes_node, List.flatMap_append, List.flatMap_cons, List.count_append,
    List.count_append, owned, owned]
  omega

@[simp] lemma owned_rebalance (t : Tree Handle) : t.rebalance.owned = t.owned := by
  rw [owned, nodes_rebalance, owned]

@[simp] lemma owned_setMinCount (t : Tree Handle) : t.setMinCount.owned = t.owned := by
  rw [owned, nodes_setMinCount, owned]

/-- The blocks of the leftmost node, and what hangs below it, are blocks of the tree. -/
lemma count_owned_minNode_le (t : Tree Handle) (s : Block) :
    t.minNode.owned.count s ≤ t.owned.count s := by
  induction t with
  | nil => exact le_rfl
  | node a d c i l r ihl _ =>
    cases l with
    | nil => exact le_rfl
    | node a' d' c' i' l' r' =>
      rw [minNode, count_owned_node]
      omega

/-- The blocks of the node that is unlinked, and what hangs below it, are blocks of the tree. -/
lemma count_owned_unlinked_le (t : Tree Handle) (x : CString) (flag : Bool) (s : Block) :
    (t.unlinked x flag).owned.count s ≤ t.owned.count s := by
  induction t generalizing flag with
  | nil => exact le_rfl
  | node a d c i l r ihl ihr =>
    have hl := ihl false
    have hr := ihr false
    have hmin := count_owned_minNode_le r s
    rw [unlinked]
    split
    · rw [count_owned_node]
      omega
    · split
      · rw [count_owned_node]
        omega
      · split
        · exact Nat.zero_le _
        · split
          · exact le_rfl
          · rw [count_owned_node]
            omega

/-- A call took the node `u` out of the tree: of the live blocks it released those of
`u.released`, of the blocks of the tree those of `u.top` are gone, and otherwise the same blocks
were added to and removed from both. -/
structure Removed (ar : Arena) (t u : Tree Handle) (res : Arena × Tree Handle) : Prop where
  good : res.1.Good
  stray : res.1.stray = ar.stray
  counts : ∃ add del : List Block, ∀ s,
    res.1.live.count s + (u.released.flatMap nodeBlocks).count s + del.count s =
        ar.live.count s + add.count s ∧
      res.2.owned.count s + (u.top.flatMap nodeBlocks).count s + del.count s =
        t.owned.count s + add.count s

/-- Nothing is unlinked. -/
lemma removed_nil (h : ar.Good) {t' : Tree Handle} (howned : t'.owned = t.owned) :
    Removed ar t nil (ar, t') :=
  ⟨h, rfl, [], [], fun s => ⟨rfl, by rw [howned]; rfl⟩⟩

/-- The node is a leaf or has one child, which takes its place. -/
lemma removed_node (h : ar.Good) {u t' : Tree Handle} {b : Handle} {j : CString}
    (hreleased : u.released = [(b, j)])
    (hlive : ∀ s, (nodeBlocks (b, j)).count s ≤ ar.live.count s)
    (howned : ∀ s, t'.owned.count s + (u.top.flatMap nodeBlocks).count s = t.owned.count s) :
    Removed ar t u (ar.freeNode b, t') := by
  obtain ⟨hgood, hstray, hcount⟩ := h.freeNode hlive
  refine ⟨hgood, hstray, [], [], fun s => ⟨?_, by rw [howned s]⟩⟩
  rw [hreleased, List.flatMap_singleton]
  exact congrArg (· + 0) (hcount s)

/-- **The blocks of a removal.**

**Proof sketch.** Induction along the recursion of `remove_node`. In a node with two children the
string of the next larger node is duplicated before the old string is released, and the recursive
call unlinks that node. -/
theorem removeNode_counts (ar : Arena) (t : Tree Handle) (x : CString) (flag : Bool)
    (h : ar.Good) (hsorted : Sorted t.traverse)
    (hlive : ∀ s, t.owned.count s ≤ ar.live.count s) :
    Removed ar t (t.unlinked x flag) (ar.removeNode t x flag) := by
  induction ar, t, x, flag using Arena.removeNode.induct with
  | case1 ar x flag =>
    rw [Arena.removeNode]
    exact removed_nil h rfl
  | case2 ar x flag a d c i l r hlt ih =>
    obtain ⟨hl, -, -, -⟩ := sorted_append_cons.mp hsorted
    obtain ⟨hgood, hstray, add, del, hcounts⟩ := ih h hl fun s => by
      have hs := hlive s
      rw [count_owned_node] at hs
      omega
    rw [Arena.removeNode_of_lt hlt, unlinked, if_pos hlt]
    refine ⟨hgood, hstray, add, del, fun s => ⟨(hcounts s).1, ?_⟩⟩
    have hs := (hcounts s).2
    rw [owned_rebalance, count_owned_node, count_owned_node]
    omega
  | case3 ar x flag a d c i l r hlt hgt ih =>
    obtain ⟨-, hr, -, -⟩ := sorted_append_cons.mp hsorted
    obtain ⟨hgood, hstray, add, del, hcounts⟩ := ih h hr fun s => by
      have hs := hlive s
      rw [count_owned_node] at hs
      omega
    rw [Arena.removeNode_of_gt hgt, unlinked, if_neg hlt, if_pos hgt]
    refine ⟨hgood, hstray, add, del, fun s => ⟨(hcounts s).1, ?_⟩⟩
    have hs := (hcounts s).2
    rw [owned_rebalance, count_owned_node, count_owned_node]
    omega
  | case4 ar x flag a d c i l r hlt hgt hc =>
    rw [Arena.removeNode_of_count (by omega) hc, unlinked, if_neg hlt, if_neg hgt, if_pos hc]
    exact removed_nil h (by rw [owned_rebalance]; rfl)
  | case5 ar x flag a d c i hlt hgt hc =>
    rw [Arena.removeNode, if_neg hlt, if_neg hgt, if_neg hc, unlinked, if_neg hlt, if_neg hgt,
      if_neg hc, if_pos (.inl rfl)]
    refine removed_node h rfl (fun s => ?_) fun s => ?_
    · have hs := hlive s
      rw [count_owned_node] at hs
      omega
    · have hnil : (nil : Tree Handle).owned.count s = 0 := rfl
      rw [count_owned_node, top, List.flatMap_singleton]
      omega
  | case6 ar x flag a d c i hlt hgt hc a' d' c' i' l' r' =>
    rw [Arena.removeNode, if_neg hlt, if_neg hgt, if_neg hc, unlinked, if_neg hlt, if_neg hgt,
      if_neg hc, if_pos (.inl rfl)]
    refine removed_node h rfl (fun s => ?_) fun s => ?_
    · have hs := hlive s
      rw [count_owned_node, count_owned_node] at hs
      omega
    · rw [owned_rebalance, count_owned_node (l := nil), top, List.flatMap_singleton]
      exact Nat.add_comm _ _
  | case7 ar x flag a d c i hlt hgt hc a' d' c' i' l' r' =>
    rw [Arena.removeNode, if_neg hlt, if_neg hgt, if_neg hc, unlinked, if_neg hlt, if_neg hgt,
      if_neg hc, if_pos (.inr rfl)]
    refine removed_node h rfl (fun s => ?_) fun s => ?_
    · have hs := hlive s
      rw [count_owned_node, count_owned_node] at hs
      omega
    · rw [owned_rebalance, count_owned_node (r := nil), top, List.flatMap_singleton]
      exact Nat.add_comm _ _
  | case8 ar x flag a d c i hlt hgt hc a₁ d₁ c₁ i₁ l₁ r₁ a₂ d₂ c₂ i₂ l₂ r₂ min str ih =>
    obtain ⟨-, hr, -, -⟩ := sorted_append_cons.mp hsorted
    set old : Block := (a.str, 2 + 8 + (i.strlen + 1)) with hold
    set new : Block := (ar.next, 2 + 8 + (min.1.strlen + 1)) with hnew
    -- the old string is released after the next larger item is duplicated
    have hmem : old ∈ ar.live := by
      refine List.count_pos_iff.mp (lt_of_lt_of_le ?_ (hlive old))
      rw [count_owned_node, nodeBlocks, ← hold]
      simp only [List.count_cons, List.count_nil, beq_self_eq_true, if_true]
      omega
    obtain ⟨hgood, hstray, hcount⟩ : (str.2.scmFree a.str).Good ∧
        (str.2.scmFree a.str).stray = ar.stray ∧ ∀ s, (str.2.scmFree a.str).live.count s +
          [old].count s = ar.live.count s + [new].count s :=
      h.scmMalloc_scmFree (min.1.strlen + 1) hmem
    have hnode : ∀ s, (nodeBlocks (⟨a.node, ar.next⟩, min.1)).count s + [old].count s =
        (nodeBlocks (a, i)).count s + [new].count s := fun s => by
      simp only [nodeBlocks, List.count_cons, List.count_nil, ← hold, ← hnew]
      omega
    have holds : ∀ s, [old].count s ≤ (nodeBlocks (a, i)).count s := fun s => by
      simp only [nodeBlocks, List.count_cons, List.count_nil, ← hold]
      omega
    have hremoved := ih hgood (sorted_setMinCount hr) fun s => by
      have hs := hlive s
      have hs' := hcount s
      have hs'' := holds s
      rw [count_owned_node] at hs
      rw [owned_setMinCount]
      omega
    obtain ⟨res, hres⟩ : ∃ res, (str.2.scmFree a.str).removeNode
      (setMinCount (node a₂ d₂ c₂ i₂ l₂ r₂)) min.1 true = res := ⟨_, rfl⟩
    rw [hres, unlinked_setMinCount _ hr] at hremoved
    obtain ⟨hgood', hstray', add, del, hcounts⟩ := hremoved
    have heq : CString.strcmp x i = 0 := by omega
    have hm : findMin (node a₂ d₂ c₂ i₂ l₂ r₂) = min := rfl
    rw [removeNode_of_both heq hc ⟨_, _, _, _, _, _, rfl⟩ hm hres, unlinked, if_neg hlt,
      if_neg hgt, if_neg hc, if_neg (by simp [size])]
    refine ⟨hgood', hstray'.trans hstray, new :: add, old :: del, fun s => ?_⟩
    obtain ⟨hlives, howned⟩ := hcounts s
    have hs := hcount s
    have hs' := hnode s
    rw [(top_minNode_setMinCount _).2] at hlives
    rw [(top_minNode_setMinCount _).1, owned_setMinCount] at howned
    rw [count_owned_node, List.count_cons, List.count_cons]
    rw [List.count_singleton, List.count_singleton] at hs hs'
    refine ⟨?_, ?_⟩
    · dsimp only
      omega
    · dsimp only
      rw [owned_rebalance, count_owned_node]
      omega

/-! ## Insertion -/

/-- **The tree after an insertion** is that of `Tree.update`. -/
theorem update_tree (ar : Arena) (item : CString) (s : Counters) (t : Tree Handle) :
    (ar.update item s t).2 = Tree.update ⟨ar.next, ar.next + 1⟩ item s t := by
  induction t with
  | nil => rfl
  | node a d c i l r ihl ihr =>
    unfold Arena.update Tree.update
    split
    · rfl
    · split
      · rw [← ihl]
      · rw [← ihr]

/-- **The blocks of an insertion**: those of a new node are added, if there is one. -/
theorem update_counts (ar : Arena) (item : CString) (s : Counters) (t : Tree Handle)
    (h : ar.Good) : (ar.update item s t).1.Good ∧ (ar.update item s t).1.stray = ar.stray ∧
      ∃ add : List Block, ∀ b, (ar.update item s t).1.live.count b = ar.live.count b + add.count b ∧
        (ar.update item s t).2.2.owned.count b = t.owned.count b + add.count b := by
  induction t with
  | nil =>
    refine ⟨(h.scmMalloc _).scmMalloc _, rfl, nodeBlocks (⟨ar.next, ar.next + 1⟩, item),
      fun b => ⟨?_, ?_⟩⟩
    · show ((ar.next + 1, _) :: (ar.next, _) :: ar.live).count b = _
      simp only [nodeBlocks, List.count_cons, List.count_nil]
      omega
    · exact (Nat.zero_add _).symm
  | node a d c i l r ihl ihr =>
    unfold Arena.update
    split
    · exact ⟨h, rfl, [], fun b => ⟨rfl, rfl⟩⟩
    · split
      · obtain ⟨hgood, hstray, add, hcounts⟩ := ihl
        refine ⟨hgood, hstray, add, fun b => ⟨(hcounts b).1, ?_⟩⟩
        have hb := (hcounts b).2
        rw [owned, nodes_fixLeft, ← owned, count_owned_node, count_owned_node]
        omega
      · obtain ⟨hgood, hstray, add, hcounts⟩ := ihr
        refine ⟨hgood, hstray, add, fun b => ⟨(hcounts b).1, ?_⟩⟩
        have hb := (hcounts b).2
        rw [owned, nodes_fixRight, ← owned, count_owned_node, count_owned_node]
        omega

end Arena

/-! ## The nodes that are unlinked -/

namespace Tree

/-- The removal of an item that is not in the tree unlinks nothing. -/
lemma unlinked_of_lookup {ι : Type} {t : Tree ι} (hpos : Pos t.traverse) {x : CString}
    (h : t.lookup x = 0) : t.unlinked x false = nil := by
  induction t with
  | nil => rfl
  | node a d c i l r ihl ihr =>
    have hmem : ∀ p ∈ l.traverse ++ (i, c) :: r.traverse, 1 ≤ p.2 := hpos
    rw [lookup] at h
    rw [unlinked]
    rcases lt_trichotomy (CString.strcmp x i) 0 with hx | hx | hx
    · rw [if_pos hx]
      rw [if_neg hx.ne, if_pos hx] at h
      exact ihl (fun p hp => hmem p (List.mem_append_left _ hp)) h
    · have hc : 1 ≤ c := hmem (i, c) (by simp)
      rw [if_pos hx] at h
      omega
    · rw [if_neg hx.asymm, if_pos hx]
      rw [if_neg hx.ne', if_neg (by omega)] at h
      exact ihr (fun p hp => hmem p (by simp [hp])) h

/-- The blocks of a node with one child and those of the child are different blocks of the
tree. -/
lemma OneChild.count_le {u : Tree Handle} (h : u.OneChild) (s : Block) :
    (u.top.flatMap nodeBlocks).count s + (u.released.flatMap nodeBlocks).count s ≤
      u.owned.count s := by
  rcases u with _ | ⟨a, d, c, i, _ | ⟨a₁, d₁, c₁, i₁, l₁, r₁⟩, _ | ⟨a₂, d₂, c₂, i₂, l₂, r₂⟩⟩
  · exact h.elim
  · exact h.elim
  · rw [Arena.count_owned_node, Arena.count_owned_node]
    simp only [top, released, List.flatMap_singleton]
    omega
  · rw [Arena.count_owned_node, Arena.count_owned_node]
    simp only [top, released, List.flatMap_singleton]
    omega
  · exact h.elim

/-- A node with one child has a block. -/
lemma OneChild.exists_mem {u : Tree Handle} (h : u.OneChild) :
    ∃ b, 0 < (u.top.flatMap nodeBlocks).count b := by
  cases u with
  | nil => exact h.elim
  | node a d c i l r =>
    refine ⟨(a.node, 2 + 8 + nodeLayout.size), List.count_pos_iff.mpr ?_⟩
    simp [top, nodeBlocks]

end Tree

/-! ## Runs -/

namespace Store

variable {s s' : Store} {op : AvlOp}

/-- The invariant of the runs in which no node with one child is unlinked. -/
structure Holds (s : Store) : Prop where
  good : s.arena.Good
  live : s.arena.live.Perm s.inUse
  stray : s.arena.stray = []
  valid : s.avl.root.Valid

lemma Holds.exact (h : s.Holds) : s.Exact where
  live := h.live
  stray := h.stray
  utilized := by rw [h.good.utilized, (h.live.map Prod.snd).sum_eq]

lemma holds_avlOpen : avlOpen.Holds where
  good := by
    refine Arena.Good.scmMalloc ?_ stateLayout.size
    exact ⟨List.nodup_nil, fun b hb => absurd hb List.not_mem_nil, rfl⟩
  live := List.Perm.refl _
  stray := rfl
  valid := Tree.valid_nil

/-- How often a block is in use. -/
lemma count_inUse (s : Store) (b : Block) : s.inUse.count b =
    s.avl.root.owned.count b + [(0, 2 + 8 + stateLayout.size)].count b := by
  rw [inUse, ← List.singleton_append, List.count_append, Nat.add_comm]

lemma Holds.owned_le (h : s.Holds) (b : Block) :
    s.avl.root.owned.count b ≤ s.arena.live.count b := by
  rw [h.live.count_eq, count_inUse]
  exact Nat.le_add_right _ _

/-- **An insertion keeps the invariant.** -/
lemma Holds.avlInsert (h : s.Holds) (item : Word) : (s.avlInsert item).Holds := by
  obtain ⟨hgood, hstray, add, hcounts⟩ :=
    s.arena.update_counts item.1 ⟨s.avl.items, s.avl.unique⟩ s.avl.root h.good
  refine ⟨hgood, List.perm_iff_count.mpr fun b => ?_, hstray.trans h.stray, ?_⟩
  · obtain ⟨hlive, howned⟩ := hcounts b
    have hb := h.live.count_eq b
    rw [count_inUse] at hb ⊢
    show (s.arena.update item.1 _ s.avl.root).1.live.count b =
      (s.arena.update item.1 _ s.avl.root).2.2.owned.count b + _
    omega
  · have htree := s.arena.update_tree item.1 ⟨s.avl.items, s.avl.unique⟩ s.avl.root
    show (s.arena.update item.1 _ s.avl.root).2.2.Valid
    rw [htree]
    exact h.valid.update _ _ _

/-- The store after the removal of an item of the tree. -/
lemma avlRemove_of_ne (item : Word) (h : avlExists s.avl item ≠ 0) :
    (s.avlRemove item).arena = (s.arena.removeNode s.avl.root item.1 false).1 ∧
      (s.avlRemove item).avl.root = (s.arena.removeNode s.avl.root item.1 false).2 := by
  rw [avlRemove, if_neg h]
  dsimp only
  split
  · exact ⟨rfl, rfl⟩
  · exact ⟨rfl, rfl⟩

/-- **A removal keeps the invariant** if it does not unlink a node with one child. -/
lemma Holds.avlRemove (h : s.Holds) {item : Word} (hop : s.Spares (.remove item)) :
    (s.avlRemove item).Holds := by
  by_cases hexists : avlExists s.avl item = 0
  · rw [Store.avlRemove, if_pos hexists]
    exact h
  · obtain ⟨harena, hroot⟩ := avlRemove_of_ne item hexists
    obtain ⟨hgood, hstray, add, del, hcounts⟩ := s.arena.removeNode_counts s.avl.root item.1 false
      h.good h.valid.sorted h.owned_le
    refine ⟨by rw [harena]; exact hgood, List.perm_iff_count.mpr fun b => ?_,
      by rw [harena, hstray, h.stray], ?_⟩
    · obtain ⟨hlive, howned⟩ := hcounts b
      have hb := h.live.count_eq b
      rw [count_inUse] at hb
      rw [Tree.released_of_not_oneChild hop] at hlive
      rw [count_inUse, harena, hroot]
      omega
    · rw [hroot, Arena.removeNode_tree (fun a => ⟨a.node, s.arena.next⟩) _ _ _ _ h.valid.sorted
        fun _ => rfl]
      exact h.valid.removeNode _ _

/-- A removal that unlinks a node with one child releases a block in use.

**Proof sketch.** The blocks of the removed node stay live, and those of its child, which are other
blocks, stay in use. -/
lemma Holds.not_exact_avlRemove (h : s.Holds) {item : Word}
    (hop : (s.avl.root.unlinked item.1 false).OneChild) : ¬ (s.avlRemove item).Exact := by
  intro hexact
  have hexists : avlExists s.avl item ≠ 0 := by
    intro hzero
    rw [Tree.unlinked_of_lookup h.valid.pos hzero] at hop
    exact hop
  obtain ⟨harena, hroot⟩ := avlRemove_of_ne item hexists
  obtain ⟨-, -, add, del, hcounts⟩ := s.arena.removeNode_counts s.avl.root item.1 false
    h.good h.valid.sorted h.owned_le
  obtain ⟨b, hb⟩ := hop.exists_mem
  obtain ⟨hlive, howned⟩ := hcounts b
  have hperm := h.live.count_eq b
  have hperm' := hexact.live.count_eq b
  rw [count_inUse] at hperm hperm'
  rw [harena, hroot] at hperm'
  have hle := hop.count_le b
  have hunlinked := Arena.count_owned_unlinked_le s.avl.root item.1 false b
  have hone := h.good.count_le_one b
  omega

/-- What a call does: it keeps the blocks exact if and only if it spares the nodes with one
child, and then keeps the invariant. -/
lemma Holds.staysExact_iff (h : s.Holds) (op : AvlOp) : s.StaysExact op ↔ s.Spares op := by
  cases op with
  | insert item =>
    refine iff_of_true (fun s' hs' => ?_) trivial
    obtain rfl := Option.some.inj hs'
    exact (h.avlInsert item).exact
  | remove item =>
    constructor
    · intro hexact hop
      exact h.not_exact_avlRemove hop (hexact _ rfl)
    · intro hop s' hs'
      obtain rfl := Option.some.inj hs'
      exact (h.avlRemove hop).exact

lemma Holds.step (h : s.Holds) (hop : s.Spares op) (hs' : s.step op = some s') : s'.Holds := by
  cases op with
  | insert item =>
    obtain rfl := Option.some.inj hs'
    exact h.avlInsert item
  | remove item =>
    obtain rfl := Option.some.inj hs'
    exact h.avlRemove hop

/-- **The live blocks after every call of a run are exactly those in use, and only live blocks are
released, if and only if** no removal of the run unlinks a node with exactly one child.

**Proof sketch.** Before the first such removal the blocks are exact (`Holds.step`); it releases
the blocks of the child, which stays in the tree (`Holds.not_exact_avlRemove`). -/
theorem exact_iff_spares (ops : List AvlOp) :
    Always step StaysExact avlOpen ops ↔ Always step Spares avlOpen ops :=
  always_congr_of_invariant (E := fun _ _ => True)
    (fun _ _ _ h _ hop hs' => h.step hop hs') (fun _ op h _ => h.staysExact_iff op)
    holds_avlOpen (always_of_forall_mem _ fun _ _ => trivial)

/-- After `a` and `b` are inserted, the removal of `a` releases the blocks of `b`, which stays in
the tree, and leaves those of `a` live. -/
theorem not_exact_child : ¬ Always step StaysExact avlOpen
    [.insert (Session.letter 97 (by decide)), .insert (Session.letter 98 (by decide)),
      .remove (Session.letter 97 (by decide))] := by
  intro h
  have hexact := ((h.2 _ rfl).2 _ rfl).1 _ rfl
  have hholds := (holds_avlOpen.avlInsert (Session.letter 97 (by decide))).avlInsert
    (Session.letter 98 (by decide))
  exact hholds.not_exact_avlRemove (by decide) hexact

end Store

end Cs238p.P3
