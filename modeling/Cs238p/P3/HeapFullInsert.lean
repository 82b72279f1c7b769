import Cs238p.P3.HeapStore

set_option relaxedAutoImplicit false
set_option autoImplicit false

/-!
# Insertion into a full region

`update` signals a failed allocation by the null pointer, which its caller stores as the child that
was null before. Only where the tree is empty does the null pointer reach `avl_insert`. So the
insertion of a new item into a full region is reported as a success, unless the tree is empty, and a
node that was allocated for it is lost.

## Main definitions

* `Scm.Room` — both allocations for a new node succeed; `Scm.granted` — the blocks of those that do.
* `Undisturbed` — the blocks that a call is granted are free and end inside the mapping.
* `AtomicInsert` — the insertion fails with an error and without a trace, or counts the item.
* `Granted` — the item is there, or its allocations succeed, or the first one fails in an empty
  tree.

## Main results

* `update_full` — the failed insertion into a stored tree.
* `Undisturbed.step` — every call keeps the tree of a multiset.
* `atomic_iff_granted` — every insertion of every run.
-/

namespace Cs238p.P3

open Heap Cs238p.P3.Tree Transition

/-! ## Allocations that fail -/

/-- Both allocations for a new node with the given item succeed. -/
def Scm.Room (scm : Scm) (x : CString) : Prop :=
  scm.Fits nodeLayout.size ∧ scm.cleared.Fits (x.strlen + 1)

instance (scm : Scm) (x : CString) : Decidable (scm.Room x) := inferInstanceAs (Decidable (_ ∧ _))

/-- The blocks that are allocated for a new node, up to the first allocation that fails. -/
def Scm.granted (scm : Scm) (x : CString) : List Span :=
  if scm.Fits nodeLayout.size then
    if scm.cleared.Fits (x.strlen + 1) then [scm.fresh.nodeBlock, scm.fresh.strBlock x]
    else [scm.fresh.nodeBlock]
  else []

variable {scm : Scm} {x : CString} {s : Counters} {avl : Avl Place} {m : Multiset CString}

/-- `update` on the null pointer, if the node is not allocated. -/
lemma newNode_of_not_fits (h : ¬ scm.Fits nodeLayout.size) : newNode scm x = (0, scm) := by
  rw [newNode, scmMalloc_of_not_fits h]

/-- `update` on the null pointer, if the string is not allocated: the node stays allocated. -/
lemma newNode_of_not_fits_string (h : scm.Fits nodeLayout.size)
    (h' : ¬ scm.cleared.Fits (x.strlen + 1)) :
    newNode scm x =
      (0, { scm.cleared with mem := set scm.cleared.mem scm.fresh.ptr .item 0 }) := by
  have hptr : addr + scm.utilized + 2 + 8 = scm.fresh.ptr := rfl
  have hcleared : scmStrdup { scm.grow nodeLayout.size with
      mem := (scm.grow nodeLayout.size).mem.write scm.fresh.ptr
        (List.replicate nodeLayout.size 0) } x = (none, scm.cleared) := scmStrdup_of_not_fits h'
  simp only [newNode, scmMalloc_of_fits h, hptr, hcleared]

/-- A new node that is not allocated completely changes the block of the node at most. -/
lemma newNode_full (h : ¬ scm.Room x) : (newNode scm x).1 = 0 ∧
    (newNode scm x).2.capacity = scm.capacity ∧
    Mem.AgreesOutside (counterSpan :: scm.granted x) scm.mem (newNode scm x).2.mem := by
  by_cases hnode : scm.Fits nodeLayout.size
  · have hstr : ¬ scm.cleared.Fits (x.strlen + 1) := fun hstr => h ⟨hnode, hstr⟩
    rw [newNode_of_not_fits_string hnode hstr, Scm.granted, if_pos hnode, if_neg hstr]
    refine ⟨rfl, rfl, (cleared_agrees_nodeBlock scm).trans ?_⟩
    exact (set_frame scm.cleared.mem scm.fresh .item 0).of_subset (List.subset_cons_self _ _)
  · rw [newNode_of_not_fits hnode, Scm.granted, if_neg hnode]
    exact ⟨rfl, rfl, Mem.AgreesOutside.refl _ _⟩

/-! ## The failed insertion -/

/-- A subtree that stays as it is has not grown. -/
lemma Tree.Balanced.grown_refl {t : Tree Place} (h : t.Balanced) (x : CString) : Grown x t t :=
  ⟨h, .inl rfl⟩

/-- A balanced tree needs no rotation. -/
lemma fixLeft_of_balanced {t : Tree Place} (h : t.Balanced) : Tree.fixLeft x t = t := by
  cases t with
  | nil => rfl
  | node a d c i l r =>
    rw [fixLeft_node, if_neg, setDepth_of_balanced h]
    have hbal := (Balanced.node_iff.mp h).2.1
    omega

lemma fixRight_of_balanced {t : Tree Place} (h : t.Balanced) : Tree.fixRight x t = t := by
  cases t with
  | nil => rfl
  | node a d c i l r =>
    rw [fixRight_node, if_neg, setDepth_of_balanced h]
    have hbal := (Balanced.node_iff.mp h).2.1
    omega

/-- **The failed insertion into a stored tree.** An item that is not in the tree and gets no new
node leaves the tree stored.

**Proof sketch.** Induction on the tree, along the search for the item. The null pointer of the new
node is stored where it was read, and all nodes on the way back are balanced as before. -/
theorem update_full {t : Tree Place} (hspace : virtAddr + scm.capacity ≤ 2 ^ 64)
    (hs : CountersAt scm.mem s) (h : t.Stored scm.capacity scm.mem) (hbal : t.Balanced)
    (hshallow : t.Shallow 4) (hx : x ∉ t.traverse.map Prod.fst) (hfull : ¬ scm.Room x) {fuel : ℕ}
    (hfuel : t.size < fuel) (hpack : Span.Packed addr (virtAddr + scm.capacity)
      (stateBlock :: (scm.granted x ++ t.blocks))) :
    ∃ res, Heap.update fuel scm t.ptr x = some res ∧
      Changes (counterSpan :: stateBlock :: (scm.granted x ++ t.blocks)) scm t res ∧
      CountersAt res.2.mem s ∧ res.2.utilized = (newNode scm x).2.utilized := by
  induction t generalizing fuel with
  | nil =>
    obtain ⟨fuel, rfl⟩ : ∃ k, fuel = k + 1 := ⟨fuel - 1, by omega⟩
    obtain ⟨hnull, hcap, hframe⟩ := newNode_full hfull
    rw [blocks, List.append_nil] at hpack
    refine ⟨newNode scm x, rfl, ⟨hnull, hcap, trivial, hframe.of_subset ?_⟩, ?_, rfl⟩
    · refine List.cons_subset_cons _ (List.Subset.trans ?_ (List.subset_cons_self _ _))
      exact List.subset_append_left _ _
    · apply hs.frame hframe
      refine List.forall_mem_cons.mpr ⟨counterSpan_disjoint le_rfl, fun b hb => ?_⟩
      exact ((Span.packed_cons.mp hpack).1.2.2 b hb).symm
  | node a d c i l r ihl ihr =>
    obtain ⟨fuel, rfl⟩ : ∃ k, fuel = k + 1 := ⟨fuel - 1, by omega⟩
    obtain ⟨-, -, hlbal, hrbal⟩ := Balanced.node_iff.mp hbal
    obtain ⟨hlsh, hrsh⟩ := hshallow.children hbal
    rw [size] at hfuel
    simp only [traverse_node, List.map_append, List.map_cons, List.mem_append, List.mem_cons,
      not_or] at hx
    obtain ⟨hxl, hxi, hxr⟩ := hx
    have hne : CString.strcmp x i ≠ 0 := fun heq => hxi (CString.strcmp_eq_zero_iff.mp heq)
    simp only [Heap.update, ptr_node, if_neg a.ptr_ne_zero, h.1.strAt, if_neg hne]
    by_cases hlt : 0 > CString.strcmp x i
    · obtain ⟨⟨left, scm'⟩, hres, hchanges, hcounters, hused⟩ := ihl h.2.1 hlbal
        (hlsh.mono (by decide)) hxl (by omega : l.size < fuel) (hpack.of_count fun b => by
          simp only [count_blocks_node, List.count_cons, List.count_append]
          omega)
      have hinsert := insert_left hspace h hbal hshallow hpack hchanges hcounters
        (List.sublist_append_right _ _).subperm (hlbal.grown_refl x)
      rw [fixLeft_of_balanced hbal] at hinsert
      dsimp only at hinsert
      rw [if_pos hlt, h.1.left, hres]
      dsimp only
      generalize Heap.fixLeft scm'.capacity (set scm'.mem a.ptr .left left) a.ptr x = fix
        at hinsert ⊢
      exact ⟨_, rfl, hinsert.1, hinsert.2, hused⟩
    · obtain ⟨⟨right, scm'⟩, hres, hchanges, hcounters, hused⟩ := ihr h.2.2 hrbal
        (hrsh.mono (by decide)) hxr (by omega : r.size < fuel) (hpack.of_count fun b => by
          simp only [count_blocks_node, List.count_cons, List.count_append]
          omega)
      have hinsert := insert_right hspace h hbal hshallow hpack hchanges hcounters
        (List.sublist_append_right _ _).subperm (hrbal.grown_refl x)
      rw [fixRight_of_balanced hbal] at hinsert
      dsimp only at hinsert
      rw [if_neg hlt, h.1.right, hres]
      dsimp only
      generalize Heap.fixRight scm'.capacity (set scm'.mem a.ptr .right right) a.ptr x = fix
        at hinsert ⊢
      exact ⟨_, rfl, hinsert.1, hinsert.2, hused⟩

/-- An item that is not in the multiset is not in the tree. -/
lemma Represents.not_mem_traverse (hm : Represents avl m) (hx : x ∉ m) :
    x ∉ avl.root.traverse.map Prod.fst := by
  intro hmem
  obtain ⟨⟨y, c⟩, hp, rfl⟩ := List.mem_map.mp hmem
  obtain ⟨hpos, hcount⟩ := (hm.mem_traverse_iff y c).mp hp
  exact hx (Multiset.count_pos.mp (hcount ▸ hpos))

/-- **`avl_insert`** of a new item into a full region keeps the tree. It fails only if the tree is
empty. -/
theorem owns_insert_full (h : Owns scm avl) (hm : Represents avl m) (hx : x ∉ m)
    (hfull : ¬ scm.Room x) (hpack : Span.Packed addr (virtAddr + scm.capacity)
      (stateBlock :: (scm.granted x ++ avl.root.blocks))) :
    ∃ scm', Heap.avlInsert scm x = some (if avl.root = nil then -1 else 0, scm') ∧
      Owns scm' avl ∧ scm'.utilized = (newNode scm x).2.utilized := by
  by_cases hnil : avl.root = nil
  · obtain ⟨hnull, hcap, hframe⟩ := newNode_full hfull
    have hroot : stateGet scm .root = 0 := by rw [h.root, hnil, ptr_nil]
    have happart : ∀ s ∈ scm.granted x, ∀ b ∈ stateBlock :: avl.root.blocks, s.Disjoint b :=
      hpack.apart fun s => by
        simp only [List.count_cons, List.count_append]
        omega
    refine ⟨(newNode scm x).2, ?_, h.congr hcap fun b hb y hy => ?_, rfl⟩
    · rw [if_pos hnil, Heap.avlInsert, hroot, fuelOf, Heap.update, if_pos rfl]
      simp only [hnull, if_true]
    · refine hframe.eq_of_disjoint (b := b) (List.forall_mem_cons.mpr ⟨?_, fun s hs => ?_⟩) hy
      · exact counterSpan_disjoint (h.packed.start b hb)
      · exact happart s hs b hb
  · have hnot := hm.not_mem_traverse hx
    obtain ⟨⟨root, scm'⟩, hres, hchanges, hcounters, hused⟩ := update_full h.space h.counters
      h.stored hm.valid.balanced (h.shallow hm.valid.balanced) hnot hfull h.size_lt hpack
    have hroot : root = avl.root.ptr := hchanges.ptr
    have hne : root ≠ 0 := by
      rw [hroot]
      exact fun h0 => hnil (ptr_eq_zero_iff.mp h0)
    refine ⟨Heap.setRoot scm' root, ?_, ?_, hused⟩
    · simp only [Heap.avlInsert, h.root, hres, if_neg hne, if_neg hnil]
    · rw [hroot]
      exact owns_setRoot scm' avl h.space hchanges.capacity hcounters hchanges.stored h.packed

/-! ## One insertion -/

/-- An item in the tree needs no blocks. -/
lemma insertBlocks_of_lookup {t : Tree Place} (h : t.lookup x ≠ 0) : t.insertBlocks scm x = [] := by
  induction t with
  | nil => exact absurd rfl h
  | node a d c i l r ihl ihr =>
    rw [Tree.lookup] at h
    rw [insertBlocks]
    split
    · rfl
    · next hne =>
      rw [if_neg hne] at h
      split
      · next hlt => exact ihl (by rwa [if_pos hlt] at h)
      · next hge => exact ihr (by rwa [if_neg hge] at h)

/-- An item that is not in the tree needs a new node. -/
lemma insertBlocks_of_not_mem {t : Tree Place} (h : x ∉ t.traverse.map Prod.fst) :
    t.insertBlocks scm x = [scm.fresh.nodeBlock, scm.fresh.strBlock x] := by
  induction t with
  | nil => rfl
  | node a d c i l r ihl ihr =>
    simp only [traverse_node, List.map_append, List.map_cons, List.mem_append, List.mem_cons,
      not_or] at h
    have hne : CString.strcmp x i ≠ 0 := fun heq => h.2.1 (CString.strcmp_eq_zero_iff.mp heq)
    rw [insertBlocks, if_neg hne]
    split
    · exact ihl h.1
    · exact ihr h.2.2

namespace Session

/-- The blocks that the call is granted are free, and end inside the mapping: the allocator grants
blocks that end up to eight bytes behind it as well. A removal is granted the string that it
duplicates. -/
def Undisturbed (s : Session) : StoreOp → Prop
  | .insert item => Heap.stateGet s.scm .items + 1 < 2 ^ 64 ∧ ∀ t ∈ linkedTree s.scm,
      ∀ b ∈ t.insertBlocks s.scm item.1, b ∈ s.scm.granted item.1 →
        Free s.scm (stateBlock :: t.blocks) b
  | .remove item => s.Placed (.remove item)
  | .reopen => s.Placed .reopen

instance (s : Session) : DecidablePred s.Undisturbed
  | .insert _ => inferInstanceAs (Decidable (_ ∧ _))
  | .remove item => inferInstanceAs (Decidable (s.Placed (.remove item)))
  | .reopen => inferInstanceAs (Decidable (s.Placed .reopen))

/-- The item is new, and an allocation of its insertion fails. -/
def AllocationFails (s : Session) (item : Word) : Prop :=
  Heap.avlExists s.scm item.1 = some 0 ∧ ¬ s.scm.Room item.1

instance (s : Session) : DecidablePred s.AllocationFails :=
  fun _ => inferInstanceAs (Decidable (_ ∧ _))

/-- `avl_insert` returns. If an allocation fails, it returns `-1` and the tree, the counters and the
utilization are as before; and it returns `0` only if the count of the item has grown by one. -/
def AtomicInsert (s : Session) (item : Word) : Prop :=
  ∃ code scm', Heap.avlInsert s.scm item.1 = some (code, scm') ∧
    (s.AllocationFails item → code = -1 ∧ linkedTree scm' = linkedTree s.scm ∧
      Heap.stateGet scm' .items = Heap.stateGet s.scm .items ∧
      Heap.stateGet scm' .unique = Heap.stateGet s.scm .unique ∧
      scm'.utilized = s.scm.utilized) ∧
    (code = 0 → ∃ n, Heap.avlExists s.scm item.1 = some n ∧
      Heap.avlExists scm' item.1 = some (n + 1))

/-- The item is in the tree, or both of its allocations succeed, or the tree is empty and the first
of them fails. -/
def Granted (s : Session) (item : Word) : Prop :=
  Heap.avlExists s.scm item.1 ≠ some 0 ∨ s.scm.Room item.1 ∨
    Heap.stateGet s.scm .root = 0 ∧ ¬ s.scm.Fits nodeLayout.size

instance (s : Session) : DecidablePred s.Granted :=
  fun _ => inferInstanceAs (Decidable (_ ∨ _))

variable {s : Session} {item : Word}

/-- The blocks of an insertion that succeeds. -/
lemma packed_of_undisturbed (h : Owns s.scm avl) (hm : Represents avl m)
    (hop : s.Undisturbed (.insert item)) (hok : item.1 ∈ m ∨ s.scm.Room item.1) :
    Span.Packed addr (virtAddr + s.scm.capacity)
      (stateBlock :: (avl.root.insertBlocks s.scm item.1 ++ avl.root.blocks)) := by
  refine packed_insert h avl.root item.1 fun b hb => ?_
  by_cases hmem : item.1 ∈ m
  · have hlookup : avl.root.lookup item.1 ≠ 0 := by
      rw [hm.lookup]
      exact Multiset.count_ne_zero.mpr hmem
    rw [insertBlocks_of_lookup hlookup] at hb
    exact absurd hb List.not_mem_nil
  · obtain ⟨hnode, hstr⟩ := hok.resolve_left hmem
    refine hop.2 _ h.linkedTree b hb ?_
    rwa [insertBlocks_of_not_mem (hm.not_mem_traverse hmem), ← show s.scm.granted item.1 = _ from
      (if_pos hnode).trans (if_pos hstr)] at hb

/-- The block of an insertion that fails. -/
lemma packed_of_full (h : Owns s.scm avl) (hm : Represents avl m)
    (hop : s.Undisturbed (.insert item)) (hx : item.1 ∉ m) (hfull : ¬ s.scm.Room item.1) :
    Span.Packed addr (virtAddr + s.scm.capacity)
      (stateBlock :: (s.scm.granted item.1 ++ avl.root.blocks)) := by
  by_cases hnode : s.scm.Fits nodeLayout.size
  · have hstr : ¬ s.scm.cleared.Fits (item.1.strlen + 1) := fun hstr => hfull ⟨hnode, hstr⟩
    have hgranted : s.scm.granted item.1 = [s.scm.fresh.nodeBlock] :=
      (if_pos hnode).trans (if_neg hstr)
    have hfree : Free s.scm (stateBlock :: avl.root.blocks) s.scm.fresh.nodeBlock := by
      apply hop.2 _ h.linkedTree
      · rw [insertBlocks_of_not_mem (hm.not_mem_traverse hx)]
        exact List.mem_cons_self
      · rw [hgranted]
        exact List.mem_cons_self
    rw [hgranted]
    refine (packed_of_free h.packed hfree (Nat.le_add_right _ _)).of_count fun b => ?_
    simp only [List.cons_append, List.nil_append, List.count_cons]
    omega
  · rw [show s.scm.granted item.1 = [] from if_neg hnode]
    exact h.packed

/-- The store after a failed insertion. -/
lemma utilized_newNode_full (hnode : s.scm.Fits nodeLayout.size) (hfull : ¬ s.scm.Room item.1) :
    (newNode s.scm item.1).2.utilized ≠ s.scm.utilized := by
  have hstr : ¬ s.scm.cleared.Fits (item.1.strlen + 1) := fun hstr => hfull ⟨hnode, hstr⟩
  have hused : (newNode s.scm item.1).2.utilized = (s.scm.utilized + 50) % 2 ^ 64 := by
    rw [newNode_of_not_fits_string hnode hstr]
    rfl
  rw [hused]
  omega

/-- **One insertion.** -/
theorem atomicInsert_iff (h : Owns s.scm avl) (hm : Represents avl m)
    (hop : s.Undisturbed (.insert item)) : s.AtomicInsert item ↔ s.Granted item := by
  have hexists : Heap.avlExists s.scm item.1 = some (m.count item.1) := by
    rw [h.avlExists, hm.lookup]
  by_cases hok : item.1 ∈ m ∨ s.scm.Room item.1
  · have hitems : avl.items + 1 < 2 ^ 64 := by
      have hlt := hop.1
      rwa [Heap.stateGet, h.counters.items] at hlt
    obtain ⟨scm', hres, -, howns'⟩ := owns_insert h hm item hitems
      (packed_of_undisturbed h hm hop hok)
    have hexists' : Heap.avlExists scm' item.1 = some (m.count item.1 + 1) := by
      rw [howns'.avlExists, (represents_insert hm s.scm.fresh item).lookup,
        Multiset.count_cons_self]
    have hgranted : s.Granted item := by
      rcases hok with hmem | hroom
      · refine .inl ?_
        rw [hexists]
        exact fun h0 => Multiset.count_ne_zero.mpr hmem (Option.some.inj h0)
      · exact .inr (.inl hroom)
    refine iff_of_true ⟨0, scm', hres, fun hfails => ?_, fun _ => ⟨_, hexists, hexists'⟩⟩ hgranted
    obtain ⟨hzero, hfull⟩ := hfails
    rw [hexists] at hzero
    rcases hok with hmem | hroom
    · exact absurd (Option.some.inj hzero) (Multiset.count_ne_zero.mpr hmem)
    · exact absurd hroom hfull
  · obtain ⟨hx, hfull⟩ := not_or.mp hok
    have hzero : m.count item.1 = 0 := Multiset.count_eq_zero.mpr hx
    rw [hzero] at hexists
    have hfails : s.AllocationFails item := ⟨hexists, hfull⟩
    obtain ⟨scm', hres, howns', hused⟩ := owns_insert_full h hm hx hfull
      (packed_of_full h hm hop hx hfull)
    have hroot : Heap.stateGet s.scm .root = 0 ↔ avl.root = nil := by
      rw [h.root, ptr_eq_zero_iff]
    have hgranted : s.Granted item ↔ avl.root = nil ∧ ¬ s.scm.Fits nodeLayout.size := by
      rw [Granted, hroot]
      simp [hexists, hfull]
    rw [hgranted]
    constructor
    · rintro ⟨code, scm₁, hres₁, hatomic, -⟩
      rw [hres] at hres₁
      obtain ⟨rfl, rfl⟩ := Prod.mk.inj (Option.some.inj hres₁)
      obtain ⟨hcode, -, -, -, hsame⟩ := hatomic hfails
      refine ⟨?_, fun hnode => ?_⟩
      · by_contra hnil
        rw [if_neg hnil] at hcode
        exact absurd hcode (by decide)
      · exact utilized_newNode_full hnode hfull (hused.symm.trans hsame)
    · rintro ⟨hnil, hnode⟩
      refine ⟨-1, scm', by rw [hres, if_pos hnil], fun _ => ⟨rfl, ?_, ?_, ?_, ?_⟩, fun h0 => ?_⟩
      · rw [howns'.linkedTree, h.linkedTree]
      · exact howns'.counters.items.trans h.counters.items.symm
      · exact howns'.counters.unique.trans h.counters.unique.symm
      · rw [hused, newNode_of_not_fits hnode]
      · exact absurd h0 (by decide)

/-! ## Every run -/

/-- The region holds the tree of a multiset. -/
def Owned (s : Session) : Prop := ∃ avl m, Owns s.scm avl ∧ Represents avl m

/-- **Every call keeps the tree of a multiset**, an insertion whose allocations fail among them. -/
theorem Owned.step (h : s.Owned) {op : StoreOp} (hop : s.Undisturbed op) :
    ∃ s', s.step op = some s' ∧ s'.Owned := by
  obtain ⟨avl, m, howns, hm⟩ := h
  cases op with
  | insert item =>
    by_cases hok : item.1 ∈ m ∨ s.scm.Room item.1
    · have hitems : avl.items + 1 < 2 ^ 64 := by
        have hlt := hop.1
        rwa [Heap.stateGet, howns.counters.items] at hlt
      obtain ⟨scm', hres, -, howns'⟩ := owns_insert howns hm item hitems
        (packed_of_undisturbed howns hm hop hok)
      exact ⟨⟨scm', (.insert item, 0) :: s.log⟩, by rw [Session.step, hres]; rfl,
        _, _, howns', represents_insert hm s.scm.fresh item⟩
    · obtain ⟨hx, hfull⟩ := not_or.mp hok
      obtain ⟨scm', hres, howns', -⟩ := owns_insert_full howns hm hx hfull
        (packed_of_full howns hm hop hx hfull)
      exact ⟨⟨scm', (.insert item, _) :: s.log⟩, by rw [Session.step, hres]; rfl,
        _, _, howns', hm⟩
  | remove item =>
    obtain ⟨scm', hres, -, howns'⟩ := owns_remove howns hm item
      (packed_remove howns item.1 (hop _ howns.linkedTree))
    exact ⟨⟨scm', (.remove item, _) :: s.log⟩, by rw [Session.step, hres]; rfl,
      _, _, howns', (represents_exec hm (.remove item s.scm.redup)).2⟩
  | reopen =>
    obtain ⟨scm', avl', hres, howns', hm'⟩ := howns.reopen hm hop
    exact ⟨⟨scm', (.reopen, 0) :: s.log⟩, by rw [Session.step, hres]; rfl, _, _, howns', hm'⟩

/-- The store that `avl_open` creates. -/
lemma start_owned (file : Mem) {capacity : ℕ} (hfits : 8 + stateBlock.len ≤ capacity)
    (hspace : virtAddr + capacity ≤ 2 ^ 64) : ∃ s, start file capacity = some s ∧ s.Owned := by
  obtain ⟨s, hs, avl, m, howns, hm, -⟩ := start_holds file hfits hspace
  exact ⟨s, hs, avl, m, howns, hm⟩

/-- **When an insertion is atomic.** In every run of calls whose granted blocks are free and end
inside the mapping, also after insertions that failed, an insertion reports a failed allocation and
leaves no trace of it if and only if the item is in the tree already, or both of its allocations
succeed, or the tree is empty and the allocation of the node fails.

**Proof sketch.** A failed allocation below another node is forgotten: the null pointer is stored as
the child that was null, and the insertion returns the root. At an empty root it is reported, but if
the node was allocated before its string, its block stays allocated. -/
theorem atomic_iff_granted (file : Mem) (capacity : ℕ) (hfits : 8 + stateBlock.len ≤ capacity)
    (hspace : virtAddr + capacity ≤ 2 ^ 64) :
    ∃ s, start file capacity = some s ∧ ∀ ops, Always Session.step Undisturbed s ops →
      Always Session.step
        (fun s op => ∀ item, op = .insert item → (s.AtomicInsert item ↔ s.Granted item)) s ops := by
  obtain ⟨s, hs, howned⟩ := start_owned file hfits hspace
  refine ⟨s, hs, fun ops hops => ?_⟩
  refine hops.imp_of_invariant (I := Owned) ?_ ?_ howned
  · intro s op s' h hop hstep
    obtain ⟨s₁, hstep₁, h₁⟩ := h.step hop
    obtain rfl := Option.some.inj (hstep₁.symm.trans hstep)
    exact h₁
  · rintro s op ⟨avl, m, howns, hm⟩ hop item rfl
    exact atomicInsert_iff howns hm hop

/-- Two insertions into a region of 110 bytes, the second of which does not fit. -/
theorem atomic_iff_granted_two :
    ∃ s, start (fun _ => 0) 110 = some s ∧
      (∃ s' ∈ s.step (.insert (letter 97 (by decide))),
        s'.AllocationFails (letter 98 (by decide))) ∧
      Always Session.step
        (fun s op => ∀ item, op = .insert item → (s.AtomicInsert item ↔ s.Granted item)) s
        [.insert (letter 97 (by decide)), .insert (letter 98 (by decide))] := by
  obtain ⟨s, hs, hatomic⟩ := atomic_iff_granted (fun _ => 0) 110 (by decide) (by decide +kernel)
  have hstart : ∀ s ∈ start (fun _ => 0) 110,
      (∃ s' ∈ s.step (.insert (letter 97 (by decide))),
        s'.AllocationFails (letter 98 (by decide))) ∧
      Always Session.step Undisturbed s
        [.insert (letter 97 (by decide)), .insert (letter 98 (by decide))] := by
    decide +kernel
  obtain ⟨hfails, hops⟩ := hstart s hs
  exact ⟨s, hs, hfails, hatomic _ hops⟩

/-- In a region of 110 bytes, which has room for one item, the insertion of a second one returns
`0`, and nothing is inserted. -/
theorem full_insert_returns_zero :
    ¬ ∀ (capacity : ℕ) (s s' : Session) (ops : List StoreOp) (item : Word),
      start (fun _ => 0) capacity = some s → Always Session.step Undisturbed s ops →
      run Session.step s ops = some s' → s'.AtomicInsert item := by
  intro h
  have hrun : ((start (fun _ => 0) 110).bind fun s =>
      run Session.step s [.insert (letter 97 (by decide))]).map (fun s =>
        ((Heap.avlInsert s.scm (letter 98 (by decide)).1).map Prod.fst,
          Heap.avlExists s.scm (letter 98 (by decide)).1,
          decide (s.scm.Room (letter 98 (by decide)).1))) =
      some (some 0, some 0, false) := by decide +kernel
  obtain ⟨s', hs', heq⟩ := Option.map_eq_some_iff.mp hrun
  obtain ⟨s, hs, hsteps⟩ := Option.bind_eq_some_iff.mp hs'
  simp only [Prod.mk.injEq, decide_eq_false_iff_not] at heq
  obtain ⟨hres, hexists, hfull⟩ := heq
  have hstart : ∀ s ∈ start (fun _ => 0) 110, Always Session.step Undisturbed s
      [.insert (letter 97 (by decide))] := by decide +kernel
  obtain ⟨code, scm', hcode, hatomic, -⟩ :=
    h 110 s s' _ (letter 98 (by decide)) hs (hstart s hs) hsteps
  rw [hcode] at hres
  obtain rfl : code = 0 := Option.some.inj hres
  exact absurd (hatomic ⟨hexists, hfull⟩).1 (by decide)

end Session

end Cs238p.P3
