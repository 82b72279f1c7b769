import Cs238p.P3.HeapFullInsert
import Cs238p.P3.ScmSessions

set_option relaxedAutoImplicit false
set_option autoImplicit false

/-!
# What the calls on a stored tree take from the allocator

An insertion takes the blocks of a new node, or the first of them, and the removal of one of several
occurrences takes nothing. The number of utilized bytes grows by them, in the handle and in the
first word of the mapping, which no rotation touches.

## Main definitions

* `Takes` — a call took blocks from the allocator.
* `Tree.grants` — the blocks that the insertion of an item is granted.
* `Ready` — a tree in the region that is ready for the insertion of an item.
* `Repeated` — a tree in the region with several occurrences of an item.

## Main results

* `Ready.takes`, `Repeated.takes` — what `update` and `remove_node` take.
-/

namespace Cs238p.P3

open Heap SortedCounts Cs238p.P3.Tree

variable {scm scm' : Scm} {x : CString} {s : Counters} {n c : ℕ} {a : Place} {d : ℤ} {i : CString}
  {t l l' r r' : Tree Place} {new W : List Span} {res : ℕ × Scm}

/-! ## The first word of the mapping -/

/-- A call took blocks from the allocator: the utilized bytes have grown by them, and if the first
word agreed with the handle, then it still does. -/
structure Takes (scm : Scm) (new : List Span) (scm' : Scm) : Prop where
  utilized : scm'.utilized = scm.utilized + (new.map Span.len).sum
  synced : scm.Synced → scm'.Synced

lemma Takes.refl (scm : Scm) : Takes scm [] scm := ⟨rfl, id⟩

/-- A change behind the first word. -/
lemma Scm.Synced.frame {m : Mem} (h : scm.Synced) (hm : Mem.AgreesOutside W scm.mem m)
    (hW : ∀ b ∈ W, addr ≤ b.start) : ({ scm with mem := m } : Scm).Synced := by
  rw [Scm.Synced, ← show scm.mem.word virtAddr 8 = scm.utilized from h]
  exact Mem.word_congr fun x hx =>
    hm.eq_of_disjoint (b := counterSpan) (fun b hb => (counterSpan_disjoint (hW b hb)).symm) hx

lemma Takes.store {m : Mem} (h : Takes scm new scm') (hm : Mem.AgreesOutside W scm'.mem m)
    (hW : ∀ b ∈ W, addr ≤ b.start) : Takes scm new { scm' with mem := m } :=
  ⟨h.utilized, fun hs => (h.synced hs).frame hm hW⟩

/-- A field of a node is stored. -/
lemma Takes.storeNode (h : Takes scm new scm') (ha : addr ≤ a.node) (f : NodeField) (v : ℕ) :
    Takes scm new { scm' with mem := Heap.set scm'.mem a.ptr f v } :=
  h.store (set_frame scm'.mem a f v) (List.forall_mem_singleton.mpr ha)

/-- A field of the state is stored. -/
lemma Takes.storeState (h : Takes scm new scm') (f : StateField) (v : ℕ) :
    Takes scm new { scm' with mem := stateLayout.set scm'.mem scmMbase f v } :=
  h.store (set_state_agrees scm'.mem f v) (List.forall_mem_singleton.mpr le_rfl)

/-- A block that is allocated is taken. -/
lemma grow_takes {k : ℕ} (hstop : (scm.place k).stop ≤ 2 ^ 64) :
    Takes scm [scm.place k] (scm.grow k) := by
  rw [Scm.place, Span.stop, addr, virtAddr] at hstop
  simp only at hstop
  refine ⟨?_, fun _ => Scm.word_setWord_counter _ _⟩
  show sizeT (scm.utilized + sizeT (2 + 8 + k)) = scm.utilized + (2 + 8 + k + 0)
  rw [sizeT, sizeT]
  omega

/-- Bytes are written behind the header of a block. -/
lemma Takes.write (h : Takes scm new scm') (k : ℕ) (bs : List UInt8) :
    Takes scm new { scm' with mem := scm'.mem.write (addr + k) bs } :=
  h.store (Mem.agreesOutside_write _ _ bs) (List.forall_mem_singleton.mpr (Nat.le_add_right _ _))

/-- The block of a new node is taken. -/
lemma cleared_takes (hstop : scm.fresh.nodeBlock.stop ≤ 2 ^ 64) :
    Takes scm [scm.fresh.nodeBlock] scm.cleared :=
  (grow_takes (k := nodeLayout.size) hstop).write (scm.utilized + 2 + 8) _

/-- The block of a duplicated string is taken. -/
lemma growString_takes (scm : Scm) (x : CString)
    (hstop : (scm.place (x.strlen + 1)).stop ≤ 2 ^ 64) :
    Takes scm [scm.place (x.strlen + 1)] (scm.growString x) :=
  (grow_takes hstop).write (scm.utilized + 2 + 8) _

/-- **The new node** of `update` takes the blocks that it is granted. -/
lemma newNode_takes (hspace : virtAddr + scm.capacity ≤ 2 ^ 64)
    (hpack : Span.Packed addr (virtAddr + scm.capacity) (scm.granted x)) :
    Takes scm (scm.granted x) (newNode scm x).2 := by
  have hstart : addr ≤ scm.fresh.node := Nat.le_add_right _ _
  by_cases hnode : scm.Fits nodeLayout.size
  · by_cases hstr : scm.cleared.Fits (x.strlen + 1)
    · rw [Scm.granted, if_pos hnode, if_pos hstr] at hpack ⊢
      have hstop₁ := hpack.stop scm.fresh.nodeBlock (by simp)
      have hstop₂ := hpack.stop (scm.fresh.strBlock x) (by simp)
      have hdisj := (List.pairwise_cons.mp hpack.disjoint).1 (scm.fresh.strBlock x) (by simp)
      have htake₁ := cleared_takes (hstop₁.trans hspace)
      have htake₂ := growString_takes scm.cleared x (hstop₂.trans hspace)
      have hboth : Takes scm [scm.fresh.nodeBlock, scm.fresh.strBlock x]
          (scm.cleared.growString x) := by
        refine ⟨?_, fun hs => htake₂.synced (htake₁.synced hs)⟩
        rw [htake₂.utilized, htake₁.utilized]
        exact Nat.add_assoc _ _ _
      rw [newNode_of_fits hnode hstr hdisj]
      exact (((hboth.storeNode hstart .item _).storeNode hstart .count 1).storeState .items
        _).storeState .unique _
    · rw [Scm.granted, if_pos hnode, if_neg hstr] at hpack ⊢
      have hstop := hpack.stop scm.fresh.nodeBlock (by simp)
      rw [newNode_of_not_fits_string hnode hstr]
      exact (cleared_takes (hstop.trans hspace)).storeNode hstart .item 0
  · rw [Scm.granted, if_neg hnode, newNode_of_not_fits hnode]
    exact .refl scm

/-! ## Insertion -/

/-- The blocks that the insertion of an item is granted. -/
def Tree.grants (scm : Scm) (x : CString) (t : Tree Place) : List Span :=
  if x ∈ t.traverse.map Prod.fst then [] else scm.granted x

/-- A tree in the region that is ready for the insertion of an item. -/
structure Ready (scm : Scm) (s : Counters) (x : CString) (t : Tree Place) : Prop where
  space : virtAddr + scm.capacity ≤ 2 ^ 64
  counters : CountersAt scm.mem s
  items : s.items + 1 < 2 ^ 64
  unique : s.unique + 1 < 2 ^ 64
  stored : t.Stored scm.capacity scm.mem
  count : t.lookup x + 1 < 2 ^ 64
  sorted : Sorted t.traverse
  balanced : t.Balanced
  shallow : t.Shallow 4
  packed : Span.Packed addr (virtAddr + scm.capacity) (stateBlock :: (t.grants scm x ++ t.blocks))

/-- A smaller item is searched on the left. -/
lemma grants_left (h : Sorted (node a d c i l r).traverse) (hlt : x < i) :
    (node a d c i l r).grants scm x = l.grants scm x := by
  obtain ⟨-, -, -, hr⟩ := sorted_append_cons.mp h
  have hnot : x ∉ r.traverse.map Prod.fst := by
    intro hmem
    obtain ⟨p, hp, rfl⟩ := List.mem_map.mp hmem
    exact hlt.asymm (hr p hp)
  simp only [grants, traverse_node, List.map_append, List.map_cons, List.mem_append, List.mem_cons,
    hlt.ne, hnot, or_false]

/-- A larger item is searched on the right. -/
lemma grants_right (h : Sorted (node a d c i l r).traverse) (hgt : i < x) :
    (node a d c i l r).grants scm x = r.grants scm x := by
  obtain ⟨-, -, hl, -⟩ := sorted_append_cons.mp h
  have hnot : x ∉ l.traverse.map Prod.fst := by
    intro hmem
    obtain ⟨p, hp, rfl⟩ := List.mem_map.mp hmem
    exact hgt.asymm (hl p hp)
  simp only [grants, traverse_node, List.map_append, List.map_cons, List.mem_append, List.mem_cons,
    hgt.ne', hnot, false_or]

lemma Ready.left (h : Ready scm s x (node a d c i l r)) (hlt : x < i) : Ready scm s x l := by
  obtain ⟨-, -, hbal, -⟩ := Balanced.node_iff.mp h.balanced
  have hcount := h.count
  have hpack := h.packed
  rw [Tree.lookup, if_neg (mt CString.strcmp_eq_zero_iff.mp hlt.ne),
    if_pos (CString.strcmp_neg_iff.mpr hlt)] at hcount
  rw [grants_left h.sorted hlt] at hpack
  refine ⟨h.space, h.counters, h.items, h.unique, h.stored.2.1, hcount,
    (sorted_append_cons.mp h.sorted).1, hbal, (h.shallow.children h.balanced).1.mono (by decide),
    hpack.of_count fun b => ?_⟩
  simp only [count_blocks_node, List.count_cons, List.count_append]
  omega

lemma Ready.right (h : Ready scm s x (node a d c i l r)) (hgt : i < x) : Ready scm s x r := by
  obtain ⟨-, -, -, hbal⟩ := Balanced.node_iff.mp h.balanced
  have hcount := h.count
  have hpack := h.packed
  rw [Tree.lookup, if_neg (mt CString.strcmp_eq_zero_iff.mp hgt.ne'),
    if_neg (mt CString.strcmp_neg_iff.mp hgt.asymm)] at hcount
  rw [grants_right h.sorted hgt] at hpack
  refine ⟨h.space, h.counters, h.items, h.unique, h.stored.2.2, hcount,
    (sorted_append_cons.mp h.sorted).2.1, hbal, (h.shallow.children h.balanced).2.mono (by decide),
    hpack.of_count fun b => ?_⟩
  simp only [count_blocks_node, List.count_cons, List.count_append]
  omega

/-- An item of a sorted tree is found, and needs no blocks. -/
lemma insertBlocks_of_mem (h : Sorted t.traverse) (hx : x ∈ t.traverse.map Prod.fst) :
    t.insertBlocks scm x = [] := by
  induction t with
  | nil => exact absurd hx List.not_mem_nil
  | node a d c i l r ihl ihr =>
    obtain ⟨hl, hr, hli, hri⟩ := sorted_append_cons.mp h
    simp only [traverse_node, List.map_append, List.map_cons, List.mem_append, List.mem_cons] at hx
    rw [insertBlocks]
    simp only [CString.strcmp_eq_zero_iff, gt_iff_lt, CString.strcmp_neg_iff]
    rcases hx with hx | rfl | hx
    · obtain ⟨p, hp, rfl⟩ := List.mem_map.mp hx
      have hlt := hli p hp
      rw [if_neg hlt.ne, if_pos hlt, ihl hl hx]
    · rw [if_pos rfl]
    · obtain ⟨p, hp, rfl⟩ := List.mem_map.mp hx
      have hgt := hri p hp
      rw [if_neg hgt.ne', if_neg hgt.asymm, ihr hr hx]

/-- An insertion that succeeds is granted all of its blocks. -/
lemma insertBlocks_eq_grants (scm : Scm) (h : Sorted t.traverse)
    (hok : x ∈ t.traverse.map Prod.fst ∨ scm.Room x) : t.insertBlocks scm x = t.grants scm x := by
  rw [grants]
  split
  · next hmem => exact insertBlocks_of_mem h hmem
  · next hmem =>
    obtain ⟨hnode, hstr⟩ := hok.resolve_left hmem
    rw [insertBlocks_of_not_mem hmem, Scm.granted, if_pos hnode, if_pos hstr]

/-- **An insertion** changes the stored tree, also if an allocation fails. -/
lemma Ready.outcome (h : Ready scm s x t) {fuel : ℕ} (hfuel : t.size < fuel) :
    ∃ res t', Heap.update fuel scm t.ptr x = some res ∧
      Changes (counterSpan :: stateBlock :: (t.grants scm x ++ t.blocks)) scm t' res ∧
      t'.blocks.Subperm (t.grants scm x ++ t.blocks) ∧ Grown x t t' := by
  by_cases hfull : x ∉ t.traverse.map Prod.fst ∧ ¬ scm.Room x
  · have hpack := h.packed
    rw [grants, if_neg hfull.1] at hpack ⊢
    obtain ⟨res, hres, hchanges, -⟩ := update_full h.space h.counters h.stored h.balanced h.shallow
      hfull.1 hfull.2 hfuel hpack
    exact ⟨res, t, hres, hchanges, (List.sublist_append_right _ _).subperm,
      h.balanced.grown_refl x⟩
  · have hblocks := insertBlocks_eq_grants (x := x) scm h.sorted (by
      rwa [not_and, not_not, ← or_iff_not_imp_left] at hfull)
    have hpack := h.packed
    rw [← hblocks] at hpack ⊢
    obtain ⟨res, hres, hchanges, -⟩ := update_stored h.space h.counters h.items h.unique h.stored
      h.count h.balanced h.shallow hfuel hpack
    exact ⟨res, _, hres, hchanges, (blocks_update scm x s t).subperm,
      balanced_update scm.fresh x s h.balanced⟩

section Path

variable (h : Ready scm s x (node a d c i l r))

include h

/-- The node keeps its place. -/
lemma Ready.start : addr ≤ a.node :=
  h.packed.start a.nodeBlock (by simp [blocks_node])

/-- The rotations behind the call for the left child take nothing. -/
lemma Ready.fixLeft_takes (hlt : x < i)
    (hres : Changes (counterSpan :: stateBlock :: (l.grants scm x ++ l.blocks)) scm l' res)
    (hblocks : l'.blocks.Subperm (l.grants scm x ++ l.blocks)) (hgrown : Grown x l l')
    (htakes : Takes scm new res.2) :
    Takes scm new { res.2 with
      mem := (Heap.fixLeft res.2.capacity (set res.2.mem a.ptr .left res.1) a.ptr x).2 } := by
  have hpack := h.packed
  rw [grants_left h.sorted hlt] at hpack
  obtain ⟨hl, hr⟩ := h.shallow.children h.balanced
  have hl' : l'.Shallow 3 := by
    have hdelta := hgrown.2
    have hneg := hgrown.1.neg_one_le_delta
    have hlt := hl.2
    exact ⟨hneg, by omega⟩
  have hpack₀ : Span.Packed addr (virtAddr + scm.capacity)
      ((stateBlock :: l.grants scm x) ++ (node a d c i l r).blocks) := hpack
  obtain ⟨hsub, hrelinked⟩ := relinked_left h.space h.stored hpack₀ hres
    (hblocks.trans (List.sublist_cons_self stateBlock _).subperm)
  have hpack' := hpack.subperm hsub
  have hfix := fixLeft_performs h.space hrelinked.stored hpack' h.balanced hgrown hl'
    (hr.mono (by decide))
  rw [hres.capacity]
  exact (htakes.storeNode h.start .left res.1).store hfix.frame hpack'.start

/-- The rotations behind the call for the right child take nothing. -/
lemma Ready.fixRight_takes (hgt : i < x)
    (hres : Changes (counterSpan :: stateBlock :: (r.grants scm x ++ r.blocks)) scm r' res)
    (hblocks : r'.blocks.Subperm (r.grants scm x ++ r.blocks)) (hgrown : Grown x r r')
    (htakes : Takes scm new res.2) :
    Takes scm new { res.2 with
      mem := (Heap.fixRight res.2.capacity (set res.2.mem a.ptr .right res.1) a.ptr x).2 } := by
  have hpack := h.packed
  rw [grants_right h.sorted hgt] at hpack
  obtain ⟨hl, hr⟩ := h.shallow.children h.balanced
  have hr' : r'.Shallow 3 := by
    have hdelta := hgrown.2
    have hneg := hgrown.1.neg_one_le_delta
    have hlt := hr.2
    exact ⟨hneg, by omega⟩
  have hpack₀ : Span.Packed addr (virtAddr + scm.capacity)
      ((stateBlock :: r.grants scm x) ++ (node a d c i l r).blocks) := hpack
  obtain ⟨hsub, hrelinked⟩ := relinked_right h.space h.stored hpack₀ hres
    (hblocks.trans (List.sublist_cons_self stateBlock _).subperm)
  have hpack' := hpack.subperm hsub
  have hfix := fixRight_performs h.space hrelinked.stored hpack' h.balanced hgrown
    (hl.mono (by decide)) hr'
  rw [hres.capacity]
  exact (htakes.storeNode h.start .right res.1).store hfix.frame hpack'.start

end Path

/-- **An insertion takes the blocks that it is granted**, and nothing else.

**Proof sketch.** Induction on the tree, along the search for the item. The new node is where the
search ends at a null pointer; on the way back only nodes of the tree are changed. -/
theorem Ready.takes (h : Ready scm s x t) {fuel : ℕ} (hfuel : t.size < fuel)
    (hres : Heap.update fuel scm t.ptr x = some res) : Takes scm (t.grants scm x) res.2 := by
  induction t generalizing fuel res with
  | nil =>
    obtain ⟨fuel, rfl⟩ : ∃ k, fuel = k + 1 := ⟨fuel - 1, by omega⟩
    obtain rfl := Option.some.inj hres
    have hpack := h.packed
    rw [grants, if_neg (by simp [Tree.traverse]), blocks, List.append_nil] at hpack
    exact newNode_takes h.space (Span.packed_cons.mp hpack).2
  | node a d c i l r ihl ihr =>
    obtain ⟨fuel, rfl⟩ : ∃ k, fuel = k + 1 := ⟨fuel - 1, by omega⟩
    rw [size] at hfuel
    simp only [Heap.update, ptr_node, if_neg a.ptr_ne_zero, h.stored.1.strAt,
      CString.strcmp_eq_zero_iff, gt_iff_lt, CString.strcmp_neg_iff] at hres
    rcases lt_trichotomy x i with hlt | rfl | hgt
    · rw [if_neg hlt.ne, if_pos hlt, h.stored.1.left] at hres
      have hleft := h.left hlt
      obtain ⟨⟨left, scm'⟩, l', hcall, hchanges, hblocks, hgrown⟩ :=
        hleft.outcome (by omega : l.size < fuel)
      rw [hcall] at hres
      obtain rfl := Option.some.inj hres
      rw [grants_left h.sorted hlt]
      exact h.fixLeft_takes hlt hchanges hblocks hgrown (ihl hleft (by omega) hcall)
    · rw [if_pos rfl] at hres
      obtain rfl := Option.some.inj hres
      rw [grants, if_pos (by simp [traverse_node])]
      exact (((Takes.refl scm).storeNode h.start .count _).storeState .items _).storeNode h.start
        .depth _
    · rw [if_neg hgt.ne', if_neg hgt.asymm, h.stored.1.right] at hres
      have hright := h.right hgt
      obtain ⟨⟨right, scm'⟩, r', hcall, hchanges, hblocks, hgrown⟩ :=
        hright.outcome (by omega : r.size < fuel)
      rw [hcall] at hres
      obtain rfl := Option.some.inj hres
      rw [grants_right h.sorted hgt]
      exact h.fixRight_takes hgt hchanges hblocks hgrown (ihr hright (by omega) hcall)

/-! ## Removal -/

/-- A tree in the region with several occurrences of an item. -/
structure Repeated (scm : Scm) (x : CString) (t : Tree Place) : Prop where
  space : virtAddr + scm.capacity ≤ 2 ^ 64
  stored : t.Stored scm.capacity scm.mem
  count : 1 < t.lookup x
  sorted : Sorted t.traverse
  balanced : t.Balanced
  shallow : t.Shallow 3
  packed : Span.Packed addr (virtAddr + scm.capacity) t.blocks

lemma Repeated.left (h : Repeated scm x (node a d c i l r)) (hlt : x < i) : Repeated scm x l := by
  obtain ⟨-, -, hbal, -⟩ := Balanced.node_iff.mp h.balanced
  have hcount := h.count
  rw [Tree.lookup, if_neg (mt CString.strcmp_eq_zero_iff.mp hlt.ne),
    if_pos (CString.strcmp_neg_iff.mpr hlt)] at hcount
  refine ⟨h.space, h.stored.2.1, hcount, (sorted_append_cons.mp h.sorted).1, hbal,
    (h.shallow.children h.balanced).1.mono (by decide), h.packed.of_count fun b => ?_⟩
  simp only [count_blocks_node]
  omega

lemma Repeated.right (h : Repeated scm x (node a d c i l r)) (hgt : i < x) : Repeated scm x r := by
  obtain ⟨-, -, -, hbal⟩ := Balanced.node_iff.mp h.balanced
  have hcount := h.count
  rw [Tree.lookup, if_neg (mt CString.strcmp_eq_zero_iff.mp hgt.ne'),
    if_neg (mt CString.strcmp_neg_iff.mp hgt.asymm)] at hcount
  refine ⟨h.space, h.stored.2.2, hcount, (sorted_append_cons.mp h.sorted).2.1, hbal,
    (h.shallow.children h.balanced).2.mono (by decide), h.packed.of_count fun b => ?_⟩
  simp only [count_blocks_node]
  omega

/-- The removal of one of several occurrences duplicates no string. -/
lemma duplicated_of_lookup (h : 1 < t.lookup x) : t.duplicated x false = none := by
  induction t with
  | nil => exact absurd h (by simp [Tree.lookup])
  | node a d c i l r ihl ihr =>
    rw [Tree.lookup] at h
    rw [Tree.duplicated]
    simp only [CString.strcmp_eq_zero_iff, gt_iff_lt, CString.strcmp_neg_iff,
      CString.strcmp_pos_iff] at h ⊢
    rcases lt_trichotomy x i with hlt | rfl | hgt
    · rw [if_neg hlt.ne, if_pos hlt] at h
      rw [if_pos hlt, ihl h]
    · rw [if_pos rfl] at h
      simp [h]
    · rw [if_neg hgt.ne', if_neg hgt.asymm] at h
      rw [if_neg hgt.asymm, if_pos hgt, ihr h]

lemma removeBlocks_of_lookup (scm : Scm) (h : 1 < t.lookup x) :
    t.removeBlocks scm x false = [] := by
  rw [removeBlocks, duplicated_of_lookup h]
  rfl

/-- The removal of one of several occurrences changes the stored tree. -/
lemma Repeated.outcome (h : Repeated scm x t) {fuel : ℕ} (hfuel : t.size < fuel) :
    ∃ res t', Heap.removeNode fuel scm t.ptr x false = some res ∧
      Changes (counterSpan :: t.blocks) scm t' res ∧ t'.blocks.Subperm t.blocks ∧
      Shrunk t t' := by
  have hnone := removeBlocks_of_lookup scm h.count
  obtain ⟨res, hres, hchanges⟩ := removeNode_stored scm.redup t x false h.space h.stored h.sorted
    h.balanced h.shallow hfuel (fun _ => rfl) (by
      rw [hnone]
      exact h.packed)
  have hblocks := blocks_removeNode scm scm.redup t x false h.sorted fun _ => rfl
  rw [hnone] at hchanges hblocks
  exact ⟨res, _, hres, hchanges, hblocks, balanced_removeNode scm.redup x false t h.balanced⟩

section Path

variable (h : Repeated scm x (node a d c i l r))

include h

/-- The node keeps its place. -/
lemma Repeated.start : addr ≤ a.node :=
  h.packed.start a.nodeBlock (by simp [blocks_node])

/-- The end of `remove_node` takes nothing, whatever a call for a child made of the node. -/
lemma Repeated.finish_takes {c' : ℕ} (hcap : scm'.capacity = scm.capacity)
    (hstored : (node a d c' i l' r').Stored scm.capacity scm'.mem)
    (hsub : (node a d c' i l' r').blocks.Subperm (node a d c i l r).blocks) (hl : Shrunk l l')
    (hr : Shrunk r r') (htakes : Takes scm new scm') : Takes scm new (finish scm' a.ptr).2 := by
  obtain ⟨hlsh, hrsh⟩ := h.shallow.children h.balanced
  have hspace := h.space
  have hpack := h.packed.subperm hsub
  rw [← hcap] at hspace hpack hstored
  exact htakes.store (rebalance_performs hspace hstored hpack hl.1 hr.1
    ((hlsh.mono (by decide)).shrunk hl) ((hrsh.mono (by decide)).shrunk hr)).frame hpack.start

end Path

/-- **The removal of one of several occurrences** takes nothing, and releases nothing. -/
theorem Repeated.takes (h : Repeated scm x t) {fuel : ℕ} (hfuel : t.size < fuel)
    (hres : Heap.removeNode fuel scm t.ptr x false = some res) : Takes scm [] res.2 := by
  induction t generalizing fuel res with
  | nil => exact absurd h.count (by simp [Tree.lookup])
  | node a d c i l r ihl ihr =>
    obtain ⟨fuel, rfl⟩ : ∃ k, fuel = k + 1 := ⟨fuel - 1, by omega⟩
    obtain ⟨-, -, hl, hr⟩ := Balanced.node_iff.mp h.balanced
    have hpack : Span.Packed addr (virtAddr + scm.capacity) ([] ++ (node a d c i l r).blocks) :=
      h.packed
    rw [size] at hfuel
    simp only [Heap.removeNode, ptr_node, if_neg a.ptr_ne_zero, h.stored.1.strAt, gt_iff_lt,
      CString.strcmp_neg_iff, CString.strcmp_pos_iff] at hres
    rcases lt_trichotomy x i with hlt | rfl | hgt
    · rw [if_pos hlt, h.stored.1.left] at hres
      have hleft := h.left hlt
      obtain ⟨⟨left, scm'⟩, l', hcall, hchanges, hblocks, hshrunk⟩ :=
        hleft.outcome (by omega : l.size < fuel)
      rw [hcall] at hres
      obtain rfl := Option.some.inj hres
      obtain ⟨hsub, hrelinked⟩ := relinked_left h.space h.stored hpack hchanges hblocks
      exact h.finish_takes hrelinked.capacity hrelinked.stored hsub hshrunk hr.shrunk_refl
        ((ihl hleft (by omega) hcall).storeNode h.start .left left)
    · have hcount := h.count
      rw [Tree.lookup, if_pos (CString.strcmp_eq_zero_iff.mpr rfl)] at hcount
      simp only [lt_irrefl, if_false, h.stored.1.count, hcount, and_self, if_true] at hres
      obtain rfl := Option.some.inj hres
      obtain ⟨hstr, hnodel, hnoder⟩ := apart_node h.packed
      have hc : c < 2 ^ 64 := by
        rw [← h.stored.1.count]
        exact RecordLayout.get_lt
      have hframe := set_frame scm.mem a .count (c - 1)
      have hstored : (node a d (c - 1) x l r).Stored scm.capacity
          (set scm.mem a.ptr .count (c - 1)) :=
        ⟨h.stored.1.store .count (by decide) (by omega) hstr,
          h.stored.2.1.frame_blocks hframe (List.forall_mem_singleton.mpr hnodel),
          h.stored.2.2.frame_blocks hframe (List.forall_mem_singleton.mpr hnoder)⟩
      exact h.finish_takes rfl hstored (List.Subperm.refl _) hl.shrunk_refl hr.shrunk_refl
        ((Takes.refl scm).storeNode h.start .count (c - 1))
    · rw [if_neg hgt.asymm, if_pos hgt, h.stored.1.right] at hres
      have hright := h.right hgt
      obtain ⟨⟨right, scm'⟩, r', hcall, hchanges, hblocks, hshrunk⟩ :=
        hright.outcome (by omega : r.size < fuel)
      rw [hcall] at hres
      obtain rfl := Option.some.inj hres
      obtain ⟨hsub, hrelinked⟩ := relinked_right h.space h.stored hpack hchanges hblocks
      exact h.finish_takes hrelinked.capacity hrelinked.stored hsub hl.shrunk_refl hshrunk
        ((ihr hright (by omega) hcall).storeNode h.start .right right)

end Cs238p.P3
