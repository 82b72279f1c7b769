import Cs238p.P3.Commands
import Cs238p.P3.HeapTakes

set_option relaxedAutoImplicit false
set_option autoImplicit false

/-!
# The ledger of the AVL store

As long as the last occurrence of no item is removed, the allocator releases nothing, and its
utilized bytes are known from the items alone. This module keeps a ledger of the items and of the
nodes that were lost in a full region, and proves that every sequence of calls goes by it.

## Main definitions

* `Shelved` — the region holds the words, in blocks below the utilized bytes.
* `Ledger`, `Ledger.exec` — the words, the number of lost nodes and the answers.
* `Ledger.Sound` — no last occurrence is removed, and no block ends behind the mapping.
* `Session.Follows` — the store goes by a ledger.

## Main results

* `Shelved.insert`, `Shelved.insert_full`, `Shelved.remove`, `Shelved.reopen` — one call.
* `session_follows_ledger` — a store goes by its ledger, in full regions and across reopenings.
-/

namespace Cs238p.P3

open Heap SortedCounts Transition Cs238p.P3.Tree

variable {scm scm' : Scm} {x : CString} {s : Counters} {new : List Span}

/-! ## The public functions -/

section Calls

variable {avl : Avl Place} {m : Multiset CString} {used : ℕ} {item : Word}

/-- The region holds the words, in blocks below the utilized bytes. -/
structure Shelved (scm : Scm) (m : Multiset CString) (used : ℕ) : Prop where
  tree : ∃ avl, Owns scm avl ∧ Represents avl m ∧
    ∀ b ∈ stateBlock :: avl.root.blocks, b.stop ≤ addr + used
  synced : scm.Synced
  utilized : scm.utilized = used
  inside : used + 8 ≤ scm.capacity

/-- The bytes of the block of a node. -/
def nodeBytes : ℕ := 2 + 8 + nodeLayout.size

/-- The bytes of the blocks of a node and of its string. -/
def wordBytes (x : CString) : ℕ := nodeBytes + (2 + 8 + (x.strlen + 1))

/-- The blocks of a new word that fit within the capacity end eight bytes before it, where the
mapping ends. -/
def Clears (capacity used : ℕ) (x : CString) : Prop :=
  used + wordBytes x < 2 ^ 64 ∧ (used + nodeBytes ≤ capacity → used + nodeBytes + 8 ≤ capacity) ∧
    (used + wordBytes x ≤ capacity → used + wordBytes x + 8 ≤ capacity)

instance (capacity used : ℕ) (x : CString) : Decidable (Clears capacity used x) :=
  inferInstanceAs (Decidable (_ ∧ _))

/-- A word that ends in the mapping is clear of its end. -/
lemma clears_of_le {capacity used : ℕ} (hspace : virtAddr + capacity ≤ 2 ^ 64)
    (hle : used + wordBytes x + 8 ≤ capacity) : Clears capacity used x := by
  have hnode : nodeBytes ≤ wordBytes x := Nat.le_add_right _ _
  rw [virtAddr] at hspace
  exact ⟨by omega, by omega, by omega⟩

/-- A node fits if it ends within the capacity. -/
lemma fits_node_iff (hspace : virtAddr + scm.capacity ≤ 2 ^ 64)
    (hused : scm.utilized + 8 ≤ scm.capacity) :
    scm.Fits nodeLayout.size ↔ scm.utilized + nodeBytes ≤ scm.capacity := by
  have hsum : sizeT (scm.utilized + sizeT (2 + 8 + nodeLayout.size)) =
      scm.utilized + nodeBytes := by
    rw [virtAddr] at hspace
    simp only [sizeT, nodeBytes, nodeLayout]
    omega
  rw [Scm.Fits, hsum]

/-- There is room for a word if its node and its string end within the capacity. -/
lemma room_iff (hspace : virtAddr + scm.capacity ≤ 2 ^ 64)
    (hused : scm.utilized + 8 ≤ scm.capacity) (hlt : scm.utilized + wordBytes x < 2 ^ 64) :
    scm.Room x ↔ scm.utilized + wordBytes x ≤ scm.capacity := by
  have hcleared : scm.cleared.Fits (x.strlen + 1) ↔
      sizeT (sizeT (scm.utilized + sizeT (2 + 8 + nodeLayout.size)) +
        sizeT (2 + 8 + (x.strlen + 1))) ≤ scm.capacity := Iff.rfl
  have hsum : sizeT (sizeT (scm.utilized + sizeT (2 + 8 + nodeLayout.size)) +
      sizeT (2 + 8 + (x.strlen + 1))) = scm.utilized + wordBytes x := by
    rw [wordBytes] at hlt ⊢
    simp only [sizeT, nodeBytes, nodeLayout] at hlt ⊢
    omega
  rw [Scm.Room, fits_node_iff hspace hused, hcleared, hsum, and_iff_right_iff_imp, wordBytes]
  omega

/-- The bytes of the blocks that are granted. -/
lemma sum_granted (hspace : virtAddr + scm.capacity ≤ 2 ^ 64)
    (hused : scm.utilized + 8 ≤ scm.capacity) (hlt : scm.utilized + wordBytes x < 2 ^ 64) :
    ((scm.granted x).map Span.len).sum =
      if scm.utilized + wordBytes x ≤ scm.capacity then wordBytes x
      else if scm.utilized + nodeBytes ≤ scm.capacity then nodeBytes else 0 := by
  have hnode := fits_node_iff hspace hused
  have hroom := room_iff hspace hused hlt
  rw [Scm.granted]
  by_cases hfits : scm.Fits nodeLayout.size
  · rw [if_pos hfits]
    by_cases hstr : scm.cleared.Fits (x.strlen + 1)
    · rw [if_pos hstr, if_pos (hroom.mp ⟨hfits, hstr⟩)]
      rfl
    · rw [if_neg hstr, if_neg fun h => hstr (hroom.mpr h).2, if_pos (hnode.mp hfits)]
      rfl
  · rw [if_neg hfits, if_neg fun h => hfits (hroom.mpr h).1, if_neg (mt hnode.mpr hfits)]
    rfl

/-- Where the block of a new node ends. -/
lemma stop_nodeBlock (scm : Scm) :
    scm.fresh.nodeBlock.stop = addr + (scm.utilized + nodeBytes) := by
  rw [Place.nodeBlock, Span.stop, Scm.fresh, nodeBytes, Nat.add_assoc]

/-- Where the block of its string begins. -/
lemma start_strBlock (hspace : virtAddr + scm.capacity ≤ 2 ^ 64)
    (hstop : scm.fresh.nodeBlock.stop ≤ virtAddr + scm.capacity) :
    (scm.fresh.strBlock x).start = addr + (scm.utilized + nodeBytes) :=
  congrArg (addr + ·) (cleared_takes (hstop.trans hspace)).utilized

/-- Blocks that are granted end within the mapping, if they are clear of its end. -/
lemma stop_granted (hspace : virtAddr + scm.capacity ≤ 2 ^ 64)
    (hused : scm.utilized + 8 ≤ scm.capacity) (hclear : Clears scm.capacity scm.utilized x) :
    ∀ b ∈ scm.granted x, b.stop ≤ virtAddr + scm.capacity := by
  obtain ⟨hlt, hnode, hword⟩ := hclear
  have hfresh (hfits : scm.Fits nodeLayout.size) :
      scm.fresh.nodeBlock.stop ≤ virtAddr + scm.capacity := by
    have hle := hnode ((fits_node_iff hspace hused).mp hfits)
    rw [stop_nodeBlock, addr]
    omega
  rw [Scm.granted]
  split
  · next hfits =>
    split
    · next hfits' =>
      have hle := hword ((room_iff hspace hused hlt).mp ⟨hfits, hfits'⟩)
      refine List.forall_mem_cons.mpr ⟨hfresh hfits, List.forall_mem_singleton.mpr ?_⟩
      rw [Span.stop, start_strBlock hspace (hfresh hfits), Place.strBlock, addr]
      rw [wordBytes] at hle
      dsimp only
      omega
    · exact List.forall_mem_singleton.mpr (hfresh hfits)
  · exact fun _ h => absurd h List.not_mem_nil

/-- The blocks that are granted next lie above the utilized bytes. -/
lemma packed_granted {bs : List Span} (hspace : virtAddr + scm.capacity ≤ 2 ^ 64)
    (hbs : Span.Packed addr (virtAddr + scm.capacity) bs)
    (htop : ∀ b ∈ bs, b.stop ≤ addr + scm.utilized)
    (hstop : ∀ b ∈ scm.granted x, b.stop ≤ virtAddr + scm.capacity) :
    Span.Packed addr (virtAddr + scm.capacity) (scm.granted x ++ bs) := by
  have hnode : scm.fresh.nodeBlock ∈ scm.granted x →
      Span.Packed addr (virtAddr + scm.capacity) (scm.fresh.nodeBlock :: bs) := fun hmem =>
    Span.packed_cons.mpr ⟨⟨Nat.le_add_right _ _, hstop _ hmem, fun c hc => .inr (htop c hc)⟩, hbs⟩
  rw [Scm.granted] at hstop hnode ⊢
  split
  · next hfits =>
    rw [if_pos hfits] at hstop hnode
    split
    · next hfits' =>
      rw [if_pos hfits'] at hstop hnode
      have hstop₁ := hstop scm.fresh.nodeBlock (by simp)
      have hstop₂ := hstop (scm.fresh.strBlock x) (by simp)
      have hdisj := Session.fresh_disjoint hspace hstop₁ x
      have hpack := hnode List.mem_cons_self
      refine (Span.packed_cons.mpr ⟨⟨Nat.le_add_right _ _, hstop₂, List.forall_mem_cons.mpr
        ⟨hdisj.symm, fun c hc => .inr ((htop c hc).trans ?_)⟩⟩, hpack⟩).of_count fun b => ?_
      · rw [start_strBlock hspace hstop₁]
        omega
      · simp only [List.cons_append, List.nil_append, List.count_cons]
        omega
    · next hfits' =>
      rw [if_neg hfits'] at hnode
      exact hnode List.mem_cons_self
  · exact hbs

/-- Blocks that are granted end below the bytes that are utilized with them. -/
lemma granted_le (hspace : virtAddr + scm.capacity ≤ 2 ^ 64)
    (hstop : ∀ b ∈ scm.granted x, b.stop ≤ virtAddr + scm.capacity) :
    ∀ b ∈ scm.granted x,
      b.stop ≤ addr + (scm.utilized + ((scm.granted x).map Span.len).sum) := by
  rw [Scm.granted] at hstop ⊢
  split
  · next hfits =>
    split
    · next hfits' =>
      rw [if_pos hfits, if_pos hfits'] at hstop
      have hstr := start_strBlock (x := x) hspace (hstop scm.fresh.nodeBlock (by simp))
      simp only [List.map_cons, List.map_nil, List.sum_cons, List.sum_nil, List.forall_mem_cons,
        stop_nodeBlock]
      rw [Span.stop, hstr]
      refine ⟨?_, ?_, fun _ h => absurd h List.not_mem_nil⟩
      · show addr + (scm.utilized + nodeBytes) ≤ addr + (scm.utilized + (nodeBytes + _))
        omega
      · show _ ≤ addr + (scm.utilized + (nodeBytes + ((scm.fresh.strBlock x).len + 0)))
        omega
    · refine List.forall_mem_singleton.mpr ?_
      rw [stop_nodeBlock]
      exact le_rfl
  · exact fun _ h => absurd h List.not_mem_nil

/-- The words of a multiset are the items of the tree. -/
lemma Represents.mem_iff (hm : Represents avl m) :
    x ∈ avl.root.traverse.map Prod.fst ↔ x ∈ m := by
  constructor
  · intro hx
    by_contra hnot
    exact hm.not_mem_traverse hnot hx
  · intro hx
    have hpos := Multiset.count_pos.mpr hx
    exact List.mem_map.mpr ⟨(x, m.count x), (hm.mem_traverse_iff x _).mpr ⟨hpos, rfl⟩, rfl⟩

/-- There are no words if the tree is empty. -/
lemma Represents.root_eq_nil_iff (hm : Represents avl m) : avl.root = nil ↔ m = 0 := by
  constructor
  · intro h
    rw [← hm.elements, h]
    rfl
  · rintro rfl
    cases hroot : avl.root with
    | nil => rfl
    | node a d c i l r =>
      have hmem : i ∈ (0 : Multiset CString) := hm.mem_iff.mp (by simp [hroot, traverse_node])
      exact absurd hmem (Multiset.notMem_zero i)

lemma Represents.grants (hm : Represents avl m) (scm : Scm) (x : CString) :
    avl.root.grants scm x = if x ∈ m then [] else scm.granted x := by
  simp only [Tree.grants, hm.mem_iff]

/-- A region with words is ready for an insertion. -/
lemma Shelved.ready (h : Shelved scm m used) (hcard : m.card + 1 < 2 ^ 64)
    (hclear : item.1 ∉ m → Clears scm.capacity used item.1) (howns : Owns scm avl)
    (hm : Represents avl m) (htop : ∀ b ∈ stateBlock :: avl.root.blocks, b.stop ≤ addr + used) :
    Ready scm ⟨avl.items, avl.unique⟩ item.1 avl.root ∧
      (∀ b ∈ avl.root.grants scm item.1,
        b.stop ≤ addr + (used + ((avl.root.grants scm item.1).map Span.len).sum)) := by
  obtain rfl := h.utilized
  have hcount : m.count item.1 ≤ m.card := Multiset.count_le_card _ _
  have hdistinct : m.toFinset.card ≤ m.card := Multiset.toFinset_card_le m
  have hstop : item.1 ∉ m → ∀ b ∈ scm.granted item.1, b.stop ≤ virtAddr + scm.capacity :=
    fun hnot => stop_granted howns.space h.inside (hclear hnot)
  refine ⟨⟨howns.space, howns.counters, ?_, ?_, howns.stored, ?_, hm.valid.sorted,
    hm.valid.balanced, howns.shallow hm.valid.balanced, ?_⟩, ?_⟩
  · dsimp only
    rwa [hm.items]
  · dsimp only
    rw [hm.unique]
    omega
  · rw [hm.lookup]
    omega
  · rw [hm.grants]
    split
    · exact howns.packed
    · next hnot =>
      refine (packed_granted howns.space howns.packed htop (hstop hnot)).of_count fun b => ?_
      simp only [List.count_append, List.count_cons]
      omega
  · rw [hm.grants]
    split
    · exact fun _ h => absurd h List.not_mem_nil
    · next hnot => exact granted_le howns.space (hstop hnot)

/-- `avl_insert` takes what `update` does. -/
lemma avlInsert_takes (howns : Owns scm avl) (h : Ready scm s x avl.root) {code : ℤ}
    (hres : Heap.avlInsert scm x = some (code, scm')) :
    scm'.capacity = scm.capacity ∧ Takes scm (avl.root.grants scm x) scm' := by
  rw [Heap.avlInsert, howns.root] at hres
  obtain ⟨⟨root, scm₁⟩, t', hcall, hchanges, -⟩ := h.outcome howns.size_lt
  have htakes := h.takes howns.size_lt hcall
  simp only [hcall] at hres
  split at hres
  · obtain ⟨-, rfl⟩ := Prod.mk.inj (Option.some.inj hres)
    exact ⟨hchanges.capacity, htakes⟩
  · obtain ⟨-, rfl⟩ := Prod.mk.inj (Option.some.inj hres)
    exact ⟨hchanges.capacity, htakes.storeState .root root⟩

/-- The region after a call that took blocks from the allocator. -/
lemma Shelved.of_takes {avl' : Avl Place} {m' : Multiset CString} (h : Shelved scm m used)
    (howns : Owns scm' avl') (hm : Represents avl' m') (htakes : Takes scm new scm')
    (hcap : scm'.capacity = scm.capacity)
    (htop : ∀ b ∈ stateBlock :: avl'.root.blocks, b.stop ≤ addr + (used + (new.map Span.len).sum))
    (hinside : used + (new.map Span.len).sum + 8 ≤ scm.capacity) :
    Shelved scm' m' (used + (new.map Span.len).sum) := by
  refine ⟨⟨avl', howns, hm, htop⟩, htakes.synced h.synced, ?_, ?_⟩
  · rw [htakes.utilized, h.utilized]
  · rwa [hcap]

/-- **`avl_insert` of a word for which there is room**, or that is there. -/
theorem Shelved.insert (h : Shelved scm m used) (hcard : m.card + 1 < 2 ^ 64)
    (hroom : item.1 ∉ m → used + wordBytes item.1 + 8 ≤ scm.capacity) :
    ∃ scm', Heap.avlInsert scm item.1 = some (0, scm') ∧ scm'.capacity = scm.capacity ∧
      Shelved scm' (item.1 ::ₘ m) (used + if item.1 ∈ m then 0 else wordBytes item.1) := by
  obtain rfl := h.utilized
  obtain ⟨avl, howns, hm, htop⟩ := h.tree
  have hclear (hnot : item.1 ∉ m) : Clears scm.capacity scm.utilized item.1 :=
    clears_of_le howns.space (hroom hnot)
  have hle (hnot : item.1 ∉ m) : scm.utilized + wordBytes item.1 ≤ scm.capacity :=
    (Nat.le_add_right _ 8).trans (hroom hnot)
  obtain ⟨hready, hgranted⟩ := h.ready hcard hclear howns hm htop
  have hok : item.1 ∈ m ∨ scm.Room item.1 := or_iff_not_imp_left.mpr fun hnot =>
    (room_iff howns.space h.inside (hclear hnot).1).mpr (hle hnot)
  have hblocks := insertBlocks_eq_grants scm hready.sorted (hok.imp_left hm.mem_iff.mpr)
  have hpack := hready.packed
  rw [← hblocks] at hpack
  obtain ⟨scm', hres, -, howns'⟩ := owns_insert howns hm item hready.items hpack
  obtain ⟨hcap, htakes⟩ := avlInsert_takes howns hready hres
  have hsum : ((avl.root.grants scm item.1).map Span.len).sum =
      if item.1 ∈ m then 0 else wordBytes item.1 := by
    rw [hm.grants]
    split
    · rfl
    · next hnot => rw [sum_granted howns.space h.inside (hclear hnot).1, if_pos (hle hnot)]
  have hfits : scm.utilized + ((avl.root.grants scm item.1).map Span.len).sum + 8 ≤
      scm.capacity := by
    rw [hsum]
    split
    · exact h.inside
    · next hnot => exact hroom hnot
  refine ⟨scm', hres, hcap, ?_⟩
  rw [← hsum]
  refine h.of_takes howns' (represents_insert hm scm.fresh item) htakes hcap ?_ hfits
  intro b hb
  rcases List.mem_cons.mp hb with rfl | hb
  · exact (htop _ List.mem_cons_self).trans (by omega)
  · have hperm := (blocks_update scm item.1 ⟨avl.items, avl.unique⟩ avl.root).mem_iff.mp hb
    rw [hblocks] at hperm
    rcases List.mem_append.mp hperm with hb | hb
    · exact hgranted b hb
    · exact (htop b (List.mem_cons_of_mem _ hb)).trans (by omega)

/-- **`avl_insert` of a word for which there is no room** keeps the words and loses a node, if there
is room for one. It succeeds, unless there are no words. -/
theorem Shelved.insert_full (h : Shelved scm m used) (hcard : m.card + 1 < 2 ^ 64)
    (hnot : item.1 ∉ m) (hclear : Clears scm.capacity used item.1)
    (hfull : scm.capacity < used + wordBytes item.1) :
    ∃ scm', Heap.avlInsert scm item.1 = some (if m = 0 then -1 else 0, scm') ∧
      scm'.capacity = scm.capacity ∧
      Shelved scm' m (used + if used + nodeBytes ≤ scm.capacity then nodeBytes else 0) := by
  obtain rfl := h.utilized
  obtain ⟨avl, howns, hm, htop⟩ := h.tree
  obtain ⟨hready, -⟩ := h.ready hcard (fun _ => hclear) howns hm htop
  have hgrants := hm.grants scm item.1
  rw [if_neg hnot] at hgrants
  have hpack := hready.packed
  rw [hgrants] at hpack
  have hfull' : ¬ scm.Room item.1 := by
    rw [room_iff howns.space h.inside hclear.1]
    exact Nat.not_le_of_lt hfull
  obtain ⟨scm', hres, howns', -⟩ := owns_insert_full howns hm hnot hfull' hpack
  obtain ⟨hcap, htakes⟩ := avlInsert_takes howns hready hres
  rw [hgrants] at htakes
  -- the block of the node is granted if it fits, and that of the string is not
  have hsum := sum_granted howns.space h.inside hclear.1
  rw [if_neg (Nat.not_le_of_lt hfull)] at hsum
  have hroom : scm.utilized + ((scm.granted item.1).map Span.len).sum + 8 ≤ scm.capacity := by
    rw [hsum]
    split
    · next hle => exact hclear.2.1 hle
    · exact h.inside
  simp only [hm.root_eq_nil_iff] at hres
  refine ⟨scm', hres, hcap, ?_⟩
  rw [← hsum]
  refine h.of_takes howns' hm htakes hcap (fun b hb => (htop b hb).trans ?_) hroom
  omega

/-- Of a word of which there are several, the tree has several occurrences. -/
lemma Owns.repeated (howns : Owns scm avl) (hm : Represents avl m) (hcount : 1 < m.count x) :
    Repeated scm x avl.root :=
  ⟨howns.space, howns.stored, by rwa [hm.lookup], hm.valid.sorted, hm.valid.balanced,
    (howns.shallow hm.valid.balanced).mono (by decide), (Span.packed_cons.mp howns.packed).2⟩

/-- `avl_remove` of one of several occurrences takes and releases nothing. -/
lemma avlRemove_takes (howns : Owns scm avl) (hm : Represents avl m) (hcount : 1 < m.count item.1)
    {code : ℤ} (hres : Heap.avlRemove scm item.1 = some (code, scm')) : Takes scm [] scm' := by
  have hexists : Heap.avlExists scm item.1 = some (m.count item.1) := by
    rw [howns.avlExists, hm.lookup]
  have hrepeated := howns.repeated hm hcount
  obtain ⟨⟨root, scm₁⟩, -, hcall, -⟩ := hrepeated.outcome howns.size_lt
  have htakes := hrepeated.takes howns.size_lt hcall
  have hstored := (htakes.storeState .items
    (stateLayout.get scm₁.mem scmMbase .items + 2 ^ 64 - 1)).storeState .root root
  simp only [Heap.avlRemove, hexists, if_neg (by omega : ¬ m.count item.1 = 0), howns.root,
    hcall] at hres
  split at hres
  · cases hres
  · split at hres
    · obtain ⟨-, rfl⟩ := Prod.mk.inj (Option.some.inj hres)
      exact hstored.storeState .unique _
    · obtain ⟨-, rfl⟩ := Prod.mk.inj (Option.some.inj hres)
      exact hstored

/-- **`avl_remove` of a word of which there is not just one** takes one of them away, or none. -/
theorem Shelved.remove (h : Shelved scm m used) (hcount : m.count item.1 ≠ 1) :
    ∃ scm', Heap.avlRemove scm item.1 = some (if item.1 ∈ m then 0 else 1, scm') ∧
      scm'.capacity = scm.capacity ∧ Shelved scm' (m.erase item.1) used := by
  obtain ⟨avl, howns, hm, htop⟩ := h.tree
  by_cases hmem : item.1 ∈ m
  · have hpos := Multiset.count_pos.mpr hmem
    have hcount' : 1 < m.count item.1 := by omega
    have hrepeated := howns.repeated hm hcount'
    have hnone := removeBlocks_of_lookup scm hrepeated.count
    obtain ⟨scm', hres, hcap, howns'⟩ := owns_remove howns hm item (by
      rw [hnone]
      exact howns.packed)
    have htakes := avlRemove_takes howns hm hcount' hres
    obtain ⟨-, hremove⟩ := represents_remove hm scm.redup item
    obtain ⟨hcode, hm'⟩ := hremove hpos.ne'
    have hroot : (avlRemove scm.redup avl item).2.root =
        Tree.removeNode scm.redup avl.root item.1 false := by
      have hexists : P3.avlExists avl item ≠ 0 := (Nat.zero_lt_of_lt hrepeated.count).ne'
      rw [avlRemove, if_neg hexists]
      dsimp only
      split <;> rfl
    have hsub := blocks_removeNode scm scm.redup avl.root item.1 false hm.valid.sorted fun _ => rfl
    rw [hnone, List.nil_append] at hsub
    rw [hcode] at hres
    rw [if_pos hmem]
    refine ⟨scm', hres, hcap, h.of_takes howns' hm' htakes hcap (fun b hb => htop b ?_) h.inside⟩
    rw [hroot] at hb
    exact List.cons_subset_cons _ hsub.subset hb
  · have hexists : Heap.avlExists scm item.1 = some 0 := by
      rw [howns.avlExists, hm.lookup, Multiset.count_eq_zero.mpr hmem]
    refine ⟨scm, ?_, rfl, ?_⟩
    · simp only [Heap.avlRemove, hexists, if_true, if_neg hmem]
    · rwa [Multiset.erase_of_notMem hmem]

/-- The state lies below the utilized bytes. -/
lemma Shelved.stateBlock_le (h : Shelved scm m used) : stateBlock.len ≤ used := by
  obtain ⟨avl, -, -, htop⟩ := h.tree
  have hstate := htop stateBlock List.mem_cons_self
  rw [stateBlock, Span.stop] at hstate
  exact Nat.le_of_add_le_add_left hstate

/-- **`avl_close` and `avl_open`** keep the words. -/
theorem Shelved.reopen (h : Shelved scm m used) :
    ∃ scm', Heap.avlOpen (Heap.avlClose scm) scm.capacity false = some scm' ∧
      scm'.capacity = scm.capacity ∧ Shelved scm' m used := by
  obtain ⟨avl, howns, hm, htop⟩ := h.tree
  have hinside := h.inside
  have hword : scm.mem.word virtAddr 8 = used := h.synced.trans h.utilized
  have hpos : 0 < used := Nat.lt_of_lt_of_le (by decide) h.stateBlock_le
  obtain ⟨scm', hres, hcap, howns'⟩ := owns_reopen howns (by omega)
  have hused : (scmOpen scm.mem scm.capacity false).utilized = used := by
    rw [utilized_scmOpen (by omega), hword]
  have hsynced : (scmOpen scm.mem scm.capacity false).Synced := rfl
  refine ⟨scm', hres, hcap, ?_⟩
  rw [Heap.avlOpen, Heap.avlClose, scmClose] at hres
  generalize scmOpen scm.mem scm.capacity false = scm₁ at hres hused hsynced
  have hne : scm₁.utilized ≠ 0 := by omega
  obtain rfl := Option.some.inj ((if_pos hne).symm.trans hres)
  exact ⟨⟨avl, howns', hm, htop⟩, hsynced, hused, hcap.symm ▸ hinside⟩

/-- **`avl_open`** of a region that is not in use creates a region without words. -/
theorem shelved_create (file : Mem) {capacity : ℕ} (truncate : Bool)
    (h0 : (scmOpen file capacity truncate).utilized = 0) (hfits : stateBlock.len + 8 ≤ capacity)
    (hspace : virtAddr + capacity ≤ 2 ^ 64) :
    ∃ scm, Heap.avlOpen file capacity truncate = some scm ∧ scm.capacity = capacity ∧
      Shelved scm 0 stateBlock.len := by
  obtain ⟨scm, hres, hcap, howns⟩ := owns_create file truncate h0 (by omega) hspace
  refine ⟨scm, hres, hcap, ?_⟩
  have hcap₀ := capacity_scmOpen file capacity truncate
  rw [Heap.avlOpen] at hres
  generalize scmOpen file capacity truncate = scm₀ at h0 hcap₀ hres
  have hplace : (scm₀.place stateLayout.size).stop ≤ virtAddr + scm₀.capacity := by
    rw [hcap₀, Scm.place, Span.stop, h0, addr]
    rw [stateBlock] at hfits
    simp only at hfits ⊢
    omega
  have hp : addr + scm₀.utilized + 2 + 8 = scmMbase := by rw [h0]; rfl
  have hne : ¬ scm₀.utilized ≠ 0 := not_not.mpr h0
  simp only [if_neg hne, scmMalloc_of_fits (fits_of_stop_le hplace), hp, if_true] at hres
  obtain rfl := Option.some.inj hres
  have htakes := (grow_takes (hplace.trans (hcap₀.symm ▸ hspace))).write (2 + 8)
    (List.replicate stateLayout.size 0)
  refine ⟨⟨Avl.empty, howns, represents_empty, ?_⟩, ?_, ?_, ?_⟩
  · exact List.forall_mem_singleton.mpr le_rfl
  · exact Scm.Synced.frame (Scm.word_setWord_counter _ _) (Mem.agreesOutside_write _ _ _)
      (List.forall_mem_singleton.mpr (by decide))
  · exact htakes.utilized.trans (by rw [h0]; rfl)
  · rw [hcap]
    exact hfits

end Calls

/-! ## The ledger -/

/-- The bytes of the blocks of the state and of the words. -/
def footprint (m : Multiset CString) : ℕ := stateBlock.len + ∑ x ∈ m.toFinset, wordBytes x

/-- A new word needs its bytes. -/
lemma footprint_cons (m : Multiset CString) (x : CString) :
    footprint (x ::ₘ m) = footprint m + if x ∈ m then 0 else wordBytes x := by
  rw [footprint, footprint, Multiset.toFinset_cons]
  split
  · next hmem => rw [Finset.insert_eq_of_mem (Multiset.mem_toFinset.mpr hmem), Nat.add_zero]
  · next hnot =>
    rw [Finset.sum_insert (mt Multiset.mem_toFinset.mp hnot)]
    omega

/-- Words of which one was removed, but not the last. -/
lemma footprint_erase {m : Multiset CString} (h : m.count x ≠ 1) :
    footprint (m.erase x) = footprint m := by
  by_cases hmem : x ∈ m
  · have hpos := Multiset.count_pos.mpr hmem
    have hmem' : x ∈ m.erase x := by
      rw [← Multiset.count_pos, Multiset.count_erase_self]
      omega
    have hcons := footprint_cons (m.erase x) x
    rw [Multiset.cons_erase hmem, if_pos hmem'] at hcons
    exact hcons.symm
  · rw [Multiset.erase_of_notMem hmem]

/-- The words, the number of nodes that were lost, and the calls so far with their answers, the last
one first. -/
structure Ledger where
  words : Multiset CString
  lost : ℕ
  log : List (StoreOp × ℤ)

namespace Ledger

variable {g : Ledger}

/-- The ledger of a new store. -/
def start : Ledger := ⟨0, 0, []⟩

/-- The utilized bytes. -/
def used (g : Ledger) : ℕ := footprint g.words + nodeBytes * g.lost

/-- What a call does. A new word for which there is no room is not inserted, and the node is lost if
there was room for it; only a store without words admits that. -/
def exec (capacity : ℕ) (g : Ledger) : StoreOp → Ledger
  | .insert item =>
    if item.1 ∈ g.words ∨ g.used + wordBytes item.1 ≤ capacity then
      ⟨item.1 ::ₘ g.words, g.lost, (.insert item, 0) :: g.log⟩
    else
      ⟨g.words, if g.used + nodeBytes ≤ capacity then g.lost + 1 else g.lost,
        (.insert item, if g.words = 0 then -1 else 0) :: g.log⟩
  | .remove item =>
    ⟨g.words.erase item.1, g.lost, (.remove item, if item.1 ∈ g.words then 0 else 1) :: g.log⟩
  | .reopen => ⟨g.words, g.lost, (.reopen, 0) :: g.log⟩

/-- A new word is clear of the end of the mapping, the last occurrence of a word is not removed, and
the number of words does not overflow. -/
def Sound (capacity : ℕ) (g : Ledger) : StoreOp → Prop
  | .insert item =>
    g.words.card + 1 < 2 ^ 64 ∧ (item.1 ∉ g.words → Clears capacity g.used item.1)
  | .remove item => g.words.count item.1 ≠ 1
  | .reopen => True

instance (capacity : ℕ) (g : Ledger) : DecidablePred (Sound capacity g)
  | .insert _ => inferInstanceAs (Decidable (_ ∧ _))
  | .remove _ => inferInstanceAs (Decidable (_ ≠ _))
  | .reopen => inferInstanceAs (Decidable True)

end Ledger

namespace Session

/-- The store goes by the ledger: it gave the same answers, holds the words of the ledger, counts
and lists them, and utilizes the bytes that the ledger says. -/
structure Follows (s : Session) (g : Ledger) : Prop where
  log : s.log = g.log
  count : ∀ x, Heap.avlExists s.scm x = some (g.words.count x)
  traverse : Heap.avlTraverse s.scm =
    some ((g.words.toFinset.sort (· ≤ ·)).map fun x => (x, g.words.count x))
  items : stateGet s.scm .items = g.words.card
  unique : stateGet s.scm .unique = g.words.toFinset.card
  utilized : scmUtilized s.scm = g.used

/-- The store and its ledger. -/
structure Goes (capacity : ℕ) (s : Session) (g : Ledger) : Prop where
  log : s.log = g.log
  capacity : s.scm.capacity = capacity
  shelved : Shelved s.scm g.words g.used

/-- A store with the words of the ledger goes by it. -/
lemma Goes.follows {capacity : ℕ} {s : Session} {g : Ledger} (h : Goes capacity s g) :
    s.Follows g := by
  obtain ⟨avl, howns, hm, -⟩ := h.shelved.tree
  have htraverse : avl.root.traverse = _ := hm.traverse_eq
  refine ⟨h.log, fun x => ?_, ?_, ?_, ?_, h.shelved.utilized⟩
  · rw [howns.avlExists, hm.lookup]
  · rw [howns.avlTraverse, htraverse]
  · rw [← hm.items]
    exact howns.counters.items
  · rw [← hm.unique]
    exact howns.counters.unique

/-- **The step lemma**: a call goes by the ledger. -/
theorem Goes.step {capacity : ℕ} {s : Session} {g : Ledger} (h : Goes capacity s g) {op : StoreOp}
    (hop : g.Sound capacity op) :
    ∃ s', s.step op = some s' ∧ Goes capacity s' (g.exec capacity op) := by
  obtain ⟨hlog, rfl, hshelved⟩ := h
  cases op with
  | insert item =>
    obtain ⟨hcard, hclear⟩ := hop
    by_cases hok : item.1 ∈ g.words ∨ g.used + wordBytes item.1 ≤ s.scm.capacity
    · obtain ⟨scm', hres, hcap, hshelved'⟩ := hshelved.insert hcard fun hnot =>
        (hclear hnot).2.2 (hok.resolve_left hnot)
      refine ⟨⟨scm', (.insert item, 0) :: s.log⟩, by rw [Session.step, hres]; rfl, ?_⟩
      rw [Ledger.exec, if_pos hok]
      refine ⟨congrArg _ hlog, hcap, ?_⟩
      rw [Ledger.used, footprint_cons, Nat.add_right_comm]
      exact hshelved'
    · obtain ⟨hnot, hfull⟩ := not_or.mp hok
      obtain ⟨scm', hres, hcap, hshelved'⟩ := hshelved.insert_full hcard hnot (hclear hnot)
        (Nat.lt_of_not_le hfull)
      refine ⟨⟨scm', (.insert item, _) :: s.log⟩, by rw [Session.step, hres]; rfl, ?_⟩
      rw [Ledger.exec, if_neg hok]
      refine ⟨congrArg _ hlog, hcap, ?_⟩
      have hused : Ledger.used ⟨g.words, if g.used + nodeBytes ≤ s.scm.capacity then g.lost + 1
          else g.lost, (.insert item, if g.words = 0 then -1 else 0) :: g.log⟩ =
          g.used + if g.used + nodeBytes ≤ s.scm.capacity then nodeBytes else 0 := by
        split
        · rw [Ledger.used, Nat.mul_succ, ← Nat.add_assoc, Ledger.used]
        · rfl
      rw [hused]
      exact hshelved'
  | remove item =>
    obtain ⟨scm', hres, hcap, hshelved'⟩ := hshelved.remove hop
    refine ⟨⟨scm', (.remove item, _) :: s.log⟩, by rw [Session.step, hres]; rfl,
      congrArg _ hlog, hcap, ?_⟩
    have hused : (g.exec s.scm.capacity (.remove item)).used = g.used := by
      rw [Ledger.exec, Ledger.used, footprint_erase hop, Ledger.used]
    rw [hused]
    exact hshelved'
  | reopen =>
    obtain ⟨scm', hres, hcap, hshelved'⟩ := hshelved.reopen
    exact ⟨⟨scm', (.reopen, 0) :: s.log⟩, by rw [Session.step, hres]; rfl, congrArg _ hlog, hcap,
      hshelved'⟩

/-- **A store goes by its ledger.** For every region that holds the state, every sequence of calls,
reopenings among them, that removes no last occurrence of an item and in which no block ends in the
eight bytes behind the mapping returns; it gives the answers of the ledger, and leaves a store with
its words, its counters and its utilized bytes, whether or not there was room for all items.

**Proof sketch.** The region holds the words in blocks below the utilized bytes, so the blocks of a
new word, which are granted above them, are free. An insertion takes these blocks only, and a
removal none, since what `update` and `remove_node` change besides lies in blocks of the tree. -/
theorem session_follows_ledger (file : Mem) (capacity : ℕ) (hfits : stateBlock.len + 8 ≤ capacity)
    (hspace : virtAddr + capacity ≤ 2 ^ 64) {ops : List StoreOp}
    (hops : Always (fun g op => some (g.exec capacity op)) (Ledger.Sound capacity) Ledger.start
      ops) :
    ∃ s s', start file capacity = some s ∧ run Session.step s ops = some s' ∧
      s'.Follows (ops.foldl (Ledger.exec capacity) Ledger.start) := by
  obtain ⟨scm, hres, hcap, hshelved⟩ := shelved_create file true rfl hfits hspace
  have hgoes : Goes capacity ⟨scm, []⟩ Ledger.start := ⟨rfl, hcap, hshelved⟩
  obtain ⟨s', hrun, hend⟩ := progress_foldl (fun _ _ _ h hop => h.step hop) hgoes hops
  exact ⟨⟨scm, []⟩, s', by rw [start, hres]; rfl, hrun, hend.follows⟩

/-- Three items in a region with room for two of them and for another node, and a reopening. -/
def fullOps : List StoreOp :=
  [.insert (letter 97 (by decide)), .insert (letter 98 (by decide)),
    .insert (letter 99 (by decide)), .insert (letter 97 (by decide)), .reopen,
    .remove (letter 97 (by decide))]

/-- Witness: the third item is not inserted although `avl_insert` succeeds, and its node is lost. -/
theorem session_follows_ledger_full :
    ∃ s s', start (fun _ => 0) 216 = some s ∧ run Session.step s fullOps = some s' ∧
      (.insert (letter 99 (by decide)), 0) ∈ s'.log ∧
      Heap.avlExists s'.scm (letter 99 (by decide)).1 = some 0 ∧ scmUtilized s'.scm = 208 := by
  have hops : Always (fun g op => some (g.exec 216 op)) (Ledger.Sound 216) Ledger.start
      fullOps := by decide +kernel
  obtain ⟨s, s', hs, hrun, hfollows⟩ :=
    session_follows_ledger (fun _ => 0) 216 (by decide) (by decide) hops
  refine ⟨s, s', hs, hrun, ?_, ?_, ?_⟩
  · rw [hfollows.log]
    decide +kernel
  · rw [hfollows.count]
    decide +kernel
  · rw [hfollows.utilized]
    decide +kernel

end Session

end Cs238p.P3
