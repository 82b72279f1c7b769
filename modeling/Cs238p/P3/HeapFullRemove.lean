import Cs238p.P3.HeapFullInsert
import Cs238p.P3.HeapHollow

set_option relaxedAutoImplicit false
set_option autoImplicit false

/-!
# Removal from a full region

To remove a node with two children, `remove_node` replaces its item by a copy of the next larger
one. The result of the copy is stored without a test. If the region has no room for the copy, the
node keeps its place in the tree without an item, and the search at the end of `avl_remove`, which
looks for the removed item, compares it with the null pointer.

## Main definitions

* `Hollows` — a removal that leaves a node without an item.
* `SafeRemoval` — the removal leaves no such node, and removes one occurrence or fails.
* `DuplicateFails` — the call of `scm_strdup` by the removal returns null.
* `DuplicateFits` — the region has room for the string that the removal duplicates, if any.

## Main results

* `takeOver_of_not_fits` — the item of the node becomes null.
* `removeNode_hollow` — the removal from a stored tree if the string is not duplicated.
* `safe_iff_duplicateFits` — every removal after every run.

## Implementation notes

In the model, the access through the null pointer at the end of `avl_remove` reads the memory there.
The results are about the node without an item only, which is there whatever this access does.
-/

namespace Cs238p.P3

open Heap Cs238p.P3.Tree SortedCounts Transition

/-- The region in which the item of a node is null. -/
def Scm.hollow (z : ℕ) (scm : Scm) : Scm := { scm with mem := P3.hollow z scm.mem }

/-! ## The string that is not duplicated -/

section TakeOver

variable {n z : ℕ} {m : Mem} {scm : Scm} {l r : Tree Place} {a : Place} {d : ℤ} {c : ℕ}
  {i : CString}

/-- The item of a node lies in its block. -/
lemma item_within (a : Place) : (Span.mk (a.ptr + nodeLayout.off .item)
    (nodeLayout.width .item)).Within a.nodeBlock := by
  have hfield := nodeLayout.field_within (a := a.ptr) (f := .item)
  have hblock : (payload a.nodeBlock).Within a.nodeBlock := payload_within (Nat.le_add_right _ _)
  exact ⟨hblock.1.trans hfield.1, hfield.2.trans hblock.2⟩

lemma hollow_agrees (a : Place) (m : Mem) :
    Mem.AgreesOutside [a.nodeBlock] m (hollow a.ptr m) :=
  set_frame m a .item 0

lemma utilized_scmFree (scm : Scm) (p : ℕ) : (scmFree scm p).utilized =
    sizeT (scm.utilized + 2 ^ 64 - scm.mem.word (p - 8) 8) := by
  rw [scmFree]

lemma mem_scmFree (scm : Scm) (p : ℕ) : (scmFree scm p).mem =
    (scm.mem.setWord (p - 2 - 8) 2 0).setWord (addr - 8) 8 (scmFree scm p).utilized := by
  rw [scmFree]

lemma hollow_congr {m₁ m₂ : Mem} {x : ℕ} (h : m₁ x = m₂ x) : hollow z m₁ x = hollow z m₂ x :=
  Mem.setWord_congr h

/-- The release of another block does not touch the item. -/
lemma scmFree_hollow (scm : Scm) {b : Span} (hb : 2 + 8 ≤ b.len)
    (hdisj : a.nodeBlock.Disjoint b) (hstart : addr ≤ a.nodeBlock.start) :
    scmFree (scm.hollow a.ptr) (b.start + 2 + 8) =
      (scmFree scm (b.start + 2 + 8)).hollow a.ptr := by
  have hitem := item_within a
  have hcounter (m : Mem) (v : ℕ) : (hollow a.ptr m).setWord (addr - 8) 8 v =
      hollow a.ptr (m.setWord (addr - 8) 8 v) := by
    have haddr : addr - 8 = virtAddr := by rw [addr, Nat.add_sub_cancel]
    rw [haddr]
    exact Mem.setWord_comm ((counterSpan_disjoint hstart).symm.mono hitem (Span.Within.refl _))
  have hword : (hollow a.ptr scm.mem).word (b.start + 2 + 8 - 8) 8 =
      scm.mem.word (b.start + 2 + 8 - 8) 8 := by
    apply Mem.word_setWord_of_disjoint
    refine hdisj.mono hitem ?_
    rw [Span.within_def]
    simp only
    omega
  have hflag : (hollow a.ptr scm.mem).setWord (b.start + 2 + 8 - 2 - 8) 2 0 =
      hollow a.ptr (scm.mem.setWord (b.start + 2 + 8 - 2 - 8) 2 0) := by
    apply Mem.setWord_comm
    refine hdisj.mono hitem ?_
    rw [Span.within_def]
    simp only
    omega
  have hmem : (scm.hollow a.ptr).mem = hollow a.ptr scm.mem := rfl
  have hused : (scmFree (scm.hollow a.ptr) (b.start + 2 + 8)).utilized =
      (scmFree scm (b.start + 2 + 8)).utilized := by
    rw [utilized_scmFree, utilized_scmFree, hmem, hword]
    rfl
  have hfreed : (scmFree (scm.hollow a.ptr) (b.start + 2 + 8)).mem =
      hollow a.ptr (scmFree scm (b.start + 2 + 8)).mem := by
    rw [mem_scmFree, mem_scmFree, hused, hmem, hflag, hcounter]
  have heta (scm : Scm) : scm = ⟨scm.utilized, scm.capacity, scm.mem⟩ := rfl
  rw [heta (scmFree (scm.hollow a.ptr) (b.start + 2 + 8)), hused, hfreed, capacity_scmFree]
  simp only [Scm.hollow, capacity_scmFree]

/-- What `remove_node` does to a node with two children, apart from its item. -/
def takeCount (scm : Scm) (root temp : ℕ) : Scm :=
  let m := set scm.mem root .count (get scm.mem temp .count)
  let scm := scmFree { scm with mem := m } (get scm.mem root .item)
  { scm with mem := set scm.mem temp .count 1 }

/-- **A node takes over the count of the next larger one** and keeps its string, whose block is
released. -/
lemma takeCount_stored (h : (node a d c i l r).Stored scm.capacity scm.mem) (hr : r ≠ nil)
    (hpack : Span.Packed addr (virtAddr + scm.capacity) (node a d c i l r).blocks) :
    Changes (counterSpan :: (node a d c i l r).blocks) scm
      (node a d r.findMin.2 i l r.setMinCount) (a.ptr, takeCount scm a.ptr r.minPtr) := by
  obtain ⟨-, hcount⟩ := Stored.min h.2.2 hr
  have hcountlt : r.findMin.2 < 2 ^ 64 := by
    rw [← hcount]
    exact RecordLayout.get_lt
  obtain ⟨hstr, hnodel, hnoder⟩ := apart_node hpack
  have hpackr : Span.Packed addr (virtAddr + scm.capacity) r.blocks := hpack.of_count fun s => by
    rw [count_blocks_node]
    omega
  rw [takeCount, hcount, h.1.item]
  -- the count
  have hframe₁ := set_frame scm.mem a .count r.findMin.2
  have h₁ : (node a d r.findMin.2 i l r).Stored scm.capacity
      (set scm.mem a.ptr .count r.findMin.2) :=
    ⟨h.1.store .count (by decide) hcountlt hstr,
      h.2.1.frame_blocks hframe₁ (List.forall_mem_singleton.mpr hnodel),
      h.2.2.frame_blocks hframe₁ (List.forall_mem_singleton.mpr hnoder)⟩
  generalize set scm.mem a.ptr .count r.findMin.2 = m₁ at hframe₁ h₁ ⊢
  -- the release of the string
  have hframe₂ : Mem.AgreesOutside [counterSpan, a.strBlock i] m₁
      (scmFree { scm with mem := m₁ } a.strPtr).mem :=
    scmFree_agrees_block { scm with mem := m₁ } (Nat.le_add_right _ _)
  replace h₁ : (node a d r.findMin.2 i l r).Stored scm.capacity (Scm.mem { scm with mem := m₁ }) :=
    h₁
  have h₂ : (node a d r.findMin.2 i l r).Stored scm.capacity
      (scmFree { scm with mem := m₁ } a.strPtr).mem :=
    h₁.scmFree hpack (b := a.strBlock i) (by simp [blocks_node])
  have hcap : (scmFree { scm with mem := m₁ } a.strPtr).capacity = scm.capacity :=
    capacity_scmFree
  generalize scmFree { scm with mem := m₁ } a.strPtr = scm₂ at hframe₂ h₂ hcap ⊢
  -- the count of the next larger node
  have h₃ := setMinCount_performs h₂.2.2 hpackr hr
  refine ⟨rfl, hcap, h₃.under_right h₂ hpack rfl, ?_⟩
  refine ((hframe₁.of_count fun s => ?_).trans (hframe₂.of_count fun s => ?_)).trans
    (h₃.frame.of_count fun s => ?_)
  all_goals
    simp only [count_blocks_node, List.count_cons, List.count_nil]
    omega

/-- If the string is not duplicated, the item of the node is null. -/
lemma takeOver_of_not_fits (hspace : virtAddr + scm.capacity ≤ 2 ^ 64)
    (h : (node a d c i l r).Stored scm.capacity scm.mem) (hr : r ≠ nil)
    (hpack : Span.Packed addr (virtAddr + scm.capacity) (node a d c i l r).blocks)
    (hfull : ¬ scm.Fits (r.findMin.1.strlen + 1)) :
    takeOver scm a.ptr r.minPtr = (takeCount scm a.ptr r.minPtr).hollow a.ptr := by
  obtain ⟨hmin, -⟩ := Stored.min h.2.2 hr
  have ha : a.ptr ∈ (node a d c i l r).pointers := ptr_mem_pointers _
  have ha0 := a.ptr_ne_zero
  have hS := pointers_of_packed hpack hspace ha ha0
  have htemp : r.minPtr ∈ (node a d c i l r).pointers :=
    mem_pointers_node.mpr (.inr (.inr r.minPtr_mem_pointers))
  have htemp0 := minPtr_ne_zero hr
  have hnull : set scm.mem a.ptr .item ((none : Option ℕ).getD 0) = hollow a.ptr scm.mem := rfl
  have hfree := scmFree_hollow (a := a) (b := a.strBlock i)
    { scm with mem := set scm.mem a.ptr .count (get scm.mem r.minPtr .count) }
    (Nat.le_add_right _ _) (apart_node hpack).1 (hpack.start _ List.mem_cons_self)
  rw [show (a.strBlock i).start + 2 + 8 = a.strPtr from rfl, Scm.hollow] at hfree
  rw [takeOver, hmin, scmStrdup_of_not_fits hfull, takeCount, h.1.item]
  simp only [hnull]
  rw [get_hollow hS htemp htemp0 (by decide), set_hollow hS ha ha0 (by decide), hfree]
  simp only [Scm.hollow]
  rw [set_hollow hS htemp htemp0 (by decide)]

end TakeOver

/-! ## Removal -/

section Removal

variable {n lo hi z : ℕ} {m m' : Mem} {scm : Scm} {t l l' r r' : Tree Place} {a : Place} {d : ℤ}
  {c : ℕ} {i x y : CString} {res hat : ℕ × Scm} {W : List Span}

/-- A change outside of the node without an item is one of the memory with its item, too. -/
lemma exists_hollow (h : Mem.AgreesOutside W (hollow a.ptr m) m')
    (hW : ∀ s ∈ W, s.Disjoint a.nodeBlock) :
    ∃ m₁, m' = hollow a.ptr m₁ ∧ Mem.AgreesOutside W m m₁ := by
  refine ⟨fun x => if x ∈ a.nodeBlock then m x else m' x, ?_, fun x hx => ?_⟩
  · funext x
    by_cases hmem : x ∈ a.nodeBlock
    · rw [h.eq_of_disjoint hW hmem]
      exact hollow_congr (if_pos hmem).symm
    · rw [hollow_agrees a _ x (by simpa using hmem), if_neg hmem]
  · by_cases hmem : x ∈ a.nodeBlock
    · exact if_pos hmem
    · have hnode := hollow_agrees a m x (by simpa using hmem)
      simp only [if_neg hmem]
      rw [h x hx, hnode]

/-- A removal that could not duplicate the string: the call is one that turns the tree into `t'`,
except that the item of the node `z` of this tree is null. -/
structure Hollows (scm : Scm) (t t' : Tree Place) (z : ℕ) (res hat : ℕ × Scm) : Prop where
  eq : res = (hat.1, hat.2.hollow z)
  changes : Changes (counterSpan :: t.blocks) scm t' hat
  mem : z ∈ t'.pointers
  ne_zero : z ≠ 0
  blocks : t'.blocks.Subperm t.blocks
  shrunk : Shrunk t t'

lemma finish_hollow (scm : Scm) (hspace : hi ≤ 2 ^ 64) (h : (node a d c i l r).Stored n scm.mem)
    (hpack : Span.Packed lo hi (node a d c i l r).blocks) (hl : l.Balanced) (hr : r.Balanced)
    (hlsh : l.Shallow 3) (hrsh : r.Shallow 3) (hz : z ∈ (node a d c i l r).pointers)
    (hz0 : z ≠ 0) :
    finish (scm.hollow z) a.ptr = ((finish scm a.ptr).1, (finish scm a.ptr).2.hollow z) := by
  have hreb := rebalance_hollow hspace h hpack hl hr hlsh hrsh hz hz0
  simp only [finish, Scm.hollow, hreb]

lemma pointers_rebalance (t : Tree Place) : t.rebalance.pointers = t.pointers :=
  pointers_of_nodes (nodes_rebalance t)

/-- **The case of `remove_node` for a smaller item**, after the recursive call. -/
lemma Hollows.left (hspace : virtAddr + scm.capacity ≤ 2 ^ 64)
    (h : (node a d c i l r).Stored scm.capacity scm.mem) (hbal : (node a d c i l r).Balanced)
    (hshallow : (node a d c i l r).Shallow 3)
    (hpack : Span.Packed addr (virtAddr + scm.capacity) (node a d c i l r).blocks)
    (hl : Hollows scm l l' z res hat) :
    Hollows scm (node a d c i l r) (Tree.rebalance (node a d c i l' r)) z
      (finish { res.2 with mem := set res.2.mem a.ptr .left res.1 } a.ptr)
      (finish { hat.2 with mem := set hat.2.mem a.ptr .left hat.1 } a.ptr) := by
  obtain ⟨rfl, hchanges, hz, hz0, hblocks, hshrunk⟩ := hl
  have hpack₀ : Span.Packed addr (virtAddr + scm.capacity)
      ([] ++ (node a d c i l r).blocks) := hpack
  have hremove := remove_left hspace h hbal hshallow hpack₀ hchanges hblocks hshrunk
  obtain ⟨hsub, hrelinked⟩ := relinked_left hspace h hpack₀ hchanges hblocks
  have hpack' := hpack.subperm hsub
  have hz' : z ∈ (node a d c i l' r).pointers := mem_pointers_node.mpr (.inr (.inl hz))
  have hS := pointers_of_packed hpack' hspace hz' hz0
  have ha : a.ptr ∈ (node a d c i l' r).pointers := ptr_mem_pointers _
  obtain ⟨hlsh, hrsh⟩ := hshallow.children hbal
  obtain ⟨-, -, -, hrbal⟩ := Balanced.node_iff.mp hbal
  have hfinish := finish_hollow { hat.2 with mem := set hat.2.mem a.ptr .left hat.1 }
    hspace hrelinked.stored hpack' hshrunk.1 hrbal ((hlsh.mono (by decide)).shrunk hshrunk)
    (hrsh.mono (by decide)) hz' hz0
  refine ⟨?_, hremove, ?_, hz0, (blocks_rebalance _).subperm.trans hsub,
    shrunk_rebalance_left hbal hshrunk⟩
  · rw [← hfinish]
    simp only [Scm.hollow]
    rw [set_hollow hS ha a.ptr_ne_zero (by decide)]
  · rwa [pointers_rebalance]

/-- A node without an item gets another right child, or one in the tree of this child. -/
lemma hollows_relink_right (hspace : virtAddr + scm.capacity ≤ 2 ^ 64)
    (h : (node a d c i l r).Stored scm.capacity scm.mem) (hbal : (node a d c i l r).Balanced)
    (hshallow : (node a d c i l r).Shallow 3)
    (hpack : Span.Packed addr (virtAddr + scm.capacity) (node a d c i l r).blocks)
    (hchanges : Changes (counterSpan :: r.blocks) scm r' hat) (hblocks : r'.blocks.Subperm r.blocks)
    (hshrunk : Shrunk r r') (hz : z ∈ (node a d c i l r').pointers) (hz0 : z ≠ 0) :
    Hollows scm (node a d c i l r) (Tree.rebalance (node a d c i l r')) z
      (finish { hat.2 with mem := set (hollow z hat.2.mem) a.ptr .right hat.1 } a.ptr)
      (finish { hat.2 with mem := set hat.2.mem a.ptr .right hat.1 } a.ptr) := by
  have hpack₀ : Span.Packed addr (virtAddr + scm.capacity)
      ([] ++ (node a d c i l r).blocks) := hpack
  have hremove := remove_right hspace h hbal hshallow hpack₀ hchanges hblocks hshrunk
  obtain ⟨hsub, hrelinked⟩ := relinked_right hspace h hpack₀ hchanges hblocks
  have hpack' := hpack.subperm hsub
  have hS := pointers_of_packed hpack' hspace hz hz0
  have ha : a.ptr ∈ (node a d c i l r').pointers := ptr_mem_pointers _
  obtain ⟨hlsh, hrsh⟩ := hshallow.children hbal
  obtain ⟨-, -, hlbal, -⟩ := Balanced.node_iff.mp hbal
  have hfinish := finish_hollow { hat.2 with mem := set hat.2.mem a.ptr .right hat.1 }
    hspace hrelinked.stored hpack' hlbal hshrunk.1 (hlsh.mono (by decide))
    ((hrsh.mono (by decide)).shrunk hshrunk) hz hz0
  refine ⟨?_, hremove, ?_, hz0, (blocks_rebalance _).subperm.trans hsub,
    shrunk_rebalance_right hbal hshrunk⟩
  · rw [← hfinish]
    simp only [Scm.hollow]
    rw [set_hollow hS ha a.ptr_ne_zero (by decide)]
  · rwa [pointers_rebalance]

/-- **The case of `remove_node` for a larger item**, after the recursive call. -/
lemma Hollows.right (hspace : virtAddr + scm.capacity ≤ 2 ^ 64)
    (h : (node a d c i l r).Stored scm.capacity scm.mem) (hbal : (node a d c i l r).Balanced)
    (hshallow : (node a d c i l r).Shallow 3)
    (hpack : Span.Packed addr (virtAddr + scm.capacity) (node a d c i l r).blocks)
    (hr : Hollows scm r r' z res hat) :
    Hollows scm (node a d c i l r) (Tree.rebalance (node a d c i l r')) z
      (finish { res.2 with mem := set res.2.mem a.ptr .right res.1 } a.ptr)
      (finish { hat.2 with mem := set hat.2.mem a.ptr .right hat.1 } a.ptr) := by
  obtain ⟨rfl, hchanges, hz, hz0, hblocks, hshrunk⟩ := hr
  exact hollows_relink_right hspace h hbal hshallow hpack hchanges hblocks hshrunk
    (mem_pointers_node.mpr (.inr (.inr hz))) hz0

/-- **The case of `remove_node` for a node with two children**, after the call that removes the next
larger node. -/
lemma hollows_successor (hspace : virtAddr + scm.capacity ≤ 2 ^ 64)
    (h : (node a d c i l r).Stored scm.capacity scm.mem) (hr : r ≠ nil)
    (hsorted : Sorted r.traverse) (hbal : (node a d c i l r).Balanced)
    (hshallow : (node a d c i l r).Shallow 3)
    (hpack : Span.Packed addr (virtAddr + scm.capacity) (node a d c i l r).blocks)
    (hfull : ¬ scm.Fits (r.findMin.1.strlen + 1))
    (hres : Changes (counterSpan :: r.blocks) (takeOver scm a.ptr r.minPtr)
      (Tree.removeNode scm.redup r.setMinCount r.findMin.1 true) res) :
    ∃ t' hat, Hollows scm (node a d c i l r) t' a.ptr
      (finish { res.2 with mem := set res.2.mem a.ptr .right res.1 } a.ptr) hat := by
  have htake := takeCount_stored h hr hpack
  rw [takeOver_of_not_fits hspace h hr hpack hfull] at hres
  have hcap : (takeCount scm a.ptr r.minPtr).capacity = scm.capacity := htake.capacity
  have hstored := htake.stored
  have hframe := htake.frame
  dsimp only at hstored hframe
  rw [← hcap] at hstored hspace hpack
  generalize takeCount scm a.ptr r.minPtr = scm₁ at hres hcap hstored hframe hspace hpack
  -- the removal of the next larger node
  have hnone := duplicated_setMinCount r hsorted true
  have hsub := blocks_removeNode scm scm.redup r.setMinCount r.findMin.1 true
    (sorted_setMinCount hsorted) fun h => absurd hnone h
  rw [removeBlocks, hnone] at hsub
  have hshrunk := balanced_removeNode scm.redup r.findMin.1 true r.setMinCount
    (balanced_setMinCount (Balanced.node_iff.mp hbal).2.2.2).1
  generalize Tree.removeNode scm.redup r.setMinCount r.findMin.1 true = r' at hres hsub hshrunk
  -- the memory with the item of the node
  have hnode := (apart_node hpack).2.2
  have hapart : ∀ s ∈ counterSpan :: r.blocks, s.Disjoint a.nodeBlock :=
    List.forall_mem_cons.mpr ⟨counterSpan_disjoint (hpack.start _ List.mem_cons_self),
      fun s hs => (hnode s hs).symm⟩
  obtain ⟨m₁, hm₁, hframe₁⟩ := exists_hollow (a := a) (m := scm₁.mem) hres.frame hapart
  have hback : Mem.AgreesOutside [a.nodeBlock] res.2.mem m₁ := fun x hx => by
    rw [hm₁]
    exact (hollow_agrees a m₁ x hx).symm
  have hchanges : Changes (counterSpan :: r.setMinCount.blocks) scm₁ r'
      (res.1, { res.2 with mem := m₁ }) := by
    rw [blocks_setMinCount]
    refine ⟨hres.ptr, hres.capacity, hres.stored.frame_blocks hback ?_, hframe₁⟩
    refine List.forall_mem_singleton.mpr fun b hb => hnode b ?_
    rw [← blocks_setMinCount r]
    exact hsub.subset hb
  have hpack' : Span.Packed addr (virtAddr + scm₁.capacity)
      (node a d r.findMin.2 i l r.setMinCount).blocks := by
    rwa [blocks_node, blocks_setMinCount, ← blocks_node]
  have hrelink := hollows_relink_right hspace hstored
    (balanced_setMinCount_right a r.findMin.2 i hbal) hshallow hpack' hchanges hsub hshrunk
    (ptr_mem_pointers _) a.ptr_ne_zero
  refine ⟨_, _, ?_, ⟨hrelink.changes.ptr, hrelink.changes.capacity.trans hcap, ?_, ?_⟩,
    hrelink.mem, a.ptr_ne_zero, ?_, hrelink.shrunk⟩
  · rw [hm₁]
    exact hrelink.eq
  · rw [← hcap]
    exact hrelink.changes.stored
  · have hlast := hrelink.changes.frame
    rw [blocks_node, blocks_setMinCount, ← blocks_node] at hlast
    exact hframe.trans hlast
  · have hlast := hrelink.blocks
    rwa [blocks_node, blocks_setMinCount, ← blocks_node] at hlast

/-- The call that removes the next larger node, if its string could not be duplicated. -/
lemma removeNode_successor (hspace : virtAddr + scm.capacity ≤ 2 ^ 64)
    (h : (node a d c i l r).Stored scm.capacity scm.mem) (hr : r ≠ nil)
    (hsorted : Sorted r.traverse) (hbal : (node a d c i l r).Balanced)
    (hshallow : (node a d c i l r).Shallow 3)
    (hpack : Span.Packed addr (virtAddr + scm.capacity) (node a d c i l r).blocks)
    (hfull : ¬ scm.Fits (r.findMin.1.strlen + 1)) {fuel : ℕ} (hfuel : r.size < fuel) :
    get (takeOver scm a.ptr r.minPtr).mem a.ptr .right = r.ptr ∧
      strAt (takeOver scm a.ptr r.minPtr).capacity (takeOver scm a.ptr r.minPtr).mem
        (get (takeOver scm a.ptr r.minPtr).mem r.minPtr .item) = r.findMin.1 ∧
      ∃ res, Heap.removeNode fuel (takeOver scm a.ptr r.minPtr) r.ptr r.findMin.1 true = some res ∧
        Changes (counterSpan :: r.blocks) (takeOver scm a.ptr r.minPtr)
          (Tree.removeNode scm.redup r.setMinCount r.findMin.1 true) res := by
  have htake := takeCount_stored h hr hpack
  rw [takeOver_of_not_fits hspace h hr hpack hfull]
  have hcap : (takeCount scm a.ptr r.minPtr).capacity = scm.capacity := htake.capacity
  have hstored := htake.stored
  dsimp only at hstored
  rw [← hcap] at hstored hspace hpack
  generalize takeCount scm a.ptr r.minPtr = scm₁ at hcap hstored hspace hpack ⊢
  have hS := pointers_of_packed hpack hspace (ptr_mem_pointers _) a.ptr_ne_zero
  obtain ⟨hmin, hdelta⟩ := balanced_setMinCount (Balanced.node_iff.mp hbal).2.2.2
  have hright : r.setMinCount.Stored (scm₁.hollow a.ptr).capacity (scm₁.hollow a.ptr).mem := by
    refine hstored.2.2.frame_blocks (hollow_agrees a scm₁.mem) (List.forall_mem_singleton.mpr ?_)
    rw [blocks_setMinCount]
    exact (apart_node hpack).2.2
  have hne : r.setMinCount ≠ nil := by
    rw [ne_eq, ← ptr_eq_zero_iff, ptr_setMinCount, ptr_eq_zero_iff]
    exact hr
  have hnone := duplicated_setMinCount r hsorted true
  have hblocks : r.setMinCount.removeBlocks (scm₁.hollow a.ptr) r.findMin.1 true ++
      r.setMinCount.blocks = r.blocks := by
    rw [removeBlocks, hnone, blocks_setMinCount]
    rfl
  have hpackr : Span.Packed addr (virtAddr + scm₁.capacity) r.blocks := hpack.of_count fun b => by
    rw [count_blocks_node]
    omega
  refine ⟨?_, ?_, ?_⟩
  · have hlink := hstored.1.right
    rw [ptr_setMinCount] at hlink
    exact (get_hollow hS (ptr_mem_pointers _) a.ptr_ne_zero (by decide)).trans hlink
  · obtain ⟨hitem, -⟩ := Stored.min hright hne
    rwa [minPtr_setMinCount, findMin_setMinCount] at hitem
  · have hspace' : virtAddr + (scm₁.hollow a.ptr).capacity ≤ 2 ^ 64 := hspace
    have hremove := removeNode_stored scm.redup r.setMinCount r.findMin.1 true hspace' hright
      (sorted_setMinCount hsorted) hmin
      (by rw [Shallow, hdelta]; exact (hshallow.children hbal).2.mono (by decide))
      (by rwa [size_setMinCount] : r.setMinCount.size < fuel) (fun h => absurd hnone h)
      (by rwa [hblocks])
    rwa [hblocks, ptr_setMinCount] at hremove

/-- **`remove_node` without room for the string that it duplicates** leaves a node without an item
in the tree.

**Proof sketch.** Induction on the tree, along the search for the item. Apart from the null pointer
in place of its item, the node that is found is treated as one whose string was duplicated: neither
the removal of the next larger node nor the rebalancing of the nodes above reads this item. -/
theorem removeNode_hollow (t : Tree Place) (x : CString) (flag : Bool)
    (hspace : virtAddr + scm.capacity ≤ 2 ^ 64) (h : t.Stored scm.capacity scm.mem)
    (hsorted : Sorted t.traverse) (hbal : t.Balanced) (hshallow : t.Shallow 3) {fuel : ℕ}
    (hfuel : t.size < fuel) (hdup : t.duplicated x flag = some y)
    (hfull : ¬ scm.Fits (y.strlen + 1))
    (hpack : Span.Packed addr (virtAddr + scm.capacity) t.blocks) :
    ∃ res t' z hat, Heap.removeNode fuel scm t.ptr x flag = some res ∧
      Hollows scm t t' z res hat := by
  induction t generalizing flag fuel with
  | nil => exact absurd hdup (Option.some_ne_none y).symm
  | node a d c i l r ihl ihr =>
    obtain ⟨fuel, rfl⟩ : ∃ k, fuel = k + 1 := ⟨fuel - 1, by omega⟩
    obtain ⟨hl, hr, -, -⟩ := sorted_append_cons.mp hsorted
    obtain ⟨-, -, hlbal, hrbal⟩ := Balanced.node_iff.mp hbal
    obtain ⟨hlsh, hrsh⟩ := hshallow.children hbal
    rw [size] at hfuel
    rw [duplicated] at hdup
    by_cases hlt : CString.strcmp x i < 0
    · rw [if_pos hlt] at hdup
      obtain ⟨⟨left, scm'⟩, l', z, hat, hres, hhollow⟩ := ihl false h.2.1 hl hlbal
        (hlsh.mono (by decide)) (by omega : l.size < fuel) hdup (hpack.of_count fun b => by
          rw [count_blocks_node]
          omega)
      have hleft := hhollow.left hspace h hbal hshallow hpack
      simp only [Heap.removeNode, ptr_node, if_neg a.ptr_ne_zero, h.1.strAt, if_pos hlt, h.1.left,
        hres]
      exact ⟨_, _, _, _, rfl, hleft⟩
    rw [if_neg hlt] at hdup
    by_cases hgt : CString.strcmp x i > 0
    · rw [if_pos hgt] at hdup
      obtain ⟨⟨right, scm'⟩, r', z, hat, hres, hhollow⟩ := ihr false h.2.2 hr hrbal
        (hrsh.mono (by decide)) (by omega : r.size < fuel) hdup (hpack.of_count fun b => by
          rw [count_blocks_node]
          omega)
      have hright := hhollow.right hspace h hbal hshallow hpack
      simp only [Heap.removeNode, ptr_node, if_neg a.ptr_ne_zero, h.1.strAt, if_neg hlt, if_pos hgt,
        h.1.right, hres]
      exact ⟨_, _, _, _, rfl, hright⟩
    -- the node of the item, whose string was to be replaced
    rw [if_neg hgt] at hdup
    by_cases hc : c > 1 ∧ flag = false
    · rw [if_pos hc] at hdup
      exact absurd hdup (Option.some_ne_none y).symm
    rw [if_neg hc] at hdup
    by_cases hchild : l.size = 0 ∨ r.size = 0
    · rw [if_pos hchild] at hdup
      exact absurd hdup (Option.some_ne_none y).symm
    rw [if_neg hchild] at hdup
    obtain rfl : r.findMin.1 = y := Option.some.inj hdup
    have hl0 : l.ptr ≠ 0 := fun h0 => hchild (.inl (by rw [ptr_eq_zero_iff.mp h0, size]))
    have hr0 : r.ptr ≠ 0 := fun h0 => hchild (.inr (by rw [ptr_eq_zero_iff.mp h0, size]))
    have hne : r ≠ nil := fun h0 => hr0 (ptr_eq_zero_iff.mpr h0)
    obtain ⟨hright, hitem, res, hres, hchanges⟩ := removeNode_successor hspace h hne hr hbal
      hshallow hpack hfull (by omega : r.size < fuel)
    obtain ⟨t', hat, hhollow⟩ := hollows_successor hspace h hne hr hbal hshallow hpack hfull
      hchanges
    simp only [Heap.removeNode, ptr_node, if_neg a.ptr_ne_zero, h.1.strAt, if_neg hlt, if_neg hgt,
      h.1.count, if_neg hc, h.1.left, h.1.right, hl0, hr0, or_self, if_false,
      Stored.findMin h.2.2 hne (by omega : r.size ≤ fuel), hitem, hright, hres]
    exact ⟨_, _, _, _, rfl, hhollow⟩

end Removal

/-! ## The public function -/

/-- The string that `remove_node` passes to `scm_strdup`, if it gets there. -/
def Heap.duplicated (n : ℕ) (m : Mem) : ℕ → ℕ → CString → Bool → Option CString
  | 0, _, _, _ => none
  | fuel + 1, root, item, flag =>
    if root = 0 then none
    else
      let d := CString.strcmp item (strAt n m (get m root .item))
      if d < 0 then Heap.duplicated n m fuel (get m root .left) item false
      else if d > 0 then Heap.duplicated n m fuel (get m root .right) item false
      else if get m root .count > 1 ∧ flag = false then none
      else if get m root .left = 0 ∨ get m root .right = 0 then none
      else (findMin m fuel (get m root .right)).map fun temp => strAt n m (get m temp .item)

section AvlRemove

variable {n z : ℕ} {m m₁ : Mem} {scm scm' : Scm} {avl : Avl Place} {t : Tree Place} {x y : CString}
  {ms : Multiset CString} {f : StateField} {v : ℕ}

/-- The string that is duplicated in a stored tree. -/
lemma Tree.Stored.duplicated (h : t.Stored n m) (flag : Bool) {fuel : ℕ} (hfuel : t.size < fuel) :
    Heap.duplicated n m fuel t.ptr x flag = t.duplicated x flag := by
  induction t generalizing flag fuel with
  | nil =>
    obtain ⟨fuel, rfl⟩ : ∃ k, fuel = k + 1 := ⟨fuel - 1, by omega⟩
    rfl
  | node a d c i l r ihl ihr =>
    obtain ⟨fuel, rfl⟩ : ∃ k, fuel = k + 1 := ⟨fuel - 1, by omega⟩
    obtain ⟨ha, hl, hr⟩ := h
    have hsize (t : Tree Place) : t.ptr = 0 ↔ t.size = 0 := by
      rw [ptr_eq_zero_iff]
      cases t <;> simp [size]
    rw [size] at hfuel
    simp only [Heap.duplicated, ptr_node, if_neg a.ptr_ne_zero, ha.strAt, ha.count, ha.left,
      ha.right, ihl hl false (by omega : l.size < fuel), ihr hr false (by omega : r.size < fuel),
      hsize, Tree.duplicated]
    split_ifs with hlt hgt hc hchild
    · rfl
    · rfl
    · rfl
    · rfl
    · have hne : r ≠ nil := by
        rintro rfl
        exact hchild (.inr rfl)
      rw [hr.findMin hne (by omega : r.size ≤ fuel), Option.map_some, (hr.min hne).1]

/-- A region with the state and a tree, one of whose nodes has no item. -/
structure HollowTree (scm : Scm) (t : Tree Place) (z : ℕ) (m : Mem) : Prop where
  space : virtAddr + scm.capacity ≤ 2 ^ 64
  eq : scm.mem = hollow z m
  stored : t.Stored scm.capacity m
  mem : z ∈ t.pointers
  ne_zero : z ≠ 0
  packed : Span.Packed addr (virtAddr + scm.capacity) (stateBlock :: t.blocks)

/-- Stores into the state keep the tree. -/
lemma HollowTree.setState (h : HollowTree scm t z m) (f : StateField) (v : ℕ) :
    HollowTree { scm with mem := stateLayout.set scm.mem scmMbase f v } t z
      (stateLayout.set m scmMbase f v) := by
  obtain ⟨⟨-, -, hstate⟩, hblocks⟩ := Span.packed_cons.mp h.packed
  refine ⟨h.space, ?_, ?_, h.mem, h.ne_zero, h.packed⟩
  · obtain ⟨a, rfl, ha⟩ := exists_nodeBlock h.mem h.ne_zero
    simp only [h.eq]
    refine Mem.setWord_comm ((hstate _ ha).symm.mono (item_within a) ?_)
    exact ⟨stateSpan_within.1.trans stateLayout.field_within.1,
      stateLayout.field_within.2.trans stateSpan_within.2⟩
  · exact h.stored.frame_blocks (set_state_agrees m f v) (List.forall_mem_singleton.mpr hstate)

/-- The node without an item is linked. -/
lemma HollowTree.linked (h : HollowTree scm t z m) :
    Linked scm.mem t.ptr z ∧ get scm.mem z .item = 0 := by
  have hS := pointers_of_packed (Span.packed_cons.mp h.packed).2 h.space h.mem h.ne_zero
  rw [h.eq]
  exact ⟨h.stored.linked hS (Set.Subset.refl _) h.mem, RecordLayout.get_set_self (by decide)⟩

/-- **`avl_remove` without room for the string that it duplicates** leaves a node without an item.-/
theorem avlRemove_hollow (h : Owns scm avl) (hm : Represents avl ms) (hx : x ∈ ms)
    (hdup : avl.root.duplicated x false = some y) (hfull : ¬ scm.Fits (y.strlen + 1)) {code : ℤ}
    (hres : Heap.avlRemove scm x = some (code, scm')) :
    ∃ z, Linked scm'.mem (Heap.stateGet scm' .root) z ∧ get scm'.mem z .item = 0 := by
  have h0 : avl.root.lookup x ≠ 0 := by
    rw [hm.lookup]
    exact Multiset.count_ne_zero.mpr hx
  obtain ⟨hstate, hblocks⟩ := Span.packed_cons.mp h.packed
  obtain ⟨res, t', z, hat, hremove, rfl, hchanges, hz, hz0, hsub, -⟩ := removeNode_hollow avl.root x
    false h.space h.stored hm.valid.sorted hm.valid.balanced
    ((h.shallow hm.valid.balanced).mono (by decide)) h.size_lt hdup hfull hblocks
  have hpack : Span.Packed addr (virtAddr + scm.capacity) (stateBlock :: t'.blocks) :=
    h.packed.of_count fun b => by
      simp only [List.count_cons]
      exact Nat.add_le_add_right (List.subperm_iff_count.mp hsub b) _
  have hlt : t'.ptr < 2 ^ 64 := Tree.ptr_lt (Span.packed_cons.mp hpack).2 h.space
  have hcap : hat.2.capacity = scm.capacity := hchanges.capacity
  have hspace := h.space
  have hstored := hchanges.stored
  rw [← hcap] at hstored hpack hspace
  have htree : HollowTree (hat.2.hollow z) t' z hat.2.mem :=
    ⟨hspace, rfl, hstored, hz, hz0, hpack⟩
  simp only [Heap.avlRemove, h.avlExists, if_neg h0, h.root, hremove, hchanges.ptr] at hres
  have h₂ := (htree.setState .items
    (stateLayout.get (hat.2.hollow z).mem scmMbase .items + 2 ^ 64 - 1)).setState .root t'.ptr
  have hroot : Heap.stateGet (setRoot { hat.2.hollow z with
      mem := decrement (hat.2.hollow z).mem .items } t'.ptr) .root = t'.ptr :=
    RecordLayout.get_set_self hlt
  replace h₂ : HollowTree (setRoot { hat.2.hollow z with
      mem := decrement (hat.2.hollow z).mem .items } t'.ptr) t' z _ := h₂
  generalize setRoot { hat.2.hollow z with
    mem := decrement (hat.2.hollow z).mem .items } t'.ptr = scm₂ at hres h₂ hroot
  -- whatever the search for the item returns
  cases hexists : Heap.avlExists scm₂ x with
  | none =>
    rw [hexists] at hres
    exact absurd hres (Option.some_ne_none _).symm
  | some count =>
    rw [hexists] at hres
    dsimp only at hres
    split at hres
    · obtain ⟨-, rfl⟩ := Prod.mk.inj (Option.some.inj hres)
      have h₃ := h₂.setState .unique (stateLayout.get scm₂.mem scmMbase .unique + 2 ^ 64 - 1)
      have hroot₃ : Heap.stateGet { scm₂ with mem := decrement scm₂.mem .unique } .root = t'.ptr :=
        (RecordLayout.get_set_of_ne (by decide)).trans hroot
      rw [hroot₃]
      exact ⟨z, h₃.linked⟩
    · obtain ⟨-, rfl⟩ := Prod.mk.inj (Option.some.inj hres)
      rw [hroot]
      exact ⟨z, h₂.linked⟩

end AvlRemove

/-! ## Every run -/

namespace Session

/-- The item of the node is a string, and its block is not released. -/
def ItemInUse (m : Mem) (p : ℕ) : Prop :=
  get m p .item ≠ 0 ∧ m.word (get m p .item - 2 - 8) 2 ≠ 0

/-- The item is there once less, and all others are there as often as before. -/
def RemovesOne (scm scm' : Scm) (x : CString) : Prop :=
  ∀ y, ∃ k, Heap.avlExists scm y = some k ∧
    Heap.avlExists scm' y = some (if y = x then k - 1 else k)

/-- `avl_remove` returns and leaves no node whose item is null or released, and it removes one
occurrence of the item and nothing else, or it reports an error and keeps the tree and its
counters. -/
def SafeRemoval (s : Session) (item : Word) : Prop :=
  ∃ code scm', Heap.avlRemove s.scm item.1 = some (code, scm') ∧
    (∀ p, Linked scm'.mem (Heap.stateGet scm' .root) p → ItemInUse scm'.mem p) ∧
    (RemovesOne s.scm scm' item.1 ∨
      code ≠ 0 ∧ linkedTree scm' = linkedTree s.scm ∧
        Heap.stateGet scm' .items = Heap.stateGet s.scm .items ∧
        Heap.stateGet scm' .unique = Heap.stateGet s.scm .unique)

/-- The call of `scm_strdup` by the removal returns null. -/
def DuplicateFails (s : Session) (item : Word) : Prop :=
  ∃ y, Heap.duplicated s.scm.capacity s.scm.mem (fuelOf s.scm) (Heap.stateGet s.scm .root) item.1
    false = some y ∧ (scmStrdup s.scm y).1 = none

instance (s : Session) (item : Word) : Decidable (s.DuplicateFails item) :=
  decidable_of_iff (∃ y ∈ Heap.duplicated s.scm.capacity s.scm.mem (fuelOf s.scm)
    (Heap.stateGet s.scm .root) item.1 false, (scmStrdup s.scm y).1 = none) Iff.rfl

/-- If the item is there once and its node has two children, the region has room for another copy
of the next larger item. -/
def DuplicateFits (s : Session) (item : Word) : Prop :=
  ∀ t ∈ linkedTree s.scm, ∀ y ∈ t.duplicated item.1 false, s.scm.Fits (y.strlen + 1)

variable {s : Session} {avl : Avl Place} {m : Multiset CString} {item : Word}

lemma scmStrdup_eq_none_iff {scm : Scm} {y : CString} :
    (scmStrdup scm y).1 = none ↔ ¬ scm.Fits (y.strlen + 1) := by
  by_cases hfits : scm.Fits (y.strlen + 1)
  · simp [scmStrdup_of_fits hfits, hfits]
  · simp [scmStrdup_of_not_fits hfits, hfits]

/-- The call of `scm_strdup` fails exactly if there is no room. -/
lemma duplicateFails_iff (h : Owns s.scm avl) : s.DuplicateFails item ↔ ¬ s.DuplicateFits item := by
  rw [DuplicateFails, h.root, h.stored.duplicated false h.size_lt, DuplicateFits, h.linkedTree]
  simp [scmStrdup_eq_none_iff]

/-- **One removal.** -/
theorem safe_iff (h : Owns s.scm avl) (hm : Represents avl m) (hx : item.1 ∈ m) :
    (s.DuplicateFails item → s.SafeRemoval item) ↔ s.DuplicateFits item := by
  constructor
  · intro hsafe
    by_contra hfits
    obtain ⟨code, scm', hres, hitems, -⟩ := hsafe ((duplicateFails_iff h).mpr hfits)
    obtain ⟨y, hdup, hnone⟩ := (duplicateFails_iff h).mpr hfits
    rw [h.root, h.stored.duplicated false h.size_lt] at hdup
    obtain ⟨z, hlinked, hnull⟩ := avlRemove_hollow h hm hx hdup (scmStrdup_eq_none_iff.mp hnone)
      hres
    exact (hitems z hlinked).1 hnull
  · intro hfits hfails
    exact absurd hfits ((duplicateFails_iff h).mp hfails)

/-- **When a removal is safe on a full region.** Take any state that is reached by calls whose
granted blocks are free and end inside the mapping, and any item that is there. That the removal is
safe if its `scm_strdup` returns null holds if and only if this `scm_strdup` does not return null:
if the item is there more than once, or its node has at most one child, or there is room for another
copy of the next larger item.

**Proof sketch.** Where the node of the item has two children, the null pointer that `scm_strdup`
returns becomes its item. The removal of the next larger node and the rebalancing do not look at
this item, so the node stays linked. -/
theorem safe_iff_duplicateFits (file : Mem) (capacity : ℕ) (hfits : 8 + stateBlock.len ≤ capacity)
    (hspace : virtAddr + capacity ≤ 2 ^ 64) :
    ∃ s, start file capacity = some s ∧ ∀ ops, Always Session.step Undisturbed s ops →
      ∃ s', run Session.step s ops = some s' ∧ ∀ item, Heap.avlExists s'.scm item.1 ≠ some 0 →
        ((s'.DuplicateFails item → s'.SafeRemoval item) ↔ s'.DuplicateFits item) := by
  obtain ⟨s, hs, howned⟩ := start_owned file hfits hspace
  refine ⟨s, hs, fun ops hops => ?_⟩
  obtain ⟨s', hrun, avl, m, howns, hm⟩ :=
    progress_run (fun _ _ h hop => Owned.step h hop) howned hops
  refine ⟨s', hrun, fun item hitem => safe_iff howns hm ?_⟩
  rw [howns.avlExists, hm.lookup] at hitem
  exact Multiset.count_ne_zero.mp fun h0 => hitem (congrArg some h0)

/-- The removal of an item whose node has two children, in a region of 230 bytes without room for
another copy of the next larger item. -/
theorem safe_iff_duplicateFits_two :
    ∃ s s', start (fun _ => 0) 230 = some s ∧
      run Session.step s [.insert (letter 98 (by decide)), .insert (letter 97 (by decide)),
        .insert (letter 99 (by decide))] = some s' ∧
      s'.DuplicateFails (letter 98 (by decide)) ∧
      ((s'.DuplicateFails (letter 98 (by decide)) → s'.SafeRemoval (letter 98 (by decide))) ↔
        s'.DuplicateFits (letter 98 (by decide))) := by
  obtain ⟨s, hs, hsafe⟩ :=
    safe_iff_duplicateFits (fun _ => 0) 230 (by decide) (by decide +kernel)
  have hstart : ∀ s ∈ start (fun _ => 0) 230, Always Session.step Undisturbed s
      [.insert (letter 98 (by decide)), .insert (letter 97 (by decide)),
        .insert (letter 99 (by decide))] ∧
      ∀ s' ∈ run Session.step s [.insert (letter 98 (by decide)),
        .insert (letter 97 (by decide)), .insert (letter 99 (by decide))],
        Heap.avlExists s'.scm (letter 98 (by decide)).1 ≠ some 0 ∧
        s'.DuplicateFails (letter 98 (by decide)) := by decide +kernel
  obtain ⟨hops, hstate⟩ := hstart s hs
  obtain ⟨s', hrun, hiff⟩ := hsafe _ hops
  obtain ⟨hthere, hfails⟩ := hstate s' hrun
  exact ⟨s, s', hs, hrun, hfails, hiff _ hthere⟩

/-- In a region of 230 bytes with the items `a`, `b` and `c`, there is no room for another copy of
`c`, and the removal of `b` leaves a root without an item. -/
theorem full_remove_leaves_null :
    ¬ ∀ (capacity : ℕ) (s s' : Session) (ops : List StoreOp) (item : Word),
      start (fun _ => 0) capacity = some s → Always Session.step Undisturbed s ops →
      run Session.step s ops = some s' → Heap.avlExists s'.scm item.1 ≠ some 0 →
      s'.DuplicateFails item → s'.SafeRemoval item := by
  intro h
  have hrun : ((start (fun _ => 0) 230).bind fun s =>
      run Session.step s [.insert (letter 98 (by decide)), .insert (letter 97 (by decide)),
        .insert (letter 99 (by decide))]).map (fun s =>
        (Heap.avlExists s.scm (letter 98 (by decide)).1,
          (Heap.duplicated s.scm.capacity s.scm.mem (fuelOf s.scm) (Heap.stateGet s.scm .root)
            (letter 98 (by decide)).1 false).map fun y => (scmStrdup s.scm y).1,
          (Heap.avlRemove s.scm (letter 98 (by decide)).1).map fun res =>
            (decide (Heap.stateGet res.2 .root ≠ 0),
              get res.2.mem (Heap.stateGet res.2 .root) .item))) =
      some (some 1, some none, some (true, 0)) := by decide +kernel
  obtain ⟨s', hs', heq⟩ := Option.map_eq_some_iff.mp hrun
  obtain ⟨s, hs, hsteps⟩ := Option.bind_eq_some_iff.mp hs'
  simp only [Prod.mk.injEq] at heq
  obtain ⟨hexists, hdup, hremove⟩ := heq
  have hstart : ∀ s ∈ start (fun _ => 0) 230, Always Session.step Undisturbed s
      [.insert (letter 98 (by decide)), .insert (letter 97 (by decide)),
        .insert (letter 99 (by decide))] := by decide +kernel
  have hthere : Heap.avlExists s'.scm (letter 98 (by decide)).1 ≠ some 0 := by
    rw [hexists]
    decide
  obtain ⟨y, hy, hnone⟩ := Option.map_eq_some_iff.mp hdup
  obtain ⟨code, scm', hres, hitems, -⟩ := h 230 s s' _ (letter 98 (by decide)) hs (hstart s hs)
    hsteps hthere ⟨y, hy, hnone⟩
  obtain ⟨res, hres', hroot⟩ := Option.map_eq_some_iff.mp hremove
  obtain rfl := Option.some.inj (hres'.symm.trans hres)
  simp only [Prod.mk.injEq, decide_eq_true_eq] at hroot
  exact (hitems _ (.here hroot.1)).1 hroot.2

end Session

end Cs238p.P3
