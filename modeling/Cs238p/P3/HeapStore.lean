import Cs238p.Lib.Transition
import Cs238p.P3.AvlMultiset
import Cs238p.P3.HeapRemove

set_option relaxedAutoImplicit false
set_option autoImplicit false

/-!
# The AVL store on its allocator

A region holds the state of an AVL tree if the block of `struct state` and those of the tree lie
apart in it, and the fields of the state and of the tree are stored there. The public functions do
to such a region what the functions on trees do, as long as every block they allocate is free of
the blocks in use. The allocator does not see to that: `remove_node` releases blocks of the child
that it keeps, and `scm_free` moves the place of the next block down whatever block is released.

## Main definitions

* `Owns` — the region holds the state and the tree.
* `Session`, `Session.step` — sequences of calls, with their return values.
* `Session.Placed` — the blocks that the next call allocates are free.
* `Session.Faithful` — the store is the multiset of the items inserted and not removed.

## Main results

* `owns_insert`, `owns_remove`, `owns_reopen` — one call.
* `faithful_of_placed` — the store is faithful after every run all of whose blocks were placed.
* `not_faithful_reuse` — a run of four calls that overwrites a node.
-/

namespace Cs238p.P3

open SortedCounts Transition

variable {scm : Scm} {avl : Avl Place} {m : Multiset CString}

/-- The region holds the state and the tree. -/
structure Owns (scm : Scm) (avl : Avl Place) : Prop where
  space : virtAddr + scm.capacity ≤ 2 ^ 64
  counters : CountersAt scm.mem ⟨avl.items, avl.unique⟩
  root : Heap.stateGet scm .root = avl.root.ptr
  stored : avl.root.Stored scm.capacity scm.mem
  packed : Span.Packed addr (virtAddr + scm.capacity) (stateBlock :: avl.root.blocks)

/-! ## Bounds -/

/-- There is no more than one node for every byte of the region. -/
lemma Owns.size_lt (h : Owns scm avl) : avl.root.size < Heap.fuelOf scm := by
  have hlen := h.packed.length_le (fun b hb => by
    rcases List.mem_cons.mp hb with rfl | hb
    · decide
    · exact Nat.lt_of_le_of_lt (Nat.zero_le _) (Tree.le_len_of_mem_blocks hb))
  rw [List.length_cons, Tree.length_blocks, addr] at hlen
  rw [Heap.fuelOf]
  omega

/-- A balanced tree in the region is far from having depths that overflow. -/
lemma Owns.shallow (h : Owns scm avl) (hbal : avl.root.Balanced) : avl.root.Shallow 4 := by
  have hsize := h.size_lt
  have hspace := h.space
  have hfib := Tree.fib_le_length hbal
  rw [Tree.length_traverse] at hfib
  rw [Heap.fuelOf] at hsize
  have hlt : avl.root.delta < 100 := by
    by_contra hge
    have hmono : Nat.fib 100 ≤ Nat.fib (avl.root.delta + 3).toNat := Nat.fib_mono (by omega)
    have hfib100 : 2 ^ 64 + 1 < Nat.fib 100 := by decide +kernel
    omega
  exact ⟨hbal.neg_one_le_delta, by omega⟩

/-! ## Reading -/

/-- `avl_exists` searches the tree. -/
lemma Owns.avlExists (h : Owns scm avl) (x : CString) :
    Heap.avlExists scm x = some (avl.root.lookup x) := by
  rw [Heap.avlExists, h.root, h.stored.lookup h.size_lt]

/-- `avl_traverse` reports the in-order list. -/
lemma Owns.avlTraverse (h : Owns scm avl) :
    Heap.avlTraverse scm = some avl.root.traverse := by
  rw [Heap.avlTraverse, h.root, h.stored.traverse h.size_lt]

/-- The tree that is linked from the state, unless the pointers form a cycle. -/
def linkedTree (scm : Scm) : Option (Tree Place) :=
  Heap.decode scm.capacity scm.mem (Heap.fuelOf scm) (Heap.stateGet scm .root)

lemma Owns.linkedTree (h : Owns scm avl) : linkedTree scm = some avl.root := by
  rw [P3.linkedTree, h.root, h.stored.decode h.size_lt]

/-! ## One call -/

/-- The assignment to `avl->state->root` completes a region whose tree and counters are in place. -/
lemma owns_setRoot (scm' : Scm) (avl' : Avl Place) (hspace : virtAddr + scm.capacity ≤ 2 ^ 64)
    (hcap : scm'.capacity = scm.capacity) (hs : CountersAt scm'.mem ⟨avl'.items, avl'.unique⟩)
    (hstored : avl'.root.Stored scm.capacity scm'.mem)
    (hpack : Span.Packed addr (virtAddr + scm.capacity) (stateBlock :: avl'.root.blocks)) :
    Owns (Heap.setRoot scm' avl'.root.ptr) avl' := by
  obtain ⟨⟨-, -, hstate⟩, hblocks⟩ := Span.packed_cons.mp hpack
  have hframe := set_state_agrees scm'.mem .root avl'.root.ptr
  have hlt : avl'.root.ptr < 2 ^ 64 := Tree.ptr_lt hblocks hspace
  rw [← hcap] at hspace hpack hstored
  refine ⟨hspace, ⟨?_, ?_⟩, RecordLayout.get_set_self hlt, ?_, hpack⟩
  · exact (RecordLayout.get_set_of_ne (by decide)).trans hs.items
  · exact (RecordLayout.get_set_of_ne (by decide)).trans hs.unique
  · exact hstored.frame_blocks hframe (List.forall_mem_singleton.mpr hstate)

/-- An insertion leaves a node at the root. -/
lemma update_ne_nil (scm : Scm) (x : CString) (s : Tree.Counters) (t : Tree Place) :
    (Tree.update scm.fresh x s t).2 ≠ .nil := by
  intro hnil
  have hperm := (blocks_update scm x s t).length_eq
  rw [hnil, List.length_append] at hperm
  cases t with
  | nil => simp [Tree.blocks, Tree.insertBlocks] at hperm
  | node a d c i l r => simp [Tree.blocks] at hperm

/-- **`avl_insert`** on the region. -/
theorem owns_insert (h : Owns scm avl) (hm : Represents avl m) (item : Word)
    (hitems : avl.items + 1 < 2 ^ 64)
    (hpack : Span.Packed addr (virtAddr + scm.capacity)
      (stateBlock :: (avl.root.insertBlocks scm item.1 ++ avl.root.blocks))) :
    ∃ scm', Heap.avlInsert scm item.1 = some (0, scm') ∧ scm'.capacity = scm.capacity ∧
      Owns scm' (avlInsert scm.fresh avl item).2 := by
  have hcard : m.count item.1 ≤ avl.items := by
    rw [hm.items]
    exact Multiset.count_le_card _ _
  have hunique : avl.unique ≤ avl.items := by
    rw [hm.items, hm.unique]
    exact Multiset.toFinset_card_le m
  have hlookup : avl.root.lookup item.1 + 1 < 2 ^ 64 := by
    rw [hm.lookup]
    omega
  obtain ⟨⟨root, scm'⟩, hres, hchanges, hcounters⟩ := update_stored h.space h.counters hitems
    (by dsimp only; omega) h.stored hlookup hm.valid.balanced (h.shallow hm.valid.balanced)
    h.size_lt hpack
  have hroot : root = (Tree.update scm.fresh item.1 ⟨avl.items, avl.unique⟩ avl.root).2.ptr :=
    hchanges.ptr
  have hne := update_ne_nil scm item.1 ⟨avl.items, avl.unique⟩ avl.root
  have hblocks := List.perm_iff_count.mp
    (blocks_update scm item.1 ⟨avl.items, avl.unique⟩ avl.root)
  refine ⟨Heap.setRoot scm' root, ?_, hchanges.capacity, ?_⟩
  · have hne' : root ≠ 0 := by
      rw [hroot]
      exact fun h0 => hne (Tree.ptr_eq_zero_iff.mp h0)
    simp only [Heap.avlInsert, h.root, hres, if_neg hne']
  · rw [hroot]
    refine owns_setRoot scm' (P3.avlInsert scm.fresh avl item).2 h.space hchanges.capacity
      hcounters hchanges.stored (hpack.of_count fun b => ?_)
    simp only [List.count_cons]
    rw [show (avlInsert scm.fresh avl item).2.root =
      (Tree.update scm.fresh item.1 ⟨avl.items, avl.unique⟩ avl.root).2 from rfl, hblocks]

/-- The last assignment of `avl_remove`. -/
lemma owns_decrement (h : Owns scm avl) (hpos : 0 < avl.unique) :
    Owns { scm with mem := Heap.decrement scm.mem .unique }
      { avl with unique := avl.unique - 1 } := by
  have hframe : Mem.AgreesOutside [stateBlock] scm.mem (Heap.decrement scm.mem .unique) :=
    set_state_agrees scm.mem .unique _
  refine ⟨h.space, h.counters.decrement_unique hpos, ?_, ?_, h.packed⟩
  · exact (RecordLayout.get_set_of_ne (by decide)).trans h.root
  · exact h.stored.frame_blocks hframe
      (List.forall_mem_singleton.mpr (Span.packed_cons.mp h.packed).1.2.2)

/-- **`avl_remove`** on the region. -/
theorem owns_remove (h : Owns scm avl) (hm : Represents avl m) (item : Word)
    (hpack : Span.Packed addr (virtAddr + scm.capacity)
      (stateBlock :: (avl.root.removeBlocks scm item.1 false ++ avl.root.blocks))) :
    ∃ scm', Heap.avlRemove scm item.1 = some ((avlRemove scm.redup avl item).1, scm') ∧
      scm'.capacity = scm.capacity ∧ Owns scm' (avlRemove scm.redup avl item).2 := by
  have hexists : Heap.avlExists scm item.1 = some (P3.avlExists avl item) := h.avlExists item.1
  by_cases h0 : P3.avlExists avl item = 0
  · refine ⟨scm, ?_, rfl, ?_⟩
    · simp only [Heap.avlRemove, hexists, h0, if_true, P3.avlRemove]
    · rw [P3.avlRemove, if_pos h0]
      exact h
  · have hmem : item.1 ∈ m := by
      rw [P3.avlExists, hm.lookup] at h0
      exact Multiset.count_ne_zero.mp h0
    have hitems : 0 < avl.items := by
      rw [hm.items]
      exact Multiset.card_pos_iff_exists_mem.mpr ⟨_, hmem⟩
    have hunique : 0 < avl.unique := by
      rw [hm.unique]
      exact Finset.card_pos.mpr ⟨_, Multiset.mem_toFinset.mpr hmem⟩
    obtain ⟨hstate, hpack'⟩ := Span.packed_cons.mp hpack
    obtain ⟨⟨root, scm₁⟩, hres, hchanges⟩ := removeNode_stored scm.redup avl.root item.1 false
      h.space h.stored hm.valid.sorted hm.valid.balanced
      ((h.shallow hm.valid.balanced).mono (by decide)) h.size_lt (fun _ => rfl) hpack'
    have hroot : root = (Tree.removeNode scm.redup avl.root item.1 false).ptr := hchanges.ptr
    have hle := List.subperm_iff_count.mp
      (blocks_removeNode scm scm.redup avl.root item.1 false hm.valid.sorted fun _ => rfl)
    have hpack₁ : Span.Packed addr (virtAddr + scm.capacity)
        (stateBlock :: (Tree.removeNode scm.redup avl.root item.1 false).blocks) :=
      hpack.of_count fun b => by
        simp only [List.count_cons]
        exact Nat.add_le_add_right (hle b) _
    -- the counter of the items
    have hs₁ : CountersAt scm₁.mem ⟨avl.items, avl.unique⟩ :=
      h.counters.frame hchanges.frame (List.forall_mem_cons.mpr
        ⟨counterSpan_disjoint le_rfl, fun b hb => (hstate.2.2 b hb).symm⟩)
    have hframe : Mem.AgreesOutside [stateBlock] scm₁.mem (Heap.decrement scm₁.mem .items) :=
      set_state_agrees scm₁.mem .items _
    have hstored₁ := hchanges.stored.frame_blocks hframe
      (List.forall_mem_singleton.mpr (Span.packed_cons.mp hpack₁).1.2.2)
    have howns : Owns (Heap.setRoot { scm₁ with mem := Heap.decrement scm₁.mem .items }
        (Tree.removeNode scm.redup avl.root item.1 false).ptr)
        ⟨avl.items - 1, avl.unique, Tree.removeNode scm.redup avl.root item.1 false⟩ :=
      owns_setRoot _ ⟨_, _, _⟩ h.space hchanges.capacity (hs₁.decrement_items hitems) hstored₁
        hpack₁
    have hcap : (Heap.setRoot { scm₁ with mem := Heap.decrement scm₁.mem .items }
        (Tree.removeNode scm.redup avl.root item.1 false).ptr).capacity = scm.capacity :=
      hchanges.capacity
    -- the counter of the distinct items
    have htree : P3.avlRemove scm.redup avl item =
        if Tree.lookup (Tree.removeNode scm.redup avl.root item.1 false) item.1 = 0 then
          (0, ⟨avl.items - 1, avl.unique - 1, Tree.removeNode scm.redup avl.root item.1 false⟩)
        else (0, ⟨avl.items - 1, avl.unique, Tree.removeNode scm.redup avl.root item.1 false⟩) := by
      rw [P3.avlRemove, if_neg h0]
      rfl
    rw [htree]
    simp only [Heap.avlRemove, hexists, if_neg h0, h.root, hres, hroot]
    generalize Heap.setRoot { scm₁ with mem := Heap.decrement scm₁.mem .items }
      (Tree.removeNode scm.redup avl.root item.1 false).ptr = scm₂ at howns hcap ⊢
    have hexists₂ := howns.avlExists item.1
    rw [hexists₂]
    dsimp only
    by_cases hlast : Tree.lookup (Tree.removeNode scm.redup avl.root item.1 false) item.1 = 0
    · rw [if_pos hlast, if_pos hlast]
      exact ⟨_, rfl, hcap, owns_decrement howns hunique⟩
    · rw [if_neg hlast, if_neg hlast]
      exact ⟨_, rfl, hcap, howns⟩

/-- **`avl_open`** of a region that is not in use creates the empty tree. -/
theorem owns_create (file : Mem) {capacity : ℕ} (truncate : Bool)
    (h0 : (scmOpen file capacity truncate).utilized = 0) (hfits : 8 + stateBlock.len ≤ capacity)
    (hspace : virtAddr + capacity ≤ 2 ^ 64) :
    ∃ scm, Heap.avlOpen file capacity truncate = some scm ∧ scm.capacity = capacity ∧
      Owns scm Avl.empty := by
  have hcap : (scmOpen file capacity truncate).capacity = capacity := by
    unfold scmOpen
    split <;> rfl
  rw [Heap.avlOpen]
  generalize scmOpen file capacity truncate = scm at h0 hcap ⊢
  have hp : addr + scm.utilized + 2 + 8 = scmMbase := by rw [h0]; rfl
  have hmalloc : scm.Fits stateLayout.size := by
    apply fits_of_stop_le
    rw [hcap, Scm.place, Span.stop, h0, addr]
    rw [stateBlock] at hfits
    simp only at hfits ⊢
    omega
  have hne : ¬ scm.utilized ≠ 0 := not_not.mpr h0
  simp only [if_neg hne, scmMalloc_of_fits hmalloc, hp, if_true]
  refine ⟨_, rfl, hcap, ?_, ⟨?_, ?_⟩, ?_, trivial, ?_⟩
  · rw [capacity_grow, hcap]
    exact hspace
  · exact RecordLayout.get_write_zeros
  · exact RecordLayout.get_write_zeros
  · exact RecordLayout.get_write_zeros
  · refine Span.packed_cons.mpr ⟨⟨le_rfl, ?_, fun _ h => absurd h List.not_mem_nil⟩,
      List.Pairwise.nil, by simp [Avl.empty, Tree.blocks], by simp [Avl.empty, Tree.blocks]⟩
    rw [capacity_grow, hcap, stateBlock, Span.stop, addr]
    rw [stateBlock] at hfits
    simp only at hfits ⊢
    omega

/-- The bytes of the file are those that are mapped. -/
lemma mem_scmOpen {file : Mem} {capacity x : ℕ} (truncate : Bool)
    (hx : x ∈ mappedSpan capacity) : (scmOpen file capacity truncate).mem x = file x := by
  cases truncate <;> exact if_pos hx

lemma capacity_scmOpen (file : Mem) (capacity : ℕ) (truncate : Bool) :
    (scmOpen file capacity truncate).capacity = capacity := by
  cases truncate <;> rfl

/-- `scm_open` without truncation takes the counter from the first word of the file. -/
lemma utilized_scmOpen {file : Mem} {capacity : ℕ} (h : 8 ≤ capacity) :
    (scmOpen file capacity false).utilized = file.word virtAddr 8 := by
  refine Mem.word_congr fun x hx => if_pos ?_
  rw [Span.mem_mk] at hx
  rw [mappedSpan, Span.mem_mk]
  omega

/-- A region keeps its tree if the bytes of its blocks are kept. -/
lemma Owns.congr (h : Owns scm avl) {scm' : Scm} (hcap : scm'.capacity = scm.capacity)
    (hkept : ∀ b ∈ stateBlock :: avl.root.blocks, ∀ x ∈ b, scm'.mem x = scm.mem x) :
    Owns scm' avl := by
  have hget (f : StateField) : Heap.stateGet scm' f = Heap.stateGet scm f :=
    RecordLayout.get_congr fun x hx => hkept _ List.mem_cons_self x (stateSpan_within.mem hx)
  have hstored : avl.root.Stored scm.capacity scm'.mem := by
    refine h.stored.congr fun b hb x hx => hkept b (List.mem_cons_of_mem _ hb) x ?_
    exact (payload_within (Tree.le_len_of_mem_blocks hb).le).mem hx
  rw [← hcap] at hstored
  refine ⟨?_, ⟨?_, ?_⟩, ?_, hstored, ?_⟩
  · rw [hcap]
    exact h.space
  · exact (hget .items).trans h.counters.items
  · exact (hget .unique).trans h.counters.unique
  · exact (hget .root).trans h.root
  · rw [hcap]
    exact h.packed

/-- **`avl_open`** of a region that is in use finds what `avl_close` left. -/
theorem owns_reopen (h : Owns scm avl) (hne : scm.mem.word virtAddr 8 ≠ 0) :
    ∃ scm', Heap.avlOpen (Heap.avlClose scm) scm.capacity false = some scm' ∧
      scm'.capacity = scm.capacity ∧ Owns scm' avl := by
  have hstate := h.packed.stop stateBlock List.mem_cons_self
  rw [stateBlock, Span.stop, addr] at hstate
  simp only at hstate
  have hused : (scmOpen scm.mem scm.capacity false).utilized ≠ 0 := by
    rwa [utilized_scmOpen (by omega)]
  have hcap := capacity_scmOpen scm.mem scm.capacity false
  have hmapped {x : ℕ} (hx : x ∈ mappedSpan scm.capacity) :
      (scmOpen scm.mem scm.capacity false).mem x = scm.mem x := mem_scmOpen false hx
  rw [Heap.avlOpen, Heap.avlClose, scmClose]
  generalize scmOpen scm.mem scm.capacity false = scm' at hused hcap hmapped ⊢
  refine ⟨scm', if_pos hused, hcap, h.congr hcap fun b hb x hx => hmapped ?_⟩
  have hstart := h.packed.start b hb
  have hstop := h.packed.stop b hb
  rw [addr] at hstart
  rw [Span.stop] at hstop
  rw [Span.mem_def] at hx
  rw [mappedSpan, Span.mem_mk]
  omega

/-- `avl_close` and `avl_open` of a region that is in use, or that holds the empty tree. -/
lemma Owns.reopen (h : Owns scm avl) (hm : Represents avl m)
    (hused : scm.mem.word virtAddr 8 ≠ 0 ∨ Heap.stateGet scm .root = 0) :
    ∃ scm' avl', Heap.avlOpen (Heap.avlClose scm) scm.capacity false = some scm' ∧
      Owns scm' avl' ∧ Represents avl' m := by
  by_cases hword : scm.mem.word virtAddr 8 = 0
  · have hroot : Heap.stateGet scm .root = 0 := hused.resolve_left (not_not.mpr hword)
    rw [h.root, Tree.ptr_eq_zero_iff] at hroot
    have hzero : m = 0 := by rw [← hm.elements, hroot]; rfl
    have hstate := h.packed.stop stateBlock List.mem_cons_self
    have hfits : 8 + stateBlock.len ≤ scm.capacity := by
      rw [stateBlock, Span.stop, addr] at hstate
      rw [stateBlock]
      simp only at hstate ⊢
      omega
    have hfree : (scmOpen scm.mem scm.capacity false).utilized = 0 := by
      rw [utilized_scmOpen (by omega), hword]
    obtain ⟨scm', hres, -, howns'⟩ := owns_create scm.mem false hfree hfits h.space
    rw [hzero]
    exact ⟨scm', Avl.empty, hres, howns', represents_empty⟩
  · obtain ⟨scm', hres, -, howns'⟩ := owns_reopen h hword
    exact ⟨scm', avl, hres, howns', hm⟩

/-! ## Runs -/

/-- A call on the store, or `avl_close` followed by `avl_open` without truncation. -/
inductive StoreOp
  | insert (item : Word)
  | remove (item : Word)
  | reopen
  deriving DecidableEq

/-- An open store, and the calls so far with their return values, the last one first. -/
structure Session where
  scm : Scm
  log : List (StoreOp × ℤ)

namespace Session

/-- The store after `avl_open` with truncation. -/
def start (file : Mem) (capacity : ℕ) : Option Session :=
  (Heap.avlOpen file capacity true).map fun scm => ⟨scm, []⟩

/-- The store after a call, if the call returns. -/
def step (s : Session) : StoreOp → Option Session
  | .insert item =>
    (Heap.avlInsert s.scm item.1).map fun res => ⟨res.2, (.insert item, res.1) :: s.log⟩
  | .remove item =>
    (Heap.avlRemove s.scm item.1).map fun res => ⟨res.2, (.remove item, res.1) :: s.log⟩
  | .reopen =>
    (Heap.avlOpen (Heap.avlClose s.scm) s.scm.capacity false).map fun scm =>
      ⟨scm, (.reopen, 0) :: s.log⟩

/-- How often an item was inserted. -/
def inserts (s : Session) (x : CString) : ℕ :=
  s.log.countP fun e => match e.1 with
    | .insert item => item.1 = x
    | _ => False

/-- How often an item was removed successfully. -/
def removes (s : Session) (x : CString) : ℕ :=
  s.log.countP fun e => match e.1 with
    | .remove item => item.1 = x ∧ e.2 = 0
    | _ => False

/-- The store is the multiset of the items inserted and not removed: the nodes that are linked from
the root form a tree whose blocks lie apart; `avl_exists` returns the multiplicity of every item;
and `avl_traverse` reports the items with a positive multiplicity in increasing order. -/
structure Faithful (s : Session) : Prop where
  tree : ∃ t, linkedTree s.scm = some t ∧ (stateBlock :: t.blocks).Pairwise Span.Disjoint
  count : ∀ x, ∃ n, Heap.avlExists s.scm x = some n ∧ n + s.removes x = s.inserts x
  traverse : ∃ l, Heap.avlTraverse s.scm = some l ∧
    l.Pairwise (fun p q => CString.strcmp p.1 q.1 < 0) ∧
    ∀ x c, (x, c) ∈ l ↔ 0 < c ∧ c + s.removes x = s.inserts x

/-- The block lies inside the mapped file and meets none of the others. -/
def Free (scm : Scm) (bs : List Span) (b : Span) : Prop :=
  b.stop ≤ virtAddr + scm.capacity ∧ ∀ c ∈ bs, b.Disjoint c

instance (scm : Scm) (bs : List Span) (b : Span) : Decidable (Free scm bs b) :=
  inferInstanceAs (Decidable (_ ∧ _))

/-- What the next call allocates is free: the blocks of a new node, the block of a string that is
duplicated, and the state, which `avl_open` allocates in a region that is not in use. The number
of items does not overflow. -/
def Placed (s : Session) : StoreOp → Prop
  | .insert item => Heap.stateGet s.scm .items + 1 < 2 ^ 64 ∧ ∀ t ∈ linkedTree s.scm,
      ∀ b ∈ t.insertBlocks s.scm item.1, Free s.scm (stateBlock :: t.blocks) b
  | .remove item => ∀ t ∈ linkedTree s.scm,
      ∀ b ∈ t.removeBlocks s.scm item.1 false, Free s.scm (stateBlock :: t.blocks) b
  | .reopen => s.scm.mem.word virtAddr 8 ≠ 0 ∨ Heap.stateGet s.scm .root = 0

instance (s : Session) : DecidablePred s.Placed
  | .insert _ => inferInstanceAs (Decidable (_ ∧ _))
  | .remove _ => inferInstanceAs (Decidable (∀ t ∈ linkedTree s.scm, _))
  | .reopen => inferInstanceAs (Decidable (_ ∨ _))

/-! ## Every run -/

/-- The region holds the tree of a multiset, which is that of the calls so far. -/
def Holds (s : Session) : Prop :=
  ∃ avl m, Owns s.scm avl ∧ Represents avl m ∧ ∀ x, m.count x + s.removes x = s.inserts x

variable {s s' : Session}

/-- A store that holds the tree of a multiset is faithful. -/
lemma Holds.faithful_store (h : s.Holds) : s.Faithful := by
  obtain ⟨avl, m, howns, hm, hcount⟩ := h
  refine ⟨⟨avl.root, howns.linkedTree, howns.packed.disjoint⟩, fun x => ?_,
    ⟨avl.root.traverse, howns.avlTraverse, ?_, fun x c => ?_⟩⟩
  · refine ⟨m.count x, ?_, hcount x⟩
    rw [howns.avlExists, hm.lookup]
  · simp only [CString.strcmp_neg_iff]
    exact hm.valid.sorted
  · have hmem := hm.mem_traverse_iff x c
    have hx := hcount x
    rw [avlTraverse] at hmem
    rw [hmem]
    omega

lemma inserts_cons (scm : Scm) (op : StoreOp) (r : ℤ) (log : List (StoreOp × ℤ)) (x : CString) :
    inserts ⟨scm, (op, r) :: log⟩ x =
      inserts ⟨scm, log⟩ x + match op with
        | .insert item => if item.1 = x then 1 else 0
        | _ => 0 := by
  cases op <;> simp [inserts, List.countP_cons]

lemma removes_cons (scm : Scm) (op : StoreOp) (r : ℤ) (log : List (StoreOp × ℤ)) (x : CString) :
    removes ⟨scm, (op, r) :: log⟩ x =
      removes ⟨scm, log⟩ x + match op with
        | .remove item => if item.1 = x ∧ r = 0 then 1 else 0
        | _ => 0 := by
  cases op <;> simp [removes, List.countP_cons]

/-- One free block extends a packing. -/
lemma packed_of_free {scm : Scm} {bs : List Span} {b : Span}
    (h : Span.Packed addr (virtAddr + scm.capacity) bs) (hb : Free scm bs b)
    (hstart : addr ≤ b.start) : Span.Packed addr (virtAddr + scm.capacity) (b :: bs) :=
  Span.packed_cons.mpr ⟨⟨hstart, hb.1, hb.2⟩, h⟩

/-- The string of a new node is allocated behind the node. -/
lemma fresh_disjoint {scm : Scm} (hspace : virtAddr + scm.capacity ≤ 2 ^ 64)
    (hstop : scm.fresh.nodeBlock.stop ≤ virtAddr + scm.capacity) (x : CString) :
    scm.fresh.nodeBlock.Disjoint (scm.fresh.strBlock x) := by
  rw [Place.nodeBlock, Span.stop, Scm.fresh, addr] at hstop
  rw [Span.disjoint_def, Place.nodeBlock, Place.strBlock, Scm.fresh]
  simp only [Scm.grow, sizeT] at hstop ⊢
  rw [Nat.mod_eq_of_lt (a := scm.utilized + _)] <;> omega

/-- The free blocks of an insertion lie apart from those in use. -/
lemma packed_insert (h : Owns scm avl) (t : Tree Place) (x : CString)
    (hfree : ∀ b ∈ t.insertBlocks scm x, Free scm (stateBlock :: avl.root.blocks) b) :
    Span.Packed addr (virtAddr + scm.capacity)
      (stateBlock :: (t.insertBlocks scm x ++ avl.root.blocks)) := by
  induction t with
  | nil =>
    have hnode := hfree scm.fresh.nodeBlock (by simp [Tree.insertBlocks])
    have hstr := hfree (scm.fresh.strBlock x) (by simp [Tree.insertBlocks])
    have hpack := packed_of_free h.packed hstr (Nat.le_add_right _ _)
    have hdisj := fresh_disjoint h.space hnode.1 x
    have hpack' := packed_of_free hpack (b := scm.fresh.nodeBlock)
      ⟨hnode.1, List.forall_mem_cons.mpr ⟨hdisj, hnode.2⟩⟩ (Nat.le_add_right _ _)
    refine hpack'.of_count fun b => ?_
    simp only [Tree.insertBlocks, List.cons_append, List.nil_append, List.count_cons]
    omega
  | node a d c i l r ihl ihr =>
    rw [Tree.insertBlocks] at hfree ⊢
    split
    · exact h.packed
    · next hne =>
      rw [if_neg hne] at hfree
      split
      · next hlt =>
        rw [if_pos hlt] at hfree
        exact ihl hfree
      · next hge =>
        rw [if_neg hge] at hfree
        exact ihr hfree

/-- The free block of a removal lies apart from those in use. -/
lemma packed_remove (h : Owns scm avl) (x : CString)
    (hfree : ∀ b ∈ avl.root.removeBlocks scm x false,
      Free scm (stateBlock :: avl.root.blocks) b) :
    Span.Packed addr (virtAddr + scm.capacity)
      (stateBlock :: (avl.root.removeBlocks scm x false ++ avl.root.blocks)) := by
  rw [Tree.removeBlocks] at hfree ⊢
  generalize avl.root.duplicated x false = dup at hfree ⊢
  cases dup with
  | none => exact h.packed
  | some y =>
    have hpack := packed_of_free h.packed (hfree (scm.place (y.strlen + 1)) List.mem_cons_self)
      (Nat.le_add_right _ _)
    refine hpack.of_count fun b => ?_
    simp only [Option.toList_some, List.map_cons, List.map_nil, List.cons_append, List.nil_append,
      List.count_cons]
    omega

/-- **The step lemma**: a call whose blocks are placed returns and keeps the multiset. -/
theorem Holds.step (h : s.Holds) {op : StoreOp} (hop : s.Placed op) :
    ∃ s', s.step op = some s' ∧ s'.Holds := by
  obtain ⟨avl, m, howns, hm, hcount⟩ := h
  cases op with
  | insert item =>
    have hitems : avl.items + 1 < 2 ^ 64 := by
      have hlt := hop.1
      rwa [Heap.stateGet, howns.counters.items] at hlt
    obtain ⟨scm', hres, -, howns'⟩ := owns_insert howns hm item hitems
      (packed_insert howns _ _ (hop.2 _ howns.linkedTree))
    refine ⟨⟨scm', (.insert item, 0) :: s.log⟩, by rw [Session.step, hres]; rfl,
      _, _, howns', represents_insert hm s.scm.fresh item, fun x => ?_⟩
    have hx : m.count x + removes ⟨scm', s.log⟩ x = inserts ⟨scm', s.log⟩ x := hcount x
    rw [inserts_cons, removes_cons, Multiset.count_cons]
    simp only [eq_comm (a := x)]
    omega
  | remove item =>
    obtain ⟨scm', hres, -, howns'⟩ := owns_remove howns hm item
      (packed_remove howns item.1 (hop _ howns.linkedTree))
    obtain ⟨hval, hrep⟩ := represents_exec hm (.remove item s.scm.redup)
    refine ⟨⟨scm', (.remove item, _) :: s.log⟩, by rw [Session.step, hres]; rfl,
      _, _, howns', hrep, fun x => ?_⟩
    have hx : m.count x + removes ⟨scm', s.log⟩ x = inserts ⟨scm', s.log⟩ x := hcount x
    rw [Call.exec] at hval
    rw [inserts_cons, removes_cons, hval, specExec]
    by_cases h0 : m.count item.1 = 0
    · simp only [if_pos h0]
      simpa using hx
    · simp only [if_neg h0]
      by_cases hitem : item.1 = x
      · subst hitem
        rw [Multiset.count_erase_self]
        simp only [and_self, if_true]
        omega
      · rw [Multiset.count_erase_of_ne (Ne.symm hitem)]
        simp only [hitem, false_and, if_false]
        omega
  | reopen =>
    obtain ⟨scm', avl', hres, howns', hm'⟩ := howns.reopen hm hop
    refine ⟨⟨scm', (.reopen, 0) :: s.log⟩, by rw [Session.step, hres]; rfl,
      _, _, howns', hm', fun x => ?_⟩
    rw [inserts_cons, removes_cons]
    exact hcount x

/-- The store that `avl_open` creates holds the empty multiset. -/
lemma start_holds (file : Mem) {capacity : ℕ} (hfits : 8 + stateBlock.len ≤ capacity)
    (hspace : virtAddr + capacity ≤ 2 ^ 64) :
    ∃ s, start file capacity = some s ∧ s.Holds := by
  obtain ⟨scm, hres, -, howns⟩ := owns_create file true rfl hfits hspace
  exact ⟨⟨scm, []⟩, by rw [start, hres]; rfl, _, _, howns, represents_empty, fun x => by
    simp [inserts, removes]⟩

/-- **The store is the multiset of its items.** On every region that holds the state and whose
addresses do not overflow, every sequence of calls, reopenings among them, all of whose blocks are
placed where nothing is in use returns, and leaves the store faithful. Since every beginning of
such a sequence is one, the store is faithful after each call.

**Proof sketch.** The region holds a tree that represents the multiset of the calls. A call changes
the blocks of the tree and the free blocks that it allocates only, and does to the stored tree what
the functions of `Avl.lean` do to the tree, which simulate the multiset. -/
theorem faithful_of_placed (file : Mem) (capacity : ℕ) (hfits : 8 + stateBlock.len ≤ capacity)
    (hspace : virtAddr + capacity ≤ 2 ^ 64) :
    ∃ s, start file capacity = some s ∧ ∀ ops, Always Session.step Placed s ops →
      ∃ s', run Session.step s ops = some s' ∧ s'.Faithful := by
  obtain ⟨s, hs, hholds⟩ := start_holds file hfits hspace
  refine ⟨s, hs, fun ops hops => ?_⟩
  obtain ⟨s', hrun, hholds'⟩ := progress_run (fun _ _ h hop => h.step hop) hholds hops
  exact ⟨s', hrun, hholds'.faithful_store⟩

/-- The string of one byte. -/
def letter (b : UInt8) (h : b ≠ 0) : Word := ⟨⟨[b], by simp [h.symm]⟩, by simp [CString.strlen]⟩

/-- Two insertions, a removal of the newer item and a reopening are placed. -/
theorem faithful_of_placed_stack :
    ∃ s, start (fun _ => 0) 4096 = some s ∧ ∃ s',
      run Session.step s [.insert (letter 97 (by decide)), .insert (letter 98 (by decide)),
        .remove (letter 98 (by decide)), .reopen, .insert (letter 99 (by decide))] = some s' ∧
      s'.Faithful := by
  obtain ⟨s, hs, hfaithful⟩ :=
    faithful_of_placed (fun _ => 0) 4096 (by decide +kernel) (by decide +kernel)
  refine ⟨s, hs, hfaithful _ ?_⟩
  have hstart : ∀ s ∈ start (fun _ => 0) 4096, Always Session.step Placed s
      [.insert (letter 97 (by decide)), .insert (letter 98 (by decide)),
        .remove (letter 98 (by decide)), .reopen, .insert (letter 99 (by decide))] := by
    decide +kernel
  exact hstart s hs

/-- **Reuse of a linked node.** The removal of the root `a` releases the blocks of its only child
`b`, which stays linked and becomes the root. The allocator then places the node of `c` over that
of `b`: all calls succeed, and the item `b` is lost. -/
theorem not_faithful_reuse : ∃ s s', start (fun _ => 0) 4096 = some s ∧
    run Session.step s [.insert (letter 97 (by decide)), .insert (letter 98 (by decide)),
      .remove (letter 97 (by decide)), .insert (letter 99 (by decide))] = some s' ∧
    (∀ e ∈ s'.log, e.2 = 0) ∧ ¬ s'.Faithful := by
  have hrun : ((start (fun _ => 0) 4096).bind fun s => run Session.step s
      [.insert (letter 97 (by decide)), .insert (letter 98 (by decide)),
        .remove (letter 97 (by decide)), .insert (letter 99 (by decide))]).map
      (fun s => (s.log.map Prod.snd, Heap.avlExists s.scm (letter 98 (by decide)).1,
        s.removes (letter 98 (by decide)).1, s.inserts (letter 98 (by decide)).1)) =
      some ([0, 0, 0, 0], some 0, 0, 1) := by decide +kernel
  obtain ⟨s', hs', heq⟩ := Option.map_eq_some_iff.mp hrun
  obtain ⟨s, hs, hsteps⟩ := Option.bind_eq_some_iff.mp hs'
  simp only [Prod.mk.injEq] at heq
  obtain ⟨hlog, hexists, hremoves, hinserts⟩ := heq
  refine ⟨s, s', hs, hsteps, fun e he => ?_, fun hfaithful => ?_⟩
  · have hmem : e.2 ∈ s'.log.map Prod.snd := List.mem_map_of_mem he
    rw [hlog] at hmem
    simpa using hmem
  · obtain ⟨n, hn, hcount⟩ := hfaithful.count (letter 98 (by decide)).1
    rw [hexists] at hn
    rw [hremoves, hinserts] at hcount
    obtain rfl := Option.some.inj hn
    exact absurd hcount (by decide)

end Session

end Cs238p.P3
