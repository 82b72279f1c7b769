import Cs238p.P3.HeapRotate

set_option relaxedAutoImplicit false
set_option autoImplicit false

/-!
# Insertion into a stored tree

`update` on the bytes of the region does to a stored tree what `Tree.update` does to the tree, if
the blocks that it allocates are free: a new item takes two of them, whose places are known before
the call.

## Main definitions

* `Scm.fresh` — where the blocks of a new node will be; `Tree.insertBlocks` — the blocks that an
  insertion allocates.
* `CountersAt` — the counters of `struct state` in memory.
* `Changes` — a call turned a stored tree into another one and changed some blocks only.

## Main results

* `newNode_stored` — the new node of `update`.
* `update_stored` — the insertion into a stored tree.
-/

namespace Cs238p.P3

open Heap Cs238p.P3.Tree

/-! ## Allocation -/

/-- The blocks of a node that is allocated next. -/
def Scm.fresh (scm : Scm) : Place :=
  ⟨addr + scm.utilized, addr + (scm.grow nodeLayout.size).utilized⟩

section Allocation

variable {scm : Scm} {k : ℕ} {x : CString} {W : List Span} {b : Span}

/-- A block that ends inside the mapping is granted. -/
lemma fits_of_stop_le (h : (scm.place k).stop ≤ virtAddr + scm.capacity) : scm.Fits k := by
  have hsize : sizeT (2 + 8 + k) ≤ 2 + 8 + k := Nat.mod_le _ _
  have hsum : sizeT (scm.utilized + sizeT (2 + 8 + k)) ≤ scm.utilized + sizeT (2 + 8 + k) :=
    Nat.mod_le _ _
  rw [Scm.place, Span.stop, addr] at h
  rw [Scm.Fits]
  simp only at h
  omega

lemma grow_agrees (scm : Scm) (k : ℕ) :
    Mem.AgreesOutside [counterSpan, scm.place k] scm.mem (scm.grow k).mem := by
  intro x hx
  exact grow_frame (hx _ (by simp)) (hx _ (by simp))

lemma growString_agrees (scm : Scm) (x : CString) :
    Mem.AgreesOutside [counterSpan, scm.place (x.strlen + 1)] scm.mem (scm.growString x).mem := by
  intro y hy
  exact growString_frame (hy _ (by simp)) (hy _ (by simp))

/-- The duplicated string is read back. -/
lemma read_growString (scm : Scm) (x : CString) :
    (scm.growString x).mem.read (addr + scm.utilized + 2 + 8) (x.strlen + 1) = x.bytes ++ [0] := by
  have hread := Mem.read_write (scm.grow (x.strlen + 1)).mem (addr + scm.utilized + 2 + 8)
    (x.bytes ++ [0])
  rwa [List.length_append, List.length_singleton] at hread

/-- The first word of the mapping lies in front of all blocks. -/
lemma counterSpan_disjoint (h : addr ≤ b.start) : counterSpan.Disjoint b := by
  rw [addr] at h
  rw [counterSpan, Span.disjoint_def]
  simp only
  omega

end Allocation

/-! ## The counters -/

/-- The counters of `struct state` are stored in its block. -/
structure CountersAt (m : Mem) (s : Counters) : Prop where
  items : stateLayout.get m scmMbase .items = s.items
  unique : stateLayout.get m scmMbase .unique = s.unique

section CountersAt

variable {m m' : Mem} {s : Counters} {W : List Span}

lemma stateSpan_within : (stateLayout.span scmMbase).Within stateBlock :=
  payload_within (b := stateBlock) (by decide)

lemma CountersAt.frame (h : CountersAt m s) (hm : Mem.AgreesOutside W m m')
    (hW : ∀ b ∈ W, b.Disjoint stateBlock) : CountersAt m' s := by
  have hget (f : StateField) : stateLayout.get m' scmMbase f = stateLayout.get m scmMbase f :=
    RecordLayout.get_congr fun x hx => hm.eq_of_disjoint hW (stateSpan_within.mem hx)
  exact ⟨by rw [hget, h.items], by rw [hget, h.unique]⟩

lemma set_state_agrees (m : Mem) (f : StateField) (v : ℕ) :
    Mem.AgreesOutside [stateBlock] m (stateLayout.set m scmMbase f v) := by
  refine (stateLayout.agreesOutside_set m scmMbase f v).mono fun b hb => ?_
  obtain rfl := List.mem_singleton.mp hb
  exact ⟨stateBlock, List.mem_cons_self, stateSpan_within⟩

lemma CountersAt.increment_items (h : CountersAt m s) (hlt : s.items + 1 < 2 ^ 64) :
    CountersAt (increment m .items) ⟨s.items + 1, s.unique⟩ := by
  constructor
  · rw [increment, h.items]
    exact RecordLayout.get_set_self hlt
  · rw [increment, RecordLayout.get_set_of_ne (by decide), h.unique]

lemma CountersAt.increment_unique (h : CountersAt m s) (hlt : s.unique + 1 < 2 ^ 64) :
    CountersAt (increment m .unique) ⟨s.items, s.unique + 1⟩ := by
  constructor
  · rw [increment, RecordLayout.get_set_of_ne (by decide), h.items]
  · rw [increment, h.unique]
    exact RecordLayout.get_set_self hlt

/-- A field that is decremented, if it is not zero. -/
lemma get_decrement {f : StateField} {v : ℕ} (h : stateLayout.get m scmMbase f = v) (hpos : 0 < v) :
    stateLayout.get (decrement m f) scmMbase f = v - 1 := by
  have hlt : stateLayout.get m scmMbase f < 2 ^ 64 := RecordLayout.get_lt
  have hmod : stateLayout.get (decrement m f) scmMbase f =
      (stateLayout.get m scmMbase f + 2 ^ 64 - 1) % 2 ^ 64 := RecordLayout.get_set_self_mod
  rw [hmod, h]
  omega

lemma CountersAt.decrement_items (h : CountersAt m s) (hpos : 0 < s.items) :
    CountersAt (decrement m .items) ⟨s.items - 1, s.unique⟩ :=
  ⟨get_decrement h.items hpos, (RecordLayout.get_set_of_ne (by decide)).trans h.unique⟩

lemma CountersAt.decrement_unique (h : CountersAt m s) (hpos : 0 < s.unique) :
    CountersAt (decrement m .unique) ⟨s.items, s.unique - 1⟩ :=
  ⟨(RecordLayout.get_set_of_ne (by decide)).trans h.items, get_decrement h.unique hpos⟩

end CountersAt

/-! ## The new node -/

/-- A call that returns a pointer and a handle turned the region's tree into the given one, and
changed only the given blocks. -/
structure Changes (W : List Span) (scm : Scm) (t : Tree Place) (res : ℕ × Scm) : Prop where
  ptr : res.1 = t.ptr
  capacity : res.2.capacity = scm.capacity
  stored : t.Stored scm.capacity res.2.mem
  frame : Mem.AgreesOutside W scm.mem res.2.mem

/-- The blocks that an insertion allocates: those of a new node where the search for the item ends
at a null pointer. -/
def Tree.insertBlocks (scm : Scm) (x : CString) : Tree Place → List Span
  | nil => [scm.fresh.nodeBlock, scm.fresh.strBlock x]
  | node _ _ _ i l r =>
    if CString.strcmp x i = 0 then []
    else if 0 > CString.strcmp x i then l.insertBlocks scm x
    else r.insertBlocks scm x

variable {scm : Scm} {x : CString} {s : Counters} {hi : ℕ}

/-- The handle after `update` has allocated and cleared the block of a new node. -/
def Scm.cleared (scm : Scm) : Scm :=
  { scm.grow nodeLayout.size with
    mem := (scm.grow nodeLayout.size).mem.write scm.fresh.ptr (List.replicate nodeLayout.size 0) }

/-- A new node changes its block only. -/
lemma cleared_agrees_nodeBlock (scm : Scm) :
    Mem.AgreesOutside [counterSpan, scm.fresh.nodeBlock] scm.mem scm.cleared.mem := by
  have hgrow := grow_agrees scm nodeLayout.size
  have hclear : Mem.AgreesOutside [scm.fresh.nodeBlock] (scm.grow nodeLayout.size).mem
      scm.cleared.mem := by
    refine (Mem.agreesOutside_write _ scm.fresh.ptr _).mono fun b hb => ?_
    obtain rfl := List.mem_singleton.mp hb
    rw [List.length_replicate]
    exact ⟨_, List.mem_cons_self, payload_within (b := scm.fresh.nodeBlock) (Nat.le_add_right _ _)⟩
  exact hgrow.trans (hclear.of_subset (List.subset_cons_self _ _))

/-- A new node and its string change their blocks only. -/
lemma cleared_agrees (scm : Scm) (x : CString) :
    Mem.AgreesOutside [counterSpan, scm.fresh.nodeBlock, scm.fresh.strBlock x] scm.mem
      (scm.cleared.growString x).mem := by
  have hstring := growString_agrees scm.cleared x
  refine ((cleared_agrees_nodeBlock scm).of_subset ?_).trans (hstring.of_subset ?_)
  · exact List.cons_subset_cons _ (List.cons_subset_cons _ (List.nil_subset _))
  · exact List.cons_subset_cons _ (List.subset_cons_self _ _)

/-- A new node consists of zeros. -/
lemma get_cleared (hdisj : scm.fresh.nodeBlock.Disjoint (scm.fresh.strBlock x)) (f : NodeField) :
    get (scm.cleared.growString x).mem scm.fresh.ptr f = 0 := by
  have hzero : get scm.cleared.mem scm.fresh.ptr f = 0 := RecordLayout.get_write_zeros
  rw [← hzero]
  refine RecordLayout.get_congr fun y hy => ?_
  have hmem : y ∈ scm.fresh.nodeBlock :=
    (payload_within (b := scm.fresh.nodeBlock) (Nat.le_add_right _ _)).mem hy
  refine (growString_agrees scm.cleared x).eq_of_disjoint ?_ hmem
  simp only [List.forall_mem_cons]
  exact ⟨counterSpan_disjoint (Nat.le_add_right _ _), hdisj.symm, fun _ h => absurd h (by simp)⟩

/-- `update` on the null pointer, if both allocations succeed. -/
lemma newNode_of_fits (hfits : scm.Fits nodeLayout.size)
    (hfits' : scm.cleared.Fits (x.strlen + 1))
    (hdisj : scm.fresh.nodeBlock.Disjoint (scm.fresh.strBlock x)) :
    newNode scm x = (scm.fresh.ptr, { scm.cleared.growString x with
      mem := increment (increment (set (set (scm.cleared.growString x).mem scm.fresh.ptr
        .item scm.fresh.strPtr) scm.fresh.ptr .count 1) .items) .unique }) := by
  have hcount : get (set (scm.cleared.growString x).mem scm.fresh.ptr .item scm.fresh.strPtr)
      scm.fresh.ptr .count = 0 :=
    (RecordLayout.get_set_of_ne (by decide)).trans (get_cleared hdisj .count)
  have hptr : addr + scm.utilized + 2 + 8 = scm.fresh.ptr := rfl
  have hcleared : scmStrdup { scm.grow nodeLayout.size with
      mem := (scm.grow nodeLayout.size).mem.write scm.fresh.ptr
        (List.replicate nodeLayout.size 0) } x =
      (some scm.fresh.strPtr, scm.cleared.growString x) := scmStrdup_of_fits hfits'
  simp only [newNode, scmMalloc_of_fits hfits, hptr, hcleared, hcount, Nat.zero_add]

/-- **The new node** of `update` is stored in its blocks. -/
lemma newNode_stored (hspace : virtAddr + scm.capacity ≤ 2 ^ 64) (hs : CountersAt scm.mem s)
    (hitems : s.items + 1 < 2 ^ 64) (hunique : s.unique + 1 < 2 ^ 64)
    (hpack : Span.Packed addr (virtAddr + scm.capacity)
      (stateBlock :: [scm.fresh.nodeBlock, scm.fresh.strBlock x])) :
    Changes [counterSpan, stateBlock, scm.fresh.nodeBlock, scm.fresh.strBlock x] scm
        (node scm.fresh 0 1 x nil nil) (newNode scm x) ∧
      CountersAt (newNode scm x).2.mem ⟨s.items + 1, s.unique + 1⟩ := by
  have hfits : scm.Fits nodeLayout.size :=
    fits_of_stop_le (hpack.stop scm.fresh.nodeBlock (by simp))
  have hfits' : scm.cleared.Fits (x.strlen + 1) :=
    fits_of_stop_le (hpack.stop (scm.fresh.strBlock x) (by simp))
  have hstop := hpack.stop (scm.fresh.strBlock x) (by simp)
  rw [Place.strBlock, Span.stop] at hstop
  simp only at hstop
  have hdisj := hpack.disjoint
  simp only [List.pairwise_cons, List.forall_mem_cons] at hdisj
  obtain ⟨⟨hsn, hss, -⟩, ⟨hns, -⟩, -⟩ := hdisj
  rw [newNode_of_fits hfits hfits' hns]
  have hframe₀ := cleared_agrees scm x
  have hread := read_growString scm.cleared x
  have hzero : ∀ f, get (scm.cleared.growString x).mem scm.fresh.ptr f = 0 := get_cleared hns
  generalize (scm.cleared.growString x).mem = m₀ at hframe₀ hread hzero ⊢
  -- the string and the count of the node
  have h₁ : NodeAt scm.capacity (set m₀ scm.fresh.ptr .item scm.fresh.strPtr) scm.fresh 0 0 x
      0 0 := by
    have hlt : scm.fresh.strPtr < 2 ^ 64 := by
      rw [Place.strPtr]
      omega
    have hstart := hpack.start (scm.fresh.strBlock x) (by simp)
    rw [Place.strBlock, addr] at hstart
    have hget {f : NodeField} (hf : .item ≠ f) :
        get (set m₀ scm.fresh.ptr .item scm.fresh.strPtr) scm.fresh.ptr f = 0 :=
      (RecordLayout.get_set_of_ne hf).trans (hzero f)
    refine ⟨?_, hget (by decide), RecordLayout.get_set_self hlt, hget (by decide),
      hget (by decide), ?_, ?_⟩
    · rw [hget (by decide)]
      rfl
    · rw [read_strPtr_set hns]
      exact hread
    · simp only at hstart
      omega
  have h₂ := h₁.store (v := 1) .count (by decide) (by decide) hns
  have hframe₁ := set_frame m₀ scm.fresh .item scm.fresh.strPtr
  have hframe₂ := set_frame (set m₀ scm.fresh.ptr .item scm.fresh.strPtr) scm.fresh .count 1
  have hframe := (hframe₁.trans hframe₂)
  generalize set (set m₀ scm.fresh.ptr .item scm.fresh.strPtr) scm.fresh.ptr .count 1 = m₁
    at h₂ hframe ⊢
  -- the counters
  have hs₁ : CountersAt m₁ s := by
    refine (hs.frame hframe₀ ?_).frame hframe ?_
    · simpa [List.forall_mem_cons] using ⟨counterSpan_disjoint le_rfl, hsn.symm, hss.symm⟩
    · simpa using hsn.symm
  have hs₂ := hs₁.increment_items hitems
  have hframe₃ := (set_state_agrees m₁ .items _).trans
    (set_state_agrees (increment m₁ .items) .unique
      (stateLayout.get (increment m₁ .items) scmMbase .unique + 1))
  refine ⟨⟨rfl, rfl, ⟨?_, trivial, trivial⟩, ?_⟩, hs₂.increment_unique hunique⟩
  · exact h₂.frame_blocks hframe₃ (by simpa using ⟨hsn, hss⟩)
  · refine ((hframe₀.of_subset ?_).trans (hframe.of_subset ?_)).trans (hframe₃.of_subset ?_)
    · exact List.cons_subset_cons _ (List.subset_cons_self _ _)
    · exact List.cons_subset.mpr ⟨by simp, List.nil_subset _⟩
    · exact List.cons_subset.mpr ⟨by simp, List.nil_subset _⟩

/-! ## Insertion -/

/-- An insertion adds the blocks that it allocates. -/
lemma blocks_update (scm : Scm) (x : CString) (s : Counters) (t : Tree Place) :
    (update scm.fresh x s t).2.blocks.Perm (t.insertBlocks scm x ++ t.blocks) := by
  induction t with
  | nil => exact List.Perm.refl _
  | node a d c i l r ihl ihr =>
    rw [Tree.update, insertBlocks]
    split
    · rw [blocks_setDepth]
      exact List.Perm.refl _
    · split
      · dsimp only
        refine (blocks_fixLeft x _).trans (List.perm_iff_count.mpr fun b => ?_)
        have hl := List.perm_iff_count.mp ihl b
        rw [List.count_append] at hl
        rw [List.count_append, count_blocks_node, count_blocks_node, hl]
        omega
      · dsimp only
        refine (blocks_fixRight x _).trans (List.perm_iff_count.mpr fun b => ?_)
        have hr := List.perm_iff_count.mp ihr b
        rw [List.count_append] at hr
        rw [List.count_append, count_blocks_node, count_blocks_node, hr]
        omega

section Node

variable {a : Place} {d : ℤ} {c : ℕ} {i : CString} {l l' r r' : Tree Place} {new : List Span}
  {res : ℕ × Scm}

/-- What a call on the left child changed is disjoint from the rest of the node. -/
lemma apart_left (hpack : Span.Packed addr hi (new ++ (node a d c i l r).blocks)) :
    ∀ s ∈ counterSpan :: (new ++ l.blocks),
      ∀ b ∈ a.nodeBlock :: a.strBlock i :: r.blocks, s.Disjoint b := by
  have hrest : Span.Packed addr hi (a.nodeBlock :: a.strBlock i :: r.blocks) :=
    hpack.of_count fun s => by
      simp only [count_blocks_node, List.count_cons, List.count_append, List.count_nil]
      omega
  have happart : ∀ s ∈ new ++ l.blocks, ∀ b ∈ a.nodeBlock :: a.strBlock i :: r.blocks,
      s.Disjoint b := hpack.apart fun s => by
    simp only [count_blocks_node, List.count_cons, List.count_append, List.count_nil]
    omega
  exact List.forall_mem_cons.mpr ⟨fun b hb => counterSpan_disjoint (hrest.start b hb), happart⟩

/-- **A node gets the left child that a call returned.** -/
lemma relinked_left (hspace : virtAddr + scm.capacity ≤ 2 ^ 64)
    (h : (node a d c i l r).Stored scm.capacity scm.mem)
    (hpack : Span.Packed addr (virtAddr + scm.capacity) (new ++ (node a d c i l r).blocks))
    (hres : Changes (counterSpan :: (new ++ l.blocks)) scm l' res)
    (hblocks : l'.blocks.Subperm (new ++ l.blocks)) :
    (node a d c i l' r).blocks.Subperm (new ++ (node a d c i l r).blocks) ∧
      Changes (counterSpan :: (new ++ (node a d c i l r).blocks)) scm (node a d c i l' r)
        (a.ptr, { res.2 with mem := set res.2.mem a.ptr .left res.1 }) := by
  have hcount := List.subperm_iff_count.mp hblocks
  have hle (b : Span) : (node a d c i l' r).blocks.count b ≤
      (new ++ (node a d c i l r).blocks).count b := by
    have hb := hcount b
    rw [List.count_append] at hb
    simp only [count_blocks_node, List.count_append]
    omega
  have hframe := set_frame res.2.mem a .left l'.ptr
  refine ⟨List.subperm_iff_count.mpr hle, rfl, hres.capacity, ?_, ?_⟩
  · rw [hres.ptr]
    exact h.relink_left hres.frame (apart_left hpack) hres.stored (hpack.of_count hle) hspace
  · rw [hres.ptr]
    refine (hres.frame.of_count fun b => ?_).trans (hframe.of_count fun b => ?_)
    all_goals
      simp only [count_blocks_node, List.count_cons, List.count_append, List.count_nil]
      omega

/-- **The case of `update` for an item in the tree**: it is counted. -/
lemma insert_here (h : (node a d c i l r).Stored scm.capacity scm.mem)
    (hbal : (node a d c i l r).Balanced) (hshallow : (node a d c i l r).Shallow 4)
    (hpack : Span.Packed addr hi (stateBlock :: (node a d c i l r).blocks))
    (hs : CountersAt scm.mem s) (hitems : s.items + 1 < 2 ^ 64) (hc : c + 1 < 2 ^ 64) :
    Changes (counterSpan :: stateBlock :: (node a d c i l r).blocks) scm
        (Tree.setDepth (node a d (c + 1) i l r)) (a.ptr, { scm with
          mem := Heap.setDepth (increment (set scm.mem a.ptr .count (c + 1)) .items) a.ptr }) ∧
      CountersAt (Heap.setDepth (increment (set scm.mem a.ptr .count (c + 1)) .items) a.ptr)
        ⟨s.items + 1, s.unique⟩ := by
  obtain ⟨⟨-, -, hstate⟩, hpack'⟩ := Span.packed_cons.mp hpack
  obtain ⟨hstr, hnodel, hnoder⟩ := apart_node hpack'
  obtain ⟨hl, hr⟩ := hshallow.children hbal
  obtain ⟨ha, hls, hrs⟩ := h
  -- the count of the node
  have hframe₁ := set_frame scm.mem a .count (c + 1)
  have h₁ : (node a d (c + 1) i l r).Stored scm.capacity (set scm.mem a.ptr .count (c + 1)) :=
    ⟨ha.store .count (by decide) hc hstr, hls.frame_blocks hframe₁ (by simpa using hnodel),
      hrs.frame_blocks hframe₁ (by simpa using hnoder)⟩
  have hs₁ : CountersAt (set scm.mem a.ptr .count (c + 1)) s := by
    apply hs.frame hframe₁
    simpa using (hstate a.nodeBlock List.mem_cons_self).symm
  generalize set scm.mem a.ptr .count (c + 1) = m₁ at hframe₁ h₁ hs₁ ⊢
  -- the number of items
  have hframe₂ : Mem.AgreesOutside [stateBlock] m₁ (increment m₁ .items) :=
    set_state_agrees m₁ .items _
  have h₂ := h₁.frame_blocks hframe₂ (List.forall_mem_singleton.mpr hstate)
  have hs₂ := hs₁.increment_items hitems
  generalize increment m₁ .items = m₂ at hframe₂ h₂ hs₂ ⊢
  -- the depth
  have h₃ := setDepth_performs h₂ hpack' (hl.mono (by decide)) (hr.mono (by decide))
  refine ⟨⟨h₃.ptr, rfl, h₃.stored, ?_⟩, hs₂.frame h₃.frame fun b hb => (hstate b hb).symm⟩
  refine ((hframe₁.of_count fun b => ?_).trans (hframe₂.of_count fun b => ?_)).trans
    (h₃.frame.of_count fun b => ?_)
  all_goals
    simp only [count_blocks_node, List.count_cons, List.count_nil]
    omega

/-- **The case of `update` for a smaller item**, after the recursive call. -/
lemma insert_left (hspace : virtAddr + scm.capacity ≤ 2 ^ 64)
    (h : (node a d c i l r).Stored scm.capacity scm.mem) (hbal : (node a d c i l r).Balanced)
    (hshallow : (node a d c i l r).Shallow 4)
    (hpack : Span.Packed addr (virtAddr + scm.capacity)
      (stateBlock :: (new ++ (node a d c i l r).blocks)))
    (hres : Changes (counterSpan :: stateBlock :: (new ++ l.blocks)) scm l' res)
    (hs : CountersAt res.2.mem s) (hblocks : l'.blocks.Subperm (new ++ l.blocks))
    (hgrown : Grown x l l') :
    Changes (counterSpan :: stateBlock :: (new ++ (node a d c i l r).blocks)) scm
        (Tree.fixLeft x (node a d c i l' r))
        ((Heap.fixLeft res.2.capacity (set res.2.mem a.ptr .left res.1) a.ptr x).1,
          { res.2 with
            mem := (Heap.fixLeft res.2.capacity (set res.2.mem a.ptr .left res.1) a.ptr x).2 }) ∧
      CountersAt (Heap.fixLeft res.2.capacity (set res.2.mem a.ptr .left res.1) a.ptr x).2 s := by
  have hcount := List.subperm_iff_count.mp hblocks
  simp only [List.count_append] at hcount
  have hpack' : Span.Packed addr (virtAddr + scm.capacity)
      (stateBlock :: (node a d c i l' r).blocks) := hpack.of_count fun b => by
    have hb := hcount b
    simp only [count_blocks_node, List.count_cons, List.count_append]
    omega
  obtain ⟨⟨-, -, hstate⟩, hpack''⟩ := Span.packed_cons.mp hpack'
  obtain ⟨hl, hr⟩ := hshallow.children hbal
  have hl' : l'.Shallow 3 := by
    have hdelta := hgrown.2
    have hneg := hgrown.1.neg_one_le_delta
    have hlt := hl.2
    exact ⟨hneg, by omega⟩
  have hpack₀ : Span.Packed addr (virtAddr + scm.capacity)
      ((stateBlock :: new) ++ (node a d c i l r).blocks) := hpack
  obtain ⟨-, hrelinked⟩ := relinked_left hspace h hpack₀ hres
    (hblocks.trans (List.sublist_cons_self stateBlock _).subperm)
  have hfix := fixLeft_performs hspace hrelinked.stored hpack'' hbal hgrown hl'
    (hr.mono (by decide))
  have hframe := set_frame res.2.mem a .left res.1
  rw [hres.capacity]
  dsimp only at hfix
  generalize Heap.fixLeft scm.capacity (set res.2.mem a.ptr .left res.1) a.ptr x = fix at hfix ⊢
  refine ⟨⟨hfix.ptr, hres.capacity, hfix.stored, hrelinked.frame.trans ?_⟩, ?_⟩
  · refine hfix.frame.of_count fun b => ?_
    have hb := hcount b
    simp only [count_blocks_node, List.count_cons, List.count_append, List.count_nil]
    omega
  · refine (hs.frame hframe ?_).frame hfix.frame fun b hb => (hstate b hb).symm
    simpa using (hstate a.nodeBlock List.mem_cons_self).symm

/-- What a call on the right child changed is disjoint from the rest of the node. -/
lemma apart_right (hpack : Span.Packed addr hi (new ++ (node a d c i l r).blocks)) :
    ∀ s ∈ counterSpan :: (new ++ r.blocks),
      ∀ b ∈ a.nodeBlock :: a.strBlock i :: l.blocks, s.Disjoint b := by
  have hrest : Span.Packed addr hi (a.nodeBlock :: a.strBlock i :: l.blocks) :=
    hpack.of_count fun s => by
      simp only [count_blocks_node, List.count_cons, List.count_append, List.count_nil]
      omega
  have happart : ∀ s ∈ new ++ r.blocks, ∀ b ∈ a.nodeBlock :: a.strBlock i :: l.blocks,
      s.Disjoint b := hpack.apart fun s => by
    simp only [count_blocks_node, List.count_cons, List.count_append, List.count_nil]
    omega
  exact List.forall_mem_cons.mpr ⟨fun b hb => counterSpan_disjoint (hrest.start b hb), happart⟩

/-- **A node gets the right child that a call returned.** -/
lemma relinked_right (hspace : virtAddr + scm.capacity ≤ 2 ^ 64)
    (h : (node a d c i l r).Stored scm.capacity scm.mem)
    (hpack : Span.Packed addr (virtAddr + scm.capacity) (new ++ (node a d c i l r).blocks))
    (hres : Changes (counterSpan :: (new ++ r.blocks)) scm r' res)
    (hblocks : r'.blocks.Subperm (new ++ r.blocks)) :
    (node a d c i l r').blocks.Subperm (new ++ (node a d c i l r).blocks) ∧
      Changes (counterSpan :: (new ++ (node a d c i l r).blocks)) scm (node a d c i l r')
        (a.ptr, { res.2 with mem := set res.2.mem a.ptr .right res.1 }) := by
  have hcount := List.subperm_iff_count.mp hblocks
  have hle (b : Span) : (node a d c i l r').blocks.count b ≤
      (new ++ (node a d c i l r).blocks).count b := by
    have hb := hcount b
    rw [List.count_append] at hb
    simp only [count_blocks_node, List.count_append]
    omega
  have hframe := set_frame res.2.mem a .right r'.ptr
  refine ⟨List.subperm_iff_count.mpr hle, rfl, hres.capacity, ?_, ?_⟩
  · rw [hres.ptr]
    exact h.relink_right hres.frame (apart_right hpack) hres.stored (hpack.of_count hle) hspace
  · rw [hres.ptr]
    refine (hres.frame.of_count fun b => ?_).trans (hframe.of_count fun b => ?_)
    all_goals
      simp only [count_blocks_node, List.count_cons, List.count_append, List.count_nil]
      omega

/-- **The case of `update` for a larger item**, after the recursive call. -/
lemma insert_right (hspace : virtAddr + scm.capacity ≤ 2 ^ 64)
    (h : (node a d c i l r).Stored scm.capacity scm.mem) (hbal : (node a d c i l r).Balanced)
    (hshallow : (node a d c i l r).Shallow 4)
    (hpack : Span.Packed addr (virtAddr + scm.capacity)
      (stateBlock :: (new ++ (node a d c i l r).blocks)))
    (hres : Changes (counterSpan :: stateBlock :: (new ++ r.blocks)) scm r' res)
    (hs : CountersAt res.2.mem s) (hblocks : r'.blocks.Subperm (new ++ r.blocks))
    (hgrown : Grown x r r') :
    Changes (counterSpan :: stateBlock :: (new ++ (node a d c i l r).blocks)) scm
        (Tree.fixRight x (node a d c i l r'))
        ((Heap.fixRight res.2.capacity (set res.2.mem a.ptr .right res.1) a.ptr x).1,
          { res.2 with
            mem := (Heap.fixRight res.2.capacity (set res.2.mem a.ptr .right res.1) a.ptr x).2 }) ∧
      CountersAt (Heap.fixRight res.2.capacity (set res.2.mem a.ptr .right res.1) a.ptr x).2 s := by
  have hcount := List.subperm_iff_count.mp hblocks
  simp only [List.count_append] at hcount
  have hpack' : Span.Packed addr (virtAddr + scm.capacity)
      (stateBlock :: (node a d c i l r').blocks) := hpack.of_count fun b => by
    have hb := hcount b
    simp only [count_blocks_node, List.count_cons, List.count_append]
    omega
  obtain ⟨⟨-, -, hstate⟩, hpack''⟩ := Span.packed_cons.mp hpack'
  obtain ⟨hl, hr⟩ := hshallow.children hbal
  have hr' : r'.Shallow 3 := by
    have hdelta := hgrown.2
    have hneg := hgrown.1.neg_one_le_delta
    have hlt := hr.2
    exact ⟨hneg, by omega⟩
  have hpack₀ : Span.Packed addr (virtAddr + scm.capacity)
      ((stateBlock :: new) ++ (node a d c i l r).blocks) := hpack
  obtain ⟨-, hrelinked⟩ := relinked_right hspace h hpack₀ hres
    (hblocks.trans (List.sublist_cons_self stateBlock _).subperm)
  have hfix := fixRight_performs hspace hrelinked.stored hpack'' hbal hgrown
    (hl.mono (by decide)) hr'
  have hframe := set_frame res.2.mem a .right res.1
  rw [hres.capacity]
  dsimp only at hfix
  generalize Heap.fixRight scm.capacity (set res.2.mem a.ptr .right res.1) a.ptr x = fix at hfix ⊢
  refine ⟨⟨hfix.ptr, hres.capacity, hfix.stored, hrelinked.frame.trans ?_⟩, ?_⟩
  · refine hfix.frame.of_count fun b => ?_
    have hb := hcount b
    simp only [count_blocks_node, List.count_cons, List.count_append, List.count_nil]
    omega
  · refine (hs.frame hframe ?_).frame hfix.frame fun b hb => (hstate b hb).symm
    simpa using (hstate a.nodeBlock List.mem_cons_self).symm

end Node

/-- **`update` inserts into the stored tree.** The blocks that the insertion allocates must be free;
the call changes these, the blocks of the tree, the counters, and the first word of the mapping.

**Proof sketch.** Induction on the tree. The recursive call changes blocks of its subtree and new
blocks only, so the rest of the node is kept, and gets the new subtree as its child; the rotations
then do what they do to trees, since the subtree grew as in a balanced tree. -/
theorem update_stored {t : Tree Place} (hspace : virtAddr + scm.capacity ≤ 2 ^ 64)
    (hs : CountersAt scm.mem s) (hitems : s.items + 1 < 2 ^ 64) (hunique : s.unique + 1 < 2 ^ 64)
    (h : t.Stored scm.capacity scm.mem) (hcount : t.lookup x + 1 < 2 ^ 64) (hbal : t.Balanced)
    (hshallow : t.Shallow 4) {fuel : ℕ} (hfuel : t.size < fuel)
    (hpack : Span.Packed addr (virtAddr + scm.capacity)
      (stateBlock :: (t.insertBlocks scm x ++ t.blocks))) :
    ∃ res, Heap.update fuel scm t.ptr x = some res ∧
      Changes (counterSpan :: stateBlock :: (t.insertBlocks scm x ++ t.blocks)) scm
        (Tree.update scm.fresh x s t).2 res ∧
      CountersAt res.2.mem (Tree.update scm.fresh x s t).1 := by
  induction t generalizing fuel with
  | nil =>
    obtain ⟨fuel, rfl⟩ : ∃ k, fuel = k + 1 := ⟨fuel - 1, by omega⟩
    exact ⟨newNode scm x, rfl, newNode_stored hspace hs hitems hunique hpack⟩
  | node a d c i l r ihl ihr =>
    obtain ⟨fuel, rfl⟩ : ∃ k, fuel = k + 1 := ⟨fuel - 1, by omega⟩
    obtain ⟨hd, hb, hlbal, hrbal⟩ := Balanced.node_iff.mp hbal
    obtain ⟨hlsh, hrsh⟩ := hshallow.children hbal
    rw [size] at hfuel
    rw [Tree.lookup] at hcount
    rw [insertBlocks] at hpack ⊢
    rw [Tree.update]
    simp only [Heap.update, ptr_node, if_neg a.ptr_ne_zero, h.1.strAt]
    by_cases heq : CString.strcmp x i = 0
    · simp only [if_pos heq, List.nil_append] at hcount hpack ⊢
      have hinsert := insert_here h hbal hshallow hpack hs hitems hcount
      rw [h.1.count]
      exact ⟨_, rfl, hinsert⟩
    · simp only [if_neg heq] at hcount hpack ⊢
      by_cases hlt : 0 > CString.strcmp x i
      · simp only [if_pos hlt] at hcount hpack ⊢
        obtain ⟨⟨left, scm'⟩, hres, hchanges, hcounters⟩ := ihl h.2.1 hcount hlbal
          (hlsh.mono (by decide)) (by omega : l.size < fuel) (hpack.of_count fun b => by
            simp only [count_blocks_node, List.count_cons, List.count_append]
            omega)
        have hinsert := insert_left hspace h hbal hshallow hpack hchanges hcounters
          (blocks_update scm x s l).subperm (balanced_update scm.fresh x s hlbal)
        dsimp only at hinsert
        rw [h.1.left, hres]
        dsimp only
        generalize Heap.fixLeft scm'.capacity (set scm'.mem a.ptr .left left) a.ptr x = fix
          at hinsert ⊢
        exact ⟨_, rfl, hinsert⟩
      · simp only [if_neg hlt] at hcount hpack ⊢
        obtain ⟨⟨right, scm'⟩, hres, hchanges, hcounters⟩ := ihr h.2.2 hcount hrbal
          (hrsh.mono (by decide)) (by omega : r.size < fuel) (hpack.of_count fun b => by
            simp only [count_blocks_node, List.count_cons, List.count_append]
            omega)
        have hinsert := insert_right hspace h hbal hshallow hpack hchanges hcounters
          (blocks_update scm x s r).subperm (balanced_update scm.fresh x s hrbal)
        dsimp only at hinsert
        rw [h.1.right, hres]
        dsimp only
        generalize Heap.fixRight scm'.capacity (set scm'.mem a.ptr .right right) a.ptr x = fix
          at hinsert ⊢
        exact ⟨_, rfl, hinsert⟩

end Cs238p.P3
