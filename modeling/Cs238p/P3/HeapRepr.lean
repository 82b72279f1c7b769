import Cs238p.Lib.Packing
import Cs238p.P3.AvlNodes
import Cs238p.P3.Heap

set_option relaxedAutoImplicit false
set_option autoImplicit false

/-!
# Trees stored in a region

A tree whose nodes are annotated with the blocks they occupy is stored in a memory if the fields
of its nodes and the bytes of its strings are found in these blocks. The functions of the heap
that read a stored tree return what the functions on trees return, and a change elsewhere in the
memory keeps the tree stored.

## Main definitions

* `Place` — the two blocks of a node; `Tree.blocks` — all blocks of a tree.
* `Tree.Stored` — the tree is stored in the memory.
* `Heap.decode` — the tree that is found at a pointer.

## Main results

* `Tree.Stored.frame` — changes outside of the payloads of the blocks.
* `Tree.Stored.lookup`, `Tree.Stored.traverse`, `Tree.Stored.decode` — reading a stored tree.
* `Tree.Stored.relink_left`, `Tree.Stored.relink_right` — a node gets another child.
-/

namespace Cs238p.P3

/-! ## Blocks -/

/-- The blocks of a node, by their first addresses: the `struct node` and its string. -/
structure Place where
  node : ℕ
  str : ℕ
  deriving DecidableEq

namespace Place

/-- The block of the `struct node`. -/
def nodeBlock (a : Place) : Span := ⟨a.node, 2 + 8 + nodeLayout.size⟩

/-- The block of the string. -/
def strBlock (a : Place) (i : CString) : Span := ⟨a.str, 2 + 8 + (i.strlen + 1)⟩

/-- The pointer to the node. -/
def ptr (a : Place) : ℕ := a.node + 2 + 8

/-- The pointer to the string. -/
def strPtr (a : Place) : ℕ := a.str + 2 + 8

lemma ptr_ne_zero (a : Place) : a.ptr ≠ 0 := Nat.succ_ne_zero _

end Place

/-- The block of `struct state`. -/
def stateBlock : Span := ⟨addr, 2 + 8 + stateLayout.size⟩

/-- The bytes of a block behind its flag and its size. -/
def payload (b : Span) : Span := ⟨b.start + 2 + 8, b.len - (2 + 8)⟩

lemma payload_strBlock (a : Place) (i : CString) :
    payload (a.strBlock i) = ⟨a.strPtr, i.strlen + 1⟩ := by
  rw [payload, Place.strBlock, Nat.add_sub_cancel_left, Place.strPtr]

lemma payload_within {b : Span} (h : 2 + 8 ≤ b.len) : (payload b).Within b := by
  rw [payload, Span.within_def]
  simp only
  omega

namespace Tree

/-- The pointer to the root. -/
def ptr : Tree Place → ℕ
  | nil => 0
  | node a _ _ _ _ _ => a.ptr

/-- The blocks of all nodes. -/
def blocks : Tree Place → List Span
  | nil => []
  | node a _ _ i l r => a.nodeBlock :: a.strBlock i :: (l.blocks ++ r.blocks)

variable {t t' l l' r r' : Tree Place} {a a' : Place} {d : ℤ} {c : ℕ} {i x : CString} {b : Span}

@[simp] lemma ptr_nil : (nil : Tree Place).ptr = 0 := rfl

@[simp] lemma ptr_node : (node a d c i l r).ptr = a.ptr := rfl

lemma ptr_eq_zero_iff : t.ptr = 0 ↔ t = nil := by
  cases t with
  | nil => simp
  | node a d c i l r => simp [a.ptr_ne_zero]

lemma blocks_node :
    (node a d c i l r).blocks = a.nodeBlock :: a.strBlock i :: (l.blocks ++ r.blocks) := rfl

/-- How often a block occurs, for comparing the blocks of two trees. -/
lemma count_blocks_node (s : Span) :
    (node a d c i l r).blocks.count s =
      [a.nodeBlock].count s + [a.strBlock i].count s + l.blocks.count s + r.blocks.count s := by
  simp only [blocks_node, List.count_cons, List.count_append, List.count_nil]
  omega

/-- The blocks are those of the nodes, in another order. -/
lemma blocks_perm_nodes (t : Tree Place) :
    t.blocks.Perm (t.nodes.flatMap fun e => [e.1.nodeBlock, e.1.strBlock e.2]) := by
  induction t with
  | nil => exact List.Perm.refl _
  | node a d c i l r ihl ihr =>
    rw [List.perm_iff_count] at ihl ihr ⊢
    intro s
    rw [count_blocks_node, ihl, ihr, nodes_node, List.flatMap_append, List.flatMap_cons]
    simp only [List.count_append, List.count_cons, List.count_nil]
    omega

/-- Trees with the same nodes have the same blocks. -/
lemma blocks_perm_of_nodes (h : t.nodes = t'.nodes) : t.blocks.Perm t'.blocks := by
  refine t.blocks_perm_nodes.trans ?_
  rw [h]
  exact t'.blocks_perm_nodes.symm

lemma le_len_of_mem_blocks (hb : b ∈ t.blocks) : 2 + 8 < b.len := by
  induction t with
  | nil => exact absurd hb List.not_mem_nil
  | node a d c i l r ihl ihr =>
    rw [blocks_node, List.mem_cons, List.mem_cons, List.mem_append] at hb
    rcases hb with rfl | rfl | hb | hb
    · exact Nat.lt_add_of_pos_right (by decide)
    · exact Nat.lt_add_of_pos_right (Nat.succ_pos _)
    · exact ihl hb
    · exact ihr hb

lemma length_blocks (t : Tree Place) : t.blocks.length = 2 * t.size := by
  induction t with
  | nil => rfl
  | node a d c i l r ihl ihr =>
    rw [blocks_node, List.length_cons, List.length_cons, List.length_append, ihl, ihr, size]
    omega

lemma length_traverse {ι : Type} (t : Tree ι) : t.traverse.length = t.size := by
  induction t with
  | nil => rfl
  | node a d c i l r ihl ihr =>
    rw [traverse_node, List.length_append, List.length_cons, ihl, ihr, size]
    omega

/-- Blocks inside the address space have pointers that fit into a field. -/
lemma ptr_lt {lo hi : ℕ} (h : Span.Packed lo hi t.blocks) (hhi : hi ≤ 2 ^ 64) :
    t.ptr < 2 ^ 64 := by
  cases t with
  | nil => exact Nat.two_pow_pos 64
  | node a d c i l r =>
    have hstop := h.stop _ List.mem_cons_self
    have hsize : nodeLayout.size = 40 := rfl
    rw [Place.nodeBlock, Span.stop] at hstop
    rw [ptr_node, Place.ptr]
    simp only at hstop
    omega

end Tree

/-! ## Integers and strings -/

lemma toInt_ofInt {d : ℤ} (h : -1 ≤ d) (h' : d < 2 ^ 31) : toInt (ofInt d) = d := by
  unfold toInt ofInt
  split <;> omega

lemma ofInt_lt (d : ℤ) : ofInt d < 256 ^ 4 := by
  unfold ofInt
  omega

lemma bytesAt_of_read {m : Mem} {n p : ℕ} {bs : List UInt8} (hnul : 0 ∉ bs)
    (hread : m.read p (bs.length + 1) = bs ++ [0]) (hn : bs.length ≤ n) :
    bytesAt m n p = bs := by
  induction bs generalizing n p with
  | nil =>
    rw [List.length_nil, Mem.read_succ] at hread
    have hzero : m p = 0 := List.head_eq_of_cons_eq hread
    cases n with
    | zero => rfl
    | succ n => rw [bytesAt, if_pos hzero]
  | cons b bs ih =>
    rw [List.length_cons, Mem.read_succ, List.cons_append] at hread
    obtain ⟨hb, hread⟩ := List.cons_eq_cons.mp hread
    rw [List.mem_cons, not_or] at hnul
    rw [List.length_cons] at hn
    obtain ⟨n, rfl⟩ : ∃ k, n = k + 1 := ⟨n - 1, by omega⟩
    rw [bytesAt, hb, if_neg (Ne.symm hnul.1), ih hnul.2 hread (by omega)]

/-- A string with its terminator is read as this string. -/
lemma strAt_of_read {m : Mem} {n p : ℕ} {i : CString}
    (hread : m.read p (i.strlen + 1) = i.bytes ++ [0]) (hn : i.strlen ≤ n) : strAt n m p = i :=
  CString.ext (bytesAt_of_read i.nul_free hread hn)

/-! ## Stored nodes -/

open Heap

/-- The fields of a node and its string are stored in its blocks. -/
structure NodeAt (n : ℕ) (m : Mem) (a : Place) (d : ℤ) (c : ℕ) (i : CString) (l r : ℕ) : Prop where
  depth : toInt (get m a.ptr .depth) = d
  count : get m a.ptr .count = c
  item : get m a.ptr .item = a.strPtr
  left : get m a.ptr .left = l
  right : get m a.ptr .right = r
  string : m.read a.strPtr (i.strlen + 1) = i.bytes ++ [0]
  strlen_le : i.strlen ≤ n

section NodeAt

variable {n : ℕ} {m m' : Mem} {a : Place} {d : ℤ} {c p q v : ℕ} {i : CString} {W : List Span}

lemma NodeAt.strAt (h : NodeAt n m a d c i p q) : strAt n m (get m a.ptr .item) = i := by
  rw [h.item]
  exact strAt_of_read h.string h.strlen_le

/-- A node is kept where the payloads of its blocks are. -/
lemma NodeAt.congr (h : NodeAt n m a d c i p q)
    (hnode : ∀ x ∈ payload a.nodeBlock, m' x = m x)
    (hstr : ∀ x ∈ payload (a.strBlock i), m' x = m x) : NodeAt n m' a d c i p q := by
  have hget (f : NodeField) : get m' a.ptr f = get m a.ptr f := RecordLayout.get_congr hnode
  have hread : m'.read a.strPtr (i.strlen + 1) = m.read a.strPtr (i.strlen + 1) := by
    refine Mem.read_congr fun x hx => hstr x ?_
    rwa [payload_strBlock]
  refine ⟨?_, ?_, ?_, ?_, ?_, ?_, h.strlen_le⟩
  · rw [hget, h.depth]
  · rw [hget, h.count]
  · rw [hget, h.item]
  · rw [hget, h.left]
  · rw [hget, h.right]
  · rw [hread, h.string]

/-- A node is kept by a change outside of the payloads of its blocks. -/
lemma NodeAt.frame (h : NodeAt n m a d c i p q) (hm : Mem.AgreesOutside W m m')
    (hnode : ∀ s ∈ W, s.Disjoint (payload a.nodeBlock))
    (hstr : ∀ s ∈ W, s.Disjoint (payload (a.strBlock i))) : NodeAt n m' a d c i p q :=
  h.congr (fun _ hx => hm.eq_of_disjoint hnode hx) (fun _ hx => hm.eq_of_disjoint hstr hx)

/-- A node is kept by a change outside of its blocks. -/
lemma NodeAt.frame_blocks (h : NodeAt n m a d c i p q) (hm : Mem.AgreesOutside W m m')
    (hW : ∀ s ∈ W, s.Disjoint a.nodeBlock ∧ s.Disjoint (a.strBlock i)) :
    NodeAt n m' a d c i p q := by
  apply h.frame hm
  · intro s hs
    exact (hW s hs).1.mono (Span.Within.refl s) (payload_within (Nat.le_add_right _ _))
  · intro s hs
    exact (hW s hs).2.mono (Span.Within.refl s) (payload_within (Nat.le_add_right _ _))

/-- A store into a field changes the block of its node only. -/
lemma set_frame (m : Mem) (a : Place) (f : NodeField) (v : ℕ) :
    Mem.AgreesOutside [a.nodeBlock] m (set m a.ptr f v) := by
  refine (nodeLayout.agreesOutside_set m a.ptr f v).mono fun s hs => ?_
  obtain rfl := List.mem_singleton.mp hs
  exact ⟨a.nodeBlock, List.mem_cons_self, payload_within (Nat.le_add_right _ _)⟩

/-- A store into a field of a node changes no string. -/
lemma read_strPtr_set {f : NodeField} (hdisj : a.nodeBlock.Disjoint (a.strBlock i)) :
    (set m a.ptr f v).read a.strPtr (i.strlen + 1) = m.read a.strPtr (i.strlen + 1) := by
  refine Mem.read_congr fun x hx => (set_frame m a f v).eq_of_disjoint (b := a.strBlock i) ?_ ?_
  · simpa using hdisj
  · rw [← payload_strBlock] at hx
    exact (payload_within (Nat.le_add_right _ _)).mem hx

/-- A count or a child is stored. -/
lemma NodeAt.store (h : NodeAt n m a d c i p q) (f : NodeField) (hf : f ≠ .depth ∧ f ≠ .item)
    (hv : v < 2 ^ 64) (hdisj : a.nodeBlock.Disjoint (a.strBlock i)) :
    NodeAt n (set m a.ptr f v) a d (if f = .count then v else c) i
      (if f = .left then v else p) (if f = .right then v else q) := by
  have hself : get (set m a.ptr f v) a.ptr f = v := by
    apply RecordLayout.get_set_self
    cases f with
    | depth => exact absurd rfl hf.1
    | count => exact hv
    | item => exact absurd rfl hf.2
    | left => exact hv
    | right => exact hv
  have hne {g : NodeField} (hg : f ≠ g) : get (set m a.ptr f v) a.ptr g = get m a.ptr g :=
    RecordLayout.get_set_of_ne hg
  refine ⟨?_, ?_, ?_, ?_, ?_, ?_, h.strlen_le⟩
  · rw [hne hf.1, h.depth]
  · split
    · next heq => rw [← heq, hself]
    · next hg => rw [hne hg, h.count]
  · rw [hne hf.2, h.item]
  · split
    · next heq => rw [← heq, hself]
    · next hg => rw [hne hg, h.left]
  · split
    · next heq => rw [← heq, hself]
    · next hg => rw [hne hg, h.right]
  · rw [read_strPtr_set hdisj, h.string]

/-- A depth is stored. -/
lemma NodeAt.storeDepth (h : NodeAt n m a d c i p q) {d' : ℤ} (hd : -1 ≤ d') (hd' : d' < 2 ^ 31)
    (hdisj : a.nodeBlock.Disjoint (a.strBlock i)) :
    NodeAt n (set m a.ptr .depth (ofInt d')) a d' c i p q := by
  have hne {g : NodeField} (hg : .depth ≠ g) :
      get (set m a.ptr .depth (ofInt d')) a.ptr g = get m a.ptr g :=
    RecordLayout.get_set_of_ne hg
  have hself : get (set m a.ptr .depth (ofInt d')) a.ptr .depth = ofInt d' :=
    RecordLayout.get_set_self (ofInt_lt d')
  refine ⟨?_, ?_, ?_, ?_, ?_, ?_, h.strlen_le⟩
  · rw [hself, toInt_ofInt hd hd']
  · rw [hne (by decide), h.count]
  · rw [hne (by decide), h.item]
  · rw [hne (by decide), h.left]
  · rw [hne (by decide), h.right]
  · rw [read_strPtr_set hdisj, h.string]

end NodeAt

/-! ## Stored trees -/

namespace Tree

variable {n lo hi : ℕ} {m m' : Mem} {W : List Span} {t l l' r r' : Tree Place} {a : Place} {d : ℤ}
  {c : ℕ} {i x : CString}

/-- The tree is stored in the memory, in its blocks. -/
def Stored (n : ℕ) (m : Mem) : Tree Place → Prop
  | nil => True
  | node a d c i l r => NodeAt n m a d c i l.ptr r.ptr ∧ l.Stored n m ∧ r.Stored n m

/-- A tree is kept where the payloads of its blocks are. -/
lemma Stored.congr (h : t.Stored n m) (hm : ∀ b ∈ t.blocks, ∀ x ∈ payload b, m' x = m x) :
    t.Stored n m' := by
  induction t with
  | nil => trivial
  | node a d c i l r ihl ihr =>
    obtain ⟨ha, hl, hr⟩ := h
    rw [blocks_node] at hm
    simp only [List.forall_mem_cons, List.forall_mem_append] at hm
    exact ⟨ha.congr hm.1 hm.2.1, ihl hl hm.2.2.1, ihr hr hm.2.2.2⟩

/-- **The frame rule**: a tree is kept by a change outside of the payloads of its blocks. -/
theorem Stored.frame (h : t.Stored n m) (hm : Mem.AgreesOutside W m m')
    (hW : ∀ s ∈ W, ∀ b ∈ t.blocks, s.Disjoint (payload b)) : t.Stored n m' :=
  h.congr fun b hb _ hx => hm.eq_of_disjoint (fun s hs => hW s hs b hb) hx

/-- A tree is kept by a change outside of its blocks. -/
lemma Stored.frame_blocks (h : t.Stored n m) (hm : Mem.AgreesOutside W m m')
    (hW : ∀ s ∈ W, ∀ b ∈ t.blocks, s.Disjoint b) : t.Stored n m' :=
  h.frame hm fun s hs b hb =>
    (hW s hs b hb).mono (Span.Within.refl s) (payload_within (le_len_of_mem_blocks hb).le)

/-- The parts of a node whose blocks lie apart. -/
lemma apart_node (h : Span.Packed lo hi (node a d c i l r).blocks) :
    a.nodeBlock.Disjoint (a.strBlock i) ∧ (∀ b ∈ l.blocks, a.nodeBlock.Disjoint b) ∧
      (∀ b ∈ r.blocks, a.nodeBlock.Disjoint b) := by
  have happart := (Span.packed_cons.mp h).1.2.2
  simp only [List.forall_mem_cons, List.forall_mem_append] at happart
  exact happart

/-- **A node gets another left child**, after a change that left the rest of it alone. -/
lemma Stored.relink_left (h : (node a d c i l r).Stored n m) (hm : Mem.AgreesOutside W m m')
    (hW : ∀ s ∈ W, ∀ b ∈ a.nodeBlock :: a.strBlock i :: r.blocks, s.Disjoint b)
    (hl' : l'.Stored n m') (hpack : Span.Packed lo hi (node a d c i l' r).blocks)
    (hhi : hi ≤ 2 ^ 64) : (node a d c i l' r).Stored n (set m' a.ptr .left l'.ptr) := by
  obtain ⟨ha, -, hr⟩ := h
  simp only [List.forall_mem_cons] at hW
  obtain ⟨hstr, hnodel, hnoder⟩ := apart_node hpack
  have hlt : l'.ptr < 2 ^ 64 := ptr_lt (hpack.of_count fun s => by
    rw [count_blocks_node]
    omega) hhi
  have ha' : NodeAt n m' a d c i l.ptr r.ptr :=
    ha.frame_blocks hm fun s hs => ⟨(hW s hs).1, (hW s hs).2.1⟩
  have hr' : r.Stored n m' := hr.frame_blocks hm fun s hs => (hW s hs).2.2
  refine ⟨ha'.store .left (by decide) hlt hstr, ?_, ?_⟩
  · exact hl'.frame_blocks (set_frame m' a .left _) (by simpa using hnodel)
  · exact hr'.frame_blocks (set_frame m' a .left _) (by simpa using hnoder)

/-- **A node gets another right child**, after a change that left the rest of it alone. -/
lemma Stored.relink_right (h : (node a d c i l r).Stored n m) (hm : Mem.AgreesOutside W m m')
    (hW : ∀ s ∈ W, ∀ b ∈ a.nodeBlock :: a.strBlock i :: l.blocks, s.Disjoint b)
    (hr' : r'.Stored n m') (hpack : Span.Packed lo hi (node a d c i l r').blocks)
    (hhi : hi ≤ 2 ^ 64) : (node a d c i l r').Stored n (set m' a.ptr .right r'.ptr) := by
  obtain ⟨ha, hl, -⟩ := h
  simp only [List.forall_mem_cons] at hW
  obtain ⟨hstr, hnodel, hnoder⟩ := apart_node hpack
  have hlt : r'.ptr < 2 ^ 64 := ptr_lt (hpack.of_count fun s => by
    rw [count_blocks_node]
    omega) hhi
  have ha' : NodeAt n m' a d c i l.ptr r.ptr :=
    ha.frame_blocks hm fun s hs => ⟨(hW s hs).1, (hW s hs).2.1⟩
  have hl' : l.Stored n m' := hl.frame_blocks hm fun s hs => (hW s hs).2.2
  refine ⟨ha'.store .right (by decide) hlt hstr, ?_, ?_⟩
  · exact hl'.frame_blocks (set_frame m' a .right _) (by simpa using hnodel)
  · exact hr'.frame_blocks (set_frame m' a .right _) (by simpa using hnoder)

/-! ## Reading a stored tree -/

/-- The depth of a stored tree is read. -/
lemma Stored.delta (h : t.Stored n m) : Heap.delta m t.ptr = t.delta := by
  cases t with
  | nil => rfl
  | node a d c i l r =>
    rw [Heap.delta, ptr_node, if_pos a.ptr_ne_zero, h.1.depth, delta_node]

lemma Stored.balance (h : (node a d c i l r).Stored n m) :
    Heap.balance m a.ptr = l.delta - r.delta := by
  obtain ⟨ha, hl, hr⟩ := h
  rw [Heap.balance, ha.left, ha.right, hl.delta, hr.delta]

lemma Stored.depth (hl : l.Stored n m) (hr : r.Stored n m) :
    Heap.depth m l.ptr r.ptr = Tree.depth l r := by
  rw [Heap.depth, hl.delta, hr.delta, Tree.depth]

/-- **`avl_exists`** searches the stored tree. -/
theorem Stored.lookup (h : t.Stored n m) {fuel : ℕ} (hfuel : t.size < fuel) :
    Heap.lookup n m fuel t.ptr x = some (t.lookup x) := by
  induction t generalizing fuel with
  | nil =>
    obtain ⟨fuel, rfl⟩ : ∃ k, fuel = k + 1 := ⟨fuel - 1, by omega⟩
    rfl
  | node a d c i l r ihl ihr =>
    obtain ⟨fuel, rfl⟩ : ∃ k, fuel = k + 1 := ⟨fuel - 1, by omega⟩
    obtain ⟨ha, hl, hr⟩ := h
    rw [size] at hfuel
    simp only [Heap.lookup, ptr_node, if_neg a.ptr_ne_zero, ha.strAt, ha.count, ha.left, ha.right,
      Tree.lookup]
    split
    · rfl
    · split
      · exact ihl hl (by omega)
      · exact ihr hr (by omega)

/-- **`avl_traverse`** reports the in-order list of the stored tree. -/
theorem Stored.traverse (h : t.Stored n m) {fuel : ℕ} (hfuel : t.size < fuel) :
    Heap.traverse n m fuel t.ptr = some t.traverse := by
  induction t generalizing fuel with
  | nil =>
    obtain ⟨fuel, rfl⟩ : ∃ k, fuel = k + 1 := ⟨fuel - 1, by omega⟩
    rfl
  | node a d c i l r ihl ihr =>
    obtain ⟨fuel, rfl⟩ : ∃ k, fuel = k + 1 := ⟨fuel - 1, by omega⟩
    obtain ⟨ha, hl, hr⟩ := h
    rw [size] at hfuel
    have hleft := ihl hl (by omega : l.size < fuel)
    have hright := ihr hr (by omega : r.size < fuel)
    simp only [Heap.traverse, ptr_node, if_neg a.ptr_ne_zero, ha.strAt, ha.count, ha.left,
      ha.right, hleft, hright, traverse_node]

end Tree

namespace Heap

/-- The tree that is found at a pointer, unless the pointers form a cycle. -/
def decode (n : ℕ) (m : Mem) : ℕ → ℕ → Option (Tree Place)
  | 0, _ => none
  | fuel + 1, p =>
    if p = 0 then some .nil
    else
      match decode n m fuel (get m p .left), decode n m fuel (get m p .right) with
      | some l, some r =>
        some (.node ⟨p - 8 - 2, get m p .item - 8 - 2⟩ (toInt (get m p .depth)) (get m p .count)
          (Cs238p.P3.strAt n m (get m p .item)) l r)
      | _, _ => none

end Heap

/-- A stored tree is found at its pointer. -/
theorem Tree.Stored.decode {n : ℕ} {m : Mem} {t : Tree Place} (h : t.Stored n m) {fuel : ℕ}
    (hfuel : t.size < fuel) : Heap.decode n m fuel t.ptr = some t := by
  induction t generalizing fuel with
  | nil =>
    obtain ⟨fuel, rfl⟩ : ∃ k, fuel = k + 1 := ⟨fuel - 1, by omega⟩
    rfl
  | node a d c i l r ihl ihr =>
    obtain ⟨fuel, rfl⟩ : ∃ k, fuel = k + 1 := ⟨fuel - 1, by omega⟩
    obtain ⟨ha, hl, hr⟩ := h
    rw [size] at hfuel
    have hleft := ihl hl (by omega : l.size < fuel)
    have hright := ihr hr (by omega : r.size < fuel)
    have hplace : Place.mk (a.ptr - 8 - 2) (a.strPtr - 8 - 2) = a := by
      rw [Place.ptr, Place.strPtr]
      simp
    simp only [Heap.decode, ptr_node, if_neg a.ptr_ne_zero, ha.count, ha.left, ha.right, ha.depth,
      ha.item, hleft, hright]
    rw [hplace, ← ha.item, ha.strAt]

end Cs238p.P3
