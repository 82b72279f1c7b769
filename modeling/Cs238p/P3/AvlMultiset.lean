import Cs238p.P3.AvlInvariant

set_option relaxedAutoImplicit false
set_option autoImplicit false

/-!
# The AVL tree implements a counted multiset

The abstract component is a multiset of strings: an insertion adds an occurrence, a removal erases
one and reports whether there was one. A tree represents a multiset if it satisfies the
representation invariant, its in-order list is the list of the distinct elements with their
multiplicities, and its two counters are the sizes of the multiset and of its support.

## Main definitions

* `specExec`, `runSpec` — the calls on multisets.
* `Represents` — the abstraction relation.

## Main results

* `represents_exec` — one call is simulated, return value included.
* `runCalls_refines` — every run of calls implements the multiset.
-/

namespace Cs238p.P3

open SortedCounts

variable {ι : Type}

/-! ## The abstract multiset -/

/-- A call on the abstract multiset: its return value and the multiset after it. -/
def specExec (m : Multiset CString) : Call ι → ℤ × Multiset CString
  | .insert item _ => (0, item.1 ::ₘ m)
  | .remove item _ => if m.count item.1 = 0 then (1, m) else (0, m.erase item.1)

/-- The multiset after a sequence of calls, starting from the empty one. -/
def runSpec (calls : List (Call ι)) : Multiset CString :=
  calls.foldl (fun m call => (specExec m call).2) 0

/-- The tree represents the multiset. -/
structure Represents (avl : Avl ι) (m : Multiset CString) : Prop where
  valid : avl.root.Valid
  elements : toMultiset avl.root.traverse = m
  items : avl.items = m.card
  unique : avl.unique = m.toFinset.card

lemma represents_empty : Represents (Avl.empty : Avl ι) 0 :=
  ⟨Tree.valid_nil, rfl, rfl, rfl⟩

/-! ## Lookup and counters -/

/-- The search loop finds the count of the in-order list. -/
lemma Tree.lookup_eq_get {t : Tree ι} (h : Sorted t.traverse) (x : CString) :
    t.lookup x = SortedCounts.get x t.traverse := by
  induction t with
  | nil => rfl
  | node a d c i l r ihl ihr =>
    obtain ⟨hl, hr, -, -⟩ := sorted_append_cons.mp h
    rw [traverse_node, get_append h, lookup]
    simp only [CString.strcmp_eq_zero_iff, gt_iff_lt, CString.strcmp_neg_iff]
    rcases lt_trichotomy x i with hx | rfl | hx
    · rw [if_neg hx.ne, if_pos hx, if_pos hx, ihl hl]
    · rw [if_pos rfl, if_neg (lt_irrefl x), if_pos rfl]
    · rw [if_neg hx.ne', if_neg hx.asymm, if_neg hx.asymm, if_neg hx.ne', ihr hr]

/-- The search loop finds the multiplicity. -/
lemma Represents.lookup {avl : Avl ι} {m : Multiset CString} (h : Represents avl m)
    (x : CString) : avl.root.lookup x = m.count x := by
  rw [Tree.lookup_eq_get h.valid.sorted, ← h.elements, count_toMultiset h.valid.sorted]

/-- `update` counts the item once, and counts a new node once. -/
lemma Tree.counters_update (fresh : ι) (x : CString) (s : Counters) (t : Tree ι) :
    (update fresh x s t).1.items = s.items + 1 ∧
      (update fresh x s t).1.unique + t.traverse.length =
        s.unique + (update fresh x s t).2.traverse.length := by
  induction t with
  | nil => exact ⟨rfl, rfl⟩
  | node a d c i l r ihl ihr =>
    rw [update]
    split
    · exact ⟨rfl, by simp [setDepth]⟩
    · split
      · refine ⟨ihl.1, ?_⟩
        have := ihl.2
        simp only [traverse_fixLeft, traverse_node, List.length_append, List.length_cons]
        omega
      · refine ⟨ihr.1, ?_⟩
        have := ihr.2
        simp only [traverse_fixRight, traverse_node, List.length_append, List.length_cons]
        omega

/-! ## Simulation -/

/-- An insertion is simulated. -/
lemma represents_insert {avl : Avl ι} {m : Multiset CString} (h : Represents avl m) (fresh : ι)
    (item : Word) : Represents (avlInsert fresh avl item).2 (item.1 ::ₘ m) := by
  obtain ⟨hitems, hunique⟩ :=
    Tree.counters_update fresh item.1 ⟨avl.items, avl.unique⟩ avl.root
  have hvalid := h.valid.update fresh item.1 ⟨avl.items, avl.unique⟩
  have helements : toMultiset (avlInsert fresh avl item).2.root.traverse = item.1 ::ₘ m := by
    rw [avlInsert, Tree.traverse_update fresh item.1 _ h.valid.sorted, toMultiset_inc, h.elements]
  refine ⟨hvalid, helements, ?_, ?_⟩
  · rw [avlInsert, hitems, h.items, Multiset.card_cons]
  · have hlen := toFinset_card_toMultiset h.valid.sorted h.valid.pos
    have hlen' := toFinset_card_toMultiset hvalid.sorted hvalid.pos
    have hu := h.unique
    rw [h.elements] at hlen
    rw [show toMultiset (Tree.update fresh item.1 ⟨avl.items, avl.unique⟩ avl.root).2.traverse =
      item.1 ::ₘ m from helements] at hlen'
    rw [avlInsert, hlen']
    dsimp only at hunique ⊢
    omega

/-- The number of distinct elements after one occurrence is erased. -/
lemma toFinset_card_erase {m : Multiset CString} {x : CString} (hx : m.count x ≠ 0) :
    (m.erase x).toFinset.card =
      if (m.erase x).count x = 0 then m.toFinset.card - 1 else m.toFinset.card := by
  have hmem : x ∈ m := Multiset.count_ne_zero.mp hx
  split
  · next hlast =>
    have herase : (m.erase x).toFinset = m.toFinset.erase x := by
      ext y
      rw [Finset.mem_erase, Multiset.mem_toFinset, Multiset.mem_toFinset]
      by_cases hy : y = x
      · subst hy
        simpa using Multiset.count_eq_zero.mp hlast
      · simp [hy, Multiset.mem_erase_of_ne hy]
    rw [herase, Finset.card_erase_of_mem (Multiset.mem_toFinset.mpr hmem)]
  · next hmore =>
    have hsame : (m.erase x).toFinset = m.toFinset := by
      ext y
      rw [Multiset.mem_toFinset, Multiset.mem_toFinset]
      by_cases hy : y = x
      · subst hy
        exact ⟨fun _ => hmem, fun _ => Multiset.count_ne_zero.mp hmore⟩
      · exact Multiset.mem_erase_of_ne hy
    rw [hsame]

/-- A removal is simulated, return value included. -/
lemma represents_remove {avl : Avl ι} {m : Multiset CString} (h : Represents avl m)
    (redup : ι → ι) (item : Word) :
    (m.count item.1 = 0 → avlRemove redup avl item = (1, avl)) ∧
    (m.count item.1 ≠ 0 → (avlRemove redup avl item).1 = 0 ∧
      Represents (avlRemove redup avl item).2 (m.erase item.1)) := by
  have hexists : avlExists avl item = m.count item.1 := h.lookup item.1
  refine ⟨fun h0 => by rw [avlRemove, if_pos (hexists.trans h0)], fun h0 => ?_⟩
  have hvalid := h.valid.removeNode redup item.1
  have helements : toMultiset (Tree.removeNode redup avl.root item.1 false).traverse =
      m.erase item.1 := by
    rw [Tree.traverse_removeNode redup item.1 false _ h.valid.sorted (by simp),
      toMultiset_dec h.valid.pos, h.elements]
  have hexists' : avlExists (⟨avl.items - 1, avl.unique,
      Tree.removeNode redup avl.root item.1 false⟩ : Avl ι) item =
        (m.erase item.1).count item.1 := by
    rw [avlExists, Tree.lookup_eq_get hvalid.sorted, ← helements, count_toMultiset hvalid.sorted]
  have hcard : avl.items - 1 = (m.erase item.1).card := by
    rw [h.items, Multiset.card_erase_of_mem (Multiset.count_ne_zero.mp h0), Nat.pred_eq_sub_one]
  have hunique := toFinset_card_erase h0
  rw [avlRemove, if_neg (by rwa [hexists])]
  dsimp only
  rw [hexists']
  split
  · next hlast =>
    rw [if_pos hlast, ← h.unique] at hunique
    exact ⟨rfl, hvalid, helements, hcard, hunique.symm⟩
  · next hmore =>
    rw [if_neg hmore, ← h.unique] at hunique
    exact ⟨rfl, hvalid, helements, hcard, hunique.symm⟩

/-- **One call is simulated**: the return values agree and the states stay related. -/
theorem represents_exec {avl : Avl ι} {m : Multiset CString} (h : Represents avl m)
    (call : Call ι) : (call.exec avl).1 = (specExec m call).1 ∧
      Represents (call.exec avl).2 (specExec m call).2 := by
  cases call with
  | insert item fresh => exact ⟨rfl, represents_insert h fresh item⟩
  | remove item redup =>
    obtain ⟨habsent, hpresent⟩ := represents_remove h redup item
    rw [Call.exec, specExec]
    split
    · next h0 => rw [habsent h0]; exact ⟨rfl, h⟩
    · next h0 => exact hpresent h0

/-- The tree of a run represents the multiset of the run. -/
lemma represents_runCalls (calls : List (Call ι)) :
    Represents (runCalls calls) (runSpec calls) :=
  List.foldl_rel represents_empty fun call _ _ _ h => (represents_exec h call).2

/-- The traversal lists exactly the elements with a positive multiplicity. -/
lemma Represents.mem_traverse_iff {avl : Avl ι} {m : Multiset CString} (h : Represents avl m)
    (x : CString) (c : ℕ) : (x, c) ∈ avlTraverse avl ↔ 0 < c ∧ c = m.count x := by
  rw [← h.elements, count_toMultiset h.valid.sorted]
  exact mem_iff_get h.valid.sorted h.valid.pos

/-- **The AVL algorithms implement a counted multiset.** After every sequence of calls on the empty
tree, whatever storage the allocator hands out: the search loop of `avl_exists` finds the
multiplicity of every string, and so does `avl_exists` on the strings it admits; `avl_remove`
returns `1` and changes nothing exactly if the multiplicity is zero, and otherwise returns `0` and
erases one occurrence; the counters are the total multiplicity and the number of distinct items;
and the traversal reports each distinct item once, with its multiplicity, in strictly increasing
`strcmp` order. -/
theorem runCalls_refines (calls : List (Call ι)) :
    (∀ x : CString, (runCalls calls).root.lookup x = (runSpec calls).count x) ∧
    (∀ x : Word, avlExists (runCalls calls) x = (runSpec calls).count x.1) ∧
    (∀ (x : Word) (redup : ι → ι),
      (avlRemove redup (runCalls calls) x = (1, runCalls calls) ↔ (runSpec calls).count x.1 = 0) ∧
      ((runSpec calls).count x.1 ≠ 0 → (avlRemove redup (runCalls calls) x).1 = 0 ∧
        runSpec (calls ++ [.remove x redup]) = (runSpec calls).erase x.1)) ∧
    avlItems (runCalls calls) = (runSpec calls).card ∧
    avlUnique (runCalls calls) = (runSpec calls).toFinset.card ∧
    (avlTraverse (runCalls calls)).Pairwise (fun p q => CString.strcmp p.1 q.1 < 0) ∧
    ∀ (x : CString) (c : ℕ),
      (x, c) ∈ avlTraverse (runCalls calls) ↔ 0 < c ∧ c = (runSpec calls).count x := by
  have h := represents_runCalls calls
  refine ⟨h.lookup, fun x => h.lookup x.1, fun x redup => ⟨⟨fun heq => ?_, ?_⟩, fun h0 => ?_⟩,
    h.items, h.unique, ?_, h.mem_traverse_iff⟩
  · by_contra h0
    have hzero := ((represents_remove h redup x).2 h0).1
    rw [heq] at hzero
    exact one_ne_zero hzero
  · exact (represents_remove h redup x).1
  · refine ⟨((represents_remove h redup x).2 h0).1, ?_⟩
    rw [runSpec, List.foldl_append]
    show (specExec (runSpec calls) (.remove x redup)).2 = _
    rw [specExec, if_neg h0]
  · simp only [CString.strcmp_neg_iff]
    exact h.valid.sorted

end Cs238p.P3
