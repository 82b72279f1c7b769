import Cs238p.Lib.CString

set_option relaxedAutoImplicit false
set_option autoImplicit false

/-!
# The AVL tree of `p3/avl.c`

The functions of `avl.c` over trees as an inductive type. A node carries, besides the fields of
`struct node`, an annotation for the storage it occupies. The storage of a new node and of a
duplicated string are arguments of the functions: what the allocator hands out has no influence
on the tree, and `Heap.lean` instantiates the annotation with the addresses of the blocks.

## Main definitions

* `Tree` — `struct node` and what hangs below it; the null pointer is `Tree.nil`.
* `delta`, `balance`, `depth`, the rotations, `update`, `removeNode` — as in the source.
* `Avl`, `avlInsert`, `avlRemove`, `avlExists`, `avlTraverse` — the public functions.

## Implementation notes

The public functions assert `safe_strlen(item)`; their argument is a `Word`, a non-empty string.
Where the source follows a child pointer that its own test has shown to be non-null, the model
returns the tree unchanged in the impossible case.
-/

namespace Cs238p.P3

/-- A tree of `struct node`s, each with the storage `a` that it occupies. -/
inductive Tree (ι : Type)
  | nil
  | node (a : ι) (depth : ℤ) (count : ℕ) (item : CString) (left right : Tree ι)
  deriving DecidableEq

namespace Tree

variable {ι : Type}

/-! ## Depths and rotations -/

/-- `delta`: the stored depth, `-1` for the null pointer. -/
def delta : Tree ι → ℤ
  | nil => -1
  | node _ d _ _ _ _ => d

/-- `balance`. -/
def balance : Tree ι → ℤ
  | nil => 0
  | node _ _ _ _ l r => l.delta - r.delta

/-- `depth`: one more than the larger of two depths. -/
def depth (a b : Tree ι) : ℤ := if a.delta > b.delta then a.delta + 1 else b.delta + 1

/-- The assignment `root->depth = depth(root->left, root->right)`. -/
def setDepth : Tree ι → Tree ι
  | nil => nil
  | node a _ c i l r => node a (depth l r) c i l r

/-- `rotate_right`. -/
def rotateRight : Tree ι → Tree ι
  | node a _ c i (node a' _ c' i' ll lr) r =>
    let t := node a (depth lr r) c i lr r
    node a' (depth ll t) c' i' ll t
  | t => t

/-- `rotate_left`. -/
def rotateLeft : Tree ι → Tree ι
  | node a _ c i l (node a' _ c' i' rl rr) =>
    let t := node a (depth l rl) c i l rl
    node a' (depth rr t) c' i' t rr
  | t => t

/-- `rotate_left_right`. -/
def rotateLeftRight : Tree ι → Tree ι
  | node a d c i l r => rotateRight (node a d c i (rotateLeft l) r)
  | nil => nil

/-- `rotate_right_left`. -/
def rotateRightLeft : Tree ι → Tree ι
  | node a d c i l r => rotateLeft (node a d c i l (rotateRight r))
  | nil => nil

/-- The `item` of a node. -/
def item : Tree ι → CString
  | nil => CString.empty
  | node _ _ _ i _ _ => i

/-! ## Insertion -/

/-- The counters `items` and `unique` of `struct state`. -/
structure Counters where
  items : ℕ
  unique : ℕ
  deriving DecidableEq, Repr

/-- What `update` does after a call for the left child: a rotation if the node is out of
balance, chosen by comparing the item with that of the left child, and the new depth. -/
def fixLeft (item : CString) (t : Tree ι) : Tree ι :=
  match t with
  | nil => nil
  | node a d c i l r =>
    if 1 < (balance (node a d c i l r)).natAbs then
      if 0 > CString.strcmp item l.item then setDepth (rotateRight (node a d c i l r))
      else setDepth (rotateLeftRight (node a d c i l r))
    else setDepth (node a d c i l r)

/-- What `update` does after a call for the right child. -/
def fixRight (item : CString) (t : Tree ι) : Tree ι :=
  match t with
  | nil => nil
  | node a d c i l r =>
    if 1 < (balance (node a d c i l r)).natAbs then
      if 0 < CString.strcmp item r.item then setDepth (rotateLeft (node a d c i l r))
      else setDepth (rotateRightLeft (node a d c i l r))
    else setDepth (node a d c i l r)

/-- `update`: count the item, in a new leaf at storage `fresh` if it is not in the tree. -/
def update (fresh : ι) (item : CString) : Counters → Tree ι → Counters × Tree ι
  | s, nil => (⟨s.items + 1, s.unique + 1⟩, node fresh 0 1 item nil nil)
  | s, node a d c i l r =>
    if CString.strcmp item i = 0 then (⟨s.items + 1, s.unique⟩, setDepth (node a d (c + 1) i l r))
    else if 0 > CString.strcmp item i then
      let res := update fresh item s l
      (res.1, fixLeft item (node a d c i res.2 r))
    else
      let res := update fresh item s r
      (res.1, fixRight item (node a d c i l res.2))

/-! ## Removal -/

/-- `find_min`: the item and count of the leftmost node. -/
def findMin : Tree ι → CString × ℕ
  | nil => (CString.empty, 0)
  | node _ _ c i nil _ => (i, c)
  | node _ _ _ _ (node a d c i l r) _ => findMin (node a d c i l r)

/-- The assignment `temp->count = 1` through the pointer to the leftmost node. -/
def setMinCount : Tree ι → Tree ι
  | nil => nil
  | node a d _ i nil r => node a d 1 i nil r
  | node a d c i (node a' d' c' i' l r) r' =>
    node a d c i (setMinCount (node a' d' c' i' l r)) r'

/-- The number of nodes. -/
def size : Tree ι → ℕ
  | nil => 0
  | node _ _ _ _ l r => l.size + r.size + 1

@[simp] lemma size_setMinCount (t : Tree ι) : t.setMinCount.size = t.size := by
  induction t with
  | nil => rfl
  | node a d c i l r ihl _ =>
    cases l with
    | nil => rfl
    | node a' d' c' i' l' r' => rw [setMinCount, size, ihl]; rfl

/-- The end of `remove_node`: the new depth, and a rotation if the node is out of balance, chosen
by the balance of the taller child. -/
def rebalance : Tree ι → Tree ι
  | nil => nil
  | node a d c i l r =>
    let t := setDepth (node a d c i l r)
    if balance t > 1 then
      if balance l ≥ 0 then rotateRight t else rotateLeftRight t
    else if balance t < -1 then
      if balance r ≤ 0 then rotateLeft t else rotateRightLeft t
    else t

/-- `remove_node`: remove one occurrence of the item, or with `flag` the whole node. A node with
two children takes over the item and count of the next larger node, which is then removed from
the right subtree; `redup` is the storage of the node with the duplicated string. -/
def removeNode (redup : ι → ι) (t : Tree ι) (item : CString) (flag : Bool) : Tree ι :=
  match t with
  | nil => nil
  | node a d c i l r =>
    if CString.strcmp item i < 0 then rebalance (node a d c i (removeNode redup l item false) r)
    else if CString.strcmp item i > 0 then
      rebalance (node a d c i l (removeNode redup r item false))
    else if c > 1 ∧ flag = false then rebalance (node a d (c - 1) i l r)
    else
      match l, r with
      | nil, nil => nil
      | nil, node a' d' c' i' l' r' => rebalance (node a' d' c' i' l' r')
      | node a' d' c' i' l' r', nil => rebalance (node a' d' c' i' l' r')
      | node a₁ d₁ c₁ i₁ l₁ r₁, node a₂ d₂ c₂ i₂ l₂ r₂ =>
        let min := findMin (node a₂ d₂ c₂ i₂ l₂ r₂)
        rebalance (node (redup a) d min.2 min.1 (node a₁ d₁ c₁ i₁ l₁ r₁)
          (removeNode redup (setMinCount (node a₂ d₂ c₂ i₂ l₂ r₂)) min.1 true))
termination_by t.size
decreasing_by all_goals simp only [size_setMinCount, size]; omega

/-! ## Lookup and traversal -/

/-- The loop of `avl_exists`: the count of an item, `0` if it is not in the tree. -/
def lookup : Tree ι → CString → ℕ
  | nil, _ => 0
  | node _ _ c i l r, item =>
    if CString.strcmp item i = 0 then c
    else if 0 > CString.strcmp item i then lookup l item
    else lookup r item

/-- `traverse`: the items and counts in the order in which they are reported. -/
def traverse : Tree ι → List (CString × ℕ)
  | nil => []
  | node _ _ c i l r => traverse l ++ (i, c) :: traverse r

end Tree

/-! ## The public functions -/

/-- A non-empty string: the argument that `assert(safe_strlen(item))` admits. -/
abbrev Word := { s : CString // s.strlen ≠ 0 }

/-- `struct avl` without its allocator: the counters and the root of `struct state`. -/
structure Avl (ι : Type) where
  items : ℕ
  unique : ℕ
  root : Tree ι
  deriving DecidableEq

variable {ι : Type}

/-- The empty tree, as `avl_open` leaves it on a truncated region. -/
def Avl.empty : Avl ι := ⟨0, 0, .nil⟩

/-- `avl_insert`, with an allocator that succeeds and places a new node at `fresh`. -/
def avlInsert (fresh : ι) (avl : Avl ι) (item : Word) : ℤ × Avl ι :=
  let res := Tree.update fresh item.1 ⟨avl.items, avl.unique⟩ avl.root
  (0, ⟨res.1.items, res.1.unique, res.2⟩)

/-- `avl_exists`. -/
def avlExists (avl : Avl ι) (item : Word) : ℕ := avl.root.lookup item.1

/-- `avl_remove`, with an allocator that succeeds and duplicates strings as `redup` says. -/
def avlRemove (redup : ι → ι) (avl : Avl ι) (item : Word) : ℤ × Avl ι :=
  if avlExists avl item = 0 then (1, avl)
  else
    let root := Tree.removeNode redup avl.root item.1 false
    let avl' : Avl ι := ⟨avl.items - 1, avl.unique, root⟩
    if avlExists avl' item = 0 then (0, { avl' with unique := avl'.unique - 1 }) else (0, avl')

/-- `avl_traverse`: the pairs reported to the callback. -/
def avlTraverse (avl : Avl ι) : List (CString × ℕ) := avl.root.traverse

/-- `avl_items`. -/
def avlItems (avl : Avl ι) : ℕ := avl.items

/-- `avl_unique`. -/
def avlUnique (avl : Avl ι) : ℕ := avl.unique

/-- A call of `avl_insert` or `avl_remove`, with what the allocator hands out for it. -/
inductive Call (ι : Type)
  | insert (item : Word) (fresh : ι)
  | remove (item : Word) (redup : ι → ι)

/-- The return value of a call and the tree after it. -/
def Call.exec (avl : Avl ι) : Call ι → ℤ × Avl ι
  | .insert item fresh => avlInsert fresh avl item
  | .remove item redup => avlRemove redup avl item

/-- The tree after a sequence of calls on the empty tree. -/
def runCalls (calls : List (Call ι)) : Avl ι :=
  calls.foldl (fun avl call => (call.exec avl).2) Avl.empty

end Cs238p.P3
