import Cs238p.Lib.Record
import Cs238p.P3.Avl
import Cs238p.P3.Scm

set_option relaxedAutoImplicit false
set_option autoImplicit false

/-!
# The AVL store of `p3/avl.c` in its region

The functions of `avl.c` on the bytes of a region: nodes and strings are blocks of the allocator,
and pointers are addresses. `Avl.lean` has the same functions over an inductive type of trees.

## Main definitions

* `nodeLayout`, `stateLayout` — `struct node` and `struct state`.
* `Heap.update`, `Heap.removeNode`, `Heap.rotateRight` and so on — as in the source.
* `Heap.avlOpen`, `Heap.avlInsert`, `Heap.avlRemove`, `Heap.avlExists`, `Heap.avlTraverse` — the
  public functions.

## Implementation notes

The null pointer is `0`, and an access through it reads or writes the memory there. A handle is the
open region, since `avl->state` is always `scm_mbase`. Loops and recursions run on fuel and are
`none` without it; the public functions provide as much as the region has bytes, more than any tree
in it has nodes. A string is read up to its terminator, or to the size of the region without one.
The `item` of `remove_node` is passed as a string also where the source passes a pointer into the
region: a removal stores nothing into strings, so it reads the same bytes at every comparison.
-/

namespace Cs238p.P3

/-- The fields of `struct node`. -/
inductive NodeField
  | depth
  | count
  | item
  | left
  | right
  deriving DecidableEq, Repr

/-- The fields of `struct state`. -/
inductive StateField
  | items
  | unique
  | root
  deriving DecidableEq, Repr

/-- `struct node`, with a depth of type `int` and four bytes of padding behind it. -/
def nodeLayout : RecordLayout NodeField where
  size := 40
  off
    | .depth => 0
    | .count => 8
    | .item => 16
    | .left => 24
    | .right => 32
  width
    | .depth => 4
    | _ => 8
  inside := by
    intro f
    cases f <;> decide
  apart := by
    intro f g h
    cases f <;> cases g <;> first | exact absurd rfl h | decide

/-- `struct state`. -/
def stateLayout : RecordLayout StateField where
  size := 24
  off
    | .items => 0
    | .unique => 8
    | .root => 16
  width _ := 8
  inside := by
    intro f
    cases f <;> decide
  apart := by
    intro f g h
    cases f <;> cases g <;> first | exact absurd rfl h | decide

/-- The `int` in four bytes. -/
def toInt (w : ℕ) : ℤ := if w < 2 ^ 31 then w else w - 2 ^ 32

/-- The four bytes of an `int`. -/
def ofInt (d : ℤ) : ℕ := (d % 2 ^ 32).toNat

/-- The bytes from an address on before the first NUL, at most `n` of them. -/
def bytesAt (m : Mem) : ℕ → ℕ → List UInt8
  | 0, _ => []
  | n + 1, p => if m p = 0 then [] else m p :: bytesAt m n (p + 1)

lemma nul_not_mem_bytesAt (m : Mem) (n p : ℕ) : 0 ∉ bytesAt m n p := by
  induction n generalizing p with
  | zero => simp [bytesAt]
  | succ n ih =>
    rw [bytesAt]
    split
    · simp
    · next h =>
      rw [List.mem_cons, not_or]
      exact ⟨Ne.symm h, ih (p + 1)⟩

/-- The string at an address, read up to its terminator. -/
def strAt (n : ℕ) (m : Mem) (p : ℕ) : CString := ⟨bytesAt m n p, nul_not_mem_bytesAt m n p⟩

namespace Heap

/-- A field of a node. -/
abbrev get (m : Mem) (p : ℕ) (f : NodeField) : ℕ := nodeLayout.get m p f

/-- Store into a field of a node. -/
abbrev set (m : Mem) (p : ℕ) (f : NodeField) (v : ℕ) : Mem := nodeLayout.set m p f v

/-! ## Depths and rotations -/

/-- `delta`. -/
def delta (m : Mem) (node : ℕ) : ℤ := if node ≠ 0 then toInt (get m node .depth) else -1

/-- `balance`. -/
def balance (m : Mem) (node : ℕ) : ℤ := delta m (get m node .left) - delta m (get m node .right)

/-- `depth`. -/
def depth (m : Mem) (a b : ℕ) : ℤ :=
  if delta m a > delta m b then delta m a + 1 else delta m b + 1

/-- The assignment `node->depth = depth(node->left, node->right)`. -/
def setDepth (m : Mem) (node : ℕ) : Mem :=
  set m node .depth (ofInt (depth m (get m node .left) (get m node .right)))

/-- `rotate_right`. -/
def rotateRight (m : Mem) (node : ℕ) : ℕ × Mem :=
  let root := get m node .left
  let m := set m node .left (get m root .right)
  let m := set m root .right node
  let m := setDepth m node
  (root, set m root .depth (ofInt (depth m (get m root .left) node)))

/-- `rotate_left`. -/
def rotateLeft (m : Mem) (node : ℕ) : ℕ × Mem :=
  let root := get m node .right
  let m := set m node .right (get m root .left)
  let m := set m root .left node
  let m := setDepth m node
  (root, set m root .depth (ofInt (depth m (get m root .right) node)))

/-- `rotate_left_right`. -/
def rotateLeftRight (m : Mem) (node : ℕ) : ℕ × Mem :=
  let res := rotateLeft m (get m node .left)
  rotateRight (set res.2 node .left res.1) node

/-- `rotate_right_left`. -/
def rotateRightLeft (m : Mem) (node : ℕ) : ℕ × Mem :=
  let res := rotateRight m (get m node .right)
  rotateLeft (set res.2 node .right res.1) node

/-! ## Insertion -/

/-- In `update`, a counter of `avl->state` is incremented. -/
def increment (m : Mem) (f : StateField) : Mem :=
  stateLayout.set m scmMbase f (stateLayout.get m scmMbase f + 1)

/-- A counter of `avl->state` is decremented. -/
def decrement (m : Mem) (f : StateField) : Mem :=
  stateLayout.set m scmMbase f (stateLayout.get m scmMbase f + 2 ^ 64 - 1)

/-- The branch of `update` for the null pointer: a new node. -/
def newNode (scm : Scm) (item : CString) : ℕ × Scm :=
  match scmMalloc scm nodeLayout.size with
  | (none, scm) => (0, scm)
  | (some root, scm) =>
    let scm := { scm with mem := scm.mem.write root (List.replicate nodeLayout.size 0) }
    match scmStrdup scm item with
    | (none, scm) => (0, { scm with mem := set scm.mem root .item 0 })
    | (some p, scm) =>
      let m := set scm.mem root .item p
      let m := set m root .count (get m root .count + 1)
      (root, { scm with mem := increment (increment m .items) .unique })

/-- What `update` does after the call for the left child. -/
def fixLeft (n : ℕ) (m : Mem) (root : ℕ) (item : CString) : ℕ × Mem :=
  let res :=
    if 1 < (balance m root).natAbs then
      if 0 > CString.strcmp item (strAt n m (get m (get m root .left) .item)) then
        rotateRight m root
      else rotateLeftRight m root
    else (root, m)
  (res.1, setDepth res.2 res.1)

/-- What `update` does after the call for the right child. -/
def fixRight (n : ℕ) (m : Mem) (root : ℕ) (item : CString) : ℕ × Mem :=
  let res :=
    if 1 < (balance m root).natAbs then
      if 0 < CString.strcmp item (strAt n m (get m (get m root .right) .item)) then
        rotateLeft m root
      else rotateRightLeft m root
    else (root, m)
  (res.1, setDepth res.2 res.1)

/-- `update`. -/
def update : ℕ → Scm → ℕ → CString → Option (ℕ × Scm)
  | 0, _, _, _ => none
  | fuel + 1, scm, root, item =>
    if root = 0 then some (newNode scm item)
    else
      let d := CString.strcmp item (strAt scm.capacity scm.mem (get scm.mem root .item))
      if d = 0 then
        let m := increment (set scm.mem root .count (get scm.mem root .count + 1)) .items
        some (root, { scm with mem := setDepth m root })
      else if 0 > d then
        match update fuel scm (get scm.mem root .left) item with
        | none => none
        | some (left, scm) =>
          let res := fixLeft scm.capacity (set scm.mem root .left left) root item
          some (res.1, { scm with mem := res.2 })
      else
        match update fuel scm (get scm.mem root .right) item with
        | none => none
        | some (right, scm) =>
          let res := fixRight scm.capacity (set scm.mem root .right right) root item
          some (res.1, { scm with mem := res.2 })

/-! ## Removal -/

/-- `find_min`. -/
def findMin (m : Mem) : ℕ → ℕ → Option ℕ
  | 0, _ => none
  | fuel + 1, node => if get m node .left ≠ 0 then findMin m fuel (get m node .left) else some node

/-- The end of `remove_node`. -/
def rebalance (m : Mem) (root : ℕ) : ℕ × Mem :=
  if root ≠ 0 then
    let m := setDepth m root
    if balance m root > 1 then
      if balance m (get m root .left) ≥ 0 then rotateRight m root else rotateLeftRight m root
    else if balance m root < -1 then
      if balance m (get m root .right) ≤ 0 then rotateLeft m root else rotateRightLeft m root
    else (root, m)
  else (root, m)

/-- `rebalance` on the memory of the region. -/
def finish (scm : Scm) (root : ℕ) : ℕ × Scm :=
  let res := rebalance scm.mem root
  (res.1, { scm with mem := res.2 })

/-- The branch of `remove_node` for a node with at most one child: the blocks of the child are
released, or those of the node if it has none. -/
def unlinkNode (scm : Scm) (root : ℕ) : ℕ × Scm :=
  let child :=
    if get scm.mem root .left ≠ 0 then get scm.mem root .left else get scm.mem root .right
  let temp := if child = 0 then root else child
  (child, scmFree (scmFree scm (get scm.mem temp .item)) temp)

/-- In `remove_node`, a node takes over the string and the count of the node `temp`. -/
def takeOver (scm : Scm) (root temp : ℕ) : Scm :=
  let strDel := get scm.mem root .item
  let res := scmStrdup scm (strAt scm.capacity scm.mem (get scm.mem temp .item))
  let m := set res.2.mem root .item (res.1.getD 0)
  let m := set m root .count (get m temp .count)
  let scm := scmFree { res.2 with mem := m } strDel
  { scm with mem := set scm.mem temp .count 1 }

/-- `remove_node`. -/
def removeNode : ℕ → Scm → ℕ → CString → Bool → Option (ℕ × Scm)
  | 0, _, _, _, _ => none
  | fuel + 1, scm, root, item, flag =>
    if root = 0 then some (0, scm)
    else
      let d := CString.strcmp item (strAt scm.capacity scm.mem (get scm.mem root .item))
      if d < 0 then
        match removeNode fuel scm (get scm.mem root .left) item false with
        | none => none
        | some (left, scm) => some (finish { scm with mem := set scm.mem root .left left } root)
      else if d > 0 then
        match removeNode fuel scm (get scm.mem root .right) item false with
        | none => none
        | some (right, scm) => some (finish { scm with mem := set scm.mem root .right right } root)
      else if get scm.mem root .count > 1 ∧ flag = false then
        some (finish { scm with mem := set scm.mem root .count (get scm.mem root .count - 1) } root)
      else if get scm.mem root .left = 0 ∨ get scm.mem root .right = 0 then
        let res := unlinkNode scm root
        some (finish res.2 res.1)
      else
        match findMin scm.mem fuel (get scm.mem root .right) with
        | none => none
        | some temp =>
          let scm := takeOver scm root temp
          match removeNode fuel scm (get scm.mem root .right)
              (strAt scm.capacity scm.mem (get scm.mem temp .item)) true with
          | none => none
          | some (right, scm) =>
            some (finish { scm with mem := set scm.mem root .right right } root)

/-! ## The public functions -/

/-- More than the number of nodes of any tree in the region. -/
def fuelOf (scm : Scm) : ℕ := scm.capacity + 1

/-- A field of `avl->state`. -/
abbrev stateGet (scm : Scm) (f : StateField) : ℕ := stateLayout.get scm.mem scmMbase f

/-- The assignment to `avl->state->root`. -/
def setRoot (scm : Scm) (root : ℕ) : Scm :=
  { scm with mem := stateLayout.set scm.mem scmMbase .root root }

/-- `avl_open`: the state is kept if the region is in use, and else created. -/
def avlOpen (file : Mem) (capacity : ℕ) (truncate : Bool) : Option Scm :=
  let scm := scmOpen file capacity truncate
  if scm.utilized ≠ 0 then some scm
  else
    match scmMalloc scm stateLayout.size with
    | (none, _) => none
    | (some p, scm) =>
      if p = scmMbase then
        some { scm with mem := scm.mem.write p (List.replicate stateLayout.size 0) }
      else none

/-- `avl_close`, with the file that it leaves. -/
def avlClose (scm : Scm) : Mem := scmClose scm

/-- `avl_insert`. -/
def avlInsert (scm : Scm) (item : CString) : Option (ℤ × Scm) :=
  match update (fuelOf scm) scm (stateGet scm .root) item with
  | none => none
  | some (root, scm) => if root = 0 then some (-1, scm) else some (0, setRoot scm root)

/-- The loop of `avl_exists`. -/
def lookup (n : ℕ) (m : Mem) : ℕ → ℕ → CString → Option ℕ
  | 0, _, _ => none
  | fuel + 1, node, item =>
    if node = 0 then some 0
    else
      let d := CString.strcmp item (strAt n m (get m node .item))
      if d = 0 then some (get m node .count)
      else lookup n m fuel (if 0 > d then get m node .left else get m node .right) item

/-- `avl_exists`. -/
def avlExists (scm : Scm) (item : CString) : Option ℕ :=
  lookup scm.capacity scm.mem (fuelOf scm) (stateGet scm .root) item

/-- `avl_remove`. -/
def avlRemove (scm : Scm) (item : CString) : Option (ℤ × Scm) :=
  match avlExists scm item with
  | none => none
  | some count =>
    if count = 0 then some (1, scm)
    else
      match removeNode (fuelOf scm) scm (stateGet scm .root) item false with
      | none => none
      | some (root, scm) =>
        let scm := setRoot { scm with mem := decrement scm.mem .items } root
        match avlExists scm item with
        | none => none
        | some count =>
          if count = 0 then some (0, { scm with mem := decrement scm.mem .unique })
          else some (0, scm)

/-- `traverse`: the items and counts in the order in which they are reported. -/
def traverse (n : ℕ) (m : Mem) : ℕ → ℕ → Option (List (CString × ℕ))
  | 0, _ => none
  | fuel + 1, node =>
    if node = 0 then some []
    else
      match traverse n m fuel (get m node .left), traverse n m fuel (get m node .right) with
      | some l, some r => some (l ++ (strAt n m (get m node .item), get m node .count) :: r)
      | _, _ => none

/-- `avl_traverse`. -/
def avlTraverse (scm : Scm) : Option (List (CString × ℕ)) :=
  traverse scm.capacity scm.mem (fuelOf scm) (stateGet scm .root)

end Heap

end Cs238p.P3
