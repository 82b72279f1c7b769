import Mathlib.Data.Int.Notation
import Cs238p.P4.Kvraw

set_option relaxedAutoImplicit false
set_option autoImplicit false

/-!
# The key/value store of `p4/kvdb.c`

The index maps the hash value of a key to the newest record with that hash value; the links of the
records lead to the older ones. An update appends a record, and so does a removal, with a value of
length zero.

## Main definitions

* `Kvdb` — `struct kvdb`.
* `chainLookup`, `mutate`, `kvdbInsert`, `kvdbUpdate`, `kvdbReplace`, `kvdbRemove`, `kvdbLookup`,
  `kvdbSize`, `kvdbWaste` — as in the source.

## Implementation notes

The arguments `val` and `val_len` of the lookups are pointers; after a call they point to the
contents given in its `Reply`. Where a source function takes pointers that its callers always pass,
the model takes the values. The loop of `chain_lookup` runs on fuel that exceeds the size of the
log.
-/

namespace Cs238p.P4

/-- `struct kvdb`. -/
structure Kvdb where
  size : ℕ
  waste : ℕ
  kvraw : Kvraw
  index : Index

/-- `kvdb_open` on an empty log; `off` is the uninitialised variable of `kvraw_open`. -/
def kvdbOpen (off : ℕ) : Kvdb := ⟨0, 0, kvrawOpen off, indexOpen⟩

/-- `memcmp(a, b, n) != 0`, where `a` points to a buffer. -/
def memDiffers (a : Option (List UInt8)) (b : List UInt8) (n : ℕ) : Bool :=
  (a.getD []).take n ≠ b.take n

/-- What `chain_lookup` leaves in its arguments: the value buffer, the length of the value and the
offset of the matching record, `0` if there is none. -/
structure ChainResult where
  val : Option (List UInt8)
  valLen : ℕ
  off : ℕ
  deriving DecidableEq, Repr

/-- The loop of `chain_lookup` at the record `off`. A first lookup reads at most 256 bytes of the
key; a partial match by the first eight bytes is followed by a lookup of the whole key if the key
is longer than that. The result is `none` where the source returns `-1`. -/
def chainLookup (kvraw : Kvraw) (key : List UInt8) (valLen : ℕ) :
    ℕ → Option (List UInt8) → ℕ → Except Stop (Option ChainResult)
  | 0, _, _ => .error .diverges
  | fuel + 1, val, off =>
    if off = 0 then .ok (some ⟨val, valLen, 0⟩)
    else
      match kvrawLookup kvraw (some (List.replicate 256 0)) (min key.length 256) val valLen off with
      | .error stop => .error stop
      | .ok none => .ok none
      | .ok (some f) =>
        if f.keyLen ≠ key.length ∨ memDiffers f.key key (min key.length 8) then
          chainLookup kvraw key valLen fuel f.val f.off
        else
          let again :=
            if f.keyLen > 8 then
              kvrawLookup kvraw (some (List.replicate f.keyLen 0)) f.keyLen f.val 0 off
            else .ok (some f)
          match again with
          | .error stop => .error stop
          | .ok none => .ok none
          | .ok (some g) =>
            if memDiffers g.key key key.length then chainLookup kvraw key valLen fuel g.val g.off
            else .ok (some ⟨g.val, g.valLen, off⟩)

/-- The `mode` of `mutate`. -/
inductive Mode
  | remove
  | insert
  | update
  | replace
  deriving DecidableEq, Repr

/-- The return value of an operation and what its arguments `val` and `val_len` point to
afterwards. -/
structure Reply where
  code : ℤ
  val : Option (List UInt8)
  valLen : Option ℕ
  deriving DecidableEq, Repr

variable (hash : List UInt8 → UInt64)

/-- Append a record behind the reference `ref`, with the bookkeeping `account` of the mode. -/
def mutateAppend (failAt : Option ℕ) (kvdb : Kvdb) (key val : List UInt8) (ref : ℕ)
    (account : Kvdb → Kvdb) (reply : Reply) : Except Stop (Reply × Kvdb) :=
  match kvrawAppend failAt kvdb.kvraw key val (kvdb.index.maps ref).off with
  | .error stop => .error stop
  | .ok (kvraw, none) => .ok ({ reply with code := -1 }, { kvdb with kvraw := kvraw })
  | .ok (kvraw, some off) =>
    .ok (reply, account { kvdb with kvraw := kvraw, index := kvdb.index.setOff ref off })

/-- `mutate`. For a removal, `val` and `valLen` are the pointers of the caller; for the other modes
`val` points to the new value and `valLen` to its length. -/
def mutate (failAt : Option ℕ) (kvdb : Kvdb) (key : List UInt8) (val : Option (List UInt8))
    (valLen : Option ℕ) (mode : Mode) : Except Stop (Reply × Kvdb) :=
  match indexUpdate hash kvdb.index key with
  | .error stop => .error stop
  | .ok (index, ref) =>
    let kvdb := { kvdb with index := index }
    let off := (index.maps ref).off
    let val_ := if mode = .remove ∧ valLen ≠ none then val else none
    let valLen_ := if mode = .remove then valLen.getD 0 else 0
    match chainLookup kvdb.kvraw key valLen_ (kvdb.kvraw.size + 1) val_ off with
    | .error stop => .error stop
    | .ok none => .ok (⟨-1, val, valLen⟩, kvdb)
    | .ok (some c) =>
      let newVal := (val.getD []).take (valLen.getD 0)
      match mode with
      | .remove =>
        let val' := if valLen ≠ none then c.val else val
        if c.off = 0 ∨ c.valLen = 0 then .ok (⟨1, val', valLen⟩, kvdb)
        else
          mutateAppend failAt kvdb key [] ref
            (fun kvdb => { kvdb with
              size := u64 (kvdb.size + 2 ^ 64 - 1), waste := u64 (kvdb.waste + 1) })
            ⟨0, val', valLen.map fun _ => c.valLen⟩
      | .insert =>
        if c.off ≠ 0 ∧ c.valLen ≠ 0 then .ok (⟨1, val, valLen⟩, kvdb)
        else
          mutateAppend failAt kvdb key newVal ref
            (fun kvdb => { kvdb with size := u64 (kvdb.size + 1) }) ⟨0, val, valLen⟩
      | .update =>
        let kvdb :=
          if c.off = 0 ∨ c.valLen = 0 then { kvdb with size := u64 (kvdb.size + 1) }
          else { kvdb with waste := u64 (kvdb.waste + 1) }
        mutateAppend failAt kvdb key newVal ref id ⟨0, val, valLen⟩
      | .replace =>
        if c.off = 0 ∨ c.valLen = 0 then .ok (⟨1, val, valLen⟩, kvdb)
        else
          mutateAppend failAt kvdb key newVal ref
            (fun kvdb => { kvdb with waste := u64 (kvdb.waste + 1) }) ⟨0, val, valLen⟩

/-- `KVDB_MAX_KEY_LEN`. -/
def kvdbMaxKeyLen : ℕ := 0xffff

/-- `KVDB_MAX_VAL_LEN`. -/
def kvdbMaxValLen : ℕ := 0xffffffff

/-- `kvdb_remove`. -/
def kvdbRemove (failAt : Option ℕ) (kvdb : Kvdb) (key : List UInt8) (val : Option (List UInt8))
    (valLen : Option ℕ) : Except Stop (Reply × Kvdb) :=
  if key.length = 0 ∨ key.length > kvdbMaxKeyLen then .error .assertion
  else if ¬ (valLen = none ∨ valLen.getD 0 ≠ 0 ∨ val ≠ none) then .error .assertion
  else mutate hash failAt kvdb key val valLen .remove

/-- The common form of `kvdb_insert`, `kvdb_update` and `kvdb_replace`. -/
def kvdbPut (mode : Mode) (failAt : Option ℕ) (kvdb : Kvdb) (key val : List UInt8) :
    Except Stop (Reply × Kvdb) :=
  if key.length = 0 ∨ key.length > kvdbMaxKeyLen then .error .assertion
  else if val.length = 0 ∨ val.length > kvdbMaxValLen then .error .assertion
  else mutate hash failAt kvdb key (some val) (some val.length) mode

/-- `kvdb_insert`. -/
def kvdbInsert := kvdbPut hash .insert

/-- `kvdb_update`. -/
def kvdbUpdate := kvdbPut hash .update

/-- `kvdb_replace`. -/
def kvdbReplace := kvdbPut hash .replace

/-- `kvdb_lookup`. -/
def kvdbLookup (kvdb : Kvdb) (key : List UInt8) (val : Option (List UInt8)) (valLen : Option ℕ) :
    Except Stop Reply :=
  if key.length = 0 ∨ key.length > kvdbMaxKeyLen then .error .assertion
  else if ¬ (valLen = none ∨ valLen.getD 0 = 0 ∨ val ≠ none) then .error .assertion
  else
    match indexLookup hash kvdb.index key with
    | .error stop => .error stop
    | .ok ref =>
      let off := kvdb.index.deref ref
      if off = 0 then .ok ⟨1, val, valLen⟩
      else
        let val_ := if valLen ≠ none then val else none
        match chainLookup kvdb.kvraw key (valLen.getD 0) (kvdb.kvraw.size + 1) val_ off with
        | .error stop => .error stop
        | .ok none => .ok ⟨-1, val, valLen⟩
        | .ok (some c) =>
          let val' := if valLen ≠ none then c.val else val
          if c.off = 0 ∨ c.valLen = 0 then .ok ⟨1, val', valLen⟩
          else .ok ⟨0, val', valLen.map fun _ => c.valLen⟩

/-- `kvdb_size`. -/
def kvdbSize (kvdb : Kvdb) : ℕ := kvdb.size

/-- `kvdb_waste`. -/
def kvdbWaste (kvdb : Kvdb) : ℕ := kvdb.waste

end Cs238p.P4
