import Cs238p.Lib.Transition
import Cs238p.P4.Chain

set_option relaxedAutoImplicit false
set_option autoImplicit false

/-!
# The key/value store refines a map

The abstract store is a map from keys to values. The store keeps a history of assignments, in which
a removal assigns the empty value; the index holds the chain of every bucket of the history. An
operation follows the abstract store as long as `index_update` finds a slot. What a lookup copies is
the value of the key, but the values of other keys that it walks over may show behind it.

## Main definitions

* `Op`, `exec` — the operations, with their keys, values and buffers.
* `specNext`, `specCode`, `Correct` — the abstract store, and what its answers are.
* `FindsSlot`, `LogFits` — the insertion into the index finds a slot; the log does not overflow.
* `newerValues`, `Spared` — the values that a lookup walks over; they do not show in the buffer.
* `Inv`, `Refines` — the store keeps a history, and the abstract store is the map of it.

## Main results

* `Refines.exec` — an operation whose insertion finds a slot returns and refines the step of the
  abstract store; its answer is correct if and only if the buffer is spared.
-/

namespace Cs238p.P4

open History LittleEndian Overlay Transition

/-! ## The abstract store -/

/-- A key that the assertions admit. -/
abbrev Key := { key : List UInt8 // key.length ≠ 0 ∧ key.length ≤ kvdbMaxKeyLen }

/-- A value that the assertions admit. -/
abbrev Val := { val : List UInt8 // val.length ≠ 0 ∧ val.length ≤ kvdbMaxValLen }

lemma Val.ne_nil (v : Val) : v.1 ≠ [] := by
  rintro h
  exact v.2.1 (congrArg List.length h)

/-- An operation. The lookups are given a buffer and its capacity, or two null pointers. -/
inductive Op
  | insert (key : Key) (val : Val)
  | update (key : Key) (val : Val)
  | replace (key : Key) (val : Val)
  | remove (key : Key) (buf : Option (List UInt8))
  | lookup (key : Key) (buf : Option (List UInt8))

/-- The abstract store. -/
abbrev Map := List UInt8 → Option (List UInt8)

/-- The abstract store after an operation. -/
def specNext (m : Map) : Op → Map
  | .insert key val => if m key = none then Function.update m key (some val) else m
  | .update key val => Function.update m key (some val)
  | .replace key val => if m key = none then m else Function.update m key (some val)
  | .remove key _ => Function.update m key none
  | .lookup _ _ => m

/-- The return value of an operation. -/
def specCode (m : Map) : Op → ℤ
  | .insert key _ => if m key = none then 0 else 1
  | .update _ _ => 0
  | .replace key _ => if m key = none then 1 else 0
  | .remove key _ => if m key = none then 1 else 0
  | .lookup key _ => if m key = none then 1 else 0

/-- The key that an operation reads, and its buffer. -/
def Op.reads : Op → Option (Key × Option (List UInt8))
  | .remove key buf => some (key, buf)
  | .lookup key buf => some (key, buf)
  | _ => none

/-- The answer reports the length of the value, and the buffer begins with as much of the value as
it admits; behind that it is what it was. -/
def Copies (v : List UInt8) (reply : Reply) : Option (List UInt8) → Prop
  | none => reply.valLen = none
  | some b => reply.valLen = some v.length ∧ reply.val = some (overlay b v)

instance (v : List UInt8) (reply : Reply) : ∀ buf, Decidable (Copies v reply buf)
  | none => inferInstanceAs (Decidable (_ = _))
  | some _ => inferInstanceAs (Decidable (_ ∧ _))

/-- The answer is that of the abstract store. -/
def Correct (m : Map) (op : Op) (reply : Reply) : Prop :=
  reply.code = specCode m op ∧
    ∀ key buf v, op.reads = some (key, buf) → m key = some v → Copies v reply buf

instance (m : Map) (op : Op) (reply : Reply) : Decidable (Correct m op reply) :=
  decidable_of_iff (reply.code = specCode m op ∧
      ∀ r ∈ op.reads, ∀ v ∈ m r.1, Copies v reply r.2) <|
    and_congr_right fun _ =>
      ⟨fun h key buf v hr hv => h (key, buf) hr v hv, fun h r hr v hv => h r.1 r.2 v hr hv⟩

/-! ## The operations of the store -/

variable (hash : List UInt8 → UInt64)

/-- An operation on the store. -/
def exec (kvdb : Kvdb) : Op → Except Stop (Reply × Kvdb)
  | .insert key val => kvdbInsert hash none kvdb key val
  | .update key val => kvdbUpdate hash none kvdb key val
  | .replace key val => kvdbReplace hash none kvdb key val
  | .remove key buf => kvdbRemove hash none kvdb key buf (buf.map List.length)
  | .lookup key buf => (kvdbLookup hash kvdb key buf (buf.map List.length)).map fun r => (r, kvdb)

/-- The store and the abstract store after an operation. -/
def step (s : Kvdb × Map) (op : Op) : Option (Kvdb × Map) :=
  match exec hash s.1 op with
  | .error _ => none
  | .ok (_, kvdb) => some (kvdb, specNext s.2 op)

/-- The operation returns, with the answer of the abstract store. -/
def AnswersCorrectly (s : Kvdb × Map) (op : Op) : Prop :=
  ∃ reply kvdb, exec hash s.1 op = .ok (reply, kvdb) ∧ Correct s.2 op reply

instance (s : Kvdb × Map) (op : Op) : Decidable (AnswersCorrectly hash s op) :=
  match h : exec hash s.1 op with
  | .error _ => .isFalse fun ⟨reply, kvdb, hres, _⟩ => by simp [h] at hres
  | .ok (reply, kvdb) =>
    decidable_of_iff (Correct s.2 op reply) <| by
      constructor
      · exact fun hcorrect => ⟨reply, kvdb, h, hcorrect⟩
      · rintro ⟨reply', kvdb', hres, hcorrect⟩
        obtain ⟨rfl, -⟩ := Prod.mk.inj (Except.ok.inj (h.symm.trans hres))
        exact hcorrect

/-- The key that an operation looks for with `index_update`. -/
def Op.updates : Op → Option Key
  | .lookup _ _ => none
  | .insert key _ | .update key _ | .replace key _ | .remove key _ => some key

/-- The insertion into the index finds a slot: those of `grow` do, and in the table after it some
probe of the key's hash value is empty or holds that value. -/
def FindsSlot (s : Kvdb × Map) (op : Op) : Prop :=
  ∀ key, op.updates = some key →
    ∃ index, s.1.index.grow = .ok index ∧ index.HasRoom (hashKey hash key)

/-- The values that a lookup of the key walks over: those of the records of other keys that its
chain has before the one of the key. -/
def newerValues (kvdb : Kvdb) (key : List UInt8) : List (List UInt8) :=
  match indexLookup hash kvdb.index key with
  | .error _ => []
  | .ok ref =>
    newer (chainFrom kvdb.kvraw.logfs (kvdb.kvraw.size + 1) (kvdb.index.deref ref)) key

/-- Behind the value, the values that a lookup walks over leave in the buffer what it held. -/
def Spared (s : Kvdb × Map) (op : Op) : Prop :=
  ∀ key b v, op.reads = some (key, some b) → s.2 key = some v →
    Spares (newerValues hash s.1 key) v.length b

instance (s : Kvdb × Map) (op : Op) : Decidable (Spared hash s op) :=
  decidable_of_iff (∀ r ∈ op.reads, ∀ b ∈ r.2, ∀ v ∈ s.2 r.1,
      Spares (newerValues hash s.1 r.1) v.length b) <| by
    constructor
    · intro h key b v hr hv
      exact h (key, some b) hr b rfl v hv
    · rintro h ⟨key, buf⟩ hr b hb v hv
      obtain rfl : buf = some b := hb
      exact h key b v hr hv

/-- The number of bytes of the record that an operation appends at most. -/
def Op.recordLen : Op → ℕ
  | .insert key val | .update key val | .replace key val => 16 + key.1.length + val.1.length
  | .remove key _ => 16 + key.1.length
  | .lookup _ _ => 0

/-- The log with the record of the operation has less than `2 ^ 64` bytes. -/
def LogFits (s : Kvdb × Map) (op : Op) : Prop :=
  s.1.kvraw.logfs.length + op.recordLen < 2 ^ 64

instance (s : Kvdb × Map) (op : Op) : Decidable (LogFits s op) :=
  inferInstanceAs (Decidable (_ < _))

/-- The state after `kvdb_open` on an empty log. -/
def start (off : ℕ) : Kvdb × Map := (kvdbOpen off, fun _ => none)

/-! ## The invariant -/

/-- The value of a key according to a history; the empty value marks a removal. -/
def valueOf (hist : List (List UInt8 × List UInt8)) (key : List UInt8) : Option (List UInt8) :=
  match latest hist key with
  | none => none
  | some v => if v = [] then none else some v

/-- The store keeps a history: for every hash value, the index holds the chain of its bucket. -/
structure Inv (kvdb : Kvdb) (hist : List (List UInt8 × List UInt8)) : Prop where
  sized : kvdb.kvraw.Sized
  nonempty : kvdb.kvraw.size ≠ 0
  placed : kvdb.index.WellPlaced
  chains : ∀ x ≠ 0, ∀ off, kvdb.index.Holds x off →
    ChainAt kvdb.kvraw off (bucket (hashKey hash) x hist)

variable {hash} {kvdb : Kvdb} {hist : List (List UInt8 × List UInt8)}

lemma valueOf_cons (key key' v : List UInt8) : valueOf ((key, v) :: hist) key' =
    if key = key' then (if v = [] then none else some v) else valueOf hist key' := by
  rw [valueOf, latest_cons]
  by_cases h : key = key'
  · simp only [h, if_true]
  · simp only [h, if_false]
    rfl

/-- An assignment to a history is an update of its map. -/
lemma valueOf_cons_eq_update (key : List UInt8) {v : List UInt8} (hv : v ≠ []) :
    valueOf ((key, v) :: hist) = Function.update (valueOf hist) key (some v) := by
  funext key'
  rw [valueOf_cons, if_neg hv]
  by_cases h : key = key'
  · subst h
    rw [if_pos rfl, Function.update_self]
  · rw [if_neg h, Function.update_of_ne (Ne.symm h)]

lemma valueOf_cons_nil_eq_update (key : List UInt8) :
    valueOf ((key, []) :: hist) = Function.update (valueOf hist) key none := by
  funext key'
  rw [valueOf_cons, if_pos rfl]
  by_cases h : key = key'
  · subst h
    rw [if_pos rfl, Function.update_self]
  · rw [if_neg h, Function.update_of_ne (Ne.symm h)]

/-- What `chain_lookup` leaves says whether the key has a value. -/
lemma ChainAnswer.absent_iff {key : List UInt8} {valLen : ℕ} {val : Option (List UInt8)}
    {c : ChainResult}
    (h : ChainAnswer (bucket (hashKey hash) (hashKey hash key) hist) key valLen val c) :
    (c.off = 0 ∨ c.valLen = 0) ↔ valueOf hist key = none := by
  have hlatest := latest_bucket (hashKey hash) hist key
  rw [valueOf]
  cases hv : latest hist key with
  | none =>
    simp [(h.absent (hlatest.trans hv)).1]
  | some v =>
    obtain ⟨hoff, hlen⟩ := h.present v (hlatest.trans hv)
    simp [hoff, hlen]

/-- The store after `kvdb_open` keeps the empty history. -/
lemma inv_kvdbOpen (off : ℕ) : Inv hash (kvdbOpen off) [] := by
  have happend : kvrawAppend none ⟨0, []⟩ [0] [0] off =
      .ok (⟨u64 (0 + (16 + 1 + 1)), [] ++ (Record.mk off [0] [0]).bytes⟩, some 0) :=
    kvrawAppend_eq _ _ (by decide) (by decide) (by decide)
  have hopen : kvrawOpen off = ⟨18, (Record.mk off [0] [0]).bytes⟩ := by
    rw [kvrawOpen, happend]
    rfl
  refine ⟨?_, ?_, wellPlaced_indexOpen, fun x hx off hoff => ?_⟩
  · simp only [kvdbOpen, hopen]
    exact ⟨by rw [Record.length_bytes]; rfl, by rw [Record.length_bytes]; simp⟩
  · simp [kvdbOpen, hopen]
  · rcases hoff with ⟨j, hj⟩ | ⟨-, rfl⟩
    · exact absurd (congrArg Slot.key hj).symm hx
    · rfl

/-- The counters do not matter for the history. -/
lemma Inv.congr {d : Kvdb} (h : Inv hash kvdb hist) (hraw : d.kvraw = kvdb.kvraw)
    (hindex : d.index = kvdb.index) : Inv hash d hist := by
  obtain ⟨hsized, hne, hplaced, hchains⟩ := h
  rw [← hraw] at hsized hne hchains
  rw [← hindex] at hplaced hchains
  exact ⟨hsized, hne, hplaced, hchains⟩

/-- `index_update` keeps the history. -/
lemma Inv.indexUpdate (h : Inv hash kvdb hist) {key : List UInt8} {index : Index} {ref : ℕ}
    (hup : indexUpdate hash kvdb.index key = .ok (index, ref)) :
    Inv hash { kvdb with index := index } hist ∧ (index.maps ref).key = hashKey hash key := by
  obtain ⟨hplaced, hkey, hholds⟩ := holds_indexUpdate h.placed hup
  refine ⟨⟨h.sized, h.nonempty, hplaced, fun x hx off hoff => ?_⟩, hkey⟩
  obtain ⟨off', hoff'⟩ := kvdb.index.exists_holds x
  obtain rfl := hplaced.holds_unique hx hoff (hholds x hx off' hoff')
  exact h.chains x hx off hoff'

/-- The store after a record was appended behind the reference `ref`, without the bookkeeping. -/
def Kvdb.appended (kvdb : Kvdb) (key val : List UInt8) (ref : ℕ) : Kvdb :=
  { kvdb with
    kvraw := ⟨u64 (kvdb.kvraw.size + (16 + key.length + val.length)),
      kvdb.kvraw.logfs ++ (Record.mk (kvdb.index.maps ref).off key val).bytes⟩
    index := kvdb.index.setOff ref kvdb.kvraw.size }

/-- What a successful append does. -/
lemma mutateAppend_eq (kvdb : Kvdb) {key val : List UInt8} (ref : ℕ) (account : Kvdb → Kvdb)
    (reply : Reply) (hkey : key.length ≠ 0) (hkey' : key.length ≤ kvdbMaxKeyLen)
    (hval : val.length ≤ kvdbMaxValLen) :
    mutateAppend none kvdb key val ref account reply =
      .ok (reply, account (kvdb.appended key val ref)) := by
  rw [kvdbMaxKeyLen] at hkey'
  rw [kvdbMaxValLen] at hval
  have hk : key.length < 2 ^ 16 := by omega
  have hv : val.length < 2 ^ 32 := by omega
  rw [mutateAppend, kvrawAppend_eq kvdb.kvraw (kvdb.index.maps ref).off hkey hk hv]
  rfl

/-- **An append extends the history.**

**Proof sketch.** The record lies at the old end of the log and links to the chain that the index
held for the hash value of the key; its offset is what the index holds now. The chains of other
hash values stay, since the log only grows. -/
lemma Inv.appended (h : Inv hash kvdb hist) {key : List UInt8} (val : List UInt8) {ref : ℕ}
    (href : (kvdb.index.maps ref).key = hashKey hash key)
    (hkey' : key.length ≤ kvdbMaxKeyLen) (hval : val.length ≤ kvdbMaxValLen)
    (hfits : kvdb.kvraw.logfs.length + (16 + key.length + val.length) < 2 ^ 64) :
    Inv hash (kvdb.appended key val ref) ((key, val) :: hist) := by
  have hholds : kvdb.index.Holds (hashKey hash key) (kvdb.index.maps ref).off :=
    .inl ⟨ref, by rw [← href]⟩
  have hchain := h.chains _ hashKey_ne_zero _ hholds
  have hsize := h.sized.1
  have hne := h.nonempty
  have hhead : (kvdb.index.maps ref).off < kvdb.kvraw.size := by
    rw [hsize]
    exact hchain.lt_length (by omega)
  have hk : key.length < 2 ^ 16 := by
    rw [kvdbMaxKeyLen] at hkey'
    omega
  have hv : val.length < 2 ^ 32 := by
    rw [kvdbMaxValLen] at hval
    omega
  have hlink : (kvdb.index.maps ref).off < 2 ^ 64 := by
    have := h.sized.2
    omega
  obtain ⟨hsized, hrec⟩ :=
    recordAt_kvrawAppend (kvdb.index.maps ref).off h.sized ⟨hlink, hk, hv⟩ hfits
  obtain ⟨hself, hother⟩ := Index.holds_setOff kvdb.kvraw.size href
  have hplaced : (kvdb.index.setOff ref kvdb.kvraw.size).WellPlaced := h.placed.setOff
  refine ⟨hsized, ?_, hplaced, fun x hx off hoff => ?_⟩
  · have := hsized.1
    simp only [List.length_append, Record.length_bytes] at this
    simp only [Kvdb.appended]
    omega
  · by_cases hxk : hashKey hash key = x
    · subst hxk
      obtain rfl := hplaced.holds_unique hx hoff hself
      rw [bucket_cons_self]
      exact ⟨hne, _, hhead, hrec, hchain.mono rfl⟩
    · obtain ⟨off', hoff'⟩ := kvdb.index.exists_holds x
      obtain rfl := hplaced.holds_unique hx hoff (hother x (Ne.symm hxk) off' hoff')
      rw [bucket_cons_of_ne hxk]
      exact (h.chains x hx off hoff').mono rfl

/-- The chain that the index holds for a hash value is that of its bucket, and is shorter than the
log. -/
lemma Inv.chain (h : Inv hash kvdb hist) {x : ℕ} (hx : x ≠ 0) {off : ℕ}
    (hoff : kvdb.index.Holds x off) :
    ChainAt kvdb.kvraw off (bucket (hashKey hash) x hist) ∧
      (bucket (hashKey hash) x hist).length < kvdb.kvraw.size + 1 := by
  have hchain := h.chains x hx off hoff
  have hsize := h.sized.1
  have hne := h.nonempty
  have hlen := hchain.length_le
  have hlt := hchain.lt_length (by omega)
  exact ⟨hchain, by omega⟩

/-- The lookup along the chain that the index holds for the hash value of the key. -/
lemma Inv.chainLookup (h : Inv hash kvdb hist) {key : List UInt8} (hkey : key.length ≠ 0)
    (off valLen : ℕ) (val : Option (List UInt8)) (hval : valLen ≠ 0 → val ≠ none)
    (hoff : kvdb.index.Holds (hashKey hash key) off) :
    ∃ c, P4.chainLookup kvdb.kvraw key valLen (kvdb.kvraw.size + 1) val off = .ok (some c) ∧
      ChainAnswer (bucket (hashKey hash) (hashKey hash key) hist) key valLen val c := by
  obtain ⟨hchain, hlen⟩ := h.chain hashKey_ne_zero hoff
  exact chainLookup_of_chainAt h.sized hkey hval hchain hlen

/-! ## The operations keep the history -/

/-- The mode stores a value if the key has the given value before. -/
def Mode.Stores : Mode → Option (List UInt8) → Prop
  | .insert, old => old = none
  | .update, _ => True
  | .replace, old => old ≠ none
  | .remove, old => old ≠ none

instance : ∀ (mode : Mode) (old : Option (List UInt8)), Decidable (mode.Stores old)
  | .insert, old => inferInstanceAs (Decidable (old = none))
  | .update, _ => inferInstanceAs (Decidable True)
  | .replace, old => inferInstanceAs (Decidable (old ≠ none))
  | .remove, old => inferInstanceAs (Decidable (old ≠ none))

/-- The bookkeeping of a mode before the record is appended. -/
def Mode.before (mode : Mode) (old : Option (List UInt8)) (kvdb : Kvdb) : Kvdb :=
  match mode with
  | .update =>
    if old = none then { kvdb with size := u64 (kvdb.size + 1) }
    else { kvdb with waste := u64 (kvdb.waste + 1) }
  | _ => kvdb

/-- The bookkeeping of a mode after the record was appended. -/
def Mode.after (mode : Mode) (kvdb : Kvdb) : Kvdb :=
  match mode with
  | .insert => { kvdb with size := u64 (kvdb.size + 1) }
  | .update => kvdb
  | .replace => { kvdb with waste := u64 (kvdb.waste + 1) }
  | .remove => { kvdb with size := u64 (kvdb.size + 2 ^ 64 - 1), waste := u64 (kvdb.waste + 1) }

lemma after_remove : Mode.remove.after = fun d =>
    { d with size := u64 (d.size + 2 ^ 64 - 1), waste := u64 (d.waste + 1) } := rfl

@[simp] lemma kvraw_before (mode : Mode) (old : Option (List UInt8)) (d : Kvdb) :
    (mode.before old d).kvraw = d.kvraw := by
  cases mode <;> simp only [Mode.before]
  split <;> rfl

@[simp] lemma index_before (mode : Mode) (old : Option (List UInt8)) (d : Kvdb) :
    (mode.before old d).index = d.index := by
  cases mode <;> simp only [Mode.before]
  split <;> rfl

@[simp] lemma kvraw_after (mode : Mode) (d : Kvdb) : (mode.after d).kvraw = d.kvraw := by
  obtain ⟨size, waste, kvraw, index⟩ := d
  cases mode <;> rfl

@[simp] lemma index_after (mode : Mode) (d : Kvdb) : (mode.after d).index = d.index := by
  obtain ⟨size, waste, kvraw, index⟩ := d
  cases mode <;> rfl

/-- **What `kvdb_insert`, `kvdb_update` and `kvdb_replace` do** once `index_update` has found a
slot, whichever append fails. -/
lemma Inv.put_eq (h : Inv hash kvdb hist) (mode : Mode) (hmode : mode ≠ .remove) (key : Key)
    (v : Val) {index : Index} {ref : ℕ}
    (hup : P4.indexUpdate hash kvdb.index key = .ok (index, ref))
    (failAt : Option ℕ) : kvdbPut hash mode failAt kvdb key v =
      if mode.Stores (valueOf hist key) then
        P4.mutateAppend failAt (mode.before (valueOf hist key) { kvdb with index := index }) key v
          ref mode.after ⟨0, some v, some v.1.length⟩
      else .ok (⟨1, some v, some v.1.length⟩, { kvdb with index := index }) := by
  obtain ⟨hkey, hkey'⟩ := key.2
  obtain ⟨hv, hv'⟩ := v.2
  obtain ⟨hinv, href⟩ := h.indexUpdate hup
  obtain ⟨c, hc, hanswer⟩ := hinv.chainLookup hkey (index.maps ref).off 0 none
    (fun h0 => absurd rfl h0) (.inl ⟨ref, by rw [← href]⟩)
  have habsent := hanswer.absent_iff
  have hpresent : (c.off ≠ 0 ∧ c.valLen ≠ 0) ↔ ¬ valueOf hist key = none := by
    rw [← habsent, not_or]
  rw [kvdbPut, if_neg (by omega), if_neg (by omega), mutate, hup]
  simp only [hmode, false_and, if_false, hc, Option.getD_some, List.take_length]
  cases mode with
  | remove => exact absurd rfl hmode
  | insert =>
    simp only [hpresent, ite_not]
    rfl
  | update =>
    simp only [habsent, Mode.Stores, if_true, Mode.before]
    rfl
  | replace =>
    simp only [habsent]
    by_cases hnone : valueOf hist key = none
    · have hstores : ¬ Mode.replace.Stores (valueOf hist key) := not_not_intro hnone
      rw [if_pos hnone, if_neg hstores]
    · have hstores : Mode.replace.Stores (valueOf hist key) := hnone
      rw [if_neg hnone, if_pos hstores]
      rfl

/-- **`kvdb_insert`, `kvdb_update` and `kvdb_replace`** store the value and return `0`, or return
`1` and keep the history. -/
lemma Inv.put (h : Inv hash kvdb hist) (mode : Mode) (hmode : mode ≠ .remove) (key : Key) (v : Val)
    (hroom : ∃ index, kvdb.index.grow = .ok index ∧ index.HasRoom (hashKey hash key))
    (hfits : mode.Stores (valueOf hist key) →
      kvdb.kvraw.logfs.length + (16 + key.1.length + v.1.length) < 2 ^ 64) :
    ∃ reply kvdb', kvdbPut hash mode none kvdb key v = .ok (reply, kvdb') ∧
      (mode.Stores (valueOf hist key) ∧ reply.code = 0 ∧ Inv hash kvdb' ((key.1, v.1) :: hist) ∨
        ¬ mode.Stores (valueOf hist key) ∧ reply.code = 1 ∧ Inv hash kvdb' hist) := by
  obtain ⟨⟨index, ref⟩, hup⟩ := (indexUpdate_isOk_iff key.2.1).mpr hroom
  obtain ⟨hinv, href⟩ := h.indexUpdate hup
  rw [h.put_eq mode hmode key v hup]
  by_cases hstores : mode.Stores (valueOf hist key)
  · have hbefore := hinv.congr (kvraw_before mode (valueOf hist key) _) (index_before mode _ _)
    have hafter := hbefore.appended v.1 (by rwa [index_before]) key.2.2 v.2.2
      (by rw [kvraw_before]; exact hfits hstores)
    rw [if_pos hstores, mutateAppend_eq _ ref mode.after _ key.2.1 key.2.2 v.2.2]
    exact ⟨_, _, rfl, .inl ⟨hstores, rfl, hafter.congr (kvraw_after mode _) (index_after mode _)⟩⟩
  · exact ⟨_, _, if_neg hstores, .inr ⟨hstores, rfl, hinv⟩⟩

/-- The answer reports the length of the value, and the values that were walked over and then the
value itself were copied to the beginning of the buffer. -/
def CopiesOver (ws : List (List UInt8)) (v : List UInt8) (reply : Reply) :
    Option (List UInt8) → Prop
  | none => reply.valLen = none
  | some b => reply.valLen = some v.length ∧ reply.val = some (overlay (ws.foldl overlay b) v)

/-- This is right if the values that were walked over spare the buffer behind the value. -/
lemma CopiesOver.copies_iff {ws : List (List UInt8)} {v : List UInt8} {reply : Reply}
    {buf : Option (List UInt8)} (h : CopiesOver ws v reply buf) :
    Copies v reply buf ↔ ∀ b ∈ buf, Spares ws v.length b := by
  cases buf with
  | none => exact ⟨fun _ b hb => by simp at hb, fun _ => h⟩
  | some b =>
    obtain ⟨hlen, hval⟩ := h
    rw [Copies, hval, Option.some.injEq, overlay_foldl_eq_iff]
    simp [hlen]

/-- A lookup walks over the values of the bucket that are newer than that of the key. -/
lemma Inv.newerValues_eq (h : Inv hash kvdb hist) {key : List UInt8} (hkey : key.length ≠ 0) :
    newerValues hash kvdb key = newer (bucket (hashKey hash) (hashKey hash key) hist) key := by
  obtain ⟨ref, href, hholds⟩ := indexLookup_eq hash h.placed hkey
  obtain ⟨hchain, hlen⟩ := h.chain hashKey_ne_zero hholds
  rw [newerValues, href]
  simp only [chainFrom_of_chainAt hchain hlen]

/-- A buffer is passed on with its length. -/
lemma passed_eq (buf : Option (List UInt8)) :
    (if buf.map List.length ≠ none then buf else none) = buf := by
  cases buf <;> rfl

/-- Where there is a capacity, there is a buffer, -/
lemma ne_none_of_capacity {buf : Option (List UInt8)} (h : (buf.map List.length).getD 0 ≠ 0) :
    buf ≠ none := by
  rintro rfl
  exact h rfl

/-- and where there is no buffer, there is no length. -/
lemma buffer_admitted (buf : Option (List UInt8)) (p : Prop) :
    buf.map List.length = none ∨ p ∨ buf ≠ none := by
  cases buf with
  | none => exact .inl rfl
  | some b => exact .inr (.inr (Option.some_ne_none b))

/-- What a lookup of a present key leaves. -/
lemma ChainAnswer.copiesOver {key : List UInt8} {buf : Option (List UInt8)} {c : ChainResult}
    (h : ChainAnswer (bucket (hashKey hash) (hashKey hash key) hist) key
      ((buf.map List.length).getD 0) buf c) {v : List UInt8} (hv : valueOf hist key = some v) :
    CopiesOver (newer (bucket (hashKey hash) (hashKey hash key) hist) key) v
      ⟨0, if buf.map List.length ≠ none then c.val else buf,
        (buf.map List.length).map fun _ => c.valLen⟩ buf := by
  have hlatest : latest (bucket (hashKey hash) (hashKey hash key) hist) key = some v := by
    rw [latest_bucket]
    rw [valueOf] at hv
    cases hl : latest hist key with
    | none => simp [hl] at hv
    | some w =>
      simp only [hl] at hv
      split at hv
      · simp at hv
      · exact hv
  obtain ⟨-, hlen⟩ := h.present v hlatest
  have hbuffer := h.buffer
  cases buf with
  | none => rfl
  | some b =>
    rw [hlatest, Option.toList_some, Option.map_some, Option.getD_some, foldl_copyValue,
      List.foldl_append] at hbuffer
    exact ⟨congrArg some hlen, hbuffer⟩

/-- **What `kvdb_remove` does** once `index_update` has found a slot, whichever append fails. -/
lemma Inv.remove_eq (h : Inv hash kvdb hist) (key : Key) (buf : Option (List UInt8))
    {index : Index} {ref : ℕ} (hup : P4.indexUpdate hash kvdb.index key = .ok (index, ref)) :
    ∃ reply : Reply, (∀ v, valueOf hist key = some v →
        CopiesOver (newerValues hash kvdb key) v reply buf) ∧ ∀ failAt,
      kvdbRemove hash failAt kvdb key buf (buf.map List.length) =
        if Mode.remove.Stores (valueOf hist key) then
          P4.mutateAppend failAt { kvdb with index := index } key [] ref Mode.remove.after
            { reply with code := 0 }
        else .ok (⟨1, reply.val, buf.map List.length⟩, { kvdb with index := index }) := by
  obtain ⟨hkey, hkey'⟩ := key.2
  obtain ⟨hinv, href⟩ := h.indexUpdate hup
  obtain ⟨c, hc, hanswer⟩ := hinv.chainLookup hkey (index.maps ref).off
    ((buf.map List.length).getD 0) buf ne_none_of_capacity (.inl ⟨ref, by rw [← href]⟩)
  have hassert := buffer_admitted buf ((buf.map List.length).getD 0 ≠ 0)
  refine ⟨⟨0, if buf.map List.length ≠ none then c.val else buf,
    (buf.map List.length).map fun _ => c.valLen⟩, fun v hv => ?_, fun failAt => ?_⟩
  · rw [h.newerValues_eq hkey]
    exact hanswer.copiesOver hv
  · rw [kvdbRemove, if_neg (by omega), if_neg (not_not_intro hassert), mutate, hup]
    simp only [true_and, if_true, passed_eq, hc, hanswer.absent_iff]
    by_cases hnone : valueOf hist key = none
    · have hstores : ¬ Mode.remove.Stores (valueOf hist key) := not_not_intro hnone
      rw [if_pos hnone, if_neg hstores]
    · have hstores : Mode.remove.Stores (valueOf hist key) := hnone
      rw [if_neg hnone, if_pos hstores, after_remove]

/-- **`kvdb_remove`** removes a present key, returns `0` and copies the value, or returns `1` and
keeps the history. -/
lemma Inv.remove (h : Inv hash kvdb hist) (key : Key) (buf : Option (List UInt8))
    (hroom : ∃ index, kvdb.index.grow = .ok index ∧ index.HasRoom (hashKey hash key))
    (hfits : valueOf hist key ≠ none → kvdb.kvraw.logfs.length + (16 + key.1.length) < 2 ^ 64) :
    ∃ reply kvdb', kvdbRemove hash none kvdb key buf (buf.map List.length) = .ok (reply, kvdb') ∧
      ((∃ v, valueOf hist key = some v ∧ reply.code = 0 ∧
          CopiesOver (newerValues hash kvdb key) v reply buf ∧
            Inv hash kvdb' ((key.1, []) :: hist)) ∨
        valueOf hist key = none ∧ reply.code = 1 ∧ Inv hash kvdb' hist) := by
  obtain ⟨⟨index, ref⟩, hup⟩ := (indexUpdate_isOk_iff key.2.1).mpr hroom
  obtain ⟨hinv, href⟩ := h.indexUpdate hup
  obtain ⟨reply, hcopies, hres⟩ := h.remove_eq key buf hup
  rw [hres]
  cases hv : valueOf hist key with
  | none => exact ⟨_, _, if_neg (not_not_intro rfl), .inr ⟨rfl, rfl, hinv⟩⟩
  | some v =>
    have hafter := hinv.appended [] href key.2.2 (Nat.zero_le _) (hfits (by simp [hv]))
    refine ⟨_, _, (if_pos (Option.some_ne_none v)).trans
      (mutateAppend_eq _ ref Mode.remove.after _ key.2.1 key.2.2 (Nat.zero_le _)),
      .inl ⟨v, rfl, rfl, hcopies v hv, hafter.congr (kvraw_after _ _) (index_after _ _)⟩⟩

/-- **`kvdb_lookup`** returns `0` and copies the value of a present key, or returns `1`. -/
lemma Inv.lookup (h : Inv hash kvdb hist) (key : Key) (buf : Option (List UInt8)) :
    ∃ reply, kvdbLookup hash kvdb key buf (buf.map List.length) = .ok reply ∧
      ((∃ v, valueOf hist key = some v ∧ reply.code = 0 ∧
          CopiesOver (newerValues hash kvdb key) v reply buf) ∨
        valueOf hist key = none ∧ reply.code = 1) := by
  obtain ⟨hkey, hkey'⟩ := key.2
  have hassert := buffer_admitted buf ((buf.map List.length).getD 0 = 0)
  obtain ⟨ref, href, hholds⟩ := indexLookup_eq hash h.placed hkey
  rw [kvdbLookup, if_neg (by omega), if_neg (not_not_intro hassert), href]
  simp only
  generalize kvdb.index.deref ref = off at hholds ⊢
  obtain ⟨c, hc, hanswer⟩ := h.chainLookup hkey off ((buf.map List.length).getD 0) buf
    ne_none_of_capacity hholds
  have habsent := hanswer.absent_iff
  by_cases hzero : off = 0
  · subst hzero
    rw [P4.chainLookup, if_pos rfl] at hc
    obtain rfl := Option.some.inj (Except.ok.inj hc)
    exact ⟨_, by rw [if_pos rfl], .inr ⟨habsent.mp (.inl rfl), rfl⟩⟩
  · simp only [hzero, if_false, passed_eq, hc, habsent]
    cases hv : valueOf hist key with
    | none => exact ⟨_, by rw [if_pos rfl], .inr ⟨rfl, rfl⟩⟩
    | some v =>
      refine ⟨_, by rw [if_neg (Option.some_ne_none v)], .inl ⟨v, rfl, rfl, ?_⟩⟩
      rw [h.newerValues_eq hkey]
      exact hanswer.copiesOver hv

/-! ## Runs -/

variable (hash) in
/-- The store keeps a history of the abstract store. -/
def Refines (s : Kvdb × Map) : Prop := ∃ hist, Inv hash s.1 hist ∧ s.2 = valueOf hist

/-- An answer with the right return value is correct exactly if the buffer is spared. -/
lemma correct_iff_spared {s : Kvdb × Map} {op : Op} {reply : Reply}
    (hcode : reply.code = specCode s.2 op)
    (hcopies : ∀ key buf v, op.reads = some (key, buf) → s.2 key = some v →
      CopiesOver (newerValues hash s.1 key) v reply buf) :
    Correct s.2 op reply ↔ Spared hash s op := by
  constructor
  · rintro ⟨-, hcorrect⟩ key b v hreads hv
    exact (hcopies key _ v hreads hv).copies_iff.mp (hcorrect key _ v hreads hv) b rfl
  · intro h
    refine ⟨hcode, fun key buf v hreads hv => (hcopies key buf v hreads hv).copies_iff.mpr ?_⟩
    rintro b rfl
    exact h key b v hreads hv

/-- **One operation**: if the insertion into the index finds a slot, the operation returns and
refines the step of the abstract store. Its answer is that of the abstract store if and only if the
buffer is spared.

**Proof sketch.** The history grows by the assignment of the operation, or stays; the map of the
longer history is the update of the map. -/
lemma Refines.exec {s : Kvdb × Map} {op : Op} (h : Refines hash s) (hfits : LogFits s op)
    (hslot : FindsSlot hash s op) : ∃ reply kvdb', P4.exec hash s.1 op = .ok (reply, kvdb') ∧
      (Correct s.2 op reply ↔ Spared hash s op) ∧ Refines hash (kvdb', specNext s.2 op) := by
  obtain ⟨hist, hinv, hm⟩ := h
  obtain ⟨kvdb, m⟩ := s
  simp only at hinv hm
  subst hm
  cases op with
  | insert key v =>
    obtain ⟨reply, kvdb', hres, hcase⟩ :=
      hinv.put .insert (by decide) key v (hslot key rfl) fun _ => hfits
    refine ⟨reply, kvdb', hres, ?_⟩
    rcases hcase with ⟨hstored, hcode, hinv'⟩ | ⟨hstored, hcode, hinv'⟩
    · have hstored' : valueOf hist key = none := hstored
      refine ⟨correct_iff_spared ?_ fun _ _ _ h => absurd h (by simp [Op.reads]), _, hinv', ?_⟩
      · rw [hcode, specCode, if_pos hstored']
      · show (if _ then _ else _) = _
        rw [if_pos hstored', valueOf_cons_eq_update _ (Val.ne_nil v)]
    · have hstored' : ¬ valueOf hist key = none := hstored
      refine ⟨correct_iff_spared ?_ fun _ _ _ h => absurd h (by simp [Op.reads]), _, hinv', ?_⟩
      · rw [hcode, specCode, if_neg hstored']
      · exact if_neg hstored'
  | update key v =>
    obtain ⟨reply, kvdb', hres, hcase⟩ :=
      hinv.put .update (by decide) key v (hslot key rfl) fun _ => hfits
    refine ⟨reply, kvdb', hres, ?_⟩
    rcases hcase with ⟨-, hcode, hinv'⟩ | ⟨hstored, -, -⟩
    · refine ⟨correct_iff_spared hcode fun _ _ _ h => absurd h (by simp [Op.reads]), _, hinv', ?_⟩
      exact (valueOf_cons_eq_update _ (Val.ne_nil v)).symm
    · exact absurd trivial hstored
  | replace key v =>
    obtain ⟨reply, kvdb', hres, hcase⟩ :=
      hinv.put .replace (by decide) key v (hslot key rfl) fun _ => hfits
    refine ⟨reply, kvdb', hres, ?_⟩
    rcases hcase with ⟨hstored, hcode, hinv'⟩ | ⟨hstored, hcode, hinv'⟩
    · have hstored' : ¬ valueOf hist key = none := hstored
      refine ⟨correct_iff_spared ?_ fun _ _ _ h => absurd h (by simp [Op.reads]), _, hinv', ?_⟩
      · rw [hcode, specCode, if_neg hstored']
      · show (if _ then _ else _) = _
        rw [if_neg hstored', valueOf_cons_eq_update _ (Val.ne_nil v)]
    · have hstored' : valueOf hist key = none := not_not.mp hstored
      refine ⟨correct_iff_spared ?_ fun _ _ _ h => absurd h (by simp [Op.reads]), _, hinv', ?_⟩
      · rw [hcode, specCode, if_pos hstored']
      · exact if_pos hstored'
  | remove key buf =>
    obtain ⟨reply, kvdb', hres, hcase⟩ := hinv.remove key buf (hslot key rfl) fun _ => hfits
    refine ⟨reply, kvdb', hres, ?_⟩
    rcases hcase with ⟨v, hv, hcode, hcopies, hinv'⟩ | ⟨hv, hcode, hinv'⟩
    · refine ⟨correct_iff_spared ?_ fun key' buf' v' hreads hv' => ?_, _, hinv', ?_⟩
      · rw [hcode, specCode, if_neg (ne_of_eq_of_ne hv (Option.some_ne_none v))]
      · obtain ⟨rfl, rfl⟩ := Prod.mk.inj (Option.some.inj hreads)
        obtain rfl := Option.some.inj (hv.symm.trans hv')
        exact hcopies
      · exact (valueOf_cons_nil_eq_update key.1).symm
    · refine ⟨correct_iff_spared ?_ fun key' buf' v' hreads hv' => ?_, _, hinv', ?_⟩
      · rw [hcode, specCode, if_pos hv]
      · obtain ⟨rfl, rfl⟩ := Prod.mk.inj (Option.some.inj hreads)
        exact absurd (hv.symm.trans hv') (by simp)
      · rw [specNext, Function.update_eq_self_iff]
        exact hv.symm
  | lookup key buf =>
    obtain ⟨reply, hres, hcase⟩ := hinv.lookup key buf
    refine ⟨reply, kvdb, by rw [P4.exec, hres]; rfl, ?_⟩
    rcases hcase with ⟨v, hv, hcode, hcopies⟩ | ⟨hv, hcode⟩
    · refine ⟨correct_iff_spared ?_ fun key' buf' v' hreads hv' => ?_, _, hinv, rfl⟩
      · rw [hcode, specCode, if_neg (ne_of_eq_of_ne hv (Option.some_ne_none v))]
      · obtain ⟨rfl, rfl⟩ := Prod.mk.inj (Option.some.inj hreads)
        obtain rfl := Option.some.inj (hv.symm.trans hv')
        exact hcopies
    · refine ⟨correct_iff_spared ?_ fun key' buf' v' hreads hv' => ?_, _, hinv, rfl⟩
      · rw [hcode, specCode, if_pos hv]
      · obtain ⟨rfl, rfl⟩ := Prod.mk.inj (Option.some.inj hreads)
        exact absurd (hv.symm.trans hv') (by simp)

/-- The step of an operation whose insertion finds a slot. -/
lemma Refines.of_step {s s' : Kvdb × Map} {op : Op} (h : Refines hash s) (hfits : LogFits s op)
    (hslot : FindsSlot hash s op) (hs : step hash s op = some s') : Refines hash s' := by
  obtain ⟨reply, kvdb', hres, -, h'⟩ := h.exec hfits hslot
  rw [step, hres] at hs
  obtain rfl := Option.some.inj hs
  exact h'

/-- `mutate` returns only if `index_update` does. -/
lemma indexUpdate_of_mutate {failAt : Option ℕ} {key : List UInt8} {val : Option (List UInt8)}
    {valLen : Option ℕ} {mode : Mode} {res : Reply × Kvdb}
    (h : mutate hash failAt kvdb key val valLen mode = .ok res) :
    ∃ res, P4.indexUpdate hash kvdb.index key = .ok res := by
  rw [mutate] at h
  cases hup : P4.indexUpdate hash kvdb.index key with
  | error stop => simp [hup] at h
  | ok res => exact ⟨res, rfl⟩

/-- So do `kvdb_insert`, `kvdb_update` and `kvdb_replace` -/
lemma indexUpdate_of_put {failAt : Option ℕ} {mode : Mode} {key : Key} {v : Val}
    {res : Reply × Kvdb} (h : kvdbPut hash mode failAt kvdb key v = .ok res) :
    ∃ res, P4.indexUpdate hash kvdb.index key = .ok res := by
  obtain ⟨hkey, hkey'⟩ := key.2
  obtain ⟨hv, hv'⟩ := v.2
  rw [kvdbPut, if_neg (by omega), if_neg (by omega)] at h
  exact indexUpdate_of_mutate h

/-- and `kvdb_remove`. -/
lemma indexUpdate_of_remove {failAt : Option ℕ} {key : Key} {val : Option (List UInt8)}
    {valLen : Option ℕ} {res : Reply × Kvdb}
    (h : kvdbRemove hash failAt kvdb key val valLen = .ok res) :
    ∃ res, P4.indexUpdate hash kvdb.index key = .ok res := by
  obtain ⟨hkey, hkey'⟩ := key.2
  rw [kvdbRemove, if_neg (by omega)] at h
  split at h
  · simp at h
  · exact indexUpdate_of_mutate h

/-- An operation that returns finds a slot. -/
lemma findsSlot_of_exec {s : Kvdb × Map} {op : Op} {res : Reply × Kvdb}
    (h : P4.exec hash s.1 op = .ok res) : FindsSlot hash s op := by
  intro key hkey
  refine (indexUpdate_isOk_iff key.2.1).mp ?_
  cases op with
  | insert key' v =>
    obtain rfl := Option.some.inj hkey
    exact indexUpdate_of_put h
  | update key' v =>
    obtain rfl := Option.some.inj hkey
    exact indexUpdate_of_put h
  | replace key' v =>
    obtain rfl := Option.some.inj hkey
    exact indexUpdate_of_put h
  | remove key' buf =>
    obtain rfl := Option.some.inj hkey
    exact indexUpdate_of_remove h
  | lookup key' buf => simp [Op.updates] at hkey

/-- An operation answers correctly exactly if its insertion finds a slot and it spares the
buffer. -/
lemma Refines.answersCorrectly_iff {s : Kvdb × Map} {op : Op} (h : Refines hash s)
    (hfits : LogFits s op) :
    AnswersCorrectly hash s op ↔ FindsSlot hash s op ∧ Spared hash s op := by
  constructor
  · rintro ⟨reply, kvdb', hres, hcorrect⟩
    have hslot := findsSlot_of_exec hres
    obtain ⟨reply', kvdb'', hres', hiff, -⟩ := h.exec hfits hslot
    obtain ⟨rfl, -⟩ := Prod.mk.inj (Except.ok.inj (hres.symm.trans hres'))
    exact ⟨hslot, hiff.mp hcorrect⟩
  · rintro ⟨hslot, hspared⟩
    obtain ⟨reply, kvdb', hres, hiff, -⟩ := h.exec hfits hslot
    exact ⟨reply, kvdb', hres, hiff.mpr hspared⟩

/-! ## Keys and values for examples -/

/-- The key of eight bytes with a given number. -/
def numberedKey (n : ℕ) : Key :=
  ⟨toBytes 8 n, by rw [length_toBytes]; decide, by rw [length_toBytes]; decide⟩

/-- A hash function that returns the number of a key. -/
def numberHash (key : List UInt8) : UInt64 := UInt64.ofNat (ofBytes key)

/-- The value of one byte. -/
def oneByte : Val := ⟨[1], by decide, by decide⟩

end Cs238p.P4
