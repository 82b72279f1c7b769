import Cs238p.P4.IndexRoom
import Cs238p.P4.KvdbReach

set_option relaxedAutoImplicit false
set_option autoImplicit false

/-!
# The assertions below the store

The functions of the store assert what they need of their arguments and hand the buffers on, to
functions with assertions of their own. The assertion of `kvdb_remove` about the buffer has a
negation too many, so it admits a null pointer with a capacity, and rejects a capacity of zero.

## Main definitions

* `RemoveAdmits`, `LookupAdmits` — the assertions of `kvdb_remove` and `kvdb_lookup` about the
  buffer.
* `Call`, `callExec`, `callStep` — the operations with arbitrary arguments.
* `Call.Asserts` — the assertions of the function that is called.
* `Call.Unbuffered` — a removal without a buffer, but with a capacity, from a chain that is not
  empty.

## Main results

* `Inv.call_cases` — other calls act like operations of `Op`.
* `inner_assertions_iff` — in every reachable store.
-/

namespace Cs238p.P4

open History LittleEndian Transition

/-! ## Calls with arbitrary arguments -/

/-- What `kvdb_remove` asserts of its buffer: `!val_len || !!(*val_len) || val`. -/
def RemoveAdmits (val : Option (List UInt8)) (valLen : Option ℕ) : Prop :=
  valLen = none ∨ valLen.getD 0 ≠ 0 ∨ val ≠ none

/-- What `kvdb_lookup` asserts of its buffer: `!val_len || !(*val_len) || val`. -/
def LookupAdmits (val : Option (List UInt8)) (valLen : Option ℕ) : Prop :=
  valLen = none ∨ valLen.getD 0 = 0 ∨ val ≠ none

/-- A call of an operation. The pointers `val` and `val_len` of the lookups are arbitrary. -/
inductive Call
  | insert (key val : List UInt8)
  | update (key val : List UInt8)
  | replace (key val : List UInt8)
  | remove (key : List UInt8) (val : Option (List UInt8)) (valLen : Option ℕ)
  | lookup (key : List UInt8) (val : Option (List UInt8)) (valLen : Option ℕ)
  deriving DecidableEq, Repr

/-- The assertion of all functions about the key. -/
def KeyAsserts (key : List UInt8) : Prop := key.length ≠ 0 ∧ key.length ≤ kvdbMaxKeyLen

/-- The assertion of `kvdb_insert`, `kvdb_update` and `kvdb_replace` about the value. -/
def ValAsserts (val : List UInt8) : Prop := val.length ≠ 0 ∧ val.length ≤ kvdbMaxValLen

/-- The assertions of the function that is called hold. -/
def Call.Asserts : Call → Prop
  | .insert key val | .update key val | .replace key val => KeyAsserts key ∧ ValAsserts val
  | .remove key val valLen => KeyAsserts key ∧ RemoveAdmits val valLen
  | .lookup key val valLen => KeyAsserts key ∧ LookupAdmits val valLen

variable (hash : List UInt8 → UInt64)

/-- A call on the store. -/
def callExec (kvdb : Kvdb) : Call → Except Stop (Reply × Kvdb)
  | .insert key val => kvdbInsert hash none kvdb key val
  | .update key val => kvdbUpdate hash none kvdb key val
  | .replace key val => kvdbReplace hash none kvdb key val
  | .remove key val valLen => kvdbRemove hash none kvdb key val valLen
  | .lookup key val valLen => (kvdbLookup hash kvdb key val valLen).map fun r => (r, kvdb)

/-- The store after a call, if the call returns. -/
def callStep (kvdb : Kvdb) (call : Call) : Option Kvdb :=
  match callExec hash kvdb call with
  | .error _ => none
  | .ok (_, kvdb) => some kvdb

/-- A removal with a null pointer as its buffer and a capacity other than zero, of a key for whose
hash value the index holds records. -/
def Call.Unbuffered (kvdb : Kvdb) : Call → Prop
  | .remove key val valLen =>
    val = none ∧ valLen.getD 0 ≠ 0 ∧ ∃ off ≠ 0, kvdb.index.Holds (hashKey hash key) off
  | _ => False

variable {hash} {kvdb kvdb' : Kvdb} {hist : List (List UInt8 × List UInt8)} {call : Call}
  {key : List UInt8} {val : Option (List UInt8)} {valLen : Option ℕ} {index index' : Index}
  {ref off : ℕ}

/-- The assertion about the key, as the functions of the store test it. -/
lemma not_keyAsserts : ¬ KeyAsserts key ↔ key.length = 0 ∨ key.length > kvdbMaxKeyLen := by
  rw [KeyAsserts]
  omega

/-- Without its own assertions a call does not return. -/
lemma callExec_of_not_asserts (h : ¬ call.Asserts) :
    callExec hash kvdb call = .error .assertion := by
  have hput (mode : Mode) (key val : List UInt8) (h : ¬ (KeyAsserts key ∧ ValAsserts val)) :
      kvdbPut hash mode none kvdb key val = .error .assertion := by
    rw [kvdbPut]
    by_cases hkey : KeyAsserts key
    · have hval : val.length = 0 ∨ val.length > kvdbMaxValLen := by
        by_contra hval
        exact h ⟨hkey, by rw [ValAsserts]; omega⟩
      rw [if_neg (not_not_intro hkey ∘ not_keyAsserts.mpr), if_pos hval]
    · rw [if_pos (not_keyAsserts.mp hkey)]
  cases call with
  | insert key val => exact hput .insert key val h
  | update key val => exact hput .update key val h
  | replace key val => exact hput .replace key val h
  | remove key val valLen =>
    rw [callExec, kvdbRemove]
    by_cases hkey : KeyAsserts key
    · have hval : ¬ RemoveAdmits val valLen := fun hval => h ⟨hkey, hval⟩
      rw [RemoveAdmits] at hval
      rw [if_neg (not_not_intro hkey ∘ not_keyAsserts.mpr), if_pos hval]
    · rw [if_pos (not_keyAsserts.mp hkey)]
  | lookup key val valLen =>
    rw [callExec, kvdbLookup]
    by_cases hkey : KeyAsserts key
    · have hval : ¬ LookupAdmits val valLen := fun hval => h ⟨hkey, hval⟩
      rw [LookupAdmits] at hval
      rw [if_neg (not_not_intro hkey ∘ not_keyAsserts.mpr), if_pos hval]
      rfl
    · rw [if_pos (not_keyAsserts.mp hkey)]
      rfl

/-! ## The index -/

lemma hashKey_lt : hashKey hash key < 2 ^ 64 := by
  have hlt := (hash key).toNat_lt
  show (if (hash key).toNat ≠ 0 then (hash key).toNat else (hash key).toNat + 1) < 2 ^ 64
  split <;> omega

namespace Index

lemma Spacious.setOff (h : index.Spacious) : (index.setOff ref off).Spacious where
  placed := h.placed.setOff
  counted := h.counted.setOff
  keysFit j := by
    rw [key_setOff]
    exact h.keysFit j
  load := h.load

lemma Spacious.indexUpdate (h : index.Spacious) (hkey : key.length ≠ 0)
    (hup : P4.indexUpdate hash index key = .ok (index', ref)) : index'.Spacious := by
  have hins : P4.insertStep index (hashKey hash key) = some index' := by
    rw [P4.insertStep, ← indexUpdate_eq_insertKey hash hkey, hup]
    rfl
  exact h.insertStep (Nat.pos_of_ne_zero hashKey_ne_zero) hashKey_lt hins

/-- A key of the table has room. -/
lemma hasRoom_of_holds {k : ℕ} (h : index.WellPlaced) (hk : k ≠ 0) (hoff : off ≠ 0)
    (hholds : index.Holds k off) : index.HasRoom k := by
  rcases hholds with ⟨j, hj⟩ | ⟨-, h0⟩
  · have hjk : (index.maps j).key = k := by rw [hj]
    obtain ⟨i, hi, hprobe, -⟩ := h j k ((keyAt_eq_some hk).mpr hjk)
    exact ⟨i, hi, .inr (by rw [hprobe, hjk])⟩
  · exact absurd h0 hoff

/-- **`index_update` returns for a key of the table.** -/
theorem Spacious.exists_indexUpdate (h : index.Spacious) (hkey : key.length ≠ 0) (hoff : off ≠ 0)
    (hholds : index.Holds (hashKey hash key) off) :
    ∃ index' ref, P4.indexUpdate hash index key = .ok (index', ref) := by
  have hroom : ∃ grown, index.grow = .ok grown ∧ grown.HasRoom (hashKey hash key) := by
    by_cases hloaded : index.Loaded
    · obtain ⟨grown, hgrow, -⟩ := h.grow hloaded
      obtain ⟨hplaced, hkeeps⟩ := holds_grow h.placed hgrow
      have hholds' := hkeeps _ hashKey_ne_zero off hholds
      exact ⟨grown, hgrow, hasRoom_of_holds hplaced hashKey_ne_zero hoff hholds'⟩
    · have hgrow : index.grow = .ok index := by rw [Index.grow, if_neg hloaded]
      exact ⟨index, hgrow, hasRoom_of_holds h.placed hashKey_ne_zero hoff hholds⟩
  obtain ⟨⟨index', ref⟩, hup⟩ := (indexUpdate_isOk_iff hkey).mpr hroom
  exact ⟨index', ref, hup⟩

end Index

/-! ## What a call does -/

/-- What the slot of the key holds after `index_update` is what the table held before. -/
lemma Inv.off_eq (h : Inv hash kvdb hist)
    (hup : P4.indexUpdate hash kvdb.index key = .ok (index, ref))
    (hholds : kvdb.index.Holds (hashKey hash key) off) : (index.maps ref).off = off := by
  obtain ⟨hplaced, href, hkeeps⟩ := holds_indexUpdate h.placed hup
  refine hplaced.holds_unique hashKey_ne_zero (.inl ⟨ref, ?_⟩) (hkeeps _ hashKey_ne_zero off hholds)
  rw [← href]

/-- A lookup along a chain that is empty or with a buffer. -/
lemma Inv.chainLookup_absent (h : Inv hash kvdb hist) (hkey : key.length ≠ 0) {n : ℕ}
    (hval : off ≠ 0 → n ≠ 0 → val ≠ none) (hoff : kvdb.index.Holds (hashKey hash key) off) :
    ∃ c, P4.chainLookup kvdb.kvraw key n (kvdb.kvraw.size + 1) val off = .ok (some c) ∧
      ((c.off = 0 ∨ c.valLen = 0) ↔ valueOf hist key = none) := by
  by_cases h0 : off = 0
  · subst h0
    refine ⟨⟨val, n, 0⟩, rfl, ?_⟩
    obtain ⟨c, hc, hanswer⟩ :=
      h.chainLookup hkey 0 0 none (fun hne => absurd rfl hne) hoff
    obtain rfl := Option.some.inj (Except.ok.inj hc)
    rw [← hanswer.absent_iff]
    simp
  · obtain ⟨c, hc, hanswer⟩ := h.chainLookup hkey off n val (hval h0) hoff
    exact ⟨c, hc, hanswer.absent_iff⟩

/-- **What a removal leaves in the store** once `index_update` has found a slot, with or without a
buffer. -/
lemma Inv.mutate_remove (h : Inv hash kvdb hist) (hkey : KeyAsserts key)
    (hup : P4.indexUpdate hash kvdb.index key = .ok (index, ref))
    (hval : (index.maps ref).off ≠ 0 → valLen.getD 0 ≠ 0 → val ≠ none) :
    ∃ reply, mutate hash none kvdb key val valLen .remove = .ok (reply,
      if valueOf hist key = none then { kvdb with index := index }
      else Mode.remove.after (Kvdb.appended { kvdb with index := index } key [] ref)) := by
  obtain ⟨hinv, href⟩ := h.indexUpdate hup
  have hval' : (index.maps ref).off ≠ 0 → valLen.getD 0 ≠ 0 →
      (if valLen ≠ none then val else none) ≠ none := by
    intro hoff hne
    have hsome : valLen ≠ none := by
      rintro rfl
      exact hne rfl
    rw [if_pos hsome]
    exact hval hoff hne
  obtain ⟨c, hc, habsent⟩ :=
    hinv.chainLookup_absent hkey.1 hval' (.inl ⟨ref, by rw [← href]⟩)
  rw [mutate, hup]
  simp only [true_and, if_true, hc, habsent]
  by_cases hnone : valueOf hist key = none
  · exact ⟨_, by rw [if_pos hnone, if_pos hnone]⟩
  · rw [if_neg hnone, ← after_remove, mutateAppend_eq _ ref _ _ hkey.1 hkey.2 (Nat.zero_le _)]
    exact ⟨_, by rw [if_neg hnone]⟩

/-- A lookup whose assertions hold returns. -/
lemma Inv.lookup_returns (h : Inv hash kvdb hist) (hkey : KeyAsserts key)
    (hadmits : LookupAdmits val valLen) :
    ∃ reply, kvdbLookup hash kvdb key val valLen = .ok reply := by
  have hlen := not_not_intro hkey ∘ not_keyAsserts.mpr
  obtain ⟨ref, href, hholds⟩ := indexLookup_eq hash h.placed hkey.1
  have hval : kvdb.index.deref ref ≠ 0 → valLen.getD 0 ≠ 0 →
      (if valLen ≠ none then val else none) ≠ none := by
    intro _ hne
    have hsome : valLen ≠ none := by
      rintro rfl
      exact hne rfl
    rw [if_pos hsome]
    rcases hadmits with hnone | h0 | hval
    · exact absurd hnone hsome
    · exact absurd h0 hne
    · exact hval
  obtain ⟨c, hc, -⟩ := h.chainLookup_absent hkey.1 hval hholds
  rw [LookupAdmits] at hadmits
  rw [kvdbLookup, if_neg hlen, if_neg (not_not_intro hadmits), href]
  simp only [hc]
  by_cases h0 : kvdb.index.deref ref = 0
  · exact ⟨_, if_pos h0⟩
  · rw [if_neg h0]
    by_cases habsent : c.off = 0 ∨ c.valLen = 0
    · exact ⟨_, if_pos habsent⟩
    · exact ⟨_, if_neg habsent⟩

/-- **A removal without a buffer** from a chain that is not empty violates the assertion of
`kvraw_lookup`. -/
lemma Inv.exec_unbuffered (h : Inv hash kvdb hist) (hspacious : kvdb.index.Spacious)
    (hown : call.Asserts) (hcall : call.Unbuffered hash kvdb) :
    callExec hash kvdb call = .error .assertion := by
  cases call with
  | remove key val valLen =>
    obtain ⟨rfl, hne, off, hoff, hholds⟩ := hcall
    obtain ⟨hkey, hadmits⟩ := hown
    obtain ⟨index, ref, hup⟩ := hspacious.exists_indexUpdate hkey.1 hoff hholds
    have hlen := not_not_intro hkey ∘ not_keyAsserts.mpr
    rw [RemoveAdmits] at hadmits
    have hlookup : P4.chainLookup kvdb.kvraw key (valLen.getD 0) (kvdb.kvraw.size + 1) none off =
        .error .assertion := by
      rw [P4.chainLookup, if_neg hoff, kvrawLookup, if_pos (.inr (.inl ⟨hne, rfl⟩))]
    rw [callExec, kvdbRemove, if_neg hlen, if_neg (not_not_intro hadmits), mutate, hup]
    simp only [true_and, if_true, ite_self, h.off_eq hup hholds, hlookup]
  | _ => exact absurd hcall id

/-- Two calls leave the same store, or do not return for the same reason. -/
def SameEffect (res res' : Except Stop (Reply × Kvdb)) : Prop :=
  res.map Prod.snd = res'.map Prod.snd

/-- **Every other call acts like an operation.** -/
theorem Inv.call_cases (h : Inv hash kvdb hist) (hown : call.Asserts)
    (hcall : ¬ call.Unbuffered hash kvdb) :
    ∃ op, SameEffect (callExec hash kvdb call) (exec hash kvdb op) := by
  cases call with
  | insert key val => exact ⟨.insert ⟨key, hown.1⟩ ⟨val, hown.2⟩, rfl⟩
  | update key val => exact ⟨.update ⟨key, hown.1⟩ ⟨val, hown.2⟩, rfl⟩
  | replace key val => exact ⟨.replace ⟨key, hown.1⟩ ⟨val, hown.2⟩, rfl⟩
  | lookup key val valLen =>
    obtain ⟨reply, hreply⟩ := h.lookup_returns hown.1 hown.2
    obtain ⟨reply', hreply', -⟩ := h.lookup ⟨key, hown.1⟩ none
    refine ⟨.lookup ⟨key, hown.1⟩ none, ?_⟩
    rw [SameEffect, callExec, exec, hreply, hreply']
    rfl
  | remove key val valLen =>
    obtain ⟨hkey, hadmits⟩ := hown
    have hlen := not_not_intro hkey ∘ not_keyAsserts.mpr
    rw [RemoveAdmits] at hadmits
    refine ⟨.remove ⟨key, hkey⟩ none, ?_⟩
    have hexec : exec hash kvdb (.remove ⟨key, hkey⟩ none) =
        mutate hash none kvdb key none none .remove := by
      rw [exec, kvdbRemove, if_neg hlen, if_neg (not_not_intro (.inl rfl))]
      rfl
    have hcallExec : callExec hash kvdb (.remove key val valLen) =
        mutate hash none kvdb key val valLen .remove := by
      rw [callExec, kvdbRemove, if_neg hlen, if_neg (not_not_intro hadmits)]
    rw [SameEffect, hexec, hcallExec]
    cases hup : P4.indexUpdate hash kvdb.index key with
    | error stop => rw [mutate, mutate, hup]
    | ok res =>
      obtain ⟨index, ref⟩ := res
      have hval : (index.maps ref).off ≠ 0 → valLen.getD 0 ≠ 0 → val ≠ none := by
        rintro hoff hne rfl
        obtain ⟨off, hholds⟩ := kvdb.index.exists_holds (hashKey hash key)
        rw [h.off_eq hup hholds] at hoff
        exact hcall ⟨rfl, hne, off, hoff, hholds⟩
      obtain ⟨reply, hres⟩ := h.mutate_remove hkey hup hval
      have hnone : (index.maps ref).off ≠ 0 → (none : Option ℕ).getD 0 ≠ 0 →
          (none : Option (List UInt8)) ≠ none := fun _ hne => absurd rfl hne
      obtain ⟨reply', hres'⟩ := h.mutate_remove hkey hup hnone
      rw [hres, hres']
      rfl

/-! ## Runs -/

lemma callStep_eq_some : callStep hash kvdb call = some kvdb' ↔
    ∃ reply, callExec hash kvdb call = .ok (reply, kvdb') := by
  rw [callStep]
  cases callExec hash kvdb call with
  | error stop => simp
  | ok res => simp [eq_comm, Prod.ext_iff]

/-- The assertions of a call that returns hold. -/
lemma asserts_of_callStep (h : callStep hash kvdb call = some kvdb') : call.Asserts := by
  obtain ⟨reply, hres⟩ := callStep_eq_some.mp h
  by_contra hown
  rw [callExec_of_not_asserts hown] at hres
  exact absurd hres (by simp)

/-- No call shortens the log. -/
lemma logfs_callStep (h : callStep hash kvdb call = some kvdb') :
    kvdb.kvraw.logfs.length ≤ kvdb'.kvraw.logfs.length := by
  have hown := asserts_of_callStep h
  obtain ⟨reply, hres⟩ := callStep_eq_some.mp h
  have hput (op : Op) (heq : callExec hash kvdb call = execAt hash none kvdb op) :
      kvdb.kvraw.logfs.length ≤ kvdb'.kvraw.logfs.length :=
    logfs_execAt (heq ▸ hres)
  cases call with
  | insert key val => exact hput (.insert ⟨key, hown.1⟩ ⟨val, hown.2⟩) rfl
  | update key val => exact hput (.update ⟨key, hown.1⟩ ⟨val, hown.2⟩) rfl
  | replace key val => exact hput (.replace ⟨key, hown.1⟩ ⟨val, hown.2⟩) rfl
  | remove key val valLen =>
    rw [callExec, kvdbRemove] at hres
    split at hres
    · simp at hres
    · split at hres
      · simp at hres
      · exact logfs_mutate hres
  | lookup key val valLen =>
    rw [callExec] at hres
    cases hl : kvdbLookup hash kvdb key val valLen with
    | error stop => simp [hl, Except.map] at hres
    | ok reply' =>
      rw [hl] at hres
      obtain ⟨-, rfl⟩ := Prod.mk.inj (Except.ok.inj hres)
      exact le_rfl

variable (hash) in
/-- What holds in every reachable store: its log is a ledger, and its index is not too full. -/
structure Sound (kvdb : Kvdb) : Prop where
  ledger : ∃ rs, Ledger hash kvdb rs
  spacious : kvdb.index.Spacious

/-- **An operation** keeps the index from being too full, -/
lemma Inv.spacious_exec {op : Op} {reply : Reply} (h : Inv hash kvdb hist)
    (hspacious : kvdb.index.Spacious) (hres : exec hash kvdb op = .ok (reply, kvdb')) :
    kvdb'.index.Spacious := by
  rcases h.exec_cases hres with ⟨-, rfl, -⟩ | ⟨mode, k, val, index, ref, -, hup, hcase⟩
  · exact hspacious
  · have hspacious' := hspacious.indexUpdate k.2.1 hup
    rcases hcase with ⟨-, -, rfl⟩ | ⟨-, -, rfl⟩
    · rw [index_after, Kvdb.appended, index_before]
      exact hspacious'.setOff
    · exact hspacious'

/-- and so does every call. -/
lemma Sound.callStep (h : Sound hash kvdb) (hs : callStep hash kvdb call = some kvdb')
    (hlog : kvdb'.kvraw.logfs.length < 2 ^ 64) : Sound hash kvdb' := by
  obtain ⟨⟨rs, hledger⟩, hspacious⟩ := h
  have hown := asserts_of_callStep hs
  obtain ⟨reply, hres⟩ := callStep_eq_some.mp hs
  have hcall : ¬ call.Unbuffered hash kvdb := by
    intro hcall
    rw [hledger.inv.exec_unbuffered hspacious hown hcall] at hres
    exact absurd hres (by simp)
  obtain ⟨op, hsame⟩ := hledger.inv.call_cases hown hcall
  rw [SameEffect, hres] at hsame
  cases hexec : exec hash kvdb op with
  | error stop => simp [hexec, Except.map] at hsame
  | ok res =>
    obtain ⟨reply', kvdb''⟩ := res
    rw [hexec] at hsame
    obtain rfl : kvdb' = kvdb'' := Except.ok.inj hsame
    exact ⟨hledger.exec hexec hlog, hledger.inv.spacious_exec hspacious hexec⟩

/-- Every reachable store is sound. -/
lemma sound_run (off : UInt64) {calls : List Call}
    (hrun : run (callStep hash) (kvdbOpen off.toNat) calls = some kvdb)
    (hlog : kvdb.kvraw.logfs.length < 2 ^ 64) : Sound hash kvdb := by
  refine invariant_run (I := fun kvdb => kvdb.kvraw.logfs.length < 2 ^ 64 → Sound hash kvdb) ?_ ?_
    hrun hlog
  · intro s call s' hs hstep hlt
    exact (hs ((logfs_callStep hstep).trans_lt hlt)).callStep hstep hlt
  · exact fun _ => ⟨⟨[], ledger_kvdbOpen off⟩, Index.spacious_indexOpen⟩

/-- **The assertions of the store suffice, but for removals without a buffer**: in every store that
calls lead to, a call whose own assertions hold violates none of those below if and only if it is
not a removal with a null pointer and a capacity other than zero, of a key for whose hash value the
index holds records. And `kvdb_remove` admits a buffer that `kvdb_lookup` admits if and only if it
is not a null pointer with a capacity of zero.

**Proof sketch.** `kvraw_lookup` is called for the records of the chain only, with the buffer of the
call. With a buffer, or from an empty chain, a call acts like an operation of `Op`, which ends in
`EXIT` if it does not return. -/
theorem inner_assertions_iff (hash : List UInt8 → UInt64) (off : UInt64) (calls : List Call)
    (kvdb : Kvdb) (hrun : run (callStep hash) (kvdbOpen off.toNat) calls = some kvdb)
    (hlog : kvdb.kvraw.logfs.length < 2 ^ 64) :
    (∀ call : Call, call.Asserts →
      (callExec hash kvdb call ≠ .error .assertion ↔ ¬ call.Unbuffered hash kvdb)) ∧
    ∀ val valLen, (LookupAdmits val valLen → RemoveAdmits val valLen) ↔
      ¬ (val = none ∧ valLen = some 0) := by
  obtain ⟨⟨rs, hledger⟩, hspacious⟩ := sound_run off hrun hlog
  constructor
  · intro call hown
    constructor
    · intro hne hcall
      exact hne (hledger.inv.exec_unbuffered hspacious hown hcall)
    · intro hcall hfails
      obtain ⟨op, hsame⟩ := hledger.inv.call_cases hown hcall
      rw [SameEffect, hfails] at hsame
      cases hexec : exec hash kvdb op with
      | error stop =>
        rw [hexec] at hsame
        obtain rfl : Stop.assertion = stop := Except.error.inj hsame
        exact absurd (hledger.inv.exec_error hexec) (by decide)
      | ok res => simp [hexec, Except.map] at hsame
  · intro val valLen
    cases val <;> cases valLen <;> simp [LookupAdmits, RemoveAdmits]

/-- A store with one key. -/
theorem inner_assertions_iff_one : ∃ kvdb,
    run (callStep numberHash) (kvdbOpen (UInt64.toNat 5)) [.insert [1] [2]] = some kvdb ∧
      callExec numberHash kvdb (.remove [1] none none) ≠ .error .assertion := by
  have hrun : (run (callStep numberHash) (kvdbOpen (UInt64.toNat 5)) [.insert [1] [2]]).map
      (fun kvdb => kvdb.kvraw.logfs.length) = some 36 := by decide +kernel
  obtain ⟨kvdb, hkvdb, hlen⟩ := Option.map_eq_some_iff.mp hrun
  refine ⟨kvdb, hkvdb, ?_⟩
  have hiff := (inner_assertions_iff numberHash 5 _ kvdb hkvdb (by omega)).1 (.remove [1] none none)
    ⟨⟨by decide, by decide⟩, .inl rfl⟩
  exact hiff.mpr fun hcall => hcall.2.1 rfl

/-- Removing a stored key with a null pointer and the capacity `1` violates the assertion of
`kvraw_lookup`, and `kvdb_remove` rejects a null pointer with the capacity `0`. -/
theorem unbuffered_assertion_fails :
    (¬ ∀ (hash : List UInt8 → UInt64) (off : UInt64) (calls : List Call) (kvdb : Kvdb),
      run (callStep hash) (kvdbOpen off.toNat) calls = some kvdb →
      kvdb.kvraw.logfs.length < 2 ^ 64 → ∀ call : Call, call.Asserts →
        callExec hash kvdb call ≠ .error .assertion) ∧
    ¬ ∀ val valLen, LookupAdmits val valLen → RemoveAdmits val valLen := by
  constructor
  · intro h
    have hrun : (run (callStep numberHash) (kvdbOpen (UInt64.toNat 5)) [.insert [1] [2]]).map
        (fun kvdb => (kvdb.kvraw.logfs.length,
          (callExec numberHash kvdb (.remove [1] none (some 1))).map fun _ => ())) =
        some (36, .error .assertion) := by
      decide +kernel
    obtain ⟨kvdb, hkvdb, heq⟩ := Option.map_eq_some_iff.mp hrun
    obtain ⟨hlen, hfails⟩ := Prod.mk.inj heq
    apply h numberHash 5 _ kvdb hkvdb (by omega) (.remove [1] none (some 1))
    · exact ⟨⟨by decide, by decide⟩, .inr (.inl (by decide))⟩
    · cases hres : callExec numberHash kvdb (.remove [1] none (some 1)) with
      | error stop =>
        rw [hres] at hfails
        exact congrArg Except.error (Except.error.inj hfails)
      | ok res => simp [hres, Except.map] at hfails
  · intro h
    rcases h none (some 0) (.inr (.inl rfl)) with hnone | hlen | hval
    · exact absurd hnone (by simp)
    · exact hlen rfl
    · exact hval rfl

end Cs238p.P4
