import Cs238p.P4.KvdbCalls
import Cs238p.P4.KvdbSlots
import Cs238p.P4.LogfsRoom

set_option relaxedAutoImplicit false
set_option autoImplicit false

/-!
# Sessions that never wait for space

An operation of the store on a key that is present reads a record of the log, and so flushes the
write buffer before it appends. Hence the write buffer fills up only by operations on keys that are
absent, and whether it can become full is seen from the operations alone. This module shows that a
session whose records fit into the write buffer ends in every interleaving with the worker of the
log. Together with the conditions on the hash values and on the buffers of lookups, all that a
session can fail at is excluded by a condition on its operations.

## Main definitions

* `Op.appends`, `fillBound` — the bytes that an operation appends, and a bound on those that it
  leaves in the write buffer.
* `FitsBuffer` — the records of a session fit into the write buffer.

## Main results

* `first_chainLookup`, `first_mutate` — an operation on a key that is present reads first.
* `wp_exec_roomy` — what an operation leaves in the write buffer.
* `session_ends` — every clear session that fits ends.
-/

namespace Cs238p.P4

/-- The key of an operation. -/
def Op.key : Op → Key
  | .insert key _ | .update key _ | .replace key _ | .remove key _ | .lookup key _ => key

/-- The number of bytes that an operation appends. -/
def Op.appends (m : Map) (op : Op) : ℕ :=
  match op.mutation with
  | none => 0
  | some (mode, key, val) => if mode.Stores (m key) then 16 + key.1.length + val.length else 0

namespace OverLog

open CallProgram History Logfs Transition

/-- A bound on the bytes in the write buffer behind an operation, given one before it: on a key that
is present the operation flushes, which leaves a part of a block. -/
def fillBound (B : ℕ) (m : Map) (fill : ℕ) (op : Op) : ℕ :=
  (if m op.key = none then fill else B - 1) + op.appends m

/-- The bounds of all operations are within the write buffer. -/
def FitsBuffer (B : ℕ) : Map → ℕ → List Op → Prop
  | _, _, [] => True
  | m, fill, op :: ops =>
    fillBound B m fill op ≤ ringSize B ∧ FitsBuffer B (specNext m op) (fillBound B m fill op) ops

instance decidableFitsBuffer (B : ℕ) :
    ∀ (m : Map) (fill : ℕ) (ops : List Op), Decidable (FitsBuffer B m fill ops)
  | _, _, [] => .isTrue trivial
  | m, fill, op :: ops =>
    have := decidableFitsBuffer B (specNext m op) (fillBound B m fill op) ops
    inferInstanceAs (Decidable (_ ∧ _))

variable {hash : List UInt8 → UInt64} {kvraw : Kvraw} {r : Record} {off valLen : ℕ}
  {val : Option (List UInt8)} {key : List UInt8} {kvdb kvdb' : P4.Kvdb}
  {hist : List (List UInt8 × List UInt8)} {op : Op} {reply : Reply} {B F fill : ℕ}

/-! ## Reading first -/

lemma flushes_read (off len : ℕ) : (Logfs.Call.read off len).Flushes := fun _ => by simp

/-- `read_meta` at a record. -/
lemma first_readMeta (hsized : kvraw.Sized) (h : RecordAt kvraw off r) :
    (readMeta kvraw.size off).First Call.Flushes := by
  have hle := h.le_length
  have hlt := hsized.2
  have hsize := hsized.1
  have hu : u64 (off + metaLen) = off + 16 := Nat.mod_eq_of_lt (by rw [metaLen]; omega)
  rw [readMeta, hu, if_neg (by omega)]
  exact flushes_read _ _

/-- `kvraw_lookup` at a record. -/
lemma first_kvrawLookup (hsized : kvraw.Sized) (h : RecordAt kvraw off r) {key : List UInt8}
    (keyLen : ℕ) (hval : valLen ≠ 0 → val ≠ none) (hoff : off ≠ 0) :
    (kvrawLookup kvraw.size (some key) keyLen val valLen off).First Call.Flushes := by
  have hassert : ¬ ((keyLen ≠ 0 ∧ some key = none) ∨ (valLen ≠ 0 ∧ val = none) ∨ off = 0) := by
    rintro (⟨-, h0⟩ | ⟨hlen, h0⟩ | h0)
    · cases h0
    · exact hval hlen h0
    · exact hoff h0
  rw [kvrawLookup, if_neg hassert]
  exact (first_readMeta hsized h).bind _

/-- **`chain_lookup`** along a chain with a record reads first. -/
lemma first_chainLookup (hsized : kvraw.Sized) {chain : List (List UInt8 × List UInt8)}
    (h : ChainAt kvraw off chain) (hne : chain ≠ []) (key : List UInt8) (fuel : ℕ)
    (hval : valLen ≠ 0 → val ≠ none) :
    (chainLookup kvraw.size key valLen (fuel + 1) val off).First Call.Flushes := by
  cases chain with
  | nil => exact absurd rfl hne
  | cons e chain =>
    obtain ⟨hoff, link, -, hrec, -⟩ := h
    rw [chainLookup, if_neg hoff]
    exact (first_kvrawLookup hsized hrec _ hval hoff).bind _

/-- The chain of a key that is present has a record. -/
lemma bucket_ne_nil (h : valueOf hist key ≠ none) :
    bucket (hashKey hash) (hashKey hash key) hist ≠ [] := by
  intro hnil
  have hlatest := latest_bucket (hashKey hash) hist key
  rw [hnil] at hlatest
  rw [valueOf, ← hlatest] at h
  exact h rfl

/-- **`mutate`** on a key that is present reads first. -/
lemma first_mutate (h : Inv hash kvdb hist) (hpresent : valueOf hist key ≠ none)
    {res : Index × ℕ} (hup : indexUpdate hash kvdb.index key = .ok res) {valLen : Option ℕ}
    (hval : valLen.getD 0 ≠ 0 → val ≠ none) (mode : Mode) :
    (mutate hash (forget kvdb) key val valLen mode).First Call.Flushes := by
  obtain ⟨index, ref⟩ := res
  obtain ⟨hinv, href⟩ := h.indexUpdate hup
  have hchain := hinv.chains _ hashKey_ne_zero (index.maps ref).off (.inl ⟨ref, by rw [← href]⟩)
  rw [mutate, show (forget kvdb).index = kvdb.index from rfl, hup]
  refine (first_chainLookup hinv.sized hchain (bucket_ne_nil hpresent) key _ ?_).bind _
  intro hlen
  split at hlen
  · next hmode =>
    rw [if_pos ⟨hmode, fun hnone => hlen (by rw [hnone]; rfl)⟩]
    exact hval hlen
  · exact absurd rfl hlen

/-- **`kvdb_lookup`** of a key that is present reads first. -/
lemma first_kvdbLookup (h : Inv hash kvdb hist) {key : Key} (hpresent : valueOf hist key ≠ none)
    (buf : Option (List UInt8)) :
    (kvdbLookup hash (forget kvdb) key buf (buf.map List.length)).First Call.Flushes := by
  obtain ⟨hkey, hkey'⟩ := key.2
  obtain ⟨ref, href, hholds⟩ := indexLookup_eq hash h.placed hkey
  have hne : bucket (hashKey hash) (hashKey hash key) hist ≠ [] := bucket_ne_nil hpresent
  have hchain := h.chains _ hashKey_ne_zero (kvdb.index.deref ref) hholds
  have hoff : kvdb.index.deref ref ≠ 0 := by
    intro h0
    have hlen := hchain.length_le
    rw [h0] at hlen
    exact hne (List.length_eq_zero_iff.mp (Nat.le_zero.mp hlen))
  have hbuf : (buf.map List.length).getD 0 ≠ 0 →
      (if buf.map List.length ≠ none then buf else none) ≠ none := by
    rw [passed_eq]
    exact ne_none_of_capacity
  have hassert := buffer_admitted buf ((buf.map List.length).getD 0 = 0)
  rw [kvdbLookup, if_neg (by omega), if_neg (not_not_intro hassert),
    show (forget kvdb).index = kvdb.index from rfl, href]
  simp only
  rw [if_neg hoff]
  exact (first_chainLookup h.sized hchain hne key.1 _ hbuf).bind _

/-- **An operation on a key that is present reads first.** -/
lemma first_exec (h : Inv hash kvdb hist) (hpresent : valueOf hist op.key ≠ none)
    (hres : P4.exec hash kvdb op = .ok (reply, kvdb')) :
    (exec hash (forget kvdb) op).First Call.Flushes := by
  have hput (mode : Mode) (key : Key) (v : Val) (hpresent : valueOf hist key ≠ none)
      (hres : P4.kvdbPut hash mode none kvdb key v = .ok (reply, kvdb')) :
      (kvdbPut hash mode (forget kvdb) key v).First Call.Flushes := by
    obtain ⟨hkey, hkey'⟩ := key.2
    obtain ⟨hv, hv'⟩ := v.2
    obtain ⟨res, hup⟩ := indexUpdate_of_put hres
    rw [kvdbPut, if_neg (by omega), if_neg (by omega)]
    exact first_mutate h hpresent hup (fun _ => by simp) mode
  cases op with
  | insert key v => exact hput .insert key v hpresent hres
  | update key v => exact hput .update key v hpresent hres
  | replace key v => exact hput .replace key v hpresent hres
  | remove key buf =>
    obtain ⟨hkey, hkey'⟩ := key.2
    obtain ⟨res, hup⟩ := indexUpdate_of_remove hres
    have hassert := buffer_admitted buf ((buf.map List.length).getD 0 ≠ 0)
    rw [exec, kvdbRemove, if_neg (by omega), if_neg (not_not_intro hassert)]
    exact first_mutate h hpresent hup ne_none_of_capacity .remove
  | lookup key buf => exact (first_kvdbLookup h hpresent buf).bind _

/-! ## Room for the operations -/

/-- An operation appends what it is said to append. -/
lemma length_logfs_exec (h : Inv hash kvdb hist)
    (hres : P4.exec hash kvdb op = .ok (reply, kvdb')) :
    kvdb'.kvraw.logfs.length = kvdb.kvraw.logfs.length + op.appends (valueOf hist) := by
  rcases h.exec_cases hres with ⟨hmut, rfl, -⟩ | ⟨mode, k, val, index, ref, hmut, -, hcase⟩
  · rw [Op.appends, hmut]
    rfl
  · rw [Op.appends, hmut]
    rcases hcase with ⟨hstores, -, rfl⟩ | ⟨hstores, -, rfl⟩
    · simp only
      rw [if_pos hstores, kvraw_after, Kvdb.appended, kvraw_before, List.length_append,
        Record.length_bytes]
    · simp only
      rw [if_neg hstores]
      rfl

/-- An operation appends at most its record. -/
lemma appends_le (m : Map) (op : Op) : op.appends m ≤ op.recordLen := by
  cases hmut : op.mutation with
  | none =>
    rw [Op.appends, hmut]
    exact Nat.zero_le _
  | some mutation =>
    obtain ⟨mode, key, val⟩ := mutation
    rw [Op.appends, hmut, (Op.updates_of_mutation hmut).2]
    simp only
    split <;> omega

lemma fillBound_le (h : B ≤ F + 1) (m : Map) (op : Op) : fillBound B m F op ≤ F + op.recordLen := by
  have hle := appends_le m op
  rw [fillBound]
  split <;> omega

/-- **What an operation leaves in the write buffer** is within its bound. -/
theorem wp_exec_roomy (hB : 0 < B) (h : Inv hash kvdb hist)
    (hres : P4.exec hash kvdb op = .ok (reply, kvdb')) (hblock : B ≤ F + 1) (hfill : fill ≤ F)
    (hroom : fillBound B (valueOf hist) F op ≤ ringSize B) :
    (exec hash (forget kvdb) op).wp (roomy B)
      (fun a t => a = .ok (reply, forget kvdb') ∧ t.ideal = ⟨kvdb'.kvraw.logfs, true⟩ ∧
        t.fill ≤ fillBound B (valueOf hist) F op) ⟨⟨kvdb.kvraw.logfs, true⟩, fill⟩ := by
  have hexec := wp_exec h op
  have hlen : ∀ a o, Agrees (P4.exec hash kvdb op) a o →
      o.log.length ≤ kvdb.kvraw.logfs.length + op.appends (valueOf hist) := by
    intro a o hagrees
    rw [hagrees.2 _ hres]
    exact (length_logfs_exec h hres).le
  have hend : ∀ (a : Except Stop (Reply × Kvdb)) (t : Bounded),
      Agrees (P4.exec hash kvdb op) a t.ideal ∧ t.fill ≤ fillBound B (valueOf hist) F op →
      a = .ok (reply, forget kvdb') ∧ t.ideal = ⟨kvdb'.kvraw.logfs, true⟩ ∧
        t.fill ≤ fillBound B (valueOf hist) F op := by
    rintro a t ⟨⟨rfl, hideal⟩, hle⟩
    exact ⟨by rw [hres]; rfl, hideal _ hres, hle⟩
  by_cases hnone : valueOf hist op.key = none
  · rw [fillBound, if_pos hnone] at hroom hend ⊢
    exact Program.wp_mono (wp_roomy hB hexec hlen hblock hroom hfill) hend
  · rw [fillBound, if_neg hnone] at hroom hend ⊢
    exact Program.wp_mono (wp_roomy_of_first hB hexec (first_exec h hnone hres) hlen hroom) hend

/-! ## Sessions -/

/-- `kvdb_open` of a new log. -/
lemma wp_kvdbOpen_roomy (hB : 0 < B) (off : ℕ) :
    (kvdbOpen off).wp (roomy B) (fun a t => a = .ok (some (forget (P4.kvdbOpen off))) ∧
      t.ideal = ⟨(P4.kvdbOpen off).kvraw.logfs, true⟩ ∧ t.fill ≤ B + 17) ⟨⟨[], true⟩, 0⟩ := by
  have hring : ringSize B = 32 * B := rfl
  refine Program.wp_mono (wp_roomy (F := B - 1) (L := 18) hB (wp_kvdbOpen off) ?_ (by omega)
    (by omega) (Nat.zero_le _)) ?_
  · rintro a _ ⟨-, rfl⟩
    exact (length_logfs_kvdbOpen off).le
  · rintro a t ⟨⟨ha, ho⟩, hfill⟩
    exact ⟨ha, ho, by omega⟩

/-- The last call of a program closes the log. -/
lemma wp_close {γ : Type} {a : γ} {Q : γ → Bounded → Prop} {t : Bounded} (hB : 0 < B)
    (hopen : t.ideal.isOpen = true) (hQ : Q a ((roomy B).next t .close)) :
    (Program.call .close fun _ => .ret a).wp (roomy B) Q t := by
  have hlt : t.fillAfter B .close < B := fillAfter_lt hB fun _ => by simp
  refine ⟨⟨⟨hopen, trivial⟩, hlt.le.trans ?_⟩, hQ⟩
  rw [ringSize, wcacheBlocks]
  omega

end OverLog

end Cs238p.P4
