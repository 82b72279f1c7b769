import Mathlib.Data.Finset.Card
import Cs238p.P4.KvdbMap

set_option relaxedAutoImplicit false
set_option autoImplicit false

/-!
# The accounting of the key/value store

The store counts its keys and the values that are no longer current, beside a log from which both
numbers can be computed. The records of a log follow each other without gaps, so they are read from
its bytes; the first one is the dummy record of `kvraw_open`.

## Main definitions

* `recordsOf` — the records of a log.
* `liveKeys`, `valueRecords` — what the two counters count.
* `execStep` — an operation as a step of the store.
* `Ledger` — the log of the store, its counters and the records after the dummy agree.

## Main results

* `Ledger.exec` — one operation.
* `accounting_exact` — the counters after every run.
-/

namespace Cs238p.P4

open History LittleEndian Transition

/-! ## The records of a log -/

/-- Read records from the beginning of the bytes, as many as the fuel admits. -/
def scanRecords : ℕ → List UInt8 → List Record
  | 0, _ => []
  | fuel + 1, log =>
    if log = [] then []
    else
      let m := Meta.decode (log.take metaLen)
      ⟨m.off, (log.drop metaLen).take m.keyLen, (log.drop (metaLen + m.keyLen)).take m.valLen⟩ ::
        scanRecords fuel (log.drop (metaLen + m.keyLen + m.valLen))

/-- The records of a log. -/
def recordsOf (log : List UInt8) : List Record := scanRecords log.length log

/-- The assignments of the records, the newest first. -/
def historyOf (rs : List Record) : List (List UInt8 × List UInt8) :=
  rs.reverse.map fun r => (r.key, r.val)

/-- The keys whose newest record has a non-empty value. -/
def liveKeys (rs : List Record) : Finset (List UInt8) :=
  (rs.map Record.key).toFinset.filter fun key => valueOf (historyOf rs) key ≠ none

/-- The records with a non-empty value. -/
def valueRecords (rs : List Record) : List Record := rs.filter fun r => r.val ≠ []

variable {rs : List Record} {r : Record} {key : List UInt8}

/-- A record is read back from the bytes that begin with it. -/
lemma scanRecords_append (hr : r.Fits) (post : List UInt8) (fuel : ℕ) :
    scanRecords (fuel + 1) (r.bytes ++ post) = r :: scanRecords fuel post := by
  obtain ⟨hlink, hkey, hval⟩ := hr
  have hlen := r.length_bytes
  have hne : r.bytes ++ post ≠ [] := by
    intro h
    have h0 := congrArg List.length h
    rw [List.length_append, List.length_nil] at h0
    omega
  have htake : (r.bytes ++ post).take metaLen = r.header.encode := by
    rw [Record.bytes, List.append_assoc, List.take_append_of_le_length (by simp [metaLen]),
      List.take_of_length_le (by simp [metaLen])]
  have hdrop : (r.bytes ++ post).drop metaLen = r.key ++ (r.val ++ post) := by
    rw [Record.bytes, List.append_assoc, List.append_assoc, List.drop_left' (by simp [metaLen])]
  have hheader : Meta.decode r.header.encode = r.header := Meta.decode_encode hlink hkey hval
  rw [scanRecords, if_neg hne]
  simp only [htake, hheader, ← List.drop_drop, hdrop]
  simp only [Record.header, List.take_left, List.drop_left]

/-- **The records of a log are read back from its bytes.** -/
lemma scanRecords_flatMap {fuel : ℕ} (hfits : ∀ r ∈ rs, r.Fits) (hfuel : rs.length ≤ fuel) :
    scanRecords fuel (rs.flatMap Record.bytes) = rs := by
  induction rs generalizing fuel with
  | nil => cases fuel <;> rfl
  | cons r rs ih =>
    obtain ⟨fuel, rfl⟩ : ∃ n, fuel = n + 1 := ⟨fuel - 1, by rw [List.length_cons] at hfuel; omega⟩
    rw [List.flatMap_cons, scanRecords_append (hfits r List.mem_cons_self),
      ih (fun r hr => hfits r (List.mem_cons_of_mem _ hr)) (by simpa using hfuel)]

/-- A log is longer than the list of its records. -/
lemma length_le_flatMap (rs : List Record) :
    16 * rs.length ≤ (rs.flatMap Record.bytes).length := by
  induction rs with
  | nil => exact Nat.zero_le _
  | cons r rs ih =>
    rw [List.flatMap_cons, List.length_append, List.length_cons, r.length_bytes]
    omega

lemma recordsOf_flatMap (hfits : ∀ r ∈ rs, r.Fits) : recordsOf (rs.flatMap Record.bytes) = rs := by
  have hlen := length_le_flatMap rs
  exact scanRecords_flatMap hfits (by omega)

/-! ## Keys and values of the records -/

@[simp] lemma historyOf_concat (rs : List Record) (r : Record) :
    historyOf (rs ++ [r]) = (r.key, r.val) :: historyOf rs := by
  simp [historyOf]

/-- A key that has a value has a record. -/
lemma mem_keys_of_valueOf (h : valueOf (historyOf rs) key ≠ none) : key ∈ rs.map Record.key := by
  rw [valueOf, latest] at h
  cases hfind : (historyOf rs).find? fun e => e.1 = key with
  | none => simp [hfind] at h
  | some e =>
    have hkey : e.1 = key := by simpa using List.find?_some hfind
    obtain ⟨r, hr, rfl⟩ := List.mem_map.mp (List.mem_of_find?_eq_some hfind)
    exact List.mem_map.mpr ⟨r, List.mem_reverse.mp hr, hkey⟩

lemma mem_liveKeys : key ∈ liveKeys rs ↔ valueOf (historyOf rs) key ≠ none := by
  rw [liveKeys, Finset.mem_filter, List.mem_toFinset]
  exact and_iff_right_of_imp mem_keys_of_valueOf

/-- A record with a value adds its key. -/
lemma liveKeys_concat_of_ne (hr : r.val ≠ []) :
    liveKeys (rs ++ [r]) = insert r.key (liveKeys rs) := by
  ext key
  rw [mem_liveKeys, Finset.mem_insert, mem_liveKeys, historyOf_concat, valueOf_cons, if_neg hr]
  by_cases hkey : r.key = key
  · simp [hkey]
  · simp [hkey, Ne.symm hkey]

/-- A record without a value removes its key. -/
lemma liveKeys_concat_of_eq (hr : r.val = []) :
    liveKeys (rs ++ [r]) = (liveKeys rs).erase r.key := by
  ext key
  rw [mem_liveKeys, Finset.mem_erase, mem_liveKeys, historyOf_concat, valueOf_cons, if_pos hr]
  by_cases hkey : r.key = key
  · simp [hkey]
  · simp [hkey, Ne.symm hkey]

/-- The number of values after one more record. -/
lemma length_valueRecords_concat (rs : List Record) (r : Record) :
    (valueRecords (rs ++ [r])).length =
      (valueRecords rs).length + if r.val = [] then 0 else 1 := by
  rw [valueRecords, valueRecords, List.filter_append, List.length_append]
  by_cases hr : r.val = [] <;> simp [hr]

/-- The number of live keys after one more record: the record of an absent key adds it, and the
removal of a present key takes it away. -/
lemma card_liveKeys_concat (rs : List Record) (r : Record) :
    (liveKeys (rs ++ [r])).card =
      if valueOf (historyOf rs) r.key = none then
        if r.val = [] then (liveKeys rs).card else (liveKeys rs).card + 1
      else
        if r.val = [] then (liveKeys rs).card - 1 else (liveKeys rs).card := by
  have hmem : r.key ∈ liveKeys rs ↔ valueOf (historyOf rs) r.key ≠ none := mem_liveKeys
  by_cases hr : r.val = []
  · rw [liveKeys_concat_of_eq hr]
    simp only [hr, if_true]
    split
    · next habsent => rw [Finset.erase_eq_of_notMem (by rw [hmem]; exact not_not_intro habsent)]
    · next hpresent => rw [Finset.card_erase_of_mem (hmem.mpr hpresent)]
  · rw [liveKeys_concat_of_ne hr]
    simp only [hr, if_false]
    split
    · next habsent => rw [Finset.card_insert_of_notMem (by rw [hmem]; exact not_not_intro habsent)]
    · next hpresent => rw [Finset.insert_eq_self.mpr (hmem.mpr hpresent)]

/-- A key with a value counts. -/
lemma card_liveKeys_pos (h : valueOf (historyOf rs) key ≠ none) : 0 < (liveKeys rs).card :=
  Finset.card_pos.mpr ⟨key, mem_liveKeys.mpr h⟩

/-! ## The operations as steps -/

variable {hash : List UInt8 → UInt64} {kvdb kvdb' : Kvdb} {op : Op} {reply : Reply}

variable (hash) in
/-- The store after an operation, if the operation returns. -/
def execStep (kvdb : Kvdb) (op : Op) : Option Kvdb :=
  match exec hash kvdb op with
  | .error _ => none
  | .ok (_, kvdb) => some kvdb

lemma execStep_eq_some : execStep hash kvdb op = some kvdb' ↔
    ∃ reply, exec hash kvdb op = .ok (reply, kvdb') := by
  rw [execStep]
  cases exec hash kvdb op with
  | error stop => simp
  | ok res => simp [eq_comm, Prod.ext_iff]

variable (hash) in
/-- An operation, with the number of the append that fails if it appends a record. -/
def execAt (failAt : Option ℕ) (kvdb : Kvdb) : Op → Except Stop (Reply × Kvdb)
  | .insert key val => kvdbInsert hash failAt kvdb key val
  | .update key val => kvdbUpdate hash failAt kvdb key val
  | .replace key val => kvdbReplace hash failAt kvdb key val
  | .remove key buf => kvdbRemove hash failAt kvdb key buf (buf.map List.length)
  | .lookup key buf => (kvdbLookup hash kvdb key buf (buf.map List.length)).map fun r => (r, kvdb)

lemma execAt_none (kvdb : Kvdb) (op : Op) : execAt hash none kvdb op = exec hash kvdb op := by
  cases op <;> rfl

/-- `kvraw_append` does not shorten the log. -/
lemma logfs_kvrawAppend {failAt : Option ℕ} {kvraw kvraw' : Kvraw} {val : List UInt8} {off : ℕ}
    {res : Option ℕ} (h : kvrawAppend failAt kvraw key val off = .ok (kvraw', res)) :
    kvraw.logfs.length ≤ kvraw'.logfs.length := by
  rw [kvrawAppend] at h
  split at h
  · simp at h
  · simp only at h
    split at h <;> obtain ⟨rfl, -⟩ := Prod.mk.inj (Except.ok.inj h)
    · exact le_rfl
    all_goals
      simp only [List.length_append]
      omega

lemma logfs_mutateAppend {failAt : Option ℕ} {val : List UInt8} {ref : ℕ} {account : Kvdb → Kvdb}
    {reply' : Reply}
    (h : mutateAppend failAt kvdb key val ref account reply = .ok (reply', kvdb'))
    (hraw : ∀ d, (account d).kvraw = d.kvraw) :
    kvdb.kvraw.logfs.length ≤ kvdb'.kvraw.logfs.length := by
  rw [mutateAppend] at h
  split at h
  · simp at h
  · next happend =>
    obtain ⟨-, rfl⟩ := Prod.mk.inj (Except.ok.inj h)
    exact logfs_kvrawAppend happend
  · next happend =>
    obtain ⟨-, rfl⟩ := Prod.mk.inj (Except.ok.inj h)
    rw [hraw]
    exact logfs_kvrawAppend happend

/-- `mutate` does not shorten the log. -/
lemma logfs_mutate {failAt : Option ℕ} {val : Option (List UInt8)} {valLen : Option ℕ} {mode : Mode}
    (h : mutate hash failAt kvdb key val valLen mode = .ok (reply, kvdb')) :
    kvdb.kvraw.logfs.length ≤ kvdb'.kvraw.logfs.length := by
  have hkeep {d : Kvdb} {reply' : Reply}
      (h : Except.ok (reply', d) = (.ok (reply, kvdb') : Except Stop (Reply × Kvdb)))
      (hraw : d.kvraw = kvdb.kvraw) : kvdb.kvraw.logfs.length ≤ kvdb'.kvraw.logfs.length := by
    obtain ⟨-, rfl⟩ := Prod.mk.inj (Except.ok.inj h)
    rw [hraw]
  rw [mutate] at h
  split at h
  · simp at h
  · simp only at h
    split at h
    · simp at h
    · exact hkeep h rfl
    · split at h
      · split at h
        · exact hkeep h rfl
        · rw [← after_remove] at h
          have hle := logfs_mutateAppend h (kvraw_after _)
          exact hle
      · split at h
        · exact hkeep h rfl
        · have hle := logfs_mutateAppend h fun _ => rfl
          exact hle
      · have hle := logfs_mutateAppend h fun _ => rfl
        refine (le_of_eq ?_).trans hle
        split <;> rfl
      · split at h
        · exact hkeep h rfl
        · have hle := logfs_mutateAppend h fun _ => rfl
          exact hle

/-- No operation shortens the log. -/
lemma logfs_execAt {failAt : Option ℕ} (h : execAt hash failAt kvdb op = .ok (reply, kvdb')) :
    kvdb.kvraw.logfs.length ≤ kvdb'.kvraw.logfs.length := by
  have hput {mode : Mode} {k v : List UInt8}
      (h : kvdbPut hash mode failAt kvdb k v = .ok (reply, kvdb')) :
      kvdb.kvraw.logfs.length ≤ kvdb'.kvraw.logfs.length := by
    rw [kvdbPut] at h
    split at h
    · simp at h
    · split at h
      · simp at h
      · exact logfs_mutate h
  cases op with
  | insert key v => exact hput h
  | update key v => exact hput h
  | replace key v => exact hput h
  | remove key buf =>
    rw [execAt, kvdbRemove] at h
    split at h
    · simp at h
    · split at h
      · simp at h
      · exact logfs_mutate h
  | lookup key buf =>
    rw [execAt] at h
    cases hres : kvdbLookup hash kvdb key buf (buf.map List.length) with
    | error stop => simp [hres, Except.map] at h
    | ok reply' =>
      rw [hres] at h
      obtain ⟨-, rfl⟩ := Prod.mk.inj (Except.ok.inj h)
      exact le_rfl

/-! ## What an operation does -/

/-- The mode of an operation that mutates the store, with its key and the value of its record. -/
def Op.mutation : Op → Option (Mode × Key × List UInt8)
  | .insert key val => some (.insert, key, val)
  | .update key val => some (.update, key, val)
  | .replace key val => some (.replace, key, val)
  | .remove key _ => some (.remove, key, [])
  | .lookup _ _ => none

/-- No run shortens the log. -/
lemma logfs_run {ops : List Op} (h : run (execStep hash) kvdb ops = some kvdb') :
    kvdb.kvraw.logfs.length ≤ kvdb'.kvraw.logfs.length := by
  refine invariant_run (I := fun s => kvdb.kvraw.logfs.length ≤ s.kvraw.logfs.length) ?_ le_rfl h
  intro s op s' hs hstep
  obtain ⟨reply, hres⟩ := execStep_eq_some.mp hstep
  exact hs.trans (logfs_execAt ((execAt_none s op).trans hres))

variable {hist : List (List UInt8 × List UInt8)} {mode : Mode} {k : Key} {val : List UInt8}
  {index : Index} {ref : ℕ}

/-- The lengths of the key and of the value of a record fit into its header. -/
lemma Op.mutation_fits (h : op.mutation = some (mode, k, val)) :
    val.length ≤ kvdbMaxValLen ∧ (val = [] ↔ mode = .remove) := by
  cases op with
  | lookup key buf => simp [Op.mutation] at h
  | remove key buf =>
    obtain ⟨rfl, -, rfl⟩ := by simpa [Op.mutation] using h
    exact ⟨Nat.zero_le _, by simp⟩
  | insert key v =>
    obtain ⟨rfl, -, rfl⟩ := by simpa [Op.mutation] using h
    exact ⟨v.2.2, by simp [Val.ne_nil v]⟩
  | update key v =>
    obtain ⟨rfl, -, rfl⟩ := by simpa [Op.mutation] using h
    exact ⟨v.2.2, by simp [Val.ne_nil v]⟩
  | replace key v =>
    obtain ⟨rfl, -, rfl⟩ := by simpa [Op.mutation] using h
    exact ⟨v.2.2, by simp [Val.ne_nil v]⟩

/-- **What a mutation does** once `index_update` has found a slot, whichever append fails. -/
theorem Inv.execAt_eq (h : Inv hash kvdb hist) (hop : op.mutation = some (mode, k, val))
    (hup : P4.indexUpdate hash kvdb.index k = .ok (index, ref)) :
    ∃ stored kept : Reply, stored.code = 0 ∧ kept.code = 1 ∧ ∀ failAt,
      execAt hash failAt kvdb op =
        if mode.Stores (valueOf hist k) then
          P4.mutateAppend failAt (mode.before (valueOf hist k) { kvdb with index := index }) k val
            ref mode.after stored
        else .ok (kept, { kvdb with index := index }) := by
  cases op with
  | lookup key buf => simp [Op.mutation] at hop
  | remove key buf =>
    obtain ⟨rfl, rfl, rfl⟩ := by simpa [Op.mutation] using hop
    obtain ⟨reply, -, hres⟩ := h.remove_eq key buf hup
    exact ⟨_, _, rfl, rfl, hres⟩
  | insert key v =>
    obtain ⟨rfl, rfl, rfl⟩ := by simpa [Op.mutation] using hop
    exact ⟨_, _, rfl, rfl, h.put_eq .insert (by decide) key v hup⟩
  | update key v =>
    obtain ⟨rfl, rfl, rfl⟩ := by simpa [Op.mutation] using hop
    exact ⟨_, _, rfl, rfl, h.put_eq .update (by decide) key v hup⟩
  | replace key v =>
    obtain ⟨rfl, rfl, rfl⟩ := by simpa [Op.mutation] using hop
    exact ⟨_, _, rfl, rfl, h.put_eq .replace (by decide) key v hup⟩

/-- A mutation that returns has found a slot. -/
lemma indexUpdate_of_execAt {failAt : Option ℕ} (hop : op.mutation = some (mode, k, val))
    (h : execAt hash failAt kvdb op = .ok (reply, kvdb')) :
    ∃ res, P4.indexUpdate hash kvdb.index k = .ok res := by
  cases op with
  | lookup key buf => simp [Op.mutation] at hop
  | remove key buf =>
    obtain ⟨-, rfl, -⟩ := by simpa [Op.mutation] using hop
    exact indexUpdate_of_remove h
  | insert key v =>
    obtain ⟨-, rfl, -⟩ := by simpa [Op.mutation] using hop
    exact indexUpdate_of_put h
  | update key v =>
    obtain ⟨-, rfl, -⟩ := by simpa [Op.mutation] using hop
    exact indexUpdate_of_put h
  | replace key v =>
    obtain ⟨-, rfl, -⟩ := by simpa [Op.mutation] using hop
    exact indexUpdate_of_put h

/-- **The outcomes of an operation that returns**: a lookup changes nothing, a mutation appends its
record or is refused. -/
theorem Inv.exec_cases (h : Inv hash kvdb hist) (hres : exec hash kvdb op = .ok (reply, kvdb')) :
    (op.mutation = none ∧ kvdb' = kvdb ∧ reply.code ≠ -1) ∨
      ∃ mode k val index ref, op.mutation = some (mode, k, val) ∧
        P4.indexUpdate hash kvdb.index k = .ok (index, ref) ∧
        (mode.Stores (valueOf hist k) ∧ reply.code = 0 ∧ kvdb' =
            mode.after ((mode.before (valueOf hist k) { kvdb with index := index }).appended k val
              ref) ∨
          ¬ mode.Stores (valueOf hist k) ∧ reply.code = 1 ∧
            kvdb' = { kvdb with index := index }) := by
  cases hop : op.mutation with
  | none =>
    cases op with
    | lookup key buf =>
      obtain ⟨reply', hreply, hcase⟩ := h.lookup key buf
      rw [exec, hreply] at hres
      obtain ⟨rfl, rfl⟩ := Prod.mk.inj (Except.ok.inj hres)
      refine .inl ⟨rfl, rfl, ?_⟩
      rcases hcase with ⟨v, -, hcode, -⟩ | ⟨-, hcode⟩ <;> rw [hcode] <;> decide
    | _ => simp [Op.mutation] at hop
  | some m =>
    obtain ⟨mode, k, val⟩ := m
    rw [← execAt_none] at hres
    obtain ⟨⟨index, ref⟩, hup⟩ := indexUpdate_of_execAt hop hres
    obtain ⟨stored, kept, hstored, hkept, heq⟩ := h.execAt_eq hop hup
    refine .inr ⟨mode, k, val, index, ref, rfl, hup, ?_⟩
    rw [heq] at hres
    by_cases hstores : mode.Stores (valueOf hist k)
    · rw [if_pos hstores, mutateAppend_eq _ ref mode.after stored k.2.1 k.2.2
        (Op.mutation_fits hop).1] at hres
      obtain ⟨rfl, rfl⟩ := Prod.mk.inj (Except.ok.inj hres)
      exact .inl ⟨hstores, hstored, rfl⟩
    · rw [if_neg hstores] at hres
      obtain ⟨rfl, rfl⟩ := Prod.mk.inj (Except.ok.inj hres)
      exact .inr ⟨hstores, hkept, rfl⟩

/-! ## The ledger -/

variable (hash) in
/-- The log of the store has the records `rs` behind the dummy record, and the counters are right
for them. -/
structure Ledger (kvdb : Kvdb) (rs : List Record) : Prop where
  inv : Inv hash kvdb (historyOf rs)
  log : ∃ dummy : Record, (∀ r ∈ dummy :: rs, r.Fits) ∧
    kvdb.kvraw.logfs = (dummy :: rs).flatMap Record.bytes
  size : kvdb.size = (liveKeys rs).card
  waste : kvdb.size + kvdb.waste = (valueRecords rs).length

/-- The records behind the dummy are those of the ledger. -/
lemma Ledger.recordsOf (h : Ledger hash kvdb rs) : (recordsOf kvdb.kvraw.logfs).tail = rs := by
  obtain ⟨dummy, hfits, hlog⟩ := h.log
  rw [hlog, recordsOf_flatMap hfits, List.tail_cons]

/-- The counters are far from overflowing. -/
lemma Ledger.length_lt (h : Ledger hash kvdb rs) : (valueRecords rs).length + 1 < 2 ^ 64 := by
  obtain ⟨dummy, -, hlog⟩ := h.log
  have hlen := length_le_flatMap (dummy :: rs)
  have hlt := h.inv.sized.2
  have hle : (valueRecords rs).length ≤ rs.length := List.length_filter_le _ _
  rw [hlog] at hlt
  rw [List.length_cons] at hlen
  omega

/-- The ledger of the empty store. -/
lemma ledger_kvdbOpen (off : UInt64) : Ledger hash (kvdbOpen off.toNat) [] := by
  have hopen : kvrawOpen off.toNat = ⟨18, (Record.mk off.toNat [0] [0]).bytes⟩ := by
    rw [kvrawOpen, kvrawAppend_eq _ _ (by decide) (by decide) (by decide)]
    rfl
  refine ⟨inv_kvdbOpen off.toNat, ⟨⟨off.toNat, [0], [0]⟩, ?_, ?_⟩, rfl, rfl⟩
  · rw [List.forall_mem_singleton]
    refine ⟨off.toNat_lt, ?_, ?_⟩
    all_goals
      simp only [List.length_singleton]
      omega
  · rw [kvdbOpen, hopen, List.flatMap_singleton]

/-- The counters after a mutation that appends its record. -/
lemma counters_appended (kvdb : Kvdb) (key val : List UInt8) (ref : ℕ) {mode : Mode}
    {old : Option (List UInt8)} (hstores : mode.Stores old) :
    (mode.after ((mode.before old kvdb).appended key val ref)).size =
        (if mode = .remove then u64 (kvdb.size + 2 ^ 64 - 1)
          else if old = none then u64 (kvdb.size + 1) else kvdb.size) ∧
      (mode.after ((mode.before old kvdb).appended key val ref)).waste =
        if old = none then kvdb.waste else u64 (kvdb.waste + 1) := by
  obtain ⟨size, waste, kvraw, index⟩ := kvdb
  cases mode with
  | insert =>
    obtain rfl : old = none := hstores
    exact ⟨rfl, rfl⟩
  | update => by_cases hold : old = none <;> simp [Mode.after, Mode.before, Kvdb.appended, hold]
  | replace =>
    have hold : old ≠ none := hstores
    simp [Mode.after, Mode.before, Kvdb.appended, hold]
  | remove =>
    have hold : old ≠ none := hstores
    simp only [hold, if_true, if_false]
    exact ⟨rfl, rfl⟩

/-- The record of a mutation fits into its header. -/
lemma Ledger.fits_record (h : Ledger hash kvdb rs) (hop : op.mutation = some (mode, k, val))
    (href : (kvdb.index.maps ref).key = hashKey hash k) :
    (Record.mk (kvdb.index.maps ref).off k val).Fits := by
  have hval := (Op.mutation_fits hop).1
  have hk := k.2.2
  have hholds : kvdb.index.Holds (hashKey hash k) (kvdb.index.maps ref).off :=
    .inl ⟨ref, by rw [← href]⟩
  have hchain := h.inv.chains _ hashKey_ne_zero _ hholds
  have hne := h.inv.nonempty
  have hsize := h.inv.sized.1
  have hlog := h.inv.sized.2
  have hlt := hchain.lt_length (by omega)
  simp only [kvdbMaxKeyLen] at hk
  rw [kvdbMaxValLen] at hval
  refine ⟨hlt.trans hlog, ?_, ?_⟩
  · dsimp only
    omega
  · dsimp only
    omega

/-- **A mutation that appends its record keeps the ledger.** -/
lemma Ledger.appended (h : Ledger hash kvdb rs) (hop : op.mutation = some (mode, k, val))
    (hstores : mode.Stores (valueOf (historyOf rs) k))
    (href : (kvdb.index.maps ref).key = hashKey hash k)
    (hfits : kvdb.kvraw.logfs.length + (16 + k.1.length + val.length) < 2 ^ 64) :
    Ledger hash (mode.after ((mode.before (valueOf (historyOf rs) k) kvdb).appended k val ref))
      (rs ++ [⟨(kvdb.index.maps ref).off, k, val⟩]) := by
  obtain ⟨hval, hnil⟩ := Op.mutation_fits hop
  have hlt := h.length_lt
  have hsize := h.size
  have hwaste := h.waste
  have hbefore := h.inv.congr (kvraw_before mode (valueOf (historyOf rs) k) kvdb)
    (index_before mode _ kvdb)
  have hafter := (hbefore.appended val (by rwa [index_before]) k.2.2 hval
    (by rwa [kvraw_before])).congr (kvraw_after mode _) (index_after mode _)
  obtain ⟨hsize', hwaste'⟩ := counters_appended kvdb k.1 val ref hstores
  refine ⟨by rwa [historyOf_concat], ?_, ?_, ?_⟩
  · obtain ⟨dummy, hrs, hlog⟩ := h.log
    refine ⟨dummy, fun r hr => ?_, ?_⟩
    · rw [← List.cons_append, List.mem_append, List.mem_singleton] at hr
      rcases hr with hr | rfl
      · exact hrs r hr
      · exact h.fits_record hop href
    · rw [kvraw_after, Kvdb.appended, kvraw_before, index_before, ← List.cons_append,
        List.flatMap_append, List.flatMap_singleton, hlog]
  · rw [hsize', card_liveKeys_concat]
    by_cases hremove : mode = .remove
    · subst hremove
      have hpos := card_liveKeys_pos hstores
      simp only [hnil.mpr rfl, if_true, if_neg hstores, u64]
      omega
    · have hne : val ≠ [] := fun h => hremove (hnil.mp h)
      simp only [hremove, hne, if_false, u64]
      split <;> omega
  · rw [hsize', hwaste', length_valueRecords_concat]
    by_cases hremove : mode = .remove
    · subst hremove
      have hpos := card_liveKeys_pos hstores
      simp only [hnil.mpr rfl, if_true, if_neg hstores, u64]
      omega
    · have hne : val ≠ [] := fun h => hremove (hnil.mp h)
      simp only [hremove, hne, if_false, u64]
      split <;> omega

/-- `index_update` keeps the ledger. -/
lemma Ledger.indexUpdate (h : Ledger hash kvdb rs)
    (hup : P4.indexUpdate hash kvdb.index key = .ok (index, ref)) :
    Ledger hash { kvdb with index := index } rs ∧ (index.maps ref).key = hashKey hash key := by
  obtain ⟨hinv, href⟩ := h.inv.indexUpdate hup
  exact ⟨⟨hinv, h.log, h.size, h.waste⟩, href⟩

/-- **One operation** keeps a ledger, as long as the log does not overflow. -/
theorem Ledger.exec (h : Ledger hash kvdb rs) (hres : P4.exec hash kvdb op = .ok (reply, kvdb'))
    (hlog : kvdb'.kvraw.logfs.length < 2 ^ 64) : ∃ rs', Ledger hash kvdb' rs' := by
  rcases h.inv.exec_cases hres with ⟨-, rfl, -⟩ | ⟨mode, k, val, index, ref, hop, hup, hcase⟩
  · exact ⟨rs, h⟩
  · obtain ⟨hledger, href⟩ := h.indexUpdate hup
    rcases hcase with ⟨hstores, -, rfl⟩ | ⟨-, -, rfl⟩
    · have hlen : (mode.after ((mode.before (valueOf (historyOf rs) k)
          { kvdb with index := index }).appended k val ref)).kvraw.logfs.length =
          kvdb.kvraw.logfs.length + (16 + k.1.length + val.length) := by
        rw [kvraw_after, Kvdb.appended, kvraw_before, List.length_append, Record.length_bytes]
      rw [hlen] at hlog
      exact ⟨_, hledger.appended hop hstores href hlog⟩
    · exact ⟨rs, hledger⟩

/-- **Every run** whose log does not overflow keeps a ledger.

**Proof sketch.** The log never becomes shorter, so it was short enough at every step. -/
theorem Ledger.run {ops : List Op} (h : Ledger hash kvdb rs)
    (hrun : Transition.run (execStep hash) kvdb ops = some kvdb')
    (hlog : kvdb'.kvraw.logfs.length < 2 ^ 64) : ∃ rs', Ledger hash kvdb' rs' := by
  refine invariant_run (I := fun kvdb => kvdb.kvraw.logfs.length < 2 ^ 64 →
    ∃ rs, Ledger hash kvdb rs) ?_ (fun _ => ⟨rs, h⟩) hrun hlog
  intro s op s' hs hstep hlt
  obtain ⟨reply, hres⟩ := execStep_eq_some.mp hstep
  have hle := logfs_execAt ((execAt_none s op).trans hres)
  obtain ⟨rs, hledger⟩ := hs (hle.trans_lt hlt)
  exact hledger.exec hres hlt

/-- **The accounting is exact.** In every state that the store reaches from an empty log, with any
hash function: `kvdb_size` is the number of distinct keys whose newest record has a non-empty value;
together with `kvdb_waste` it is the number of records with a non-empty value, the dummy record
excluded; a removal that decrements `kvdb_size` finds it positive; and an operation that returns
`1` leaves the counters and the log as they were.

**Proof sketch.** The records of the log are those that the operations of the run appended, and the
counters are adjusted to each of them: the lookup along the chain of the key tells whether the key
is live. -/
theorem accounting_exact (hash : List UInt8 → UInt64) (off : UInt64) (ops : List Op) (kvdb : Kvdb)
    (hrun : run (execStep hash) (kvdbOpen off.toNat) ops = some kvdb)
    (hlog : kvdb.kvraw.logfs.length < 2 ^ 64) :
    kvdbSize kvdb = (liveKeys (recordsOf kvdb.kvraw.logfs).tail).card ∧
      kvdbSize kvdb + kvdbWaste kvdb = (valueRecords (recordsOf kvdb.kvraw.logfs).tail).length ∧
      ∀ op reply kvdb', exec hash kvdb op = .ok (reply, kvdb') →
        (∀ key buf, op = .remove key buf → reply.code = 0 → 0 < kvdbSize kvdb) ∧
        (reply.code = 1 → kvdbSize kvdb' = kvdbSize kvdb ∧ kvdbWaste kvdb' = kvdbWaste kvdb ∧
          kvdb'.kvraw = kvdb.kvraw) := by
  obtain ⟨rs, h⟩ := (ledger_kvdbOpen off).run hrun hlog
  rw [h.recordsOf]
  refine ⟨h.size, h.waste, fun op reply kvdb' hres => ?_⟩
  rcases h.inv.exec_cases hres with ⟨hop, rfl, -⟩ | ⟨mode, k, val, index, ref, hop, -, hcase⟩
  · refine ⟨?_, fun _ => ⟨rfl, rfl, rfl⟩⟩
    rintro key buf rfl -
    exact absurd hop (Option.some_ne_none _)
  · rcases hcase with ⟨hstores, hcode, -⟩ | ⟨hstores, hcode, rfl⟩
    · refine ⟨?_, fun h1 => absurd (hcode.symm.trans h1) (by decide)⟩
      rintro key buf rfl -
      obtain ⟨rfl, rfl, rfl⟩ := by simpa [Op.mutation] using hop
      rw [kvdbSize, h.size]
      exact card_liveKeys_pos hstores
    · exact ⟨fun key buf _ h0 => absurd (hcode.symm.trans h0) (by decide),
        fun _ => ⟨rfl, rfl, rfl⟩⟩

/-- A key that was removed and inserted again, beside a key with the same hash value. -/
theorem accounting_exact_reinserted :
    let ops : List Op := [.insert (numberedKey 0) oneByte, .update (numberedKey 1) oneByte,
      .remove (numberedKey 0) none, .replace (numberedKey 0) oneByte,
      .insert (numberedKey 0) oneByte, .replace (numberedKey 1) oneByte]
    ∃ kvdb, run (execStep numberHash) (kvdbOpen (UInt64.toNat 0)) ops = some kvdb ∧
      kvdbSize kvdb = 2 ∧ kvdbWaste kvdb = 2 ∧
      kvdbSize kvdb = (liveKeys (recordsOf kvdb.kvraw.logfs).tail).card := by
  intro ops
  have hrun : (run (execStep numberHash) (kvdbOpen (UInt64.toNat 0)) ops).map
      (fun kvdb => (kvdb.size, kvdb.waste, kvdb.kvraw.logfs.length)) = some (2, 2, 18 + 124) := by
    decide +kernel
  obtain ⟨kvdb, hkvdb, heq⟩ := Option.map_eq_some_iff.mp hrun
  simp only [Prod.mk.injEq] at heq
  obtain ⟨hsize, hwaste, hlen⟩ := heq
  exact ⟨kvdb, hkvdb, hsize, hwaste,
    (accounting_exact numberHash 0 ops kvdb hkvdb (by omega)).1⟩

end Cs238p.P4
