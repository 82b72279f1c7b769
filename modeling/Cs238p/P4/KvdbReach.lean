import Cs238p.P4.KvdbAccount

set_option relaxedAutoImplicit false
set_option autoImplicit false

/-!
# Chains are well founded

The offset `0` marks the end of a chain, although the dummy record lies there, and a record links to
what the index held before it was appended. So the offsets decrease along a chain until `0`, and no
lookup meets anything but complete records.

## Main definitions

* `Reachable` — the offsets that the index or the records behind it lead to.

## Main results

* `Inv.reachable` — every reachable offset but `0` is that of a record.
* `Inv.exec_error` — an operation that does not return ends in `EXIT`.
* `chains_wellFounded` — in every state that the store reaches.
-/

namespace Cs238p.P4

open History LittleEndian Transition

/-! ## What is not returned -/

section Errors

variable {index index' : Index} {key : ℕ} {n i : ℕ} {stop : Stop}

lemma updateLoop_error (h : index.updateLoop key n i = .error stop) : stop = .exit := by
  induction n generalizing i with
  | zero => exact (Except.error.inj h).symm
  | succ n ih =>
    rw [Index.updateLoop] at h
    split at h
    · simp at h
    · split at h
      · simp at h
      · exact ih h

lemma reinsert_error (h : index.reinsert index' n = .error stop) : stop = .exit := by
  rw [Index.reinsert] at h
  split at h
  · simp at h
  · split at h
    · next hup =>
      obtain rfl := Except.error.inj h
      exact updateLoop_error hup
    · simp at h

/-- `index_update` on a key that is not empty returns or ends in `EXIT`. -/
lemma indexUpdate_error {hash : List UInt8 → UInt64} {key : List UInt8} (hkey : key.length ≠ 0)
    (h : indexUpdate hash index key = .error stop) : stop = .exit := by
  rw [indexUpdate, if_neg hkey] at h
  split at h
  · next hgrow =>
    obtain rfl := Except.error.inj h
    rw [Index.grow] at hgrow
    split at hgrow
    · exact RangeFold.error (P := (· = .exit)) (fun _ _ _ _ hre => reinsert_error hre) hgrow
    · simp at hgrow
  · exact updateLoop_error h

end Errors

/-! ## Empty slots -/

/-- Empty slots have the offset `0`. -/
def Index.Cleared (index : Index) : Prop := ∀ j, (index.maps j).key = 0 → (index.maps j).off = 0

namespace Index.Cleared

variable {index index' : Index} {key j off n : ℕ}

lemma update (h : index.Cleared) (hkey : key ≠ 0) (hplaced : index.WellPlaced)
    (hup : index.update key = .ok (index', j)) : index'.Cleared := by
  obtain ⟨-, -, hj, hother, -⟩ := Index.update_eq_ok hkey hplaced hup
  intro l hl
  by_cases hlj : l = j
  · subst hlj
    exact absurd (hj.symm.trans hl) hkey
  · rw [hother l hlj] at hl ⊢
    exact h l hl

lemma setOff (h : index.Cleared) (hj : (index.maps j).key ≠ 0) : (index.setOff j off).Cleared := by
  intro l hl
  by_cases hlj : l = j
  · subst hlj
    exact absurd (by simpa [Index.setOff] using hl) hj
  · simp only [Index.setOff, Function.update_of_ne hlj] at hl ⊢
    exact h l hl

/-- One round of the loop of `grow`. -/
lemma reinsert {index₁ : Index} (h : index'.Cleared) (hplaced : index'.WellPlaced)
    (hre : Index.reinsert index index' n = .ok index₁) : index₁.Cleared := by
  rcases Index.reinsert_eq_ok hre with ⟨-, rfl⟩ | ⟨hkey, index₂, j, hup, rfl⟩
  · exact h
  · obtain ⟨-, -, hj, -⟩ := Index.update_eq_ok hkey hplaced hup
    exact (h.update hkey hplaced hup).setOff (by rwa [hj])

/-- The table that `grow` fills. -/
lemma grow (h : index.Cleared) (hplaced : index.WellPlaced) (hgrow : index.grow = .ok index') :
    index'.Cleared := by
  rcases Index.grow_rule (I := fun n index' => Index.Copied index index' n ∧ index'.Cleared)
    (fun capacity => ⟨Index.copied_create index capacity, fun _ _ => rfl⟩)
    (fun _ _ _ hcopied hre =>
      ⟨hcopied.1.reinsert hplaced hre, hcopied.2.reinsert hcopied.1.placed hre⟩) hgrow
    with rfl | hcopied
  · exact h
  · exact hcopied.2

/-- `index_update` leaves empty slots with the offset `0`. -/
lemma indexUpdate {hash : List UInt8 → UInt64} {key : List UInt8} (h : index.Cleared)
    (hplaced : index.WellPlaced) (hup : P4.indexUpdate hash index key = .ok (index', j)) :
    index'.Cleared := by
  obtain ⟨grown, hgrow, hup⟩ := indexUpdate_eq_ok hup
  exact (h.grow hplaced hgrow).update hashKey_ne_zero (Index.holds_grow hplaced hgrow).1 hup

end Index.Cleared

/-! ## Reachable offsets -/

/-- The offsets that are stored in the slots of a hash value or in the `off` fields of the records
behind them. -/
inductive Reachable (kvdb : Kvdb) : ℕ → ℕ → Prop
  | slot (j : ℕ) : Reachable kvdb (kvdb.index.maps j).key (kvdb.index.maps j).off
  | link {x off : ℕ} {m : Meta} : Reachable kvdb x off → off ≠ 0 →
      readMeta kvdb.kvraw off = some m → Reachable kvdb x m.off

variable {hash : List UInt8 → UInt64} {kvdb kvdb' : Kvdb}
  {hist : List (List UInt8 × List UInt8)} {x off : ℕ} {op : Op} {reply : Reply}

/-- A chain of records with the hash value begins at every reachable offset. -/
lemma Inv.chainAt_of_reachable (h : Inv hash kvdb hist) (hcleared : kvdb.index.Cleared)
    (hreach : Reachable kvdb x off) :
    ∃ chain, ChainAt kvdb.kvraw off chain ∧ ∀ e ∈ chain, hashKey hash e.1 = x := by
  induction hreach with
  | slot j =>
    by_cases hx : (kvdb.index.maps j).key = 0
    · exact ⟨[], hcleared j hx, by simp⟩
    · refine ⟨_, h.chains _ hx _ (.inl ⟨j, rfl⟩), fun e he => ?_⟩
      simpa [bucket] using (List.mem_filter.mp he).2
  | link _ hoff hmeta ih =>
    obtain ⟨chain, hchain, hhash⟩ := ih
    cases chain with
    | nil => exact absurd hchain hoff
    | cons e chain =>
      obtain ⟨-, link, -, hrec, hchain'⟩ := hchain
      obtain rfl := Option.some.inj ((readMeta_of_recordAt h.sized hrec).symm.trans hmeta)
      exact ⟨chain, hchain', fun e he => hhash e (List.mem_cons_of_mem _ he)⟩

/-- **Every reachable offset but `0` is that of a complete record**, which `read_meta` accepts and
which links to a smaller offset. -/
theorem Inv.reachable (h : Inv hash kvdb hist) (hcleared : kvdb.index.Cleared)
    (hreach : Reachable kvdb x off) (hoff : off ≠ 0) :
    ∃ r, RecordAt kvdb.kvraw off r ∧
      off + metaLen + r.key.length + r.val.length ≤ kvdb.kvraw.size ∧ hashKey hash r.key = x ∧
      r.link < off ∧ readMeta kvdb.kvraw off = some r.header := by
  obtain ⟨chain, hchain, hhash⟩ := h.chainAt_of_reachable hcleared hreach
  cases chain with
  | nil => exact absurd hchain hoff
  | cons e chain =>
    obtain ⟨-, link, hlt, hrec, -⟩ := hchain
    refine ⟨_, hrec, ?_, hhash e List.mem_cons_self, hlt, readMeta_of_recordAt h.sized hrec⟩
    rw [h.sized.1]
    exact hrec.le_length

/-! ## Runs -/

/-- Without a slot an operation ends as `index_update` does. -/
lemma exec_of_error {mode : Mode} {k : Key} {val : List UInt8} {stop : Stop}
    (hop : op.mutation = some (mode, k, val))
    (hup : indexUpdate hash kvdb.index k = .error stop) : exec hash kvdb op = .error stop := by
  have hlen : ¬ (k.1.length = 0 ∨ k.1.length > kvdbMaxKeyLen) := by
    have := k.2
    omega
  have hput (mode : Mode) (v : Val) : kvdbPut hash mode none kvdb k v = .error stop := by
    have hv : ¬ (v.1.length = 0 ∨ v.1.length > kvdbMaxValLen) := by
      have := v.2
      omega
    rw [kvdbPut, if_neg hlen, if_neg hv, mutate, hup]
  cases op with
  | lookup key buf => simp [Op.mutation] at hop
  | insert key v =>
    obtain ⟨-, rfl, -⟩ := by simpa [Op.mutation] using hop
    exact hput .insert v
  | update key v =>
    obtain ⟨-, rfl, -⟩ := by simpa [Op.mutation] using hop
    exact hput .update v
  | replace key v =>
    obtain ⟨-, rfl, -⟩ := by simpa [Op.mutation] using hop
    exact hput .replace v
  | remove key buf =>
    obtain ⟨-, rfl, -⟩ := by simpa [Op.mutation] using hop
    have hassert := buffer_admitted buf ((buf.map List.length).getD 0 ≠ 0)
    rw [exec, kvdbRemove, if_neg hlen, if_neg (not_not_intro hassert), mutate, hup]

/-- **An operation that does not return ends in `EXIT`**: no assertion fails, and no chain is
endless. -/
theorem Inv.exec_error (h : Inv hash kvdb hist) {stop : Stop}
    (hres : exec hash kvdb op = .error stop) : stop = .exit := by
  cases hop : op.mutation with
  | none =>
    cases op with
    | lookup key buf =>
      obtain ⟨reply, hreply, -⟩ := h.lookup key buf
      rw [exec, hreply] at hres
      exact absurd hres (by simp [Except.map])
    | _ => simp [Op.mutation] at hop
  | some m =>
    obtain ⟨mode, k, val⟩ := m
    cases hup : P4.indexUpdate hash kvdb.index k with
    | error stop' =>
      rw [exec_of_error hop hup] at hres
      obtain rfl := Except.error.inj hres
      exact indexUpdate_error k.2.1 hup
    | ok res =>
      obtain ⟨index, ref⟩ := res
      obtain ⟨stored, kept, -, -, heq⟩ := h.execAt_eq hop hup
      rw [← execAt_none, heq] at hres
      split at hres
      · rw [mutateAppend_eq _ ref mode.after stored k.2.1 k.2.2 (Op.mutation_fits hop).1] at hres
        exact absurd hres (by simp)
      · exact absurd hres (by simp)

/-- No operation returns `-1`. -/
lemma Inv.code_ne (h : Inv hash kvdb hist) (hres : exec hash kvdb op = .ok (reply, kvdb')) :
    reply.code ≠ -1 := by
  rcases h.exec_cases hres with ⟨-, -, hcode⟩ | ⟨mode, k, val, index, ref, -, -, hcase⟩
  · exact hcode
  · rcases hcase with ⟨-, hcode, -⟩ | ⟨-, hcode, -⟩ <;> rw [hcode] <;> decide

/-- Operations leave empty slots with the offset `0`. -/
lemma Inv.cleared_exec (h : Inv hash kvdb hist) (hcleared : kvdb.index.Cleared)
    (hres : exec hash kvdb op = .ok (reply, kvdb')) : kvdb'.index.Cleared := by
  rcases h.exec_cases hres with ⟨-, rfl, -⟩ | ⟨mode, k, val, index, ref, -, hup, hcase⟩
  · exact hcleared
  · have hcleared' := hcleared.indexUpdate h.placed hup
    have href := (h.indexUpdate hup).2
    rcases hcase with ⟨-, -, rfl⟩ | ⟨-, -, rfl⟩
    · rw [index_after, Kvdb.appended, index_before]
      exact hcleared'.setOff (by rw [href]; exact hashKey_ne_zero)
    · exact hcleared'

/-- Every run leaves empty slots with the offset `0`. -/
lemma cleared_run (off : UInt64) {ops : List Op}
    (hrun : run (execStep hash) (kvdbOpen off.toNat) ops = some kvdb)
    (hlog : kvdb.kvraw.logfs.length < 2 ^ 64) :
    (∃ rs, Ledger hash kvdb rs) ∧ kvdb.index.Cleared := by
  refine invariant_run (I := fun kvdb => kvdb.kvraw.logfs.length < 2 ^ 64 →
    (∃ rs, Ledger hash kvdb rs) ∧ kvdb.index.Cleared) ?_ ?_ hrun hlog
  · intro s op s' hs hstep hlt
    obtain ⟨reply, hres⟩ := execStep_eq_some.mp hstep
    have hle := logfs_execAt ((execAt_none s op).trans hres)
    obtain ⟨⟨rs, hledger⟩, hcleared⟩ := hs (hle.trans_lt hlt)
    exact ⟨hledger.exec hres hlt, hledger.inv.cleared_exec hcleared hres⟩
  · exact fun _ => ⟨⟨[], ledger_kvdbOpen off⟩, fun _ _ => rfl⟩

/-- **Chains are well founded and never corrupt.** In every state that the store reaches from an
empty log, with any hash function: every offset but `0` that is stored in the index or in the `off`
field of a record reachable from it is the start of a complete record inside the log, whose key has
the hash value of the slot, whose `off` is smaller, and which `read_meta` accepts; `chain_lookup`
ends for every key; no operation returns `-1`; and one that does not return ends in the `EXIT` of
the index.

**Proof sketch.** The index holds for every hash value a chain of records with that hash value, in
which a record links to what the index held when the record was appended, an older offset. -/
theorem chains_wellFounded (hash : List UInt8 → UInt64) (off : UInt64) (ops : List Op) (kvdb : Kvdb)
    (hrun : run (execStep hash) (kvdbOpen off.toNat) ops = some kvdb)
    (hlog : kvdb.kvraw.logfs.length < 2 ^ 64) :
    (∀ x o, Reachable kvdb x o → o ≠ 0 → ∃ r, RecordAt kvdb.kvraw o r ∧
      o + metaLen + r.key.length + r.val.length ≤ kvdb.kvraw.size ∧ hashKey hash r.key = x ∧
      r.link < o ∧ readMeta kvdb.kvraw o = some r.header) ∧
    (∀ (key : Key) (o valLen : ℕ) (val : Option (List UInt8)), (valLen ≠ 0 → val ≠ none) →
      kvdb.index.Holds (hashKey hash key) o → ∃ c,
        chainLookup kvdb.kvraw key valLen (kvdb.kvraw.size + 1) val o = .ok (some c)) ∧
    (∀ op reply kvdb', exec hash kvdb op = .ok (reply, kvdb') → reply.code ≠ -1) ∧
    ∀ op stop, exec hash kvdb op = .error stop → stop = .exit := by
  obtain ⟨⟨rs, hledger⟩, hcleared⟩ := cleared_run off hrun hlog
  have h := hledger.inv
  refine ⟨fun x o => h.reachable hcleared, fun key o valLen val hval hholds => ?_,
    fun op reply kvdb' => h.code_ne, fun op stop => h.exec_error⟩
  obtain ⟨c, hc, -⟩ := h.chainLookup key.2.1 o valLen val hval hholds
  exact ⟨c, hc⟩

/-- Two keys with the same hash value are in one chain. -/
theorem chains_wellFounded_collision :
    ∃ kvdb, run (execStep fun _ => 7) (kvdbOpen (UInt64.toNat 5))
        [.insert (numberedKey 0) oneByte, .insert (numberedKey 1) oneByte] = some kvdb ∧
      ∀ x o, Reachable kvdb x o → o ≠ 0 → ∃ r, RecordAt kvdb.kvraw o r ∧
        o + metaLen + r.key.length + r.val.length ≤ kvdb.kvraw.size ∧
        hashKey (fun _ => 7) r.key = x ∧ r.link < o ∧
        readMeta kvdb.kvraw o = some r.header := by
  have hrun : (run (execStep fun _ => 7) (kvdbOpen (UInt64.toNat 5))
      [.insert (numberedKey 0) oneByte, .insert (numberedKey 1) oneByte]).map
      (fun kvdb => kvdb.kvraw.logfs.length) = some 68 := by
    decide +kernel
  obtain ⟨kvdb, hkvdb, hlen⟩ := Option.map_eq_some_iff.mp hrun
  exact ⟨kvdb, hkvdb, (chains_wellFounded (fun _ => 7) 5 _ kvdb hkvdb (by omega)).1⟩

end Cs238p.P4
