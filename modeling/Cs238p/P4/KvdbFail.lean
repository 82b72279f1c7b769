import Cs238p.P4.KvdbAccount

set_option relaxedAutoImplicit false
set_option autoImplicit false

/-!
# Appends that fail

A record is appended in three parts, and the size of the log is advanced after the last one. If the
first part fails then nothing was appended. If a later one fails then the log has bytes that the
store does not know of: from then on records lie behind the offsets that are stored for them. A
failed update has moved a counter already, whichever part fails.

## Main definitions

* `Event`, `failStep` — operations with the append that fails.
* `Same` — stores with the same log and counters whose indices hold the same.
* `Atomic` — the failed operation left the store as it was.

## Main results

* `Same.run` — the same operations on two such stores lead to two such stores.
* `atomic_iff` — a failed operation is atomic if and only if the first append failed and the
  operation is not an update.
-/

namespace Cs238p.P4

open History LittleEndian Transition

/-- An operation is an update. -/
def Op.IsUpdate : Op → Prop
  | .update _ _ => True
  | _ => False

instance : DecidablePred Op.IsUpdate
  | .update _ _ => inferInstanceAs (Decidable True)
  | .insert _ _ | .replace _ _ | .remove _ _ | .lookup _ _ => inferInstanceAs (Decidable False)

/-- An operation, with the `logfs_append` of its record that fails, if any. -/
abbrev Event := Op × Option (Fin 3)

/-- No append fails, or the first append of an operation that is not an update. -/
def Event.Clean (ev : Event) : Prop := ev.2 = none ∨ ev.2 = some 0 ∧ ¬ ev.1.IsUpdate

instance : DecidablePred Event.Clean := fun _ => inferInstanceAs (Decidable (_ ∨ _))

variable (hash : List UInt8 → UInt64)

/-- The store after an event, if the operation returns. -/
def failStep (kvdb : Kvdb) (ev : Event) : Option Kvdb :=
  match execAt hash (ev.2.map Fin.val) kvdb ev.1 with
  | .error _ => none
  | .ok (_, kvdb) => some kvdb

/-- The operation appends a record if no append fails. -/
def Appends (kvdb : Kvdb) (op : Op) : Prop :=
  ∃ reply kvdb', exec hash kvdb op = .ok (reply, kvdb') ∧ kvdb'.kvraw.logfs ≠ kvdb.kvraw.logfs

/-- The record of an operation that returns `0` lies in the log at the offset that the index holds
for its key. -/
def FindsRecord (kvdb : Kvdb) (op : Op) : Prop :=
  ∀ mode k val reply kvdb', op.mutation = some (mode, k, val) →
    exec hash kvdb op = .ok (reply, kvdb') → reply.code = 0 → ∃ off link,
      kvdb'.index.Holds (hashKey hash k) off ∧ RecordAt kvdb'.kvraw off ⟨link, k, val⟩

/-- The operation failed and left the store as it was: it returned `-1`, the counters and the size
of the log are right, and whatever operations follow, every lookup after them is as it would be
without the failed operation, and every record that they append is found. -/
structure Atomic (kvdb : Kvdb) (reply : Reply) (kvdb' : Kvdb) : Prop where
  code : reply.code = -1
  size : kvdbSize kvdb' = kvdbSize kvdb
  waste : kvdbWaste kvdb' = kvdbWaste kvdb
  agree : kvdb'.kvraw.size = kvdb'.kvraw.logfs.length
  lookups : ∀ ops s s', run (execStep hash) kvdb ops = some s →
    run (execStep hash) kvdb' ops = some s' → s'.kvraw.logfs.length < 2 ^ 64 →
    ∀ (key : Key) (buf : Option (List UInt8)),
      kvdbLookup hash s' key buf (buf.map List.length) =
        kvdbLookup hash s key buf (buf.map List.length)
  records : ∀ ops s', run (execStep hash) kvdb' ops = some s' →
    s'.kvraw.logfs.length < 2 ^ 64 → ∀ op, FindsRecord hash s' op

/-! ## Stores that look the same -/

/-- The stores have the same log and the same counters, and their indices hold the same. -/
structure Same (s t : Kvdb) : Prop where
  kvraw : t.kvraw = s.kvraw
  size : t.size = s.size
  waste : t.waste = s.waste
  placed : s.index.WellPlaced
  placed' : t.index.WellPlaced
  holds : ∀ x ≠ 0, ∀ off, s.index.Holds x off → t.index.Holds x off

variable {hash} {s s' t t' kvdb kvdb' : Kvdb} {op : Op} {reply : Reply} {rs : List Record}
  {index index' : Index} {ref ref' : ℕ} {k : Key} {val : List UInt8} {mode : Mode}

/-- Growing an index and searching a slot in it does not show. -/
lemma same_indexUpdate (hplaced : kvdb.index.WellPlaced) {key : List UInt8}
    (hup : indexUpdate hash kvdb.index key = .ok (index, ref)) :
    Same kvdb { kvdb with index := index } := by
  obtain ⟨hplaced', -, hholds⟩ := holds_indexUpdate hplaced hup
  exact ⟨rfl, rfl, rfl, hplaced, hplaced', hholds⟩

lemma Same.symm (h : Same s t) : Same t s := by
  refine ⟨h.kvraw.symm, h.size.symm, h.waste.symm, h.placed', h.placed, fun x hx off hoff => ?_⟩
  obtain ⟨off', hoff'⟩ := s.index.exists_holds x
  obtain rfl := h.placed'.holds_unique hx hoff (h.holds x hx off' hoff')
  exact hoff'

lemma Same.trans {u : Kvdb} (h : Same s t) (h' : Same t u) : Same s u :=
  ⟨h'.kvraw.trans h.kvraw, h'.size.trans h.size, h'.waste.trans h.waste, h.placed, h'.placed',
    fun x hx off hoff => h'.holds x hx off (h.holds x hx off hoff)⟩

/-- The same lookups. -/
lemma Same.kvdbLookup (h : Same s t) (key : Key) (buf : Option (List UInt8)) (valLen : Option ℕ) :
    P4.kvdbLookup hash t key buf valLen = P4.kvdbLookup hash s key buf valLen := by
  obtain ⟨ref, href, hoff⟩ := indexLookup_eq hash h.placed key.2.1
  obtain ⟨ref', href', hoff'⟩ := indexLookup_eq hash h.placed' key.2.1
  have hsame := h.placed'.holds_unique hashKey_ne_zero hoff' (h.holds _ hashKey_ne_zero _ hoff)
  simp only [P4.kvdbLookup, href, href', hsame, h.kvraw]

/-- The same record is appended. -/
lemma Same.appended (h : Same s t) (href : (s.index.maps ref).key = hashKey hash k)
    (href' : (t.index.maps ref').key = hashKey hash k) :
    Same (s.appended k val ref) (t.appended k val ref') := by
  have hself : s.index.Holds (hashKey hash k) (s.index.maps ref).off := .inl ⟨ref, by rw [← href]⟩
  have hself' : t.index.Holds (hashKey hash k) (t.index.maps ref').off :=
    .inl ⟨ref', by rw [← href']⟩
  have hoff := h.placed'.holds_unique hashKey_ne_zero hself' (h.holds _ hashKey_ne_zero _ hself)
  obtain ⟨hnew, hother⟩ := Index.holds_setOff s.kvraw.size href
  obtain ⟨hnew', hother'⟩ := Index.holds_setOff s.kvraw.size href'
  have hplaced : (s.index.setOff ref s.kvraw.size).WellPlaced := h.placed.setOff
  refine ⟨?_, h.size, h.waste, hplaced, h.placed'.setOff, fun x hx off hx' => ?_⟩
  · simp only [Kvdb.appended, h.kvraw, hoff]
  · simp only [Kvdb.appended, h.kvraw] at hx' ⊢
    by_cases hxk : x = hashKey hash k
    · subst hxk
      obtain rfl := hplaced.holds_unique hx hx' hnew
      exact hnew'
    · obtain ⟨off', hoff'⟩ := s.index.exists_holds x
      obtain rfl := hplaced.holds_unique hx hx' (hother x hxk off' hoff')
      exact hother' x hxk off (h.holds x hx off hoff')

/-- The same bookkeeping. -/
lemma Same.before (h : Same s t) (mode : Mode) (old : Option (List UInt8)) :
    Same (mode.before old s) (mode.before old t) := by
  obtain ⟨hraw, hsize, hwaste, hplaced, hplaced', hholds⟩ := h
  cases mode with
  | update =>
    unfold Mode.before
    by_cases hold : old = none
    · simp only [hold, if_true]
      exact ⟨hraw, by rw [hsize], hwaste, hplaced, hplaced', hholds⟩
    · simp only [hold, if_false]
      exact ⟨hraw, hsize, by rw [hwaste], hplaced, hplaced', hholds⟩
  | _ => exact ⟨hraw, hsize, hwaste, hplaced, hplaced', hholds⟩

lemma Same.after (h : Same s t) (mode : Mode) : Same (mode.after s) (mode.after t) := by
  obtain ⟨hraw, hsize, hwaste, hplaced, hplaced', hholds⟩ := h
  refine ⟨by rw [kvraw_after, kvraw_after, hraw], ?_, ?_, by rwa [index_after],
    by rwa [index_after], by rwa [index_after, index_after]⟩
  · cases mode <;> simp only [Mode.after, hsize]
  · cases mode <;> simp only [Mode.after, hwaste]

/-! ## The same operations -/

/-- The same operation on two stores that look the same. -/
lemma Same.exec (h : Same s t) (hs : Ledger hash s rs) (ht : Ledger hash t rs)
    {reply' : Reply} (hexec : P4.exec hash s op = .ok (reply, s'))
    (hexec' : P4.exec hash t op = .ok (reply', t')) : Same s' t' := by
  rcases hs.inv.exec_cases hexec with
    ⟨hop, rfl, -⟩ | ⟨mode, k, val, index, ref, hop, hup, hcase⟩
  · rcases ht.inv.exec_cases hexec' with ⟨-, rfl, -⟩ | ⟨_, _, _, _, _, hop', -, -⟩
    · exact h
    · exact absurd (hop.symm.trans hop') (by simp)
  · rcases ht.inv.exec_cases hexec' with
      ⟨hop', -, -⟩ | ⟨mode', k', val', index', ref', hop', hup', hcase'⟩
    · exact absurd (hop.symm.trans hop') (by simp)
    · obtain ⟨rfl, rfl, rfl⟩ : mode = mode' ∧ k = k' ∧ val = val' := by
        simpa using hop.symm.trans hop'
      have hsame : Same { s with index := index } { t with index := index' } :=
        ((same_indexUpdate h.placed hup).symm.trans h).trans (same_indexUpdate h.placed' hup')
      obtain ⟨-, href⟩ := hs.indexUpdate hup
      obtain ⟨-, href'⟩ := ht.indexUpdate hup'
      rcases hcase with ⟨hstores, -, rfl⟩ | ⟨hstores, -, rfl⟩
      · rcases hcase' with ⟨-, -, rfl⟩ | ⟨hstores', -, -⟩
        · exact ((hsame.before mode _).appended (by rwa [index_before])
            (by rwa [index_before])).after mode
        · exact absurd hstores hstores'
      · rcases hcase' with ⟨hstores', -, -⟩ | ⟨-, -, rfl⟩
        · exact absurd hstores' hstores
        · exact hsame

/-- **The same operations** on two stores that look the same lead to two such stores.

**Proof sketch.** The ledgers of the two stores agree, since they are read from the same log. -/
theorem Same.run {ops : List Op} (h : Same s t) (hs : Ledger hash s rs) (ht : Ledger hash t rs)
    (hrun : Transition.run (execStep hash) s ops = some s')
    (hrun' : Transition.run (execStep hash) t ops = some t')
    (hlog : t'.kvraw.logfs.length < 2 ^ 64) : Same s' t' := by
  induction ops generalizing s t rs with
  | nil =>
    obtain rfl := Option.some.inj hrun
    obtain rfl := Option.some.inj hrun'
    exact h
  | cons op ops ih =>
    obtain ⟨s₁, hstep, hrun⟩ := run_cons_eq_some.mp hrun
    obtain ⟨t₁, hstep', hrun'⟩ := run_cons_eq_some.mp hrun'
    obtain ⟨reply, hexec⟩ := execStep_eq_some.mp hstep
    obtain ⟨reply', hexec'⟩ := execStep_eq_some.mp hstep'
    have hsame := h.exec hs ht hexec hexec'
    have hlog₁ : t₁.kvraw.logfs.length < 2 ^ 64 := (logfs_run hrun').trans_lt hlog
    obtain ⟨rs₁, hs₁⟩ := hs.exec hexec (by rwa [← hsame.kvraw])
    obtain ⟨rs₂, ht₁⟩ := ht.exec hexec' hlog₁
    obtain rfl : rs₁ = rs₂ := by rw [← hs₁.recordsOf, ← ht₁.recordsOf, hsame.kvraw]
    exact ih hsame hs₁ ht₁ hrun hrun'

/-- The record of an operation is found. -/
lemma Ledger.findsRecord (h : Ledger hash kvdb rs) (op : Op) : FindsRecord hash kvdb op := by
  intro mode k val reply kvdb' hop hres hcode
  rcases h.inv.exec_cases hres with
    ⟨hop', -, -⟩ | ⟨mode', k', val', index, ref, hop', hup, hcase⟩
  · exact absurd (hop.symm.trans hop') (by simp)
  · obtain ⟨rfl, rfl, rfl⟩ : mode = mode' ∧ k = k' ∧ val = val' := by
      simpa using hop.symm.trans hop'
    obtain ⟨hledger, href⟩ := h.indexUpdate hup
    rcases hcase with ⟨-, -, rfl⟩ | ⟨-, hcode', -⟩
    · refine ⟨kvdb.kvraw.size, (index.maps ref).off, ?_, ?_⟩
      · rw [index_after, Kvdb.appended, kvraw_before, index_before]
        exact (Index.holds_setOff _ href).1
      · rw [kvraw_after, Kvdb.appended, kvraw_before, index_before]
        exact ⟨hledger.fits_record hop href, kvdb.kvraw.logfs, [],
          by simp only [List.append_nil], h.inv.sized.1.symm⟩
    · exact absurd (hcode.symm.trans hcode') (by decide)

/-! ## A failed append -/

lemma toOption_eq_some {ε α : Type} {e : Except ε α} {a : α} : e.toOption = some a ↔ e = .ok a := by
  cases e <;> simp [Except.toOption]

/-- What a failed append does: a part of the record is appended, none of it if the first append
fails. -/
lemma mutateAppend_fail (n : Fin 3) (kvdb : Kvdb) (ref : ℕ) (account : Kvdb → Kvdb) (reply : Reply)
    (hkey : k.1.length ≠ 0) (hval : val.length ≤ kvdbMaxValLen) :
    ∃ part, mutateAppend (some n.val) kvdb k val ref account reply =
        .ok ({ reply with code := -1 },
          { kvdb with kvraw := ⟨kvdb.kvraw.size, kvdb.kvraw.logfs ++ part⟩ }) ∧
      (part = [] ↔ n = 0) := by
  have hkey' : ¬ k.1.length > 0xffff := Nat.not_lt.mpr k.2.2
  rw [kvdbMaxValLen] at hval
  have hlen : ¬ (k.1.length = 0 ∨ k.1.length > 0xffff ∨ val.length > 0xffffffff) := by omega
  have hencode (m : Meta) (l : List UInt8) : m.encode ++ l ≠ [] := by
    simp [Meta.encode]
  have hn : n = 0 ∨ n = 1 ∨ n = 2 := by
    have := n.isLt
    simp only [Fin.ext_iff]
    omega
  rcases hn with rfl | rfl | rfl
  · refine ⟨[], ?_, by simp⟩
    rw [mutateAppend, kvrawAppend, if_neg hlen]
    simp
  · refine ⟨_, ?_, iff_of_false (hencode ⟨kvMark, (kvdb.index.maps ref).off, k.1.length % 2 ^ 16,
      val.length % 2 ^ 32⟩ []) (by decide)⟩
    rw [mutateAppend, kvrawAppend, if_neg hlen]
    simp
  · refine ⟨_, ?_, iff_of_false (hencode ⟨kvMark, (kvdb.index.maps ref).off, k.1.length % 2 ^ 16,
      val.length % 2 ^ 32⟩ (k.1.take (k.1.length % 2 ^ 16))) (by decide)⟩
    rw [mutateAppend, kvrawAppend, if_neg hlen]
    simp

/-- Part of a record behind the log. -/
def Kvdb.torn (kvdb : Kvdb) (part : List UInt8) : Kvdb :=
  { kvdb with kvraw := ⟨kvdb.kvraw.size, kvdb.kvraw.logfs ++ part⟩ }

/-- **A failed operation** returns `-1`; its bookkeeping before the append is done, and a part of
its record lies in the log. -/
theorem Inv.execAt_fail {hist : List (List UInt8 × List UInt8)} (h : Inv hash kvdb hist) (n : Fin 3)
    (hop : op.mutation = some (mode, k, val)) (hstores : mode.Stores (valueOf hist k))
    (hup : P4.indexUpdate hash kvdb.index k = .ok (index, ref)) :
    ∃ reply part, execAt hash (some n.val) kvdb op =
        .ok (reply, (mode.before (valueOf hist k) { kvdb with index := index }).torn part) ∧
      reply.code = -1 ∧ (part = [] ↔ n = 0) := by
  obtain ⟨stored, kept, -, -, heq⟩ := h.execAt_eq hop hup
  obtain ⟨part, hres, hpart⟩ := mutateAppend_fail n
    (mode.before (valueOf hist k) { kvdb with index := index }) ref mode.after stored k.2.1
    (Op.mutation_fits hop).1
  refine ⟨{ stored with code := -1 }, part, ?_, rfl, hpart⟩
  rw [heq, if_pos hstores]
  exact hres

lemma torn_nil (kvdb : Kvdb) : kvdb.torn [] = kvdb := by
  rw [Kvdb.torn, List.append_nil]

lemma isUpdate_iff (hop : op.mutation = some (mode, k, val)) : op.IsUpdate ↔ mode = .update := by
  cases op <;> simp [Op.mutation, Op.IsUpdate] at hop ⊢ <;> simp [← hop.1]

lemma before_of_ne_update (hmode : mode ≠ .update) (old : Option (List UInt8)) (d : Kvdb) :
    mode.before old d = d := by
  cases mode <;> first | rfl | exact absurd rfl hmode

/-- The bookkeeping of an update shows. -/
lemma before_update_ne (old : Option (List UInt8)) (d : Kvdb) :
    (Mode.update.before old d).size ≠ d.size ∨ (Mode.update.before old d).waste ≠ d.waste := by
  unfold Mode.before
  by_cases hold : old = none
  · left
    simp only [hold, if_true, u64]
    omega
  · right
    simp only [hold, if_false, u64]
    omega

/-- A failed operation whose first append failed keeps the ledger, unless it is an update. -/
lemma Ledger.event (h : Ledger hash kvdb rs) {ev : Event} (hclean : ev.Clean)
    (hstep : failStep hash kvdb ev = some kvdb') (hlog : kvdb'.kvraw.logfs.length < 2 ^ 64) :
    ∃ rs', Ledger hash kvdb' rs' := by
  obtain ⟨op, fail⟩ := ev
  rw [failStep] at hstep
  cases hres : execAt hash (fail.map Fin.val) kvdb op with
  | error stop => simp [hres] at hstep
  | ok res =>
    obtain ⟨reply, d⟩ := res
    simp only [hres] at hstep
    obtain rfl := Option.some.inj hstep
    rcases hclean with hnone | ⟨hzero, hupdate⟩
    · obtain rfl : fail = none := hnone
      exact h.exec ((execAt_none kvdb op).symm.trans hres) hlog
    · obtain rfl : fail = some 0 := hzero
      have hupdate' : ¬ op.IsUpdate := hupdate
      cases hop : op.mutation with
      | none =>
        cases op with
        | lookup key buf =>
          have hres' : P4.exec hash kvdb (.lookup key buf) = .ok (reply, d) := hres
          exact h.exec hres' hlog
        | _ => simp [Op.mutation] at hop
      | some m =>
        obtain ⟨mode, k, val⟩ := m
        obtain ⟨⟨index, ref⟩, hup⟩ := indexUpdate_of_execAt hop hres
        obtain ⟨hledger, -⟩ := h.indexUpdate hup
        have hmode : mode ≠ .update := fun heq => hupdate' ((isUpdate_iff hop).mpr heq)
        by_cases hstores : mode.Stores (valueOf (historyOf rs) k)
        · obtain ⟨reply', part, hres', -, hpart⟩ := h.inv.execAt_fail 0 hop hstores hup
          have heq := Except.ok.inj (hres.symm.trans hres')
          obtain ⟨-, rfl⟩ := Prod.mk.inj heq
          rw [hpart.mpr rfl, torn_nil, before_of_ne_update hmode]
          exact ⟨rs, hledger⟩
        · obtain ⟨stored, kept, -, -, heq⟩ := h.inv.execAt_eq hop hup
          rw [heq, if_neg hstores] at hres
          obtain ⟨-, rfl⟩ := Prod.mk.inj (Except.ok.inj hres)
          exact ⟨rs, hledger⟩

/-- Every run whose failed operations are clean keeps a ledger. -/
lemma ledger_failRun (off : UInt64) {evs : List Event}
    (hrun : run (failStep hash) (kvdbOpen off.toNat) evs = some kvdb)
    (hclean : ∀ ev ∈ evs, ev.Clean)
    (hlog : kvdb.kvraw.logfs.length < 2 ^ 64) : ∃ rs, Ledger hash kvdb rs := by
  refine invariant_run_of_always (I := fun kvdb => kvdb.kvraw.logfs.length < 2 ^ 64 →
    ∃ rs, Ledger hash kvdb rs) ?_ (fun _ => ⟨[], ledger_kvdbOpen off⟩)
    (always_of_forall_mem _ hclean) hrun hlog
  intro s ev s' hs hev hstep hlt
  have hle : s.kvraw.logfs.length ≤ s'.kvraw.logfs.length := by
    have hstep' := hstep
    rw [failStep] at hstep'
    split at hstep'
    · simp at hstep'
    · next hres =>
      obtain rfl := Option.some.inj hstep'
      exact logfs_execAt hres
  obtain ⟨rs, hledger⟩ := hs (hle.trans_lt hlt)
  exact hledger.event hev hstep hlt

/-- **When a failed operation is atomic.** In every state that the store reaches from an empty log
by operations of which only non-updates failed, at their first append: an operation whose `n`-th
append fails returns, and it leaves the store as it was if and only if that is the first append and
the operation is not an update.

**Proof sketch.** After a later append the log is longer than the store knows. An update has moved a
counter before it appends. Otherwise only the index has changed: a slot for the key may be new,
which no lookup shows. -/
theorem atomic_iff (hash : List UInt8 → UInt64) (off : UInt64) (evs : List Event) (kvdb : Kvdb)
    (hrun : run (failStep hash) (kvdbOpen off.toNat) evs = some kvdb)
    (hclean : ∀ ev ∈ evs, ev.Clean)
    (hlog : kvdb.kvraw.logfs.length < 2 ^ 64) (op : Op) (n : Fin 3) (happ : Appends hash kvdb op) :
    ∃ reply kvdb', execAt hash (some n.val) kvdb op = .ok (reply, kvdb') ∧
      (Atomic hash kvdb reply kvdb' ↔ n = 0 ∧ ¬ op.IsUpdate) := by
  obtain ⟨rs, h⟩ := ledger_failRun off hrun hclean hlog
  obtain ⟨reply₀, kvdb₀, hres₀, hne⟩ := happ
  rcases h.inv.exec_cases hres₀ with
    ⟨-, rfl, -⟩ | ⟨mode, k, val, index, ref, hop, hup, ⟨hstores, -, -⟩ | ⟨-, -, rfl⟩⟩
  · exact absurd rfl hne
  · obtain ⟨reply, part, hres, hcode, hpart⟩ := h.inv.execAt_fail n hop hstores hup
    obtain ⟨hledger, -⟩ := h.indexUpdate hup
    refine ⟨reply, _, hres, ?_⟩
    rw [isUpdate_iff hop]
    constructor
    · intro hatomic
      have hagree := hatomic.agree
      have hsize := hatomic.size
      have hwaste := hatomic.waste
      have hsized := h.inv.sized.1
      simp only [Kvdb.torn, kvraw_before, List.length_append] at hagree
      refine ⟨hpart.mp (List.length_eq_zero_iff.mp (by omega)), ?_⟩
      rintro rfl
      rcases before_update_ne (valueOf (historyOf rs) k) { kvdb with index := index } with hne | hne
      · exact hne hsize
      · exact hne hwaste
    · rintro ⟨rfl, hmode⟩
      rw [hpart.mpr rfl, torn_nil, before_of_ne_update hmode]
      have hsame := same_indexUpdate h.inv.placed hup
      refine ⟨hcode, rfl, rfl, h.inv.sized.1, ?_, ?_⟩
      · intro ops s s' hs hs' hlt key buf
        exact (hsame.run h hledger hs hs' hlt).kvdbLookup key buf _
      · intro ops s' hs' hlt op'
        obtain ⟨rs', hledger'⟩ := hledger.run hs' hlt
        exact hledger'.findsRecord op'
  · exact absurd rfl hne

/-- A replacement whose first append fails is atomic, in a store that was filled after an insertion
had failed at its first append. -/
theorem atomic_iff_replace :
    ∃ kvdb, run (failStep numberHash) (kvdbOpen (UInt64.toNat 0))
        [(.insert (numberedKey 3) oneByte, some 0), (.insert (numberedKey 3) oneByte, none)] =
          some kvdb ∧
      ∃ reply kvdb', execAt numberHash (some (0 : Fin 3).val) kvdb
          (.replace (numberedKey 3) oneByte) = .ok (reply, kvdb') ∧
        Atomic numberHash kvdb reply kvdb' := by
  have hrun : (run (failStep numberHash) (kvdbOpen (UInt64.toNat 0))
      [(.insert (numberedKey 3) oneByte, some 0), (.insert (numberedKey 3) oneByte, none)]).map
      (fun kvdb => (kvdb.kvraw.logfs.length,
        (exec numberHash kvdb (.replace (numberedKey 3) oneByte)).toOption.map
          fun res => res.2.kvraw.logfs.length)) = some (43, some 68) := by
    decide +kernel
  obtain ⟨kvdb, hkvdb, heq⟩ := Option.map_eq_some_iff.mp hrun
  obtain ⟨hlen, hnext⟩ := Prod.mk.inj heq
  obtain ⟨⟨reply₀, kvdb₀⟩, hres₀, hlen₀⟩ := Option.map_eq_some_iff.mp hnext
  have happ : Appends numberHash kvdb (.replace (numberedKey 3) oneByte) := by
    refine ⟨reply₀, kvdb₀, ?_, fun h => ?_⟩
    · exact toOption_eq_some.mp hres₀
    · rw [h] at hlen₀
      omega
  obtain ⟨reply, kvdb', hres, hiff⟩ := atomic_iff numberHash 0 _ kvdb hkvdb (by decide)
    (by omega) (.replace (numberedKey 3) oneByte) 0 happ
  exact ⟨kvdb, hkvdb, reply, kvdb', hres, hiff.mpr ⟨rfl, by decide⟩⟩

/-- **Failed operations that are not atomic.** If the second append of an insertion fails then the
next insertion, which returns `0`, is not found: the lookup returns `1`. If the first append of an
update fails then the empty store has one key. -/
theorem not_atomic_torn :
    (∃ r s r' s' r'',
      execAt numberHash (some (1 : Fin 3).val) (kvdbOpen 0) (.insert (numberedKey 3) oneByte) =
        .ok (r, s) ∧ ¬ Atomic numberHash (kvdbOpen 0) r s ∧
      exec numberHash s (.insert (numberedKey 4) oneByte) = .ok (r', s') ∧ r'.code = 0 ∧
      kvdbLookup numberHash s' (numberedKey 4) none none = .ok r'' ∧ r''.code = 1) ∧
    ∃ r s,
      execAt numberHash (some (0 : Fin 3).val) (kvdbOpen 0) (.update (numberedKey 3) oneByte) =
        .ok (r, s) ∧ r.code = -1 ∧ kvdbSize s = 1 := by
  constructor
  · have hrun : ((execAt numberHash (some (1 : Fin 3).val) (kvdbOpen 0)
        (.insert (numberedKey 3) oneByte)).toOption.bind fun p =>
        (exec numberHash p.2 (.insert (numberedKey 4) oneByte)).toOption.bind fun q =>
        (kvdbLookup numberHash q.2 (numberedKey 4) none none).toOption.map fun r =>
        (p.2.kvraw.size, p.2.kvraw.logfs.length, q.1.code, r.code)) = some (18, 34, 0, 1) := by
      decide +kernel
    obtain ⟨⟨r, s⟩, hfail, hrun⟩ := Option.bind_eq_some_iff.mp hrun
    obtain ⟨⟨r', s'⟩, hinsert, hrun⟩ := Option.bind_eq_some_iff.mp hrun
    obtain ⟨r'', hlookup, heq⟩ := Option.map_eq_some_iff.mp hrun
    simp only [Prod.mk.injEq] at heq
    obtain ⟨hsize, hlen, hcode, hcode'⟩ := heq
    refine ⟨r, s, r', s', r'', toOption_eq_some.mp hfail, fun hatomic => ?_,
      toOption_eq_some.mp hinsert, hcode, toOption_eq_some.mp hlookup, hcode'⟩
    have hagree := hatomic.agree
    rw [hsize, hlen] at hagree
    exact absurd hagree (by decide)
  · have hrun : (execAt numberHash (some (0 : Fin 3).val) (kvdbOpen 0)
        (.update (numberedKey 3) oneByte)).toOption.map (fun p => (p.1.code, p.2.size)) =
        some (-1, 1) := by
      decide +kernel
    obtain ⟨⟨r, s⟩, hfail, heq⟩ := Option.map_eq_some_iff.mp hrun
    obtain ⟨hcode, hsize⟩ := Prod.mk.inj heq
    exact ⟨r, s, toOption_eq_some.mp hfail, hcode, hsize⟩

end Cs238p.P4
