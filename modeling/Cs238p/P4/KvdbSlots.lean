import Cs238p.P4.KvdbAsserts

set_option relaxedAutoImplicit false
set_option autoImplicit false

/-!
# Stores that never run out of slots

An insertion into the index can reach `EXIT` though the table has empty slots, where the sum of a
hash value and the number of a probe overflows. This module shows that few hash values do not run
into this, and neither do any that stay below `2 ^ 64` by a little more than the capacity that the
table can grow to. So for such hash values every operation returns, and the store is the abstract
store but for the buffers of lookups that walk over longer values.

## Main definitions

* `Index.WithKeys` — the table holds only keys of a set, and is as large as growth makes it.
* `Index.hash` — the hash function of the source.
* `hashValues`, `Clear` — the hash values that operations look for, and the condition on them.
* `recordBytes` — what operations append at most.

## Main results

* `Index.WithKeys.grow`, `Index.WithKeys.indexUpdate` — a key of the set finds a slot, and the
  table stays as it is described.
* `answersCorrectly_of_clear` — every run of such operations over the ideal log.
-/

namespace Cs238p.P4

open Index Transition

namespace Index

/-- The table is spacious, its keys are those of a set, and its capacity is that of a table which
grew to hold them. -/
structure WithKeys (index : Index) (S : Finset ℕ) : Prop where
  spacious : index.Spacious
  subset : index.keys ⊆ S
  capacity_le : index.capacity ≤ 3 * S.card + 146
  le_capacity : index.capacity = 0 ∨ 145 ≤ index.capacity

end Index

/-- There are few hash values, or all of them are so far from `2 ^ 64` that no probe overflows. -/
def Clear (S : Finset ℕ) : Prop := 2 * S.card < 145 ∨ ∀ x ∈ S, x + (3 * S.card + 146) ≤ 2 ^ 64

instance (S : Finset ℕ) : Decidable (Clear S) := inferInstanceAs (Decidable (_ ∨ _))

/-- `x ^= y; y = (y << k) | (y >> (64 - k)); x += y`: the new `x` and `y`. -/
def Index.mix (x y k : UInt64) : UInt64 × UInt64 :=
  let x := x ^^^ y
  let y := y <<< k ||| y >>> (64 - k)
  (x + y, y)

/-- The body of the loop of `hash`, at a signed byte. -/
def Index.hashByte : UInt64 × UInt64 × UInt64 × UInt64 → UInt8 → UInt64 × UInt64 × UInt64 × UInt64
  | (a, b, c, d), p =>
    let p := if p < 128 then p.toUInt64 else p.toUInt64 + 0xffffffffffffff00
    let a := a + p * 592821132889
    let b := b + p * 963726515729
    let c := c + p * 1765037224331
    let d := d + p * 2428095424619
    let (d, c) := mix d c 15
    let (a, d) := mix a d 52
    let (b, a) := mix b a 26
    let (c, b) := mix c b 51
    let (d, c) := mix d c 28
    let (a, d) := mix a d 9
    let (b, a) := mix b a 47
    let (c, b) := mix c b 54
    let (d, c) := mix d c 32
    let (a, d) := mix a d 25
    let (b, a) := mix b a 63
    (a, b, c, d)

/-- `hash`. -/
def Index.hash (buf : List UInt8) : UInt64 :=
  let n := UInt64.ofNat buf.length * 414507281407
  let (a, b, c, d) := buf.foldl hashByte (n, n, n, n)
  a + b + c + d

/-- The hash values that operations look for. -/
def hashValues (hash : List UInt8 → UInt64) (ops : List Op) : Finset ℕ :=
  (ops.filterMap fun op => op.updates.map fun key : Key => hashKey hash key.1).toFinset

/-- The number of bytes of the records that operations append at most. -/
def recordBytes : List Op → ℕ
  | [] => 0
  | op :: ops => op.recordLen + recordBytes ops

namespace Index

variable {index index' grown : Index} {S : Finset ℕ} {key j : ℕ}

lemma withKeys_indexOpen (S : Finset ℕ) : indexOpen.WithKeys S where
  spacious := spacious_indexOpen
  subset := by simp [keys, occupied, indexOpen]
  capacity_le := Nat.zero_le _
  le_capacity := .inl rfl

/-- A table has at most as many entries as the set. -/
lemma WithKeys.size_le (h : index.WithKeys S) : index.size ≤ S.card := by
  have hcount : index.size = index.occupied.card := h.spacious.counted
  rw [hcount, ← card_keys h.spacious.placed]
  exact Finset.card_le_card h.subset

/-- A write through the returned pointer changes no key. -/
lemma WithKeys.setOff (h : index.WithKeys S) (j off : ℕ) : (index.setOff j off).WithKeys S where
  spacious := h.spacious.setOff
  subset := by
    have hkeys : (index.setOff j off).keys = index.keys := by
      rw [keys, keys, occupied_setOff]
      exact Finset.image_congr fun i _ => key_setOff
    rw [hkeys]
    exact h.subset
  capacity_le := h.capacity_le
  le_capacity := h.le_capacity

/-- What a loaded table grows to. -/
lemma grow_of_loaded (h : index.Spacious) (hloaded : index.Loaded) :
    ∃ grown, index.grow = .ok grown ∧ grown.keys ⊆ index.keys ∧
      grown.capacity = (index.capacity + 97) * 3 / 2 := by
  have hload := h.load
  have hcount : index.size = index.occupied.card := h.counted
  have hcap : 2 * index.occupied.card < (index.capacity + 97) * 3 / 2 + 2 := by omega
  obtain ⟨grown, hgrown, hcopied, hcap'⟩ := exists_copied h.placed h.keysFit hcap
  exact ⟨grown, by rw [Index.grow, if_pos hloaded, hgrown], hcopied.keys_subset (Nat.le_refl _),
    hcap'⟩

/-- **The table grows or has room for a key of the set.**

**Proof sketch.** A table that grows is less than half full, and so is one with few keys: then a key
has room even if its probes overflow. Otherwise the probes of the key do not overflow, and so visit
all slots. -/
theorem WithKeys.grow (h : index.WithKeys S) (hclear : Clear S) (hmem : key ∈ S)
    (hlt : key < 2 ^ 64) : ∃ grown, index.grow = .ok grown ∧ grown.WithKeys S ∧
      10 * grown.size ≤ 7 * grown.capacity ∧ grown.HasRoom key := by
  have hsize := h.size_le
  by_cases hloaded : index.Loaded
  · obtain ⟨grown, hgrow, hsubset, hcap⟩ := grow_of_loaded h.spacious hloaded
    obtain ⟨grown', hgrow', hspacious, hhalf, hload⟩ := h.spacious.grow hloaded
    obtain rfl : grown' = grown := Except.ok.inj (hgrow'.symm.trans hgrow)
    have hcount : grown'.size = grown'.occupied.card := hspacious.counted
    have hwith : grown'.WithKeys S := by
      refine ⟨hspacious, hsubset.trans h.subset, ?_, .inr ?_⟩
      · unfold Loaded at hloaded
        omega
      · omega
    exact ⟨grown', hgrow, hwith, hload,
      hasRoom_of_half hspacious.placed hspacious.keysFit hlt (by omega)⟩
  · have hload := (not_or.mp hloaded).2
    have hpos := (not_or.mp hloaded).1
    have hcount : index.size = index.occupied.card := h.spacious.counted
    refine ⟨index, by rw [Index.grow, if_neg hloaded], h, by omega, ?_⟩
    rcases hclear with hfew | hfar
    · have hlarge := h.le_capacity.resolve_left hpos
      exact hasRoom_of_half h.spacious.placed h.spacious.keysFit hlt (by omega)
    · have hfar := hfar key hmem
      have hsmall := h.capacity_le
      exact (hasRoom_iff_inReach h.spacious hlt hloaded).mpr (.inr (.inl (by omega)))

/-- `update` adds at most its key. -/
lemma keys_update (hup : index.update key = .ok (index', j)) :
    index'.keys ⊆ insert key index.keys := by
  obtain ⟨hj, ⟨-, rfl⟩ | ⟨-, rfl⟩⟩ := update_cases hup
  · exact Finset.subset_insert _ _
  · intro k hk
    obtain ⟨i, hi, rfl⟩ := Finset.mem_image.mp hk
    by_cases hij : i = j
    · subst hij
      simp
    · have hmaps : (Function.update index.maps j ⟨key, 0⟩) i = index.maps i :=
        Function.update_of_ne hij _ _
      rw [mem_occupied] at hi
      simp only [hmaps] at hi ⊢
      exact Finset.mem_insert_of_mem (Finset.mem_image.mpr ⟨i, mem_occupied.mpr hi, rfl⟩)

/-- **`index_update`** keeps the description of the table. -/
theorem WithKeys.indexUpdate {hash : List UInt8 → UInt64} {k : List UInt8} (h : index.WithKeys S)
    (hclear : Clear S) (hmem : hashKey hash k ∈ S)
    (hup : P4.indexUpdate hash index k = .ok (index', j)) : index'.WithKeys S := by
  have hlt : hashKey hash k < 2 ^ 64 := hashKey_lt
  obtain ⟨grown, hgrow, hwith, hload, -⟩ := h.grow hclear hmem hlt
  rw [P4.indexUpdate] at hup
  split at hup
  · simp at hup
  · rw [hgrow] at hup
    have hup : grown.update (hashKey hash k) = .ok (index', j) := hup
    refine ⟨hwith.spacious.update hashKey_ne_zero hlt hload hup, ?_, ?_, ?_⟩
    · exact (keys_update hup).trans (Finset.insert_subset hmem hwith.subset)
    · rw [capacity_update hup]
      exact hwith.capacity_le
    · rw [capacity_update hup]
      exact hwith.le_capacity

end Index

/-! ## The store -/

variable {hash : List UInt8 → UInt64} {kvdb kvdb' : Kvdb} {op : Op} {ops : List Op} {reply : Reply}
  {hist : List (List UInt8 × List UInt8)} {S : Finset ℕ}

/-- The hash values of an operation are in a set. -/
def Op.HashedIn (hash : List UInt8 → UInt64) (S : Finset ℕ) (op : Op) : Prop :=
  ∀ key, op.updates = some key → hashKey hash key ∈ S

lemma hashedIn_of_mem (h : op ∈ ops) : op.HashedIn hash (hashValues hash ops) := by
  intro key hkey
  rw [hashValues, List.mem_toFinset, List.mem_filterMap]
  exact ⟨op, h, by rw [hkey, Option.map_some]⟩

/-- An operation that appends a record looks for a key. -/
lemma Op.updates_of_mutation {mode : Mode} {k : Key} {val : List UInt8}
    (h : op.mutation = some (mode, k, val)) :
    op.updates = some k ∧ op.recordLen = 16 + k.1.length + val.length := by
  cases op with
  | lookup key buf => simp [Op.mutation] at h
  | remove key buf =>
    obtain ⟨-, rfl, rfl⟩ := by simpa [Op.mutation] using h
    exact ⟨rfl, rfl⟩
  | insert key v =>
    obtain ⟨-, rfl, rfl⟩ := by simpa [Op.mutation] using h
    exact ⟨rfl, rfl⟩
  | update key v =>
    obtain ⟨-, rfl, rfl⟩ := by simpa [Op.mutation] using h
    exact ⟨rfl, rfl⟩
  | replace key v =>
    obtain ⟨-, rfl, rfl⟩ := by simpa [Op.mutation] using h
    exact ⟨rfl, rfl⟩

/-- **An operation** keeps the description of the index, and appends at most its record. -/
theorem Inv.exec_withKeys (h : Inv hash kvdb hist) (hwith : kvdb.index.WithKeys S)
    (hclear : Clear S) (hop : op.HashedIn hash S)
    (hres : exec hash kvdb op = .ok (reply, kvdb')) :
    kvdb'.index.WithKeys S ∧
      kvdb'.kvraw.logfs.length ≤ kvdb.kvraw.logfs.length + op.recordLen := by
  rcases h.exec_cases hres with ⟨-, rfl, -⟩ | ⟨mode, k, val, index, ref, hmut, hup, hcase⟩
  · exact ⟨hwith, Nat.le_add_right _ _⟩
  · obtain ⟨hupdates, hlen⟩ := Op.updates_of_mutation hmut
    have hindex := hwith.indexUpdate hclear (hop k hupdates) hup
    rcases hcase with ⟨-, -, rfl⟩ | ⟨-, -, rfl⟩
    · rw [index_after, kvraw_after, Kvdb.appended, kvraw_before, index_before]
      refine ⟨hindex.setOff ref _, ?_⟩
      rw [List.length_append, Record.length_bytes, hlen]
    · exact ⟨hindex, Nat.le_add_right _ _⟩

/-- The insertion of a clear operation finds a slot. -/
lemma Index.WithKeys.findsSlot {s : Kvdb × Map} (hwith : s.1.index.WithKeys S) (hclear : Clear S)
    (hop : op.HashedIn hash S) : FindsSlot hash s op := by
  intro key hkey
  obtain ⟨grown, hgrow, -, -, hroom⟩ := hwith.grow hclear (hop key hkey) hashKey_lt
  exact ⟨grown, hgrow, hroom⟩

/-- Clear operations one after another have room in the log and in the index. -/
lemma Refines.always_room {s : Kvdb × Map} (h : Refines hash s) (hwith : s.1.index.WithKeys S)
    (hclear : Clear S) (hops : ∀ op ∈ ops, op.HashedIn hash S)
    (hlen : s.1.kvraw.logfs.length + recordBytes ops < 2 ^ 64) :
    Always (step hash) (fun s op => LogFits s op ∧ FindsSlot hash s op) s ops := by
  induction ops generalizing s with
  | nil => trivial
  | cons op ops ih =>
    rw [recordBytes] at hlen
    have hop := hops op List.mem_cons_self
    have hfits : LogFits s op := by
      show s.1.kvraw.logfs.length + op.recordLen < 2 ^ 64
      omega
    have hslot := hwith.findsSlot hclear hop
    obtain ⟨reply, kvdb', hres, -, h'⟩ := h.exec hfits hslot
    refine ⟨⟨hfits, hslot⟩, fun s' hs' => ?_⟩
    rw [step, hres] at hs'
    obtain rfl := Option.some.inj hs'
    obtain ⟨hist, hinv, -⟩ := id h
    obtain ⟨hwith', hle⟩ := hinv.exec_withKeys hwith hclear hop hres
    refine ih h' hwith' (fun op hmem => hops op (List.mem_cons_of_mem _ hmem)) ?_
    show kvdb'.kvraw.logfs.length + recordBytes ops < 2 ^ 64
    omega

/-- The log after `kvdb_open`. -/
lemma length_logfs_kvdbOpen (off : ℕ) : (kvdbOpen off).kvraw.logfs.length = 18 := by
  have hopen : kvrawOpen off = ⟨18, (Record.mk off [0] [0]).bytes⟩ := by
    rw [kvrawOpen, kvrawAppend_eq _ _ (by decide) (by decide) (by decide)]
    rfl
  rw [kvdbOpen, hopen, Record.length_bytes]
  rfl

/-- So they have after `kvdb_open`. -/
lemma always_room_of_clear (off : ℕ) (hclear : Clear (hashValues hash ops))
    (hlen : 18 + recordBytes ops < 2 ^ 64) :
    Always (step hash) (fun s op => LogFits s op ∧ FindsSlot hash s op) (start off) ops := by
  refine Refines.always_room ⟨[], inv_kvdbOpen off, rfl⟩
    (withKeys_indexOpen (hashValues hash ops)) hclear (fun op hmem => hashedIn_of_mem hmem) ?_
  rw [start, length_logfs_kvdbOpen]
  exact hlen

/-- **Every run of clear operations returns**, if the records of the operations fit into a log of
less than `2 ^ 64` bytes behind the dummy record of `kvdb_open`, **and answers like the abstract
store** if and only if the values that lookups walk over spare the buffers.

**Proof sketch.** Induction on the operations: the index has only their hash values, so that each
insertion finds a slot, and the log grows by at most their records. -/
theorem answersCorrectly_of_clear (hash : List UInt8 → UInt64) (off : ℕ) (ops : List Op)
    (hclear : Clear (hashValues hash ops)) (hlen : 18 + recordBytes ops < 2 ^ 64) :
    (∃ s, run (step hash) (start off) ops = some s) ∧
      (Always (step hash) (AnswersCorrectly hash) (start off) ops ↔
        Always (step hash) (Spared hash) (start off) ops) := by
  have hroom := always_room_of_clear off hclear hlen
  have hstart : Refines hash (start off) := ⟨[], inv_kvdbOpen off, rfl⟩
  have hstep (s : Kvdb × Map) (op : Op) (h : Refines hash s)
      (hop : LogFits s op ∧ FindsSlot hash s op) :
      ∃ s', step hash s op = some s' ∧ Refines hash s' := by
    obtain ⟨reply, kvdb', hres, -, h'⟩ := h.exec hop.1 hop.2
    exact ⟨(kvdb', specNext s.2 op), by rw [step, hres], h'⟩
  constructor
  · obtain ⟨s, hs, -⟩ := progress_run hstep hstart hroom
    exact ⟨s, hs⟩
  · refine always_congr_of_invariant (I := Refines hash) ?_ ?_ hstart hroom
    · intro s op s' h hop _ hs'
      exact h.of_step hop.1 hop.2 hs'
    · rintro s op h ⟨hfits, hslot⟩
      rw [h.answersCorrectly_iff hfits, and_iff_right hslot]

/-- Two hundred keys, for which the table grows twice, and lookups of the two with the same hash
value. -/
theorem answersCorrectly_of_clear_bytes :
    let ops : List Op := ((List.range 200).map fun n => .insert (numberedKey n) oneByte) ++
      [.lookup (numberedKey 0) (some [0, 0]), .lookup (numberedKey 1) (some [0, 0])]
    Always (step numberHash) (AnswersCorrectly numberHash) (start 0) ops := by
  intro ops
  obtain ⟨-, hiff⟩ :=
    answersCorrectly_of_clear numberHash 0 ops (by decide +kernel) (by decide +kernel)
  exact hiff.mpr (by decide +kernel)

end Cs238p.P4
