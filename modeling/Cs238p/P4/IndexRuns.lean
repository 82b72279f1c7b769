import Mathlib.Data.Finset.Card
import Mathlib.Data.Finset.Range
import Cs238p.Lib.Transition
import Cs238p.P4.Index

set_option relaxedAutoImplicit false
set_option autoImplicit false

/-!
# The hash index refines a map

What a sequence of calls makes of the table is a map from hash values to offsets. The table counts
its entries.

## Main definitions

* `IndexOp`, `indexStep` — a call, and the table after it.
* `Index.occupied`, `Index.Counted` — the occupied slots, and `size` as their number.
* `OffsetMap`, `OffsetMap.next`, `mapOf` — the map, and what calls make of it.
* `Index.Represents` — the table has a slot for each entry of the map and no other ones.

## Main results

* `Index.Counted.grow`, `Index.Represents.indexStep` — what a call preserves.
* `index_refines_map` — every run.
-/

namespace Cs238p.P4

open Index OpenAddressing Transition

namespace Index

variable {index index' : Index} {key off i j n : ℕ}

/-! ## Counting the entries -/

/-- The occupied slots. -/
def occupied (index : Index) : Finset ℕ :=
  (Finset.range index.capacity).filter fun j => (index.maps j).key ≠ 0

/-- The field `size` is the number of occupied slots. -/
def Counted (index : Index) : Prop := index.size = index.occupied.card

lemma mem_occupied : j ∈ index.occupied ↔ j < index.capacity ∧ (index.maps j).key ≠ 0 := by
  rw [occupied, Finset.mem_filter, Finset.mem_range]

lemma updateLoop_cases (h : updateLoop index key n i = .ok (index', j)) :
    (∃ i', j = probe index.capacity key i') ∧
      ((index.maps j).key = key ∧ index' = index ∨ (index.maps j).key = 0 ∧
        index' = { index with
          size := index.size + 1, maps := Function.update index.maps j ⟨key, 0⟩ }) := by
  induction n generalizing i with
  | zero => simp [updateLoop] at h
  | succ n ih =>
    rw [updateLoop] at h
    split at h
    · next h0 =>
      simp only [Except.ok.injEq, Prod.mk.injEq] at h
      obtain ⟨rfl, rfl⟩ := h
      exact ⟨⟨i, rfl⟩, .inr ⟨h0, rfl⟩⟩
    · split at h
      · next hkey =>
        simp only [Except.ok.injEq, Prod.mk.injEq] at h
        obtain ⟨rfl, rfl⟩ := h
        exact ⟨⟨i, rfl⟩, .inl ⟨hkey, rfl⟩⟩
      · exact ih h

/-- **What `update` does when it returns**: it finds the key in a slot, or takes over an empty
one. -/
theorem update_cases (h : index.update key = .ok (index', j)) :
    j < index.capacity ∧
      ((index.maps j).key = key ∧ index' = index ∨ (index.maps j).key = 0 ∧
        index' = { index with
          size := index.size + 1, maps := Function.update index.maps j ⟨key, 0⟩ }) := by
  obtain ⟨⟨i', hprobe⟩, hcases⟩ := updateLoop_cases h
  refine ⟨?_, hcases⟩
  have hpos : 0 < index.capacity := by
    rcases Nat.eq_zero_or_pos index.capacity with h0 | hpos
    · rw [update, h0] at h
      simp [updateLoop] at h
    · exact hpos
  rw [hprobe]
  exact Nat.mod_lt _ hpos

lemma capacity_update (h : index.update key = .ok (index', j)) :
    index'.capacity = index.capacity := by
  obtain ⟨-, ⟨-, rfl⟩ | ⟨-, rfl⟩⟩ := update_cases h <;> rfl

@[simp] lemma capacity_setOff : (index.setOff j off).capacity = index.capacity := rfl

@[simp] lemma maps_setOff_self :
    (index.setOff j off).maps j = ⟨(index.maps j).key, off⟩ := Function.update_self _ _ _

lemma maps_setOff_of_ne (h : i ≠ j) : (index.setOff j off).maps i = index.maps i :=
  Function.update_of_ne h _ _

@[simp] lemma key_setOff : ((index.setOff j off).maps i).key = (index.maps i).key := by
  by_cases hi : i = j
  · rw [hi, maps_setOff_self]
  · rw [maps_setOff_of_ne hi]

@[simp] lemma occupied_setOff : (index.setOff j off).occupied = index.occupied := by
  ext i
  simp [mem_occupied]

/-- The occupied slots after `update`. -/
lemma occupied_update (hkey : key ≠ 0) (h : index.update key = .ok (index', j)) :
    index'.occupied = insert j index.occupied := by
  obtain ⟨hlt, ⟨hj, rfl⟩ | ⟨-, rfl⟩⟩ := update_cases h
  · rw [Finset.insert_eq_of_mem]
    exact mem_occupied.mpr ⟨hlt, by rwa [hj]⟩
  · ext i
    rw [Finset.mem_insert, mem_occupied, mem_occupied]
    by_cases hi : i = j
    · subst hi
      simpa using ⟨hlt, hkey⟩
    · simp [hi]

lemma counted_create (capacity : ℕ) : (create capacity).Counted := by
  simp [Counted, create, occupied]

/-- `update` counts a new entry. -/
lemma Counted.update (h : index.Counted) (hkey : key ≠ 0)
    (hup : index.update key = .ok (index', j)) : index'.Counted := by
  have hocc := occupied_update hkey hup
  obtain ⟨hlt, ⟨hj, rfl⟩ | ⟨hj, rfl⟩⟩ := update_cases hup
  · exact h
  · have hfresh : j ∉ index.occupied := fun hmem => (mem_occupied.mp hmem).2 hj
    rw [Counted, hocc, Finset.card_insert_of_notMem hfresh, ← h]

lemma Counted.setOff (h : index.Counted) : (index.setOff j off).Counted := by
  rw [Counted, occupied_setOff]
  exact h

lemma Counted.reinsert {index_ index_' : Index} (h : index_.Counted)
    (hre : Index.reinsert index index_ n = .ok index_') : index_'.Counted := by
  rcases reinsert_eq_ok hre with ⟨-, rfl⟩ | ⟨h0, index₁, j, hup, rfl⟩
  · exact h
  · exact (h.update h0 hup).setOff

/-- So does `grow`, which counts the entries again. -/
theorem Counted.grow (h : index.Counted) (hgrow : index.grow = .ok index') : index'.Counted := by
  rcases grow_rule (I := fun _ index_ => index_.Counted) counted_create
    (fun _ _ _ hcounted hre => hcounted.reinsert hre) hgrow with rfl | hcounted
  · exact h
  · exact hcounted

end Index

/-! ## The map -/

/-- A call of `index_update`, with the value that is then written through the returned pointer, if
any, or a call of `index_lookup`. -/
inductive IndexOp
  | update (key : List UInt8) (off : Option ℕ)
  | lookup (key : List UInt8)
  deriving DecidableEq, Repr

/-- The value is written through the pointer to `maps[j].off`, if there is one. -/
def Index.write (index : Index) (j : ℕ) : Option ℕ → Index
  | none => index
  | some off => index.setOff j off

variable (hash : List UInt8 → UInt64)

/-- The table after a call. A call that does not return is not a step. -/
def indexStep (index : Index) : IndexOp → Option Index
  | .update key off =>
    match indexUpdate hash index key with
    | .error _ => none
    | .ok (index', j) => some (index'.write j off)
  | .lookup key =>
    match indexLookup hash index key with
    | .error _ => none
    | .ok _ => some index

/-- A map from hash values to offsets. -/
abbrev OffsetMap := ℕ → Option ℕ

/-- The map after a call: an update enters `0` for a hash value that is not in the map. -/
def OffsetMap.next (m : OffsetMap) : IndexOp → OffsetMap
  | .update key off =>
    Function.update m (hashKey hash key) (some (off.getD ((m (hashKey hash key)).getD 0)))
  | .lookup _ => m

/-- The map after a sequence of calls. -/
def mapOf (ops : List IndexOp) : OffsetMap := ops.foldl (OffsetMap.next hash) fun _ => none

/-- The hash value that a call updates. -/
def IndexOp.updates : IndexOp → Option ℕ
  | .update key _ => some (hashKey hash key)
  | .lookup _ => none

/-- The value that a call writes for a hash value. -/
def IndexOp.writes (k : ℕ) : IndexOp → Option ℕ
  | .update key off => if hashKey hash key = k then off else none
  | .lookup _ => none

/-- The last value that is written for a hash value, `0` if there is none. -/
def lastWritten (ops : List IndexOp) (k : ℕ) : ℕ := (ops.filterMap (·.writes hash k)).getLastD 0

/-- The slot into which the pointer points that `index_lookup` returns. -/
def lookupSlot (index : Index) (key : List UInt8) : Except Stop (Option Slot) :=
  (indexLookup hash index key).map (Option.map index.maps)

/-- **The table represents the map**: it has a slot for every entry of the map, and no other
ones. -/
structure Index.Represents (index : Index) (m : OffsetMap) : Prop where
  placed : index.WellPlaced
  slot_iff : ∀ k ≠ 0, ∀ off, (∃ j, index.maps j = ⟨k, off⟩) ↔ m k = some off

variable {hash} {index index' : Index} {m : OffsetMap} {ops : List IndexOp} {op : IndexOp}
  {key : List UInt8} {k off j : ℕ}

@[simp] lemma updates_update {off : Option ℕ} :
    (IndexOp.update key off).updates hash = some (hashKey hash key) := rfl

@[simp] lemma updates_lookup : (IndexOp.lookup key).updates hash = none := rfl

@[simp] lemma writes_update {off : Option ℕ} :
    (IndexOp.update key off).writes hash k = if hashKey hash key = k then off else none := rfl

@[simp] lemma writes_lookup : (IndexOp.lookup key).writes hash k = none := rfl

/-- One more call writes a later value. -/
lemma lastWritten_concat (ops : List IndexOp) (op : IndexOp) (k : ℕ) :
    lastWritten hash (ops ++ [op]) k = (op.writes hash k).getD (lastWritten hash ops k) := by
  rw [lastWritten, List.filterMap_append]
  cases hw : op.writes hash k with
  | none => simp [hw, lastWritten]
  | some off => simp [hw]

/-- Nothing is written for a hash value that is not updated. -/
lemma lastWritten_of_not_updated (h : ¬ ∃ op ∈ ops, op.updates hash = some k) :
    lastWritten hash ops k = 0 := by
  have hnone : ops.filterMap (·.writes hash k) = [] := by
    apply List.filterMap_eq_nil_iff.mpr
    intro op hop
    cases op with
    | lookup key => rfl
    | update key off =>
      have hne : hashKey hash key ≠ k := fun heq => h ⟨_, hop, congrArg some heq⟩
      exact if_neg hne
  rw [lastWritten, hnone]
  rfl

/-- **What is in the map**: the hash values that were updated, with the last values written. -/
theorem mapOf_eq (ops : List IndexOp) (k : ℕ) : mapOf hash ops k =
    if ∃ op ∈ ops, op.updates hash = some k then some (lastWritten hash ops k) else none := by
  induction ops using List.reverseRecOn with
  | nil => simp [mapOf]
  | append_singleton ops op ih =>
    have hnext : mapOf hash (ops ++ [op]) = (mapOf hash ops).next hash op := by
      rw [mapOf, List.foldl_append]
      rfl
    have hexists : (∃ op' ∈ ops ++ [op], op'.updates hash = some k) ↔
        (∃ op' ∈ ops, op'.updates hash = some k) ∨ op.updates hash = some k := by
      simp only [List.mem_append, List.mem_singleton, or_and_right, exists_or, exists_eq_left]
    rw [hnext, lastWritten_concat]
    simp only [hexists]
    cases op with
    | lookup key => simpa [OffsetMap.next] using ih
    | update key off =>
      by_cases hk : hashKey hash key = k
      · subst hk
        have hget : (mapOf hash ops (hashKey hash key)).getD 0 =
            lastWritten hash ops (hashKey hash key) := by
          rw [ih]
          split
          · rfl
          · next hnot => exact (lastWritten_of_not_updated hnot).symm
        simp [OffsetMap.next, hget]
      · simp [OffsetMap.next, hk, Function.update_of_ne (Ne.symm hk), ih]

/-! ## What a call preserves -/

namespace Index

/-- No slot has a key that is not in the map. -/
lemma Represents.not_mem (h : index.Represents m) (hk : k ≠ 0) (hm : m k = none) (j : ℕ) :
    (index.maps j).key ≠ k := by
  intro hj
  have hslot := (h.slot_iff k hk (index.maps j).off).mp ⟨j, by rw [← hj]⟩
  rw [hm] at hslot
  exact Option.some_ne_none _ hslot.symm

lemma counted_indexOpen : indexOpen.Counted := by
  simp [Counted, occupied, indexOpen]

lemma represents_indexOpen : indexOpen.Represents fun _ => none where
  placed := wellPlaced_indexOpen
  slot_iff k hk off := by
    simp [indexOpen, Ne.symm hk]

/-- Two tables with the same entries represent the same maps. -/
lemma Represents.congr (h : index.Represents m) (hplaced : index'.WellPlaced)
    (hslots : ∀ k ≠ 0, ∀ off, (∃ j, index'.maps j = ⟨k, off⟩) ↔ ∃ j, index.maps j = ⟨k, off⟩) :
    index'.Represents m :=
  ⟨hplaced, fun k hk off => (hslots k hk off).trans (h.slot_iff k hk off)⟩

/-- **Growing the table does not change what it represents.** -/
theorem Represents.grow (h : index.Represents m) (hgrow : index.grow = .ok index') :
    index'.Represents m := by
  rcases grow_copied h.placed hgrow with rfl | hcopied
  · exact h
  · apply h.congr hcopied.placed
    intro k hk off
    constructor
    · rintro ⟨j, hj⟩
      obtain ⟨l, -, hl⟩ := hcopied.from_old j (by rwa [hj])
      exact ⟨l, hl.trans hj⟩
    · rintro ⟨j, hj⟩
      have hkey : (index.maps j).key ≠ 0 := by rwa [hj]
      obtain ⟨l, hl⟩ := hcopied.to_new j (h.placed.lt_capacity hkey) hkey
      exact ⟨l, hl.trans hj⟩

/-- `update` enters `0` for a key that is not in the map. -/
theorem Represents.update (h : index.Represents m) (hk : k ≠ 0)
    (hup : index.update k = .ok (index', j)) :
    index'.Represents (Function.update m k (some ((m k).getD 0))) ∧
      (index'.maps j).key = k := by
  obtain ⟨hplaced, -, hj, hother, hslot⟩ := update_eq_ok hk h.placed hup
  refine ⟨⟨hplaced, fun k' hk' off => ?_⟩, hj⟩
  rcases hslot with hsame | ⟨hnew, h0, hfresh⟩
  · have hmaps : index'.maps = index.maps := by
      funext l
      by_cases hl : l = j
      · rw [hl, hsame]
      · exact hother l hl
    have hm : m k = some (index.maps j).off := by
      apply (h.slot_iff k hk _).mp
      exact ⟨j, by rw [← hj, hsame]⟩
    rw [hm, Option.getD_some, ← hm, Function.update_eq_self, hmaps]
    exact h.slot_iff k' hk' off
  · have hm : m k = none := by
      cases hmk : m k with
      | none => rfl
      | some off' =>
        obtain ⟨l, hl⟩ := (h.slot_iff k hk off').mpr hmk
        exact absurd (by rw [hl]) (hfresh l)
    rw [hm, Option.getD_none]
    by_cases hkk : k' = k
    · subst hkk
      rw [Function.update_self, Option.some.injEq]
      constructor
      · rintro ⟨l, hl⟩
        by_cases hlj : l = j
        · rw [hlj, hnew] at hl
          exact (Slot.mk.inj hl).2
        · rw [hother l hlj] at hl
          exact absurd (by rw [hl]) (hfresh l)
      · rintro rfl
        exact ⟨j, hnew⟩
    · rw [Function.update_of_ne hkk, ← h.slot_iff k' hk' off]
      -- Neither the old slot `j` nor the new one has the key `k'`.
      have hne (l : ℕ) (hl : index'.maps l = ⟨k', off⟩ ∨ index.maps l = ⟨k', off⟩) : l ≠ j := by
        rintro rfl
        rcases hl with hl | hl
        · rw [hnew] at hl
          exact hkk (Slot.mk.inj hl).1.symm
        · rw [hl] at h0
          exact hk' h0
      constructor
      · rintro ⟨l, hl⟩
        exact ⟨l, by rw [← hother l (hne l (.inl hl)), hl]⟩
      · rintro ⟨l, hl⟩
        exact ⟨l, by rw [hother l (hne l (.inr hl)), hl]⟩

/-- A write through the pointer changes one entry of the map. -/
theorem Represents.setOff (h : index.Represents m) (hk : k ≠ 0) (hj : (index.maps j).key = k)
    (off : ℕ) : (index.setOff j off).Represents (Function.update m k (some off)) := by
  refine ⟨h.placed.setOff, fun k' hk' off' => ?_⟩
  by_cases hkk : k' = k
  · subst hkk
    rw [Function.update_self, Option.some.injEq]
    constructor
    · rintro ⟨l, hl⟩
      have hlk := congrArg Slot.key hl
      rw [key_setOff] at hlk
      obtain rfl := h.placed.unique hk hj hlk
      rw [maps_setOff_self] at hl
      exact (Slot.mk.inj hl).2
    · rintro rfl
      exact ⟨j, by rw [maps_setOff_self, hj]⟩
  · rw [Function.update_of_ne hkk, ← h.slot_iff k' hk' off']
    have hne (l : ℕ) (hl : (index.maps l).key = k') : l ≠ j := by
      rintro rfl
      exact hkk (hl.symm.trans hj)
    constructor
    · rintro ⟨l, hl⟩
      have hlk := congrArg Slot.key hl
      rw [key_setOff] at hlk
      have hlj := hne l hlk
      rw [maps_setOff_of_ne hlj] at hl
      exact ⟨l, hl⟩
    · rintro ⟨l, hl⟩
      have hlj := hne l (by rw [hl])
      exact ⟨l, by rw [maps_setOff_of_ne hlj, hl]⟩

end Index

/-- What holds between the table and the map at every point of a run. -/
def Index.Models (index : Index) (m : OffsetMap) : Prop := index.Represents m ∧ index.Counted

/-- **A call does to the table what it does to the map.** -/
theorem Index.Models.indexStep (h : index.Models m) (hs : indexStep hash index op = some index') :
    index'.Models (m.next hash op) := by
  obtain ⟨hrep, hcounted⟩ := h
  cases op with
  | lookup key =>
    rw [P4.indexStep] at hs
    split at hs
    · simp at hs
    · obtain rfl := Option.some.inj hs
      exact ⟨hrep, hcounted⟩
  | update key off =>
    rw [P4.indexStep] at hs
    split at hs
    · simp at hs
    · next index₁ j hup =>
      obtain rfl := Option.some.inj hs
      obtain ⟨grown, hgrow, hup⟩ := indexUpdate_eq_ok hup
      obtain ⟨hrep₁, hj⟩ := (hrep.grow hgrow).update hashKey_ne_zero hup
      have hcounted₁ := (hcounted.grow hgrow).update hashKey_ne_zero hup
      cases off with
      | none => exact ⟨hrep₁, hcounted₁⟩
      | some off =>
        refine ⟨?_, hcounted₁.setOff⟩
        have hset := hrep₁.setOff hashKey_ne_zero hj off
        rwa [Function.update_idem] at hset

/-- So does a run. -/
theorem models_run (h : index.Models m) (hrun : run (indexStep hash) index ops = some index') :
    index'.Models (ops.foldl (OffsetMap.next hash) m) := by
  induction ops generalizing index m with
  | nil =>
    obtain rfl := Option.some.inj hrun
    exact h
  | cons op ops ih =>
    obtain ⟨index₁, hs, hrun⟩ := run_cons_eq_some.mp hrun
    exact ih (h.indexStep hs) hrun

/-- **`index_lookup` finds what is in the map.** -/
theorem Index.Represents.lookupSlot (h : index.Represents m) (hkey : key.length ≠ 0) :
    lookupSlot hash index key =
      .ok ((m (hashKey hash key)).map (Slot.mk (hashKey hash key))) := by
  have hloop : (lookupLoop index (hashKey hash key) index.capacity 0).map index.maps =
      (m (hashKey hash key)).map (Slot.mk (hashKey hash key)) := by
    rw [lookupLoop_eq hashKey_ne_zero]
    cases hm : m (hashKey hash key) with
    | none =>
      have hnot := h.not_mem hashKey_ne_zero hm
      cases search (probe index.capacity (hashKey hash key)) index.keyAt (hashKey hash key)
        index.capacity 0 with
      | none => rfl
      | some j => simp only [hnot j, if_false, Option.map_none]
    | some off =>
      obtain ⟨j, hj⟩ := (h.slot_iff _ hashKey_ne_zero off).mpr hm
      have hjk : (index.maps j).key = hashKey hash key := by rw [hj]
      have hsearch := Placed.search_eq h.placed ((keyAt_eq_some hashKey_ne_zero).mpr hjk)
      simp only [hsearch, if_true, Option.map_some, hj]
  rw [P4.lookupSlot, indexLookup, if_neg hkey]
  exact congrArg Except.ok hloop

/-- What `lookupSlot` says about the pointer that `index_lookup` returns. -/
lemma indexLookup_of_lookupSlot {s : Option Slot} (h : lookupSlot hash index key = .ok s) :
    ∃ ref, indexLookup hash index key = .ok ref ∧ ref.map index.maps = s := by
  rw [lookupSlot] at h
  cases hl : indexLookup hash index key with
  | error stop => simp [hl, Except.map] at h
  | ok ref => exact ⟨ref, rfl, by simpa [hl, Except.map] using h⟩

/-- **The index refines a map**: after every sequence of calls that return, `index_lookup` returns
null if no key with the hash value was updated, and else a slot with the last value written for the
hash value. No hash value has two slots, `size` is the number of occupied ones, and growing the
table changes no lookup.

**Proof sketch.** The table represents the map that the calls describe: a call of `update` stops at
the slot of its key or fills an empty one, and behind the slots of other keys a search meets the
slot of a key before any empty one, since slots are never emptied. -/
theorem index_refines_map (hash : List UInt8 → UInt64) (ops : List IndexOp) (index : Index)
    (hrun : run (indexStep hash) indexOpen ops = some index) :
    (∀ key : List UInt8, key.length ≠ 0 →
      if ∃ op ∈ ops, op.updates hash = some (hashKey hash key) then
        ∃ j, indexLookup hash index key = .ok (some j) ∧
          index.maps j = ⟨hashKey hash key, lastWritten hash ops (hashKey hash key)⟩
      else indexLookup hash index key = .ok none) ∧
    (∀ i j, (index.maps i).key ≠ 0 → (index.maps i).key = (index.maps j).key → i = j) ∧
    index.size = index.occupied.card ∧
    ∀ grown, index.grow = .ok grown → ∀ key, lookupSlot hash grown key = lookupSlot hash index key
    := by
  obtain ⟨hrep, hcounted⟩ := models_run ⟨represents_indexOpen, counted_indexOpen⟩ hrun
  refine ⟨?_, ?_, hcounted, ?_⟩
  · intro key hkey
    obtain ⟨ref, href, hmap⟩ := indexLookup_of_lookupSlot (hrep.lookupSlot hkey)
    have hm : ops.foldl (OffsetMap.next hash) (fun _ => none) = mapOf hash ops := rfl
    rw [hm, mapOf_eq] at hmap
    split
    · next hup =>
      rw [if_pos hup] at hmap
      obtain ⟨j, rfl, hj⟩ := Option.map_eq_some_iff.mp hmap
      exact ⟨j, href, hj⟩
    · next hup =>
      rw [if_neg hup] at hmap
      rw [href, Option.map_eq_none_iff.mp hmap]
  · intro i j hi hij
    exact hrep.placed.unique hi rfl hij.symm
  · intro grown hgrow key
    by_cases hkey : key.length = 0
    · rw [lookupSlot, lookupSlot, indexLookup, indexLookup, if_pos hkey, if_pos hkey]
      rfl
    · rw [(hrep.grow hgrow).lookupSlot hkey, hrep.lookupSlot hkey]

/-- Three keys with one hash value. -/
theorem index_refines_map_collision : ∃ index j,
    run (indexStep fun _ => 7) indexOpen
      [.update [1] (some 18), .lookup [2], .update [2] none] = some index ∧
      indexLookup (fun _ => 7) index [3] = .ok (some j) ∧ index.maps j = ⟨7, 18⟩ := by
  have hsome : (run (indexStep fun _ => 7) indexOpen
      [.update [1] (some 18), .lookup [2], .update [2] none]).isSome = true := by decide
  obtain ⟨index, hrun⟩ := Option.isSome_iff_exists.mp hsome
  have hfound := (index_refines_map (fun _ => 7) _ index hrun).1 [3] (by decide)
  rw [if_pos ⟨.update [1] (some 18), by decide, by decide⟩] at hfound
  obtain ⟨j, hj, hslot⟩ := hfound
  exact ⟨index, j, hrun, hj, hslot⟩

end Cs238p.P4
