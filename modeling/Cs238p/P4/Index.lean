import Mathlib.Algebra.Order.Ring.Int
import Cs238p.Lib.OpenAddressing
import Cs238p.Lib.RangeFold

set_option relaxedAutoImplicit false
set_option autoImplicit false

/-!
# The hash index of `p4/index.c`

A table with open addressing from 64-bit hash values to offsets. The value `0` marks an empty slot
and is never used as a key.

## Main definitions

* `Index`, `Slot` — `struct index` and the entries of its `maps`.
* `Index.update`, `Index.grow`, `indexUpdate`, `indexLookup` — as in the source.
* `Index.Holds` — the offset that the table holds for a key, `0` if it has no slot.

## Main results

* `holds_indexUpdate` — `index_update` keeps what the table holds and returns the slot of the key.
* `Index.holds_setOff` — a write through the returned pointer changes what is held for that key.
* `indexLookup_eq` — `index_lookup` finds what the table holds.

## Implementation notes

The hash function is a parameter. Memory allocations succeed, so the capacity is bounded by the
memory and its arithmetic does not overflow. The load factor is compared as an exact fraction. Of
the pointer to `maps[j].off` that the functions return, the model returns `j`.
-/

namespace Cs238p.P4

open OpenAddressing

/-- Arithmetic of type `uint64_t`. -/
def u64 (n : ℕ) : ℕ := n % 2 ^ 64

/-- Why a call does not return: a failed assertion, `EXIT`, or a loop that does not end. -/
inductive Stop
  | assertion
  | exit
  | diverges
  deriving DecidableEq, Repr

/-- An entry of `maps`. -/
structure Slot where
  key : ℕ
  off : ℕ
  deriving DecidableEq, Repr

/-- `struct index`. -/
structure Index where
  size : ℕ
  capacity : ℕ
  maps : ℕ → Slot

namespace Index

/-- `create`. -/
def create (capacity : ℕ) : Index := ⟨0, capacity, fun _ => ⟨0, 0⟩⟩

/-- The slot of probe number `i`. -/
def probe (capacity key i : ℕ) : ℕ := u64 (key + i) % capacity

/-- The loop of `update`, with the number of probes left. -/
def updateLoop (index : Index) (key : ℕ) : ℕ → ℕ → Except Stop (Index × ℕ)
  | 0, _ => .error .exit
  | n + 1, i =>
    let j := probe index.capacity key i
    if (index.maps j).key = 0 then
      .ok ({ index with size := index.size + 1, maps := Function.update index.maps j ⟨key, 0⟩ }, j)
    else if (index.maps j).key = key then .ok (index, j)
    else updateLoop index key n (i + 1)

/-- `update`. -/
def update (index : Index) (key : ℕ) : Except Stop (Index × ℕ) :=
  updateLoop index key index.capacity 0

/-- A write through the pointer to `maps[j].off`. -/
def setOff (index : Index) (j off : ℕ) : Index :=
  { index with maps := Function.update index.maps j ⟨(index.maps j).key, off⟩ }

/-- The offset that a returned pointer points to, `0` for the null pointer. -/
def deref (index : Index) : Option ℕ → ℕ
  | none => 0
  | some j => (index.maps j).off

/-- The load factor exceeds `LOAD`. -/
def Loaded (index : Index) : Prop := index.capacity = 0 ∨ 70 * index.capacity < 100 * index.size

instance (index : Index) : Decidable index.Loaded := inferInstanceAs (Decidable (_ ∨ _))

/-- The body of the loop of `grow`: the entry in slot `i` is inserted into the new table. -/
def reinsert (index index_ : Index) (i : ℕ) : Except Stop Index :=
  if (index.maps i).key = 0 then .ok index_
  else
    match update index_ (index.maps i).key with
    | .error stop => .error stop
    | .ok (index_, j) => .ok (index_.setOff j (index.maps i).off)

/-- `grow`. -/
def grow (index : Index) : Except Stop Index :=
  if index.Loaded then
    (List.range index.capacity).foldlM (reinsert index)
      (create ((index.capacity + 97) * 3 / 2))
  else .ok index

end Index

/-- `index_open`. -/
def indexOpen : Index := ⟨0, 0, fun _ => ⟨0, 0⟩⟩

variable (hash : List UInt8 → UInt64)

/-- The hash value of a key, with `0` replaced by `1`. -/
def hashKey (key : List UInt8) : ℕ :=
  let h := (hash key).toNat
  if h ≠ 0 then h else h + 1

/-- `index_update`. -/
def indexUpdate (index : Index) (key : List UInt8) : Except Stop (Index × ℕ) :=
  if key.length = 0 then .error .assertion
  else
    match index.grow with
    | .error stop => .error stop
    | .ok index => index.update (hashKey hash key)

/-- The loop of `index_lookup`. -/
def lookupLoop (index : Index) (key : ℕ) : ℕ → ℕ → Option ℕ
  | 0, _ => none
  | n + 1, i =>
    let j := Index.probe index.capacity key i
    if (index.maps j).key = 0 then none
    else if (index.maps j).key = key then some j
    else lookupLoop index key n (i + 1)

/-- `index_lookup`. -/
def indexLookup (index : Index) (key : List UInt8) : Except Stop (Option ℕ) :=
  if key.length = 0 then .error .assertion
  else .ok (lookupLoop index (hashKey hash key) index.capacity 0)

/-! ## The table as a map -/

namespace Index

/-- The key in a slot. -/
def keyAt (index : Index) (j : ℕ) : Option ℕ :=
  if (index.maps j).key = 0 then none else some (index.maps j).key

/-- Every key is reached by its probes. -/
def WellPlaced (index : Index) : Prop :=
  Placed (probe index.capacity) index.capacity index.keyAt

/-- The table holds the offset for the key, `0` if no slot has the key. -/
def Holds (index : Index) (key off : ℕ) : Prop :=
  (∃ j, index.maps j = ⟨key, off⟩) ∨ (∀ j, (index.maps j).key ≠ key) ∧ off = 0

variable {index index' : Index} {key key' off off' i j n : ℕ}

lemma keyAt_eq_some (hkey : key ≠ 0) : index.keyAt j = some key ↔ (index.maps j).key = key := by
  rw [keyAt]
  split
  · next h0 =>
    rw [h0]
    simp [Ne.symm hkey]
  · simp

lemma keyAt_eq_none : index.keyAt j = none ↔ (index.maps j).key = 0 := by
  rw [keyAt]
  split <;> simp_all

/-- The slot in which a key is put: it is searched, and taken over if it is empty. -/
lemma updateLoop_eq (hkey : key ≠ 0) : updateLoop index key n i =
    match search (probe index.capacity key) index.keyAt key n i with
    | none => .error .exit
    | some j =>
      if (index.maps j).key = 0 then
        .ok ({ index with
          size := index.size + 1, maps := Function.update index.maps j ⟨key, 0⟩ }, j)
      else .ok (index, j) := by
  induction n generalizing i with
  | zero => rfl
  | succ n ih =>
    rw [updateLoop, search]
    by_cases h0 : (index.maps (probe index.capacity key i)).key = 0
    · simp only [h0, if_true, keyAt_eq_none.mpr h0]
    · have hsome : index.keyAt (probe index.capacity key i) =
          some (index.maps (probe index.capacity key i)).key := by
        rw [keyAt, if_neg h0]
      simp only [h0, if_false, hsome]
      by_cases heq : (index.maps (probe index.capacity key i)).key = key
      · simp only [heq, if_true, hkey, if_false]
      · simp only [heq, if_false, ih]

/-- A lookup is a search that ends at the key. -/
lemma lookupLoop_eq (hkey : key ≠ 0) : lookupLoop index key n i =
    match search (probe index.capacity key) index.keyAt key n i with
    | none => none
    | some j => if (index.maps j).key = key then some j else none := by
  induction n generalizing i with
  | zero => rfl
  | succ n ih =>
    rw [lookupLoop, search]
    by_cases h0 : (index.maps (probe index.capacity key i)).key = 0
    · simp only [h0, if_true, keyAt_eq_none.mpr h0, Ne.symm hkey, if_false]
    · have hsome : index.keyAt (probe index.capacity key i) =
          some (index.maps (probe index.capacity key i)).key := by
        rw [keyAt, if_neg h0]
      simp only [h0, if_false, hsome]
      by_cases heq : (index.maps (probe index.capacity key i)).key = key
      · simp only [heq, if_true]
      · simp only [heq, if_false, ih]

/-- A key is in one slot only. -/
lemma WellPlaced.unique (h : index.WellPlaced) (hkey : key ≠ 0)
    (hj : (index.maps i).key = key) (hj' : (index.maps j).key = key) : i = j :=
  Placed.unique h ((keyAt_eq_some hkey).mpr hj) ((keyAt_eq_some hkey).mpr hj')

/-- The table holds one offset for a key. -/
lemma WellPlaced.holds_unique (h : index.WellPlaced) (hkey : key ≠ 0) (hoff : index.Holds key off)
    (hoff' : index.Holds key off') : off = off' := by
  rcases hoff with ⟨j, hj⟩ | ⟨hnone, rfl⟩ <;> rcases hoff' with ⟨j', hj'⟩ | ⟨hnone', rfl⟩
  · obtain rfl := h.unique hkey (by rw [hj]) (by rw [hj'])
    rw [hj] at hj'
    exact (Slot.mk.inj hj').2
  · exact absurd (by rw [hj]) (hnone' j)
  · exact absurd (by rw [hj']) (hnone j')
  · rfl

/-- What the table holds for some key. -/
lemma exists_holds (index : Index) (key : ℕ) : ∃ off, index.Holds key off := by
  by_cases h : ∃ j, (index.maps j).key = key
  · obtain ⟨j, rfl⟩ := h
    exact ⟨_, .inl ⟨j, rfl⟩⟩
  · exact ⟨0, .inr ⟨fun j hj => h ⟨j, hj⟩, rfl⟩⟩

/-- What `update` does when it finds a slot: the key has the slot `j`, a new one holds `0`, and
nothing else changes. -/
lemma update_eq_ok (hkey : key ≠ 0) (hplaced : index.WellPlaced)
    (h : index.update key = .ok (index', j)) :
    index'.WellPlaced ∧ index'.capacity = index.capacity ∧ (index'.maps j).key = key ∧
      (∀ l ≠ j, index'.maps l = index.maps l) ∧
      (index'.maps j = index.maps j ∨ index'.maps j = ⟨key, 0⟩ ∧ (index.maps j).key = 0 ∧
        ∀ l, (index.maps l).key ≠ key) := by
  rw [update, updateLoop_eq hkey] at h
  cases hsearch : search (probe index.capacity key) index.keyAt key index.capacity 0 with
  | none => simp [hsearch] at h
  | some l =>
    simp only [hsearch] at h
    split at h
    · next h0 =>
      simp only [Except.ok.injEq, Prod.mk.injEq] at h
      obtain ⟨rfl, rfl⟩ := h
      have hkeyAt : keyAt { index with
          size := index.size + 1, maps := Function.update index.maps l ⟨key, 0⟩ } =
          Function.update index.keyAt l (some key) := by
        funext m
        by_cases hm : m = l
        · subst hm
          simp [keyAt, hkey]
        · simp [keyAt, Function.update_of_ne hm]
      refine ⟨?_, rfl, by simp, fun m hm => Function.update_of_ne hm _ _, .inr ⟨by simp, h0, ?_⟩⟩
      · rw [WellPlaced, hkeyAt]
        exact Placed.update hplaced hsearch
      · intro m hm
        have hnot := Placed.not_stored hplaced (fun l' hl' => by
          rw [hsearch] at hl'
          obtain rfl := Option.some.inj hl'
          exact keyAt_eq_none.mpr h0) m
        exact hnot ((keyAt_eq_some hkey).mpr hm)
    · next h0 =>
      simp only [Except.ok.injEq, Prod.mk.injEq] at h
      obtain ⟨rfl, rfl⟩ := h
      obtain ⟨-, -, -, -, hstop, -⟩ := search_eq_some hsearch
      refine ⟨hplaced, rfl, ?_, fun _ _ => rfl, .inl rfl⟩
      rcases hstop with hstop | hstop
      · exact absurd (keyAt_eq_none.mp hstop) h0
      · exact (keyAt_eq_some hkey).mp hstop

/-- Some probe of the key is empty or holds it. -/
def HasRoom (index : Index) (key : ℕ) : Prop :=
  ∃ i < index.capacity, (index.maps (probe index.capacity key i)).key = 0 ∨
    (index.maps (probe index.capacity key i)).key = key

/-- **`update` finds a slot if and only if some probe is empty or holds the key.** -/
theorem update_isOk_iff (index : Index) (key : ℕ) :
    (∃ res, index.update key = .ok res) ↔ index.HasRoom key := by
  have hloop (n i : ℕ) : (∃ res, updateLoop index key n i = .ok res) ↔
      ∃ i', i ≤ i' ∧ i' < i + n ∧ ((index.maps (probe index.capacity key i')).key = 0 ∨
        (index.maps (probe index.capacity key i')).key = key) := by
    induction n generalizing i with
    | zero =>
      constructor
      · rintro ⟨res, hres⟩
        exact absurd hres (by simp [updateLoop])
      · rintro ⟨i', hle, hlt, -⟩
        omega
    | succ n ih =>
      rw [updateLoop]
      by_cases h : (index.maps (probe index.capacity key i)).key = 0 ∨
          (index.maps (probe index.capacity key i)).key = key
      · constructor
        · intro _
          exact ⟨i, Nat.le_refl i, by omega, h⟩
        · intro _
          by_cases h0 : (index.maps (probe index.capacity key i)).key = 0
          · exact ⟨_, if_pos h0⟩
          · exact ⟨_, (if_neg h0).trans (if_pos (h.resolve_left h0))⟩
      · obtain ⟨h0, hkey⟩ := not_or.mp h
        simp only [h0, hkey, if_false]
        rw [ih]
        constructor
        · rintro ⟨i', hle, hlt, hi'⟩
          exact ⟨i', by omega, by omega, hi'⟩
        · rintro ⟨i', hle, hlt, hi'⟩
          have hne : i' ≠ i := by
            rintro rfl
            exact h hi'
          exact ⟨i', by omega, by omega, hi'⟩
  rw [update, hloop, HasRoom]
  simp only [Nat.zero_le, true_and, Nat.zero_add]

/-- `update` keeps what the table holds. -/
lemma holds_update (hkey : key ≠ 0) (hplaced : index.WellPlaced)
    (h : index.update key = .ok (index', j)) (hkey' : key' ≠ 0) (hoff : index.Holds key' off) :
    index'.Holds key' off := by
  obtain ⟨-, -, hj, hother, hslot⟩ := update_eq_ok hkey hplaced h
  rcases hoff with ⟨l, hl⟩ | ⟨hnone, rfl⟩
  · refine .inl ⟨l, ?_⟩
    by_cases hlj : l = j
    · subst hlj
      rcases hslot with hslot | ⟨-, h0, -⟩
      · rw [hslot, hl]
      · rw [hl] at h0
        exact absurd h0 hkey'
    · rw [hother l hlj, hl]
  · by_cases hkk : key' = key
    · subst hkk
      refine .inl ⟨j, ?_⟩
      rcases hslot with hslot | ⟨hslot, -⟩
      · exact absurd (by rw [← hslot, hj]) (hnone j)
      · exact hslot
    · refine .inr ⟨fun l hl => ?_, rfl⟩
      by_cases hlj : l = j
      · subst hlj
        exact hkk (hl.symm.trans hj)
      · rw [hother l hlj] at hl
        exact hnone l hl

@[simp] lemma keyAt_setOff : (index.setOff j off).keyAt = index.keyAt := by
  funext l
  by_cases hl : l = j
  · subst hl
    simp [keyAt, setOff]
  · simp [keyAt, setOff, Function.update_of_ne hl]

lemma WellPlaced.setOff (h : index.WellPlaced) : (index.setOff j off).WellPlaced := by
  rw [WellPlaced, keyAt_setOff]
  exact h

/-- **A write through the pointer** changes what is held for the key of the slot only. -/
lemma holds_setOff (off : ℕ) (hj : (index.maps j).key = key) :
    (index.setOff j off).Holds key off ∧
      ∀ key' ≠ key, ∀ off', index.Holds key' off' → (index.setOff j off).Holds key' off' := by
  refine ⟨.inl ⟨j, by simp [Index.setOff, hj]⟩, fun key' hne off' hoff => ?_⟩
  rcases hoff with ⟨l, hl⟩ | ⟨hnone, rfl⟩
  · have hlj : l ≠ j := by
      rintro rfl
      rw [hl] at hj
      exact hne hj
    exact .inl ⟨l, by rw [Index.setOff]; simp only [Function.update_of_ne hlj, hl]⟩
  · refine .inr ⟨fun l => ?_, rfl⟩
    by_cases hlj : l = j
    · subst hlj
      simpa [Index.setOff, hj] using Ne.symm hne
    · simpa [Index.setOff, Function.update_of_ne hlj] using hnone l

/-! ## Growth -/

/-- The table `index_` holds the entries of the first `n` slots of `index`. -/
structure Copied (index index_ : Index) (n : ℕ) : Prop where
  placed : index_.WellPlaced
  from_old : ∀ j, (index_.maps j).key ≠ 0 → ∃ l < n, index.maps l = index_.maps j
  to_new : ∀ l < n, (index.maps l).key ≠ 0 → ∃ j, index_.maps j = index.maps l

/-- The empty table. -/
lemma copied_create (index : Index) (capacity : ℕ) : Copied index (create capacity) 0 where
  placed := by
    intro j k hj
    simp [keyAt, create] at hj
  from_old := by simp [create]
  to_new := by simp

/-- What a round of the loop of `grow` does. -/
lemma reinsert_eq_ok {index_ index_' : Index} (h : index.reinsert index_ n = .ok index_') :
    (index.maps n).key = 0 ∧ index_' = index_ ∨
      (index.maps n).key ≠ 0 ∧ ∃ index₁ j, index_.update (index.maps n).key = .ok (index₁, j) ∧
        index_' = index₁.setOff j (index.maps n).off := by
  rw [reinsert] at h
  split at h
  · next h0 => exact .inl ⟨h0, (Except.ok.inj h).symm⟩
  · next h0 =>
    split at h
    · simp at h
    · next hup => exact .inr ⟨h0, _, _, hup, (Except.ok.inj h).symm⟩

/-- **The rule for `grow`**: it keeps the table, or what its rounds preserve holds of the new
one. -/
theorem grow_rule {I : ℕ → Index → Prop} (h0 : ∀ capacity, I 0 (create capacity))
    (hstep : ∀ i index_ index_', I i index_ → index.reinsert index_ i = .ok index_' →
      I (i + 1) index_') (h : index.grow = .ok index') :
    index' = index ∨ I index.capacity index' := by
  rw [grow] at h
  split at h
  · exact .inr (RangeFold.invariant (h0 _) (fun i _ => hstep i) h)
  · exact .inl (Except.ok.inj h).symm

/-- One round of the loop of `grow`. -/
lemma Copied.reinsert {index_ index_' : Index} (hplaced : index.WellPlaced)
    (h : Copied index index_ n) (hre : Index.reinsert index index_ n = .ok index_') :
    Copied index index_' (n + 1) := by
  rcases reinsert_eq_ok hre with ⟨h0, rfl⟩ | ⟨h0, index₁, j, hup, rfl⟩
  · refine ⟨h.placed, fun j hj => ?_, fun l hl hkey => ?_⟩
    · obtain ⟨l, hl, heq⟩ := h.from_old j hj
      exact ⟨l, by omega, heq⟩
    · have hln : l ≠ n := by
        rintro rfl
        exact hkey h0
      exact h.to_new l (by omega) hkey
  · obtain ⟨hplaced₁, -, hj, hother, hslot⟩ := update_eq_ok h0 h.placed hup
    -- The key is not in the new table yet, since a slot below `n` would hold it a second time.
    have hfresh (l : ℕ) : (index_.maps l).key ≠ (index.maps n).key := by
      intro hl
      obtain ⟨l', hl', heq⟩ := h.from_old l (by rw [hl]; exact h0)
      have hsame := hplaced.unique (i := l') (j := n) h0 (by rw [heq, hl]) rfl
      omega
    have hempty : index₁.maps j = ⟨(index.maps n).key, 0⟩ := by
      rcases hslot with hslot | ⟨hslot, -⟩
      · exact absurd (by rw [← hslot, hj]) (hfresh j)
      · exact hslot
    have hmaps : (index₁.setOff j (index.maps n).off).maps =
        Function.update index₁.maps j (index.maps n) := by
      rw [setOff, hempty]
    have hj0 : (index_.maps j).key = 0 := by
      rcases hslot with hslot | ⟨-, h0', -⟩
      · exact absurd (by rw [← hslot, hj]) (hfresh j)
      · exact h0'
    refine ⟨hplaced₁.setOff, fun l hl => ?_, fun l hl hkey => ?_⟩
    · rw [hmaps] at hl ⊢
      by_cases hlj : l = j
      · subst hlj
        exact ⟨n, Nat.lt_succ_self n, by rw [Function.update_self]⟩
      · rw [Function.update_of_ne hlj, hother l hlj] at hl ⊢
        obtain ⟨l', hl', heq⟩ := h.from_old l hl
        exact ⟨l', by omega, heq⟩
    · rw [hmaps]
      by_cases hln : l = n
      · subst hln
        exact ⟨j, Function.update_self _ _ _⟩
      · obtain ⟨m, hm⟩ := h.to_new l (by omega) hkey
        have hmj : m ≠ j := by
          rintro rfl
          rw [hm] at hj0
          exact hkey hj0
        exact ⟨m, by rw [Function.update_of_ne hmj, hother m hmj, hm]⟩

/-- The table that `grow` fills, if it does not keep the old one. -/
lemma grow_copied (hplaced : index.WellPlaced) (h : index.grow = .ok index') :
    index' = index ∨ Copied index index' index.capacity :=
  grow_rule (I := fun n index_ => Copied index index_ n) (copied_create index)
    (fun _ _ _ hcopied hre => hcopied.reinsert hplaced hre) h

/-- Only slots below the capacity are used. -/
lemma WellPlaced.lt_capacity (h : index.WellPlaced) (hj : (index.maps j).key ≠ 0) :
    j < index.capacity := by
  obtain ⟨i, hi, hprobe, -⟩ := h j _ ((keyAt_eq_some hj).mpr rfl)
  rw [← hprobe]
  exact Nat.mod_lt _ (by omega)

/-- **Growing the table changes nothing that it holds.** -/
theorem holds_grow (hplaced : index.WellPlaced) (h : index.grow = .ok index') :
    index'.WellPlaced ∧ ∀ key ≠ 0, ∀ off, index.Holds key off → index'.Holds key off := by
  rcases grow_copied hplaced h with rfl | hcopied
  · exact ⟨hplaced, fun _ _ _ hoff => hoff⟩
  · refine ⟨hcopied.placed, fun key hkey off hoff => ?_⟩
    rcases hoff with ⟨j, hj⟩ | ⟨hnone, rfl⟩
    · have hkey' : (index.maps j).key ≠ 0 := by rwa [hj]
      obtain ⟨l, hl⟩ := hcopied.to_new j (hplaced.lt_capacity hkey') hkey'
      exact .inl ⟨l, by rw [hl, hj]⟩
    · refine .inr ⟨fun j hj => ?_, rfl⟩
      obtain ⟨l, -, hl⟩ := hcopied.from_old j (by rwa [hj])
      exact hnone l (by rw [hl, hj])

end Index

open Index

variable {hash : List UInt8 → UInt64} {index index' : Index} {key : List UInt8} {j : ℕ}

lemma hashKey_ne_zero : hashKey hash key ≠ 0 := by
  show (if (hash key).toNat ≠ 0 then (hash key).toNat else (hash key).toNat + 1) ≠ 0
  split <;> omega

lemma wellPlaced_indexOpen : indexOpen.WellPlaced := by
  intro j k hj
  simp [keyAt, indexOpen] at hj

/-- `index_update` grows the table and then updates it. -/
lemma indexUpdate_eq_ok (h : indexUpdate hash index key = .ok (index', j)) :
    ∃ grown, index.grow = .ok grown ∧ grown.update (hashKey hash key) = .ok (index', j) := by
  rw [indexUpdate] at h
  split at h
  · simp at h
  · split at h
    · simp at h
    · next grown hgrow => exact ⟨grown, hgrow, h⟩

/-- **`index_update`** returns the slot of the key and keeps what the table holds. -/
theorem holds_indexUpdate (hplaced : index.WellPlaced)
    (h : indexUpdate hash index key = .ok (index', j)) :
    index'.WellPlaced ∧ (index'.maps j).key = hashKey hash key ∧
      ∀ k ≠ 0, ∀ off, index.Holds k off → index'.Holds k off := by
  obtain ⟨grown, hgrow, hup⟩ := indexUpdate_eq_ok h
  obtain ⟨hplaced₁, hholds⟩ := holds_grow hplaced hgrow
  obtain ⟨hplaced', -, hj, -, -⟩ := update_eq_ok hashKey_ne_zero hplaced₁ hup
  exact ⟨hplaced', hj, fun k hk off hoff =>
    holds_update hashKey_ne_zero hplaced₁ hup hk (hholds k hk off hoff)⟩

/-- `index_update` returns if and only if all its insertions find a slot. -/
lemma indexUpdate_isOk_iff (hlen : key.length ≠ 0) :
    (∃ res, indexUpdate hash index key = .ok res) ↔
      ∃ grown, index.grow = .ok grown ∧ grown.HasRoom (hashKey hash key) := by
  rw [indexUpdate, if_neg hlen]
  cases hgrow : index.grow with
  | error stop => simp
  | ok grown =>
    constructor
    · rintro ⟨res, hres⟩
      exact ⟨grown, rfl, (update_isOk_iff _ _).mp ⟨res, hres⟩⟩
    · rintro ⟨grown', heq, hroom⟩
      obtain rfl := Except.ok.inj heq
      exact (update_isOk_iff _ _).mpr hroom

/-- **`index_lookup`** finds what the table holds; where it returns no slot, the table holds
nothing. -/
theorem indexLookup_eq (hash : List UInt8 → UInt64) (hplaced : index.WellPlaced)
    (hlen : key.length ≠ 0) :
    ∃ ref, indexLookup hash index key = .ok ref ∧
      index.Holds (hashKey hash key) (index.deref ref) := by
  rw [indexLookup, if_neg hlen]
  refine ⟨_, rfl, ?_⟩
  rw [lookupLoop_eq hashKey_ne_zero]
  have habsent (h : ∀ j, search (probe index.capacity (hashKey hash key)) index.keyAt
      (hashKey hash key) index.capacity 0 = some j → index.keyAt j = none) :
      index.Holds (hashKey hash key) 0 :=
    .inr ⟨fun j hj =>
      Placed.not_stored hplaced h j ((keyAt_eq_some hashKey_ne_zero).mpr hj), rfl⟩
  cases hsearch : search (probe index.capacity (hashKey hash key)) index.keyAt
      (hashKey hash key) index.capacity 0 with
  | none => exact habsent (by simp [hsearch])
  | some j =>
    simp only
    obtain ⟨-, -, -, -, hstop, -⟩ := search_eq_some hsearch
    by_cases hkey : (index.maps j).key = hashKey hash key
    · simp only [hkey, if_true]
      exact .inl ⟨j, by rw [← hkey]; rfl⟩
    · simp only [hkey, if_false]
      refine habsent fun j' hj' => ?_
      rw [hsearch] at hj'
      obtain rfl := Option.some.inj hj'
      rcases hstop with hstop | hstop
      · exact hstop
      · exact absurd ((keyAt_eq_some hashKey_ne_zero).mp hstop) hkey

end Cs238p.P4
