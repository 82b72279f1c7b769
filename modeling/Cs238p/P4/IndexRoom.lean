import Cs238p.Lib.LinearProbing
import Cs238p.P4.IndexRuns

set_option relaxedAutoImplicit false
set_option autoImplicit false

/-!
# Where the index has room

The probes of a hash value are computed in 64-bit arithmetic. Where `key + i` overflows, they do not
reach all slots, but always half of them. A table that has just grown is less than half full, so
only an insertion that does not grow the table can fail.

## Main definitions

* `insertKey`, `insertStep` — `grow` followed by `update`, as in `index_update`.
* `FindsSlotFor` — the insertion returns.
* `InReach` — the table grows, or a slot in reach is empty or holds the key.
* `Spacious` — what holds in every table that insertions lead to.

## Main results

* `Index.hasRoom_of_half` — a table that is less than half full has room.
* `hasRoom_grow`, `hasRoom_iff_inReach` — the table after growth, and without it.
* `findsSlot_iff_inReach` — every run.
-/

namespace Cs238p.P4

open Index LinearProbing Transition

namespace Index

variable {index index' : Index} {key j n : ℕ}

/-- The keys of the table. -/
def keys (index : Index) : Finset ℕ := index.occupied.image fun j => (index.maps j).key

/-- The keys are numbers of 64 bits. -/
def KeysFit (index : Index) : Prop := ∀ j, (index.maps j).key < 2 ^ 64

/-- The table has as many keys as occupied slots. -/
lemma card_keys (h : index.WellPlaced) : index.keys.card = index.occupied.card := by
  apply Finset.card_image_of_injOn
  intro i hi j hj hij
  exact h.unique (mem_occupied.mp (Finset.mem_coe.mp hi)).2 rfl hij.symm

lemma card_occupied_lt (h : index.WellPlaced) (hfit : index.KeysFit) :
    index.occupied.card < 2 ^ 64 := by
  have hsub : index.keys ⊆ (Finset.range (2 ^ 64)).erase 0 := by
    intro k hk
    obtain ⟨j, hj, rfl⟩ := Finset.mem_image.mp hk
    exact Finset.mem_erase.mpr ⟨(mem_occupied.mp hj).2, Finset.mem_range.mpr (hfit j)⟩
  have hcard := Finset.card_le_card hsub
  rw [card_keys h, Finset.card_erase_of_mem (by simp), Finset.card_range] at hcard
  exact Nat.lt_of_le_sub_one (by decide) hcard

/-- A key has room if a slot that its probes visit is empty or holds it. -/
lemma hasRoom_iff : index.HasRoom key ↔ ∃ j ∈ visited (2 ^ 64) index.capacity key,
    (index.maps j).key = 0 ∨ (index.maps j).key = key := by
  constructor
  · rintro ⟨i, hi, h⟩
    exact ⟨_, mem_visited.mpr ⟨i, hi, rfl⟩, h⟩
  · rintro ⟨j, hj, h⟩
    obtain ⟨i, hi, rfl⟩ := mem_visited.mp hj
    exact ⟨i, hi, h⟩

/-- **More slots are visited than are occupied.** -/
theorem hasRoom_of_card_lt
    (h : index.occupied.card < (visited (2 ^ 64) index.capacity key).card) :
    index.HasRoom key := by
  rw [hasRoom_iff]
  by_contra hnone
  have hsub : visited (2 ^ 64) index.capacity key ⊆ index.occupied := by
    intro j hj
    apply mem_occupied.mpr
    constructor
    · obtain ⟨i, hi, rfl⟩ := mem_visited.mp hj
      exact Nat.mod_lt _ (by omega)
    · intro h0
      exact hnone ⟨j, hj, .inl h0⟩
  exact absurd (Finset.card_le_card hsub) (by omega)

/-- **A table that is less than half full has room** for every key. -/
theorem hasRoom_of_half (h : index.WellPlaced) (hfit : index.KeysFit) (hkey : key < 2 ^ 64)
    (hhalf : 2 * index.occupied.card < index.capacity) : index.HasRoom key := by
  apply hasRoom_of_card_lt
  by_cases hcap : index.capacity ≤ 2 ^ 64
  · have := le_two_mul_card_visited hkey hcap
    omega
  · have := le_card_visited (k := key) (Nat.not_le.mp hcap)
    have := card_occupied_lt h hfit
    omega

/-- What `update` does to the keys. -/
lemma keysFit_update (hfit : index.KeysFit) (hkey : key < 2 ^ 64)
    (h : index.update key = .ok (index', j)) : index'.KeysFit := by
  obtain ⟨-, ⟨-, rfl⟩ | ⟨-, rfl⟩⟩ := update_cases h
  · exact hfit
  · intro l
    by_cases hl : l = j
    · rw [hl]
      simpa using hkey
    · simpa [Function.update_of_ne hl] using hfit l

/-- An update takes at most one more slot. -/
lemma card_occupied_update (hkey : key ≠ 0) (h : index.update key = .ok (index', j)) :
    index'.occupied.card ≤ index.occupied.card + 1 := by
  rw [occupied_update hkey h]
  exact Finset.card_insert_le _ _

/-! ## Growth -/

variable {index_ : Index}

lemma Copied.keysFit (h : Copied index index_ n) (hfit : index.KeysFit) : index_.KeysFit := by
  intro j
  by_cases h0 : (index_.maps j).key = 0
  · rw [h0]
    decide
  · obtain ⟨l, -, hl⟩ := h.from_old j h0
    rw [← hl]
    exact hfit l

/-- The new table has only keys of the old one, -/
lemma Copied.keys_subset (h : Copied index index_ n) (hn : n ≤ index.capacity) :
    index_.keys ⊆ index.keys := by
  intro k hk
  obtain ⟨j, hj, rfl⟩ := Finset.mem_image.mp hk
  obtain ⟨l, hl, heq⟩ := h.from_old j (mem_occupied.mp hj).2
  refine Finset.mem_image.mpr ⟨l, mem_occupied.mpr ⟨by omega, ?_⟩, by rw [heq]⟩
  rw [heq]
  exact (mem_occupied.mp hj).2

/-- and those that are not inserted yet are not among them. -/
lemma Copied.not_mem_keys (h : Copied index index_ n) (hplaced : index.WellPlaced)
    (h0 : (index.maps n).key ≠ 0) : (index.maps n).key ∉ index_.keys := by
  intro hmem
  obtain ⟨j, hj, hkey⟩ := Finset.mem_image.mp hmem
  obtain ⟨l, hl, heq⟩ := h.from_old j (mem_occupied.mp hj).2
  have hln : l = n := hplaced.unique h0 (by rw [heq, ← hkey]) rfl
  omega

lemma Copied.card_le (h : Copied index index_ n) (hplaced : index.WellPlaced)
    (hn : n ≤ index.capacity) : index_.occupied.card ≤ index.occupied.card := by
  rw [← card_keys h.placed, ← card_keys hplaced]
  exact Finset.card_le_card (h.keys_subset hn)

lemma Copied.card_lt (h : Copied index index_ n) (hplaced : index.WellPlaced)
    (hn : n < index.capacity) (h0 : (index.maps n).key ≠ 0) :
    index_.occupied.card < index.occupied.card := by
  rw [← card_keys h.placed, ← card_keys hplaced]
  apply Finset.card_lt_card
  refine ⟨h.keys_subset hn.le, fun hsub => h.not_mem_keys hplaced h0 (hsub ?_)⟩
  exact Finset.mem_image.mpr ⟨n, mem_occupied.mpr ⟨hn, h0⟩, rfl⟩

/-- **A round of the loop of `grow` finds a slot** if the new table has twice as many slots as there
are entries. -/
lemma Copied.reinsert_isOk (h : Copied index index_ n) (hplaced : index.WellPlaced)
    (hfit : index.KeysFit) (hn : n < index.capacity)
    (hcap : 2 * index.occupied.card < index_.capacity + 2) :
    ∃ index_', Index.reinsert index index_ n = .ok index_' ∧ Copied index index_' (n + 1) ∧
      index_'.capacity = index_.capacity := by
  by_cases h0 : (index.maps n).key = 0
  · have hre : Index.reinsert index index_ n = .ok index_ := by rw [Index.reinsert, if_pos h0]
    exact ⟨index_, hre, h.reinsert hplaced hre, rfl⟩
  · have hlt := h.card_lt hplaced hn h0
    have hroom : index_.HasRoom (index.maps n).key :=
      hasRoom_of_half h.placed (h.keysFit hfit) (hfit n) (by omega)
    obtain ⟨⟨index₁, j⟩, hup⟩ := (update_isOk_iff _ _).mpr hroom
    have hre : Index.reinsert index index_ n = .ok (index₁.setOff j (index.maps n).off) := by
      rw [Index.reinsert, if_neg h0, hup]
    refine ⟨_, hre, h.reinsert hplaced hre, ?_⟩
    rw [capacity_setOff, capacity_update hup]

/-- The loop of `grow` returns. -/
lemma exists_copied {capacity : ℕ} (hplaced : index.WellPlaced) (hfit : index.KeysFit)
    (hcap : 2 * index.occupied.card < capacity + 2) :
    ∃ index_, (List.range index.capacity).foldlM (Index.reinsert index) (create capacity) =
      .ok index_ ∧ Copied index index_ index.capacity ∧ index_.capacity = capacity := by
  apply RangeFold.progress
    (I := fun n index_ => Copied index index_ n ∧ index_.capacity = capacity)
  · exact ⟨copied_create index capacity, rfl⟩
  · rintro n hn index_ ⟨hcopied, hcap'⟩
    obtain ⟨index_', hre, hcopied', hcap''⟩ :=
      hcopied.reinsert_isOk hplaced hfit hn (by rwa [hcap'])
    exact ⟨index_', hre, hcopied', hcap''.trans hcap'⟩

/-- **What holds in every table that insertions lead to.** -/
structure Spacious (index : Index) : Prop where
  placed : index.WellPlaced
  counted : index.Counted
  keysFit : index.KeysFit
  load : 10 * index.size ≤ 7 * index.capacity + 10

lemma spacious_indexOpen : indexOpen.Spacious where
  placed := wellPlaced_indexOpen
  counted := counted_indexOpen
  keysFit _ := by simp [indexOpen]
  load := by simp [indexOpen]

/-- `update` keeps all this if there is an entry left of the load. -/
theorem Spacious.update (h : index.Spacious) (hkey : key ≠ 0) (hlt : key < 2 ^ 64)
    (hload : 10 * index.size ≤ 7 * index.capacity)
    (hup : index.update key = .ok (index', j)) : index'.Spacious := by
  have hcounted := h.counted.update hkey hup
  refine ⟨(update_eq_ok hkey h.placed hup).1, hcounted, keysFit_update h.keysFit hlt hup, ?_⟩
  have hle := card_occupied_update hkey hup
  have hcount : index.size = index.occupied.card := h.counted
  have hcount' : index'.size = index'.occupied.card := hcounted
  rw [capacity_update hup]
  omega

/-- **A loaded table grows**, and then it is less than half full. -/
theorem Spacious.grow (h : index.Spacious) (hloaded : index.Loaded) :
    ∃ grown, index.grow = .ok grown ∧ grown.Spacious ∧ 2 * grown.size < grown.capacity ∧
      10 * grown.size ≤ 7 * grown.capacity := by
  have hload := h.load
  have hcount : index.size = index.occupied.card := h.counted
  have hcap : 2 * index.occupied.card < (index.capacity + 97) * 3 / 2 + 2 := by omega
  obtain ⟨grown, hgrown, hcopied, hcap'⟩ := exists_copied h.placed h.keysFit hcap
  have hgrow : index.grow = .ok grown := by rw [Index.grow, if_pos hloaded, hgrown]
  have hcounted := h.counted.grow hgrow
  have hcount' : grown.size = grown.occupied.card := hcounted
  have hle := hcopied.card_le h.placed (Nat.le_refl _)
  refine ⟨grown, hgrow, ⟨hcopied.placed, hcounted, hcopied.keysFit h.keysFit, ?_⟩, ?_, ?_⟩ <;>
    omega

end Index

/-! ## Insertions -/

/-- `grow` followed by `update`, as in `index_update`. -/
def insertKey (index : Index) (key : ℕ) : Except Stop Index :=
  match index.grow with
  | .error stop => .error stop
  | .ok index =>
    match index.update key with
    | .error stop => .error stop
    | .ok (index, _) => .ok index

/-- An insertion as a step. -/
def insertStep (index : Index) (key : ℕ) : Option Index :=
  match insertKey index key with
  | .error _ => none
  | .ok index => some index

/-- The insertion returns, so that no `update` in it reaches `EXIT`. -/
def FindsSlotFor (index : Index) (key : ℕ) : Prop := ∃ index', insertKey index key = .ok index'

/-- **The table grows, or the sum of the key and the capacity does not overflow, or one of the slots
in reach is empty or holds the key.** In reach are, after the overflow, the slots from `0` on, and
before it those of the numbers from the key on. -/
def InReach (index : Index) (key : ℕ) : Prop :=
  index.Loaded ∨ key + index.capacity ≤ 2 ^ 64 ∨
    ∃ j < index.capacity, ((index.maps j).key = 0 ∨ (index.maps j).key = key) ∧
      (j + 2 ^ 64 < key + index.capacity ∨
        ∃ x, key ≤ x ∧ x < 2 ^ 64 ∧ x % index.capacity = j)

variable {index index' : Index} {key j : ℕ}

/-- `index_update` inserts the hash value of its key. -/
lemma indexUpdate_eq_insertKey (hash : List UInt8 → UInt64) {key : List UInt8}
    (hkey : key.length ≠ 0) :
    (indexUpdate hash index key).map Prod.fst = insertKey index (hashKey hash key) := by
  rw [indexUpdate, if_neg hkey, insertKey]
  cases index.grow with
  | error stop => rfl
  | ok grown =>
    simp only
    cases grown.update (hashKey hash key) <;> rfl

/-- **Where the table does not grow**, the key has room if and only if a slot is in reach. -/
theorem hasRoom_iff_inReach (h : index.Spacious) (hkey : key < 2 ^ 64)
    (hloaded : ¬ index.Loaded) : index.HasRoom key ↔ InReach index key := by
  obtain ⟨hpos, hload⟩ := not_or.mp hloaded
  have hcount : index.size = index.occupied.card := h.counted
  constructor
  · intro hroom
    obtain ⟨j, hj, hfree⟩ := hasRoom_iff.mp hroom
    have hlt : j < index.capacity := by
      obtain ⟨i, -, rfl⟩ := mem_visited.mp hj
      exact Nat.mod_lt _ (by omega)
    rcases of_mem_visited hj with hover | hreach
    · exact .inr (.inl hover)
    · exact .inr (.inr ⟨j, hlt, hfree, hreach⟩)
  · rintro (hloaded' | hover | ⟨j, -, hfree, hreach⟩)
    · exact absurd hloaded' hloaded
    · apply hasRoom_of_card_lt
      rw [visited_eq_range hover, Finset.card_range]
      omega
    · by_cases hover : key + index.capacity ≤ 2 ^ 64
      · apply hasRoom_of_card_lt
        rw [visited_eq_range hover, Finset.card_range]
        omega
      · by_cases hcap : index.capacity ≤ 2 ^ 64
        · exact hasRoom_iff.mpr ⟨j, (mem_visited_iff hkey hcap (by omega)).mpr hreach, hfree⟩
        · apply hasRoom_of_card_lt
          have hall := le_card_visited (k := key) (Nat.not_le.mp hcap)
          have hocc := card_occupied_lt h.placed h.keysFit
          omega

/-- **An insertion finds a slot** exactly if one is in reach, and then the table stays spacious. -/
theorem findsSlotFor_iff (h : index.Spacious) (hkey : key < 2 ^ 64) :
    FindsSlotFor index key ↔ InReach index key := by
  by_cases hloaded : index.Loaded
  · refine ⟨fun _ => .inl hloaded, fun _ => ?_⟩
    obtain ⟨grown, hgrow, hspacious, hhalf, -⟩ := h.grow hloaded
    have hcount : grown.size = grown.occupied.card := hspacious.counted
    have hroom : grown.HasRoom key :=
      hasRoom_of_half hspacious.placed hspacious.keysFit hkey (by omega)
    obtain ⟨⟨index', j⟩, hup⟩ := (update_isOk_iff _ _).mpr hroom
    exact ⟨index', by rw [insertKey, hgrow]; simp only [hup]⟩
  · have hgrow : index.grow = .ok index := by rw [Index.grow, if_neg hloaded]
    rw [← hasRoom_iff_inReach h hkey hloaded, ← update_isOk_iff, FindsSlotFor, insertKey, hgrow]
    simp only
    cases index.update key with
    | error stop => simp
    | ok res => simp

/-- What an insertion that returns preserves. -/
lemma Index.Spacious.insertStep (h : index.Spacious) (hpos : 0 < key) (hkey : key < 2 ^ 64)
    (hs : insertStep index key = some index') : index'.Spacious := by
  rw [P4.insertStep, insertKey] at hs
  by_cases hloaded : index.Loaded
  · obtain ⟨grown, hgrow, hspacious, -, hload⟩ := h.grow hloaded
    rw [hgrow] at hs
    cases hup : grown.update key with
    | error stop => simp [hup] at hs
    | ok res =>
      simp only [hup] at hs
      obtain rfl := Option.some.inj hs
      exact hspacious.update (by omega) hkey hload hup
  · have hgrow : index.grow = .ok index := by rw [Index.grow, if_neg hloaded]
    obtain ⟨-, hload⟩ := not_or.mp hloaded
    rw [hgrow] at hs
    cases hup : index.update key with
    | error stop => simp [hup] at hs
    | ok res =>
      simp only [hup] at hs
      obtain rfl := Option.some.inj hs
      exact h.update (by omega) hkey (by omega) hup

/-- **Insertions find slots exactly as long as slots are in reach**: in every sequence of insertions
of 64-bit keys, no `update` reaches `EXIT`, those of `grow` included, if and only if each insertion
grows the table or has a slot in reach.

**Proof sketch.** After growth there are more than twice as many slots as entries, and the probes of
a key visit at least half of the slots. Without growth the loop visits the slots in reach. -/
theorem findsSlot_iff_inReach (keys : List ℕ) (hkeys : ∀ key ∈ keys, 0 < key ∧ key < 2 ^ 64) :
    Always insertStep FindsSlotFor indexOpen keys ↔
      Always insertStep InReach indexOpen keys := by
  apply always_congr_of_invariant (I := Index.Spacious)
    (E := fun _ key => 0 < key ∧ key < 2 ^ 64)
  · intro index key index' h hkey _ hs
    exact h.insertStep hkey.1 hkey.2 hs
  · intro index key h hkey
    exact findsSlotFor_iff h hkey.2
  · exact spacious_indexOpen
  · exact always_of_forall_mem indexOpen hkeys

/-- Two keys close to `2 ^ 64`. -/
theorem findsSlot_iff_inReach_two :
    Always insertStep FindsSlotFor indexOpen [2 ^ 64 - 1, 2 ^ 64 - 1 - 145] ↔
      Always insertStep InReach indexOpen [2 ^ 64 - 1, 2 ^ 64 - 1 - 145] :=
  findsSlot_iff_inReach _ (by decide)

/-- The keys `1` to `213` and `363` fill the slots `0` to `213` of a table of capacity `363`. Since
`2 ^ 64 % 363 = 214`, the probes of `2 ^ 64 - 200` are the slots `14` to `213` and, after the
overflow, the slots `0` to `162`. -/
def crowdedKeys : List ℕ := (List.range 213).map (· + 1) ++ [363, 2 ^ 64 - 200]

/-- The last insertion reaches `EXIT`, though the table has empty slots. -/
theorem crowdedKeys_no_slot : ¬ ∀ keys : List ℕ, (∀ key ∈ keys, 0 < key ∧ key < 2 ^ 64) →
    Always insertStep FindsSlotFor indexOpen keys := by
  intro h
  have hprogress : ∃ t, run insertStep indexOpen crowdedKeys = some t ∧ True := by
    refine progress_run (I := fun _ => True) ?_ trivial (h crowdedKeys (by decide +kernel))
    rintro index key - ⟨index', hindex'⟩
    exact ⟨index', by rw [insertStep, hindex'], trivial⟩
  obtain ⟨t, ht, -⟩ := hprogress
  have hstuck : (run insertStep indexOpen crowdedKeys).isSome = false := by decide +kernel
  rw [ht] at hstuck
  exact absurd hstuck (by simp)

end Cs238p.P4
