import Mathlib.Data.Finset.Card
import Mathlib.Data.Finset.Range
import Mathlib.Data.Nat.ModEq

set_option relaxedAutoImplicit false
set_option autoImplicit false

/-!
# Linear probing with an overflow

Linear probing visits the slots `(k + i) % c` of a table of capacity `c`. If `k + i` is computed
modulo `M` and `c` does not divide `M`, the order breaks where the sum overflows, and the probes
may leave slots out.

## Main definitions

* `LinearProbing.probe`, `LinearProbing.visited` — a probe, and the slots of `c` probes.

## Main results

* `LinearProbing.visited_eq_range` — without an overflow all slots are visited.
* `LinearProbing.mem_visited_iff` — which slots are visited.
* `LinearProbing.le_two_mul_card_visited` — at least half of the slots are.
* `LinearProbing.le_card_visited` — a table of more than `M` slots.
-/

namespace LinearProbing

/-- Probe number `i` of the key `k` in a table of capacity `c`, with numbers below `M`. -/
def probe (M c k i : ℕ) : ℕ := (k + i) % M % c

/-- The slots that `c` probes visit. -/
def visited (M c k : ℕ) : Finset ℕ := (Finset.range c).image (probe M c k)

variable {M c k w i j : ℕ}

lemma mem_visited : j ∈ visited M c k ↔ ∃ i < c, probe M c k i = j := by
  simp only [visited, Finset.mem_image, Finset.mem_range]

lemma probe_of_lt (h : k + i < M) : probe M c k i = (k + i) % c := by
  rw [probe, Nat.mod_eq_of_lt h]

/-- A probe after the overflow. -/
lemma probe_of_le (hk : k < M) (hle : M ≤ k + i) (hic : i < c) (hcM : c ≤ M) :
    probe M c k i = k + i - M := by
  have hmod : (k + i) % M = k + i - M := by
    rw [Nat.mod_eq_sub_mod hle, Nat.mod_eq_of_lt (by omega)]
  rw [probe, hmod, Nat.mod_eq_of_lt (by omega)]

/-- At most `c` consecutive numbers have different remainders. -/
lemma injOn_add_mod (hw : w ≤ c) :
    Set.InjOn (fun i => (k + i) % c) (Finset.range w : Set ℕ) := by
  intro i hi j hj hij
  rw [Finset.coe_range, Set.mem_Iio] at hi hj
  have hmod : i % c = j % c := Nat.ModEq.add_left_cancel' k hij
  rwa [Nat.mod_eq_of_lt (by omega), Nat.mod_eq_of_lt (by omega)] at hmod

/-- **Without an overflow** all slots are visited. -/
theorem visited_eq_range (h : k + c ≤ M) : visited M c k = Finset.range c := by
  have himage : visited M c k = (Finset.range c).image fun i => (k + i) % c := by
    apply Finset.image_congr
    intro i hi
    rw [Finset.coe_range, Set.mem_Iio] at hi
    exact probe_of_lt (by omega)
  rw [himage]
  apply Finset.eq_of_subset_of_card_le
  · intro j hj
    obtain ⟨i, hi, rfl⟩ := Finset.mem_image.mp hj
    exact Finset.mem_range.mpr (Nat.mod_lt _ (by have := Finset.mem_range.mp hi; omega))
  · rw [Finset.card_image_of_injOn (injOn_add_mod (Nat.le_refl c))]

/-- **The slots that are visited** when the sum overflows: those of the numbers up to `M`, and from
`0` on as many as there are probes left. -/
theorem mem_visited_iff (hk : k < M) (hcM : c ≤ M) (hover : M < k + c) :
    j ∈ visited M c k ↔ j + M < k + c ∨ ∃ x, k ≤ x ∧ x < M ∧ x % c = j := by
  rw [mem_visited]
  constructor
  · rintro ⟨i, hi, rfl⟩
    by_cases hlt : k + i < M
    · right
      exact ⟨k + i, by omega, hlt, (probe_of_lt hlt).symm⟩
    · left
      rw [probe_of_le hk (by omega) hi hcM]
      omega
  · rintro (hj | ⟨x, hkx, hx, rfl⟩)
    · refine ⟨j + M - k, by omega, ?_⟩
      rw [probe_of_le hk (by omega) (by omega) hcM]
      omega
    · refine ⟨x - k, by omega, ?_⟩
      rw [probe_of_lt (by omega), Nat.add_sub_cancel' hkx]

/-- What is visited is one of these, in a table of any size. -/
lemma of_mem_visited (h : j ∈ visited M c k) :
    k + c ≤ M ∨ j + M < k + c ∨ ∃ x, k ≤ x ∧ x < M ∧ x % c = j := by
  obtain ⟨i, hi, rfl⟩ := mem_visited.mp h
  by_cases hlt : k + i < M
  · exact .inr (.inr ⟨k + i, by omega, hlt, (probe_of_lt hlt).symm⟩)
  · have hmod : (k + i) % M ≤ k + i - M := by
      rw [Nat.mod_eq_sub_mod (Nat.not_lt.mp hlt)]
      exact Nat.mod_le _ _
    have hle : probe M c k i ≤ (k + i) % M := Nat.mod_le _ _
    exact .inr (.inl (by omega))

/-- Probes without an overflow visit different slots. -/
lemma le_card_visited_of_le (hw : w ≤ c) (hwM : k + w ≤ M) : w ≤ (visited M c k).card := by
  have hinj : Set.InjOn (probe M c k) (Finset.range w : Set ℕ) := by
    apply (injOn_add_mod hw).congr
    intro i hi
    rw [Finset.coe_range, Set.mem_Iio] at hi
    exact (probe_of_lt (by omega)).symm
  calc w = ((Finset.range w).image (probe M c k)).card := by
        rw [Finset.card_image_of_injOn hinj, Finset.card_range]
    _ ≤ (visited M c k).card := by
        apply Finset.card_le_card
        exact Finset.image_subset_image (Finset.range_subset_range.mpr hw)

/-- **At least half of the slots are visited.** -/
theorem le_two_mul_card_visited (hk : k < M) (hcM : c ≤ M) : c ≤ 2 * (visited M c k).card := by
  by_cases hover : k + c ≤ M
  · rw [visited_eq_range hover, Finset.card_range]
    omega
  · have hlow : M - k ≤ (visited M c k).card := le_card_visited_of_le (by omega) (by omega)
    have hhigh : k + c - M ≤ (visited M c k).card := by
      have hsub : Finset.range (k + c - M) ⊆ visited M c k := by
        intro j hj
        rw [Finset.mem_range] at hj
        exact (mem_visited_iff hk hcM (by omega)).mpr (.inl (by omega))
      simpa using Finset.card_le_card hsub
    omega

/-- In a table of more than `M` slots all sums are visited. -/
theorem le_card_visited (hcM : M < c) : M ≤ (visited M c k).card := by
  have hsub : Finset.range M ⊆ visited M c k := by
    intro j hj
    rw [Finset.mem_range] at hj
    have hkM : k % M < M := Nat.mod_lt _ (by omega)
    refine mem_visited.mpr ⟨(j + (M - k % M)) % M, ?_, ?_⟩
    · exact (Nat.mod_lt _ (by omega)).trans hcM
    · have hsum : (k + (j + (M - k % M)) % M) % M = j := by
        rw [Nat.add_mod_mod, ← Nat.mod_add_mod]
        rw [show k % M + (j + (M - k % M)) = j + M by omega, Nat.add_mod_right,
          Nat.mod_eq_of_lt hj]
      rw [probe, hsum, Nat.mod_eq_of_lt (by omega)]
  simpa using Finset.card_le_card hsub

end LinearProbing
