import Mathlib.Data.Nat.Notation
import Mathlib.Logic.Function.Basic
import Mathlib.Tactic.Common

set_option relaxedAutoImplicit false
set_option autoImplicit false

/-!
# Open addressing

A hash table with open addressing stores every key in one of the slots that its probe sequence
visits. Nothing is assumed about the probe sequences: they may visit a slot twice or leave slots
out. Keys are never removed.

## Main definitions

* `OpenAddressing.search` — the first of a number of probes that is empty or holds the key.
* `OpenAddressing.Placed` — every stored key is reached by its probes.

## Main results

* `Placed.search_eq` — a stored key is found at its slot.
* `Placed.unique` — a key is stored in one slot only.
* `Placed.update` — storing a key where its search ends keeps the table placed.
-/

namespace OpenAddressing

variable {κ : Type*} {probe : κ → ℕ → ℕ} {n : ℕ} {keyAt : ℕ → Option κ} {k : κ} {i j j' : ℕ}

/-- The slot holds a key other than `k`. -/
def Other (keyAt : ℕ → Option κ) (k : κ) (j : ℕ) : Prop := ∃ k', keyAt j = some k' ∧ k' ≠ k

/-- Every stored key is in one of its first `n` probes, behind slots that hold other keys. -/
def Placed (probe : κ → ℕ → ℕ) (n : ℕ) (keyAt : ℕ → Option κ) : Prop :=
  ∀ j k, keyAt j = some k → ∃ i < n, probe k i = j ∧ ∀ i' < i, Other keyAt k (probe k i')

/-- The first of `n` probes from number `i` on that is empty or holds the key. -/
def search [DecidableEq κ] (probe : ℕ → ℕ) (keyAt : ℕ → Option κ) (k : κ) : ℕ → ℕ → Option ℕ
  | 0, _ => none
  | n + 1, i =>
    match keyAt (probe i) with
    | none => some (probe i)
    | some k' => if k' = k then some (probe i) else search probe keyAt k n (i + 1)

variable [DecidableEq κ]

/-- Where a search ends: at a probe that is empty or holds the key, behind other keys. -/
lemma search_eq_some {p : ℕ → ℕ} (h : search p keyAt k n i = some j) :
    ∃ i', i ≤ i' ∧ i' < i + n ∧ p i' = j ∧ (keyAt j = none ∨ keyAt j = some k) ∧
      ∀ i'', i ≤ i'' → i'' < i' → Other keyAt k (p i'') := by
  induction n generalizing i with
  | zero => simp [search] at h
  | succ n ih =>
    rw [search] at h
    split at h
    · next hnone =>
      obtain rfl := Option.some.inj h
      exact ⟨i, Nat.le_refl i, by omega, rfl, .inl hnone, fun i'' h₁ h₂ => by omega⟩
    · next k' hk' =>
      split at h
      · next heq =>
        obtain rfl := Option.some.inj h
        exact ⟨i, Nat.le_refl i, by omega, rfl, .inr (heq ▸ hk'), fun i'' h₁ h₂ => by omega⟩
      · next hne =>
        obtain ⟨i', hle, hlt, hp, hj, hother⟩ := ih h
        refine ⟨i', by omega, by omega, hp, hj, fun i'' h₁ h₂ => ?_⟩
        by_cases heq : i'' = i
        · subst heq
          exact ⟨k', hk', hne⟩
        · exact hother i'' (by omega) h₂

/-- A search passes probes that hold other keys. -/
lemma search_of_forall_other {p : ℕ → ℕ} (hlt : i < n)
    (hj : keyAt (p (j + i)) = none ∨ keyAt (p (j + i)) = some k)
    (hother : ∀ i' < i, Other keyAt k (p (j + i'))) : search p keyAt k n j = some (p (j + i)) := by
  induction i generalizing j n with
  | zero =>
    obtain ⟨n, rfl⟩ : ∃ m, n = m + 1 := ⟨n - 1, by omega⟩
    rw [search]
    rcases hj with hj | hj
    · simp only [Nat.add_zero] at hj ⊢
      simp only [hj]
    · simp only [Nat.add_zero] at hj ⊢
      simp only [hj, if_true]
  | succ i ih =>
    obtain ⟨n, rfl⟩ : ∃ m, n = m + 1 := ⟨n - 1, by omega⟩
    obtain ⟨k', hk', hne⟩ := hother 0 (Nat.succ_pos i)
    rw [Nat.add_zero] at hk'
    rw [search]
    simp only [hk', hne, if_false]
    rw [show j + (i + 1) = j + 1 + i by omega] at hj ⊢
    refine ih (by omega) hj fun i' hi' => ?_
    rw [show j + 1 + i' = j + (i' + 1) by omega]
    exact hother (i' + 1) (by omega)

/-- **A stored key is found at its slot.** -/
theorem Placed.search_eq (h : Placed probe n keyAt) (hj : keyAt j = some k) :
    search (probe k) keyAt k n 0 = some j := by
  obtain ⟨i, hi, rfl, hother⟩ := h j k hj
  have hsearch : search (probe k) keyAt k n 0 = some (probe k (0 + i)) :=
    search_of_forall_other hi (.inr (by rwa [Nat.zero_add]))
      fun i' hi' => by rw [Nat.zero_add]; exact hother i' hi'
  rwa [Nat.zero_add] at hsearch

/-- **A key is stored in one slot only.** -/
theorem Placed.unique (h : Placed probe n keyAt) (hj : keyAt j = some k)
    (hj' : keyAt j' = some k) : j = j' :=
  Option.some.inj ((h.search_eq hj).symm.trans (h.search_eq hj'))

/-- A key whose search ends at an empty slot or nowhere is not stored. -/
lemma Placed.not_stored (h : Placed probe n keyAt)
    (hsearch : ∀ j, search (probe k) keyAt k n 0 = some j → keyAt j = none) (j : ℕ) :
    keyAt j ≠ some k := by
  intro hj
  have := hsearch j (h.search_eq hj)
  exact absurd (this.symm.trans hj) (by simp)

/-- **A key may be stored where its search ends.**

**Proof sketch.** The new key is behind other keys. The probes of a stored key that hold other
keys still do, since a slot is only filled. -/
theorem Placed.update (h : Placed probe n keyAt) (hsearch : search (probe k) keyAt k n 0 = some j) :
    Placed probe n (Function.update keyAt j (some k)) := by
  have hkeep {k' : κ} {l : ℕ} (hl : Other keyAt k' l) (hne : k ≠ k') :
      Other (Function.update keyAt j (some k)) k' l := by
    obtain ⟨k'', hk'', hne'⟩ := hl
    by_cases hlj : l = j
    · subst hlj
      exact ⟨k, Function.update_self _ _ _, hne⟩
    · exact ⟨k'', by rwa [Function.update_of_ne hlj], hne'⟩
  obtain ⟨i, -, hi, hprobe, hstop, hother⟩ := search_eq_some hsearch
  have hnotj (i' : ℕ) (hi' : i' < i) : probe k i' ≠ j := by
    intro heq
    obtain ⟨k', hk', hne⟩ := hother i' (Nat.zero_le _) hi'
    rw [heq] at hk'
    rcases hstop with hstop | hstop
    · exact absurd (hstop.symm.trans hk') (by simp)
    · exact hne (Option.some.inj (hk'.symm.trans hstop))
  intro l k' hl
  by_cases hkk : k' = k
  · subst hkk
    refine ⟨i, by omega, ?_, fun i' hi' => ?_⟩
    · by_cases hlj : l = j
      · rw [hprobe, hlj]
      · rw [Function.update_of_ne hlj] at hl
        exact hprobe.trans (Option.some.inj (hsearch.symm.trans (h.search_eq hl)))
    · obtain ⟨k'', hk'', hne⟩ := hother i' (Nat.zero_le _) hi'
      exact ⟨k'', by rwa [Function.update_of_ne (hnotj i' hi')], hne⟩
  · by_cases hlj : l = j
    · subst hlj
      rw [Function.update_self] at hl
      exact absurd (Option.some.inj hl).symm hkk
    · rw [Function.update_of_ne hlj] at hl
      obtain ⟨i', hi', hp, hoth⟩ := h l k' hl
      exact ⟨i', hi', hp, fun i'' hi'' => hkeep (hoth i'' hi'') (Ne.symm hkk)⟩

end OpenAddressing
