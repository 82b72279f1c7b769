import Mathlib.Data.List.Basic
import Mathlib.Data.Nat.Notation
import Mathlib.Logic.Function.Basic

set_option relaxedAutoImplicit false
set_option autoImplicit false

/-!
# Logs that pass through a ring

A log is written to a store through a ring buffer: its element number `j` goes to the slot
`j % size` of the ring, and from there to the place `j` of the store. The ring retains the newest
elements of the log whether or not they have reached the store.

## Main definitions

* `RingLog.Stored` — the store begins with the first `n` elements of the log.
* `RingLog.Retained` — the ring holds the last `size` elements of the log.

## Main results

* `RingLog.Retained.concat` — appending an element overwrites the slot of the oldest one.
* `RingLog.Stored.copy` — a segment of the ring extends the stored part of the log.
* `RingLog.Stored.slice_eq` — what is read from the stored part.
-/

namespace RingLog

variable {α : Type*} {store ring : ℕ → α} {log : List α} {size n m : ℕ}

/-- The store begins with the first `n` elements of the log. -/
def Stored (store : ℕ → α) (log : List α) (n : ℕ) : Prop :=
  ∀ j x, log[j]? = some x → j < n → store j = x

/-- The ring holds the last `size` elements of the log. -/
def Retained (ring : ℕ → α) (size : ℕ) (log : List α) : Prop :=
  ∀ j x, log[j]? = some x → log.length ≤ j + size → ring (j % size) = x

@[simp] lemma stored_zero : Stored store log 0 := fun _ _ _ h => absurd h (Nat.not_lt_zero _)

@[simp] lemma retained_nil : Retained ring size [] := fun j x h => by simp at h

/-- Numbers that differ by less than the size have different slots. -/
lemma mod_ne_mod {j k : ℕ} (hjk : j < k) (hk : k < j + size) : j % size ≠ k % size := by
  intro h
  have hdvd : size ∣ k - j := Nat.dvd_of_mod_eq_zero (Nat.sub_mod_eq_zero_of_mod_eq h.symm)
  have := Nat.le_of_dvd (by omega) hdvd
  omega

/-- An element of a longer log. -/
lemma getElem?_concat {j : ℕ} {x y : α} (h : (log ++ [x])[j]? = some y) :
    log[j]? = some y ∨ j = log.length ∧ x = y := by
  rw [List.getElem?_append] at h
  split at h
  · exact .inl h
  · next hj =>
    right
    rw [List.getElem?_singleton] at h
    split at h
    · exact ⟨by omega, Option.some.inj h⟩
    · simp at h

/-- The stored part of a log stays when the log grows. -/
lemma Stored.concat (h : Stored store log n) (hn : n ≤ log.length) (x : α) :
    Stored store (log ++ [x]) n := by
  intro j y hy hj
  rcases getElem?_concat hy with hy | ⟨rfl, -⟩
  · exact h j y hy hj
  · omega

/-- **Appending an element** overwrites the slot of the oldest one. -/
theorem Retained.concat (h : Retained ring size log) (x : α) :
    Retained (Function.update ring (log.length % size) x) size (log ++ [x]) := by
  intro j y hy hj
  rw [List.length_append, List.length_singleton] at hj
  rcases getElem?_concat hy with hy | ⟨rfl, rfl⟩
  · obtain ⟨hlt, -⟩ := List.getElem?_eq_some_iff.mp hy
    rw [Function.update_of_ne (mod_ne_mod hlt (by omega))]
    exact h j y hy (by omega)
  · exact Function.update_self _ _ _

/-- **A segment of the ring** that is copied to the store behind its stored part extends that part.
The segment does not wrap around. -/
theorem Stored.copy (hstored : Stored store log n) (hretained : Retained ring size log)
    (hlen : log.length ≤ n + size) (hwrap : n % size + m ≤ size) :
    Stored (fun j => if n ≤ j ∧ j < n + m then ring (n % size + (j - n)) else store j) log
      (n + m) := by
  intro j x hx hj
  by_cases hn : n ≤ j
  · have hslot : n % size + (j - n) = j % size := by
      have hj' : j = n + (j - n) := by omega
      rw [hj', Nat.add_mod, Nat.mod_eq_of_lt (a := j - n) (by omega),
        Nat.mod_eq_of_lt (a := n % size + (j - n)) (by omega)]
      omega
    simp only [hn, hj, and_self, if_true, hslot]
    exact hretained j x hx (by omega)
  · simp only [hn, false_and, if_false]
    exact hstored j x hx (by omega)

/-- **What is read from the stored part** of a log is that part of the log. -/
theorem Stored.slice_eq (h : Stored store log n) (hn : n ≤ log.length) {off len : ℕ}
    (hlen : off + len ≤ n) :
    ((List.range len).map fun j => store (off + j)) = (log.drop off).take len := by
  apply List.ext_getElem?
  intro j
  rw [List.getElem?_map, List.getElem?_take]
  by_cases hj : j < len
  · have hlt : off + j < log.length := by omega
    rw [List.getElem?_range hj, if_pos hj, List.getElem?_drop, List.getElem?_eq_getElem hlt,
      Option.map_some, h (off + j) _ (List.getElem?_eq_getElem hlt) (by omega)]
  · rw [List.getElem?_eq_none (by rw [List.length_range]; omega), if_neg hj, Option.map_none]

end RingLog
