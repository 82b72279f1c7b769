import Mathlib.Data.List.Induction
import Mathlib.Tactic.Common

set_option relaxedAutoImplicit false
set_option autoImplicit false

/-!
# Lists that are copied over each other

Lists of different lengths are copied to the beginning of one buffer, one after another, each as far
as the buffer admits. At every position the buffer then holds what the last list that reaches it has
there.

## Main definitions

* `Overlay.overlay` — a list is copied to the beginning of a buffer.
* `Overlay.Spares` — what lists leave in the buffer from a position on is what it held before.

## Main results

* `Overlay.getElem?_foldl_overlay` — the buffer after all copies.
* `Overlay.overlay_foldl_eq_iff` — earlier copies do not show behind a last one if and only if they
  spare the buffer there.
-/

namespace Overlay

variable {α : Type*}

/-- The list is copied to the beginning of the buffer, as far as the buffer admits. -/
def overlay (b v : List α) : List α := v.take b.length ++ b.drop v.length

/-- From the position `n` on, the last list that reaches a position of the buffer has there what the
buffer holds. -/
def Spares (ws : List (List α)) (n : ℕ) (b : List α) : Prop :=
  ∀ i < b.length, n ≤ i → ∀ w ∈ ws.reverse.find? fun w => i < w.length, w[i]? = b[i]?

instance [DecidableEq α] (ws : List (List α)) (n : ℕ) (b : List α) : Decidable (Spares ws n b) :=
  inferInstanceAs (Decidable (∀ i < b.length, n ≤ i → ∀ w ∈ _, _))

variable {b v : List α} {ws : List (List α)} {i n : ℕ}

/-- A buffer keeps its length. -/
@[simp] lemma length_overlay (b v : List α) : (overlay b v).length = b.length := by
  rw [overlay, List.length_append, List.length_take, List.length_drop]
  omega

@[simp] lemma length_foldl_overlay (ws : List (List α)) (b : List α) :
    (ws.foldl overlay b).length = b.length := by
  induction ws generalizing b with
  | nil => rfl
  | cons w ws ih => rw [List.foldl_cons, ih, length_overlay]

/-- A list for which there is room is at the beginning of the buffer. -/
lemma take_overlay (h : v.length ≤ b.length) : (overlay b v).take v.length = v := by
  rw [overlay, List.take_of_length_le h, List.take_left]

lemma getElem?_overlay (hi : i < b.length) :
    (overlay b v)[i]? = if i < v.length then v[i]? else b[i]? := by
  rw [overlay, List.getElem?_append, List.length_take]
  by_cases hv : i < v.length
  · rw [if_pos hv, if_pos (by omega), List.getElem?_take_of_lt hi]
  · rw [if_neg hv, if_neg (by omega), List.getElem?_drop]
    congr 1
    omega

/-- **The buffer after all copies**: the last list that reaches a position decides. -/
theorem getElem?_foldl_overlay (ws : List (List α)) (hi : i < b.length) :
    (ws.foldl overlay b)[i]? = ((ws.reverse.find? fun w => i < w.length).getD b)[i]? := by
  induction ws using List.reverseRecOn with
  | nil => rfl
  | append_singleton ws w ih =>
    rw [List.foldl_append, List.foldl_cons, List.foldl_nil,
      getElem?_overlay (by rwa [length_foldl_overlay]), List.reverse_append, List.reverse_singleton,
      List.singleton_append, List.find?_cons]
    by_cases hw : i < w.length
    · simp [hw]
    · simpa [hw] using ih

/-- Two buffers of one length agree under a list if they agree behind it. -/
lemma overlay_congr_iff {b' : List α} (hlen : b'.length = b.length) :
    overlay b' v = overlay b v ↔ ∀ i < b.length, v.length ≤ i → b'[i]? = b[i]? := by
  constructor
  · intro h i hi hv
    have hcongr := congrArg (·[i]?) h
    simp only [getElem?_overlay hi, getElem?_overlay (hlen.symm ▸ hi), if_neg (Nat.not_lt.mpr hv)]
      at hcongr
    exact hcongr
  · intro h
    refine List.ext_getElem? fun i => ?_
    by_cases hi : i < b.length
    · rw [getElem?_overlay hi, getElem?_overlay (hlen.symm ▸ hi)]
      split
      · rfl
      · next hv => exact h i hi (Nat.not_lt.mp hv)
    · rw [List.getElem?_eq_none (by rw [length_overlay]; omega),
        List.getElem?_eq_none (by rw [length_overlay]; omega)]

/-- **Earlier copies do not show behind a last one** if and only if they spare the buffer there. -/
theorem overlay_foldl_eq_iff :
    overlay (ws.foldl overlay b) v = overlay b v ↔ Spares ws v.length b := by
  rw [overlay_congr_iff (length_foldl_overlay ws b)]
  refine forall_congr' fun i => forall_congr' fun hi => forall_congr' fun hv => ?_
  rw [getElem?_foldl_overlay ws hi]
  cases ws.reverse.find? fun w => i < w.length <;> simp

end Overlay
