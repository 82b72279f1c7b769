import Mathlib.Data.Nat.Notation
import Mathlib.Tactic.Common

set_option relaxedAutoImplicit false
set_option autoImplicit false

/-!
# Counting loops that may stop

A loop `for (i = 0; i < n; ++i)` whose body may stop with an error is the monadic fold of its body
over the numbers below `n`.

## Main results

* `RangeFold.foldlM_succ_eq_ok` — the last round of a loop.
* `RangeFold.invariant` — what every round preserves holds after a loop that returns.
* `RangeFold.error` — a loop stops with an error of one of its rounds.
* `RangeFold.progress` — if every round returns and preserves an invariant, so does the loop.
-/

namespace RangeFold

variable {ε β : Type*} {f : β → ℕ → Except ε β} {n : ℕ} {b c : β}

/-- A loop of `n + 1` rounds returns if the first `n` of them and the last one do. -/
lemma foldlM_succ_eq_ok : (List.range (n + 1)).foldlM f b = .ok c ↔
    ∃ b', (List.range n).foldlM f b = .ok b' ∧ f b' n = .ok c := by
  rw [List.range_succ, List.foldlM_append]
  cases (List.range n).foldlM f b with
  | error e => simp [bind, Except.bind]
  | ok b' =>
    simp only [Except.ok.injEq, exists_eq_left']
    show (List.foldlM f b' [n]) = .ok c ↔ _
    rw [List.foldlM_cons]
    cases f b' n with
    | error e => simp [bind, Except.bind]
    | ok c' => simp [bind, Except.bind, pure, Except.pure]

/-- **The invariant rule for loops.** The invariant may mention the number of rounds done. -/
theorem invariant {I : ℕ → β → Prop} (h0 : I 0 b)
    (hstep : ∀ i < n, ∀ b b', I i b → f b i = .ok b' → I (i + 1) b')
    (h : (List.range n).foldlM f b = .ok c) : I n c := by
  induction n generalizing c with
  | zero =>
    obtain rfl := Except.ok.inj h
    exact h0
  | succ n ih =>
    obtain ⟨b', hb', hc⟩ := foldlM_succ_eq_ok.mp h
    exact hstep n (Nat.lt_succ_self n) b' c (ih (fun i hi => hstep i (by omega)) hb') hc

/-- **The errors of a loop** are those of its rounds. -/
theorem error {P : ε → Prop} {e : ε} (hstep : ∀ i < n, ∀ b e, f b i = .error e → P e)
    (h : (List.range n).foldlM f b = .error e) : P e := by
  induction n generalizing e with
  | zero => exact absurd h (by simp [pure, Except.pure])
  | succ n ih =>
    rw [List.range_succ, List.foldlM_append] at h
    cases hfold : (List.range n).foldlM f b with
    | error e' =>
      rw [hfold] at h
      obtain rfl := Except.error.inj h
      exact ih (fun i hi => hstep i (by omega)) hfold
    | ok b' =>
      apply hstep n (Nat.lt_succ_self n) b'
      rw [hfold] at h
      cases hlast : f b' n with
      | error e' => simpa [bind, Except.bind, hlast] using h
      | ok c => simp [bind, Except.bind, hlast, pure, Except.pure] at h

/-- **Progress**: a loop returns if every round does. -/
theorem progress {I : ℕ → β → Prop} (h0 : I 0 b)
    (hstep : ∀ i < n, ∀ b, I i b → ∃ b', f b i = .ok b' ∧ I (i + 1) b') :
    ∃ c, (List.range n).foldlM f b = .ok c ∧ I n c := by
  induction n with
  | zero => exact ⟨b, rfl, h0⟩
  | succ n ih =>
    obtain ⟨b', hb', hI⟩ := ih fun i hi => hstep i (by omega)
    obtain ⟨c, hc, hIc⟩ := hstep n (Nat.lt_succ_self n) b' hI
    exact ⟨c, foldlM_succ_eq_ok.mpr ⟨b', hb', hc⟩, hIc⟩

end RangeFold
