import Mathlib.Data.List.Infix

set_option relaxedAutoImplicit false
set_option autoImplicit false

/-!
# Runs of labelled transition functions

A system is given by its partial step function: `step s a` is the state after the step labelled
`a`, or `none` if that step cannot be taken in `s`. A run takes the steps of a list of labels.

## Main definitions

* `Transition.run` — the state after a list of steps.
* `Transition.Always` — a condition on states and labels holds at every step of a run.

## Main results

* `Transition.run_append` — runs compose.
* `Transition.invariant_run` — an invariant of the steps is an invariant of the runs.
* `Transition.progress_run` — where the condition lets every step be taken and keeps the
  invariant, the run exists and keeps the invariant.
* `Transition.exists_run_replicate` — a step that makes a measure smaller leads to a goal.
* `Transition.always_of_invariant` — what an invariant implies at a step holds at every step.
* `Transition.forall_prefix_iff` — where every step can be taken, a property of the states holds at
  every moment of a run exactly if a condition holds at every step.
* `Transition.progress_foldl` — where every step keeps the relation to what a function yields, the
  run exists and keeps it.
* `Transition.rel_run` — a simulation of the steps is one of the runs.
-/

namespace Transition

variable {σ τ α β : Type*}

/-- The state after the steps of a list of labels, if all of them can be taken. -/
def run (step : σ → α → Option σ) : σ → List α → Option σ
  | s, [] => some s
  | s, a :: as => (step s a).bind fun s' => run step s' as

/-- Every step of the run is taken in a state in which the condition holds. -/
def Always (step : σ → α → Option σ) (C : σ → α → Prop) : σ → List α → Prop
  | _, [] => True
  | s, a :: as => C s a ∧ ∀ s', step s a = some s' → Always step C s' as

/-- A decidable condition can be checked along a run. -/
instance decidableAlways (step : σ → α → Option σ) (C : σ → α → Prop)
    [∀ s a, Decidable (C s a)] : ∀ s as, Decidable (Always step C s as)
  | _, [] => .isTrue trivial
  | s, a :: as =>
    match h : step s a with
    | none => decidable_of_iff (C s a) ⟨fun hC => ⟨hC, fun s' hs' => by simp [h] at hs'⟩, And.left⟩
    | some s' =>
      have := decidableAlways step C s' as
      decidable_of_iff (C s a ∧ Always step C s' as)
        (and_congr_right fun _ => by
          constructor
          · intro hA t ht
            obtain rfl := Option.some.inj (h.symm.trans ht)
            exact hA
          · intro hA
            exact hA s' h)

variable {step : σ → α → Option σ} {C D : σ → α → Prop} {I : σ → Prop}

@[simp] lemma run_nil (s : σ) : run step s [] = some s := rfl

lemma run_cons {s : σ} {a : α} {as : List α} {s' : σ} (h : step s a = some s') :
    run step s (a :: as) = run step s' as := by
  rw [run, h, Option.bind_some]

/-- A run of one more step begins with that step. -/
lemma run_cons_eq_some {s t : σ} {a : α} {as : List α} :
    run step s (a :: as) = some t ↔ ∃ s', step s a = some s' ∧ run step s' as = some t := by
  rw [run, Option.bind_eq_some_iff]

/-- Runs compose. -/
lemma run_append (s : σ) (as bs : List α) :
    run step s (as ++ bs) = (run step s as).bind fun s' => run step s' bs := by
  induction as generalizing s with
  | nil => rfl
  | cons a as ih =>
    rw [List.cons_append, run, run]
    cases step s a with
    | none => rfl
    | some s' => exact ih s'

lemma always_cons {s : σ} {a : α} {as : List α} :
    Always step C s (a :: as) ↔ C s a ∧ ∀ s', step s a = some s' → Always step C s' as :=
  Iff.rfl

/-- The condition holds at the steps that follow a run. -/
lemma Always.right {s t : σ} {as bs : List α} (h : Always step C s (as ++ bs))
    (hrun : run step s as = some t) : Always step C t bs := by
  induction as generalizing s with
  | nil =>
    obtain rfl := Option.some.inj hrun
    exact h
  | cons a as ih =>
    obtain ⟨s', hs, hrun⟩ := run_cons_eq_some.mp hrun
    exact ih (h.2 s' hs) hrun

/-- The condition holds at the first steps of a run. -/
lemma Always.left {s : σ} {as bs : List α} (h : Always step C s (as ++ bs)) :
    Always step C s as := by
  induction as generalizing s with
  | nil => trivial
  | cons a as ih => exact ⟨h.1, fun s' hs => ih (h.2 s' hs)⟩

/-- The condition holds at the step that follows a run. -/
lemma Always.last {s t : σ} {as : List α} {a : α} (h : Always step C s (as ++ [a]))
    (hrun : run step s as = some t) : C t a := (h.right hrun).1

/-- Two conditions that hold at every step hold together. -/
lemma Always.and {s : σ} {as : List α} (hC : Always step C s as) (hD : Always step D s as) :
    Always step (fun s a => C s a ∧ D s a) s as := by
  induction as generalizing s with
  | nil => trivial
  | cons a as ih => exact ⟨⟨hC.1, hD.1⟩, fun s' hs => ih (hC.2 s' hs) (hD.2 s' hs)⟩

/-- What holds of all labels of a run holds at every step. -/
lemma always_of_forall_mem {P : α → Prop} (s : σ) {as : List α} (h : ∀ a ∈ as, P a) :
    Always step (fun _ a => P a) s as := by
  induction as generalizing s with
  | nil => trivial
  | cons a as ih =>
    exact ⟨h a List.mem_cons_self, fun s' _ => ih s' fun b hb => h b (List.mem_cons_of_mem a hb)⟩

/-- A weaker condition holds where a stronger one does, given an invariant that the stronger one
preserves. -/
theorem Always.imp_of_invariant (hstep : ∀ s a s', I s → C s a → step s a = some s' → I s')
    (himp : ∀ s a, I s → C s a → D s a) {s : σ} {as : List α} (hs : I s)
    (h : Always step C s as) : Always step D s as := by
  induction as generalizing s with
  | nil => trivial
  | cons a as ih =>
    exact ⟨himp s a hs h.1, fun s' hs' => ih (hstep s a s' hs h.1 hs') (h.2 s' hs')⟩

/-- Two conditions hold at every step of the same runs if they agree under an invariant that they
preserve. A third condition `E` is assumed of the steps. -/
theorem always_congr_of_invariant {E : σ → α → Prop}
    (hstep : ∀ s a s', I s → E s a → D s a → step s a = some s' → I s')
    (hiff : ∀ s a, I s → E s a → (C s a ↔ D s a)) {s : σ} {as : List α} (hs : I s)
    (hE : Always step E s as) : Always step C s as ↔ Always step D s as := by
  induction as generalizing s with
  | nil => exact Iff.rfl
  | cons a as ih =>
    rw [always_cons, always_cons, hiff s a hs hE.1]
    refine and_congr_right fun hD => forall_congr' fun s' => imp_congr_right fun hs' => ?_
    exact ih (hstep s a s' hs hE.1 hD hs') (hE.2 s' hs')

/-- **The invariant rule**: what every step preserves holds at the end of every run. -/
theorem invariant_run (hstep : ∀ s a s', I s → step s a = some s' → I s') {s t : σ}
    {as : List α} (hs : I s) (h : run step s as = some t) : I t := by
  induction as generalizing s with
  | nil =>
    obtain rfl := Option.some.inj h
    exact hs
  | cons a as ih =>
    obtain ⟨s', hs', h⟩ := run_cons_eq_some.mp h
    exact ih (hstep s a s' hs hs') h

/-- **The invariant rule under a condition** on the steps of the run. -/
theorem invariant_run_of_always (hstep : ∀ s a s', I s → C s a → step s a = some s' → I s')
    {s t : σ} {as : List α} (hs : I s) (hC : Always step C s as)
    (h : run step s as = some t) : I t := by
  induction as generalizing s with
  | nil =>
    obtain rfl := Option.some.inj h
    exact hs
  | cons a as ih =>
    obtain ⟨s', hs', h⟩ := run_cons_eq_some.mp h
    exact ih (hstep s a s' hs hC.1 hs') (hC.2 s' hs') h

/-- **Progress**: if under the condition every step can be taken and keeps the invariant, then the
whole run can be taken. -/
theorem progress_run (hstep : ∀ s a, I s → C s a → ∃ s', step s a = some s' ∧ I s') {s : σ}
    {as : List α} (hs : I s) (hC : Always step C s as) :
    ∃ t, run step s as = some t ∧ I t := by
  induction as generalizing s with
  | nil => exact ⟨s, rfl, hs⟩
  | cons a as ih =>
    obtain ⟨s', hs', hI⟩ := hstep s a hs hC.1
    obtain ⟨t, ht, hIt⟩ := ih hI (hC.2 s' hs')
    exact ⟨t, by rw [run_cons hs', ht], hIt⟩

/-- **Progress by a measure**: if one step can be taken wherever a goal is not reached, keeps the
invariant and makes a measure smaller, then repeating it reaches the goal. -/
theorem exists_run_replicate {G : σ → Prop} (μ : σ → ℕ) {a : α}
    (hstep : ∀ s, I s → ¬ G s → ∃ s', step s a = some s' ∧ I s' ∧ μ s' < μ s) {s : σ} (hs : I s) :
    ∃ k t, run step s (List.replicate k a) = some t ∧ I t ∧ G t := by
  induction h : μ s using Nat.strong_induction_on generalizing s with
  | h n ih =>
    subst h
    by_cases hG : G s
    · exact ⟨0, s, rfl, hs, hG⟩
    · obtain ⟨s', hs', hI, hlt⟩ := hstep s hs hG
      obtain ⟨k, t, hrun, hend⟩ := ih (μ s') hlt hI rfl
      exact ⟨k + 1, t, by rw [List.replicate_succ, run_cons hs', hrun], hend⟩

/-- What an invariant implies at a step holds at every step of every run. -/
theorem always_of_invariant (hstep : ∀ s a s', I s → step s a = some s' → I s')
    (himp : ∀ s a, I s → D s a) {s : σ} (hs : I s) (as : List α) : Always step D s as := by
  induction as generalizing s with
  | nil => trivial
  | cons a as ih => exact ⟨himp s a hs, fun s' hs' => ih (hstep s a s' hs hs')⟩

/-- **The simulation rule under a condition**: if two systems take the same steps wherever they are
related and the condition holds, and keep the relation, then they take the same runs. -/
theorem rel_run {step' : τ → α → Option τ} {R : σ → τ → Prop} {E : τ → α → Prop}
    (hstep : ∀ s t a, R s t → E t a → Option.Rel R (step s a) (step' t a)) {s : σ} {t : τ}
    {as : List α} (h : R s t) (hE : Always step' E t as) :
    Option.Rel R (run step s as) (run step' t as) := by
  induction as generalizing s t with
  | nil => exact .some h
  | cons a as ih =>
    have hrel := hstep s t a h hE.1
    have hrest := hE.2
    rw [run, run]
    cases hs : step s a <;> cases ht : step' t a <;> rw [hs, ht] at hrel
    · exact .none
    · cases hrel
    · cases hrel
    · cases hrel with
      | some hrel => exact ih hrel (hrest _ ht)

/-! ## Steps that can always be taken -/

/-- **Progress along a function**: if under the condition every step can be taken and keeps the
relation to what the function yields, then the whole run can be taken. -/
theorem progress_foldl {f : τ → α → τ} {R : σ → τ → Prop} {E : τ → α → Prop}
    (hstep : ∀ s t a, R s t → E t a → ∃ s', step s a = some s' ∧ R s' (f t a)) {s : σ} {t : τ}
    {as : List α} (h : R s t) (hE : Always (fun t a => some (f t a)) E t as) :
    ∃ s', run step s as = some s' ∧ R s' (as.foldl f t) := by
  induction as generalizing s t with
  | nil => exact ⟨s, rfl, h⟩
  | cons a as ih =>
    obtain ⟨s', hs', hR⟩ := hstep s t a h hE.1
    obtain ⟨s'', hrun, hend⟩ := ih hR (hE.2 _ rfl)
    exact ⟨s'', by rw [run_cons hs', hrun], hend⟩

/-- **At every moment of a run a property holds exactly if a condition holds at every step**, where
the property follows from an invariant, and a step keeps the invariant if the condition holds and
breaks the property if not. -/
theorem forall_prefix_iff {f : σ → α → σ} {P : σ → Prop} (hprop : ∀ s, I s → P s)
    (hkeep : ∀ s a, I s → C s a → I (f s a)) (hbreak : ∀ s a, I s → ¬ C s a → ¬ P (f s a))
    {s : σ} (hs : I s) (as : List α) :
    (∀ bs, bs <+: as → P (bs.foldl f s)) ↔ ∀ bs a, bs ++ [a] <+: as → C (bs.foldl f s) a := by
  induction as generalizing s with
  | nil => simp [hprop s hs]
  | cons a as ih =>
    constructor
    · intro h
      have hC : C s a := by
        by_contra hC
        exact hbreak s a hs hC (h [a] ⟨as, rfl⟩)
      have htail := (ih (hkeep s a hs hC)).mp fun bs hbs => h (a :: bs) (by simpa using hbs)
      intro bs b hbs
      cases bs with
      | nil =>
        obtain rfl : b = a := by simpa using hbs
        exact hC
      | cons c bs =>
        obtain ⟨rfl, hpre⟩ : c = a ∧ bs ++ [b] <+: as := by simpa using hbs
        exact htail bs b hpre
    · intro h
      have hC : C s a := h [] a ⟨as, rfl⟩
      have htail := (ih (hkeep s a hs hC)).mpr fun bs b hbs => h (a :: bs) b (by simpa using hbs)
      intro bs hbs
      cases bs with
      | nil => exact hprop s hs
      | cons c bs =>
        obtain ⟨rfl, hpre⟩ : c = a ∧ bs <+: as := by simpa using hbs
        exact htail bs hpre

end Transition
