import Mathlib.Data.List.Basic
import Mathlib.Data.List.Nodup
import Mathlib.Tactic.Common

set_option relaxedAutoImplicit false
set_option autoImplicit false

/-!
# Round robin

The members of a list take turns. After the turn of a member comes that of the first ready member
behind it, where the list is read as a circle. Members may cease to be ready at any time, and do not
become ready again.

## Main definitions

* `Behind` — the other members of a circle, from behind one of them on.
* `Next` — the choice of the next turn.
* `Turns` — a sequence of turns, with the ready members before and after it.

## Main results

* `Behind.symm` — the circle seen from a member that is behind another one.
* `Turns.round` — between two consecutive turns of a member the others take their turns in the order
  of the circle, and those that stay ready take one.
-/

namespace RoundRobin

variable {α : Type*}

/-- The other members of the circle, from behind `c` on. -/
def Behind (l : List α) (c : α) (r : List α) : Prop := ∃ p q, l = p ++ c :: q ∧ r = q ++ p

/-- The first ready member behind `c` is `d`. -/
def Next (l : List α) (ready : α → Bool) (c d : α) : Prop :=
  ∀ r, Behind l c r → r.find? ready = some d

/-- From the turn of a member on, the members of a list take their turns. The sets of ready members
are those at the time of the first turn and at that of the last one. -/
inductive Turns (l : List α) : (α → Bool) → α → List α → (α → Bool) → Prop
  | nil (ready : α → Bool) (c : α) : Turns l ready c [] ready
  | cons {ready ready' final : α → Bool} {c d : α} {turns : List α}
    (hle : ∀ x, ready' x = true → ready x = true) (hnext : Next l ready' c d)
    (hturns : Turns l ready' d turns final) : Turns l ready c (d :: turns) final

variable {l r r₁ r₂ turns : List α} {c d t x : α} {ready final : α → Bool}

/-- **A circle seen from another member**, which divides the members behind the first one. -/
theorem Behind.symm (h : Behind l t (r₁ ++ d :: r₂)) : Behind l d (r₂ ++ t :: r₁) := by
  obtain ⟨p, q, rfl, heq⟩ := h
  rcases List.append_eq_append_iff.mp heq with ⟨as, rfl, has⟩ | ⟨bs, rfl, rfl⟩
  · cases as with
    | nil =>
      rw [List.nil_append] at has
      subst has
      exact ⟨[], r₂ ++ t :: r₁, by simp, by simp⟩
    | cons a as =>
      obtain ⟨rfl, rfl⟩ := List.cons_eq_cons.mp has
      exact ⟨p ++ t :: r₁, as, by simp, by simp⟩
  · exact ⟨bs, r₂ ++ t :: q, by simp, by simp⟩

/-- There is one circle behind a member. -/
lemma Behind.unique (h : Behind l c r) (hnodup : l.Nodup) (h' : Behind l c r₁) : r = r₁ := by
  obtain ⟨p, q, rfl, rfl⟩ := h
  obtain ⟨p', q', heq, rfl⟩ := h'
  have hp : c ∉ p := fun hmem => (List.nodup_append.mp hnodup).2.2 c hmem c List.mem_cons_self rfl
  have hq : c ∉ q := (List.nodup_cons.mp (List.nodup_append.mp hnodup).2.1).1
  obtain ⟨rfl, -, rfl⟩ := (List.append_cons_inj_of_notMem hp hq).mp heq
  rfl

/-- A circle without repetitions, seen from one of its members. -/
lemma Behind.nodup_cons (h : Behind l c r) (hnodup : l.Nodup) : (c :: r).Nodup := by
  obtain ⟨p, q, rfl, rfl⟩ := h
  have hperm : (c :: q ++ p).Perm (p ++ c :: q) := List.perm_append_comm
  exact hperm.nodup_iff.mpr hnodup

/-- A member is not behind itself. -/
lemma Behind.not_mem (h : Behind l c r) (hnodup : l.Nodup) : c ∉ r :=
  (List.nodup_cons.mp (h.nodup_cons hnodup)).1

/-- The members behind one are distinct. -/
lemma Behind.nodup (h : Behind l c r) (hnodup : l.Nodup) : r.Nodup :=
  (List.nodup_cons.mp (h.nodup_cons hnodup)).2

/-- A member that is ready at the end was ready at the beginning. -/
lemma Turns.ready_of_final (h : Turns l ready c turns final) (hx : final x = true) :
    ready x = true := by
  induction h with
  | nil ready c => exact hx
  | cons hle hnext hturns ih => exact hle x (ih hx)

/-- The last turn is that of a member that is ready at the end. -/
lemma Turns.final_of_last (h : Turns l ready c (turns ++ [t]) final) (hc : ∃ r, Behind l c r) :
    final t = true := by
  generalize hall : turns ++ [t] = all at h
  induction h generalizing turns with
  | nil ready c => simp at hall
  | @cons ready ready' final c d rest hle hnext hturns ih =>
    obtain ⟨r, hr⟩ := hc
    have hfind := hnext r hr
    obtain ⟨r₁, r₂, rfl⟩ := List.append_of_mem (List.mem_of_find?_eq_some hfind)
    cases turns with
    | nil =>
      obtain ⟨rfl, rfl⟩ := List.cons_eq_cons.mp hall
      cases hturns with
      | nil => exact List.find?_some hfind
    | cons a turns =>
      obtain ⟨rfl, htail⟩ := List.cons_eq_cons.mp hall
      exact ih ⟨_, hr.symm⟩ htail

/-- **The rest of a round.** From the turn of `c` on, with `r₂` between `c` and `t` on the circle,
the members of `r₂` take their turns until it is the turn of `t`.

**Proof sketch.** Induction on the turns. The next turn is that of the first ready member of `r₂`:
if none of them were ready, the next turn would be that of `t`, which is ready as it takes a turn
later. -/
lemma Turns.rest (hnodup : l.Nodup) (hc : Behind l c (r₂ ++ r)) (hrest : r = [] ∨ ∃ s, r = t :: s)
    (ht : Behind l t (r₁ ++ r₂)) (h : Turns l ready c (turns ++ [t]) final)
    (hturns : t ∉ turns) : turns.Sublist r₂ ∧ ∀ u ∈ r₂, final u = true → u ∈ turns := by
  have hfinal := h.final_of_last ⟨_, hc⟩
  have hnot : t ∉ r₂ := fun hmem => ht.not_mem hnodup (List.mem_append_right r₁ hmem)
  induction turns generalizing c r₁ r₂ r ready with
  | nil =>
    cases h with
    | @cons _ ready' _ _ _ _ hle hnext hnil =>
    have hfind := hnext _ hc
    rw [List.find?_append] at hfind
    refine ⟨List.nil_sublist r₂, fun u hu hready => ?_⟩
    cases hnil with
    | nil =>
    cases hfirst : r₂.find? final with
    | none => exact absurd hready (List.find?_eq_none.mp hfirst u hu)
    | some d =>
      rw [hfirst, Option.some_or] at hfind
      obtain rfl := Option.some.inj hfind
      exact absurd (List.mem_of_find?_eq_some hfirst) hnot
  | cons d turns ih =>
    obtain ⟨hne, hturns'⟩ := not_or.mp (mt List.mem_cons.mpr hturns)
    cases h with
    | @cons _ ready' _ _ _ _ hle hnext hcons =>
    have hfind := hnext _ hc
    rw [List.find?_append] at hfind
    cases hfirst : r₂.find? ready' with
    | none =>
      exfalso
      rw [hfirst, Option.none_or] at hfind
      rcases hrest with rfl | ⟨s, rfl⟩
      · simp at hfind
      · rw [List.find?_cons, hcons.ready_of_final hfinal] at hfind
        exact hne (Option.some.inj hfind)
    | some d' =>
      rw [hfirst, Option.some_or] at hfind
      obtain rfl := Option.some.inj hfind
      obtain ⟨-, s₁, s₂, rfl, hskipped⟩ := List.find?_eq_some_iff_append.mp hfirst
      rw [← List.append_assoc] at ht
      obtain ⟨hsub, hall⟩ := ih ht.symm (.inr ⟨_, rfl⟩)
        (show Behind l t ((r₁ ++ s₁ ++ [d']) ++ s₂) by simpa using ht) hcons hturns'
        fun hmem => hnot (List.mem_append_right s₁ (List.mem_cons_of_mem d' hmem))
      refine ⟨(hsub.cons_cons d').trans (List.sublist_append_right s₁ _), fun u hu hready => ?_⟩
      rcases List.mem_append.mp hu with hu | hu
      · -- A member that was skipped was not ready and does not become ready.
        have hskip := hskipped u hu
        rw [hcons.ready_of_final hready] at hskip
        simp at hskip
      · rcases List.mem_cons.mp hu with rfl | hu
        · exact List.mem_cons_self
        · exact List.mem_cons_of_mem d' (hall u hu hready)

/-- **A round.** Between two consecutive turns of a member, the others take their turns in the order
of the circle, each at most once, and those that are ready throughout take one. -/
theorem Turns.round (hnodup : l.Nodup) (ht : Behind l t r)
    (h : Turns l ready t (turns ++ [t]) final) (hturns : t ∉ turns) :
    turns.Sublist r ∧ ∀ u ∈ r, final u = true → u ∈ turns := by
  have hr : Behind l t (r ++ []) := by rwa [List.append_nil]
  exact h.rest hnodup hr (.inl rfl) (show Behind l t ([] ++ r) from ht) hturns

end RoundRobin
