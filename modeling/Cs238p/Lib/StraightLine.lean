import Mathlib.Logic.Function.Basic
import Mathlib.Data.List.Nodup

set_option relaxedAutoImplicit false
set_option autoImplicit false

/-!
# Straight-line programs over single-assignment temporaries

A program is a list of declarations, each of which computes one new temporary from earlier
ones. Execution is partial: it is stuck on a temporary that is declared twice and on an operand
that is not declared yet. So a program that runs is in single-assignment form and defines
every temporary before its use.

## Main definitions

* `StraightLine.Decl` — a declaration, over any type of temporaries and of operations.
* `StraightLine.exec` — execution in an environment of declared temporaries.

## Main results

* `StraightLine.exec_append` — programs run in sequence.
* `StraightLine.targets_nodup` — a program that runs declares each temporary once.
* `StraightLine.mem_targets_of_mem_args` — a program that runs in the empty environment declares
  every operand before the declaration that uses it.
-/

namespace StraightLine

/-- The declaration of one temporary: an operation applied to temporaries. -/
structure Decl (ι Ω : Type) where
  /-- the temporary that is declared -/
  target : ι
  /-- the operation -/
  op : Ω
  /-- its operands -/
  args : List ι
  deriving DecidableEq, Repr

/-- The values of the temporaries declared so far. -/
abbrev Env (ι N : Type) := ι → Option N

/-- The environment in which nothing is declared. -/
def Env.empty (ι N : Type) : Env ι N := fun _ => none

variable {ι Ω N : Type} [DecidableEq ι] (interp : Ω → List N → N)

/-- Execute one declaration: its target must be new and its operands declared. -/
def Decl.exec (d : Decl ι Ω) (env : Env ι N) : Option (Env ι N) :=
  if env d.target = none ∧ ∀ a ∈ d.args, (env a).isSome then
    some (Function.update env d.target (some (interp d.op (d.args.filterMap env))))
  else none

/-- Execute a program. -/
def exec : List (Decl ι Ω) → Env ι N → Option (Env ι N)
  | [], env => some env
  | d :: ds, env => (d.exec interp env).bind (exec ds)

/-- The temporaries a program declares, in order. -/
def targets (ds : List (Decl ι Ω)) : List ι := ds.map Decl.target

@[simp] lemma exec_nil (env : Env ι N) : exec interp ([] : List (Decl ι Ω)) env = some env := rfl

@[simp] lemma exec_cons (d : Decl ι Ω) (ds : List (Decl ι Ω)) (env : Env ι N) :
    exec interp (d :: ds) env = (d.exec interp env).bind (exec interp ds) := rfl

/-- Programs run in sequence. -/
lemma exec_append (ds es : List (Decl ι Ω)) (env : Env ι N) :
    exec interp (ds ++ es) env = (exec interp ds env).bind (exec interp es) := by
  induction ds generalizing env with
  | nil => rfl
  | cons d ds ih =>
    simp only [List.cons_append, exec_cons, Option.bind_assoc]
    congr 1
    funext env'
    exact ih env'

variable {interp}

/-- What a declaration that runs has done. -/
lemma Decl.exec_eq_some {d : Decl ι Ω} {env env' : Env ι N} (h : d.exec interp env = some env') :
    env d.target = none ∧ (∀ a ∈ d.args, (env a).isSome) ∧
      env' = Function.update env d.target (some (interp d.op (d.args.filterMap env))) := by
  unfold Decl.exec at h
  split at h
  · next hd =>
    cases h
    exact ⟨hd.1, hd.2, rfl⟩
  · cases h

/-- After a program that runs, the declared temporaries are those from before and its targets. -/
lemma isSome_of_exec {ds : List (Decl ι Ω)} {env env' : Env ι N}
    (h : exec interp ds env = some env') (i : ι) :
    (env' i).isSome ↔ (env i).isSome ∨ i ∈ targets ds := by
  induction ds generalizing env with
  | nil =>
    cases h
    simp [targets]
  | cons d ds ih =>
    obtain ⟨env₁, h₁, h₂⟩ := Option.bind_eq_some_iff.mp h
    obtain ⟨-, -, rfl⟩ := Decl.exec_eq_some h₁
    rw [ih h₂]
    by_cases hi : i = d.target
    · simp [targets, hi]
    · simp [targets, hi]

/-- **Single assignment**: a program that runs declares each temporary once, and none that was
declared before. -/
theorem targets_nodup {ds : List (Decl ι Ω)} {env env' : Env ι N}
    (h : exec interp ds env = some env') :
    (targets ds).Nodup ∧ ∀ i ∈ targets ds, env i = none := by
  induction ds generalizing env with
  | nil => simp [targets]
  | cons d ds ih =>
    obtain ⟨env₁, h₁, h₂⟩ := Option.bind_eq_some_iff.mp h
    obtain ⟨hnew, -, rfl⟩ := Decl.exec_eq_some h₁
    obtain ⟨hnodup, hfresh⟩ := ih h₂
    have hd : d.target ∉ targets ds := fun hmem => by simpa using hfresh _ hmem
    refine ⟨List.nodup_cons.mpr ⟨hd, hnodup⟩, fun i hi => ?_⟩
    rcases List.mem_cons.mp hi with rfl | hi
    · exact hnew
    · have hne : i ≠ d.target := fun he => hd (he ▸ hi)
      simpa [Function.update_of_ne hne] using hfresh i hi

/-- **Declaration before use**: in a program that runs in the empty environment, every operand of
a declaration is the target of an earlier one. -/
theorem mem_targets_of_mem_args {pre post : List (Decl ι Ω)} {d : Decl ι Ω} {env' : Env ι N}
    (h : exec interp (pre ++ d :: post) (Env.empty ι N) = some env') :
    ∀ a ∈ d.args, a ∈ targets pre := by
  rw [exec_append] at h
  obtain ⟨env₁, h₁, h₂⟩ := Option.bind_eq_some_iff.mp h
  obtain ⟨env₂, hd, -⟩ := Option.bind_eq_some_iff.mp h₂
  obtain ⟨-, hargs, -⟩ := Decl.exec_eq_some hd
  intro a ha
  simpa [Env.empty] using (isSome_of_exec h₁ a).mp (hargs a ha)

/-- A declaration runs if its target is new and its operands are declared. -/
lemma Decl.exec_of_args (interp : Ω → List N → N) (d : Decl ι Ω) {env : Env ι N} (vs : List N)
    (hnew : env d.target = none) (hargs : d.args.map env = vs.map some) :
    d.exec interp env = some (Function.update env d.target (some (interp d.op vs))) := by
  have hsome : ∀ a ∈ d.args, (env a).isSome := by
    intro a ha
    have hmem : env a ∈ vs.map some := hargs ▸ List.mem_map_of_mem ha
    obtain ⟨v, -, hv⟩ := List.mem_map.mp hmem
    simp [← hv]
  have hvs : d.args.filterMap env = vs := by
    calc d.args.filterMap env = (d.args.map env).filterMap id := by simp [List.filterMap_map]
      _ = vs := by rw [hargs, List.filterMap_map]; exact List.filterMap_some
  unfold Decl.exec
  rw [if_pos ⟨hnew, hsome⟩, hvs]

end StraightLine
