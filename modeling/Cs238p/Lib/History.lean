import Mathlib.Logic.Function.Basic
import Mathlib.Tactic.Common

set_option relaxedAutoImplicit false
set_option autoImplicit false

/-!
# Append-only histories of a map

A history lists the assignments of values to keys, the newest first. A hash function distributes it
over buckets, each of which is a history of its own.

## Main definitions

* `History.latest` — the value that a history assigns to a key last.
* `History.bucket` — the part of a history with a given hash value.
* `History.newer` — the values assigned to other keys since a key was assigned last.

## Main results

* `History.latest_bucket` — the latest value of a key is found in its bucket.
* `History.latest_cons` — an assignment changes the latest value of its key only.
-/

namespace History

variable {κ ω ι : Type*} [DecidableEq κ] [DecidableEq ι]

/-- The value that the history assigns to the key last. -/
def latest (hist : List (κ × ω)) (k : κ) : Option ω := (hist.find? fun e => e.1 = k).map Prod.snd

/-- The assignments to keys with a given hash value. -/
def bucket (hash : κ → ι) (x : ι) (hist : List (κ × ω)) : List (κ × ω) :=
  hist.filter fun e => hash e.1 = x

/-- The values that the history assigns to other keys, up to the last assignment to the key; the
newest first. -/
def newer (hist : List (κ × ω)) (k : κ) : List ω :=
  (hist.takeWhile fun e => e.1 ≠ k).map Prod.snd

@[simp] lemma newer_nil (k : κ) : newer ([] : List (κ × ω)) k = [] := rfl

lemma newer_cons (k k' : κ) (v : ω) (hist : List (κ × ω)) :
    newer ((k, v) :: hist) k' = if k = k' then [] else v :: newer hist k' := by
  by_cases h : k = k'
  · simp [newer, h]
  · simp [newer, h]

@[simp] lemma latest_nil (k : κ) : latest ([] : List (κ × ω)) k = none := rfl

/-- **An assignment changes the latest value of its key only.** -/
lemma latest_cons (k k' : κ) (v : ω) (hist : List (κ × ω)) :
    latest ((k, v) :: hist) k' = if k = k' then some v else latest hist k' := by
  by_cases h : k = k'
  · simp [latest, h]
  · simp [latest, h]

omit [DecidableEq κ] in
lemma bucket_cons_self {hash : κ → ι} (k : κ) (v : ω) (hist : List (κ × ω)) :
    bucket hash (hash k) ((k, v) :: hist) = (k, v) :: bucket hash (hash k) hist := by
  simp [bucket]

omit [DecidableEq κ] in
lemma bucket_cons_of_ne {hash : κ → ι} {x : ι} {k : κ} (h : hash k ≠ x) (v : ω)
    (hist : List (κ × ω)) : bucket hash x ((k, v) :: hist) = bucket hash x hist := by
  simp [bucket, h]

/-- **The latest value of a key is found in its bucket.** -/
theorem latest_bucket (hash : κ → ι) (hist : List (κ × ω)) (k : κ) :
    latest (bucket hash (hash k) hist) k = latest hist k := by
  induction hist with
  | nil => rfl
  | cons e hist ih =>
    obtain ⟨k', v⟩ := e
    by_cases hk : hash k' = hash k
    · rw [← hk, bucket_cons_self, latest_cons, latest_cons, hk, ih]
    · have hne : k' ≠ k := fun heq => hk (congrArg hash heq)
      rw [bucket_cons_of_ne hk, latest_cons, if_neg hne, ih]

end History
