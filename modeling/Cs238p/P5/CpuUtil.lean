import Cs238p.Lib.MachineInt
import Cs238p.Lib.Numeral
import Mathlib.Algebra.BigOperators.Group.List.Basic
import Mathlib.Data.List.Chain
import Mathlib.Data.List.GetD
import Mathlib.Tactic.Linarith

set_option relaxedAutoImplicit false
set_option autoImplicit false

/-!
# The CPU utilisation of `p5/main.c`

`cpu_util` reads seven counters from a line of `/proc/stat` and compares them with those of the last
call. The counters have 64 bits and are kept modulo `2 ^ 32`, so that the differences are those of
the counters themselves; of two readings without a tick between them the difference is zero.

## Main definitions

* `cpuUtil` — `cpu_util`, with its static variables.
* `CpuLine` — a text is a line with given counters.
* `Reading` — a line and its counters.
* `Outcome.IsPercentage` — a call divided by a number other than zero, and returned a percentage.

## Main results

* `scanVector_of_fields` — the counters are read modulo `2 ^ 32`.
* `percentages_iff` — all calls return percentages exactly if the counters never stand still.

## Implementation notes

The quotient is exact. A quotient by zero, which is not a number in the source, has the value zero.
-/

namespace Cs238p.P5

open CNumeral MachineInt WhiteSpace

/-! ## The source -/

/-- The static variables of `cpu_util`. -/
structure Static where
  sum : UInt32
  vector : List UInt32
  deriving DecidableEq

/-- The static variables before the first call. -/
def Static.zero : Static := ⟨0, List.replicate 7 0⟩

/-- What a call does: the number by which it divides, if it does, and the value that it returns. -/
structure Outcome where
  divisor : Option ℕ
  value : ℚ
  deriving DecidableEq

/-- The numbers that `sscanf` reads, up to the first conversion that fails. -/
def scanVector : ℕ → List Char → List UInt32
  | 0, _ => []
  | n + 1, s =>
    match scanUnsigned s with
    | none => []
    | some (v, s') => v :: scanVector n s'

/-- The loop that adds up the vector. -/
def sumOf (vector : List UInt32) : UInt32 := vector.foldl (fun sum v => sum + v) 0

/-- `cpu_util`. -/
def cpuUtil (st : Static) (s : List Char) : Outcome × Static :=
  let p := s.dropWhile (· ≠ ' ')
  let vector := scanVector 7 p
  if p = [] ∨ vector.length ≠ 7 then (⟨none, 0⟩, st)
  else
    let idle := vector.getD 3 0 - st.vector.getD 3 0
    let divisor := (sumOf vector - st.sum).toNat
    (⟨some divisor, (1 - idle.toNat / divisor) * 100⟩, ⟨sumOf vector, vector⟩)

/-- What the calls for a sequence of lines do. -/
def outcomes : Static → List (List Char) → List Outcome
  | _, [] => []
  | st, s :: lines => (cpuUtil st s).1 :: outcomes (cpuUtil st s).2 lines

/-! ## The purpose -/

/-- The call divided by a number other than zero, and returned a number between 0 and 100. -/
def Outcome.IsPercentage (o : Outcome) : Prop :=
  (∃ d ∈ o.divisor, d ≠ 0) ∧ 0 ≤ o.value ∧ o.value ≤ 100

/-- Numbers of 64 bits in decimal notation, each of them behind white space. -/
inductive Fields : List ℕ → List Char → Prop
  | nil {rest : List Char} (hrest : Avoids Char.isDigit rest) : Fields [] rest
  | cons {ws ds s : List Char} {counters : List ℕ} (hne : ws ≠ [])
      (hws : ∀ c ∈ ws, isspace c.toNat = true) (hds : ∀ c ∈ ds, c.isDigit = true) (hds_ne : ds ≠ [])
      (hlt : decimal.value ds < 2 ^ 64) (hs : Fields counters s) :
      Fields (decimal.value ds :: counters) (ws ++ (ds ++ s))

/-- A line of `/proc/stat`: a label, seven counters and more. -/
def CpuLine (counters : List ℕ) (line : List Char) : Prop :=
  counters.length = 7 ∧
    ∃ label s, line = label ++ ' ' :: s ∧ ' ' ∉ label ∧ Fields counters (' ' :: s)

/-- A line of `/proc/stat` with its counters. -/
structure Reading where
  counters : List ℕ
  line : List Char
  isLine : CpuLine counters line

/-- No counter decreases, and their total increases by less than `2 ^ 32`. -/
def Successive (r r' : Reading) : Prop :=
  List.Forall₂ (· ≤ ·) r.counters r'.counters ∧ r'.counters.sum < r.counters.sum + 2 ^ 32

/-! ## Reading a line -/

lemma Fields.avoids {counters : List ℕ} {s : List Char} (h : Fields counters s) :
    Avoids Char.isDigit s := by
  cases h with
  | nil hrest => exact hrest
  | @cons ws ds s counters hne hws hds hds_ne hlt hs =>
    obtain ⟨c, ws', rfl⟩ := List.exists_cons_of_ne_nil hne
    have hspace := hws c List.mem_cons_self
    refine avoids_cons _ (Bool.eq_false_iff.mpr fun hdigit => ?_)
    rw [isspace_of_numeralChar (by simp [numeralChar, hdigit])] at hspace
    cases hspace

/-- **The counters are read modulo `2 ^ 32`.** -/
lemma scanVector_of_fields {counters : List ℕ} {s : List Char} (h : Fields counters s) :
    scanVector counters.length s = counters.map UInt32.ofNat := by
  induction h with
  | nil => rfl
  | cons _ hws hds hds_ne hlt hs ih =>
    rw [List.length_cons, scanVector, scanUnsigned_digits hws hds hds_ne hlt hs.avoids]
    simp only [ih, List.map_cons]

/-- The sum of the counters modulo `2 ^ 32`. -/
lemma sumOf_map (counters : List ℕ) :
    sumOf (counters.map UInt32.ofNat) = UInt32.ofNat counters.sum := by
  have hfold : ∀ n : ℕ, (counters.map UInt32.ofNat).foldl (fun sum v => sum + v) (UInt32.ofNat n) =
      UInt32.ofNat (n + counters.sum) := by
    induction counters with
    | nil => exact fun n => rfl
    | cons c counters ih =>
      intro n
      rw [List.map_cons, List.foldl_cons, ← UInt32.ofNat_add, ih, List.sum_cons, Nat.add_assoc]
  simpa [sumOf] using hfold 0

/-- The static variables behind a reading. -/
def Static.ofCounters (counters : List ℕ) : Static :=
  ⟨UInt32.ofNat counters.sum, counters.map UInt32.ofNat⟩

/-- A call for a line. -/
lemma cpuUtil_of_line (st : Static) (r : Reading) :
    cpuUtil st r.line =
      (⟨some (UInt32.ofNat r.counters.sum - st.sum).toNat,
        (1 - (UInt32.ofNat (r.counters.getD 3 0) - st.vector.getD 3 0).toNat /
          (UInt32.ofNat r.counters.sum - st.sum).toNat) * 100⟩, .ofCounters r.counters) := by
  obtain ⟨hlength, label, s, hline, hlabel, hfields⟩ := r.isLine
  have hstrstr : r.line.dropWhile (· ≠ ' ') = ' ' :: s := by
    have hall : ∀ c ∈ label, decide (c ≠ ' ') = true := by
      intro c hc
      simp only [decide_eq_true_eq]
      rintro rfl
      exact hlabel hc
    rw [hline, List.dropWhile_append_of_pos hall]
    rfl
  have hvector := scanVector_of_fields hfields
  rw [hlength] at hvector
  have hidle : (r.counters.map UInt32.ofNat).getD 3 0 = UInt32.ofNat (r.counters.getD 3 0) := by
    exact List.getD_map _ 0 UInt32.ofNat
  rw [cpuUtil, hstrstr, hvector, if_neg (by simp [hlength])]
  simp only [sumOf_map, hidle, Static.ofCounters]

/-! ## Differences -/

/-- A counter increases by no more than the total. -/
lemma getD_sub_le {cs cs' : List ℕ} (h : List.Forall₂ (· ≤ ·) cs cs') (i : ℕ) :
    cs.sum ≤ cs'.sum ∧ cs.getD i 0 ≤ cs'.getD i 0 ∧
      cs'.getD i 0 - cs.getD i 0 ≤ cs'.sum - cs.sum := by
  induction h generalizing i with
  | nil => simp
  | @cons c c' cs cs' hc hcs ih =>
    rw [List.sum_cons, List.sum_cons]
    cases i with
    | zero =>
      obtain ⟨hsum, -, -⟩ := ih 0
      rw [List.getD_cons_zero, List.getD_cons_zero]
      omega
    | succ i =>
      obtain ⟨hsum, hle, hsub⟩ := ih i
      rw [List.getD_cons_succ, List.getD_cons_succ]
      omega

/-- **A call for the next reading** divides the increase of the fourth counter by that of the
total. -/
lemma cpuUtil_of_successive {r r' : Reading} (h : Successive r r') :
    (cpuUtil (.ofCounters r.counters) r'.line).1 =
      ⟨some (r'.counters.sum - r.counters.sum),
        (1 - ((r'.counters.getD 3 0 - r.counters.getD 3 0 : ℕ) : ℚ) /
          ((r'.counters.sum - r.counters.sum : ℕ) : ℚ)) * 100⟩ := by
  obtain ⟨hle, hlt⟩ := h
  obtain ⟨hsum, hidle, hsub⟩ := getD_sub_le hle 3
  have hget : (Static.ofCounters r.counters).vector.getD 3 0 =
      UInt32.ofNat (r.counters.getD 3 0) := List.getD_map _ 0 UInt32.ofNat
  rw [cpuUtil_of_line, hget]
  simp only [Static.ofCounters]
  rw [toNat_sub_ofNat hsum hlt, toNat_sub_ofNat hidle (by omega)]

/-- The quotient is a percentage exactly if the total increases. -/
lemma isPercentage_iff {r r' : Reading} (h : Successive r r') :
    (cpuUtil (.ofCounters r.counters) r'.line).1.IsPercentage ↔
      r.counters.sum < r'.counters.sum := by
  obtain ⟨hsum, -, hsub⟩ := getD_sub_le h.1 3
  rw [cpuUtil_of_successive h]
  constructor
  · rintro ⟨⟨d, hd, hne⟩, -⟩
    obtain rfl := Option.some.inj hd
    omega
  · intro hlt
    generalize hd : r'.counters.sum - r.counters.sum = d at hsub ⊢
    generalize r'.counters.getD 3 0 - r.counters.getD 3 0 = a at hsub ⊢
    have hpos : (0 : ℚ) < d := by exact_mod_cast (by omega : 0 < d)
    have hnonneg : (0 : ℚ) ≤ a / d := div_nonneg (Nat.cast_nonneg a) hpos.le
    have hone : (a : ℚ) / d ≤ 1 := (div_le_one hpos).mpr (by exact_mod_cast hsub)
    refine ⟨⟨d, rfl, by omega⟩, ?_, ?_⟩
    · change 0 ≤ (1 - (a : ℚ) / d) * 100
      linarith
    · change (1 - (a : ℚ) / d) * 100 ≤ 100
      linarith

/-! ## Sequences of calls -/

/-- The calls behind a reading. -/
lemma outcomes_percentages_iff {r : Reading} {rs : List Reading}
    (h : (r :: rs).IsChain Successive) :
    (∀ o ∈ outcomes (.ofCounters r.counters) (rs.map Reading.line), o.IsPercentage) ↔
      (r :: rs).IsChain fun r r' => r.counters.sum < r'.counters.sum := by
  induction rs generalizing r with
  | nil => simp [outcomes]
  | cons r' rs ih =>
    obtain ⟨hnext, hrest⟩ := List.isChain_cons_cons.mp h
    rw [List.map_cons, outcomes, List.forall_mem_cons, isPercentage_iff hnext,
      List.isChain_cons_cons, cpuUtil_of_line, ih hrest]

/-- **All calls after the first return percentages exactly if the total of the counters increases
from each line to the next.**

**Proof sketch.** The differences modulo `2 ^ 32` are those of the counters. If the total increases,
then the quotient is between zero and one, and if it stands still, then the divisor is zero. -/
theorem percentages_iff (st : Static) {r : Reading} {rs : List Reading}
    (h : (r :: rs).IsChain Successive) :
    (∀ o ∈ outcomes (cpuUtil st r.line).2 (rs.map Reading.line), o.IsPercentage) ↔
      (r :: rs).IsChain fun r r' => r.counters.sum < r'.counters.sum := by
  rw [cpuUtil_of_line, outcomes_percentages_iff h]

/-! ## Lines as they are printed -/

/-- The counters as the kernel prints them. -/
def printCounters (counters : List ℕ) : List Char :=
  counters.flatMap fun c => ' ' :: Nat.toDigits 10 c

/-- What is printed is read as it was. -/
lemma fields_printCounters {counters : List ℕ} (h : ∀ c ∈ counters, c < 2 ^ 64) :
    Fields counters (printCounters counters) := by
  induction counters with
  | nil => exact .nil (avoids_nil _)
  | cons c counters ih =>
    obtain ⟨hc, hcounters⟩ := List.forall_mem_cons.mp h
    have hvalue : decimal.value (Nat.toDigits 10 c) = c := by
      rw [value_decimal, Nat.ofDigitChars_ten_toDigits]
    have hfields := @Fields.cons [' '] (Nat.toDigits 10 c) _ _ (List.cons_ne_nil _ _)
      (List.forall_mem_singleton.mpr (by decide))
      (fun d hd => Nat.isDigit_of_mem_toDigits (by decide) (by decide) hd)
      Nat.toDigits_ne_nil (by rwa [hvalue]) (ih hcounters)
    rw [hvalue] at hfields
    simpa [printCounters] using hfields

/-- A reading as the kernel prints it. -/
def Reading.print (c : ℕ) (counters : List ℕ) (hlen : counters.length = 6)
    (hlt : ∀ n ∈ c :: counters, n < 2 ^ 64) : Reading where
  counters := c :: counters
  line := "cpu".toList ++ printCounters (c :: counters)
  isLine := ⟨by rw [List.length_cons, hlen], "cpu".toList, _, rfl, by decide,
    fields_printCounters hlt⟩

/-- Witness: a counter that passes `2 ^ 32`. -/
theorem percentages_iff_wrapping :
    let r := Reading.print (2 ^ 32 - 1) [0, 0, 5, 0, 0, 0] rfl (by decide)
    let r' := Reading.print (2 ^ 32 + 1) [0, 0, 7, 0, 0, 0] rfl (by decide)
    Successive r r' ∧
      ∀ o ∈ outcomes (cpuUtil .zero r.line).2 ([r'].map Reading.line), o.IsPercentage := by
  intro r r'
  have hsuccessive : Successive r r' := ⟨by decide, by decide⟩
  exact ⟨hsuccessive, (percentages_iff .zero (List.isChain_pair.mpr hsuccessive)).mpr
    (List.isChain_pair.mpr (by decide))⟩

/-- Two readings without a tick between them divide by zero. -/
theorem equal_readings_not_percentage :
    let r := Reading.print 1 [2, 3, 4, 5, 6, 7] rfl (by decide)
    Successive r r ∧
      ¬ ∀ o ∈ outcomes (cpuUtil .zero r.line).2 ([r].map Reading.line), o.IsPercentage := by
  intro r
  have hsame : Successive r r := ⟨by decide, by decide⟩
  refine ⟨hsame, ?_⟩
  rw [cpuUtil_of_line, outcomes_percentages_iff (List.isChain_pair.mpr hsame),
    List.isChain_pair]
  exact Nat.lt_irrefl _

end Cs238p.P5
