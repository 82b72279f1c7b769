import Cs238p.Lib.Transition
import Cs238p.P3.Scm

set_option relaxedAutoImplicit false
set_option autoImplicit false

/-!
# The blocks of the SCM allocator and the mapping

The test of `scm_malloc` compares the utilized bytes with the size of the mapping, although the
utilized bytes begin behind the first word, and its sums are taken modulo `2 ^ 64`. This module
determines which requests are answered with a block that leaves the mapping.

## Main definitions

* `ScmRequest`, `Scm.serve` — calls of `scm_malloc` and `scm_strdup`.
* `Scm.Contained` — the call returns a block inside the mapping, or changes nothing.
* `Scm.Wraps`, `Scm.TakesTail` — the two ways in which the test of `scm_malloc` is passed although
  there is no room.

## Main results

* `contained_iff_sound` — along a run, every block lies inside the mapping if and only if no call
  passes the test in one of the two ways.
* `frame_of_sound` — such a run changes no byte outside of the mapping.

## Implementation notes

Sizes are taken modulo `2 ^ 64`, pointers are not: a pointer past the end of the mapping is outside
of it.
-/

namespace Cs238p.P3

open Transition

/-- A call of `scm_malloc` or `scm_strdup`. -/
inductive ScmRequest
  | malloc (n : ℕ)
  | strdup (s : CString)
  deriving DecidableEq

/-- The number of bytes that a call requests. -/
def ScmRequest.size : ScmRequest → ℕ
  | .malloc n => n
  | .strdup s => s.strlen + 1

namespace Scm

/-- The call: the pointer that it returns and the handle after it. -/
def serve (scm : Scm) : ScmRequest → Option ℕ × Scm
  | .malloc n => scmMalloc scm n
  | .strdup s => scmStrdup scm s

/-- The handle after a call. -/
def step (scm : Scm) (req : ScmRequest) : Option Scm := some (scm.serve req).2

/-- The block at `p` with `n` bytes of payload begins and ends inside the mapping, its header holds
its size, and the next block begins behind it. -/
structure Holds (scm scm' : Scm) (n p : ℕ) : Prop where
  start : virtAddr + 2 + 8 ≤ p
  stop : p + n ≤ virtAddr + scm.capacity
  size : scm'.mem.word (p - 8) 8 = 2 + 8 + n
  next : p + n = addr + scm'.utilized

/-- The call returns a block inside the mapping, or null and changes nothing. -/
def Contained (scm : Scm) (req : ScmRequest) : Prop :=
  match scm.serve req with
  | (some p, scm') => scm.Holds scm' req.size p
  | (none, scm') => scm' = scm

/-- The size of the block and the utilized bytes do not fit into a `size_t`, and the remainder of
their sum passes the test. -/
def Wraps (scm : Scm) (n : ℕ) : Prop := 2 ^ 64 ≤ scm.utilized + (2 + 8 + n) ∧ scm.Fits n

/-- The block would end in the last eight bytes that the test allows for, which lie behind the end
of the mapping. -/
def TakesTail (scm : Scm) (n : ℕ) : Prop :=
  scm.utilized + (2 + 8 + n) ≤ scm.capacity ∧ scm.capacity < scm.utilized + (2 + 8 + n) + 8

/-- The test of `scm_malloc` is not passed in one of the two ways. -/
def Sound (scm : Scm) (req : ScmRequest) : Prop :=
  ¬ scm.Wraps req.size ∧ ¬ scm.TakesTail req.size

instance (scm : Scm) (n : ℕ) : Decidable (scm.Wraps n) := inferInstanceAs (Decidable (_ ∧ _))

instance (scm : Scm) (n : ℕ) : Decidable (scm.TakesTail n) := inferInstanceAs (Decidable (_ ∧ _))

instance (scm : Scm) : DecidablePred scm.Sound := fun _ => inferInstanceAs (Decidable (_ ∧ _))

/-! ## One call -/

variable {scm : Scm} {req : ScmRequest} {n : ℕ}

/-- A call whose request does not fit changes nothing. -/
lemma serve_of_not_fits (h : ¬ scm.Fits req.size) : scm.serve req = (none, scm) := by
  cases req with
  | malloc n => exact scmMalloc_of_not_fits h
  | strdup s => exact scmStrdup_of_not_fits h

/-- What a call does whose request fits: its block follows the utilized bytes, and the payload is
all that `scm_strdup` changes in addition. -/
lemma serve_of_fits (h : scm.Fits req.size) : ∃ scm',
    scm.serve req = (some (addr + scm.utilized + 2 + 8), scm') ∧
      scm'.utilized = (scm.grow req.size).utilized ∧ scm'.capacity = scm.capacity ∧
      (∀ x < addr + scm.utilized + 2 + 8, scm'.mem x = (scm.grow req.size).mem x) ∧
      ∀ x, x ∉ scm.place req.size → x ∉ counterSpan → scm'.mem x = scm.mem x := by
  cases req with
  | malloc n =>
    exact ⟨_, scmMalloc_of_fits h, rfl, rfl, fun _ _ => rfl, fun _ => grow_frame⟩
  | strdup s =>
    refine ⟨_, scmStrdup_of_fits h, rfl, rfl, fun x hx => ?_, fun _ => growString_frame⟩
    refine Mem.write_of_not_mem ?_
    rw [Span.mem_mk]
    omega

/-- A block that the sums do not wrap around has its size in its header. -/
lemma word_grow (h : scm.utilized + (2 + 8 + n) < 2 ^ 64) :
    (scm.grow n).mem.word (addr + scm.utilized + 2) 8 = 2 + 8 + n := by
  have hsize : sizeT (2 + 8 + n) = 2 + 8 + n := Nat.mod_eq_of_lt (by omega)
  unfold grow
  simp only
  rw [Mem.word_setWord_of_disjoint, Mem.word_setWord, hsize]
  · rw [hsize]
    omega
  · rw [Span.disjoint_def]
    simp only [addr]
    omega

/-- **A call returns a block inside the mapping or changes nothing if and only if** its test is not
passed in one of the two ways. -/
lemma contained_iff (hcapacity : scm.capacity < 2 ^ 64) : scm.Contained req ↔ scm.Sound req := by
  by_cases hfits : scm.Fits req.size
  · obtain ⟨scm', hserve, hutilized, -, hmem, -⟩ := serve_of_fits hfits
    unfold Contained Sound
    rw [hserve]
    constructor
    · intro h
      have hstop := h.stop
      refine ⟨fun hwraps => ?_, fun htail => ?_⟩
      · have hover := hwraps.1
        simp only [addr] at hstop
        omega
      · have hlast := htail.2
        simp only [addr] at hstop
        omega
    · rintro ⟨hwraps, htail⟩
      have hlt : scm.utilized + (2 + 8 + req.size) < 2 ^ 64 := by
        by_contra hover
        exact hwraps ⟨by omega, hfits⟩
      have hsum : sizeT (scm.utilized + sizeT (2 + 8 + req.size)) =
          scm.utilized + (2 + 8 + req.size) := by
        unfold sizeT
        omega
      have hroom : scm.utilized + (2 + 8 + req.size) + 8 ≤ scm.capacity := by
        by_contra hlast
        have hle : sizeT (scm.utilized + sizeT (2 + 8 + req.size)) ≤ scm.capacity := hfits
        exact htail ⟨by omega, by omega⟩
      refine ⟨?_, ?_, ?_, ?_⟩
      · simp only [addr]
        omega
      · simp only [addr]
        omega
      · rw [← word_grow hlt]
        refine Mem.word_congr fun x hx => hmem x ?_
        rw [Span.mem_mk] at hx
        omega
      · rw [hutilized]
        show _ = addr + sizeT (scm.utilized + sizeT (2 + 8 + req.size))
        omega
  · unfold Contained
    rw [serve_of_not_fits hfits]
    refine iff_of_true rfl ⟨fun hwraps => hfits hwraps.2, fun htail => hfits ?_⟩
    have hle := htail.1
    unfold Fits sizeT
    omega

@[simp] lemma capacity_serve (scm : Scm) (req : ScmRequest) :
    (scm.serve req).2.capacity = scm.capacity := by
  by_cases hfits : scm.Fits req.size
  · obtain ⟨scm', hserve, -, hcapacity, -⟩ := serve_of_fits hfits
    rw [hserve, hcapacity]
  · rw [serve_of_not_fits hfits]

lemma capacity_step {scm' : Scm} (h : scm.step req = some scm') :
    scm'.capacity = scm.capacity := by
  obtain rfl := Option.some.inj h
  exact capacity_serve scm req

/-- A sound call changes no byte outside of the mapping. -/
lemma Sound.frame (h : scm.Sound req) (hcapacity : scm.capacity < 2 ^ 64) {x : ℕ}
    (hx : x ∉ mappedSpan scm.capacity) : (scm.serve req).2.mem x = scm.mem x := by
  by_cases hfits : scm.Fits req.size
  · obtain ⟨scm', hserve, -, -, -, hframe⟩ := serve_of_fits hfits
    have hholds := (contained_iff hcapacity).mpr h
    unfold Contained at hholds
    rw [hserve] at hholds
    have hstop := hholds.stop
    rw [mappedSpan, Span.mem_mk] at hx
    rw [hserve]
    refine hframe x ?_ ?_
    · simp only [place, Span.mem_mk, addr] at hstop ⊢
      omega
    · simp only [counterSpan, Span.mem_mk, addr] at hstop ⊢
      omega
  · rw [serve_of_not_fits hfits]

end Scm

/-! ## Runs -/

/-- **Along a run of `scm_malloc` and `scm_strdup` on an open region, every block that is returned
lies inside the mapping, and every other call changes nothing, if and only if** no call passes the
test because a sum wraps around or because the test forgets the first word of the mapping. -/
theorem contained_iff_sound (file : Mem) (capacity : Fin (2 ^ 64)) (truncate : Bool)
    (reqs : List ScmRequest) :
    Always Scm.step Scm.Contained (scmOpen file capacity truncate) reqs ↔
      Always Scm.step Scm.Sound (scmOpen file capacity truncate) reqs := by
  have hopen : (scmOpen file capacity truncate).capacity < 2 ^ 64 := by
    cases truncate <;> exact capacity.isLt
  refine always_congr_of_invariant (I := fun scm => scm.capacity < 2 ^ 64) (E := fun _ _ => True)
    ?_ (fun scm req hcapacity _ => Scm.contained_iff hcapacity) hopen
    (always_of_forall_mem _ fun _ _ => trivial)
  intro scm req scm' hcapacity _ _ hstep
  rw [Scm.capacity_step hstep]
  exact hcapacity

/-- A region of 4096 bytes answers a request of 4086 bytes with a block that ends eight bytes
behind the mapping, and a request of `2 ^ 64 - 1` bytes with a block of nine bytes. -/
theorem not_contained_tail_wrap :
    ¬ Always Scm.step Scm.Contained (scmOpen (fun _ => 0) 4096 true) [.malloc 4086] ∧
      ¬ Always Scm.step Scm.Contained (scmOpen (fun _ => 0) 4096 true) [.malloc (2 ^ 64 - 1)] := by
  have hcapacity : (scmOpen (fun _ => 0) 4096 true).capacity < 2 ^ 64 := by decide
  refine ⟨fun h => ?_, fun h => ?_⟩
  · exact absurd ((Scm.contained_iff hcapacity).mp h.1) (by decide +kernel)
  · exact absurd ((Scm.contained_iff hcapacity).mp h.1) (by decide +kernel)

/-- A run of sound calls changes no byte outside of the mapping. -/
theorem frame_of_sound {scm scm' : Scm} (hcapacity : scm.capacity < 2 ^ 64)
    {reqs : List ScmRequest} (h : Always Scm.step Scm.Sound scm reqs)
    (hrun : run Scm.step scm reqs = some scm') {x : ℕ} (hx : x ∉ mappedSpan scm.capacity) :
    scm'.mem x = scm.mem x := by
  have hinv : scm'.capacity = scm.capacity ∧ scm'.mem x = scm.mem x := by
    refine invariant_run_of_always (I := fun t => t.capacity = scm.capacity ∧ t.mem x = scm.mem x)
      ?_ ⟨rfl, rfl⟩ h hrun
    rintro t req t' ⟨hcap, hmem⟩ hsound hstep
    obtain rfl := Option.some.inj hstep
    refine ⟨(Scm.capacity_serve t req).trans hcap, ?_⟩
    rw [← hcap] at hcapacity hx
    rw [hsound.frame hcapacity hx, hmem]
  exact hinv.2

end Cs238p.P3
