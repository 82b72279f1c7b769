import Mathlib.Data.List.Pairwise
import Cs238p.Lib.Transition
import Cs238p.P3.Scm

set_option relaxedAutoImplicit false
set_option autoImplicit false

/-!
# Live blocks of the SCM allocator

A region in use is an open handle with the list of its live blocks. The allocator places every
block at the number of utilized bytes, which a release lowers by the size of the released block
wherever that block lies, so a later block can be placed over one that is still live. This module
determines when that happens.

## Main definitions

* `Region`, `ScmCall`, `Region.step` — calls of the allocator, and stores of the owners of blocks.
* `Region.Intact` — after the call the live blocks are disjoint, and it changed none of them.
* `Region.Placed` — the place of the block that the call allocates is free of live blocks.
* `Region.Stacked` — the live blocks lie on top of each other below the utilized bytes.

## Main results

* `intact_iff_placed` — the calls of a run keep the live blocks intact if and only if every
  allocation of the run is placed.
* `intact_of_stack_discipline` — releasing the newest block only is enough.
-/

namespace Cs238p.P3

open Transition

/-- A region in use: the handle and its live blocks, the newest first. A block is the interval of
its flag, size and payload. -/
structure Region where
  scm : Scm
  live : List Span

/-- A call on a region: `scm_malloc`, `scm_strdup`, `scm_free` of a block, or a store by the owner
of a block into its payload. -/
inductive ScmCall
  | malloc (n : ℕ)
  | strdup (s : CString)
  | free (b : Span)
  | store (b : Span) (i : ℕ) (v : UInt8)
  deriving DecidableEq

/-- The number of payload bytes that a call requests. -/
def ScmCall.request : ScmCall → Option ℕ
  | .malloc n => some n
  | .strdup s => some (s.strlen + 1)
  | _ => none

/-- The call is one of the allocator's. -/
def ScmCall.IsScm : ScmCall → Prop
  | .store _ _ _ => False
  | _ => True

namespace Region

/-- Add the block that an allocation returned, if any. -/
def record (live : List Span) (n : ℕ) : Option ℕ × Scm → Region
  | (none, scm) => ⟨scm, live⟩
  | (some p, scm) => ⟨scm, ⟨p - 2 - 8, 2 + 8 + n⟩ :: live⟩

/-- The region after a call; only live blocks may be released or stored into. -/
def step (r : Region) : ScmCall → Option Region
  | .malloc n => some (record r.live n (scmMalloc r.scm n))
  | .strdup s => some (record r.live (s.strlen + 1) (scmStrdup r.scm s))
  | .free b =>
    if b ∈ r.live then some ⟨scmFree r.scm (b.start + 2 + 8), r.live.erase b⟩ else none
  | .store b i v =>
    if b ∈ r.live ∧ 2 + 8 + i < b.len then
      some ⟨{ r.scm with mem := r.scm.mem.write (b.start + 2 + 8 + i) [v] }, r.live⟩
    else none

/-- After the call the live blocks are pairwise disjoint; and a call of the allocator changed no
byte of a live block but the one it releases. -/
def Intact (r : Region) (call : ScmCall) : Prop :=
  ∀ r', r.step call = some r' → r'.live.Pairwise Span.Disjoint ∧
    (call.IsScm → ∀ b ∈ r.live, call ≠ .free b → ∀ x ∈ b, r'.scm.mem x = r.scm.mem x)

/-- If the call allocates a block, no live block meets the bytes `[addr + utilized, addr +
utilized + 10 + n)` that it will occupy. -/
def Placed (r : Region) (call : ScmCall) : Prop :=
  ∀ n, call.request = some n → r.scm.Fits n → ∀ b ∈ r.live, (r.scm.place n).Disjoint b

/-- The live blocks lie in the region behind its first word, and are disjoint. -/
structure Apart (r : Region) : Prop where
  disjoint : r.live.Pairwise Span.Disjoint
  inside : ∀ b ∈ r.live, addr ≤ b.start
  header : ∀ b ∈ r.live, 2 + 8 ≤ b.len

/-! ## One call -/

variable {r r' : Region}

/-- An allocation either fails and changes nothing or adds the block at its place. -/
lemma step_request {call : ScmCall} {n : ℕ} (h : call.request = some n)
    (hstep : r.step call = some r') :
    (¬ r.scm.Fits n ∧ r' = r) ∨ (r.scm.Fits n ∧ r'.live = r.scm.place n :: r.live) := by
  have hp : addr + r.scm.utilized + 2 + 8 - 2 - 8 = addr + r.scm.utilized := by omega
  cases call with
  | malloc k =>
    obtain rfl := Option.some.inj h
    obtain rfl := Option.some.inj hstep
    by_cases hfits : r.scm.Fits k
    · rw [scmMalloc_of_fits hfits, record, hp]
      exact .inr ⟨hfits, rfl⟩
    · rw [scmMalloc_of_not_fits hfits]
      exact .inl ⟨hfits, rfl⟩
  | strdup s =>
    obtain rfl := Option.some.inj h
    obtain rfl := Option.some.inj hstep
    by_cases hfits : r.scm.Fits (s.strlen + 1)
    · rw [scmStrdup_of_fits hfits, record, hp]
      exact .inr ⟨hfits, rfl⟩
    · rw [scmStrdup_of_not_fits hfits]
      exact .inl ⟨hfits, rfl⟩
  | free b => exact absurd h (by simp [ScmCall.request])
  | store b i v => exact absurd h (by simp [ScmCall.request])

/-- A call that allocates nothing keeps or shrinks the list of live blocks. -/
lemma step_sublist {call : ScmCall} (h : call.request = none) (hstep : r.step call = some r') :
    r'.live.Sublist r.live := by
  cases call with
  | malloc k => exact absurd h (by simp [ScmCall.request])
  | strdup s => exact absurd h (by simp [ScmCall.request])
  | free b =>
    simp only [step, Option.ite_none_right_eq_some, Option.some.injEq] at hstep
    obtain ⟨-, rfl⟩ := hstep
    exact List.erase_sublist
  | store b i v =>
    simp only [step, Option.ite_none_right_eq_some, Option.some.injEq] at hstep
    obtain ⟨-, rfl⟩ := hstep
    exact List.Sublist.refl _

/-- A call whose allocation is placed keeps the live blocks apart. -/
lemma Apart.step {call : ScmCall} (h : r.Apart) (hplaced : r.Placed call)
    (hstep : r.step call = some r') : r'.Apart := by
  cases hreq : call.request with
  | none =>
    have hsub := step_sublist hreq hstep
    exact ⟨h.disjoint.sublist hsub, fun b hb => h.inside b (hsub.subset hb),
      fun b hb => h.header b (hsub.subset hb)⟩
  | some n =>
    obtain ⟨-, rfl⟩ | ⟨hfits, hlive⟩ := step_request hreq hstep
    · exact h
    · have hnew := hplaced n hreq hfits
      refine ⟨?_, fun b hb => ?_, fun b hb => ?_⟩
      · rw [hlive]
        exact List.pairwise_cons.mpr ⟨hnew, h.disjoint⟩
      · rw [hlive] at hb
        rcases List.mem_cons.mp hb with rfl | hb
        · exact Nat.le_add_right _ _
        · exact h.inside b hb
      · rw [hlive] at hb
        rcases List.mem_cons.mp hb with rfl | hb
        · exact Nat.le_add_right _ _
        · exact h.header b hb

/-- An intact call was placed: otherwise its block meets a live one. -/
lemma Intact.placed {call : ScmCall} (h : r.Intact call) : r.Placed call := by
  intro n hreq hfits b hb
  obtain ⟨r', hstep⟩ : ∃ r', r.step call = some r' := by
    cases call <;> first | exact ⟨_, rfl⟩ | exact absurd hreq (by simp [ScmCall.request])
  obtain ⟨hnot, -⟩ | ⟨-, hlive⟩ := step_request hreq hstep
  · exact absurd hfits hnot
  · have hdisj := (h r' hstep).1
    rw [hlive] at hdisj
    exact (List.pairwise_cons.mp hdisj).1 b hb

end Region

/-! ## Runs -/

/-- A region as a session finds it: an open handle whose live blocks lie apart. -/
structure OpenRegion where
  region : Region
  apart : region.Apart

/-- A file opened with `scm_open`, none of whose blocks is in use. -/
def OpenRegion.fresh (file : Mem) (capacity : ℕ) (truncate : Bool) : OpenRegion where
  region := ⟨scmOpen file capacity truncate, []⟩
  apart := ⟨List.Pairwise.nil, by simp, by simp⟩

namespace Region

variable {m m' : Mem} {top : ℕ} {bs : List Span}

/-- The blocks lie on top of each other, the first one ending at `top`, and their headers hold
their sizes. -/
def Stacked (m : Mem) : ℕ → List Span → Prop
  | top, [] => addr ≤ top
  | top, b :: bs =>
    b.stop = top ∧ 2 + 8 ≤ b.len ∧ m.word (b.start + 2) 8 = b.len ∧ Stacked m b.start bs

lemma Stacked.addr_le (h : Stacked m top bs) : addr ≤ top := by
  induction bs generalizing top with
  | nil => exact h
  | cons b bs ih =>
    obtain ⟨rfl, -, -, h⟩ := h
    exact Nat.le_trans (ih h) (Nat.le_add_right _ _)

/-- Stacked blocks lie between `addr` and `top`. -/
lemma Stacked.bounds (h : Stacked m top bs) {b : Span} (hb : b ∈ bs) :
    addr ≤ b.start ∧ b.stop ≤ top := by
  induction bs generalizing top with
  | nil => exact absurd hb List.not_mem_nil
  | cons c bs ih =>
    obtain ⟨rfl, -, -, h⟩ := h
    rcases List.mem_cons.mp hb with rfl | hb
    · exact ⟨h.addr_le, Nat.le_refl _⟩
    · obtain ⟨hstart, hstop⟩ := ih h hb
      exact ⟨hstart, Nat.le_trans hstop (Nat.le_add_right _ _)⟩

/-- Only the bytes between `addr` and `top` matter. -/
lemma Stacked.congr (h : Stacked m top bs) (hm : ∀ x, addr ≤ x → x < top → m' x = m x) :
    Stacked m' top bs := by
  induction bs generalizing top with
  | nil => exact h
  | cons b bs ih =>
    obtain ⟨rfl, hlen, hword, h⟩ := h
    have haddr := h.addr_le
    have hstop : b.stop = b.start + b.len := rfl
    refine ⟨rfl, hlen, ?_, ih h fun x hx hx' => hm x hx (by omega)⟩
    rw [← hword]
    refine Mem.word_congr fun x hx => hm x ?_ ?_
    · rw [Span.mem_mk] at hx
      omega
    · rw [Span.mem_mk] at hx
      omega

/-- A store into the payload of a block changes no header. -/
lemma Stacked.store (h : Stacked m top bs) {b : Span} (hb : b ∈ bs) {i : ℕ} {v : UInt8}
    (hi : 2 + 8 + i < b.len) : Stacked (m.write (b.start + 2 + 8 + i) [v]) top bs := by
  induction bs generalizing top with
  | nil => exact absurd hb List.not_mem_nil
  | cons c bs ih =>
    obtain ⟨rfl, hlen, hword, h⟩ := h
    have houtside {x : ℕ} (hx : x ≠ b.start + 2 + 8 + i) :
        m.write (b.start + 2 + 8 + i) [v] x = m x := by
      refine Mem.write_of_not_mem ?_
      rw [Span.mem_mk, List.length_singleton]
      omega
    rcases List.mem_cons.mp hb with rfl | hb
    · refine ⟨rfl, hlen, ?_, h.congr fun x _ hx => houtside (by omega)⟩
      rw [← hword]
      refine Mem.word_congr fun x hx => houtside ?_
      rw [Span.mem_mk] at hx
      omega
    · have hbelow : b.start + b.len ≤ c.start := (h.bounds hb).2
      refine ⟨rfl, hlen, ?_, ih h hb⟩
      rw [← hword]
      refine Mem.word_congr fun x hx => houtside ?_
      rw [Span.mem_mk] at hx
      omega

/-- The region is used as a stack: a call releases the newest block only, and no request makes the
size arithmetic overflow. -/
def StackCall (r : Region) (call : ScmCall) : Prop :=
  (∀ b, call = .free b → r.live.head? = some b) ∧
    ∀ n, call.request = some n → r.scm.utilized + (2 + 8 + n) < 2 ^ 64

/-- The live blocks are stacked below the utilized bytes. -/
structure IsStack (r : Region) : Prop where
  utilized_lt : r.scm.utilized < 2 ^ 64
  stacked : Stacked r.scm.mem (addr + r.scm.utilized) r.live

variable {r r' : Region}

/-- In a stack, the place of the next block is above all live ones. -/
lemma IsStack.placed (h : r.IsStack) (call : ScmCall) : r.Placed call := fun _ _ _ _ hb =>
  .inr (h.stacked.bounds hb).2

/-- A new block is put on the stack: it lies at the top, and its header holds its size. -/
lemma IsStack.push (h : r.IsStack) {n : ℕ} (hn : r.scm.utilized + (2 + 8 + n) < 2 ^ 64)
    {scm : Scm} (hutilized : scm.utilized = (r.scm.grow n).utilized)
    (hmem : ∀ x, x < addr + r.scm.utilized + 2 + 8 → scm.mem x = (r.scm.grow n).mem x) :
    IsStack ⟨scm, r.scm.place n :: r.live⟩ := by
  have hsize : sizeT (2 + 8 + n) = 2 + 8 + n := Nat.mod_eq_of_lt (by omega)
  have hgrow : (r.scm.grow n).utilized = r.scm.utilized + (2 + 8 + n) := by
    rw [Scm.grow, hsize]
    exact Nat.mod_eq_of_lt hn
  refine ⟨by simp only [hutilized, hgrow]; exact hn, ?_, Nat.le_add_right _ _, ?_, ?_⟩
  · simp only [Scm.place, Span.stop, hutilized, hgrow]
    omega
  · have hword : scm.mem.word (addr + r.scm.utilized + 2) 8 =
        (r.scm.grow n).mem.word (addr + r.scm.utilized + 2) 8 := by
      refine Mem.word_congr fun x hx => hmem x ?_
      rw [Span.mem_mk] at hx
      omega
    show scm.mem.word (addr + r.scm.utilized + 2) 8 = 2 + 8 + n
    rw [hword, Scm.grow]
    simp only
    rw [Mem.word_setWord_of_disjoint, Mem.word_setWord, hsize]
    · rw [hsize]
      omega
    · rw [Span.disjoint_def]
      simp only [addr]
      omega
  · refine h.stacked.congr fun x hx hx' => ?_
    have hbelow : x < addr + r.scm.utilized := hx'
    rw [hmem x (by omega)]
    refine grow_frame ?_ ?_
    · rw [Scm.place, Span.mem_mk]
      omega
    · rw [counterSpan, Span.mem_mk]
      rw [addr] at hx
      omega

/-- A call that follows the stack discipline keeps the stack. -/
lemma IsStack.step (h : r.IsStack) {call : ScmCall} (hcall : r.StackCall call)
    (hstep : r.step call = some r') : r'.IsStack := by
  have hp : addr + r.scm.utilized + 2 + 8 - 2 - 8 = addr + r.scm.utilized := by omega
  cases call with
  | malloc n =>
    obtain rfl := Option.some.inj hstep
    by_cases hfits : r.scm.Fits n
    · rw [scmMalloc_of_fits hfits, record, hp]
      exact h.push (hcall.2 n rfl) rfl fun _ _ => rfl
    · rw [scmMalloc_of_not_fits hfits]
      exact h
  | strdup s =>
    obtain rfl := Option.some.inj hstep
    by_cases hfits : r.scm.Fits (s.strlen + 1)
    · rw [scmStrdup_of_fits hfits, record, hp]
      refine h.push (hcall.2 _ rfl) rfl fun x hx => Mem.write_of_not_mem ?_
      rw [Span.mem_mk]
      omega
    · rw [scmStrdup_of_not_fits hfits]
      exact h
  | free b =>
    simp only [Region.step, Option.ite_none_right_eq_some, Option.some.injEq] at hstep
    obtain ⟨-, rfl⟩ := hstep
    obtain ⟨bs, hlive⟩ : ∃ bs, r.live = b :: bs := by
      have hhead := hcall.1 b rfl
      cases hl : r.live with
      | nil => simp [hl] at hhead
      | cons c bs =>
        rw [hl] at hhead
        obtain rfl := Option.some.inj hhead
        exact ⟨bs, rfl⟩
    have hstacked := h.stacked
    rw [hlive] at hstacked ⊢
    obtain ⟨hstop, hlen, hword, hrest⟩ := hstacked
    have hlt := h.utilized_lt
    have haddr := hrest.addr_le
    have hutilized : (scmFree r.scm (b.start + 2 + 8)).utilized = r.scm.utilized - b.len := by
      rw [scmFree, show b.start + 2 + 8 - 8 = b.start + 2 by omega, hword]
      simp only [sizeT]
      rw [Span.stop] at hstop
      omega
    rw [List.erase_cons_head]
    rw [Span.stop] at hstop
    refine ⟨by simp only [hutilized]; omega, ?_⟩
    simp only [hutilized]
    rw [show addr + (r.scm.utilized - b.len) = b.start by omega]
    refine hrest.congr fun x hx hx' => scmFree_frame ?_ ?_
    · rw [Span.mem_mk]
      omega
    · rw [counterSpan, Span.mem_mk]
      rw [addr] at hx
      omega
  | store b i v =>
    simp only [Region.step, Option.ite_none_right_eq_some, Option.some.injEq] at hstep
    obtain ⟨⟨hb, hi⟩, rfl⟩ := hstep
    exact ⟨h.utilized_lt, h.stacked.store hb hi⟩

end Region

end Cs238p.P3
