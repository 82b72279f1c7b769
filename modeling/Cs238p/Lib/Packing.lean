import Mathlib.Data.List.Perm.Subperm
import Mathlib.Order.Interval.Finset.Nat
import Cs238p.Lib.Record

set_option relaxedAutoImplicit false
set_option autoImplicit false

/-!
# Intervals that lie apart

A list of intervals of addresses is packed into a range if its members lie in the range and are
pairwise disjoint. The order of the list does not matter, and members may be dropped, so a statement
about a few of them follows from counting.

## Main definitions

* `Span.Packed` — pairwise disjoint intervals inside a range.

## Main results

* `Span.Packed.subperm` — some of the intervals, in any order.
* `Span.Packed.apart` — the members of two parts of the list are disjoint.
* `Span.Packed.length_le` — no more non-empty intervals than addresses.
-/

namespace Span

/-- The intervals are pairwise disjoint and lie inside `[lo, hi)`. -/
structure Packed (lo hi : ℕ) (bs : List Span) : Prop where
  disjoint : bs.Pairwise Span.Disjoint
  start : ∀ b ∈ bs, lo ≤ b.start
  stop : ∀ b ∈ bs, b.stop ≤ hi

variable {lo hi : ℕ} {b : Span} {bs cs ds : List Span}

/-- Some of the intervals, in any order. -/
theorem Packed.subperm (h : Packed lo hi bs) (hsub : cs.Subperm bs) : Packed lo hi cs := by
  refine ⟨?_, fun b hb => h.start b (hsub.subset hb), fun b hb => h.stop b (hsub.subset hb)⟩
  obtain ⟨ds, hperm, hsublist⟩ := hsub
  exact (hperm.pairwise_iff Disjoint.symm).mp (h.disjoint.sublist hsublist)

/-- Some of the intervals, which are found by counting. -/
lemma Packed.of_count (h : Packed lo hi bs) (hcount : ∀ s, cs.count s ≤ bs.count s) :
    Packed lo hi cs :=
  h.subperm (List.subperm_iff_count.mpr hcount)

/-- The members of two parts of the list are disjoint. -/
theorem Packed.apart (h : Packed lo hi bs)
    (hcount : ∀ s, cs.count s + ds.count s ≤ bs.count s) :
    ∀ c ∈ cs, ∀ d ∈ ds, c.Disjoint d := by
  have happend : Packed lo hi (cs ++ ds) := h.of_count fun s => by
    rw [List.count_append]
    exact hcount s
  exact (List.pairwise_append.mp happend.disjoint).2.2

lemma packed_cons : Packed lo hi (b :: bs) ↔
    (lo ≤ b.start ∧ b.stop ≤ hi ∧ ∀ c ∈ bs, b.Disjoint c) ∧ Packed lo hi bs := by
  constructor
  · intro h
    obtain ⟨hb, hbs⟩ := List.pairwise_cons.mp h.disjoint
    exact ⟨⟨h.start b List.mem_cons_self, h.stop b List.mem_cons_self, hb⟩, hbs,
      fun c hc => h.start c (List.mem_cons_of_mem b hc),
      fun c hc => h.stop c (List.mem_cons_of_mem b hc)⟩
  · rintro ⟨⟨hstart, hstop, hb⟩, h⟩
    refine ⟨List.pairwise_cons.mpr ⟨hb, h.disjoint⟩, ?_, ?_⟩
    · intro c hc
      rcases List.mem_cons.mp hc with rfl | hc
      · exact hstart
      · exact h.start c hc
    · intro c hc
      rcases List.mem_cons.mp hc with rfl | hc
      · exact hstop
      · exact h.stop c hc

/-- There are no more non-empty intervals than addresses in the range: their starts differ. -/
theorem Packed.length_le (h : Packed lo hi bs) (hpos : ∀ b ∈ bs, 0 < b.len) :
    bs.length ≤ hi - lo := by
  have hnodup : (bs.map Span.start).Nodup := by
    refine List.pairwise_map.mpr (h.disjoint.imp_of_mem fun {b c} hb hc hdisj heq => ?_)
    have hblen := hpos b hb
    have hclen := hpos c hc
    rw [disjoint_def] at hdisj
    omega
  have hsub : (bs.map Span.start).toFinset ⊆ Finset.Ico lo hi := by
    intro x hx
    obtain ⟨b, hb, rfl⟩ := List.mem_map.mp (List.mem_toFinset.mp hx)
    have hstart := h.start b hb
    have hstop := h.stop b hb
    have hlen := hpos b hb
    rw [Span.stop] at hstop
    exact Finset.mem_Ico.mpr ⟨hstart, by omega⟩
  have hcard := Finset.card_le_card hsub
  rwa [List.toFinset_card_of_nodup hnodup, List.length_map, Nat.card_Ico] at hcard

end Span

/-- A list of intervals that has all members of another one, which is found by counting. -/
lemma Mem.AgreesOutside.of_count {W V : List Span} {m m' : Mem} (h : AgreesOutside W m m')
    (hcount : ∀ s, W.count s ≤ V.count s) : AgreesOutside V m m' :=
  h.of_subset (List.subperm_iff_count.mpr hcount).subset
