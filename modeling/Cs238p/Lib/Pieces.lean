import Cs238p.Lib.WhiteSpace
import Mathlib.Tactic.Common

set_option relaxedAutoImplicit false
set_option autoImplicit false

/-!
# Lists in pieces

A list is cut into pieces of a fixed length. Each piece is trimmed, and what is left of it is kept
unless it is empty.

## Main definitions

* `Pieces.pieces` — the pieces of a list; the last one may be shorter.
* `Pieces.kept` — what is left of the pieces when the elements of a kind are trimmed.
* `Pieces.InOnePiece` — the elements of the other kind are all in one piece.

## Main results

* `Pieces.kept_of_inOnePiece` — if they are in one piece, then one list is kept, which is that left
  of the whole.
* `Pieces.two_le_length_kept` — if not, then several are kept.
* `Pieces.pieces_append_of_dvd`, `Pieces.exists_pieces_append` — a list is continued by a new piece,
  or in its last one.
-/

namespace Pieces

open WhiteSpace

variable {α : Type*}

/-- The list in pieces of `n` elements. -/
def pieces (n : ℕ) : List α → List (List α)
  | [] => []
  | a :: l => (a :: l.take (n - 1)) :: pieces n (l.drop (n - 1))
termination_by l => l.length
decreasing_by
  rw [List.length_drop, List.length_cons]
  omega

/-- What is left of the pieces, without what is empty. -/
def kept (p : α → Bool) (n : ℕ) (l : List α) : List (List α) :=
  ((pieces n l).map (trim p)).filter fun w => !w.isEmpty

/-- The elements that are not of the kind are all in one piece. -/
def InOnePiece (p : α → Bool) (n : ℕ) (l : List α) : Prop :=
  ∃ k, ∀ i x, l[i]? = some x → p x = false → i / n = k

variable {p : α → Bool} {n : ℕ}

/-! ## The pieces -/

lemma pieces_nil : pieces n ([] : List α) = [] := by rw [pieces]

/-- The first piece. -/
lemma pieces_of_ne_nil (hn : 0 < n) {l : List α} (hl : l ≠ []) :
    pieces n l = l.take n :: pieces n (l.drop n) := by
  obtain ⟨m, rfl⟩ : ∃ m, n = m + 1 := ⟨n - 1, by omega⟩
  cases l with
  | nil => exact absurd rfl hl
  | cons a l => rw [pieces, Nat.add_sub_cancel, List.take_succ_cons, List.drop_succ_cons]

/-- A short list is one piece. -/
lemma pieces_of_length_le {l : List α} (hl : l ≠ []) (h : l.length ≤ n) : pieces n l = [l] := by
  have hpos : 0 < l.length := List.length_pos_of_ne_nil hl
  rw [pieces_of_ne_nil (by omega) hl, List.take_of_length_le h, List.drop_of_length_le h,
    pieces_nil]

/-- A list of `n` elements is the first piece. -/
lemma pieces_append (hn : 0 < n) {u : List α} (hu : u.length = n) (v : List α) :
    pieces n (u ++ v) = u :: pieces n v := by
  have hne : u ++ v ≠ [] := fun h => by
    rw [(List.append_eq_nil_iff.mp h).1, List.length_nil] at hu
    omega
  rw [pieces_of_ne_nil hn hne, ← hu, List.take_left, List.drop_left]

/-- Lists by induction on the number of their pieces. -/
lemma piece_induction {P : List α → Prop} (hn : 0 < n) (hshort : ∀ l, l.length ≤ n → P l)
    (hlong : ∀ u v, u.length = n → v ≠ [] → P v → P (u ++ v)) (l : List α) : P l := by
  by_cases h : l.length ≤ n
  · exact hshort l h
  · rw [← List.take_append_drop n l]
    refine hlong _ _ (by rw [List.length_take]; omega) ?_ ?_
    · rw [Ne, List.drop_eq_nil_iff]
      omega
    · exact piece_induction hn hshort hlong (l.drop n)
termination_by l.length
decreasing_by
  rw [List.length_drop]
  omega

/-- The pieces make up the list. -/
lemma flatten_pieces (hn : 0 < n) (l : List α) : (pieces n l).flatten = l := by
  induction l using piece_induction hn with
  | hshort l hl =>
    by_cases hnil : l = []
    · rw [hnil, pieces_nil, List.flatten_nil]
    · rw [pieces_of_length_le hnil hl, List.flatten_singleton]
  | hlong u v hu _ ih => rw [pieces_append hn hu, List.flatten_cons, ih]

lemma length_le_of_mem (hn : 0 < n) {l p : List α} (hp : p ∈ pieces n l) : p.length ≤ n := by
  induction l using piece_induction hn with
  | hshort l hl =>
    by_cases hnil : l = []
    · rw [hnil, pieces_nil] at hp
      cases hp
    · rw [pieces_of_length_le hnil hl, List.mem_singleton] at hp
      exact hp ▸ hl
  | hlong u v hu _ ih =>
    rw [pieces_append hn hu] at hp
    rcases List.mem_cons.mp hp with rfl | hp
    · exact hu.le
    · exact ih hp

/-- All pieces but the last are full. -/
lemma length_of_mem_dropLast (hn : 0 < n) {l p : List α} (hp : p ∈ (pieces n l).dropLast) :
    p.length = n := by
  induction l using piece_induction hn with
  | hshort l hl =>
    by_cases hnil : l = []
    · rw [hnil, pieces_nil] at hp
      cases hp
    · rw [pieces_of_length_le hnil hl] at hp
      cases hp
  | hlong u v hu hv ih =>
    have hne : pieces n v ≠ [] := by
      rw [pieces_of_ne_nil hn hv]
      exact List.cons_ne_nil _ _
    rw [pieces_append hn hu, List.dropLast_cons_of_ne_nil hne] at hp
    rcases List.mem_cons.mp hp with rfl | hp
    · exact hu
    · exact ih hp

/-- A list that is at the end of a piece is continued by a new piece. -/
lemma pieces_append_of_dvd (hn : 0 < n) {l c : List α} (hl : n ∣ l.length) (hc : c ≠ [])
    (hlen : c.length ≤ n) : pieces n (l ++ c) = pieces n l ++ [c] := by
  induction l using piece_induction hn with
  | hshort l hshort =>
    by_cases hnil : l = []
    · rw [hnil, pieces_nil, List.nil_append, List.nil_append, pieces_of_length_le hc hlen]
    · have hle := Nat.le_of_dvd (List.length_pos_of_ne_nil hnil) hl
      rw [pieces_append hn (by omega), pieces_of_length_le hnil hshort,
        pieces_of_length_le hc hlen, List.singleton_append]
  | hlong u v hu _ ih =>
    rw [List.length_append, hu, Nat.dvd_add_right (Nat.dvd_refl n)] at hl
    rw [List.append_assoc, pieces_append hn hu, pieces_append hn hu, ih hl, List.cons_append]

/-- A list that is within a piece is continued in this piece. -/
lemma exists_pieces_append (hn : 0 < n) {l c : List α} (hl : ¬ n ∣ l.length)
    (hlen : l.length % n + c.length ≤ n) :
    ∃ ps q, pieces n l = ps ++ [q] ∧ pieces n (l ++ c) = ps ++ [q ++ c] ∧
      q.length = l.length % n := by
  induction l using piece_induction hn with
  | hshort l hshort =>
    have hlt : l.length < n := by
      exact lt_of_le_of_ne hshort fun heq => hl (heq ▸ Nat.dvd_refl _)
    have hnil : l ≠ [] := by
      rintro rfl
      exact hl (Nat.dvd_zero n)
    have hmod := Nat.mod_eq_of_lt hlt
    refine ⟨[], l, pieces_of_length_le hnil hshort, ?_, hmod.symm⟩
    rw [pieces_of_length_le (List.append_ne_nil_of_left_ne_nil hnil c)
      (by rw [List.length_append]; omega), List.nil_append]
  | hlong u v hu _ ih =>
    have hlength : (u ++ v).length = n + v.length := by rw [List.length_append, hu]
    rw [hlength, Nat.add_mod_left] at hlen ⊢
    rw [hlength, Nat.dvd_add_right (Nat.dvd_refl n)] at hl
    obtain ⟨ps, q, hv, hvc, hq⟩ := ih hl hlen
    refine ⟨u :: ps, q, ?_, ?_, hq⟩
    · rw [pieces_append hn hu, hv, List.cons_append]
    · rw [List.append_assoc, pieces_append hn hu, hvc, List.cons_append]

/-! ## What is kept -/

lemma kept_nil : kept p n ([] : List α) = [] := by rw [kept, pieces_nil]; rfl

/-- A piece in front is kept unless it is blank. -/
lemma kept_append (hn : 0 < n) {u : List α} (hu : u.length = n) (v : List α) :
    kept p n (u ++ v) = if ∀ x ∈ u, p x = true then kept p n v else trim p u :: kept p n v := by
  rw [kept, pieces_append hn hu, List.map_cons, List.filter_cons]
  by_cases h : ∀ x ∈ u, p x = true
  · rw [if_pos h, trim_eq_nil_iff.mpr h]
    rfl
  · have hne : trim p u ≠ [] := fun hnil => h (trim_eq_nil_iff.mp hnil)
    rw [if_neg h, if_pos (by simpa using hne), kept]

/-- Of a short list, at most one is kept. -/
lemma kept_of_length_le {l : List α} (h : l.length ≤ n) :
    kept p n l = if ∀ x ∈ l, p x = true then [] else [trim p l] := by
  by_cases hl : l = []
  · subst hl
    rw [kept_nil, if_pos (fun x hx => absurd hx List.not_mem_nil)]
  · rw [kept, pieces_of_length_le hl h, List.map_singleton, List.filter_cons, List.filter_nil]
    by_cases hall : ∀ x ∈ l, p x = true
    · rw [if_pos hall, trim_eq_nil_iff.mpr hall]
      rfl
    · have hne : trim p l ≠ [] := fun hnil => hall (trim_eq_nil_iff.mp hnil)
      rw [if_neg hall, if_pos (by simpa using hne)]

/-- A list that begins with a piece: the elements are in that piece, or in one of the others. -/
lemma inOnePiece_append (hn : 0 < n) {u : List α} (hu : u.length = n) (v : List α) :
    InOnePiece p n (u ++ v) ↔
      (∀ x ∈ u, p x = true) ∧ InOnePiece p n v ∨ ∀ x ∈ v, p x = true := by
  constructor
  · rintro ⟨k, hk⟩
    by_cases hall : ∀ x ∈ u, p x = true
    · refine .inl ⟨hall, k - 1, fun i x hi hx => ?_⟩
      have := hk (n + i) x (by rw [List.getElem?_append_right (by omega), hu]; simpa using hi) hx
      rw [Nat.add_div_left i hn] at this
      exact Nat.eq_sub_of_add_eq this
    · push Not at hall
      obtain ⟨x, hmem, hx⟩ := hall
      obtain ⟨i, hi, rfl⟩ := List.getElem_of_mem hmem
      have hzero := hk i u[i] (by rw [List.getElem?_append_left hi, List.getElem?_eq_getElem hi])
        (by simpa using hx)
      rw [Nat.div_eq_of_lt (by omega)] at hzero
      refine .inr fun y hy => ?_
      by_contra hnot
      obtain ⟨j, hj, rfl⟩ := List.getElem_of_mem hy
      have := hk (n + j) v[j] (by
        rw [List.getElem?_append_right (by omega), hu, Nat.add_sub_cancel_left,
          List.getElem?_eq_getElem hj]) (by simpa using hnot)
      rw [Nat.add_div_left j hn, ← hzero] at this
      exact Nat.succ_ne_zero _ this
  · rintro (⟨hall, k, hk⟩ | hall)
    · refine ⟨k + 1, fun i x hi hx => ?_⟩
      by_cases hlt : i < n
      · rw [List.getElem?_append_left (by omega)] at hi
        rw [hall x (List.mem_of_getElem? hi)] at hx
        cases hx
      · rw [List.getElem?_append_right (by omega), hu] at hi
        rw [← hk (i - n) x hi hx, ← Nat.add_div_left _ hn, Nat.add_sub_cancel' (by omega)]
    · refine ⟨0, fun i x hi hx => ?_⟩
      by_cases hlt : i < n
      · exact Nat.div_eq_of_lt hlt
      · rw [List.getElem?_append_right (by omega)] at hi
        rw [hall x (List.mem_of_getElem? hi)] at hx
        cases hx

/-- In a short list they are in one piece. -/
lemma inOnePiece_of_length_le {l : List α} (h : l.length ≤ n) : InOnePiece p n l := by
  refine ⟨0, fun i x hi _ => Nat.div_eq_of_lt ?_⟩
  have := (List.getElem?_eq_some_iff.mp hi).1
  omega

/-- Elements of the kind at the end make no difference. -/
lemma inOnePiece_append_right {l bs : List α} (h : ∀ x ∈ bs, p x = true) :
    InOnePiece p n (l ++ bs) ↔ InOnePiece p n l := by
  refine exists_congr fun k => ⟨fun hk i x hi hx => ?_, fun hk i x hi hx => ?_⟩
  · have hlt := (List.getElem?_eq_some_iff.mp hi).1
    exact hk i x (by rw [List.getElem?_append_left hlt, hi]) hx
  · by_cases hlt : i < l.length
    · rw [List.getElem?_append_left hlt] at hi
      exact hk i x hi hx
    · rw [List.getElem?_append_right (by omega)] at hi
      rw [h x (List.mem_of_getElem? hi)] at hx
      cases hx

/-! ## How many pieces are kept -/

/-- Nothing is kept of a blank list. -/
lemma kept_of_blank (hn : 0 < n) {l : List α} (h : ∀ x ∈ l, p x = true) : kept p n l = [] := by
  induction l using piece_induction hn with
  | hshort l hl => rw [kept_of_length_le hl, if_pos h]
  | hlong u v hu _ ih =>
    rw [kept_append hn hu, if_pos fun x hx => h x (List.mem_append_left v hx)]
    exact ih fun x hx => h x (List.mem_append_right u hx)

/-- **If the other elements are in one piece, then what is left of the list is kept.** -/
theorem kept_of_inOnePiece (hn : 0 < n) {l : List α} (hone : InOnePiece p n l)
    (hblank : ¬ ∀ x ∈ l, p x = true) : kept p n l = [trim p l] := by
  induction l using piece_induction hn with
  | hshort l hl => rw [kept_of_length_le hl, if_neg hblank]
  | hlong u v hu _ ih =>
    rw [kept_append hn hu]
    by_cases hall : ∀ x ∈ u, p x = true
    · have hv : ¬ ∀ x ∈ v, p x = true := fun hv => hblank fun x hx =>
        (List.mem_append.mp hx).elim (hall x) (hv x)
      obtain ⟨-, hone⟩ := ((inOnePiece_append hn hu v).mp hone).resolve_right hv
      rw [if_pos hall, ih hone hv, trim_append_left hall]
    · have hv := ((inOnePiece_append hn hu v).mp hone).resolve_left fun h => hall h.1
      rw [if_neg hall, kept_of_blank hn hv, trim_append_right hv]

/-- Something is kept of a list that is not blank. -/
lemma one_le_length_kept (hn : 0 < n) {l : List α} (hblank : ¬ ∀ x ∈ l, p x = true) :
    1 ≤ (kept p n l).length := by
  induction l using piece_induction hn with
  | hshort l hl =>
    rw [kept_of_length_le hl, if_neg hblank]
    exact le_rfl
  | hlong u v hu _ ih =>
    rw [kept_append hn hu]
    split
    · next hall =>
      exact ih fun hv => hblank fun x hx => (List.mem_append.mp hx).elim (hall x) (hv x)
    · exact Nat.succ_le_succ (Nat.zero_le _)

/-- **If the other elements are in several pieces, then several are kept.** -/
theorem two_le_length_kept (hn : 0 < n) {l : List α} (hone : ¬ InOnePiece p n l) :
    2 ≤ (kept p n l).length := by
  induction l using piece_induction hn with
  | hshort l hl => exact absurd (inOnePiece_of_length_le hl) hone
  | hlong u v hu _ ih =>
    rw [inOnePiece_append hn hu, not_or, not_and] at hone
    rw [kept_append hn hu]
    split
    · next hall => exact ih (hone.1 hall)
    · exact Nat.succ_le_succ (one_le_length_kept hn hone.2)

end Pieces
