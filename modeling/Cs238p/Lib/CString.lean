import Mathlib.Data.List.Lex
import Mathlib.Order.Lattice

set_option relaxedAutoImplicit false
set_option autoImplicit false

/-!
# C strings and `strcmp`

A C string is a sequence of bytes none of which is NUL. Strings are ordered lexicographically by
unsigned bytes, a proper prefix being smaller; `strcmp` decides this order.

## Main definitions

* `CString` — NUL-free byte strings, with their linear order.
* `CString.strcmp` — the C library function, on the bytes up to and including the terminator.

## Main results

* `CString.strcmp_neg_iff`, `CString.strcmp_eq_zero_iff`, `CString.strcmp_pos_iff` — the sign of
  `strcmp` is the order of the strings.
-/

/-- The bytes of a C string, without the terminator. -/
structure CString where
  bytes : List UInt8
  nul_free : 0 ∉ bytes

namespace CString

@[ext] lemma ext {s t : CString} (h : s.bytes = t.bytes) : s = t := by
  cases s
  cases t
  simpa using h

/-- The empty string. -/
def empty : CString := ⟨[], by simp⟩

/-- `strlen`. -/
def strlen (s : CString) : ℕ := s.bytes.length

/-- The bytes as numbers. -/
def codes (s : CString) : List ℕ := s.bytes.map UInt8.toNat

lemma codes_injective : Function.Injective codes := fun _ _ h =>
  ext (List.map_injective_iff.mpr (fun _ _ => UInt8.toNat_inj.mp) h)

/-- Strings are ordered lexicographically by their bytes. -/
instance : LinearOrder CString := LinearOrder.lift' codes codes_injective

/-- `strcmp` on byte sequences that are followed by a NUL: the difference of the first two bytes
that differ. -/
def strcmpBytes : List UInt8 → List UInt8 → ℤ
  | [], [] => 0
  | [], b :: _ => 0 - b.toNat
  | a :: _, [] => a.toNat
  | a :: as, b :: bs => if a = b then strcmpBytes as bs else (a.toNat : ℤ) - b.toNat

/-- `strcmp`. -/
def strcmp (s t : CString) : ℤ := strcmpBytes s.bytes t.bytes

/-- A byte other than NUL is positive. -/
lemma toNat_pos {b : UInt8} (h : b ≠ 0) : 0 < b.toNat := by
  have hne : b.toNat ≠ 0 := fun h0 => h (UInt8.toNat_inj.mp (by simpa using h0))
  omega

/-- The sign of `strcmp` on bytes is the lexicographic order.

**Proof sketch.** Induction on the two strings together. Equal first bytes are skipped on both
sides; where the first bytes differ their difference has the sign of their order. A string that
ends first meets a positive byte of the other. -/
lemma strcmpBytes_sign : ∀ as bs : List UInt8, 0 ∉ as → 0 ∉ bs →
    (strcmpBytes as bs < 0 ↔ as.map UInt8.toNat < bs.map UInt8.toNat) ∧
    (strcmpBytes as bs = 0 ↔ as = bs)
  | [], [], _, _ => by simp [strcmpBytes]
  | [], b :: bs, _, hb => by
    have hpos : 0 < b.toNat := toNat_pos fun h => hb (h ▸ List.mem_cons_self)
    simp [strcmpBytes]
    omega
  | a :: as, [], ha, _ => by
    have hpos : 0 < a.toNat := toNat_pos fun h => ha (h ▸ List.mem_cons_self)
    simp [strcmpBytes]
    omega
  | a :: as, b :: bs, ha, hb => by
    have ih := strcmpBytes_sign as bs (fun h => ha (List.mem_cons_of_mem _ h))
      (fun h => hb (List.mem_cons_of_mem _ h))
    rw [strcmpBytes]
    split
    · next hab =>
      subst hab
      simpa [List.cons_lt_cons_iff] using ih
    · next hab =>
      have hne : a.toNat ≠ b.toNat := fun h => hab (UInt8.toNat_inj.mp h)
      simp only [List.map_cons, List.cons_lt_cons_iff, List.cons.injEq, hab, hne, false_and,
        or_false, iff_false]
      omega

/-- `strcmp` is negative exactly on smaller strings. -/
lemma strcmp_neg_iff {s t : CString} : strcmp s t < 0 ↔ s < t :=
  (strcmpBytes_sign _ _ s.nul_free t.nul_free).1

/-- `strcmp` is zero exactly on equal strings. -/
lemma strcmp_eq_zero_iff {s t : CString} : strcmp s t = 0 ↔ s = t := by
  rw [strcmp, (strcmpBytes_sign _ _ s.nul_free t.nul_free).2, CString.ext_iff]

/-- `strcmp` is positive exactly on larger strings. -/
lemma strcmp_pos_iff {s t : CString} : 0 < strcmp s t ↔ t < s := by
  have hneg := strcmp_neg_iff (s := s) (t := t)
  have hzero := strcmp_eq_zero_iff (s := s) (t := t)
  rcases lt_trichotomy s t with h | h | h
  · have := hneg.mpr h
    constructor
    · omega
    · intro h'
      exact absurd h' h.asymm
  · have := hzero.mpr h
    subst h
    simp [this]
  · have h₁ : ¬ strcmp s t < 0 := fun h' => (hneg.mp h').asymm h
    have h₂ : strcmp s t ≠ 0 := fun h' => (hzero.mp h' ▸ h).ne rfl
    constructor
    · intro _
      exact h
    · omega

end CString
