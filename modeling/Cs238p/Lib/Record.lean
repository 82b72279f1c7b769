import Cs238p.Lib.Memory

set_option relaxedAutoImplicit false
set_option autoImplicit false

/-!
# Records in memory

A record type lays its fields out at fixed offsets, without overlap. Operations on data structures
of records change a few intervals of the memory and leave the rest alone.

## Main definitions

* `RecordLayout` — the offsets and widths of the fields of a record type.
* `RecordLayout.get`, `RecordLayout.set` — access to a field of the record at an address.
* `Mem.AgreesOutside` — two memories are equal outside of a list of intervals.

## Main results

* `RecordLayout.get_set_self`, `RecordLayout.get_set_of_ne` — what was stored in a field is read
  back, and the other fields keep their values.
* `RecordLayout.agreesOutside_set` — a store into a field changes its record only.
* `RecordLayout.set_comm_of_ne`, `RecordLayout.set_comm_of_disjoint` — stores that may be exchanged.
-/

/-- The layout of a record type with fields `φ`. -/
structure RecordLayout (φ : Type) where
  size : ℕ
  off : φ → ℕ
  width : φ → ℕ
  inside : ∀ f, off f + width f ≤ size
  apart : ∀ f g, f ≠ g → (Span.mk (off f) (width f)).Disjoint ⟨off g, width g⟩

namespace Mem

/-- The memories are equal outside of the intervals. -/
def AgreesOutside (W : List Span) (m m' : Mem) : Prop := ∀ x, (∀ s ∈ W, x ∉ s) → m' x = m x

variable {W V : List Span} {m m' m'' : Mem}

@[refl] lemma AgreesOutside.refl (W : List Span) (m : Mem) : AgreesOutside W m m := fun _ _ => rfl

lemma AgreesOutside.trans (h : AgreesOutside W m m') (h' : AgreesOutside W m' m'') :
    AgreesOutside W m m'' := fun x hx => (h' x hx).trans (h x hx)

/-- A list of intervals that covers another one. -/
lemma AgreesOutside.mono (h : AgreesOutside W m m')
    (hW : ∀ s ∈ W, ∃ t ∈ V, s.Within t) : AgreesOutside V m m' := by
  intro x hx
  apply h
  intro s hs hxs
  obtain ⟨t, ht, hst⟩ := hW s hs
  exact hx t ht (hst.mem hxs)

lemma AgreesOutside.of_subset (h : AgreesOutside W m m') (hW : W ⊆ V) : AgreesOutside V m m' :=
  h.mono fun s hs => ⟨s, hW hs, Span.Within.refl s⟩

/-- An interval that is disjoint from all of the changed ones keeps its bytes. -/
lemma AgreesOutside.eq_of_disjoint (h : AgreesOutside W m m') {b : Span}
    (hb : ∀ s ∈ W, s.Disjoint b) {x : ℕ} (hx : x ∈ b) : m' x = m x :=
  h x fun s hs => (hb s hs).symm.not_mem hx

lemma agreesOutside_write (m : Mem) (a : ℕ) (bs : List UInt8) :
    AgreesOutside [⟨a, bs.length⟩] m (m.write a bs) :=
  fun _ hx => write_of_not_mem (hx _ List.mem_cons_self)

lemma agreesOutside_setWord (m : Mem) (a k v : ℕ) :
    AgreesOutside [⟨a, k⟩] m (m.setWord a k v) :=
  fun _ hx => setWord_of_not_mem (hx _ List.mem_cons_self)

end Mem

namespace RecordLayout

variable {φ : Type} (L : RecordLayout φ)

/-- The bytes of the record at an address. -/
def span (a : ℕ) : Span := ⟨a, L.size⟩

/-- The value of a field of the record at an address. -/
def get (m : Mem) (a : ℕ) (f : φ) : ℕ := m.word (a + L.off f) (L.width f)

/-- Store a value in a field of the record at an address. -/
def set (m : Mem) (a : ℕ) (f : φ) (v : ℕ) : Mem := m.setWord (a + L.off f) (L.width f) v

/-- The bytes of a field lie inside the record. -/
lemma field_within (L : RecordLayout φ) {a : ℕ} {f : φ} :
    (Span.mk (a + L.off f) (L.width f)).Within (L.span a) := by
  have hf := L.inside f
  rw [span, Span.within_def]
  simp only
  omega

variable {L} {m m' : Mem} {a b v : ℕ} {f g : φ}

/-- **What was stored in a field is read back**, if it fits. -/
theorem get_set_self (h : v < 256 ^ L.width f) : L.get (L.set m a f v) a f = v :=
  Mem.word_setWord h

lemma get_set_self_mod : L.get (L.set m a f v) a f = v % 256 ^ L.width f :=
  Mem.word_setWord_mod

/-- **Other fields** of the record keep their values. -/
theorem get_set_of_ne (h : f ≠ g) : L.get (L.set m a f v) a g = L.get m a g := by
  apply Mem.word_setWord_of_disjoint
  have hdisj := L.apart f g h
  rw [Span.disjoint_def] at hdisj ⊢
  simp only at hdisj ⊢
  omega

/-- **Records that lie apart** keep their values. -/
theorem get_set_of_disjoint (h : (L.span a).Disjoint (L.span b)) :
    L.get (L.set m a f v) b g = L.get m b g :=
  Mem.word_setWord_of_disjoint (h.mono L.field_within L.field_within)

/-- Stores into different fields of a record commute. -/
lemma set_comm_of_ne {w : ℕ} (h : f ≠ g) :
    L.set (L.set m a f v) a g w = L.set (L.set m a g w) a f v := by
  apply Mem.setWord_comm
  have hdisj := L.apart f g h
  rw [Span.disjoint_def] at hdisj ⊢
  simp only at hdisj ⊢
  omega

/-- Stores into records that lie apart commute. -/
lemma set_comm_of_disjoint {w : ℕ} (h : (L.span a).Disjoint (L.span b)) :
    L.set (L.set m a f v) b g w = L.set (L.set m b g w) a f v :=
  Mem.setWord_comm (h.mono L.field_within L.field_within)

/-- A store into a field changes its record only. -/
theorem agreesOutside_set (L : RecordLayout φ) (m : Mem) (a : ℕ) (f : φ) (v : ℕ) :
    Mem.AgreesOutside [L.span a] m (L.set m a f v) := by
  refine (Mem.agreesOutside_setWord m _ _ v).mono fun s hs => ⟨L.span a, List.mem_cons_self, ?_⟩
  obtain rfl := List.mem_singleton.mp hs
  exact L.field_within

/-- Memories that agree on a record give the same values of its fields. -/
lemma get_congr (h : ∀ x ∈ L.span a, m' x = m x) : L.get m' a f = L.get m a f :=
  Mem.word_congr fun x hx => h x (L.field_within.mem hx)

/-- A record that is filled with zeros. -/
lemma get_write_zeros : L.get (m.write a (List.replicate L.size 0)) a f = 0 := by
  apply Mem.word_eq_zero
  intro x hx
  have hf := L.inside f
  rw [Span.mem_mk] at hx
  rw [Mem.write_of_mem]
  · simp [List.getD, List.getElem?_replicate]
    split <;> rfl
  · rw [List.length_replicate, Span.mem_mk]
    omega

lemma get_lt : L.get m a f < 256 ^ L.width f := Mem.word_lt

end RecordLayout
