import Mathlib.Algebra.Order.Ring.Int
import Mathlib.Data.List.GetD
import Mathlib.Data.Nat.Notation
import Mathlib.Tactic.Common

set_option relaxedAutoImplicit false
set_option autoImplicit false

/-!
# Byte-addressed memory

A memory assigns a byte to every address. Numbers are stored in little-endian order.

## Main definitions

* `LittleEndian.toBytes`, `LittleEndian.ofBytes` — the bytes of a number, the number of bytes.
* `Span` — an interval of addresses; `Span.Disjoint`.
* `Mem.read`, `Mem.write`, `Mem.word`, `Mem.setWord` — access to bytes and to numbers.

## Main results

* `LittleEndian.ofBytes_toBytes` — a number that is encoded is decoded again.
* `Mem.read_write`, `Mem.word_setWord` — what was written is read back.
* `Mem.word_setWord_of_disjoint` — a write changes nothing else.
* `Mem.setWord_comm` — writes to different places may be exchanged.
-/

/-! ## Little-endian numbers -/

namespace LittleEndian

/-- The `k` low-order bytes of a number, the lowest first. -/
def toBytes : ℕ → ℕ → List UInt8
  | 0, _ => []
  | k + 1, v => UInt8.ofNat (v % 256) :: toBytes k (v / 256)

/-- The number whose bytes are given, the lowest first. -/
def ofBytes : List UInt8 → ℕ
  | [] => 0
  | b :: bs => b.toNat + 256 * ofBytes bs

@[simp] lemma length_toBytes (k v : ℕ) : (toBytes k v).length = k := by
  induction k generalizing v with
  | zero => rfl
  | succ k ih => rw [toBytes, List.length_cons, ih]

/-- The bytes of a number determine it up to overflow. -/
theorem ofBytes_toBytes (k v : ℕ) : ofBytes (toBytes k v) = v % 256 ^ k := by
  induction k generalizing v with
  | zero => simp [toBytes, ofBytes, Nat.mod_one]
  | succ k ih =>
    have hbyte : (UInt8.ofNat (v % 256)).toNat = v % 256 := by
      rw [UInt8.toNat_ofNat']
      omega
    rw [toBytes, ofBytes, ih, hbyte, Nat.pow_succ', Nat.mod_mul]

/-- A number that fits is read back. -/
lemma ofBytes_toBytes_of_lt {k v : ℕ} (h : v < 256 ^ k) : ofBytes (toBytes k v) = v := by
  rw [ofBytes_toBytes, Nat.mod_eq_of_lt h]

lemma ofBytes_lt (bs : List UInt8) : ofBytes bs < 256 ^ bs.length := by
  induction bs with
  | nil => simp [ofBytes]
  | cons b bs ih =>
    have hb : b.toNat < 256 := b.toNat_lt
    rw [ofBytes, List.length_cons, Nat.pow_succ']
    omega

end LittleEndian

/-! ## Intervals of addresses -/

/-- The addresses from `start` on, `len` of them. -/
structure Span where
  start : ℕ
  len : ℕ
  deriving DecidableEq, Repr

namespace Span

/-- The first address behind the interval. -/
def stop (s : Span) : ℕ := s.start + s.len

instance : Membership ℕ Span := ⟨fun s x => s.start ≤ x ∧ x < s.stop⟩

lemma mem_def {s : Span} {x : ℕ} : x ∈ s ↔ s.start ≤ x ∧ x < s.start + s.len := Iff.rfl

lemma mem_mk {a k x : ℕ} : x ∈ Span.mk a k ↔ a ≤ x ∧ x < a + k := Iff.rfl

instance (s : Span) (x : ℕ) : Decidable (x ∈ s) :=
  inferInstanceAs (Decidable (s.start ≤ x ∧ x < s.stop))

/-- One interval ends before the other one begins. -/
def Disjoint (s t : Span) : Prop := s.stop ≤ t.start ∨ t.stop ≤ s.start

instance (s t : Span) : Decidable (s.Disjoint t) :=
  inferInstanceAs (Decidable (s.stop ≤ t.start ∨ t.stop ≤ s.start))

lemma disjoint_def {s t : Span} :
    s.Disjoint t ↔ s.start + s.len ≤ t.start ∨ t.start + t.len ≤ s.start := Iff.rfl

lemma Disjoint.symm {s t : Span} (h : s.Disjoint t) : t.Disjoint s := Or.symm h

instance : Std.Symm Span.Disjoint := ⟨fun _ _ => Disjoint.symm⟩

lemma Disjoint.not_mem {s t : Span} (h : s.Disjoint t) {x : ℕ} (hx : x ∈ s) : x ∉ t := by
  rw [mem_def] at hx ⊢
  rw [disjoint_def] at h
  omega

/-- An interval inside another one. -/
def Within (s t : Span) : Prop := t.start ≤ s.start ∧ s.stop ≤ t.stop

instance (s t : Span) : Decidable (s.Within t) :=
  inferInstanceAs (Decidable (t.start ≤ s.start ∧ s.stop ≤ t.stop))

lemma within_def {s t : Span} :
    s.Within t ↔ t.start ≤ s.start ∧ s.start + s.len ≤ t.start + t.len := Iff.rfl

lemma Within.refl (s : Span) : s.Within s := ⟨Nat.le_refl _, Nat.le_refl _⟩

lemma Within.mem {s t : Span} (h : s.Within t) {x : ℕ} (hx : x ∈ s) : x ∈ t :=
  ⟨Nat.le_trans h.1 hx.1, Nat.lt_of_lt_of_le hx.2 h.2⟩

lemma Disjoint.mono {s s' t t' : Span} (h : s.Disjoint t) (hs : s'.Within s) (ht : t'.Within t) :
    s'.Disjoint t' := by
  rw [within_def] at hs ht
  rw [disjoint_def] at h ⊢
  omega

end Span

/-! ## Memory -/

/-- A memory: the byte at every address. -/
abbrev Mem := ℕ → UInt8

namespace Mem

/-- The `k` bytes from address `a` on. -/
def read (m : Mem) (a k : ℕ) : List UInt8 := (List.range k).map fun i => m (a + i)

/-- Store bytes from address `a` on. -/
def write (m : Mem) (a : ℕ) (bs : List UInt8) : Mem := fun x =>
  if a ≤ x ∧ x < a + bs.length then bs.getD (x - a) 0 else m x

/-- The number stored in the `k` bytes from address `a` on. -/
def word (m : Mem) (a k : ℕ) : ℕ := LittleEndian.ofBytes (m.read a k)

/-- Store a number in the `k` bytes from address `a` on. -/
def setWord (m : Mem) (a k v : ℕ) : Mem := m.write a (LittleEndian.toBytes k v)

variable {m m' : Mem} {a b k l v : ℕ} {bs : List UInt8}

@[simp] lemma length_read : (m.read a k).length = k := by
  rw [read, List.length_map, List.length_range]

/-- Memories that agree on an interval give the same bytes. -/
lemma read_congr (h : ∀ x ∈ Span.mk a k, m' x = m x) : m'.read a k = m.read a k := by
  refine List.map_congr_left fun i hi => h _ ?_
  have := List.mem_range.mp hi
  rw [Span.mem_mk]
  omega

lemma word_congr (h : ∀ x ∈ Span.mk a k, m' x = m x) : m'.word a k = m.word a k := by
  rw [word, read_congr h, word]

/-- The first byte and the others. -/
lemma read_succ : m.read a (k + 1) = m a :: m.read (a + 1) k := by
  rw [read, List.range_succ_eq_map, List.map_cons, List.map_map, Nat.add_zero]
  refine congrArg (m a :: ·) (List.map_congr_left fun i _ => ?_)
  show m (a + (i + 1)) = m (a + 1 + i)
  rw [Nat.add_right_comm, Nat.add_assoc]

/-- Bytes that are all zero store the number zero. -/
lemma word_eq_zero (h : ∀ x ∈ Span.mk a k, m x = 0) : m.word a k = 0 := by
  induction k generalizing a with
  | zero => rfl
  | succ k ih =>
    have hfirst : m a = 0 := h a (by rw [Span.mem_mk]; omega)
    have hrest : m.word (a + 1) k = 0 := ih fun x hx => h x (by rw [Span.mem_mk] at hx ⊢; omega)
    rw [word] at hrest
    rw [word, read_succ, LittleEndian.ofBytes, hfirst, hrest]
    rfl

/-- A write changes no byte outside of its interval. -/
lemma write_of_not_mem {x : ℕ} (h : x ∉ Span.mk a bs.length) : m.write a bs x = m x :=
  if_neg h

lemma write_of_mem {x : ℕ} (h : x ∈ Span.mk a bs.length) : m.write a bs x = bs.getD (x - a) 0 :=
  if_pos h

lemma setWord_of_not_mem {x : ℕ} (h : x ∉ Span.mk a k) : m.setWord a k v x = m x :=
  write_of_not_mem (by rwa [LittleEndian.length_toBytes])

/-- **What was written is read back.** -/
theorem read_write (m : Mem) (a : ℕ) (bs : List UInt8) : (m.write a bs).read a bs.length = bs := by
  refine List.ext_getElem length_read fun i hi hi' => ?_
  have hmem : a + i ∈ Span.mk a bs.length := by
    rw [Span.mem_mk]
    omega
  simp only [read, List.getElem_map, List.getElem_range]
  rw [write_of_mem hmem, Nat.add_sub_cancel_left, List.getD_eq_getElem bs 0 hi']

/-- What was stored is read back up to overflow. -/
lemma word_setWord_mod : (m.setWord a k v).word a k = v % 256 ^ k := by
  have hread := read_write m a (LittleEndian.toBytes k v)
  rw [LittleEndian.length_toBytes] at hread
  rw [word, setWord, hread, LittleEndian.ofBytes_toBytes]

/-- A number that was stored is read back. -/
theorem word_setWord (h : v < 256 ^ k) : (m.setWord a k v).word a k = v := by
  rw [word_setWord_mod, Nat.mod_eq_of_lt h]

/-- Storing a number changes no number that lies elsewhere. -/
theorem word_setWord_of_disjoint (h : (Span.mk a k).Disjoint ⟨b, l⟩) :
    (m.setWord a k v).word b l = m.word b l :=
  word_congr fun _ hx => setWord_of_not_mem (h.symm.not_mem hx)

/-- Inside of its interval, a store does not depend on the memory. -/
lemma setWord_of_mem {x : ℕ} (h : x ∈ Span.mk a k) : m.setWord a k v x = m'.setWord a k v x := by
  have hx : x ∈ Span.mk a (LittleEndian.toBytes k v).length := by rwa [LittleEndian.length_toBytes]
  rw [setWord, setWord, write_of_mem hx, write_of_mem hx]

/-- A store changes a byte in the same way in memories where this byte is the same. -/
lemma setWord_congr {x : ℕ} (h : m x = m' x) : m.setWord a k v x = m'.setWord a k v x := by
  by_cases hx : x ∈ Span.mk a k
  · exact setWord_of_mem hx
  · rw [setWord_of_not_mem hx, setWord_of_not_mem hx, h]

/-- **Stores into intervals that lie apart commute.** -/
theorem setWord_comm {w : ℕ} (h : (Span.mk a k).Disjoint ⟨b, l⟩) :
    (m.setWord a k v).setWord b l w = (m.setWord b l w).setWord a k v := by
  funext x
  by_cases hx : x ∈ Span.mk a k
  · rw [setWord_of_not_mem (h.not_mem hx)]
    exact setWord_of_mem hx
  · rw [setWord_of_not_mem hx]
    exact setWord_congr (setWord_of_not_mem hx)

lemma word_lt : m.word a k < 256 ^ k := by
  have := LittleEndian.ofBytes_lt (m.read a k)
  rwa [length_read] at this

end Mem
