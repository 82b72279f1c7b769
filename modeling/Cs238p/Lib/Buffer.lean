import Mathlib.Data.List.TakeWhile
import Mathlib.Data.Nat.Notation
import Mathlib.Tactic.Common

set_option relaxedAutoImplicit false
set_option autoImplicit false

/-!
# Strings in buffers

The memory behind a pointer is the list of its bytes. A string is in it up to the first NUL.

## Main definitions

* `Buffer.string`, `Buffer.strlen` — the string at the beginning of the memory, and its length.
* `Buffer.memmove`, `Buffer.strncpy` — the C library functions.

## Main results

* `Buffer.string_append` — a text followed by a NUL is the string.
* `Buffer.memmove_erase`, `Buffer.memmove_insert` — a byte is taken out of a text, or put into it.
* `Buffer.string_strncpy` — a string that is shorter than the buffer is copied.
-/

namespace Buffer

/-- The string at the beginning of the memory. -/
def string (mem : List UInt8) : List UInt8 := mem.takeWhile (· ≠ 0)

/-- `strlen`. -/
def strlen (mem : List UInt8) : ℕ := (string mem).length

/-- `memmove`, within the memory: `len` bytes from the offset `src` go to the offset `dst`. -/
def memmove (mem : List UInt8) (dst src len : ℕ) : List UInt8 :=
  mem.take dst ++ (mem.drop src).take len ++ mem.drop (dst + len)

/-- `strncpy`: the string at `src`, cut off at `len` bytes or padded with NULs. -/
def strncpy (mem src : List UInt8) (len : ℕ) : List UInt8 :=
  (string src).take len ++ List.replicate (len - (string src).length) 0 ++ mem.drop len

/-! ## Strings -/

/-- There is no NUL in a string. -/
lemma zero_notMem_string (mem : List UInt8) : 0 ∉ string mem := fun h => by
  have := List.mem_takeWhile_imp h
  simp at this

/-- A text that is followed by a NUL is the string. -/
lemma string_append {text : List UInt8} (h : 0 ∉ text) (rest : List UInt8) :
    string (text ++ 0 :: rest) = text := by
  have hall : ∀ b ∈ text, (decide (b ≠ 0)) = true := by
    intro b hb
    simp only [decide_eq_true_eq]
    rintro rfl
    exact h hb
  rw [string, List.takeWhile_append_of_pos hall]
  simp

/-- A text without NULs is part of the string that it is in front of. -/
lemma string_append_of_notMem {text : List UInt8} (h : 0 ∉ text) (mem : List UInt8) :
    string (text ++ mem) = text ++ string mem := by
  refine List.takeWhile_append_of_pos fun b hb => ?_
  simp only [decide_eq_true_eq]
  rintro rfl
  exact h hb

lemma strlen_append {text : List UInt8} (h : 0 ∉ text) (rest : List UInt8) :
    strlen (text ++ 0 :: rest) = text.length := by
  rw [strlen, string_append h]

/-- A string with its NUL is at the beginning of the memory. -/
lemma exists_eq_string_append {mem : List UInt8} (h : 0 ∈ mem) :
    ∃ rest, mem = string mem ++ 0 :: rest := by
  induction mem with
  | nil => cases h
  | cons b mem ih =>
    by_cases hb : b = 0
    · subst hb
      exact ⟨mem, by simp [string]⟩
    · obtain ⟨rest, hrest⟩ := ih (List.mem_of_ne_of_mem (Ne.symm hb) h)
      refine ⟨rest, ?_⟩
      have hcons : string (b :: mem) = b :: string mem := by simp [string, hb]
      rw [hcons, List.cons_append, ← hrest]

/-- The bytes behind a NUL are not part of the string. -/
lemma string_congr {mem mem' : List UInt8} {k : ℕ} (h : 0 ∈ mem.take k)
    (heq : mem.take k = mem'.take k) : string mem = string mem' := by
  have hcut : ∀ {m : List UInt8}, 0 ∈ m.take k → string m = string (m.take k) := fun {m} hm => by
    obtain ⟨rest, hrest⟩ := exists_eq_string_append hm
    conv_lhs => rw [← List.take_append_drop k m, hrest, List.append_assoc, List.cons_append]
    exact string_append (zero_notMem_string _) _
  have h' : 0 ∈ mem'.take k := heq ▸ h
  rw [hcut h, hcut h', heq]

/-- A string whose NUL is within a buffer is shorter than the buffer. -/
lemma strlen_lt {mem : List UInt8} {k : ℕ} (h : 0 ∈ mem.take k) : strlen mem < k := by
  obtain ⟨rest, hrest⟩ := exists_eq_string_append h
  have hcut : (mem.take k).take k = mem.take k := by rw [List.take_take, Nat.min_self]
  have hlen := congrArg List.length hrest
  rw [List.length_take, List.length_append, List.length_cons] at hlen
  rw [strlen, string_congr h hcut.symm]
  omega

lemma strlen_le (mem : List UInt8) : strlen mem ≤ mem.length := (List.takeWhile_prefix _).length_le

/-- A string that is shorter than the buffer has its NUL within it. -/
lemma zero_mem_take {mem : List UInt8} {k : ℕ} (hk : k ≤ mem.length) (h : strlen mem < k) :
    0 ∈ mem.take k := by
  by_contra hzero
  have hstring : string (mem.take k ++ mem.drop k) = mem.take k ++ string (mem.drop k) :=
    string_append_of_notMem hzero _
  have hlen := congrArg List.length hstring
  rw [List.take_append_drop, List.length_append, List.length_take, Nat.min_eq_left hk] at hlen
  rw [strlen] at h
  omega

/-- A byte of a text is replaced. -/
lemma set_length (text rest : List UInt8) (x c : UInt8) :
    (text ++ x :: rest).set text.length c = text ++ c :: rest := by
  rw [List.set_append_right _ _ le_rfl, Nat.sub_self, List.set_cons_zero]

/-- A NUL that is put behind a text ends the string. -/
lemma string_set_length {text : List UInt8} (h : 0 ∉ text) (rest : List UInt8) :
    string ((text ++ rest).set text.length 0) = text := by
  cases rest with
  | nil =>
    rw [List.append_nil, List.set_eq_of_length_le le_rfl, string, List.takeWhile_eq_self_iff]
    intro b hb
    simp only [decide_eq_true_eq]
    rintro rfl
    exact h hb
  | cons b rest =>
    rw [set_length, string_append h]

/-! ## Moving and copying -/

lemma length_memmove {mem : List UInt8} {dst src len : ℕ} (hdst : dst + len ≤ mem.length)
    (hsrc : src + len ≤ mem.length) : (memmove mem dst src len).length = mem.length := by
  simp only [memmove, List.length_append, List.length_take, List.length_drop]
  omega

/-- **A byte is taken out of a text**: the rest of the text and its NUL move down. -/
lemma memmove_erase (l r rest : List UInt8) (c : UInt8) :
    memmove (l ++ c :: (r ++ 0 :: rest)) l.length (l.length + 1) (r.length + 1) =
      l ++ (r ++ 0 :: 0 :: rest) := by
  have htake : (l ++ c :: (r ++ 0 :: rest)).take l.length = l := List.take_left
  have hsrc : ((l ++ c :: (r ++ 0 :: rest)).drop (l.length + 1)).take (r.length + 1) =
      r ++ [0] := by
    rw [← List.drop_drop, List.drop_left, List.drop_one, List.tail_cons, List.take_append,
      List.take_of_length_le (by omega), show r.length + 1 - r.length = 1 by omega]
    rfl
  have hrest : (l ++ c :: (r ++ 0 :: rest)).drop (l.length + (r.length + 1)) = 0 :: rest := by
    rw [← List.drop_drop, List.drop_left, List.drop_succ_cons, List.drop_left]
  rw [memmove, htake, hsrc, hrest]
  simp

/-- **A byte is put into a text**: the rest of the text moves up over the byte behind it. -/
lemma memmove_insert (l r rest : List UInt8) (x c : UInt8) :
    (memmove (l ++ (r ++ x :: rest)) (l.length + 1) l.length r.length).set l.length c =
      l ++ c :: (r ++ rest) := by
  have htake : (l ++ (r ++ x :: rest)).take (l.length + 1) = l ++ (r ++ x :: rest).take 1 := by
    rw [List.take_append, List.take_of_length_le (by omega),
      show l.length + 1 - l.length = 1 by omega]
  have hsrc : ((l ++ (r ++ x :: rest)).drop l.length).take r.length = r := by
    rw [List.drop_left, List.take_left]
  have hrest : (l ++ (r ++ x :: rest)).drop (l.length + 1 + r.length) = rest := by
    rw [show l.length + 1 + r.length = l.length + (r.length + 1) by omega, ← List.drop_drop,
      List.drop_left, ← List.drop_drop, List.drop_left, List.drop_one, List.tail_cons]
  obtain ⟨y, hy⟩ : ∃ y, (r ++ x :: rest).take 1 = [y] := by
    cases r with
    | nil => exact ⟨x, rfl⟩
    | cons y r => exact ⟨y, rfl⟩
  rw [memmove, htake, hsrc, hrest, hy]
  simp

lemma length_strncpy {mem : List UInt8} {len : ℕ} (h : len ≤ mem.length) (src : List UInt8) :
    (strncpy mem src len).length = mem.length := by
  simp only [strncpy, List.length_append, List.length_take, List.length_replicate,
    List.length_drop]
  omega

/-- A string that is shorter than the buffer is copied. -/
lemma string_strncpy {mem src : List UInt8} {len : ℕ} (h : strlen src < len) :
    string (strncpy mem src len) = string src ∧
      0 ∈ (strncpy mem src len).take len := by
  have hpos : len - (string src).length = (len - (string src).length - 1) + 1 := by
    rw [strlen] at h
    omega
  have hcopy : strncpy mem src len = string src ++ 0 ::
      (List.replicate (len - (string src).length - 1) 0 ++ mem.drop len) := by
    rw [strncpy, List.take_of_length_le (le_of_lt h), hpos, List.replicate_succ]
    simp
  rw [hcopy]
  refine ⟨string_append (zero_notMem_string src) _, ?_⟩
  rw [List.take_append]
  have : len - (string src).length ≠ 0 := by omega
  obtain ⟨k, hk⟩ := Nat.exists_eq_succ_of_ne_zero this
  rw [hk]
  simp

end Buffer
