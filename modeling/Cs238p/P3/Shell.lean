import Cs238p.Lib.Buffer
import Cs238p.Lib.Memory
import Cs238p.Lib.WhiteSpace

set_option relaxedAutoImplicit false
set_option autoImplicit false

/-!
# The shell of `p3/shell.c`

`read_line` edits a line in a slot of the history, from which the arrow keys recall earlier lines.
The slots are parts of one array, so a line that runs over the end of its slot goes on in the next
one. A line that is not blank is kept, and the next line is edited in the slot behind it.

## Main definitions

* `shellStrtrim` — `shell_strtrim`.
* `ReadLine` — the array and the variables of `read_line`.
* `ReadLine.key` — what a key other than the enter key does.
* `ReadLine.enter` — what the enter key does, up to the next line.
* `ReadLine.slots` — the slots of the history that a key accesses.

## Implementation notes

The output to the terminal is left out. The memory is that from the beginning of `state.history` on;
it goes on behind the array. A key is what `read_line` reads at once: a code, or the last code of a
sequence that begins with an escape.
-/

namespace Cs238p.P3

open Buffer WhiteSpace

/-- The number of slots of the history. -/
def H : ℕ := 96

/-- The number of bytes of a slot. -/
def N : ℕ := 160

/-- `isspace` of a byte. -/
def isBlank (b : UInt8) : Bool := isspace b.toNat

/-! ## `shell_strtrim` -/

/-- The loop that advances `b` over white space; `left` bytes of the string are not yet passed. -/
def skipFront (s : List UInt8) : ℕ → ℕ → ℕ
  | 0, b => b
  | left + 1, b => if isBlank (s.getD b 0) then skipFront s left (b + 1) else b

/-- The loop that moves `e` back over white space; the argument and the result are `e + 1`. -/
def skipBack (s : List UInt8) : ℕ → ℕ
  | 0 => 0
  | e + 1 => if isBlank (s.getD e 0) then skipBack s e else e + 1

/-- `shell_strtrim`. -/
def shellStrtrim (s : List UInt8) : List UInt8 :=
  let b := skipFront s (strlen s) 0
  let e := skipBack s (strlen s)
  let n := if b < e then e - b else 0
  (memmove s 0 b n).set n 0

/-! ## `read_line` -/

/-- The memory and the variables of `read_line`: the memory before `buf` and from `buf` on,
`state.i`, `state.n`, and `j`, `i` and `n`. The intervals of `buf` that were written are
recorded. -/
structure ReadLine where
  before : List UInt8
  buf : List UInt8
  written : List Span
  own : ℕ
  last : ℕ
  j : ℕ
  i : ℕ
  n : ℕ
  deriving DecidableEq, Repr

/-- A key: a code, or the last code of an escape sequence. -/
inductive Key
  | escape (c : UInt8)
  | code (k : UInt8)
  deriving DecidableEq, Repr

/-- The enter key. -/
def Key.newline : Key := .code 10

/-- The space and the tabulator key. -/
def Key.IsSpace (k : Key) : Prop := k = .code 32 ∨ k = .code 9

instance (k : Key) : Decidable k.IsSpace := inferInstanceAs (Decidable (_ ∨ _))

namespace ReadLine

/-- The beginning of `read_line`, in a memory with `last = state.n`. -/
def start (history : List UInt8) (last : ℕ) : ReadLine where
  before := history.take (N * last)
  buf := history.drop (N * last)
  written := []
  own := last
  last := last
  j := last
  i := strlen (history.drop (N * last))
  n := strlen (history.drop (N * last))

/-- The memory from a slot on. -/
def slot (s : ReadLine) (k : ℕ) : List UInt8 := (s.before ++ s.buf).drop (N * k)

/-- `memmove` within `buf`. -/
def move (s : ReadLine) (dst src len : ℕ) : ReadLine :=
  { s with buf := memmove s.buf dst src len, written := s.written ++ [⟨dst, len⟩] }

/-- The assignment `buf[k] = c`. -/
def put (s : ReadLine) (k : ℕ) (c : UInt8) : ReadLine :=
  { s with buf := s.buf.set k c, written := s.written ++ [⟨k, 1⟩] }

/-- The assignment `i = n = strlen(buf)`. -/
def toEnd (s : ReadLine) : ReadLine := { s with i := strlen s.buf, n := strlen s.buf }

/-- A line of the history is recalled. If it is that of `buf`, nothing is copied. -/
def recallLine (s : ReadLine) (j : ℕ) : ReadLine :=
  let s := { s.put 0 0 with j := j }
  if s.own = j then s.toEnd
  else
    toEnd { s with buf := strncpy s.buf (s.slot j) N, written := s.written ++ [⟨0, N⟩] }

/-- What a key does; the enter key ends the loop. -/
def key (s : ReadLine) : Key → ReadLine
  | .escape c =>
    if c = 65 then
      if 0 < s.j then s.recallLine (s.j - 1) else s
    else if c = 66 then
      if s.j < s.last then s.recallLine (s.j + 1) else s
    else if c = 67 then { s with i := if s.i < s.n then s.i + 1 else s.n }
    else if c = 68 then { s with i := if 0 < s.i then s.i - 1 else 0 }
    else s
  | .code k =>
    if k = 11 then (s.put s.i 0).toEnd
    else if k = 12 then s
    else if k = 4 then
      if s.i < s.n then
        { s.move s.i (s.i + 1) (strlen (s.buf.drop (s.i + 1)) + 1) with n := s.n - 1 }
      else s
    else if k = 8 ∨ k = 127 then
      if 0 < s.i then
        { s.move (s.i - 1) s.i (strlen (s.buf.drop s.i) + 1) with i := s.i - 1, n := s.n - 1 }
      else s
    else if k = 32 ∨ k = 9 then
      if s.n < N then
        { (s.move (s.i + 1) s.i (strlen (s.buf.drop s.i) + 1)).put s.i 32 with
          i := s.i + 1
          n := s.n + 1 }
      else s
    else if k = 10 then s
    else if k ≠ 0 then
      if s.n + 1 < N then
        let s' := if s.i < s.n then s.move (s.i + 1) s.i (strlen (s.buf.drop s.i)) else s
        { (s'.put s.i k).put (s.n + 1) 0 with i := s.i + 1, n := s.n + 1 }
      else s
    else s

/-- The next slot for a line, when the last one was filled. -/
def nextSlot (last : ℕ) : ℕ := if last + 1 < H then last + 1 else H

/-- What the enter key does: the end of `read_line`, the call of the function of the shell, which
may change the memory of the line that it gets, and the beginning of the next `read_line`. -/
def enter (fnc : List UInt8 → List UInt8) (s : ReadLine) : ReadLine :=
  let history := s.before ++ shellStrtrim s.buf
  if strlen (shellStrtrim s.buf) = 0 then start history s.last
  else
    let last := if s.own = s.last then nextSlot s.last else s.last
    let history := if s.own = s.last then history.set (N * last) 0 else history
    start (history.take (N * s.own) ++ fnc (history.drop (N * s.own))) last

/-- A key of a session of the shell. -/
def step (fnc : List UInt8 → List UInt8) (s : ReadLine) (k : Key) : ReadLine :=
  if k = .newline then s.enter fnc else s.key k

/-- The slots that a key accesses: the one in which the line is edited, the one that an arrow key
recalls, and behind an accepted line the one that is cleared for the next line. -/
def slots (s : ReadLine) (k : Key) : List ℕ :=
  if k = .newline then
    if strlen (shellStrtrim s.buf) = 0 then [s.own, s.last]
    else [s.own, if s.own = s.last then nextSlot s.last else s.last]
  else if k = .escape 65 ∧ 0 < s.j then [s.own, s.j - 1]
  else if k = .escape 66 ∧ s.j < s.last then [s.own, s.j + 1]
  else [s.own]

end ReadLine

/-- The session begins with an empty history. -/
def session (rest : List UInt8) : ReadLine := ReadLine.start (List.replicate (H * N) 0 ++ rest) 0

/-! ## What `shell_strtrim` leaves -/

/-- The bytes of the string that the first loop passes. -/
lemma skipFront_eq {t : List UInt8} (pre rest : List UInt8) :
    skipFront (pre ++ (t ++ rest)) t.length pre.length =
      pre.length + (t.takeWhile isBlank).length := by
  induction t generalizing pre with
  | nil => rfl
  | cons b t ih =>
    have hget : (pre ++ (b :: t ++ rest)).getD pre.length 0 = b := by simp
    rw [List.length_cons, skipFront, hget]
    split
    · next hb =>
      have hih := ih (pre ++ [b])
      rw [List.append_assoc, List.singleton_append, List.length_append, List.length_singleton]
        at hih
      rw [List.takeWhile_cons_of_pos hb, List.cons_append, hih, List.length_cons]
      omega
    · next hb => rw [List.takeWhile_cons_of_neg hb, List.length_nil, Nat.add_zero]

/-- The bytes of the string that the second loop leaves. -/
lemma skipBack_eq (t rest : List UInt8) :
    skipBack (t ++ rest) t.length = (t.rdropWhile isBlank).length := by
  induction t using List.reverseRecOn generalizing rest with
  | nil => rfl
  | append_singleton t b ih =>
    have hget : (t ++ [b] ++ rest).getD t.length 0 = b := by simp
    rw [List.length_append, List.length_singleton, skipBack, hget]
    split
    · next hb => rw [List.append_assoc, ih, List.rdropWhile_concat_pos _ _ _ hb]
    · next hb => rw [List.rdropWhile_concat_neg _ _ _ hb, List.length_append, List.length_singleton]

lemma skipBack_le (s : List UInt8) (e : ℕ) : skipBack s e ≤ e := by
  induction e with
  | zero => exact le_rfl
  | succ e ih =>
    rw [skipBack]
    split
    · exact ih.trans (Nat.le_succ e)
    · exact le_rfl

/-- The memory does not become longer or shorter. -/
lemma length_shellStrtrim (s : List UInt8) : (shellStrtrim s).length = s.length := by
  have hstrlen : strlen s ≤ s.length := (List.takeWhile_prefix _).length_le
  have hback := skipBack_le s (strlen s)
  rw [shellStrtrim, List.length_set]
  split
  · exact length_memmove (by omega) (by omega)
  · simp [memmove]

/-- **`shell_strtrim` takes white space off both ends of a string.** -/
theorem string_shellStrtrim (s : List UInt8) :
    string (shellStrtrim s) = trim isBlank (string s) := by
  obtain ⟨rest, hs⟩ : ∃ rest, s = string s ++ rest := ⟨_, (List.takeWhile_append_dropWhile).symm⟩
  have hzero := zero_notMem_string s
  have hlen : strlen s = (string s).length := rfl
  generalize string s = t at hs hzero hlen
  have hb : skipFront s (strlen s) 0 = (t.takeWhile isBlank).length := by
    rw [hlen, hs]
    simpa using @skipFront_eq t [] rest
  have he : skipBack s (strlen s) = (t.rdropWhile isBlank).length := by
    rw [hlen, hs, skipBack_eq]
  rw [shellStrtrim, hb, he]
  by_cases htrim : trim isBlank t = []
  · -- nothing but white space: both loops pass the whole string
    have hall := trim_eq_nil_iff.mp htrim
    have hnil : t.rdropWhile isBlank = [] := List.rdropWhile_eq_nil_iff.mpr hall
    rw [htrim, hnil, List.length_nil, if_neg (Nat.not_lt_zero _), memmove]
    exact string_set_length (List.not_mem_nil) _
  · have hsplit := takeWhile_append_trim htrim
    have hpos : 0 < (trim isBlank t).length := List.length_pos_of_ne_nil htrim
    rw [← hsplit, List.length_append, if_pos (by omega), Nat.add_sub_cancel_left]
    have hsrc : (s.drop (t.takeWhile isBlank).length).take (trim isBlank t).length =
        trim isBlank t := by
      obtain ⟨back, hback⟩ := List.rdropWhile_prefix isBlank t
      have hparts : s = t.takeWhile isBlank ++ (trim isBlank t ++ (back ++ rest)) := by
        calc s = t.rdropWhile isBlank ++ back ++ rest := by rw [hback, hs]
          _ = t.takeWhile isBlank ++ (trim isBlank t ++ (back ++ rest)) := by
            rw [← hsplit, List.append_assoc, List.append_assoc]
      rw [hparts, List.drop_left, List.take_left]
    have hmove : memmove s 0 (t.takeWhile isBlank).length (trim isBlank t).length =
        trim isBlank t ++ s.drop (trim isBlank t).length := by
      rw [memmove, hsrc, List.take_zero, List.nil_append, Nat.zero_add]
    rw [hmove]
    exact string_set_length (fun h => hzero (trim_subset t h)) _

/-- Nothing is left exactly of a blank string. -/
lemma strlen_shellStrtrim_eq_zero_iff (s : List UInt8) :
    strlen (shellStrtrim s) = 0 ↔ ∀ b ∈ string s, isBlank b = true := by
  rw [strlen, string_shellStrtrim, List.length_eq_zero_iff, trim_eq_nil_iff]

end Cs238p.P3
