import Cs238p.Lib.TextCursor
import Cs238p.Lib.Transition
import Cs238p.P3.Shell

set_option relaxedAutoImplicit false
set_option autoImplicit false

/-!
# The line editor of the shell

`read_line` keeps a line with a cursor in a slot of the history. This module states what the keys
mean for such a line, and shows that the memory and the variables of `read_line` hold it, until a
space or a tabulator is typed into a full line.

## Main definitions

* `Key.action` — the meaning of a key.
* `Editor` — a line with a cursor, and the slot from which it was recalled.
* `Edits` — the memory and the variables hold a line, within the slot.

## Main results

* `HoldsLine.key` — a key does to the memory what it means for the line.
* `readLine_edits_iff` — the line stays within its slot exactly if no space is typed into a full
  one.
-/

namespace Cs238p.P3

open Buffer TextCursor

/-! ## The meaning of the keys -/

/-- What a key can ask for. -/
inductive Action
  | up | down | right | left
  | kill | delete | backspace
  | insert (c : UInt8)
  | nothing
  deriving DecidableEq, Repr

/-- The meaning of a key. -/
def Key.action : Key → Action
  | .escape c =>
    if c = 65 then .up else if c = 66 then .down else if c = 67 then .right
    else if c = 68 then .left else .nothing
  | .code k =>
    if k = 11 then .kill else if k = 12 then .nothing else if k = 4 then .delete
    else if k = 8 ∨ k = 127 then .backspace else if k = 32 ∨ k = 9 then .insert 32
    else if k = 10 then .nothing else if k ≠ 0 then .insert k else .nothing

/-- A line with a cursor, and the slot from which it was recalled. -/
structure Editor where
  line : Line UInt8
  j : ℕ
  deriving DecidableEq, Repr

namespace Editor

variable (history : List UInt8) (last : ℕ)

/-- The lines of the history. There is none yet in the slot of the line that is edited. -/
def recalled (k : ℕ) : List UInt8 := if k = last then [] else string (history.drop (N * k))

/-- The line of a slot, with the cursor at its end. -/
def recallLine (k : ℕ) : Editor := ⟨.atEnd (recalled history last k), k⟩

/-- The line that is edited is at first that of the last slot. -/
def start : Editor := ⟨.atEnd (string (history.drop (N * last))), last⟩

/-- What an action does to the line; a full line has `N - 1` characters. -/
def act (e : Editor) : Action → Editor
  | .up => if 0 < e.j then recallLine history last (e.j - 1) else e
  | .down => if e.j < last then recallLine history last (e.j + 1) else e
  | .right => { e with line := e.line.forward }
  | .left => { e with line := e.line.back }
  | .kill => { e with line := e.line.kill }
  | .delete => { e with line := e.line.delete }
  | .backspace => { e with line := e.line.backspace }
  | .insert c => { e with line := e.line.insert (N - 1) c }
  | .nothing => e

/-- What a key does to the line. -/
def key (e : Editor) (k : Key) : Editor := e.act history last k.action

end Editor

/-- The memory and the variables of `read_line` hold a line, and no write went beyond the slot. -/
structure Edits (s : ReadLine) (l : Line UInt8) : Prop where
  i_le : s.i ≤ s.n
  n_eq : s.n = strlen s.buf
  n_le : s.n ≤ N - 1
  inSlot : ∀ w ∈ s.written, w.stop ≤ N
  text : string s.buf = l.text
  cursor : s.i = l.left.length

/-! ## The representation of a line -/

/-- The buffer and the variables of `read_line` are those of a line within the slot. -/
structure Shows (s : ReadLine) (l : Line UInt8) : Prop where
  buf : ∃ rest, s.buf = l.left ++ (l.right ++ 0 :: rest)
  text : 0 ∉ l.text
  room : l.left.length + l.right.length < N
  length : N ≤ s.buf.length
  i : s.i = l.left.length
  n : s.n = l.left.length + l.right.length
  written : ∀ w ∈ s.written, w.stop ≤ N

namespace Shows

variable {s : ReadLine} {l : Line UInt8}

lemma string_buf (h : Shows s l) : string s.buf = l.text := by
  obtain ⟨rest, hbuf⟩ := h.buf
  rw [hbuf, ← List.append_assoc]
  exact string_append h.text rest

lemma edits (h : Shows s l) : Edits s l where
  i_le := by
    rw [h.i, h.n]
    omega
  n_eq := by rw [strlen, h.string_buf, h.n, Line.length_text]
  n_le := by
    have := h.room
    rw [h.n]
    omega
  inSlot := h.written
  text := h.string_buf
  cursor := h.i

/-- The text behind the cursor is the string there. -/
lemma strlen_drop (h : Shows s l) : strlen (s.buf.drop s.i) = l.right.length := by
  obtain ⟨rest, hbuf⟩ := h.buf
  rw [hbuf, h.i, List.drop_left]
  exact strlen_append (fun hmem => h.text (List.mem_append_right _ hmem)) rest

/-- A further write within the slot. -/
lemma written_append (h : Shows s l) {w : Span} (hw : w.stop ≤ N) :
    ∀ w' ∈ s.written ++ [w], w'.stop ≤ N :=
  List.forall_mem_append.mpr ⟨h.written, List.forall_mem_singleton.mpr hw⟩

/-! ### Moves of the cursor -/

/-- The cursor moves within the line. -/
lemma cursor (h : Shows s l) {l' : Line UInt8} {i : ℕ} (htext : l'.text = l.text)
    (hi : i = l'.left.length) : Shows { s with i := i } l' := by
  obtain ⟨rest, hbuf⟩ := h.buf
  have hlen := congrArg List.length htext
  rw [Line.length_text, Line.length_text] at hlen
  refine ⟨⟨rest, ?_⟩, htext ▸ h.text, hlen ▸ h.room, h.length, hi, hlen ▸ h.n, h.written⟩
  calc s.buf = l.text ++ 0 :: rest := by rw [hbuf, Line.text, List.append_assoc]
    _ = l'.left ++ (l'.right ++ 0 :: rest) := by rw [← htext, Line.text, List.append_assoc]

/-- The cursor moves to the right, up to the end of the line. -/
lemma right (h : Shows s l) :
    Shows { s with i := if s.i < s.n then s.i + 1 else s.n } l.forward := by
  refine h.cursor l.text_forward ?_
  have hi := h.i
  have hn := h.n
  cases hr : l.right with
  | nil =>
    rw [hr, List.length_nil] at hn
    rw [if_neg (by omega), Line.forward, hr]
    simp only [List.head?_nil, Option.toList_none, List.append_nil]
    omega
  | cons c r =>
    rw [hr, List.length_cons] at hn
    rw [if_pos (by omega), Line.forward, hr, hi]
    simp

/-- The cursor moves to the left, up to the beginning of the line. -/
lemma left (h : Shows s l) : Shows { s with i := if 0 < s.i then s.i - 1 else 0 } l.back := by
  refine h.cursor l.text_back ?_
  rw [Line.back, List.length_dropLast, h.i]
  split <;> omega

/-! ### Changes of the text -/

/-- The line is read from a buffer. -/
lemma toEnd (hnul : 0 ∈ s.buf.take N) (hlength : N ≤ s.buf.length)
    (hwritten : ∀ w ∈ s.written, w.stop ≤ N) : Shows s.toEnd (.atEnd (string s.buf)) := by
  obtain ⟨rest, hbuf⟩ := exists_eq_string_append (List.mem_of_mem_take hnul)
  refine ⟨⟨rest, hbuf⟩, ?_, strlen_lt hnul, hlength, rfl, rfl, hwritten⟩
  rw [Line.text, Line.atEnd, List.append_nil]
  exact zero_notMem_string s.buf

/-- A NUL at the cursor takes out what is behind it. -/
lemma kill (h : Shows s l) : Shows (s.put s.i 0).toEnd l.kill := by
  obtain ⟨rest, hbuf⟩ := h.buf
  obtain ⟨x, rest', hx⟩ : ∃ x rest', l.right ++ 0 :: rest = x :: rest' := by
    cases l.right with
    | nil => exact ⟨0, rest, rfl⟩
    | cons x r => exact ⟨x, r ++ 0 :: rest, rfl⟩
  have hput : (s.put s.i 0).buf = l.left ++ 0 :: rest' := by
    rw [ReadLine.put, hbuf, h.i, hx, set_length]
  have hstring : string (s.put s.i 0).buf = l.left := by
    rw [hput]
    exact string_append (fun hmem => h.text (List.mem_append_left _ hmem)) rest'
  have hroom := h.room
  rw [Line.kill, ← hstring]
  refine toEnd ?_ ?_ (h.written_append ?_)
  · rw [hput, List.take_append, List.take_of_length_le (by omega)]
    obtain ⟨k, hk⟩ := Nat.exists_eq_succ_of_ne_zero (show N - l.left.length ≠ 0 by omega)
    rw [hk]
    simp
  · rw [ReadLine.put, List.length_set]
    exact h.length
  · change s.i + 1 ≤ N
    rw [h.i]
    omega

/-- A character of the line is taken out, and the cursor is at its place. -/
lemma erase (h : Shows s l) {left right : List UInt8} {c : UInt8}
    (hline : l.text = left ++ c :: right) :
    Shows { s.move left.length (left.length + 1) (right.length + 1) with
      i := left.length
      n := s.n - 1 } ⟨left, right⟩ := by
  obtain ⟨rest, hbuf⟩ := h.buf
  have hbuf' : s.buf = left ++ c :: (right ++ 0 :: rest) := by
    rw [hbuf, ← List.append_assoc]
    change l.text ++ 0 :: rest = _
    rw [hline, List.append_assoc, List.cons_append]
  have hmove : memmove s.buf left.length (left.length + 1) (right.length + 1) =
      left ++ (right ++ 0 :: 0 :: rest) := by rw [hbuf', memmove_erase]
  have hlen := congrArg List.length hline
  rw [Line.length_text, List.length_append, List.length_cons] at hlen
  have hn := h.n
  have hroom := h.room
  have hlength := h.length
  have htext := h.text
  rw [hline, List.mem_append, List.mem_cons, not_or, not_or] at htext
  refine ⟨⟨0 :: rest, hmove⟩, ?_, ?_, ?_, rfl, ?_, h.written_append ?_⟩
  · rw [Line.text, List.mem_append, not_or]
    exact ⟨htext.1, htext.2.2⟩
  · change left.length + right.length < N
    omega
  · change N ≤ (memmove s.buf left.length (left.length + 1) (right.length + 1)).length
    rw [hmove]
    rw [hbuf'] at hlength
    simp only [List.length_append, List.length_cons] at hlength ⊢
    omega
  · change s.n - 1 = left.length + right.length
    omega
  · change left.length + (right.length + 1) ≤ N
    omega

/-- The character behind the cursor is taken out. -/
lemma delete (h : Shows s l) (hlt : s.i < s.n) :
    Shows { s.move s.i (s.i + 1) (strlen (s.buf.drop (s.i + 1)) + 1) with n := s.n - 1 }
      l.delete := by
  obtain ⟨rest, hbuf⟩ := h.buf
  have hi := h.i
  have hn := h.n
  cases hr : l.right with
  | nil =>
    rw [hr, List.length_nil] at hn
    omega
  | cons c r =>
    have hline : l.text = l.left ++ c :: r := by rw [Line.text, hr]
    have hr_text : 0 ∉ r := by
      have htext := h.text
      rw [hline] at htext
      exact fun hmem => htext (List.mem_append_right _ (List.mem_cons_of_mem _ hmem))
    have hlen : strlen (s.buf.drop (s.i + 1)) = r.length := by
      rw [hbuf, hr, hi, ← List.drop_drop, List.drop_left, List.cons_append, List.drop_one,
        List.tail_cons]
      exact strlen_append hr_text rest
    have herase := h.erase hline
    rw [← hi, ← hlen] at herase
    rw [Line.delete, hr, List.tail_cons]
    exact herase

/-- Behind the cursor at the end of the line there is nothing to take out. -/
lemma delete_of_le (h : Shows s l) (hle : ¬ s.i < s.n) : Shows s l.delete := by
  have hnil : l.right = [] := by
    have := h.i
    have := h.n
    exact List.length_eq_zero_iff.mp (by omega)
  rw [Line.delete, hnil, List.tail_nil, ← hnil]
  exact h

/-- The character in front of the cursor is taken out. -/
lemma backspace (h : Shows s l) (hpos : 0 < s.i) :
    Shows { s.move (s.i - 1) s.i (strlen (s.buf.drop s.i) + 1) with i := s.i - 1, n := s.n - 1 }
      l.backspace := by
  have hi := h.i
  rw [h.strlen_drop]
  obtain ⟨left, right⟩ := l
  induction left using List.reverseRecOn with
  | nil =>
    rw [hi] at hpos
    exact absurd hpos (Nat.lt_irrefl _)
  | append_singleton left c _ =>
    have hline : (⟨left ++ [c], right⟩ : Line UInt8).text = left ++ c :: right := by
      rw [Line.text, List.append_assoc, List.singleton_append]
    have hplace : s.i = left.length + 1 := by
      rw [hi, List.length_append, List.length_singleton]
    rw [Line.backspace, List.dropLast_concat, hplace, Nat.add_sub_cancel]
    exact h.erase hline

/-- In front of the cursor at the beginning of the line there is nothing to take out. -/
lemma backspace_of_eq (h : Shows s l) (hzero : ¬ 0 < s.i) : Shows s l.backspace := by
  have hnil : l.left = [] := by
    have := h.i
    exact List.length_eq_zero_iff.mp (by omega)
  rw [Line.backspace, hnil, List.dropLast_nil, ← hnil]
  exact h

/-- There is a byte behind the NUL of a line that is not full. -/
lemma exists_buf_eq (h : Shows s l) (hroom : s.n + 1 < N) :
    ∃ y rest, s.buf = l.left ++ (l.right ++ 0 :: y :: rest) := by
  obtain ⟨rest, hbuf⟩ := h.buf
  have hlength := h.length
  have hn := h.n
  cases rest with
  | nil =>
    rw [hbuf] at hlength
    simp only [List.length_append, List.length_singleton] at hlength
    omega
  | cons y rest => exact ⟨y, rest, hbuf⟩

/-- A character is in the line, and the line is not full. -/
lemma insert (h : Shows s l) (hroom : s.n + 1 < N) {c : UInt8} (hc : c ≠ 0) {s' : ReadLine}
    {rest : List UInt8} (hbuf : s'.buf = l.left ++ c :: (l.right ++ 0 :: rest))
    (hlength : s'.buf.length = s.buf.length) (hi : s'.i = s.i + 1) (hn : s'.n = s.n + 1)
    (hwritten : ∀ w ∈ s'.written, w.stop ≤ N) : Shows s' (l.insert (N - 1) c) := by
  have hi' := h.i
  have hn' := h.n
  have htext := h.text
  rw [Line.insert, if_pos (by rw [Line.length_text]; omega)]
  refine ⟨⟨rest, ?_⟩, ?_, ?_, hlength ▸ h.length, ?_, ?_, hwritten⟩
  · rw [hbuf, List.append_assoc, List.singleton_append]
  · simp only [Line.text, List.mem_append, List.mem_singleton, not_or] at htext ⊢
    exact ⟨⟨htext.1, hc.symm⟩, htext.2⟩
  · change (l.left ++ [c]).length + l.right.length < N
    rw [List.length_append, List.length_singleton]
    omega
  · rw [hi, hi', List.length_append, List.length_singleton]
  · change s'.n = (l.left ++ [c]).length + l.right.length
    rw [List.length_append, List.length_singleton]
    omega

/-- The rest of the line, with its NUL, makes room for a space. -/
lemma space (h : Shows s l) (hroom : s.n + 1 < N) :
    Shows { (s.move (s.i + 1) s.i (strlen (s.buf.drop s.i) + 1)).put s.i 32 with
      i := s.i + 1
      n := s.n + 1 } (l.insert (N - 1) 32) := by
  obtain ⟨y, rest, hbuf⟩ := h.exists_buf_eq hroom
  have hi := h.i
  have hn := h.n
  have hlength := h.length
  rw [h.strlen_drop]
  have hmove : (memmove s.buf (s.i + 1) s.i (l.right.length + 1)).set s.i 32 =
      l.left ++ 32 :: (l.right ++ 0 :: rest) := by
    have := memmove_insert l.left (l.right ++ [0]) rest y 32
    rw [List.length_append, List.length_singleton] at this
    rw [hbuf, hi]
    simpa using this
  refine h.insert hroom (by decide) hmove ?_ rfl rfl ?_
  · change ((memmove s.buf (s.i + 1) s.i (l.right.length + 1)).set s.i 32).length = s.buf.length
    rw [List.length_set, length_memmove (by omega) (by omega)]
  · refine List.forall_mem_append.mpr ⟨h.written_append ?_, List.forall_mem_singleton.mpr ?_⟩
    · change s.i + 1 + (l.right.length + 1) ≤ N
      omega
    · change s.i + 1 ≤ N
      omega

/-- The rest of the line makes room for a character, and a new NUL is written. -/
lemma char (h : Shows s l) (hroom : s.n + 1 < N) {k : UInt8} (hk : k ≠ 0) :
    Shows { ((if s.i < s.n then s.move (s.i + 1) s.i (strlen (s.buf.drop s.i)) else s).put
        s.i k).put (s.n + 1) 0 with
      i := s.i + 1
      n := s.n + 1 } (l.insert (N - 1) k) := by
  obtain ⟨y, rest, hbuf⟩ := h.exists_buf_eq hroom
  have hi := h.i
  have hn := h.n
  have hlength := h.length
  generalize hs' : (if s.i < s.n then s.move (s.i + 1) s.i (strlen (s.buf.drop s.i)) else s) = s'
  -- at the end of the line there is nothing to move
  have hmove : s'.buf = memmove s.buf (s.i + 1) s.i l.right.length ∧
      ∀ w ∈ s'.written, w.stop ≤ N := by
    rw [← hs', h.strlen_drop]
    split
    · refine ⟨rfl, h.written_append ?_⟩
      change s.i + 1 + l.right.length ≤ N
      omega
    · have hnil : l.right.length = 0 := by omega
      refine ⟨?_, h.written⟩
      rw [hnil, memmove, List.take_zero, List.append_nil, Nat.add_zero, List.take_append_drop]
  have hset : (s'.buf.set s.i k).set (s.n + 1) 0 = l.left ++ k :: (l.right ++ 0 :: rest) := by
    have hkey := memmove_insert l.left l.right (y :: rest) 0 k
    rw [← hbuf, ← hi, ← hmove.1] at hkey
    have hend : s.n + 1 = (l.left ++ k :: l.right).length := by
      rw [List.length_append, List.length_cons]
      omega
    calc (s'.buf.set s.i k).set (s.n + 1) 0
        = ((l.left ++ k :: l.right) ++ y :: rest).set (l.left ++ k :: l.right).length 0 := by
          rw [hkey, hend, List.append_assoc, List.cons_append]
      _ = l.left ++ k :: (l.right ++ 0 :: rest) := by
          rw [set_length, List.append_assoc, List.cons_append]
  refine h.insert hroom hk hset ?_ rfl rfl ?_
  · change ((s'.buf.set s.i k).set (s.n + 1) 0).length = s.buf.length
    rw [List.length_set, List.length_set, hmove.1, length_memmove (by omega) (by omega)]
  · refine List.forall_mem_append.mpr ⟨List.forall_mem_append.mpr ⟨hmove.2,
      List.forall_mem_singleton.mpr ?_⟩, List.forall_mem_singleton.mpr ?_⟩
    · change s.i + 1 ≤ N
      omega
    · change s.n + 1 + 1 ≤ N
      omega

/-- Nothing is put into a full line. -/
lemma insert_eq_self (h : Shows s l) (hfull : ¬ s.n + 1 < N) (c : UInt8) :
    l.insert (N - 1) c = l := by
  have hn := h.n
  rw [Line.insert, if_neg]
  rw [Line.length_text]
  omega

end Shows

/-! ## Runs of keys -/

/-- The slots up to the last one hold strings, within the memory. -/
structure Strings (history : List UInt8) (last : ℕ) : Prop where
  nul : ∀ k ≤ last, 0 ∈ (history.drop (N * k)).take N
  length : N * (last + 1) ≤ history.length

/-- The state of `read_line` is that of an editor. -/
structure Holds (history : List UInt8) (last : ℕ) (s : ReadLine) (e : Editor) : Prop where
  before : s.before = history.take (N * last)
  own : s.own = last
  top : s.last = last
  j : s.j = e.j
  j_le : e.j ≤ last
  line : Shows s e.line

variable {history : List UInt8} {last : ℕ}

/-- `read_line` begins with the line of the last slot. -/
lemma holds_start (h : Strings history last) :
    Holds history last (ReadLine.start history last) (Editor.start history last) where
  before := rfl
  own := rfl
  top := rfl
  j := rfl
  j_le := le_rfl
  line := by
    refine @Shows.toEnd (ReadLine.start history last) (h.nul last le_rfl) ?_
      fun w hw => absurd hw List.not_mem_nil
    have hlength := h.length
    rw [Nat.mul_succ] at hlength
    rw [ReadLine.start, List.length_drop]
    omega

/-- The line of an earlier slot is as it was. -/
lemma take_slot {s : ReadLine} (hbefore : s.before = history.take (N * last))
    (hstrings : Strings history last) {k : ℕ} (hk : k < last) :
    (s.slot k).take N = (history.drop (N * k)).take N := by
  have hlength := hstrings.length
  have hle : N * k + N ≤ N * last := by
    rw [← Nat.mul_succ]
    exact Nat.mul_le_mul_left N hk
  have htake : (history.take (N * last)).length = N * last := by
    rw [Nat.mul_succ] at hlength
    rw [List.length_take]
    omega
  rw [ReadLine.slot, hbefore, List.drop_append_of_le_length (by omega),
    List.take_append_of_le_length (by rw [List.length_drop]; omega), List.drop_take,
    List.take_take, Nat.min_eq_left (by omega)]

namespace Holds

variable {s : ReadLine} {e : Editor}

/-- A line is recalled: the edited one is given up, and that of an earlier slot is copied. -/
lemma recallLine (h : Holds history last s e) (hstrings : Strings history last) {k : ℕ}
    (hk : k ≤ last) : Holds history last (s.recallLine k) (Editor.recallLine history last k) := by
  obtain ⟨x, rest, hx⟩ : ∃ x rest, s.buf = x :: rest := by
    refine List.exists_cons_of_length_pos ?_
    have := h.line.length
    have := h.line.room
    omega
  have hput : (s.put 0 0).buf = 0 :: rest := by rw [ReadLine.put, hx, List.set_cons_zero]
  have hlength : N ≤ (s.put 0 0).buf.length := by
    rw [ReadLine.put, List.length_set]
    exact h.line.length
  have hwritten : ∀ w ∈ (s.put 0 0).written, w.stop ≤ N := h.line.written_append (by decide)
  have hown : (s.put 0 0).own = last := h.own
  rw [ReadLine.recallLine, Editor.recallLine, Editor.recalled]
  by_cases heq : k = last
  · rw [if_pos (hown.trans heq.symm), if_pos heq]
    have hline := @Shows.toEnd { s.put 0 0 with j := k } (by simp [hput, N]) hlength hwritten
    refine ⟨h.before, h.own, h.top, rfl, hk, ?_⟩
    simpa [hput, string] using hline
  · rw [if_neg (fun h => heq (h.symm.trans hown)), if_neg heq]
    have hslot := @take_slot _ _ { s.put 0 0 with j := k } h.before hstrings k (by omega)
    have hnul := hstrings.nul k hk
    rw [← hslot] at hnul
    obtain ⟨hstring, hcopy⟩ :=
      @string_strncpy (s.put 0 0).buf (ReadLine.slot { s.put 0 0 with j := k } k) N
        (strlen_lt hnul)
    refine ⟨h.before, h.own, h.top, rfl, hk, ?_⟩
    rw [← string_congr hnul hslot, ← hstring]
    refine @Shows.toEnd { s.put 0 0 with
      j := k
      buf := strncpy (s.put 0 0).buf (ReadLine.slot { s.put 0 0 with j := k } k) N
      written := (s.put 0 0).written ++ [⟨0, N⟩] } hcopy ?_ ?_
    · exact hlength.trans (length_strncpy hlength _).ge
    · exact List.forall_mem_append.mpr ⟨hwritten, List.forall_mem_singleton.mpr
        (le_of_eq (Nat.zero_add N))⟩

/-- The line changes, and the history stays. -/
lemma edit (h : Holds history last s e) {buf : List UInt8} {written : List Span} {i n : ℕ}
    {l : Line UInt8}
    (hline : Shows { s with buf := buf, written := written, i := i, n := n } l) :
    Holds history last { s with buf := buf, written := written, i := i, n := n }
      { e with line := l } :=
  ⟨h.before, h.own, h.top, h.j, h.j_le, hline⟩

/-- **A key does to the memory what it means for the line**, unless it is a space at the end of the
slot. -/
theorem key (h : Holds history last s e) (hstrings : Strings history last) {k : Key}
    (hspace : k.IsSpace → e.line.text.length ≠ N - 1) :
    Holds history last (s.key k) (e.key history last k) := by
  have hj := h.j
  have hj_le := h.j_le
  have htop := h.top
  have hn : s.n = e.line.text.length := by rw [h.line.n, Line.length_text]
  have hroom := h.line.room
  cases k with
  | escape c =>
    simp only [ReadLine.key, Editor.key, Key.action]
    split
    · rw [Editor.act, hj]
      split
      · exact h.recallLine hstrings (by omega)
      · exact h
    split
    · rw [Editor.act, hj, htop]
      split
      · exact h.recallLine hstrings (by omega)
      · exact h
    split
    · exact h.edit h.line.right
    split
    · exact h.edit h.line.left
    · exact h
  | code k =>
    simp only [ReadLine.key, Editor.key, Key.action]
    split
    · exact h.edit h.line.kill
    split
    · exact h
    split
    · rw [Editor.act]
      split
      · next hlt => exact h.edit (h.line.delete hlt)
      · next hlt => exact h.edit (h.line.delete_of_le hlt)
    split
    · rw [Editor.act]
      split
      · next hpos => exact h.edit (h.line.backspace hpos)
      · next hpos => exact h.edit (h.line.backspace_of_eq hpos)
    split
    · next hk =>
      have hfull := hspace (hk.imp (congrArg Key.code) (congrArg Key.code))
      rw [Line.length_text] at hfull hn
      rw [if_pos (by omega)]
      exact h.edit (h.line.space (by omega))
    split
    · exact h
    split
    · next hk =>
      rw [Editor.act]
      split
      · next hlt =>
        have hline := h.line.char hlt hk
        by_cases hi : s.i < s.n
        · simp only [if_pos hi] at hline ⊢
          exact h.edit hline
        · simp only [if_neg hi] at hline ⊢
          exact h.edit hline
      · next hlt =>
        rw [h.line.insert_eq_self hlt]
        exact h
    · exact h

/-- A space at the end of the slot moves the NUL out of the slot. -/
lemma not_edits (h : Holds history last s e) {k : Key} (hk : k.IsSpace)
    (hfull : e.line.text.length = N - 1) (l : Line UInt8) : ¬ Edits (s.key k) l := by
  intro hedits
  have hn := h.line.n
  have hi := h.line.i
  rw [Line.length_text] at hfull
  have hkey : s.key k = { (s.move (s.i + 1) s.i (strlen (s.buf.drop s.i) + 1)).put s.i 32 with
      i := s.i + 1
      n := s.n + 1 } := by
    have hlt : s.n < N := by
      have := h.line.room
      omega
    rcases hk with rfl | rfl <;> simp [ReadLine.key, hlt]
  have hstop := hedits.n_le
  rw [hkey] at hstop
  change s.n + 1 ≤ N - 1 at hstop
  omega

end Holds

/-- A run of keys, on the memory and on the line. -/
lemma foldl_key (history : List UInt8) (last : ℕ) (keys : List Key) (s : ReadLine) (e : Editor) :
    keys.foldl (fun x k => (x.1.key k, x.2.key history last k)) (s, e) =
      (keys.foldl ReadLine.key s, keys.foldl (Editor.key history last) e) := by
  induction keys generalizing s e with
  | nil => rfl
  | cons k keys ih => exact ih (s.key k) (e.key history last k)

/-- **The line editor edits a line with a cursor within its slot exactly if no space is typed into
a full line.**

**Proof sketch.** A key does to the memory what it means for the line, if it is not a space in a
full line; such a key leaves more characters than the slot has. The runs follow by induction. -/
theorem readLine_edits_iff (hstrings : Strings history last) (keys : List Key) :
    (∀ typed, typed <+: keys →
      Edits (typed.foldl ReadLine.key (ReadLine.start history last))
        (typed.foldl (Editor.key history last) (Editor.start history last)).line) ↔
      ∀ typed k, typed ++ [k] <+: keys → k.IsSpace →
        (typed.foldl (Editor.key history last) (Editor.start history last)).line.text.length ≠
          N - 1 := by
  have hruns := Transition.forall_prefix_iff
    (f := fun (x : ReadLine × Editor) k => (x.1.key k, x.2.key history last k))
    (I := fun x => Holds history last x.1 x.2) (P := fun x => Edits x.1 x.2.line)
    (C := fun x k => k.IsSpace → x.2.line.text.length ≠ N - 1)
    (fun x hx => hx.line.edits) (fun x k hx hC => hx.key hstrings hC) ?_
    (s := (ReadLine.start history last, Editor.start history last)) (holds_start hstrings) keys
  · simpa only [foldl_key] using hruns
  · intro x k hx hC
    obtain ⟨hk, hfull⟩ : k.IsSpace ∧ x.2.line.text.length = N - 1 := by
      simpa only [Classical.not_imp, not_not] using hC
    exact hx.not_edits hk hfull _

/-- Witness: a word, and moves within it. -/
theorem readLine_edits_iff_word :
    Strings (List.replicate N 0) 0 ∧
      ∀ typed, typed <+: [Key.code 97, .code 98, .escape 68, .code 32, .code 4, .escape 65] →
        Edits (typed.foldl ReadLine.key (ReadLine.start (List.replicate N 0) 0))
          (typed.foldl (Editor.key (List.replicate N 0) 0)
            (Editor.start (List.replicate N 0) 0)).line := by
  have hstrings : Strings (List.replicate N 0) 0 := ⟨by decide +kernel, by decide +kernel⟩
  refine ⟨hstrings, (readLine_edits_iff hstrings _).mpr ?_⟩
  intro typed k hpre _
  have hmem := (List.mem_inits _ _).mpr ((List.prefix_append typed [k]).trans hpre)
  clear hpre
  revert typed
  decide +kernel

/-- A space at the end of a line of `N - 1` characters goes on in the next slot. -/
theorem full_line_overrun :
    Strings (List.replicate (2 * N) 0) 0 ∧
      ¬ ∀ typed, typed <+: List.replicate (N - 1) (Key.code 97) ++ [.code 32] →
        Edits (typed.foldl ReadLine.key (ReadLine.start (List.replicate (2 * N) 0) 0))
          (typed.foldl (Editor.key (List.replicate (2 * N) 0) 0)
            (Editor.start (List.replicate (2 * N) 0) 0)).line := by
  refine ⟨⟨by decide +kernel, by decide +kernel⟩, fun h => ?_⟩
  have hlast := (h _ (List.prefix_refl _)).inSlot
  revert hlast
  decide +kernel

end Cs238p.P3
