import Mathlib.Data.List.Induction
import Mathlib.Data.Nat.Notation
import Mathlib.Tactic.Common

set_option relaxedAutoImplicit false
set_option autoImplicit false

/-!
# Lines with a cursor

A line is given by what stands in front of its cursor and what stands behind it.

## Main definitions

* `TextCursor.Line` — a line and its cursor.
* `Line.insert`, `Line.delete`, `Line.backspace`, `Line.kill` — changes of the text.
* `Line.forward`, `Line.back` — moves of the cursor.
-/

namespace TextCursor

/-- A line, split by its cursor. -/
structure Line (α : Type*) where
  left : List α
  right : List α
  deriving DecidableEq, Repr

namespace Line

variable {α : Type*}

/-- The text of the line. -/
def text (l : Line α) : List α := l.left ++ l.right

/-- A text with the cursor at its end. -/
def atEnd (text : List α) : Line α := ⟨text, []⟩

/-- A character is put in front of the cursor, unless the line has as many as it may have. -/
def insert (capacity : ℕ) (c : α) (l : Line α) : Line α :=
  if l.text.length < capacity then ⟨l.left ++ [c], l.right⟩ else l

/-- The character behind the cursor is taken out. -/
def delete (l : Line α) : Line α := ⟨l.left, l.right.tail⟩

/-- The character in front of the cursor is taken out. -/
def backspace (l : Line α) : Line α := ⟨l.left.dropLast, l.right⟩

/-- All characters behind the cursor are taken out. -/
def kill (l : Line α) : Line α := ⟨l.left, []⟩

/-- The cursor moves over the next character. -/
def forward (l : Line α) : Line α := ⟨l.left ++ l.right.head?.toList, l.right.tail⟩

/-- The cursor moves back over a character. -/
def back (l : Line α) : Line α := ⟨l.left.dropLast, l.left.getLast?.toList ++ l.right⟩

lemma length_text (l : Line α) : l.text.length = l.left.length + l.right.length :=
  List.length_append

/-! ## The characters of the line -/

/-- A move of the cursor leaves the text. -/
@[simp] lemma text_forward (l : Line α) : l.forward.text = l.text := by
  obtain ⟨left, right⟩ := l
  cases right with
  | nil => simp [forward, text]
  | cons c right => simp [forward, text]

/-- A move of the cursor leaves the text. -/
@[simp] lemma text_back (l : Line α) : l.back.text = l.text := by
  obtain ⟨left, right⟩ := l
  induction left using List.reverseRecOn with
  | nil => simp [back, text]
  | append_singleton left c _ => simp [back, text]

end Line

end TextCursor
