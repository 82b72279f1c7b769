import Cs238p.P3.Commands
import Cs238p.P3.LineEditor
import Cs238p.P3.ShellHistory

set_option relaxedAutoImplicit false
set_option autoImplicit false

/-!
# Sessions of the shell

`shell` reads lines with `read_line` and gives them to `shell_fnc`, which writes into the slot of
the history that it gets. This module puts the line editor, its history, the commands and the tree
together, and compares the whole with a desk on which there are lines, a multiset of words and what
was printed.

## Main definitions

* `Shell`, `Shell.key` — the variables of `shell` and `read_line`, the tree and the output.
* `Desk`, `Desk.key` — what a session is for.
* `Desk.Room` — there is room for the space that is typed and for the line that is entered.
* `Presents` — the memory, the tree and the output are those of a desk.

## Main results

* `shell_session` — with room for what is typed, the shell does what the desk does, key by key.

## Implementation notes

The world of the commands may be another one for every key. Behind the last line of a session
`enter` has begun one that is not read any more.
-/

namespace Cs238p.P3

open Buffer TextCursor Transition WhiteSpace

variable {ι : Type}

/-! ## The source -/

/-- The memory from the line on that `read_line` returns. -/
def ReadLine.returned (s : ReadLine) : List UInt8 :=
  let history := s.before ++ shellStrtrim s.buf
  let last := if s.own = s.last then nextSlot s.last else s.last
  let history := if s.own = s.last then history.set (N * last) 0 else history
  history.drop (N * s.own)

/-- The state of the shell: the line, the tree, what every command printed, and whether a further
line is read. -/
structure Shell (ι : Type) where
  line : ReadLine
  avl : Avl ι
  out : List (List Report)
  running : Bool

namespace Shell

/-- The beginning of `shell`; `rest` is the memory behind the history. -/
def start (rest : List UInt8) : Shell ι := ⟨session rest, Avl.empty, [], true⟩

/-- A key that is typed, `none` if the shell has ended or an assertion fails. -/
def key (s : Shell ι) (x : World ι × Key) : Option (Shell ι) :=
  if ¬ s.running then none
  else if x.2 ≠ .newline then some { s with line := s.line.key x.2 }
  else if strlen (shellStrtrim s.line.buf) = 0 then some { s with line := s.line.enter id }
  else
    (shellFnc x.1 s.avl s.line.returned).1.map fun (o : Outcome ι) =>
      { line := s.line.enter fun mem => (shellFnc x.1 s.avl mem).2
        avl := o.avl
        out := s.out ++ [o.out]
        running := decide (o.code = (0 : ℤ)) }

end Shell

/-! ## The purpose -/

/-- What stays of a line: behind the face of a command its argument, without white space around
it. -/
def tidy (t : List UInt8) : List UInt8 :=
  match Verb.find t with
  | none => t
  | some v => v.face ++ trim isBlank (t.drop v.face.length)

/-- The earlier lines, the line that is edited and the place from which it was recalled, the words,
what was printed, and whether the session goes on. -/
structure Desk where
  lines : List (List UInt8)
  editor : Editor
  words : Multiset CString
  out : List (List Report)
  running : Bool

namespace Desk

/-- The session begins without lines and words. -/
def start : Desk := ⟨[], ⟨.atEnd [], 0⟩, 0, [], true⟩

/-- An earlier line, or behind them an empty one, is recalled. -/
def recalled (d : Desk) (k : ℕ) : Desk := { d with editor := ⟨.atEnd (d.lines.getD k []), k⟩ }

/-- The line changes. -/
def edit (d : Desk) (f : Line UInt8 → Line UInt8) : Desk :=
  { d with editor := { d.editor with line := f d.editor.line } }

/-- What an action does to the line. -/
def act (d : Desk) : Action → Desk
  | .up => if 0 < d.editor.j then d.recalled (d.editor.j - 1) else d
  | .down => if d.editor.j < d.lines.length then d.recalled (d.editor.j + 1) else d
  | .right => d.edit .forward
  | .left => d.edit .back
  | .kill => d.edit .kill
  | .delete => d.edit .delete
  | .backspace => d.edit .backspace
  | .insert c => d.edit (.insert (N - 1) c)
  | .nothing => d

/-- The line that is entered, without white space around it. -/
def entered (d : Desk) : List UInt8 := trim isBlank d.editor.line.text

/-- The line does what it means, and is kept, if it is not blank. -/
def enter (d : Desk) (w : World ι) : Desk :=
  if d.entered = [] then d.recalled d.lines.length
  else
    let res := specLine w d.words d.entered
    { lines := d.lines ++ [tidy d.entered]
      editor := ⟨.atEnd [], d.lines.length + 1⟩
      words := res.2.2
      out := d.out ++ [res.2.1]
      running := decide (res.1 = 0) }

/-- A key that is typed. -/
def key (d : Desk) (x : World ι × Key) : Option Desk :=
  if ¬ d.running then none
  else if x.2 = .newline then some (d.enter x.1)
  else some (d.act x.2.action)

/-- There is room for a space in the line, and for one more line in the history. -/
def Room (d : Desk) (x : World ι × Key) : Prop :=
  (x.2.IsSpace → d.editor.line.text.length ≠ N - 1) ∧
    (x.2 = .newline → d.entered ≠ [] → d.lines.length + 1 < H)

instance (d : Desk) (x : World ι × Key) : Decidable (d.Room x) :=
  inferInstanceAs (Decidable (_ ∧ _))

end Desk

/-- The history holds lines, in the slots before the one that is edited. -/
structure Keeps (history : List UInt8) (lines : List (List UInt8)) : Prop where
  strings : Strings history lines.length
  length : N * H ≤ history.length
  line : ∀ k < lines.length, string (history.drop (N * k)) = lines.getD k []

/-- The shell is at a desk: its history holds the lines, `read_line` holds the one that is edited,
and the tree holds the words. -/
structure Presents (s : Shell ι) (d : Desk) : Prop where
  history : ∃ history, Keeps history d.lines ∧ Holds history d.lines.length s.line d.editor ∧
    s.line.before.length + s.line.buf.length = history.length
  words : Represents s.avl d.words
  out : s.out = d.out
  running : s.running = d.running

/-! ## The memory of a line -/

/-- `shell_strtrim` moves a part of the string to its beginning, and puts a NUL behind it. -/
lemma exists_shellStrtrim_eq (s : List UInt8) :
    ∃ part, part.length ≤ strlen s ∧
      shellStrtrim s = (part ++ s.drop part.length).set part.length 0 := by
  have hstrlen := strlen_le s
  have hback := skipBack_le s (strlen s)
  rw [shellStrtrim]
  split
  · next h =>
    refine ⟨(s.drop (skipFront s (strlen s) 0)).take
      (skipBack s (strlen s) - skipFront s (strlen s) 0), ?_, ?_⟩
    · rw [List.length_take]
      omega
    · have hlen : ((s.drop (skipFront s (strlen s) 0)).take
          (skipBack s (strlen s) - skipFront s (strlen s) 0)).length =
          skipBack s (strlen s) - skipFront s (strlen s) 0 := by
        rw [List.length_take, List.length_drop]
        omega
      rw [hlen, memmove, List.take_zero, List.nil_append, Nat.zero_add]
  · exact ⟨[], Nat.zero_le _, by rw [memmove]; simp⟩

/-- Behind the string nothing changes. -/
lemma drop_shellStrtrim {s : List UInt8} {m : ℕ} (h : strlen s < m) :
    (shellStrtrim s).drop m = s.drop m := by
  obtain ⟨part, hle, heq⟩ := exists_shellStrtrim_eq s
  rw [heq, List.drop_set_of_lt (by omega), List.drop_append, List.drop_of_length_le (by omega),
    List.nil_append, List.drop_drop, Nat.add_sub_cancel' (by omega)]

lemma Verb.zero_notMem_face (v : Verb) : 0 ∉ v.face := by cases v <;> decide

lemma length_trim_le (t : List UInt8) : (trim isBlank t).length ≤ t.length :=
  (List.rdropWhile_prefix _ _).length_le.trans (List.dropWhile_sublist _).length_le

/-- A line does not become longer. -/
lemma length_tidy_le (t : List UInt8) : (tidy t).length ≤ t.length := by
  rw [tidy]
  split
  · exact le_rfl
  · next v hv =>
    have hface := (Verb.find_eq_some_iff.mp hv).length_le
    have htrim := length_trim_le (t.drop v.face.length)
    rw [List.length_drop] at htrim
    rw [List.length_append]
    omega

/-- **`shell_fnc`** tidies the line that it gets, and changes nothing behind its string. -/
lemma shellFnc_memory (w : World ι) (avl : Avl ι) (s : List UInt8) :
    (shellFnc w avl s).2.length = s.length ∧
      string (shellFnc w avl s).2 = tidy (string s) ∧
      ∀ m, strlen s < m → (shellFnc w avl s).2.drop m = s.drop m := by
  rw [shellFnc, find?_cmds, tidy]
  cases hv : Verb.find (string s) with
  | none => exact ⟨rfl, rfl, fun _ _ => rfl⟩
  | some v =>
    have hpre := Verb.find_eq_some_iff.mp hv
    have hle : v.face.length ≤ strlen s := hpre.length_le
    have hstrlen := strlen_le s
    have htake : s.take v.face.length = v.face :=
      (List.prefix_iff_eq_take.mp (hpre.trans (List.takeWhile_prefix _))).symm
    simp only [Option.map_some, Verb.face_cmd]
    rw [htake]
    refine ⟨?_, ?_, fun m hm => ?_⟩
    · rw [List.length_append, length_shellStrtrim, List.length_drop]
      omega
    · rw [string_append_of_notMem v.zero_notMem_face, string_arg hpre]
    · have hdrop : strlen (s.drop v.face.length) = strlen s - v.face.length := by
        rw [strlen, string_drop hle, List.length_drop]
        rfl
      rw [List.drop_append, List.drop_of_length_le (by omega), List.nil_append,
        drop_shellStrtrim (by omega), List.drop_drop, Nat.add_sub_cancel' (by omega)]

/-! ## The length of the memory -/

lemma length_recallLine {s : ReadLine} (h : N ≤ s.buf.length) (k : ℕ) :
    (s.recallLine k).buf.length = s.buf.length := by
  have hput : (s.put 0 0).buf.length = s.buf.length := List.length_set
  rw [ReadLine.recallLine]
  split
  · exact hput
  · exact (length_strncpy (hput.symm ▸ h) _).trans hput

/-- A key moves bytes within the memory. -/
lemma Shows.length_key {s : ReadLine} {l : Line UInt8} (h : Shows s l) {k : Key}
    (hspace : k.IsSpace → l.text.length ≠ N - 1) : (s.key k).buf.length = s.buf.length := by
  have hlength := h.length
  have hroom := h.room
  have hi := h.i
  have hn := h.n
  have hright := h.strlen_drop
  have hmove {dst src len : ℕ} (hdst : dst + len ≤ s.buf.length) (hsrc : src + len ≤ s.buf.length) :
      (s.move dst src len).buf.length = s.buf.length := length_memmove hdst hsrc
  cases k with
  | escape c =>
    simp only [ReadLine.key]
    split_ifs <;> first | rfl | exact length_recallLine hlength _
  | code k =>
    simp only [ReadLine.key]
    split
    · exact List.length_set
    split
    · rfl
    split
    · split
      · next hlt =>
        have hrest : strlen (s.buf.drop (s.i + 1)) = l.right.length - 1 := by
          rw [← List.drop_drop, strlen, string_drop (by omega), List.length_drop, ← hright]
          rfl
        exact hmove (by omega) (by omega)
      · rfl
    split
    · split
      · exact hmove (by omega) (by omega)
      · rfl
    split
    · next hk =>
      have hfull := hspace (hk.imp (congrArg Key.code) (congrArg Key.code))
      rw [Line.length_text] at hfull
      split
      · exact List.length_set.trans (hmove (by omega) (by omega))
      · rfl
    split
    · rfl
    split
    · split
      · have hset (t : ReadLine) : ((t.put s.i k).put (s.n + 1) 0).buf.length = t.buf.length := by
          simp only [ReadLine.put, List.length_set]
        refine (hset _).trans ?_
        split
        · exact hmove (by omega) (by omega)
        · rfl
      · rfl
    · rfl

/-! ## The slots of the history -/

section Slots

variable {history before mem : List UInt8} {lines : List (List UInt8)}

/-- The slots end where the next ones begin. -/
lemma slot_le {k last : ℕ} (h : k < last) : N * k + N ≤ N * last := by
  rw [← Nat.mul_succ]
  exact Nat.mul_le_mul_left N h

/-- The slot of the edited line is written, and what is behind it. -/
lemma Keeps.replace (h : Keeps history lines) (hbefore : before = history.take (N * lines.length))
    (hlength : before.length + mem.length = history.length) (hnul : 0 ∈ mem.take N) :
    Keeps (before ++ mem) lines ∧ (before ++ mem).drop (N * lines.length) = mem := by
  have hle := h.strings.length
  rw [Nat.mul_succ] at hle
  have hlen : before.length = N * lines.length := by
    rw [hbefore, List.length_take]
    omega
  have hdrop : (before ++ mem).drop (N * lines.length) = mem := by rw [← hlen, List.drop_left]
  -- the slots before it are the same
  have hslot {k : ℕ} (hk : k < lines.length) :
      (history.drop (N * k)).take N = ((before ++ mem).drop (N * k)).take N := by
    have hend := slot_le hk
    rw [List.drop_append_of_le_length (by omega),
      List.take_append_of_le_length (by rw [List.length_drop]; omega), hbefore, List.drop_take,
      List.take_take, Nat.min_eq_left (by omega)]
  refine ⟨⟨⟨fun k hk => ?_, ?_⟩, ?_, fun k hk => ?_⟩, hdrop⟩
  · rcases Nat.lt_or_eq_of_le hk with hlt | rfl
    · rw [← hslot hlt]
      exact h.strings.nul k hk
    · rw [hdrop]
      exact hnul
  · rw [List.length_append, hlength]
    exact h.strings.length
  · rw [List.length_append, hlength]
    exact h.length
  · rw [← h.line k hk]
    exact (string_congr (h.strings.nul k hk.le) (hslot hk)).symm

/-- The edited line is kept, if the next slot is cleared. -/
lemma Keeps.snoc (h : Keeps history lines) (hroom : lines.length + 1 < H)
    (hclear : history[N * (lines.length + 1)]? = some 0) :
    Keeps history (lines ++ [string (history.drop (N * lines.length))]) := by
  have hlength := h.length
  have hend : N * (lines.length + 1) + N ≤ N * H := slot_le hroom
  have hlen : (lines ++ [string (history.drop (N * lines.length))]).length = lines.length + 1 :=
    List.length_append
  refine ⟨⟨fun k hk => ?_, ?_⟩, hlength, fun k hk => ?_⟩
  · rcases Nat.lt_or_eq_of_le (hlen ▸ hk) with hlt | rfl
    · exact h.strings.nul k (Nat.le_of_lt_succ hlt)
    · obtain ⟨hlt, hzero⟩ := List.getElem?_eq_some_iff.mp hclear
      rw [List.drop_eq_getElem_cons hlt, hzero]
      exact List.mem_cons_self
  · rw [hlen, Nat.mul_succ]
    omega
  · rw [hlen] at hk
    rcases Nat.lt_or_eq_of_le (Nat.le_of_lt_succ hk) with hlt | rfl
    · rw [List.getD_append _ _ _ _ hlt]
      exact h.line k hlt
    · rw [List.getD_append_right _ _ _ _ le_rfl, Nat.sub_self]
      rfl

/-- `read_line` begins with the line behind those of the history. -/
lemma Keeps.presents {s : ReadLine} (h : Keeps history lines)
    (hs : s = ReadLine.start history lines.length)
    (hnil : string (history.drop (N * lines.length)) = []) :
    Holds history lines.length s ⟨.atEnd [], lines.length⟩ ∧
      s.before.length + s.buf.length = history.length := by
  have hstart := holds_start h.strings
  rw [Editor.start, hnil] at hstart
  rw [hs]
  refine ⟨hstart, ?_⟩
  rw [ReadLine.start, List.length_take, List.length_drop]
  omega

end Slots

/-! ## A key -/

section Key

variable {s : Shell ι} {d : Desk} {history : List UInt8}

/-- What an action does is about the line only. -/
lemma Desk.act_eq (d : Desk) (a : Action) : d.act a = { d with editor := (d.act a).editor } := by
  cases a <;> simp only [Desk.act] <;> first | rfl | (split <;> rfl)

/-- A line that is recalled is that of the slot. -/
lemma Keeps.recallLine (h : Keeps history d.lines) {k : ℕ} (hk : k ≤ d.lines.length) :
    Editor.recallLine history d.lines.length k = (d.recalled k).editor := by
  rw [Editor.recallLine, Editor.recalled, Desk.recalled]
  split
  · next heq => rw [List.getD_eq_default _ _ heq.ge]
  · next hne => rw [h.line k (lt_of_le_of_ne hk hne)]

/-- An action does on the desk what it does in the editor. -/
lemma Keeps.act (h : Keeps history d.lines) (hj : d.editor.j ≤ d.lines.length) (a : Action) :
    d.editor.act history d.lines.length a = (d.act a).editor := by
  cases a with
  | up =>
    simp only [Editor.act, Desk.act]
    split
    · exact h.recallLine (by omega)
    · rfl
  | down =>
    simp only [Editor.act, Desk.act]
    split
    · exact h.recallLine (by omega)
    · rfl
  | _ => rfl

/-- A key of the editor changes the line. -/
lemma Presents.edit (h : Presents s d) {k : Key}
    (hspace : k.IsSpace → d.editor.line.text.length ≠ N - 1) :
    Presents { s with line := s.line.key k } (d.act k.action) := by
  obtain ⟨history, hkeeps, hholds, hlength⟩ := h.history
  have hkey := hholds.key hkeeps.strings hspace
  rw [Editor.key, hkeeps.act hholds.j_le] at hkey
  have hbefore : (s.line.key k).before = s.line.before := hkey.before.trans hholds.before.symm
  rw [Desk.act_eq]
  refine ⟨⟨history, hkeeps, hkey, ?_⟩, h.words, h.out, h.running⟩
  rw [hbefore, hholds.line.length_key hspace]
  exact hlength

/-- The line that is entered is the string that `shell_strtrim` leaves in the slot. -/
lemma Holds.entered {last : ℕ} (h : Holds history last s.line d.editor) :
    string (shellStrtrim s.line.buf) = d.entered ∧ strlen (shellStrtrim s.line.buf) < N := by
  have hstring : string (shellStrtrim s.line.buf) = d.entered := by
    rw [string_shellStrtrim, h.line.string_buf, Desk.entered]
  refine ⟨hstring, ?_⟩
  have htrim := length_trim_le d.editor.line.text
  have hroom := h.line.room
  rw [← Line.length_text] at hroom
  rw [strlen, hstring]
  exact htrim.trans_lt hroom

/-- Behind a blank line another one is read. -/
lemma Presents.blank (h : Presents s d) (hblank : d.entered = []) :
    Presents { s with line := s.line.enter id } (d.recalled d.lines.length) := by
  obtain ⟨history, hkeeps, hholds, hlength⟩ := h.history
  obtain ⟨hstring, hlt⟩ := hholds.entered
  rw [hblank] at hstring
  have hlen : N ≤ (shellStrtrim s.line.buf).length :=
    (length_shellStrtrim s.line.buf).symm ▸ hholds.line.length
  obtain ⟨hnext, hdrop⟩ := hkeeps.replace hholds.before
    ((length_shellStrtrim s.line.buf).symm ▸ hlength) (zero_mem_take hlen hlt)
  have henter : s.line.enter id =
      ReadLine.start (s.line.before ++ shellStrtrim s.line.buf) d.lines.length := by
    rw [ReadLine.enter, strlen, hstring, List.length_nil, if_pos rfl, hholds.top]
  obtain ⟨hstart, hsum⟩ := hnext.presents henter (by rw [hdrop, hstring])
  refine ⟨⟨_, hnext, ?_, hsum⟩, h.words, h.out, h.running⟩
  rw [Desk.recalled, List.getD_eq_default _ _ le_rfl]
  exact hstart

/-- What `read_line` returns is the line that is entered, in its slot; the next slot is cleared. -/
lemma Holds.returned (hkeeps : Keeps history d.lines)
    (h : Holds history d.lines.length s.line d.editor) (hroom : d.lines.length + 1 < H) :
    s.line.returned = (shellStrtrim s.line.buf).set N 0 ∧
      ReadLine.nextSlot s.line.last = d.lines.length + 1 := by
  have hnext : ReadLine.nextSlot s.line.last = d.lines.length + 1 := by
    rw [ReadLine.nextSlot, h.top, if_pos hroom]
  have hlen : s.line.before.length = N * d.lines.length := by
    have := hkeeps.strings.length
    rw [Nat.mul_succ] at this
    rw [h.before, List.length_take]
    omega
  refine ⟨?_, hnext⟩
  rw [ReadLine.returned, if_pos (h.own.trans h.top.symm), if_pos (h.own.trans h.top.symm), hnext,
    h.own, List.set_append_right _ _ (by rw [hlen, Nat.mul_succ]; omega), hlen, Nat.mul_succ,
    Nat.add_sub_cancel_left, ← hlen, List.drop_left]

/-- The memory that `shell_fnc` leaves, if it gets the line that is entered. -/
lemma Holds.left (w : World ι) (hkeeps : Keeps history d.lines)
    (h : Holds history d.lines.length s.line d.editor)
    (hlength : s.line.before.length + s.line.buf.length = history.length)
    (hroom : d.lines.length + 1 < H) {mem : List UInt8}
    (hmem : mem = (shellFnc w s.avl s.line.returned).2) :
    string s.line.returned = d.entered ∧ mem.length = s.line.buf.length ∧
      string mem = tidy d.entered ∧ 0 ∈ mem.take N ∧ mem[N]? = some 0 := by
  obtain ⟨hstring, hlt⟩ := h.entered
  obtain ⟨hret, -⟩ := h.returned hkeeps hroom
  have hend : N * (d.lines.length + 1) + N ≤ N * H := slot_le hroom
  have hpos : 0 < N := by decide
  have hlen : N + N ≤ s.line.buf.length := by
    have hle := hkeeps.length
    have hbefore := congrArg List.length h.before
    rw [List.length_take] at hbefore
    rw [Nat.mul_succ] at hend
    omega
  have htrim := length_shellStrtrim s.line.buf
  have hline : string s.line.returned = d.entered := by
    rw [← hstring, hret]
    refine (string_congr (zero_mem_take (by omega) hlt) ?_).symm
    rw [List.take_set_of_le le_rfl]
  obtain ⟨hsame, htidy, hdrop⟩ := shellFnc_memory w s.avl s.line.returned
  rw [← hmem, hret, List.length_set, htrim] at hsame
  rw [← hmem, hline] at htidy
  have hshort : strlen s.line.returned < N := by
    rw [strlen, hline, ← hstring]
    exact hlt
  refine ⟨hline, hsame, htidy, zero_mem_take (by omega) ?_, ?_⟩
  · rw [strlen, htidy, ← hline]
    exact (length_tidy_le _).trans_lt hshort
  · have hhead := congrArg (·[0]?) (hdrop N hshort)
    simp only [List.getElem?_drop, Nat.add_zero] at hhead
    rw [hmem, hhead, hret, List.getElem?_set_self (by omega)]

/-- **A line that is not blank** does on the tree what it means for the words, and is kept. -/
lemma Presents.accepted (h : Presents s d) {w : World ι} (hw : w.Text) (hline : d.entered ≠ [])
    (hroom : d.lines.length + 1 < H) :
    ∃ o, (shellFnc w s.avl s.line.returned).1 = some o ∧
      Presents
        { line := s.line.enter fun mem => (shellFnc w s.avl mem).2
          avl := o.avl
          out := s.out ++ [o.out]
          running := decide (o.code = 0) } (d.enter w) := by
  obtain ⟨history, hkeeps, hholds, hlength⟩ := h.history
  generalize hmem : (shellFnc w s.avl s.line.returned).2 = mem
  obtain ⟨hret, hsame, htidy, hnul, hclear⟩ :=
    hholds.left w hkeeps hlength hroom hmem.symm
  obtain ⟨o, ho, hrefines⟩ := shellFnc_refines hw h.words s.line.returned
  rw [hret] at hrefines
  refine ⟨o, ho, ?_⟩
  -- the slot holds what `shell_fnc` left, and the next one is cleared
  obtain ⟨hnext, hdrop⟩ := hkeeps.replace hholds.before (hsame.symm ▸ hlength) hnul
  have hbefore : s.line.before.length = N * d.lines.length := by
    have hle := hkeeps.strings.length
    rw [Nat.mul_succ] at hle
    rw [hholds.before, List.length_take]
    omega
  have hzero : (s.line.before ++ mem)[N * (d.lines.length + 1)]? = some 0 := by
    rw [List.getElem?_append_right (by rw [hbefore, Nat.mul_succ]; omega), hbefore, Nat.mul_succ,
      Nat.add_sub_cancel_left]
    exact hclear
  have hsnoc := hnext.snoc hroom hzero
  rw [hdrop, htidy] at hsnoc
  have hlen : (d.lines ++ [tidy d.entered]).length = d.lines.length + 1 := List.length_append
  have henter : (s.line.enter fun mem => (shellFnc w s.avl mem).2) =
      ReadLine.start (s.line.before ++ mem) (d.lines ++ [tidy d.entered]).length := by
    obtain ⟨hstring, -⟩ := hholds.entered
    obtain ⟨hreturned, hslot⟩ := hholds.returned hkeeps hroom
    have hown : s.line.own = s.line.last := hholds.own.trans hholds.top.symm
    have hne : strlen (shellStrtrim s.line.buf) ≠ 0 := by
      rw [strlen, hstring]
      exact mt List.length_eq_zero_iff.mp hline
    have hsplit := hreturned
    rw [ReadLine.returned, if_pos hown, if_pos hown] at hsplit
    rw [ReadLine.enter, if_neg hne]
    simp only [if_pos hown]
    rw [hsplit, ← hreturned, hmem, hslot, hlen, hholds.own, ← hbefore,
      List.set_append_right _ _ (by rw [hbefore, Nat.mul_succ]; omega), List.take_left]
  have hnil : string ((s.line.before ++ mem).drop
      (N * (d.lines ++ [tidy d.entered]).length)) = [] := by
    obtain ⟨hlt, hbyte⟩ := List.getElem?_eq_some_iff.mp hzero
    rw [hlen, List.drop_eq_getElem_cons hlt, hbyte]
    rfl
  obtain ⟨hstart, hsum⟩ := hsnoc.presents henter hnil
  rw [Desk.enter, if_neg hline]
  refine ⟨⟨_, hsnoc, ?_, hsum⟩, hrefines.represents, ?_, ?_⟩
  · rw [hlen] at hstart ⊢
    exact hstart
  · show s.out ++ [o.out] = d.out ++ [_]
    rw [h.out, hrefines.out]
  · show decide (o.code = 0) = decide _
    rw [hrefines.code]

/-- **A key** does to the shell what it does on the desk, and fails no assertion. -/
lemma Presents.key (h : Presents s d) {x : World ι × Key} (hw : x.1.Text) (hroom : d.Room x) :
    Option.Rel Presents (s.key x) (d.key x) := by
  obtain ⟨w, k⟩ := x
  have hrunning := h.running
  rw [Shell.key, Desk.key]
  by_cases hrun : d.running = true
  · rw [if_neg (not_not_intro (hrunning.trans hrun)), if_neg (not_not_intro hrun)]
    by_cases hk : k = .newline
    · rw [if_neg (not_not_intro hk), if_pos hk]
      obtain ⟨history, -, hholds, -⟩ := h.history
      obtain ⟨hstring, -⟩ := hholds.entered
      by_cases hblank : d.entered = []
      · rw [if_pos (by rw [strlen, hstring, hblank]; rfl), Desk.enter, if_pos hblank]
        exact .some (h.blank hblank)
      · obtain ⟨o, ho, hpresents⟩ := h.accepted hw hblank (hroom.2 hk hblank)
        rw [if_neg (by rw [strlen, hstring]; exact mt List.length_eq_zero_iff.mp hblank), ho]
        exact .some hpresents
    · rw [if_pos hk, if_neg hk]
      exact .some (h.edit hroom.1)
  · rw [if_pos (hrunning ▸ hrun), if_pos hrun]
    exact .none

end Key

/-! ## Sessions -/

/-- The shell begins at an empty desk. -/
lemma presents_start (rest : List UInt8) : Presents (Shell.start rest : Shell ι) Desk.start := by
  have hpos : 0 < H * N := by decide
  have hN : 0 < N := by decide
  have hzero : (List.replicate (H * N) (0 : UInt8) ++ rest) =
      0 :: (List.replicate (H * N - 1) 0 ++ rest) := by
    rw [← List.cons_append, ← List.replicate_succ, Nat.sub_add_cancel hpos]
  have hlength : N * H ≤ (List.replicate (H * N) (0 : UInt8) ++ rest).length := by
    rw [List.length_append, List.length_replicate, Nat.mul_comm]
    omega
  have hkeeps : Keeps (List.replicate (H * N) 0 ++ rest) [] := by
    refine ⟨⟨fun k hk => ?_, ?_⟩, hlength, fun k hk => absurd hk (Nat.not_lt_zero k)⟩
    · obtain rfl := Nat.le_zero.mp hk
      rw [Nat.mul_zero, List.drop_zero, hzero, ← Nat.sub_add_cancel hN, List.take_succ_cons]
      exact List.mem_cons_self
    · rw [List.length_nil, Nat.zero_add]
      exact (Nat.mul_le_mul_left N (by decide : 1 ≤ H)).trans hlength
  obtain ⟨hstart, hsum⟩ := hkeeps.presents rfl (by
    rw [List.length_nil, Nat.mul_zero, List.drop_zero, hzero]
    rfl)
  exact ⟨⟨_, hkeeps, hstart, hsum⟩, represents_empty, rfl, rfl⟩

/-- **With room for what is typed, a session of the shell is one at a desk**: both take the same
keys, and behind them the history holds the earlier lines, `read_line` the line with its cursor and
the tree the words, and the same was printed.

**Proof sketch.** A key of the editor does to the slot what it means for the line, within it. The
enter key takes white space off the line and clears the next slot; `shell_fnc` does to the tree what
the line means, and takes white space off the argument, within the slot. So the earlier slots keep
their lines, and the next line is empty. -/
theorem shell_session (rest : List UInt8) {keys : List (World ι × Key)}
    (hw : ∀ x ∈ keys, x.1.Text) (hroom : Always Desk.key Desk.Room Desk.start keys) :
    Option.Rel Presents (run Shell.key (Shell.start rest : Shell ι) keys)
      (run Desk.key Desk.start keys) := by
  refine rel_run (E := fun d x => x.1.Text ∧ d.Room x) (fun s d x h hx => h.key hx.1 hx.2)
    (presents_start rest) ?_
  exact (always_of_forall_mem _ hw).and hroom

/-- The keys of a text. -/
def typed (w : World ι) (text : String) : List (World ι × Key) :=
  (ascii text).map fun b => (w, .code b)

/-- A world without files. -/
def bareWorld : World ℕ := ⟨fun _ => none, id, id, 0, 0, []⟩

/-- Witness: a line with white space around its argument is recalled and goes on. -/
theorem shell_session_recall :
    ∃ s d, run Shell.key (Shell.start [] : Shell ℕ)
        (typed bareWorld "insert  b \n" ++ (bareWorld, .escape 65) ::
          typed bareWorld "c\nexists bc\nquit\n") = some s ∧
      Presents s d ∧
      d.lines = [ascii "insert b", ascii "insert bc", ascii "exists bc", ascii "quit"] ∧
      d.out = [[], [], [.existing (ascii "bc") 1], []] ∧ d.running = false := by
  generalize hkeys : typed bareWorld "insert  b \n" ++ (bareWorld, .escape 65) ::
    typed bareWorld "c\nexists bc\nquit\n" = keys
  have hworld : ∀ x ∈ keys, x.1 = bareWorld := by
    intro x hx
    simp only [← hkeys, typed, List.mem_append, List.mem_cons, List.mem_map] at hx
    rcases hx with ⟨b, -, rfl⟩ | rfl | ⟨b, -, rfl⟩ <;> rfl
  have hrel := shell_session [] (fun x hx path file hfile => by
    rw [hworld x hx] at hfile
    cases hfile) (show Always Desk.key Desk.Room Desk.start keys by rw [← hkeys]; decide +kernel)
  have hdesk : (run Desk.key Desk.start keys).map (fun d => (d.lines, d.out, d.running)) =
      some ([ascii "insert b", ascii "insert bc", ascii "exists bc", ascii "quit"],
        [[], [], [.existing (ascii "bc") 1], []], false) := by
    rw [← hkeys]
    decide +kernel
  obtain ⟨d, hd, hshown⟩ := Option.map_eq_some_iff.mp hdesk
  simp only [Prod.mk.injEq] at hshown
  rw [hd] at hrel
  generalize hs : run Shell.key (Shell.start [] : Shell ℕ) keys = shell at hrel
  cases hrel with
  | some hpresents => exact ⟨_, d, rfl, hpresents, hshown⟩

end Cs238p.P3
