import Mathlib.Data.Finset.Sort
import Cs238p.P3.Load

set_option relaxedAutoImplicit false
set_option autoImplicit false

/-!
# The commands of `p3/main.c`

The shell calls `shell_fnc` with a line. The line begins with the face of one of the commands of a
table, behind which there is its argument; the command reports on the tree or changes it.

## Main definitions

* `Report`, `Report.text` — what a command prints.
* `World` — what the commands get from outside: the files, the storage and the sizes of the region.
* `insertCmd`, `removeWord`, `existsCmd`, `loadCmd`, `listCmd`, `info`, `help`, `quit` — as in the
  source.
* `cmds`, `shellFnc` — the table and the function of the shell.
* `Command`, `Means`, `parse`, `Command.spec` — the commands on a multiset of words.

## Main results

* `parse_eq_ok_iff` — a line means at most one command, which the table finds.
* `shellFnc_refines` — `shell_fnc` does to the tree what the line means for the multiset, and prints
  what it says about it.

## Implementation notes

The tree is a value, as with an allocator that always succeeds with fresh storage, so that an
insertion does not fail. A text is a sequence of bytes, and a number is printed in decimal.
-/

namespace Cs238p.P3

open Buffer SortedCounts WhiteSpace

variable {ι : Type}

/-! ## What is printed -/

/-- The bytes of a text. -/
def ascii (s : String) : List UInt8 := s.toList.map fun c => UInt8.ofNat c.toNat

/-- `%lu`. -/
def decimal (n : ℕ) : List UInt8 := (Nat.toDigits 10 n).map fun c => UInt8.ofNat c.toNat

/-- What a command prints. -/
inductive Report
  | existing (s : List UInt8) (count : ℕ)
  | missing (s : List UInt8)
  | failedInsert (s : List UInt8)
  | notFound (s : List UInt8)
  | failedRemove (s : List UInt8)
  | unableToOpen (s : List UInt8)
  | word (s : List UInt8) (count : ℕ)
  | info (items unique utilized capacity : ℕ)
  | help
  | bad (s : List UInt8)
  deriving DecidableEq, Repr

/-- The text of the menu. -/
def helpText : List UInt8 :=
  ascii ("\n-- commands -- \n" ++
    "  quit          : exit the program\n" ++
    "  help          : prints this menu\n" ++
    "  info          : report info\n" ++
    "  list          : list words in sorted order\n" ++
    "  load pathname : load words from file @ 'pathname'\n" ++
    "  insert word   : insert 'word'\n" ++
    "  remove word   : remove 'word'\n" ++
    "  exists word   : check if 'word' exists\n" ++
    "\n")

/-- The text of a report. -/
def Report.text : Report → List UInt8
  | .existing s count => ascii "'" ++ s ++ ascii "' x " ++ decimal count ++ ascii " exists\n"
  | .missing s => ascii "'" ++ s ++ ascii "' does not exist\n"
  | .failedInsert s => ascii "error: failed to insert '" ++ s ++ ascii "'"
  | .notFound s => ascii "'" ++ s ++ ascii "' not found"
  | .failedRemove s => ascii "error: failed to remove '" ++ s ++ ascii "'"
  | .unableToOpen s => ascii "error: unable to open '" ++ s ++ ascii "' for reading\n"
  | .word s count => ascii "'" ++ s ++ ascii "' x " ++ decimal count ++ ascii "\n"
  | .info items unique utilized capacity =>
    ascii "\n-- info -- \n" ++ ascii "  words    : " ++ decimal items ++ ascii " (total)\n" ++
      ascii "  words    : " ++ decimal unique ++ ascii " (unique)\n" ++
      ascii "  utilized : " ++ decimal utilized ++ ascii " bytes\n" ++
      ascii "  capacity : " ++ decimal capacity ++ ascii " bytes\n" ++ ascii "\n"
  | .help => helpText
  | .bad s =>
    ascii "error: bad command/argument (" ++
      (if s = [] then ascii "missing argument" else s) ++ ascii ")\n"

/-! ## The source -/

/-- What the commands get from outside: the contents of the files that can be opened, the storage of
new nodes and duplicated strings, the size of the region, and the initial contents of the buffer of
`load`. -/
structure World (ι : Type) where
  files : List UInt8 → Option (List UInt8)
  fresh : ℕ → ι
  redup : ι → ι
  utilized : ℕ
  capacity : ℕ
  word : List UInt8

/-- The return value of a command, what it printed and the tree after it. -/
structure Outcome (ι : Type) where
  code : ℤ
  out : List Report
  avl : Avl ι

/-- A string as the argument of a public function of the tree, `none` if the assertion fails. -/
def toWord (s : List UInt8) : Option Word :=
  if h : strlen s ≠ 0 then some ⟨⟨string s, zero_notMem_string s⟩, h⟩ else none

/-- `exists`. -/
def existsCmd (_w : World ι) (avl : Avl ι) (s : List UInt8) : Option (Outcome ι) :=
  (toWord s).map fun item =>
    let count := avlExists avl item
    ⟨0, [if count = 0 then .missing (string s) else .existing (string s) count], avl⟩

/-- `insert`. -/
def insertCmd (w : World ι) (avl : Avl ι) (s : List UInt8) : Option (Outcome ι) :=
  (toWord s).map fun item =>
    let res := avlInsert (w.fresh 0) avl item
    ⟨0, if res.1 ≠ 0 then [.failedInsert (string s)] else [], res.2⟩

/-- `remove_word`. -/
def removeWord (w : World ι) (avl : Avl ι) (s : List UInt8) : Option (Outcome ι) :=
  (toWord s).map fun item =>
    if avlExists avl item = 0 then ⟨0, [.notFound (string s)], avl⟩
    else
      let res := avlRemove w.redup avl item
      ⟨0, if res.1 ≠ 0 then [.failedRemove (string s)] else [], res.2⟩

/-- `load`. -/
def loadCmd (w : World ι) (avl : Avl ι) (s : List UInt8) : Option (Outcome ι) :=
  match w.files (string s) with
  | none => some ⟨0, [.unableToOpen (string s)], avl⟩
  | some file => some ⟨0, [], load w.fresh avl w.word (some file)⟩

/-- `list`. -/
def listCmd (_w : World ι) (avl : Avl ι) (_s : List UInt8) : Option (Outcome ι) :=
  some ⟨0, (avlTraverse avl).map fun p => .word p.1.bytes p.2, avl⟩

/-- `info`. -/
def info (w : World ι) (avl : Avl ι) (_s : List UInt8) : Option (Outcome ι) :=
  some ⟨0, [.info (avlItems avl) (avlUnique avl) w.utilized w.capacity], avl⟩

/-- `help`. -/
def help (_w : World ι) (avl : Avl ι) (_s : List UInt8) : Option (Outcome ι) :=
  some ⟨0, [.help], avl⟩

/-- `quit`. -/
def quit (_w : World ι) (avl : Avl ι) (_s : List UInt8) : Option (Outcome ι) := some ⟨1, [], avl⟩

/-- An entry of `CMDS`. -/
structure Cmd (ι : Type) where
  argc : ℕ
  face : List UInt8
  fnc : World ι → Avl ι → List UInt8 → Option (Outcome ι)

/-- `CMDS`. -/
def cmds : List (Cmd ι) :=
  [⟨0, ascii "quit", quit⟩, ⟨0, ascii "help", help⟩, ⟨0, ascii "info", info⟩,
    ⟨0, ascii "list", listCmd⟩, ⟨1, ascii "load", loadCmd⟩, ⟨1, ascii "insert ", insertCmd⟩,
    ⟨1, ascii "remove ", removeWord⟩, ⟨1, ascii "exists ", existsCmd⟩]

/-- The end of `shell_fnc`. -/
def badCommand (avl : Avl ι) (s : List UInt8) : Option (Outcome ι) :=
  some ⟨0, [.bad (string s)], avl⟩

/-- `shell_fnc`, on the memory from the line on: the outcome, `none` if an assertion fails, and the
memory after it. -/
def shellFnc (w : World ι) (avl : Avl ι) (s : List UInt8) : Option (Outcome ι) × List UInt8 :=
  match cmds.find? fun c => c.face.isPrefixOf (string s) with
  | none => (badCommand avl s, s)
  | some c =>
    let arg := shellStrtrim (s.drop c.face.length)
    (if (c.argc ≠ 0 ∧ strlen arg = 0) ∨ (c.argc = 0 ∧ strlen arg ≠ 0) then badCommand avl arg
      else c.fnc w avl arg, s.take c.face.length ++ arg)

/-! ## The purpose -/

/-- The verbs of the commands, in the order of the table. -/
inductive Verb
  | quit
  | help
  | info
  | list
  | load
  | insert
  | remove
  | exists
  deriving DecidableEq, Repr

/-- The commands. -/
inductive Command
  | quit
  | help
  | info
  | list
  | load (path : Word)
  | insert (item : Word)
  | remove (item : Word)
  | exists (item : Word)
  deriving DecidableEq

namespace Verb

/-- All verbs. -/
def all : List Verb := [.quit, .help, .info, .list, .load, .insert, .remove, .exists]

/-- What a command begins with. -/
def face : Verb → List UInt8
  | .quit => ascii "quit"
  | .help => ascii "help"
  | .info => ascii "info"
  | .list => ascii "list"
  | .load => ascii "load"
  | .insert => ascii "insert "
  | .remove => ascii "remove "
  | .exists => ascii "exists "

/-- The verb of a line. -/
def find (t : List UInt8) : Option Verb := all.find? fun v => v.face.isPrefixOf t

/-- The bytes as a word, if there are some and no NUL is among them. -/
def word (a : List UInt8) : Option Word :=
  if h : 0 ∉ a ∧ a ≠ [] then some ⟨⟨a, h.1⟩, mt List.length_eq_zero_iff.mp h.2⟩ else none

/-- The command of a verb and an argument, `none` if there should be an argument and there is none,
or the other way around. -/
def command (a : List UInt8) : Verb → Option Command
  | .quit => if a = [] then some .quit else none
  | .help => if a = [] then some .help else none
  | .info => if a = [] then some .info else none
  | .list => if a = [] then some .list else none
  | .load => (word a).map .load
  | .insert => (word a).map .insert
  | .remove => (word a).map .remove
  | .exists => (word a).map .exists

end Verb

namespace Command

/-- The verb of a command. -/
def verb : Command → Verb
  | .quit => .quit
  | .help => .help
  | .info => .info
  | .list => .list
  | .load _ => .load
  | .insert _ => .insert
  | .remove _ => .remove
  | .exists _ => .exists

/-- The argument of a command. -/
def arg : Command → List UInt8
  | .quit | .help | .info | .list => []
  | .load item | .insert item | .remove item | .exists item => item.1.bytes

end Command

/-- A line means a command if behind its face there is its argument, with white space around it. -/
def Means (t : List UInt8) (c : Command) : Prop :=
  ∃ rest, t = c.verb.face ++ rest ∧ trim isBlank rest = c.arg

/-- The command of a line, or the text that is reported as bad. -/
def parse (t : List UInt8) : Except (List UInt8) Command :=
  match Verb.find t with
  | none => .error t
  | some v =>
    let a := trim isBlank (t.drop v.face.length)
    match v.command a with
    | none => .error a
    | some c => .ok c

/-- The bytes as a string, if there is no NUL in them. -/
def toCString (l : List UInt8) : Option CString := if h : 0 ∉ l then some ⟨l, h⟩ else none

/-- The words that `load` takes from a file. -/
def wordsOf (file : List UInt8) : Multiset CString := ((inserted file).filterMap toCString : List _)

/-- What a command does to a multiset of words, with its return value and what it prints. -/
def Command.spec (w : World ι) (m : Multiset CString) :
    Command → ℤ × List Report × Multiset CString
  | .quit => (1, [], m)
  | .help => (0, [.help], m)
  | .info => (0, [.info m.card m.toFinset.card w.utilized w.capacity], m)
  | .list => (0, (m.toFinset.sort (· ≤ ·)).map fun x => .word x.bytes (m.count x), m)
  | .load path =>
    match w.files path.1.bytes with
    | none => (0, [.unableToOpen path.1.bytes], m)
    | some file => (0, [], wordsOf file + m)
  | .insert item => (0, [], item.1 ::ₘ m)
  | .remove item =>
    if item.1 ∈ m then (0, [], m.erase item.1) else (0, [.notFound item.1.bytes], m)
  | .exists item =>
    (0, [if item.1 ∈ m then .existing item.1.bytes (m.count item.1)
      else .missing item.1.bytes], m)

/-- What a line does to a multiset of words. -/
def specLine (w : World ι) (m : Multiset CString) (t : List UInt8) :
    ℤ × List Report × Multiset CString :=
  match parse t with
  | .error text => (0, [.bad text], m)
  | .ok c => c.spec w m

/-! ## Reading a line -/

/-- In a list of faces none of which begins with another one, the first that a text begins with is
the only one. -/
lemma find?_of_incomparable {α β : Type} [DecidableEq β] {face : α → List β} {l : List α}
    {t : List β} (hl : l.Pairwise fun a b => ¬ face a <+: face b ∧ ¬ face b <+: face a) {a : α}
    (ha : a ∈ l) (h : face a <+: t) : l.find? (fun e => (face e).isPrefixOf t) = some a := by
  induction l with
  | nil => exact absurd ha List.not_mem_nil
  | cons b l ih =>
    obtain ⟨hb, hl⟩ := List.pairwise_cons.mp hl
    by_cases hbt : face b <+: t
    · rw [List.find?_cons_of_pos (by simpa using hbt)]
      rcases List.mem_cons.mp ha with rfl | ha
      · rfl
      · have hne := hb a ha
        rcases List.prefix_or_prefix_of_prefix hbt h with hpre | hpre
        · exact absurd hpre hne.1
        · exact absurd hpre hne.2
    · rw [List.find?_cons_of_neg (by simpa using hbt)]
      rcases List.mem_cons.mp ha with rfl | ha
      · exact absurd h hbt
      · exact ih hl ha

lemma Verb.mem_all (v : Verb) : v ∈ all := by cases v <;> decide

/-- The verb of a line is the one that it begins with. -/
lemma Verb.find_eq_some_iff {t : List UInt8} {v : Verb} : find t = some v ↔ v.face <+: t := by
  constructor
  · intro h
    simpa using List.find?_some h
  · intro h
    refine find?_of_incomparable ?_ v.mem_all h
    decide

lemma Verb.word_eq_some_iff {a : List UInt8} {item : Word} :
    word a = some item ↔ item.1.bytes = a := by
  rw [word]
  split
  · next h =>
    constructor
    · intro heq
      obtain rfl := Option.some.inj heq
      rfl
    · rintro rfl
      rfl
  · next h =>
    refine iff_of_false (by simp) ?_
    rintro rfl
    exact h ⟨item.1.nul_free, fun hnil => item.2 (by rw [CString.strlen, hnil]; rfl)⟩

/-- A command is read from its verb and its argument. -/
lemma Verb.command_eq_some_iff {a : List UInt8} {v : Verb} {c : Command} :
    v.command a = some c ↔ c.verb = v ∧ c.arg = a := by
  cases v <;> cases c <;>
    simp [command, Command.verb, Command.arg, Verb.word_eq_some_iff, eq_comm]

/-- **A line means at most one command, which the table finds.** -/
theorem parse_eq_ok_iff (t : List UInt8) (c : Command) : parse t = .ok c ↔ Means t c := by
  rw [parse]
  constructor
  · intro h
    split at h
    · simp at h
    · next v hv =>
      simp only at h
      split at h
      · simp at h
      · next c' hc' =>
        obtain rfl := Except.ok.inj h
        obtain ⟨rfl, harg⟩ := Verb.command_eq_some_iff.mp hc'
        obtain ⟨rest, rfl⟩ := Verb.find_eq_some_iff.mp hv
        refine ⟨rest, rfl, ?_⟩
        rw [harg, List.drop_left]
  · rintro ⟨rest, rfl, harg⟩
    have hv : Verb.find (c.verb.face ++ rest) = some c.verb :=
      Verb.find_eq_some_iff.mpr (List.prefix_append _ _)
    have hc : c.verb.command (trim isBlank rest) = some c :=
      Verb.command_eq_some_iff.mpr ⟨rfl, harg.symm⟩
    rw [hv]
    simp only [List.drop_left, hc]

/-! ## Simulation -/

/-- The entry of a verb in the table. -/
def Verb.cmd : Verb → Cmd ι
  | .quit => ⟨0, ascii "quit", P3.quit⟩
  | .help => ⟨0, ascii "help", P3.help⟩
  | .info => ⟨0, ascii "info", P3.info⟩
  | .list => ⟨0, ascii "list", listCmd⟩
  | .load => ⟨1, ascii "load", loadCmd⟩
  | .insert => ⟨1, ascii "insert ", insertCmd⟩
  | .remove => ⟨1, ascii "remove ", removeWord⟩
  | .exists => ⟨1, ascii "exists ", existsCmd⟩

lemma Verb.face_cmd (v : Verb) : (v.cmd : Cmd ι).face = v.face := by cases v <;> rfl

/-- The table is searched for the verb of the line. -/
lemma find?_cmds (t : List UInt8) :
    (cmds : List (Cmd ι)).find? (fun c => c.face.isPrefixOf t) = (Verb.find t).map Verb.cmd := by
  rw [show (cmds : List (Cmd ι)) = Verb.all.map Verb.cmd from rfl, List.find?_map, Verb.find]
  refine congrArg (Option.map Verb.cmd) (congrArg (List.find? · Verb.all) ?_)
  funext v
  rw [Function.comp_apply, Verb.face_cmd]

/-- The string behind a part of a string. -/
lemma string_drop {s : List UInt8} {n : ℕ} (h : n ≤ strlen s) :
    string (s.drop n) = (string s).drop n := by
  induction n generalizing s with
  | zero => rfl
  | succ n ih =>
    cases s with
    | nil => exact absurd h (by simp [strlen, string])
    | cons b s =>
      by_cases hb : b = 0
      · subst hb
        exact absurd h (by simp [strlen, string])
      · have hcons : string (b :: s) = b :: string s := by simp [string, hb]
        rw [strlen, hcons, List.length_cons] at h
        rw [hcons, List.drop_succ_cons, List.drop_succ_cons]
        exact ih (Nat.le_of_succ_le_succ h)

/-- The argument of a command, behind its face. -/
lemma string_arg {s : List UInt8} {v : Verb} (h : v.face <+: string s) :
    string (shellStrtrim (s.drop v.face.length)) =
      trim isBlank ((string s).drop v.face.length) := by
  rw [string_shellStrtrim, string_drop h.length_le]

/-- A word of the memory is one of the string in it. -/
lemma toWord_eq (s : List UInt8) : toWord s = Verb.word (string s) := by
  have hzero := zero_notMem_string s
  rw [toWord, Verb.word]
  by_cases h : strlen s ≠ 0
  · rw [dif_pos h, dif_pos ⟨hzero, fun hnil => h (by rw [strlen, hnil]; rfl)⟩]
  · rw [dif_neg h, dif_neg]
    rintro ⟨-, hne⟩
    exact hne (List.length_eq_zero_iff.mp (not_not.mp h))

variable {avl : Avl ι} {m : Multiset CString}

/-- The traversal lists the distinct words in their order. -/
lemma Represents.traverse_eq (h : Represents avl m) :
    avlTraverse avl = (m.toFinset.sort (· ≤ ·)).map fun x => (x, m.count x) := by
  have hsorted : ((avlTraverse avl).map Prod.fst).Pairwise (· < ·) :=
    List.pairwise_map.mpr h.valid.sorted
  have hmem : ((avlTraverse avl).map Prod.fst).toFinset = m.toFinset := by
    ext x
    rw [List.mem_toFinset, List.mem_map, Multiset.mem_toFinset, ← Multiset.count_pos]
    constructor
    · rintro ⟨⟨y, c⟩, hy, rfl⟩
      obtain ⟨hpos, rfl⟩ := (h.mem_traverse_iff y c).mp hy
      exact hpos
    · intro hpos
      exact ⟨(x, m.count x), (h.mem_traverse_iff x _).mpr ⟨hpos, rfl⟩, rfl⟩
  have hnodup : ((avlTraverse avl).map Prod.fst).Nodup := hsorted.imp fun hlt => hlt.ne
  have hsort : m.toFinset.sort (· ≤ ·) = (avlTraverse avl).map Prod.fst := by
    rw [← hmem]
    exact (List.toFinset_sort _ hnodup).mpr (hsorted.imp fun hlt => hlt.le)
  rw [hsort, List.map_map]
  refine (List.map_id _).symm.trans (List.map_congr_left fun p hp => ?_)
  exact Prod.ext rfl ((h.mem_traverse_iff p.1 p.2).mp hp).2

/-- What a line does in an outcome of `shell_fnc`. -/
structure Outcome.Refines (o : Outcome ι) (res : ℤ × List Report × Multiset CString) : Prop where
  code : o.code = res.1
  out : o.out = res.2.1
  represents : Represents o.avl res.2.2

/-- The files have no NULs in them. -/
def World.Text (w : World ι) : Prop := ∀ path file, w.files path = some file → 0 ∉ file

/-- `load` adds the words of a file. -/
lemma represents_load (h : Represents avl m) (fresh : ℕ → ι) (word : List UInt8)
    {file : List UInt8} (hnul : 0 ∉ file) :
    Represents (load fresh avl word (some file)) (wordsOf file + m) := by
  obtain ⟨m', hm', hmap⟩ := represents_loadLoop fresh h word hnul
  have hback (x : CString) : toCString x.bytes = some x := by
    rw [toCString, dif_pos x.nul_free]
  have heq : m' = wordsOf file + m := by
    have hfilter := congrArg (Multiset.filterMap toCString) hmap
    rw [Multiset.filterMap_add, Multiset.filterMap_map, Multiset.filterMap_map] at hfilter
    have hid : toCString ∘ CString.bytes = some := funext hback
    rw [hid, Multiset.filterMap_some, Multiset.filterMap_some, Multiset.filterMap_coe] at hfilter
    exact hfilter
  rw [← heq]
  exact hm'

/-- **A command** does to the tree what it means for the multiset. -/
lemma fnc_refines {w : World ι} (hw : w.Text) (h : Represents avl m) {s : List UInt8} {v : Verb}
    {c : Command} (hc : v.command (string s) = some c) :
    ∃ o, (v.cmd : Cmd ι).fnc w avl s = some o ∧ o.Refines (c.spec w m) := by
  have hword {f : Word → Command} (hc : (Verb.word (string s)).map f = some c) :
      ∃ item : Word, toWord s = some item ∧ item.1.bytes = string s ∧ c = f item := by
    obtain ⟨item, hitem, rfl⟩ := Option.map_eq_some_iff.mp hc
    exact ⟨item, (toWord_eq s).trans hitem, Verb.word_eq_some_iff.mp hitem, rfl⟩
  have hnil {c' : Command} (hc : (if string s = [] then some c' else none) = some c) : c = c' := by
    split at hc
    · exact (Option.some.inj hc).symm
    · simp at hc
  cases v with
  | quit =>
    obtain rfl := hnil hc
    exact ⟨_, rfl, rfl, rfl, h⟩
  | help =>
    obtain rfl := hnil hc
    exact ⟨_, rfl, rfl, rfl, h⟩
  | info =>
    obtain rfl := hnil hc
    refine ⟨_, rfl, rfl, ?_, h⟩
    show [Report.info avl.items avl.unique w.utilized w.capacity] = _
    rw [h.items, h.unique]
    rfl
  | list =>
    obtain rfl := hnil hc
    refine ⟨_, rfl, rfl, ?_, h⟩
    show (avlTraverse avl).map (fun p => Report.word p.1.bytes p.2) = _
    rw [h.traverse_eq, List.map_map]
    rfl
  | load =>
    obtain ⟨item, -, hbytes, rfl⟩ := hword hc
    show ∃ o, loadCmd w avl s = some o ∧ o.Refines ((Command.load item).spec w m)
    rw [loadCmd, Command.spec, hbytes]
    cases hfile : w.files (string s) with
    | none => exact ⟨_, rfl, rfl, rfl, h⟩
    | some file => exact ⟨_, rfl, rfl, rfl, represents_load h w.fresh w.word (hw _ _ hfile)⟩
  | insert =>
    obtain ⟨item, hitem, -, rfl⟩ := hword hc
    show ∃ o, insertCmd w avl s = some o ∧ o.Refines ((Command.insert item).spec w m)
    rw [insertCmd, hitem]
    exact ⟨_, rfl, rfl, rfl, represents_insert h (w.fresh 0) item⟩
  | remove =>
    obtain ⟨item, hitem, hbytes, rfl⟩ := hword hc
    have hexists : avlExists avl item = m.count item.1 := h.lookup item.1
    obtain ⟨-, hremove⟩ := represents_remove h w.redup item
    show ∃ o, removeWord w avl s = some o ∧ o.Refines ((Command.remove item).spec w m)
    rw [removeWord, hitem, Option.map_some, hexists, Command.spec, ← hbytes]
    by_cases hmem : item.1 ∈ m
    · have hcount := Multiset.count_ne_zero.mpr hmem
      obtain ⟨hcode, hm⟩ := hremove hcount
      rw [if_neg hcount, if_pos hmem]
      exact ⟨_, rfl, rfl, if_neg (not_not_intro hcode), hm⟩
    · rw [if_pos (Multiset.count_eq_zero.mpr hmem), if_neg hmem]
      exact ⟨_, rfl, rfl, rfl, h⟩
  | «exists» =>
    obtain ⟨item, hitem, hbytes, rfl⟩ := hword hc
    have hexists : avlExists avl item = m.count item.1 := h.lookup item.1
    show ∃ o, existsCmd w avl s = some o ∧ o.Refines ((Command.exists item).spec w m)
    rw [existsCmd, hitem, Option.map_some, hexists, Command.spec, ← hbytes]
    refine ⟨_, rfl, rfl, ?_, h⟩
    simp only [Multiset.count_eq_zero, ite_not]

/-- An entry takes an argument if its verb makes a command of one only. -/
lemma argc_iff (v : Verb) {a : List UInt8} (hzero : 0 ∉ a) :
    ((v.cmd : Cmd ι).argc ≠ 0 ∧ a = [] ∨ (v.cmd : Cmd ι).argc = 0 ∧ a ≠ []) ↔
      v.command a = none := by
  have hword : (Verb.word a = none) ↔ a = [] := by
    rw [Verb.word]
    split
    · next h => simp [h.2]
    · next h => simpa [hzero] using h
  cases v <;> simp [Verb.cmd, Verb.command, hword]

/-- **`shell_fnc`** does to the tree what the line means for the multiset, prints what it says about
it, and fails no assertion. -/
theorem shellFnc_refines {w : World ι} (hw : w.Text) (h : Represents avl m) (s : List UInt8) :
    ∃ o, (shellFnc w avl s).1 = some o ∧ o.Refines (specLine w m (string s)) := by
  rw [shellFnc, find?_cmds, specLine, parse]
  cases hv : Verb.find (string s) with
  | none => exact ⟨_, rfl, rfl, rfl, h⟩
  | some v =>
    have harg := string_arg (Verb.find_eq_some_iff.mp hv)
    have hiff := @argc_iff ι v _ (zero_notMem_string (shellStrtrim (s.drop v.face.length)))
    have hlen : strlen (shellStrtrim (s.drop v.face.length)) = 0 ↔
        string (shellStrtrim (s.drop v.face.length)) = [] := List.length_eq_zero_iff
    simp only [Option.map_some, Verb.face_cmd, ne_eq, hlen]
    rw [← harg]
    generalize shellStrtrim (s.drop v.face.length) = arg at hiff
    cases hc : v.command (string arg) with
    | none =>
      rw [if_pos (hiff.mpr hc)]
      exact ⟨_, rfl, rfl, rfl, h⟩
    | some c =>
      rw [if_neg (mt hiff.mp (by simp [hc]))]
      exact fnc_refines hw h hc

end Cs238p.P3
