import Cs238p.Lib.Pieces
import Cs238p.P3.AvlMultiset
import Cs238p.P3.Shell

set_option relaxedAutoImplicit false
set_option autoImplicit false

/-!
# Loading a file into the tree

`load` of `p3/main.c` reads a file through a buffer of 256 bytes, trims what it read and inserts it.
A line that is longer than the buffer is read in pieces, each of which is inserted as a word.

## Main definitions

* `fgets` — the C library function.
* `load` — the function of the same name.
* `contents` — what the lines of a file contain, without the blank ones.

## Main results

* `load_iff` — `load` counts the contents of the lines exactly if what is not blank in a line is
  within one of the pieces.
-/

namespace Cs238p.P3

open Buffer Pieces WhiteSpace

variable {ι : Type}

/-! ## The source -/

/-- The bytes that are read from a file: at most `k`, up to a newline. -/
def takeLine : ℕ → List UInt8 → List UInt8
  | 0, _ => []
  | _ + 1, [] => []
  | k + 1, b :: file => if b = 10 then [b] else b :: takeLine k file

/-- `fgets`: the buffer and the rest of the file, unless it is at its end. -/
def fgets (buf : List UInt8) (size : ℕ) (file : List UInt8) : Option (List UInt8 × List UInt8) :=
  let got := takeLine (size - 1) file
  if got = [] then none else some (got ++ 0 :: buf.drop (got.length + 1), file.drop got.length)

lemma takeLine_isPrefixOf (k : ℕ) (file : List UInt8) : takeLine k file <+: file := by
  induction file generalizing k with
  | nil => cases k <;> exact List.prefix_refl _
  | cons b file ih =>
    cases k with
    | zero => exact List.nil_prefix
    | succ k =>
      rw [takeLine]
      split
      · exact ⟨file, rfl⟩
      · exact List.cons_prefix_cons.mpr ⟨rfl, ih k⟩

/-- The file becomes shorter. -/
lemma length_fgets {buf file buf' rest : List UInt8} {size : ℕ}
    (h : fgets buf size file = some (buf', rest)) : rest.length < file.length := by
  rw [fgets] at h
  split at h
  · cases h
  · next hgot =>
    obtain ⟨-, rfl⟩ := Prod.mk.inj (Option.some.inj h)
    have hle := (takeLine_isPrefixOf (size - 1) file).length_le
    have hpos := List.length_pos_of_ne_nil hgot
    rw [List.length_drop]
    omega

/-- The loop of `load`. A node that is inserted when `k` bytes of the file are left is placed at
`fresh k`. -/
def loadLoop (fresh : ℕ → ι) (avl : Avl ι) (word file : List UInt8) : Avl ι :=
  match _h : fgets word 256 file with
  | none => avl
  | some (buf, rest) =>
    let word := shellStrtrim buf
    if hword : strlen word ≠ 0 then
      let res := avlInsert (fresh rest.length) avl ⟨⟨string word, zero_notMem_string word⟩, hword⟩
      if res.1 ≠ 0 then res.2 else loadLoop fresh res.2 word rest
    else loadLoop fresh avl word rest
termination_by file.length
decreasing_by all_goals exact length_fgets _h

/-- `load`, for what is at the path, if it can be opened. -/
def load (fresh : ℕ → ι) (avl : Avl ι) (word : List UInt8) : Option (List UInt8) → Avl ι
  | none => avl
  | some file => loadLoop fresh avl word file

/-! ## The purpose -/

/-- What the lines of a file contain, without the blank ones. -/
def contents (file : List UInt8) : List (List UInt8) :=
  ((file.splitOn 10).map (trim isBlank)).filter fun w => !w.isEmpty

/-! ## What is read -/

/-- What `fgets` reads one after the other. -/
def reads (file : List UInt8) : List (List UInt8) :=
  match _h : fgets [] 256 file with
  | none => []
  | some (_, rest) => takeLine 255 file :: reads rest
termination_by file.length
decreasing_by exact length_fgets _h

/-- The words that are inserted. -/
def inserted (file : List UInt8) : List (List UInt8) :=
  ((reads file).map (trim isBlank)).filter fun w => !w.isEmpty

lemma takeLine_ne_nil {k : ℕ} {file : List UInt8} (hk : 0 < k) (h : file ≠ []) :
    takeLine k file ≠ [] := by
  obtain ⟨k, rfl⟩ : ∃ m, k = m + 1 := ⟨k - 1, by omega⟩
  cases file with
  | nil => exact absurd rfl h
  | cons b file =>
    rw [takeLine]
    split <;> exact List.cons_ne_nil _ _

/-- A full buffer without a newline. -/
lemma takeLine_of_length_eq {k : ℕ} {u : List UInt8} (hu : 10 ∉ u) (hk : u.length = k)
    (rest : List UInt8) : takeLine k (u ++ rest) = u := by
  induction u generalizing k with
  | nil =>
    subst hk
    rfl
  | cons b u ih =>
    obtain ⟨hb, hu⟩ := List.ne_and_not_mem_of_not_mem_cons hu
    subst hk
    rw [List.length_cons, List.cons_append, takeLine, if_neg hb.symm, ih hu rfl]

/-- The end of a line. -/
lemma takeLine_newline {k : ℕ} {l : List UInt8} (hl : 10 ∉ l) (hk : l.length < k)
    (rest : List UInt8) : takeLine k (l ++ 10 :: rest) = l ++ [10] := by
  induction l generalizing k with
  | nil =>
    obtain ⟨k, rfl⟩ : ∃ m, k = m + 1 := ⟨k - 1, by omega⟩
    rfl
  | cons b l ih =>
    obtain ⟨hb, hl⟩ := List.ne_and_not_mem_of_not_mem_cons hl
    obtain ⟨k, rfl⟩ : ∃ m, k = m + 1 := ⟨k - 1, by omega⟩
    rw [List.length_cons] at hk
    rw [List.cons_append, takeLine, if_neg hb.symm, ih hl (by omega), List.cons_append]

/-- The end of the file. -/
lemma takeLine_last {k : ℕ} {l : List UInt8} (hl : 10 ∉ l) (hk : l.length ≤ k) :
    takeLine k l = l := by
  induction l generalizing k with
  | nil => cases k <;> rfl
  | cons b l ih =>
    obtain ⟨hb, hl⟩ := List.ne_and_not_mem_of_not_mem_cons hl
    obtain ⟨k, rfl⟩ : ∃ m, k = m + 1 := ⟨k - 1, by rw [List.length_cons] at hk; omega⟩
    rw [List.length_cons] at hk
    rw [takeLine, if_neg hb.symm, ih hl (by omega)]

lemma reads_nil : reads [] = [] := by
  rw [reads]
  rfl

/-- There is nothing to read at the end of the file only. -/
lemma fgets_eq_none {buf file : List UInt8} (h : fgets buf 256 file = none) : file = [] := by
  rw [fgets] at h
  split at h
  · next hgot =>
    by_contra hfile
    exact takeLine_ne_nil (by decide) hfile hgot
  · cases h

/-- The first part that is read. -/
lemma reads_append {u : List UInt8} (hu : u ≠ []) (rest : List UInt8)
    (htake : takeLine 255 (u ++ rest) = u) : reads (u ++ rest) = u :: reads rest := by
  have hfgets : fgets [] 256 (u ++ rest) = some (u ++ 0 :: [], rest) := by
    rw [fgets, htake, if_neg hu, List.drop_nil, List.drop_left]
  rw [reads]
  split
  · next hnone =>
    rw [hfgets] at hnone
    cases hnone
  · next hsome =>
    rw [hfgets] at hsome
    obtain ⟨-, rfl⟩ := Prod.mk.inj (Option.some.inj hsome)
    rw [htake]

/-- The last line is read in pieces. -/
lemma reads_last {l : List UInt8} (hl : 10 ∉ l) : reads l = pieces 255 l := by
  induction l using piece_induction (by decide : 0 < 255) with
  | hshort l hlen =>
    by_cases hnil : l = []
    · rw [hnil, reads_nil, pieces_nil]
    · have htake : takeLine 255 (l ++ []) = l := by rw [List.append_nil, takeLine_last hl hlen]
      have := reads_append hnil [] htake
      rw [List.append_nil] at this
      rw [this, reads_nil, pieces_of_length_le hnil hlen]
  | hlong u v hu _ ih =>
    rw [List.mem_append, not_or] at hl
    have hnil : u ≠ [] := List.ne_nil_of_length_pos (by omega)
    rw [reads_append hnil v (takeLine_of_length_eq hl.1 hu v), ih hl.2,
      pieces_append (by decide) hu]

/-- A line is read in pieces, the last of which has the newline. -/
lemma reads_line {l : List UInt8} (hl : 10 ∉ l) (rest : List UInt8) :
    reads (l ++ 10 :: rest) = pieces 255 (l ++ [10]) ++ reads rest := by
  rw [← List.singleton_append, ← List.append_assoc]
  generalize hw : l ++ [10] = w
  induction w using piece_induction (by decide : 0 < 255) generalizing l with
  | hshort w hlen =>
    subst hw
    have hnil : l ++ [10] ≠ [] := List.append_ne_nil_of_right_ne_nil l (List.cons_ne_nil _ _)
    rw [List.length_append, List.length_singleton] at hlen
    have htake : takeLine 255 (l ++ [10] ++ rest) = l ++ [10] := by
      rw [List.append_assoc, List.singleton_append, takeLine_newline hl (by omega)]
    rw [reads_append hnil rest htake, pieces_of_length_le hnil (by simpa using hlen),
      List.singleton_append]
  | hlong u v hu hv ih =>
    obtain ⟨v', c, rfl⟩ := (List.eq_nil_or_concat' v).resolve_left hv
    rw [← List.append_assoc] at hw
    obtain ⟨rfl, hc⟩ := List.append_inj' hw rfl
    rw [List.mem_append, not_or] at hl
    have hnil : u ≠ [] := List.ne_nil_of_length_pos (by omega)
    rw [List.append_assoc, reads_append hnil _ (takeLine_of_length_eq hl.1 hu _),
      ih hl.2 (by rw [hc]), pieces_append (by decide) hu, List.cons_append]

/-- Files by induction on their lines. -/
lemma line_induction {P : List UInt8 → Prop} (hlast : ∀ l, 10 ∉ l → P l)
    (hline : ∀ l rest, 10 ∉ l → P rest → P (l ++ 10 :: rest)) (file : List UInt8) : P file := by
  by_cases h : 10 ∈ file
  · obtain ⟨l, rest, hfile, hl⟩ := List.eq_append_cons_of_mem h
    rw [hfile]
    exact hline l rest hl (line_induction hlast hline rest)
  · exact hlast file h
termination_by file.length
decreasing_by
  rw [hfile, List.length_append, List.length_cons]
  omega

/-! ## Lines and pieces -/

lemma contents_of_blank {l : List UInt8} (hl : 10 ∉ l) (hblank : ∀ b ∈ l, isBlank b = true) :
    contents l = [] := by
  rw [contents, List.splitOn_eq_singleton hl, List.map_singleton, trim_eq_nil_iff.mpr hblank]
  rfl

lemma contents_of_not_blank {l : List UInt8} (hl : 10 ∉ l)
    (hblank : ¬ ∀ b ∈ l, isBlank b = true) : contents l = [trim isBlank l] := by
  have hne : trim isBlank l ≠ [] := mt trim_eq_nil_iff.mp hblank
  rw [contents, List.splitOn_eq_singleton hl, List.map_singleton, List.filter_cons, List.filter_nil,
    if_pos (by simpa using hne)]

lemma contents_line (l rest : List UInt8) :
    contents (l ++ 10 :: rest) = contents l ++ contents rest := by
  rw [contents, List.splitOn_append_cons_self, List.map_append, List.filter_append, contents,
    contents]

lemma inserted_last {l : List UInt8} (hl : 10 ∉ l) : inserted l = kept isBlank 255 l := by
  rw [inserted, reads_last hl, kept]

lemma inserted_line {l : List UInt8} (hl : 10 ∉ l) (rest : List UInt8) :
    inserted (l ++ 10 :: rest) = kept isBlank 255 (l ++ [10]) ++ inserted rest := by
  rw [inserted, reads_line hl, List.map_append, List.filter_append, kept, inserted]

/-- What is kept of a line, with or without its newline. -/
lemma kept_line {l : List UInt8} (hl : 10 ∉ l) {bs : List UInt8}
    (hbs : ∀ b ∈ bs, isBlank b = true) :
    (InOnePiece isBlank 255 l → kept isBlank 255 (l ++ bs) = contents l) ∧
      (¬ InOnePiece isBlank 255 l →
        (contents l).length < (kept isBlank 255 (l ++ bs)).length) := by
  have hpos : 0 < 255 := by decide
  have hiff := @inOnePiece_append_right _ isBlank 255 l bs hbs
  have hshort : (contents l).length ≤ 1 := by
    by_cases hblank : ∀ b ∈ l, isBlank b = true
    · rw [contents_of_blank hl hblank]
      exact Nat.zero_le 1
    · rw [contents_of_not_blank hl hblank, List.length_singleton]
  refine ⟨fun hone => ?_, fun hmany => ?_⟩
  · by_cases hblank : ∀ b ∈ l, isBlank b = true
    · rw [contents_of_blank hl hblank]
      exact kept_of_blank hpos fun b hb => (List.mem_append.mp hb).elim (hblank b) (hbs b)
    · have hblank' : ¬ ∀ b ∈ l ++ bs, isBlank b = true := fun h =>
        hblank fun b hb => h b (List.mem_append_left bs hb)
      rw [contents_of_not_blank hl hblank, kept_of_inOnePiece hpos (hiff.mpr hone) hblank',
        trim_append_right hbs]
  · have := two_le_length_kept hpos (mt hiff.mp hmany)
    omega

/-- The lines of a file. -/
lemma forall_line {Q : List UInt8 → Prop} {l : List UInt8} (hl : 10 ∉ l) (rest : List UInt8) :
    (∀ line ∈ (l ++ 10 :: rest).splitOn 10, Q line) ↔ Q l ∧ ∀ line ∈ rest.splitOn 10, Q line := by
  rw [List.splitOn_append_cons_self_of_not_mem hl, List.forall_mem_cons]

/-- Lines within a piece are inserted as they should be. -/
lemma inserted_eq {file : List UInt8} (h : ∀ line ∈ file.splitOn 10, InOnePiece isBlank 255 line) :
    inserted file = contents file := by
  induction file using line_induction with
  | hlast l hl =>
    have hone := h l (by rw [List.splitOn_eq_singleton hl]; exact List.mem_cons_self)
    have := (@kept_line l hl [] fun b hb => absurd hb List.not_mem_nil).1 hone
    rw [List.append_nil] at this
    rw [inserted_last hl, this]
  | hline l rest hl ih =>
    obtain ⟨hone, hrest⟩ := (forall_line hl rest).mp h
    have hnl : ∀ b ∈ ([10] : List UInt8), isBlank b = true :=
      List.forall_mem_singleton.mpr (by decide)
    rw [inserted_line hl, contents_line, ih hrest, (kept_line hl hnl).1 hone]

/-- Otherwise there are more words inserted than there are lines. -/
lemma length_contents {file : List UInt8} :
    (contents file).length ≤ (inserted file).length ∧
      ((inserted file).length ≤ (contents file).length →
        ∀ line ∈ file.splitOn 10, InOnePiece isBlank 255 line) := by
  induction file using line_induction with
  | hlast l hl =>
    have hline := @kept_line l hl [] fun b hb => absurd hb List.not_mem_nil
    rw [List.append_nil] at hline
    rw [inserted_last hl, List.splitOn_eq_singleton hl, List.forall_mem_singleton]
    by_cases hone : InOnePiece isBlank 255 l
    · exact ⟨(congrArg List.length (hline.1 hone)).ge, fun _ => hone⟩
    · have := hline.2 hone
      exact ⟨by omega, fun h => by omega⟩
  | hline l rest hl ih =>
    have hnl : ∀ b ∈ ([10] : List UInt8), isBlank b = true :=
      List.forall_mem_singleton.mpr (by decide)
    have hline := kept_line hl hnl
    rw [inserted_line hl, contents_line, List.length_append, List.length_append,
      forall_line hl rest]
    by_cases hone : InOnePiece isBlank 255 l
    · rw [hline.1 hone]
      exact ⟨by omega, fun h => ⟨hone, ih.2 (by omega)⟩⟩
    · have := hline.2 hone
      exact ⟨by omega, fun h => by omega⟩

/-! ## The loop -/

/-- A round of the loop reads the next part of the file. -/
lemma fgets_some {buf file buf' rest : List UInt8} (hnul : 0 ∉ file)
    (h : fgets buf 256 file = some (buf', rest)) :
    0 ∉ rest ∧ inserted file =
      (if trim isBlank (string buf') = [] then [] else [trim isBlank (string buf')]) ++
        inserted rest := by
  have hshort := length_fgets h
  rw [fgets] at h
  split at h
  · cases h
  · next hgot =>
    obtain ⟨rfl, rfl⟩ := Prod.mk.inj (Option.some.inj h)
    have hparts : takeLine 255 file ++ file.drop (takeLine 255 file).length = file := by
      have hprefix := takeLine_isPrefixOf 255 file
      generalize takeLine 255 file = got at hprefix
      obtain ⟨rest, rfl⟩ := hprefix
      rw [List.drop_left]
    have hstring := @string_append (takeLine 255 file)
      (fun hz => hnul ((takeLine_isPrefixOf 255 file).subset hz))
    refine ⟨fun hz => hnul (List.mem_of_mem_drop hz), ?_⟩
    have hreads := reads_append hgot (file.drop (takeLine 255 file).length) (by rw [hparts])
    rw [hparts] at hreads
    rw [inserted, hreads, List.map_cons, List.filter_cons, hstring, inserted]
    by_cases hnil : trim isBlank (takeLine 255 file) = []
    · rw [if_pos hnil, hnil]
      rfl
    · rw [if_neg hnil, if_pos (by simpa using hnil)]
      rfl

/-- **The loop inserts what is left of the parts that are read.** -/
lemma represents_loadLoop (fresh : ℕ → ι) {avl : Avl ι} {m : Multiset CString}
    (h : Represents avl m) (word : List UInt8) {file : List UInt8} (hnul : 0 ∉ file) :
    ∃ m', Represents (loadLoop fresh avl word file) m' ∧
      m'.map CString.bytes = (inserted file : Multiset (List UInt8)) + m.map CString.bytes := by
  rw [loadLoop]
  split
  · next hnone =>
    refine ⟨m, h, ?_⟩
    rw [fgets_eq_none hnone, inserted, reads_nil]
    exact (zero_add _).symm
  · next buf rest hsome =>
    obtain ⟨hrest, hins⟩ := fgets_some hnul hsome
    have hshort := length_fgets hsome
    rw [← string_shellStrtrim] at hins
    dsimp only
    split
    · next hword =>
      have hitem : string (shellStrtrim buf) ≠ [] := fun hnil => hword (by rw [strlen, hnil]; rfl)
      rw [if_neg (show ¬ (avlInsert _ _ _).1 ≠ 0 from fun hne => hne rfl)]
      obtain ⟨m', hm', hmap⟩ := represents_loadLoop fresh
        (represents_insert h (fresh rest.length) ⟨⟨_, zero_notMem_string _⟩, hword⟩)
        (shellStrtrim buf) hrest
      refine ⟨m', hm', ?_⟩
      rw [hmap, hins, if_neg hitem, Multiset.map_cons, Multiset.add_cons, List.singleton_append,
        ← Multiset.cons_coe, Multiset.cons_add]
    · next hword =>
      have hitem : string (shellStrtrim buf) = [] := List.length_eq_zero_iff.mp (not_not.mp hword)
      rw [hitem, if_pos rfl, List.nil_append] at hins
      rw [hins]
      exact represents_loadLoop fresh h (shellStrtrim buf) hrest
termination_by file.length

/-- `load` counts what it inserts. -/
lemma lookup_load (calls : List (Call ι)) (fresh : ℕ → ι) (word : List UInt8) {file : List UInt8}
    (hnul : 0 ∉ file) (x : CString) :
    (load fresh (runCalls calls) word (some file)).root.lookup x =
      (runCalls calls).root.lookup x + Multiset.count x.bytes (inserted file) := by
  have h := represents_runCalls calls
  obtain ⟨m', hm', hmap⟩ := represents_loadLoop fresh h word hnul
  have hinj : Function.Injective CString.bytes := fun _ _ => CString.ext
  rw [load, hm'.lookup, h.lookup, ← Multiset.count_map_eq_count' _ _ hinj, hmap,
    Multiset.count_add, Multiset.count_map_eq_count' _ _ hinj, Nat.add_comm]

/-- What is inserted of a file without NULs are strings. -/
lemma nul_notMem_inserted {file : List UInt8} (hnul : 0 ∉ file) {w : List UInt8}
    (hw : w ∈ inserted file) : 0 ∉ w := by
  have h : Represents (Avl.empty : Avl Unit) 0 := represents_empty
  obtain ⟨m', -, hmap⟩ := represents_loadLoop (fun _ => ()) h [] hnul
  have hword : w ∈ m'.map CString.bytes := by
    rw [hmap]
    exact Multiset.mem_add.mpr (.inl hw)
  obtain ⟨x, -, rfl⟩ := Multiset.mem_map.mp hword
  exact x.nul_free

/-- If the lines are counted as they should be, then no line has several words. -/
lemma inOnePiece_of_lookup {calls : List (Call ι)} {fresh : ℕ → ι} {word file : List UInt8}
    (hnul : 0 ∉ file)
    (h : ∀ x : CString, (load fresh (runCalls calls) word (some file)).root.lookup x =
      (runCalls calls).root.lookup x + Multiset.count x.bytes (contents file)) :
    ∀ line ∈ file.splitOn 10, InOnePiece isBlank 255 line := by
  have hle : (inserted file : Multiset (List UInt8)) ≤ contents file := by
    refine Multiset.le_iff_count.mpr fun w => ?_
    by_cases hw : 0 ∈ w
    · rw [Multiset.count_eq_zero_of_notMem fun hmem => nul_notMem_inserted hnul hmem hw]
      exact Nat.zero_le _
    · have hx := h ⟨w, hw⟩
      rw [lookup_load _ _ _ hnul] at hx
      exact (Nat.add_left_cancel hx).le
  exact length_contents.2 (Multiset.card_le_card hle)

/-- **`load` counts what the lines contain exactly if what is not blank in a line is within one of
the pieces of 255 bytes in which it is read.**

**Proof sketch.** What is inserted is what is left of the pieces. If the pieces of each line but one
are blank, then that is what the line contains. If not, then more words are inserted than there are
lines, and one of them is not counted as it should be. -/
theorem load_iff (calls : List (Call ι)) (fresh : ℕ → ι) (word : List UInt8) {file : List UInt8}
    (hnul : 0 ∉ file) :
    (∀ x : CString, (load fresh (runCalls calls) word (some file)).root.lookup x =
      (runCalls calls).root.lookup x + Multiset.count x.bytes (contents file)) ↔
      ∀ line ∈ file.splitOn 10, InOnePiece isBlank 255 line := by
  refine ⟨inOnePiece_of_lookup hnul, fun hlines x => ?_⟩
  rw [lookup_load _ _ _ hnul, inserted_eq hlines]

/-- Witness: a word with white space around it, a blank line and a last line without newline. -/
theorem load_iff_words :
    0 ∉ ([32, 97, 9, 10, 32, 10, 97] : List UInt8) ∧ ∀ x : CString,
      (load (fun _ => ()) (runCalls []) [] (some [32, 97, 9, 10, 32, 10, 97])).root.lookup x =
        (runCalls ([] : List (Call Unit))).root.lookup x +
          Multiset.count x.bytes (contents [32, 97, 9, 10, 32, 10, 97]) := by
  have hnul : 0 ∉ ([32, 97, 9, 10, 32, 10, 97] : List UInt8) := by decide
  refine ⟨hnul, (load_iff [] (fun _ => ()) [] hnul).mpr ?_⟩
  intro line hline
  exact inOnePiece_of_length_le (by revert line; decide)

/-- A line of 256 letters is inserted as two words. -/
theorem long_line_split :
    ¬ ∀ x : CString,
      (load (fun _ => ()) (runCalls []) [] (some (List.replicate 256 97))).root.lookup x =
        (runCalls ([] : List (Call Unit))).root.lookup x +
          Multiset.count x.bytes (contents (List.replicate 256 97)) := by
  intro h
  have hnul : 0 ∉ List.replicate 256 (97 : UInt8) :=
    fun hmem => absurd (List.eq_of_mem_replicate hmem) (by decide)
  have hnl : 10 ∉ List.replicate 256 (97 : UInt8) :=
    fun hmem => absurd (List.eq_of_mem_replicate hmem) (by decide)
  have hline := inOnePiece_of_lookup hnul h (List.replicate 256 97) (by
    rw [List.splitOn_eq_singleton hnl]
    exact List.mem_cons_self)
  obtain ⟨k, hk⟩ := hline
  have hfirst := hk 0 97 rfl rfl
  have hlast := hk 255 97 rfl rfl
  omega

end Cs238p.P3
