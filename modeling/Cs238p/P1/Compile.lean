import Cs238p.Lib.Reader
import Cs238p.P1.Literals

set_option relaxedAutoImplicit false
set_option autoImplicit false

/-!
# From the expression to the value

`main` of `p1/main.c` opens a parser on the text of an expression, writes the C file that `generate`
prints for its dag, and calls the function of that file. This module reads the file as C does, and
shows that the function returns what the expression means.

## Main definitions

* `compile` — from the text of the expression to that of the file.
* `readEvaluate`, `Evaluate.call`, `runFile` — the function in a file, and what it returns.
* `Tree.eval` — the meaning of an expression.

## Main results

* `readEvaluate_text` — C reads what `generate` prints, with literals rounded to millionths.
* `compile_correct` — the function of the file returns the meaning of the expression, and of a text
  that is no expression no file is written.

## Implementation notes

The compiler and the loader are those of the system: the file has the meaning that C gives to it. Of
C there is as much as `generate` prints. Numerals are read and printed as exact numbers. The number
type of the function is arbitrary, with the operations that the file uses, and `sigmoid` is an
arbitrary function on it.
-/

namespace Cs238p.P1

open CNumeral Reader StraightLine

variable {V W N : Type}

/-! ## The source -/

/-- What `main` writes into the file `out.c`, if the parser accepts the text. -/
def compile (fresh : ℕ → LexerToken) (s : List Char) : Option String :=
  (lexerOpen fresh s).bind fun lexer =>
    match parserOpen (lexerTokens lexer) with
    | .error _ => none
    | .ok dag => some ((generate dag).text fun v => String.ofList (formatF v))

/-! ## The file as C reads it -/

/-- A temporary. -/
def readTemp (s : List Char) : Option (ℕ × List Char) := (word "t" s).bind natural

/-- The negation of a temporary. -/
def readNeg (s : List Char) : Option ((Op ℚ × List ℕ) × List Char) :=
  (word "- " s).bind fun s => (readTemp s).map fun r => ((.neg, [r.1]), r.2)

/-- An operator and a temporary, behind the temporary `l`. -/
def readBinary (l : ℕ) (w : String) (op : Op ℚ) (s : List Char) :
    Option ((Op ℚ × List ℕ) × List Char) :=
  (word w s).bind fun s => (readTemp s).map fun r => ((op, [l, r.1]), r.2)

/-- The rest of a conditional expression, behind the temporary `c`. -/
def readQuot (c : ℕ) (s : List Char) : Option ((Op ℚ × List ℕ) × List Char) :=
  (word " ? (" s).bind fun s => (readTemp s).bind fun l => (word " / " l.2).bind fun s =>
    (readTemp s).bind fun r => (word ") : 0.0" r.2).map fun s => ((.quot, [c, l.1, r.1]), s)

/-- A floating constant, up to the semicolon. -/
def readConstant (s : List Char) : Option ((Op ℚ × List ℕ) × List Char) :=
  (floatingConstant (s.takeWhile (· ≠ ';'))).map fun q => ((.lit q, []), s.dropWhile (· ≠ ';'))

/-- The right-hand side of a declaration. -/
def readRhs (s : List Char) : Option ((Op ℚ × List ℕ) × List Char) :=
  (readNeg s).or <| ((readTemp s).bind fun l =>
    (readBinary l.1 " * " .mul l.2).or <| (readBinary l.1 " + " .add l.2).or <|
      (readBinary l.1 " - " .sub l.2).or (readQuot l.1 l.2)).or (readConstant s)

/-- A declaration. -/
def readStmt (s : List Char) : Option (Stmt ℚ × List Char) :=
  (word "double " s).bind fun s => (readTemp s).bind fun t => (word " = " t.2).bind fun s =>
    (readRhs s).bind fun r => (word ";\n" r.2).map fun s => (⟨t.1, r.1.1, r.1.2⟩, s)

/-- What is in front of the declarations. -/
def header : String :=
  "typedef double (*sigmoid_t)(double);\n" ++ "double evaluate(sigmoid_t sigmoid) \x7b\n"

/-- The function `evaluate` of a file. -/
def readEvaluate (text : List Char) : Option (Evaluate ℚ) :=
  (word header text).bind fun s =>
    let body := many readStmt s.length s
    (word "return sigmoid(" body.2).bind fun s => (readTemp s).bind fun t =>
      (word ");\n\x7d\n" t.2).bind fun rest => if rest = [] then some ⟨body.1, t.1⟩ else none

/-- What the function returns. -/
def Evaluate.call [Arith N] (e : Evaluate V) (lit : V → N) (sigmoid : N → N) : Option N :=
  (exec (Op.interp lit) e.body (Env.empty ℕ N)).bind fun env => (env e.ret).map sigmoid

/-- What the function of a file returns. -/
def runFile [Arith N] (lit : ℚ → N) (sigmoid : N → N) (text : List Char) : Option N :=
  (readEvaluate text).bind fun e => e.call lit sigmoid

/-! ## The purpose -/

/-- The meaning of an expression, literals being interpreted by `lit`. A division by zero gives
zero. -/
def Tree.eval [Arith N] (lit : V → N) : Tree V → N
  | .val v => lit v
  | .neg r => Arith.neg (r.eval lit)
  | .bin op l r => op.apply (l.eval lit) (r.eval lit)

/-- The number, rounded to millionths. -/
def millionth (q : ℚ) : ℚ := (roundHalfEven (q * 10 ^ 6) : ℚ) / 10 ^ 6

/-! ## Other literals -/

/-- The token with another number. -/
def Token.map (f : V → W) : Token V → Token W
  | .val v => .val (f v)
  | .add => .add
  | .sub => .sub
  | .mul => .mul
  | .div => .div
  | .opn => .opn
  | .cls => .cls

/-- The tree with other numbers. -/
def Tree.map (f : V → W) : Tree V → Tree W
  | .val v => .val (f v)
  | .neg r => .neg (r.map f)
  | .bin op l r => .bin op (l.map f) (r.map f)

/-- The dag with other numbers. -/
def Dag.map (f : V → W) : Dag V → Dag W
  | .val id v => .val id (f v)
  | .neg id r => .neg id (r.map f)
  | .bin op id l r => .bin op id (l.map f) (r.map f)

/-- The operation with another number. -/
def Op.map (f : V → W) : Op V → Op W
  | .lit v => .lit (f v)
  | .neg => .neg
  | .mul => .mul
  | .quot => .quot
  | .add => .add
  | .sub => .sub

/-- The declaration with another number. -/
def Stmt.map (f : V → W) (s : Stmt V) : Stmt W := ⟨s.target, s.op.map f, s.args⟩

section Map

variable (f : V → W)

@[simp] lemma Dag.id_map (d : Dag V) : (d.map f).id = d.id := by cases d <;> rfl

@[simp] lemma Dag.ids_map (d : Dag V) : (d.map f).ids = d.ids := by
  induction d with
  | val id v => rfl
  | neg id r ih => rw [Dag.map, Dag.ids, ih, Dag.ids]
  | bin op id l r ihl ihr => rw [Dag.map, Dag.ids, ihl, ihr, Dag.ids]

/-- The declarations of a dag with other numbers. -/
lemma reflect_map (d : Dag V) : reflect (d.map f) = (reflect d).map (Stmt.map f) := by
  induction d with
  | val id v => rfl
  | neg id r ih =>
    rw [Dag.map, reflect, ih, Dag.id_map, reflect, List.map_append]
    rfl
  | bin op id l r ihl ihr =>
    rw [Dag.map, reflect, ihl, ihr, Dag.id_map, Dag.id_map, reflect, List.map_append,
      List.map_append]
    cases op <;> rfl

/-- The value of a dag is the meaning of its tree. -/
lemma Dag.eval_map [Arith N] (lit : W → N) (d : Dag V) :
    (d.map f).eval lit = d.tree.eval fun v => lit (f v) := by
  induction d with
  | val id v => rfl
  | neg id r ih => rw [Dag.map, Dag.eval, ih, Dag.tree, Tree.eval]
  | bin op id l r ihl ihr => rw [Dag.map, Dag.eval, ihl, ihr, Dag.tree, Tree.eval]

lemma Tree.eval_map [Arith N] (lit : W → N) (t : Tree V) :
    (t.map f).eval lit = t.eval fun v => lit (f v) := by
  induction t with
  | val v => rfl
  | neg r ih => rw [Tree.map, Tree.eval, ih, Tree.eval]
  | bin op l r ihl ihr => rw [Tree.map, Tree.eval, ihl, ihr, Tree.eval]

variable {f}

/-- Other numbers are derived in the same way. -/
lemma Derives.map {nt : Nonterminal} {ts : List (Token V)} {t : Tree V} (h : Derives nt ts t) :
    Derives nt (ts.map (Token.map f)) (t.map f) := by
  induction h with
  | val v => exact .val (f v)
  | paren _ ih =>
    rw [List.map_cons, List.map_append]
    exact .paren ih
  | plus _ ih => exact .plus ih
  | minus _ ih => exact .minus ih
  | primary _ ih => exact .primary ih
  | unary _ ih => exact .unary ih
  | mul _ _ iht ihu =>
    rw [List.map_append]
    exact .mul iht ihu
  | div _ _ iht ihu =>
    rw [List.map_append]
    exact .div iht ihu
  | term _ ih => exact .term ih
  | add _ _ iht ihu =>
    rw [List.map_append]
    exact .add iht ihu
  | sub _ _ iht ihu =>
    rw [List.map_append]
    exact .sub iht ihu

/-- The parts of a token sequence, read off from those of the other one. -/
lemma exists_of_append_cons {ts : List (Token V)} {us vs : List (Token W)} {tok : Token W}
    (h : us ++ tok :: vs = ts.map (Token.map f)) : ∃ as t bs, ts = as ++ t :: bs ∧
      us = as.map (Token.map f) ∧ tok = t.map f ∧ vs = bs.map (Token.map f) := by
  obtain ⟨as, cs, rfl, has, hcs⟩ := List.map_eq_append_iff.mp h.symm
  obtain ⟨t, bs, rfl, ht, hbs⟩ := List.map_eq_cons_iff.mp hcs
  exact ⟨as, t, bs, rfl, has.symm, ht.symm, hbs.symm⟩

/-- An operator is a token that is not changed. -/
lemma Token.eq_of_map_eq {t : Token V} (tok : Token V) (htok : tok.number = none)
    (h : t.map f = tok.map f) : t = tok := by
  cases t <;> cases tok <;> first | rfl | cases h | cases htok

/-- The first token, read off from that of the other sequence. -/
lemma exists_of_cons {ts : List (Token V)} {vs : List (Token W)} {tok : Token W}
    (h : tok :: vs = ts.map (Token.map f)) : ∃ t bs, ts = t :: bs ∧ tok = t.map f ∧
      vs = bs.map (Token.map f) := by
  obtain ⟨t, bs, rfl, ht, hbs⟩ := List.map_eq_cons_iff.mp h.symm
  exact ⟨t, bs, rfl, ht.symm, hbs.symm⟩

/-- What derives with other numbers, derives. -/
lemma Derives.exists_of_map {nt : Nonterminal} {us : List (Token W)} {u : Tree W}
    (h : Derives nt us u) : ∀ {ts : List (Token V)}, us = ts.map (Token.map f) →
      ∃ t, Derives nt ts t ∧ u = t.map f := by
  induction h with
  | val v =>
    intro ts hts
    obtain ⟨t, bs, rfl, ht, hbs⟩ := exists_of_cons hts
    obtain rfl := List.map_eq_nil_iff.mp hbs.symm
    cases t with
    | val w =>
      cases ht
      exact ⟨_, .val w, rfl⟩
    | _ => cases ht
  | paren _ ih =>
    intro ts hts
    obtain ⟨t, bs, rfl, ht, hbs⟩ := exists_of_cons hts
    obtain ⟨cs, t', ds, rfl, hcs, ht', hds⟩ := exists_of_append_cons hbs
    obtain rfl := List.map_eq_nil_iff.mp hds.symm
    obtain rfl := Token.eq_of_map_eq .opn rfl ht.symm
    obtain rfl := Token.eq_of_map_eq .cls rfl ht'.symm
    obtain ⟨e, he, rfl⟩ := ih hcs
    exact ⟨e, .paren he, rfl⟩
  | plus _ ih =>
    intro ts hts
    obtain ⟨t, bs, rfl, ht, hbs⟩ := exists_of_cons hts
    obtain rfl := Token.eq_of_map_eq .add rfl ht.symm
    obtain ⟨e, he, rfl⟩ := ih hbs
    exact ⟨e, .plus he, rfl⟩
  | minus _ ih =>
    intro ts hts
    obtain ⟨t, bs, rfl, ht, hbs⟩ := exists_of_cons hts
    obtain rfl := Token.eq_of_map_eq .sub rfl ht.symm
    obtain ⟨e, he, rfl⟩ := ih hbs
    exact ⟨.neg e, .minus he, rfl⟩
  | primary _ ih =>
    intro ts hts
    obtain ⟨e, he, heq⟩ := ih hts
    exact ⟨e, .primary he, heq⟩
  | unary _ ih =>
    intro ts hts
    obtain ⟨e, he, heq⟩ := ih hts
    exact ⟨e, .unary he, heq⟩
  | mul _ _ iht ihu =>
    intro ts hts
    obtain ⟨as, t, bs, rfl, has, ht, hbs⟩ := exists_of_append_cons hts
    obtain rfl := Token.eq_of_map_eq .mul rfl ht.symm
    obtain ⟨e, he, rfl⟩ := iht has
    obtain ⟨e', he', rfl⟩ := ihu hbs
    exact ⟨_, .mul he he', rfl⟩
  | div _ _ iht ihu =>
    intro ts hts
    obtain ⟨as, t, bs, rfl, has, ht, hbs⟩ := exists_of_append_cons hts
    obtain rfl := Token.eq_of_map_eq .div rfl ht.symm
    obtain ⟨e, he, rfl⟩ := iht has
    obtain ⟨e', he', rfl⟩ := ihu hbs
    exact ⟨_, .div he he', rfl⟩
  | term _ ih =>
    intro ts hts
    obtain ⟨e, he, heq⟩ := ih hts
    exact ⟨e, .term he, heq⟩
  | add _ _ iht ihu =>
    intro ts hts
    obtain ⟨as, t, bs, rfl, has, ht, hbs⟩ := exists_of_append_cons hts
    obtain rfl := Token.eq_of_map_eq .add rfl ht.symm
    obtain ⟨e, he, rfl⟩ := iht has
    obtain ⟨e', he', rfl⟩ := ihu hbs
    exact ⟨_, .add he he', rfl⟩
  | sub _ _ iht ihu =>
    intro ts hts
    obtain ⟨as, t, bs, rfl, has, ht, hbs⟩ := exists_of_append_cons hts
    obtain rfl := Token.eq_of_map_eq .sub rfl ht.symm
    obtain ⟨e, he, rfl⟩ := iht has
    obtain ⟨e', he', rfl⟩ := ihu hbs
    exact ⟨_, .sub he he', rfl⟩

end Map

/-! ## Reading what was printed -/

/-- The numbers that are printed as constants. -/
def Printable (v : Number) : Prop := ∃ q, v = .finite q ∧ 0 ≤ q

/-- The constant that C reads. -/
def constant : Number → ℚ
  | .finite q => millionth q
  | _ => 0

/-- A temporary is read back, if a word follows that begins with no digit. -/
lemma readTemp_append (n : ℕ) {w : String} (hw : w.toList.head?.any (!Char.isDigit ·) = true)
    (s : List Char) :
    readTemp ("t".toList ++ (Nat.toDigits 10 n ++ (w.toList ++ s))) = some (n, w.toList ++ s) := by
  have havoid : Avoids Char.isDigit (w.toList ++ s) := by
    cases hcs : w.toList with
    | nil => simp [hcs] at hw
    | cons c cs => exact avoids_cons _ (by simpa [hcs] using hw)
  rw [readTemp, word_append, Option.bind_some, natural_toDigits n havoid]

/-- The characters of a number. -/
lemma toList_toString (n : ℕ) : (toString n).toList = Nat.toDigits 10 n := by
  rw [Nat.toString_eq_repr, Nat.repr, String.toList_ofList]

/-- The text of a right-hand side with its semicolon is read back. -/
def ReadsRhs (rhs : List Char) (r : Op ℚ × List ℕ) : Prop :=
  ∀ s, readRhs (rhs ++ (";\n".toList ++ s)) = some (r, ";\n".toList ++ s)

/-- The characters of a declaration. -/
def Stmt.chars (st : Stmt Number) : List Char := (st.text fun v => String.ofList (formatF v)).toList

lemma Stmt.chars_ne_nil (st : Stmt Number) : st.chars ≠ [] := by
  simp [chars, Stmt.text, String.toList_append]

/-- A declaration is read back, if its right-hand side is. -/
lemma readStmt_append (id : ℕ) {rhs : List Char} {r : Op ℚ × List ℕ} (h : ReadsRhs rhs r)
    (s : List Char) :
    readStmt ("double ".toList ++ ("t".toList ++ (Nat.toDigits 10 id ++ (" = ".toList ++
      (rhs ++ (";\n".toList ++ s)))))) = some (⟨id, r.1, r.2⟩, s) := by
  rw [readStmt, word_append, Option.bind_some,
    readTemp_append id rfl, Option.bind_some, word_append, Option.bind_some, h,
    Option.bind_some, word_append, Option.map_some]

lemma readsRhs_neg (r : ℕ) :
    ReadsRhs ("- ".toList ++ ("t".toList ++ Nat.toDigits 10 r)) (.neg, [r]) := by
  intro s
  rw [List.append_assoc, List.append_assoc, readRhs, readNeg, word_append, Option.bind_some,
    readTemp_append r rfl]
  rfl

/-- A text that begins with a temporary is no negation. -/
lemma readNeg_temp (s : List Char) : readNeg ("t".toList ++ s) = none := rfl

lemma readsRhs_mul (l r : ℕ) :
    ReadsRhs ("t".toList ++ (Nat.toDigits 10 l ++ (" * ".toList ++
      ("t".toList ++ Nat.toDigits 10 r)))) (.mul, [l, r]) := by
  intro s
  simp only [List.append_assoc]
  rw [readRhs, readNeg_temp, readTemp_append l rfl, Option.bind_some, readBinary,
    word_append, Option.bind_some, readTemp_append r rfl]
  rfl

lemma readsRhs_add (l r : ℕ) :
    ReadsRhs ("t".toList ++ (Nat.toDigits 10 l ++ (" + ".toList ++
      ("t".toList ++ Nat.toDigits 10 r)))) (.add, [l, r]) := by
  intro s
  simp only [List.append_assoc]
  have hmul (s : List Char) : readBinary l " * " .mul (" + ".toList ++ s) = none := rfl
  rw [readRhs, readNeg_temp, readTemp_append l rfl, Option.bind_some, hmul,
    readBinary, word_append, Option.bind_some, readTemp_append r rfl]
  rfl

lemma readsRhs_sub (l r : ℕ) :
    ReadsRhs ("t".toList ++ (Nat.toDigits 10 l ++ (" - ".toList ++
      ("t".toList ++ Nat.toDigits 10 r)))) (.sub, [l, r]) := by
  intro s
  simp only [List.append_assoc]
  have hmul (s : List Char) : readBinary l " * " .mul (" - ".toList ++ s) = none := rfl
  have hadd (s : List Char) : readBinary l " + " .add (" - ".toList ++ s) = none := rfl
  rw [readRhs, readNeg_temp, readTemp_append l rfl, Option.bind_some, hmul, hadd,
    readBinary, word_append, Option.bind_some, readTemp_append r rfl]
  rfl

lemma readsRhs_quot (c l r : ℕ) :
    ReadsRhs ("t".toList ++ (Nat.toDigits 10 c ++ (" ? (".toList ++ ("t".toList ++
      (Nat.toDigits 10 l ++ (" / ".toList ++ ("t".toList ++ (Nat.toDigits 10 r ++
        ") : 0.0".toList)))))))) (.quot, [c, l, r]) := by
  intro s
  simp only [List.append_assoc]
  have hmul (s : List Char) : readBinary c " * " .mul (" ? (".toList ++ s) = none := rfl
  have hadd (s : List Char) : readBinary c " + " .add (" ? (".toList ++ s) = none := rfl
  have hsub (s : List Char) : readBinary c " - " .sub (" ? (".toList ++ s) = none := rfl
  rw [readRhs, readNeg_temp, readTemp_append c rfl, Option.bind_some,
    hmul, hadd, hsub, readQuot, word_append,
    Option.bind_some, readTemp_append l rfl, Option.bind_some, word_append,
    Option.bind_some, readTemp_append r rfl, Option.bind_some, word_append]
  rfl


/-- The characters of the constants that `%f` prints. -/
lemma mem_millionths {n : ℕ} {c : Char} (h : c ∈ millionths n) : c.isDigit = true ∨ c = '.' := by
  have hdigit {m : ℕ} (hc : c ∈ Nat.toDigits 10 m) : c.isDigit = true :=
    Nat.isDigit_of_mem_toDigits (by decide) (by decide) hc
  rw [millionths, List.mem_append, List.mem_cons, List.leftpad, List.mem_append] at h
  rcases h with h | h | h | h
  · exact .inl (hdigit h)
  · exact .inr h
  · rw [List.eq_of_mem_replicate h]
    exact .inl rfl
  · exact .inl (hdigit h)

/-- **A constant is read back**, rounded to millionths. -/
lemma readsRhs_lit {q : ℚ} (h : 0 ≤ q) :
    ReadsRhs (formatF (.finite q)) (.lit (millionth q), []) := by
  have hconst := floatingConstant_formatF h
  rw [formatF, if_neg (not_lt.mpr h), List.nil_append] at hconst ⊢
  generalize (roundHalfEven (|q| * 10 ^ 6)).toNat = n at hconst ⊢
  intro s
  have hchar {c : Char} (hc : c ∈ millionths n) : c ≠ ';' ∧ c ≠ '-' ∧ c ≠ 't' := by
    rcases mem_millionths hc with hdigit | rfl
    · refine ⟨?_, ?_, ?_⟩ <;> rintro rfl <;> cases hdigit
    · decide
  obtain ⟨c, cs, hcs⟩ := List.exists_cons_of_ne_nil (show millionths n ≠ [] by simp [millionths])
  obtain ⟨-, hminus, ht⟩ := hchar (c := c) (by simp [hcs])
  have hneg : readNeg (millionths n ++ (";\n".toList ++ s)) = none := by
    rw [hcs, readNeg, word]
    simp [List.isPrefixOf?, Ne.symm hminus]
  have htemp : readTemp (millionths n ++ (";\n".toList ++ s)) = none := by
    rw [hcs, readTemp, word]
    simp [List.isPrefixOf?, Ne.symm ht]
  have hspan : Avoids (· ≠ ';') (";\n".toList ++ s) := avoids_cons _ rfl
  obtain ⟨htake, hdrop⟩ := @Avoids.span _ _ hspan (millionths n) fun c hc => by
    simpa using (hchar hc).1
  rw [readRhs, hneg, htemp, readConstant, htake, hdrop, hconst]
  rfl

/-- The declaration of a binary node is read back. -/
lemma readStmt_binStmt (op : DagOp) (id l r : ℕ) (s : List Char) :
    readStmt (Stmt.chars (binStmt op id l r) ++ s) =
      some ((binStmt op id l r).map constant, s) := by
  have hdouble : "double t".toList = "double ".toList ++ "t".toList := rfl
  have hmul : " * t".toList = " * ".toList ++ "t".toList := rfl
  have hadd : " + t".toList = " + ".toList ++ "t".toList := rfl
  have hsub : " - t".toList = " - ".toList ++ "t".toList := rfl
  have hcond : " ? (t".toList = " ? (".toList ++ "t".toList := rfl
  have hdiv : " / t".toList = " / ".toList ++ "t".toList := rfl
  cases op with
  | mul =>
    have hread := readStmt_append id (readsRhs_mul l r) s
    simp only [binStmt, Stmt.chars, Stmt.text, String.toList_append, toList_toString, hdouble, hmul,
      List.append_assoc] at hread ⊢
    exact hread
  | div =>
    have hread := readStmt_append id (readsRhs_quot r l r) s
    simp only [binStmt, Stmt.chars, Stmt.text, String.toList_append, toList_toString, hdouble,
      hcond, hdiv, List.append_assoc] at hread ⊢
    exact hread
  | add =>
    have hread := readStmt_append id (readsRhs_add l r) s
    simp only [binStmt, Stmt.chars, Stmt.text, String.toList_append, toList_toString, hdouble, hadd,
      List.append_assoc] at hread ⊢
    exact hread
  | sub =>
    have hread := readStmt_append id (readsRhs_sub l r) s
    simp only [binStmt, Stmt.chars, Stmt.text, String.toList_append, toList_toString, hdouble, hsub,
      List.append_assoc] at hread ⊢
    exact hread

/-- **The declarations of a dag are read back**, with literals rounded to millionths. -/
lemma readStmt_text {d : Dag Number} (hd : ∀ v ∈ d.tree.leaves, Printable v) : ∀ st ∈ reflect d,
    ∀ s, readStmt (st.chars ++ s) = some (st.map constant, s) := by
  have hdouble : "double t".toList = "double ".toList ++ "t".toList := rfl
  have hneg : "- t".toList = "- ".toList ++ "t".toList := rfl
  induction d with
  | val id v =>
    obtain ⟨q, rfl, hq⟩ := hd v List.mem_cons_self
    intro st hst s
    obtain rfl := List.mem_singleton.mp hst
    have hread := readStmt_append id (readsRhs_lit hq) s
    simp only [Stmt.chars, Stmt.text, String.toList_append, toList_toString, hdouble,
      String.toList_ofList, List.append_assoc] at hread ⊢
    exact hread
  | neg id r ih =>
    intro st hst s
    rw [reflect, List.mem_append, List.mem_singleton] at hst
    rcases hst with hst | rfl
    · exact ih hd st hst s
    · have hread := readStmt_append id (readsRhs_neg r.id) s
      simp only [Stmt.chars, Stmt.text, String.toList_append, toList_toString, hdouble, hneg,
        List.append_assoc] at hread ⊢
      exact hread
  | bin op id l r ihl ihr =>
    intro st hst s
    rw [reflect, List.mem_append, List.mem_append, List.mem_singleton] at hst
    rcases hst with (hst | hst) | rfl
    · exact ihl (fun v hv => hd v (List.mem_append_left _ hv)) st hst s
    · exact ihr (fun v hv => hd v (List.mem_append_right _ hv)) st hst s
    · exact readStmt_binStmt op id l.id r.id s

/-- The characters of texts in a row. -/
lemma toList_join (l : List String) : (String.join l).toList = l.flatMap String.toList := by
  have hfoldl (s : String) : (l.foldl (· ++ ·) s).toList = s.toList ++ l.flatMap String.toList := by
    induction l generalizing s with
    | nil => simp
    | cons w l ih => rw [List.foldl_cons, ih, String.toList_append, List.flatMap_cons,
        List.append_assoc]
  rw [String.join, hfoldl]
  rfl

/-- **C reads what `generate` prints**, with literals rounded to millionths. -/
theorem readEvaluate_text {d : Dag Number} (hd : ∀ v ∈ d.tree.leaves, Printable v) :
    readEvaluate ((generate d).text fun v => String.ofList (formatF v)).toList =
      some (generate (d.map constant)) := by
  have hsigmoid : "return sigmoid(t".toList = "return sigmoid(".toList ++ "t".toList := rfl
  generalize hend : "return sigmoid(".toList ++ ("t".toList ++ (Nat.toDigits 10 d.id ++
    (");\n\x7d\n".toList ++ []))) = ending
  have htext : ((generate d).text fun v => String.ofList (formatF v)).toList =
      header.toList ++ ((reflect d).flatMap Stmt.chars ++ ending) := by
    show (header ++ String.join ((reflect d).map (Stmt.text fun v => String.ofList (formatF v))) ++
      "return sigmoid(t" ++ toString d.id ++ ");\n\x7d\n").toList = _
    simp only [String.toList_append, toList_join, List.flatMap_map, toList_toString, hsigmoid,
      List.append_assoc]
    rw [← hend, List.append_nil]
    rfl
  have hstop : readStmt ending = none := by
    rw [← hend]
    rfl
  have hfuel : (reflect d).length ≤ ((reflect d).flatMap Stmt.chars ++ ending).length := by
    have hlen := length_le_flatMap (l := reflect d) fun st _ => st.chars_ne_nil
    rw [List.length_append]
    omega
  have hmany := many_flatMap (readStmt_text hd) hstop hfuel
  rw [htext, readEvaluate, word_append, Option.bind_some]
  simp only [hmany]
  rw [← hend, word_append, Option.bind_some, readTemp_append d.id rfl, Option.bind_some,
    word_append, Option.bind_some, if_pos rfl, ← reflect_map, generate, Dag.id_map]

/-! ## The tokens of the parser -/

/-- The tokens that the parser looks up are those that the lexer holds. -/
lemma lexerTokens_of_holds {lexer : Lexer} {held : List LexerToken} (h : lexer.Holds held) :
    lexerTokens lexer = held.filterMap LexerToken.token := by
  obtain ⟨hsize, htokens, -⟩ := h
  have hlookup : ∀ i ∈ List.range held.length,
      (lexerLookup lexer i).bind LexerToken.token = held[i]?.bind LexerToken.token := by
    intro i hi
    have hlt := List.mem_range.mp hi
    rw [lexerLookup, if_pos (by omega), ← List.getElem?_take_of_lt hlt, htokens]
  rw [lexerTokens, lexerSize, hsize, List.filterMap_congr hlookup]
  clear hsize htokens hlookup
  induction held with
  | nil => rfl
  | cons t held ih =>
    rw [List.length_cons, List.range_succ_eq_map, List.filterMap_cons, List.filterMap_map]
    simp [ih, List.filterMap_cons]

/-- The number that `strtod` reads from a numeral. -/
def numberOf (n : Numeral) : Number := .finite n.value

/-- **The parser gets the tokens that the text shows.** -/
lemma lexerTokens_of_renders (fresh : ℕ → LexerToken) {ts : List (Token Numeral)} {s : List Char}
    (h : Renders ts s) (hs : s ≠ []) : ∃ lexer, lexerOpen fresh s = some lexer ∧
      lexerTokens lexer = ts.map (Token.map numberOf) := by
  obtain ⟨lexer, hlexer, hholds⟩ := tokenize_of_renders fresh h Lexer.holds_empty le_rfl
  refine ⟨lexer, by rw [lexerOpen, if_neg hs, hlexer], ?_⟩
  rw [lexerTokens_of_holds hholds, List.nil_append, List.filterMap_map,
    ← List.filterMap_eq_map]
  refine List.filterMap_congr fun t _ => ?_
  cases t <;> rfl

/-- **`parser_open` returns a dag of the tree** that derives the tokens, with distinct ids. -/
lemma parserOpen_of_derives {ts : List (Token V)} {t : Tree V} (h : Derives .expr ts t) :
    ∃ d, parserOpen ts = .ok d ∧ d.tree = t ∧ d.ids.Nodup := by
  have hexpr := Recognizes.expr (V := V) (ts.length + 1)
  obtain ⟨d, q, hd, htree, hrest⟩ := hexpr.complete (Parser.init ts) [] (Nat.lt_succ_self _) h
    (List.append_nil _).symm exprStops_nil
  obtain ⟨us, hne, hus, -⟩ := hexpr.sound hd
  have hts : ts ≠ [] := by
    rintro rfl
    exact hne (List.append_eq_nil_iff.mp hus.symm).1
  have htop : top (Parser.init ts) = .ok (d, q) := by
    rw [top, show (Parser.init ts).rest = ts from rfl, hd]
    exact if_pos ((matchOp_sentinel_iff q).mpr hrest)
  refine ⟨d, ?_, htree, top_ids htop⟩
  rw [parserOpen, if_neg (mt List.length_eq_zero_iff.mp hts), htop]
  rfl

/-- A dag that `parser_open` returns is that of a tree that derives the tokens. -/
lemma derives_of_parserOpen {ts : List (Token V)} {d : Dag V} (h : parserOpen ts = .ok d) :
    Derives .expr ts d.tree := by
  have hexpr := Recognizes.expr (V := V) (ts.length + 1)
  unfold parserOpen top at h
  split at h
  · cases h
  · split at h
    · cases h
    · next dag q hd =>
      split at h
      · next hstop =>
        cases h
        obtain ⟨us, -, hus, hD⟩ := hexpr.sound hd
        rw [(matchOp_sentinel_iff q).mp hstop, List.append_nil] at hus
        exact (show ts = us from hus) ▸ hD
      · cases h

/-! ## From the text to the value -/

variable [Arith N] (lit : ℚ → N) (sigmoid : N → N)

/-- **The function of a dag with distinct ids** hands the value of the dag to `sigmoid`. -/
lemma call_generate {d : Dag V} (hnodup : d.ids.Nodup) (lit : V → N) :
    (generate d).call lit sigmoid = some (sigmoid (d.eval lit)) := by
  obtain ⟨env, hexec, hval, -⟩ := exec_reflect lit d (Env.empty ℕ N) hnodup fun _ _ => rfl
  rw [Evaluate.call, generate, hexec, Option.bind_some, hval]
  rfl

/-- **The compiler is correct.** Of a text that shows a token sequence, `main` writes a file exactly
if the tokens are an expression, and the function `evaluate` of that file hands the meaning of the
expression, with each literal rounded to millionths, to `sigmoid`.

**Proof sketch.** The parser gets the tokens of the text and returns a dag of their tree, with
distinct ids. C reads the declarations that `generate` prints for it one by one, and each constant
as its literal, rounded; so what C reads is the program of the dag with rounded literals, which
computes its value. -/
theorem compile_correct (fresh : ℕ → LexerToken) {ts : List (Token Numeral)} {s : List Char}
    (h : Renders ts s) (hs : s ≠ []) :
    (∀ t, Derives .expr ts t → ∃ file, compile fresh s = some file ∧
      runFile lit sigmoid file.toList =
        some (sigmoid (t.eval fun n => lit (millionth n.value)))) ∧
      ((∃ file, compile fresh s = some file) → ∃ t, Derives .expr ts t) := by
  obtain ⟨lexer, hlexer, htokens⟩ := lexerTokens_of_renders fresh h hs
  have hunsigned := unsigned_of_mem_literals hlexer
  have hcompile : compile fresh s = match parserOpen (lexerTokens lexer) with
    | .error _ => none
    | .ok dag => some ((generate dag).text fun v => String.ofList (formatF v)) := by
    rw [compile, hlexer, Option.bind_some]
  rw [hcompile]
  constructor
  · intro t ht
    have hmap : Derives .expr (lexerTokens lexer) (t.map numberOf) := htokens ▸ ht.map
    obtain ⟨d, hd, htree, hnodup⟩ := parserOpen_of_derives hmap
    have hprint : ∀ v ∈ d.tree.leaves, Printable v := by
      intro v hv
      rw [htree, ← hmap.literals_eq] at hv
      have huns := hunsigned v hv
      rw [htokens] at hv
      obtain ⟨tok, htok, hnumber⟩ := List.mem_filterMap.mp hv
      obtain ⟨tok, -, rfl⟩ := List.mem_map.mp htok
      cases tok <;> cases hnumber
      exact ⟨_, rfl, huns⟩
    rw [hd]
    refine ⟨_, rfl, ?_⟩
    rw [runFile, readEvaluate_text hprint, Option.bind_some, call_generate sigmoid (by simpa),
      Dag.eval_map, htree, Tree.eval_map]
    rfl
  · rintro ⟨file, hfile⟩
    cases hparse : parserOpen (lexerTokens lexer) with
    | error f =>
      rw [hparse] at hfile
      cases hfile
    | ok d =>
      obtain ⟨t, ht, -⟩ := (derives_of_parserOpen hparse).exists_of_map htokens
      exact ⟨t, ht⟩

/-- The rational numbers as a number type. -/
instance : Arith ℚ where
  neg a := -a
  mul a b := a * b
  div a b := a / b
  add a b := a + b
  sub a b := a - b
  zero := 0
  isZero a := a == 0

/-- The numeral `.0000015`. -/
def tiny : Numeral where
  int := []
  frac := some "0000015".toList
  exp := none
  int_isDigit := by simp
  frac_isDigit := by
    rintro ds hds c hc
    obtain rfl := Option.some.inj hds
    have hall : "0000015".toList.all Char.isDigit = true := by decide
    exact List.all_eq_true.mp hall c hc
  ne_nil := by decide

/-- Witness: a literal with seven digits is rounded. -/
theorem compile_correct_sub : ∃ file,
    compile (fun _ => ⟨.sentinel, .nan false⟩) "7-.0000015".toList = some file ∧
      runFile id id file.toList = some (7 - 2 / 10 ^ 6 : ℚ) := by
  have hblank : Blank [] := fun c hc => absurd hc List.not_mem_nil
  have htiny : Renders [.val tiny] ".0000015".toList :=
    @Renders.cons [] [] (.val tiny) [] hblank (.nil hblank) (by rintro n m us - h; cases h)
  have hsub : Renders [.sub, .val tiny] "-.0000015".toList :=
    @Renders.cons [] _ .sub _ hblank htiny (by rintro n m us h; cases h)
  have hrenders : Renders [.val seven, .sub, .val tiny] "7-.0000015".toList :=
    @Renders.cons [] _ (.val seven) _ hblank hsub (by rintro n m us - h; cases h)
  have hterm (n : Numeral) : Derives .term [.val n] (.val n) := .unary (.primary (.val n))
  have hexpr : Derives .expr [.val seven, .sub, .val tiny] (.bin .sub (.val seven) (.val tiny)) :=
    .sub (.term (hterm seven)) (hterm tiny)
  obtain ⟨file, hfile, hrun⟩ :=
    (compile_correct id id (fun _ => ⟨.sentinel, .nan false⟩) hrenders (by decide)).1 _ hexpr
  refine ⟨file, hfile, hrun.trans (congrArg some ?_)⟩
  have hvalue : (Tree.eval (fun n => millionth n.value) (.bin .sub (.val seven) (.val tiny)) : ℚ) =
      7 - 2 / 10 ^ 6 := by decide +kernel
  exact hvalue

end Cs238p.P1
