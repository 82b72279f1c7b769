import Cs238p.P1.Lexer
import Cs238p.P1.Reflect

set_option relaxedAutoImplicit false
set_option autoImplicit false

/-!
# Literals in the generated code of `p1/main.c`

A number of the source expression goes through `strtod` into a token, from there into a leaf of the
dag, and `reflect` prints it with `%f` as the initializer of a temporary. The initializers are
those of the literals, in their order, and each of them denotes its literal exactly if that has no
more than six digits behind the point.

## Main definitions

* `literals` — the numbers of a token sequence.
* `initializers` — the constants that `generate` prints.

## Main results

* `Derives.literals_eq` — the leaves of a tree are the literals of its tokens.
* `initializers_generate` — `generate` prints one initializer for each leaf.
* `literals_survive_iff` — when all literals survive code generation.
-/

namespace Cs238p.P1

open CNumeral

/-! ## Literals and leaves -/

section Leaves

variable {V : Type}

/-- The number of a token. -/
def Token.number : Token V → Option V
  | .val v => some v
  | _ => none

/-- The numbers of a token sequence. -/
def literals (ts : List (Token V)) : List V := ts.filterMap Token.number

/-- The numbers at the leaves of a tree. -/
def Tree.leaves : Tree V → List V
  | .val v => [v]
  | .neg r => r.leaves
  | .bin _ l r => l.leaves ++ r.leaves

lemma literals_append (ts us : List (Token V)) :
    literals (ts ++ us) = literals ts ++ literals us := List.filterMap_append

lemma literals_cons {tok : Token V} (ts : List (Token V)) (h : tok.number = none) :
    literals (tok :: ts) = literals ts := List.filterMap_cons_none h

/-- **The leaves of a tree are the literals of its tokens**, in their order. -/
lemma Derives.literals_eq {nt : Nonterminal} {ts : List (Token V)} {t : Tree V}
    (h : Derives nt ts t) : literals ts = t.leaves := by
  induction h with
  | val v => rfl
  | paren _ ih =>
    rw [literals_cons _ rfl, literals_append, literals_cons _ rfl, ih]
    exact List.append_nil _
  | plus _ ih => rw [literals_cons _ rfl, ih]
  | minus _ ih =>
    rw [literals_cons _ rfl, ih]
    rfl
  | mul _ _ iht ihu | div _ _ iht ihu | add _ _ iht ihu | sub _ _ iht ihu =>
    rw [literals_append, literals_cons _ rfl, iht, ihu]
    rfl
  | _ _ ih => exact ih

end Leaves

/-! ## Initializers -/

/-- The constant in the text of a statement, as `%f` prints it. -/
def initializer (s : Stmt Number) : Option (List Char) :=
  match s.op with
  | .lit v => some (formatF v)
  | _ => none

/-- The constants that `generate` prints. -/
def initializers (e : Evaluate Number) : List (List Char) := e.body.filterMap initializer

/-- The text of the declaration of a literal. -/
lemma text_lit (id : ℕ) (v : Number) (args : List ℕ) :
    Stmt.text (fun v => String.ofList (formatF v)) ⟨id, .lit v, args⟩ =
      "double t" ++ toString id ++ " = " ++ String.ofList (formatF v) ++ ";\n" := rfl

/-- **`generate` prints one initializer for each leaf**, in their order. -/
lemma initializers_generate (d : Dag Number) :
    initializers (generate d) = d.tree.leaves.map formatF := by
  show (reflect d).filterMap initializer = _
  induction d with
  | val id v => rfl
  | neg id r ih =>
    rw [reflect, List.filterMap_append, ih]
    exact List.append_nil _
  | bin op id l r ihl ihr =>
    cases op <;> simp [reflect, initializer, binStmt, Dag.tree, Tree.leaves, ihl, ihr]

/-! ## Numbers of the lexer -/

section Unsigned

variable {fresh : ℕ → LexerToken}

/-- A lexer whose numbers are unsigned. -/
def UnsignedVals (lexer : Lexer) : Prop := ∃ ts, lexer.Holds ts ∧ ∀ t ∈ ts, t.val.Unsigned

/-- **The numbers of the lexer are unsigned**: a sign is a token of its own. -/
lemma UnsignedVals.tokenize {fuel : ℕ} : ∀ {lexer lexer' : Lexer} {s : List Char},
    UnsignedVals lexer → P1.tokenize fresh fuel lexer s = some lexer' → UnsignedVals lexer' := by
  induction fuel with
  | zero =>
    intro lexer lexer' s h htok
    cases s with
    | nil =>
      cases htok
      exact h
    | cons c s => cases htok
  | succ fuel ih =>
    intro lexer lexer' s h htok
    cases s with
    | nil =>
      cases htok
      exact h
    | cons c s =>
      obtain ⟨ts, hts, huns⟩ := h
      have hsnoc {ts : List LexerToken} {t : LexerToken} (hts : ∀ t ∈ ts, t.val.Unsigned)
          (ht : t.val.Unsigned) : ∀ u ∈ ts ++ [t], u.val.Unsigned := by
        intro u hu
        rcases List.mem_append.mp hu with hu | hu
        · exact hts u hu
        · rwa [List.mem_singleton.mp hu]
      have hzero : Number.Unsigned (.finite 0) := le_refl (0 : ℚ)
      rw [P1.tokenize] at htok
      split at htok
      · next i _ =>
        obtain ⟨lexer₁, hmk, hholds⟩ := hts.mktoken fresh (.ofCode (LexerOp.add.code + i))
        rw [hmk, Option.bind_some] at htok
        exact ih ⟨_, hholds, hsnoc huns hzero⟩ htok
      · next hop =>
        split at htok
        · exact ih ⟨ts, hts, huns⟩ htok
        · next hspace =>
          obtain ⟨lexer₁, hmk, hholds⟩ := hts.mktoken fresh .val
          rw [hmk, Option.bind_some] at htok
          obtain ⟨⟨v, s'⟩, hread, htok⟩ := Option.bind_eq_some_iff.mp htok
          have hminus : c ≠ '-' := by
            rintro rfl
            exact absurd hop (by decide)
          have hv := unsigned_of_strtod (by simpa using hspace) hminus hread
          exact ih ⟨_, hholds.setVal v, hsnoc huns hv⟩ htok

/-- The literals of a text are unsigned. -/
lemma unsigned_of_mem_literals {lexer : Lexer} {s : List Char}
    (h : lexerOpen fresh s = some lexer) : ∀ v ∈ literals (lexerTokens lexer), v.Unsigned := by
  have hempty : UnsignedVals ⟨0, []⟩ := ⟨[], Lexer.holds_empty, by simp⟩
  unfold lexerOpen at h
  split at h
  · cases h
  · obtain ⟨ts, ⟨hsize, htokens, -⟩, huns⟩ := hempty.tokenize h
    intro v hv
    obtain ⟨tok, htok, hv⟩ := List.mem_filterMap.mp hv
    obtain ⟨i, -, hi⟩ := List.mem_filterMap.mp htok
    obtain ⟨t, ht, hti⟩ := Option.bind_eq_some_iff.mp hi
    have hmem : t ∈ ts := by
      unfold lexerLookup at ht
      split at ht
      · next hlt =>
        rw [← htokens]
        rw [← List.getElem?_take_of_lt (show i < ts.length by omega)] at ht
        exact List.mem_of_getElem? ht
      · cases ht
    obtain ⟨op, w⟩ := t
    cases op <;> cases hti <;> cases hv
    exact huns _ hmem

end Unsigned

/-! ## Survival -/

/-- **When the literals of a text survive code generation.** Of a text that the lexer and the parser
accept, every initializer that `generate` prints is a constant for its literal if and only if every
literal is finite and has no more than six digits behind the point.

**Proof sketch.** The leaves of the dag are the literals of the text (`Derives.literals_eq`), and
each is printed with `%f` (`initializers_generate`). Literals have no sign, and `%f` writes a
constant for an unsigned number exactly if it has six digits (`denotes_formatF_iff`). -/
theorem literals_survive_iff (fresh : ℕ → LexerToken) {s : List Char} {lexer : Lexer}
    {d : Dag Number} (hlex : lexerOpen fresh s = some lexer)
    (hparse : parserOpen (lexerTokens lexer) = .ok d) :
    List.Forall₂ Denotes (initializers (generate d)) (literals (lexerTokens lexer)) ↔
      ∀ v ∈ literals (lexerTokens lexer), v.SixDigits := by
  obtain ⟨q, htop⟩ : ∃ q, top (Parser.init (lexerTokens lexer)) = .ok (d, q) := by
    unfold parserOpen at hparse
    split at hparse
    · cases hparse
    · cases htop : top (Parser.init (lexerTokens lexer)) with
      | error f =>
        rw [htop] at hparse
        cases hparse
      | ok r =>
        rw [htop] at hparse
        cases hparse
        exact ⟨r.2, rfl⟩
  have hD : Derives .expr (lexerTokens lexer) d.tree :=
    ((top_derives (lexerTokens lexer)).2 d.tree).mpr ⟨d, q, htop, rfl⟩
  have huns := unsigned_of_mem_literals hlex
  rw [initializers_generate, ← hD.literals_eq, List.forall₂_map_left_iff, List.forall₂_same]
  exact forall₂_congr fun v hv => denotes_formatF_iff (huns v hv)

/-- The text of a fraction with one digit. -/
theorem literals_survive_iff_half :
    ∃ lexer d, lexerOpen (fun _ => ⟨.sentinel, .nan false⟩) ['0', '.', '5'] = some lexer ∧
      parserOpen (lexerTokens lexer) = .ok d ∧
      (List.Forall₂ Denotes (initializers (generate d)) (literals (lexerTokens lexer)) ↔
        ∀ v ∈ literals (lexerTokens lexer), v.SixDigits) := by
  have hlex : (lexerOpen (fun _ => ⟨.sentinel, .nan false⟩) ['0', '.', '5']).isSome := by
    decide +kernel
  obtain ⟨lexer, hlex⟩ := Option.isSome_iff_exists.mp hlex
  have hparse : (lexerOpen (fun _ => ⟨.sentinel, .nan false⟩) ['0', '.', '5']).map
      (fun lexer => parserOpen (lexerTokens lexer)) =
      some (.ok (.val 1 (.finite (1 / 2)))) := by decide +kernel
  rw [hlex] at hparse
  have hparse := Option.some.inj hparse
  exact ⟨lexer, _, hlex, hparse, literals_survive_iff _ hlex hparse⟩

/-- The number `1e-7` is printed as `0.000000`. -/
theorem small_literal_lost : ¬ ∀ (fresh : ℕ → LexerToken) (s : List Char) (lexer : Lexer)
    (d : Dag Number), lexerOpen fresh s = some lexer → parserOpen (lexerTokens lexer) = .ok d →
      List.Forall₂ Denotes (initializers (generate d)) (literals (lexerTokens lexer)) := by
  intro h
  have hlex : (lexerOpen (fun _ => ⟨.sentinel, .nan false⟩) ['1', 'e', '-', '7']).isSome := by
    decide +kernel
  obtain ⟨lexer, hlex⟩ := Option.isSome_iff_exists.mp hlex
  have hrun : (lexerOpen (fun _ => ⟨.sentinel, .nan false⟩) ['1', 'e', '-', '7']).map
      (fun lexer => (parserOpen (lexerTokens lexer), literals (lexerTokens lexer))) =
      some (.ok (.val 1 (.finite (1 / 10 ^ 7))), [.finite (1 / 10 ^ 7)]) := by decide +kernel
  rw [hlex] at hrun
  obtain ⟨hparse, hlit⟩ := Prod.mk.inj (Option.some.inj hrun)
  have hdenotes := h _ _ lexer _ hlex hparse
  rw [hlit] at hdenotes
  obtain ⟨q, hq, hconst⟩ := (List.forall₂_cons.mp hdenotes).1
  obtain rfl := Number.finite.inj hq
  exact absurd hconst (by decide +kernel)
end Cs238p.P1
