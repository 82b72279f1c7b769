import Cs238p.Lib.Numeral
import Cs238p.P1.Parser

set_option relaxedAutoImplicit false
set_option autoImplicit false

/-!
# The lexer of `p1/lexer.c`

The lexer reads operators and parentheses by their position in a string, skips white space, and
leaves numbers to `strtod`. Its tokens are in an array that grows by 100 whenever it is full. The
main result is that the lexer undoes every rendering of a token sequence as text.

## Main definitions

* `LexerToken`, `Lexer` — `struct lexer_token` and `struct lexer`.
* `mktoken`, `tokenize`, `lexerOpen`, `lexerSize`, `lexerLookup` — the functions of `lexer.c`.
* `Renders` — a text shows a token sequence, with white space between its tokens.

## Main results

* `Lexer.Holds.mktoken` — a new token goes behind those that the array holds.
* `lexerOpen_of_renders` — the lexer gives back the token sequence of a text.

## Implementation notes

A text is the list of its characters, and numbers are exact. Allocations succeed; what a slot of the
array contains before it is written is arbitrary. A write outside of the array is a failure.
-/

namespace Cs238p.P1

open CNumeral WhiteSpace

/-! ## Tokens -/

/-- The numeric value of the enumerator. -/
def LexerOp.code : LexerOp → ℕ
  | .sentinel => 0
  | .val => 1
  | .add => 2
  | .sub => 3
  | .mul => 4
  | .div => 5
  | .opn => 6
  | .cls => 7

/-- The enumerator with a numeric value. -/
def LexerOp.ofCode : ℕ → LexerOp
  | 1 => .val
  | 2 => .add
  | 3 => .sub
  | 4 => .mul
  | 5 => .div
  | 6 => .opn
  | 7 => .cls
  | _ => .sentinel

/-- `struct lexer_token`. -/
structure LexerToken where
  op : LexerOp
  val : Number
  deriving DecidableEq

/-- `struct lexer`: the number of tokens, and the array that is allocated for them. -/
structure Lexer where
  size : ℕ
  tokens : List LexerToken

/-- `realloc` of the array to `n` slots; the new ones contain `fresh`. -/
def realloc (fresh : ℕ → LexerToken) (tokens : List LexerToken) (n : ℕ) : List LexerToken :=
  tokens.take n ++ (List.range' tokens.length (n - tokens.length)).map fresh

/-- `mktoken`: the lexer with a new token, and the position of the token in the array. -/
def mktoken (fresh : ℕ → LexerToken) (lexer : Lexer) (op : LexerOp) : Option (Lexer × ℕ) :=
  let tokens :=
    if lexer.size % 100 = 0 then realloc fresh lexer.tokens (lexer.size + 100) else lexer.tokens
  if lexer.size < tokens.length then
    some (⟨lexer.size + 1, tokens.set lexer.size ⟨op, .finite 0⟩⟩, lexer.size)
  else none

/-- The assignment `token->val = v`. -/
def Lexer.setVal (lexer : Lexer) (token : ℕ) (v : Number) : Lexer :=
  { lexer with tokens := lexer.tokens.modify token fun t => { t with val := v } }

/-- `OPERATORS`. -/
def operators : List Char := ['+', '-', '*', '/', '(', ')']

/-- `tokenize`, with a bound on the number of rounds of its loop. -/
def tokenize (fresh : ℕ → LexerToken) : ℕ → Lexer → List Char → Option Lexer
  | _, lexer, [] => some lexer
  | 0, _, _ :: _ => none
  | fuel + 1, lexer, c :: s =>
    match operators.idxOf? c with
    | some i =>
      (mktoken fresh lexer (.ofCode (LexerOp.add.code + i))).bind fun r =>
        tokenize fresh fuel r.1 s
    | none =>
      if isspace c.toNat then tokenize fresh fuel lexer s
      else
        (mktoken fresh lexer .val).bind fun r =>
          (strtod (c :: s)).bind fun n => tokenize fresh fuel (r.1.setVal r.2 n.1) n.2

/-- `lexer_open`, which asserts that the text is not empty. Every round of the loop of `tokenize`
reads a character. -/
def lexerOpen (fresh : ℕ → LexerToken) (s : List Char) : Option Lexer :=
  if s = [] then none else tokenize fresh s.length ⟨0, []⟩ s

/-- `lexer_size`. -/
def lexerSize (lexer : Lexer) : ℕ := lexer.size

/-- `lexer_lookup`, which asserts that there is such a token. -/
def lexerLookup (lexer : Lexer) (i : ℕ) : Option LexerToken :=
  if i < lexer.size then lexer.tokens[i]? else none

/-- The token as the parser reads it. -/
def LexerToken.token (t : LexerToken) : Option (Token Number) :=
  match t.op with
  | .sentinel => none
  | .val => some (.val t.val)
  | .add => some .add
  | .sub => some .sub
  | .mul => some .mul
  | .div => some .div
  | .opn => some .opn
  | .cls => some .cls

/-- The tokens that the parser looks up. -/
def lexerTokens (lexer : Lexer) : List (Token Number) :=
  (List.range (lexerSize lexer)).filterMap fun i => (lexerLookup lexer i).bind LexerToken.token

/-! ## The array of tokens -/

namespace Lexer

variable {lexer : Lexer} {ts : List LexerToken}

/-- The lexer holds the tokens, in an array of a multiple of 100 slots. -/
structure Holds (lexer : Lexer) (ts : List LexerToken) : Prop where
  size : lexer.size = ts.length
  tokens : lexer.tokens.take ts.length = ts
  capacity : lexer.tokens.length = (ts.length + 99) / 100 * 100

/-- The lexer is empty before the first token. -/
lemma holds_empty : Holds ⟨0, []⟩ [] := ⟨rfl, rfl, rfl⟩

lemma length_realloc (fresh : ℕ → LexerToken) {tokens : List LexerToken} {n : ℕ}
    (h : tokens.length ≤ n) : (realloc fresh tokens n).length = n := by
  rw [realloc, List.length_append, List.length_take, List.length_map, List.length_range']
  omega

/-- Reallocation keeps the tokens. -/
lemma take_realloc (fresh : ℕ → LexerToken) {tokens : List LexerToken} {n : ℕ}
    (h : tokens.length ≤ n) : (realloc fresh tokens n).take tokens.length = tokens := by
  rw [realloc, List.take_of_length_le h, List.take_left]

/-- **A new token goes behind those that the lexer holds**, and its position is returned. -/
lemma Holds.mktoken (h : lexer.Holds ts) (fresh : ℕ → LexerToken) (op : LexerOp) :
    ∃ lexer', P1.mktoken fresh lexer op = some (lexer', ts.length) ∧
      lexer'.Holds (ts ++ [⟨op, .finite 0⟩]) := by
  obtain ⟨hsize, htokens, hcap⟩ := h
  -- the array after it was reallocated, if it was full
  have harray : ∃ tokens, (if lexer.size % 100 = 0 then
      realloc fresh lexer.tokens (lexer.size + 100) else lexer.tokens) = tokens ∧
      tokens.take ts.length = ts ∧ tokens.length = (ts.length + 1 + 99) / 100 * 100 := by
    refine ⟨_, rfl, ?_⟩
    split
    · next hfull =>
      have hlen : lexer.tokens.length = ts.length := by omega
      rw [← hlen, List.take_length] at htokens
      rw [hsize, ← hlen, length_realloc fresh (by omega), take_realloc fresh (by omega)]
      exact ⟨htokens, by omega⟩
    · exact ⟨htokens, by omega⟩
  obtain ⟨tokens, harray, htake, hlen⟩ := harray
  refine ⟨⟨lexer.size + 1, tokens.set lexer.size ⟨op, .finite 0⟩⟩, ?_, ?_, ?_, ?_⟩
  · rw [P1.mktoken, harray, if_pos (by omega), hsize]
  · rw [List.length_append, hsize]
    rfl
  · have hk : (tokens.take ts.length).length = ts.length := by rw [htake]
    rw [hsize, List.length_append, List.set_eq_take_append_cons_drop, if_pos (by omega),
      List.take_append, hk, List.take_of_length_le (by simp), htake]
    simp
  · rw [List.length_set, hlen, List.length_append]
    rfl

/-- **The value of the last token is set.** -/
lemma Holds.setVal {op : LexerOp} {v : Number} (h : lexer.Holds (ts ++ [⟨op, v⟩])) (w : Number) :
    (lexer.setVal ts.length w).Holds (ts ++ [⟨op, w⟩]) := by
  obtain ⟨hsize, htokens, hcap⟩ := h
  rw [List.length_append] at hsize hcap htokens
  refine ⟨?_, ?_, ?_⟩
  · rw [List.length_append]
    exact hsize
  · rw [List.length_append, Lexer.setVal]
    show (lexer.tokens.modify _ _).take (ts.length + 1) = _
    rw [List.take_modify, show lexer.tokens.take (ts.length + 1) = _ from htokens,
      List.modify_eq_take_cons_drop (by simp)]
    simp
  · rw [List.length_append, Lexer.setVal, List.length_modify]
    exact hcap

end Lexer

/-! ## Rendering -/

/-- The text of a token: its character, or its numeral. -/
def Token.text : Token Numeral → List Char
  | .val n => n.text
  | .add => ['+']
  | .sub => ['-']
  | .mul => ['*']
  | .div => ['/']
  | .opn => ['(']
  | .cls => [')']

/-- The token as the lexer stores it. -/
def Token.stored : Token Numeral → LexerToken
  | .val n => ⟨.val, .finite n.value⟩
  | t => ⟨t.op, .finite 0⟩

/-- A text of white space. -/
def Blank (ws : List Char) : Prop := ∀ c ∈ ws, isspace c.toNat = true

/-- The text shows the tokens in their order, with white space between them; between two numerals
there is some. -/
inductive Renders : List (Token Numeral) → List Char → Prop
  | nil {ws : List Char} : Blank ws → Renders [] ws
  | cons {ws s : List Char} {t : Token Numeral} {ts : List (Token Numeral)} :
      Blank ws → Renders ts s →
      (∀ n m us, t = .val n → ts = .val m :: us → ∃ c s', s = c :: s' ∧ isspace c.toNat = true) →
      Renders (t :: ts) (ws ++ t.text ++ s)

/-- White space is no part of a number. -/
lemma not_alphanum_of_isspace {c : Char} (h : isspace c.toNat = true) :
    c.isAlphanum = false ∧ c ≠ '.' ∧ c ∉ operators := by
  have hcode : c.toNat = c.val.toNat := rfl
  simp only [isspace, decide_eq_true_eq, hcode] at h
  refine ⟨?_, ?_, ?_⟩
  · unfold Char.isAlphanum Char.isAlpha Char.isUpper Char.isLower Char.isDigit
    simp [UInt32.le_iff_toNat_le]
    omega
  · rintro rfl
    exact absurd h (by decide)
  · intro hmem
    simp [operators] at hmem
    rcases hmem with rfl | rfl | rfl | rfl | rfl | rfl <;> exact absurd h (by decide)

/-- A text that begins with white space ends a numeral. -/
lemma ends_of_isspace {c : Char} (s : List Char) (h : isspace c.toNat = true) : Ends (c :: s) := by
  intro d hd
  obtain rfl : c = d := by simpa using hd
  exact ⟨(not_alphanum_of_isspace h).1, (not_alphanum_of_isspace h).2.1⟩

/-- What follows a numeral ends it. -/
lemma Renders.ends {ts : List (Token Numeral)} {s : List Char} (h : Renders ts s)
    (hsep : ∀ m us, ts = .val m :: us → ∃ c s', s = c :: s' ∧ isspace c.toNat = true) :
    Ends s := by
  cases h with
  | nil hws =>
    cases s with
    | nil => simp [Ends]
    | cons c s => exact ends_of_isspace s (hws c List.mem_cons_self)
  | @cons ws s t ts hws _ _ =>
    cases ws with
    | cons c ws => exact ends_of_isspace _ (hws c List.mem_cons_self)
    | nil =>
      cases t with
      | val n =>
        obtain ⟨c, s', hs, hc⟩ := hsep n ts rfl
        rw [hs]
        exact ends_of_isspace s' hc
      | _ =>
        intro c hc
        obtain rfl := Option.some.inj hc
        decide

/-! ## Tokenizing undoes rendering -/

section Tokenize

variable (fresh : ℕ → LexerToken) (lexer : Lexer)

/-- White space is skipped. -/
lemma tokenize_blank {ws : List Char} (h : Blank ws) (fuel : ℕ) (s : List Char) :
    tokenize fresh (ws.length + fuel) lexer (ws ++ s) = tokenize fresh fuel lexer s := by
  induction ws with
  | nil => rw [List.length_nil, Nat.zero_add, List.nil_append]
  | cons c ws ih =>
    have hc := h c List.mem_cons_self
    have hop : operators.idxOf? c = none :=
      List.idxOf?_eq_none_iff.mpr (not_alphanum_of_isspace hc).2.2
    rw [List.length_cons, List.cons_append,
      show ws.length + 1 + fuel = ws.length + fuel + 1 by omega, tokenize, hop]
    simp only [hc, if_true]
    exact ih fun d hd => h d (List.mem_cons_of_mem _ hd)

/-- A number is read by `strtod` into a new token. -/
lemma tokenize_numeral (n : Numeral) {s : List Char} (h : Ends s) (fuel : ℕ) :
    tokenize fresh (fuel + 1) lexer (n.text ++ s) =
      (mktoken fresh lexer .val).bind fun r =>
        tokenize fresh fuel (r.1.setVal r.2 (.finite n.value)) s := by
  obtain ⟨c, cs, htext, hc⟩ := n.exists_text_eq_cons
  have hspace := isspace_of_numeralChar (n.numeralChar_of_mem (c := c) (by simp [htext]))
  have hop : operators.idxOf? c = none := by
    refine List.idxOf?_eq_none_iff.mpr fun hmem => ?_
    simp [operators] at hmem
    rcases hmem with rfl | rfl | rfl | rfl | rfl | rfl <;> exact absurd hc (by decide)
  have hread := strtod_text n h
  rw [htext, List.cons_append] at hread ⊢
  rw [tokenize, hop]
  simp only [hspace, Bool.false_eq_true, if_false, hread, Option.bind_some]

variable {lexer}

/-- A token behind white space is read, and the array holds it. -/
lemma tokenize_token {held : List LexerToken} (hheld : lexer.Holds held) (t : Token Numeral)
    {s : List Char} (h : ∀ n, t = .val n → Ends s) (fuel : ℕ) :
    ∃ lexer', tokenize fresh (fuel + 1) lexer (t.text ++ s) = tokenize fresh fuel lexer' s ∧
      lexer'.Holds (held ++ [t.stored]) := by
  obtain ⟨lexer', hmk, hholds⟩ := hheld.mktoken fresh t.op
  cases t with
  | val n =>
    refine ⟨lexer'.setVal held.length (.finite n.value), ?_, hholds.setVal _⟩
    rw [Token.text, tokenize_numeral fresh lexer n (h n rfl),
      show LexerOp.val = (Token.val n).op from rfl, hmk, Option.bind_some]
  | _ =>
    refine ⟨lexer', ?_, hholds⟩
    show (mktoken fresh lexer _).bind _ = _
    exact (congrArg (Option.bind · _) hmk).trans rfl

/-- **The tokens of a text are read in their order**, behind those that the lexer holds. -/
theorem tokenize_of_renders {ts : List (Token Numeral)} {s : List Char} (h : Renders ts s) :
    ∀ {lexer : Lexer} {held : List LexerToken} {fuel : ℕ}, lexer.Holds held → s.length ≤ fuel →
      ∃ lexer', tokenize fresh fuel lexer s = some lexer' ∧
        lexer'.Holds (held ++ ts.map Token.stored) := by
  induction h with
  | @nil ws hws =>
    intro lexer held fuel hheld hfuel
    obtain ⟨k, rfl⟩ := Nat.exists_eq_add_of_le hfuel
    have hskip := tokenize_blank fresh lexer hws k []
    rw [List.append_nil] at hskip
    exact ⟨lexer, by rw [hskip]; cases k <;> rfl, by simpa using hheld⟩
  | @cons ws s t ts hws hrest hsep ih =>
    intro lexer held fuel hheld hfuel
    have htext : 0 < t.text.length := by
      cases t with
      | val n => exact List.length_pos_iff.mpr n.text_ne_nil
      | _ => exact Nat.one_pos
    simp only [List.length_append] at hfuel
    obtain ⟨k, rfl⟩ : ∃ k, fuel = ws.length + (k + 1) := ⟨fuel - ws.length - 1, by omega⟩
    obtain ⟨lexer₁, htok, hholds⟩ := tokenize_token fresh hheld t
      (fun n hn => hrest.ends fun m us hts => hsep n m us hn hts) k
    obtain ⟨lexer₂, hlexer, hholds₂⟩ := ih hholds (show s.length ≤ k by omega)
    refine ⟨lexer₂, ?_, by simpa using hholds₂⟩
    rw [List.append_assoc, tokenize_blank fresh lexer hws, htok, hlexer]

end Tokenize

/-- **Tokenizing undoes rendering.** Of a text that shows a token sequence, `lexer_open` reads that
sequence: `lexer_size` is its length, and `lexer_lookup` gives each token back, with the number that
its numeral denotes.

**Proof sketch.** Induction on the rendering. A numeral ends where the next token or white space
begins, so `strtod` reads it as a whole; a new token goes behind those that the array holds, also
where the array is reallocated. -/
theorem lexerOpen_of_renders (fresh : ℕ → LexerToken) {ts : List (Token Numeral)} {s : List Char}
    (h : Renders ts s) (hs : s ≠ []) :
    ∃ lexer, lexerOpen fresh s = some lexer ∧ lexerSize lexer = ts.length ∧
      ∀ (i : ℕ) (hi : i < ts.length), lexerLookup lexer i = some (ts.get ⟨i, hi⟩).stored := by
  obtain ⟨lexer, hlexer, hholds⟩ := tokenize_of_renders fresh h Lexer.holds_empty le_rfl
  obtain ⟨hsize, htokens, -⟩ := hholds
  rw [List.nil_append, List.length_map] at hsize htokens
  refine ⟨lexer, by rw [lexerOpen, if_neg hs, hlexer], hsize, fun i hi => ?_⟩
  have hi' : lexer.tokens[i]? = (ts.map Token.stored)[i]? := by
    rw [← htokens, List.getElem?_take_of_lt hi]
  rw [lexerLookup, if_pos (by omega), hi', List.getElem?_map, List.getElem?_eq_getElem hi,
    Option.map_some, List.get_eq_getElem]

/-- The numeral `7`. -/
def seven : Numeral where
  int := ['7']
  frac := none
  exp := none
  int_isDigit := List.forall_mem_singleton.mpr (by decide)
  frac_isDigit := by simp
  ne_nil := by decide

/-- Two numerals and an operator. -/
theorem lexerOpen_of_renders_three : ∃ lexer,
    lexerOpen (fun _ => ⟨.sentinel, .nan false⟩) "7 7-".toList = some lexer ∧
      lexerSize lexer = 3 ∧ ∀ (i : ℕ) (hi : i < 3), lexerLookup lexer i =
        some (Token.stored ([Token.val seven, .val seven, .sub].get ⟨i, hi⟩)) := by
  have hblank : Blank [] := fun c hc => absurd hc List.not_mem_nil
  have hsub : Renders [.sub] "-".toList :=
    @Renders.cons [] [] .sub [] hblank (.nil hblank) (by rintro n m us h; cases h)
  have hspace : Renders [.val seven, .sub] " 7-".toList :=
    @Renders.cons [' '] _ (.val seven) _ (fun c hc => by rw [List.mem_singleton.mp hc]; rfl) hsub
      (by rintro n m us - h; cases h)
  have hrenders : Renders [.val seven, .val seven, .sub] "7 7-".toList :=
    @Renders.cons [] _ (.val seven) _ hblank hspace fun _ _ _ _ _ => ⟨' ', _, rfl, by decide⟩
  exact lexerOpen_of_renders _ hrenders (by decide)

end Cs238p.P1
