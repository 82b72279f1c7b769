import Cs238p.P1.Parser

set_option relaxedAutoImplicit false
set_option autoImplicit false

/-!
# The parser accepts its grammar and builds the left-associative tree

The grammar is the one of the comments of `p1/parser.c`, with the tail rules read as
repetitions:

* `expr := term {('+' | '-') term}`
* `term := unary {('*' | '/') unary}`
* `unary := ('+' | '-') unary | primary`
* `primary := VAL | '(' expr ')'`

`Derives` derives a token sequence together with its tree. A repetition is folded to the left,
so operators of one level associate to the left; the levels say which operators bind tighter.

## Main definitions

* `Tree`, `Dag.tree` — the dag without its ids.
* `Derives` — the grammar, with the tree of each derivation.
* `LeftChain` — a repetition of operands of one binary level.
* `Recognizes` — a parser function accepts a set of token sequences, with the right trees.

## Main results

* `binaryTail_eq_ok_iff` — the loop around the recursive call behaves as a tail recursion.
* `Recognizes.binaryLevel`, `Recognizes.exprUnary`, `Recognizes.expr` — one lemma a level.
* `top_derives` — `top` accepts exactly the sentences of the grammar, with their trees.
-/

namespace Cs238p.P1

variable {V : Type}

/-! ## Trees and derivations -/

/-- A dag without its ids. -/
inductive Tree (V : Type)
  | val (v : V)
  | neg (right : Tree V)
  | bin (op : DagOp) (left right : Tree V)
  deriving DecidableEq, Repr

/-- The tree of a dag: forget the ids. -/
def Dag.tree : Dag V → Tree V
  | .val _ v => .val v
  | .neg _ r => .neg r.tree
  | .bin op _ l r => .bin op l.tree r.tree

/-- The nonterminals of the grammar. -/
inductive Nonterminal
  | expr | term | unary | primary

/-- `Derives nt ts t`: the tokens `ts` derive from `nt`, and `t` is the tree in which the
repetitions of the derivation are folded to the left. -/
inductive Derives : Nonterminal → List (Token V) → Tree V → Prop
  | val (v : V) : Derives .primary [.val v] (.val v)
  | paren {ts : List (Token V)} {t : Tree V} :
      Derives .expr ts t → Derives .primary (.opn :: (ts ++ [.cls])) t
  | plus {ts : List (Token V)} {t : Tree V} :
      Derives .unary ts t → Derives .unary (.add :: ts) t
  | minus {ts : List (Token V)} {t : Tree V} :
      Derives .unary ts t → Derives .unary (.sub :: ts) (.neg t)
  | primary {ts : List (Token V)} {t : Tree V} :
      Derives .primary ts t → Derives .unary ts t
  | unary {ts : List (Token V)} {t : Tree V} :
      Derives .unary ts t → Derives .term ts t
  | mul {ts us : List (Token V)} {t u : Tree V} :
      Derives .term ts t → Derives .unary us u →
        Derives .term (ts ++ .mul :: us) (.bin .mul t u)
  | div {ts us : List (Token V)} {t u : Tree V} :
      Derives .term ts t → Derives .unary us u →
        Derives .term (ts ++ .div :: us) (.bin .div t u)
  | term {ts : List (Token V)} {t : Tree V} :
      Derives .term ts t → Derives .expr ts t
  | add {ts us : List (Token V)} {t u : Tree V} :
      Derives .expr ts t → Derives .term us u →
        Derives .expr (ts ++ .add :: us) (.bin .add t u)
  | sub {ts us : List (Token V)} {t u : Tree V} :
      Derives .expr ts t → Derives .term us u →
        Derives .expr (ts ++ .sub :: us) (.bin .sub t u)

/-- Operands in `R` joined by operators of the level `lv`, folded to the left. -/
inductive LeftChain (lv : Level) (R : List (Token V) → Tree V → Prop) :
    List (Token V) → Tree V → Prop
  | one {ts : List (Token V)} {t : Tree V} : R ts t → LeftChain lv R ts t
  | more {ts us : List (Token V)} {t u : Tree V} {tok : Token V} {op : DagOp} :
      LeftChain lv R ts t → lv.opOf tok.op = some op → R us u →
        LeftChain lv R (ts ++ tok :: us) (.bin op t u)

/-- The operators of the multiplicative level are `*` and `/`. -/
lemma mulLevel_opOf_eq_some {tok : Token V} {op : DagOp} (h : mulLevel.opOf tok.op = some op) :
    (tok = .mul ∧ op = .mul) ∨ (tok = .div ∧ op = .div) := by
  cases tok <;> simp_all [mulLevel, Token.op]

/-- The operators of the additive level are `+` and `-`. -/
lemma addLevel_opOf_eq_some {tok : Token V} {op : DagOp} (h : addLevel.opOf tok.op = some op) :
    (tok = .add ∧ op = .add) ∨ (tok = .sub ∧ op = .sub) := by
  cases tok <;> simp_all [addLevel, Token.op]

/-- A term is a chain of unary expressions. -/
lemma derives_term_iff {ts : List (Token V)} {t : Tree V} :
    Derives .term ts t ↔ LeftChain mulLevel (Derives .unary) ts t := by
  constructor
  · intro h
    generalize hn : Nonterminal.term = nt at h
    induction h with
    | unary h _ => exact .one h
    | mul h hu ih _ => exact .more (ih rfl) rfl hu
    | div h hu ih _ => exact .more (ih rfl) rfl hu
    | _ => cases hn
  · intro h
    induction h with
    | one h => exact .unary h
    | more _ hop hu ih =>
      rcases mulLevel_opOf_eq_some hop with ⟨rfl, rfl⟩ | ⟨rfl, rfl⟩
      · exact .mul ih hu
      · exact .div ih hu

/-- An expression is a chain of terms. -/
lemma derives_expr_iff {ts : List (Token V)} {t : Tree V} :
    Derives .expr ts t ↔ LeftChain addLevel (Derives .term) ts t := by
  constructor
  · intro h
    generalize hn : Nonterminal.expr = nt at h
    induction h with
    | term h _ => exact .one h
    | add h hu ih _ => exact .more (ih rfl) rfl hu
    | sub h hu ih _ => exact .more (ih rfl) rfl hu
    | _ => cases hn
  · intro h
    induction h with
    | one h => exact .term h
    | more _ hop hu ih =>
      rcases addLevel_opOf_eq_some hop with ⟨rfl, rfl⟩ | ⟨rfl, rfl⟩
      · exact .add ih hu
      · exact .sub ih hu

/-! ## What it means that a parser function accepts a set of sentences -/

/-- The operator of the first of some tokens. -/
def headOp (rest : List (Token V)) : LexerOp := (Parser.mk 0 rest).nextOp

/-- The level `lv` does not continue before `rest`. -/
def Level.Stops (lv : Level) (rest : List (Token V)) : Prop := lv.opOf (headOp rest) = none

/-- On inputs of fewer than `k` tokens, `f` accepts the sentences of `R` that are followed by
tokens in `S`, leaves these tokens, and builds the tree of the sentence. -/
structure Recognizes (R : List (Token V) → Tree V → Prop) (S : List (Token V) → Prop) (k : ℕ)
    (f : Parser V → Res V) : Prop where
  /-- what is accepted is a sentence -/
  sound : ∀ {p : Parser V} {d : Dag V} {q : Parser V}, f p = .ok (d, q) →
    ∃ ts, ts ≠ [] ∧ p.rest = ts ++ q.rest ∧ R ts d.tree
  /-- every sentence is accepted -/
  complete : ∀ (p : Parser V) (rest : List (Token V)) {ts : List (Token V)} {t : Tree V},
    p.rest.length < k → R ts t → p.rest = ts ++ rest → S rest →
      ∃ d q, f p = .ok (d, q) ∧ d.tree = t ∧ q.rest = rest
  /-- the bound on the recursion is large enough -/
  total : ∀ {p : Parser V}, p.rest.length < k → f p ≠ .error .outOfFuel

@[simp] lemma nextOp_eq_headOp (p : Parser V) : p.nextOp = headOp p.rest := rfl

@[simp] lemma headOp_cons (t : Token V) (ts : List (Token V)) : headOp (t :: ts) = t.op := rfl

@[simp] lemma rest_forward (p : Parser V) : p.forward.rest = p.rest.tail := rfl

@[simp] lemma rest_mkd (p : Parser V) : p.mkd.rest = p.rest := rfl

/-- Adding a message does not turn a failure into running out of fuel. -/
lemma Failure.traceOnce_ne_outOfFuel {f : Failure} {msg : String} (h : f ≠ .outOfFuel) :
    f.traceOnce msg ≠ .outOfFuel := by
  rcases f with (_ | _) | _ | _ <;> simp_all [Failure.traceOnce]

/-- The error path of a binary level does not turn a failure into running out of fuel. -/
lemma Level.operandFailure_ne_outOfFuel {lv : Level} {op : DagOp} {f : Failure}
    (h : f ≠ .outOfFuel) : lv.operandFailure op f ≠ .outOfFuel := by
  unfold Level.operandFailure
  split
  · exact f.traceOnce_ne_outOfFuel h
  · simp

/-- A level that matches the current token has a current token. -/
lemma Level.exists_rest_eq_cons {lv : Level} {op : DagOp} {rest : List (Token V)}
    (hs : lv.opOf .sentinel = none) (h : lv.opOf (headOp rest) = some op) :
    ∃ tok us, rest = tok :: us ∧ lv.opOf tok.op = some op := by
  cases rest with
  | nil =>
    have hnil : headOp ([] : List (Token V)) = .sentinel := rfl
    rw [hnil, hs] at h
    cases h
  | cons tok us => exact ⟨tok, us, rfl, h⟩

/-! ## The loop of a binary level -/

section Tail

variable {lv : Level} {operand : Parser V → Res V}

/-- Where the level does not continue, its loop returns the dag it has. -/
lemma binaryTail_of_stops {p : Parser V} (left dag : Dag V) (h : lv.Stops p.rest) (fuel : ℕ) :
    binaryTail lv operand (fuel + 1) p left dag = .ok (dag, p) := by
  unfold Level.Stops at h
  simp [binaryTail, h]

/-- The loop is left only where the level does not continue. -/
lemma stops_of_binaryTail {fuel : ℕ} :
    ∀ {p : Parser V} {left dag d : Dag V} {q : Parser V},
      binaryTail lv operand fuel p left dag = .ok (d, q) → lv.Stops q.rest := by
  induction fuel with
  | zero => intro p left dag d q h; simp [binaryTail] at h
  | succ fuel ih =>
    intro p left dag d q h
    rw [binaryTail] at h
    split at h
    · next hop => cases h; exact hop
    · split at h
      · cases h
      · split at h
        · cases h
        · exact ih h

/-- **The loop is a tail recursion.** After the recursive call the level does not continue, so the
second round of the loop, which would build on the original `left` again, never finds an
operator. -/
lemma binaryTail_eq_ok_iff {fuel : ℕ} {p : Parser V} {left dag d : Dag V} {q : Parser V} :
    binaryTail lv operand (fuel + 1) p left dag = .ok (d, q) ↔
      (lv.Stops p.rest ∧ d = dag ∧ q = p) ∨
      ∃ op right q₁, lv.opOf p.nextOp = some op ∧ operand p.mkd.forward = .ok (right, q₁) ∧
        binaryTail lv operand fuel q₁ (.bin op p.mkdId left right)
          (.bin op p.mkdId left right) = .ok (d, q) := by
  constructor
  · intro h
    rw [binaryTail] at h
    split at h
    · next hop =>
      cases h
      exact .inl ⟨hop, rfl, rfl⟩
    · next op hop =>
      split at h
      · cases h
      · next right q₁ hr =>
        split at h
        · cases h
        · next d' q' hrec =>
          refine .inr ⟨op, right, q₁, hop, hr, ?_⟩
          have hstop := stops_of_binaryTail hrec
          cases fuel with
          | zero => simp [binaryTail] at hrec
          | succ fuel =>
            rw [binaryTail_of_stops left d' hstop fuel] at h
            cases h
            exact hrec
  · rintro (⟨hstop, rfl, rfl⟩ | ⟨op, right, q₁, hop, hr, hrec⟩)
    · exact binaryTail_of_stops _ _ hstop _
    · have hstop := stops_of_binaryTail hrec
      cases fuel with
      | zero => simp [binaryTail] at hrec
      | succ fuel =>
        rw [binaryTail]
        simp only [hop, hr, hrec]
        exact binaryTail_of_stops left d hstop fuel

variable {R : List (Token V) → Tree V → Prop} {S : List (Token V) → Prop} {k : ℕ}

/-- What the tail of a level accepts extends any chain that ends in its left operand. -/
lemma binaryTail_sound (hs : lv.opOf .sentinel = none) (hf : Recognizes R S k operand)
    {fuel : ℕ} : ∀ {p : Parser V} {left d : Dag V} {q : Parser V},
      binaryTail lv operand fuel p left left = .ok (d, q) →
      ∃ ts, p.rest = ts ++ q.rest ∧
        ∀ ls, LeftChain lv R ls left.tree → LeftChain lv R (ls ++ ts) d.tree := by
  induction fuel with
  | zero => intro p left d q h; simp [binaryTail] at h
  | succ fuel ih =>
    intro p left d q h
    rcases binaryTail_eq_ok_iff.mp h with ⟨-, rfl, rfl⟩ | ⟨op, right, q₁, hop, hr, hrec⟩
    · exact ⟨[], rfl, fun ls hls => by simpa using hls⟩
    · obtain ⟨tok, us, hrest, htok⟩ := lv.exists_rest_eq_cons hs hop
      obtain ⟨rs, -, hrs, hR⟩ := hf.sound hr
      obtain ⟨ts, hts, hext⟩ := ih hrec
      refine ⟨tok :: (rs ++ ts), ?_, fun ls hls => ?_⟩
      · simp only [rest_forward, rest_mkd, hrest, List.tail_cons] at hrs
        simp [hrest, hrs, hts]
      · have hstep := hext (ls ++ tok :: rs) (.more hls htok hR)
        simpa using hstep

/-- What follows the first operand of a chain, read from the left: `ChainTail lv R l ts t` when
continuing the tree `l` with the operators and operands of `ts` gives `t`. -/
inductive ChainTail (lv : Level) (R : List (Token V) → Tree V → Prop) :
    Tree V → List (Token V) → Tree V → Prop
  | nil (t : Tree V) : ChainTail lv R t [] t
  | cons {l t u : Tree V} {tok : Token V} {us ts : List (Token V)} {op : DagOp} :
      lv.opOf tok.op = some op → R us u → ChainTail lv R (.bin op l u) ts t →
        ChainTail lv R l (tok :: (us ++ ts)) t

/-- A tail may be continued at its end. -/
lemma ChainTail.snoc {l t u : Tree V} {tok : Token V} {ts us : List (Token V)} {op : DagOp}
    (h : ChainTail lv R l ts t) (hop : lv.opOf tok.op = some op) (hu : R us u) :
    ChainTail lv R l (ts ++ tok :: us) (.bin op t u) := by
  induction h with
  | nil t => simpa using ChainTail.cons hop hu (.nil _)
  | cons hop' hu' _ ih => simpa using ChainTail.cons hop' hu' ih

/-- A chain is its first operand and a tail. -/
lemma LeftChain.exists_tail {ts : List (Token V)} {t : Tree V} (h : LeftChain lv R ts t) :
    ∃ us u tail, R us u ∧ ts = us ++ tail ∧ ChainTail lv R u tail t := by
  induction h with
  | one h => exact ⟨_, _, [], h, by simp, .nil _⟩
  | more _ hop hv ih =>
    obtain ⟨us, u, tail, hu, rfl, htail⟩ := ih
    exact ⟨us, u, _, hu, by simp, htail.snoc hop hv⟩

/-- The tail of a level accepts every chain tail that is followed by a token at which both the
level and its operands stop. -/
lemma binaryTail_complete (hf : Recognizes R S k operand)
    (hS : ∀ tok op ts, lv.opOf (Token.op tok) = some op → S (tok :: ts))
    {l t : Tree V} {ts rest : List (Token V)} (h : ChainTail lv R l ts t)
    (hstop : lv.Stops rest) (hrest : S rest) :
    ∀ (fuel : ℕ) (p : Parser V) (left : Dag V), p.rest.length < fuel → p.rest.length < k →
      p.rest = ts ++ rest → left.tree = l →
      ∃ d q, binaryTail lv operand fuel p left left = .ok (d, q) ∧ d.tree = t ∧
        q.rest = rest := by
  induction h with
  | nil t =>
    intro fuel p left hfuel _ hp hleft
    obtain ⟨fuel, rfl⟩ := Nat.exists_eq_add_of_lt hfuel
    refine ⟨left, p, ?_, hleft, by simpa using hp⟩
    exact binaryTail_of_stops left left (by simpa [hp] using hstop) _
  | @cons l t u tok us ts op hop hu htail ih =>
    intro fuel p left hfuel hk hp hleft
    have hlen : p.rest.length = 1 + us.length + ts.length + rest.length := by
      simp [hp]; omega
    -- the operand is followed by the next operator or by `rest`
    have hfollow : S (ts ++ rest) := by
      cases htail with
      | nil => simpa using hrest
      | cons hop' _ _ => exact hS _ _ _ hop'
    obtain ⟨right, q₁, hr, rfl, hq₁⟩ := hf.complete p.mkd.forward (ts ++ rest)
      (by simp; omega) hu (by simp [hp]) hfollow
    obtain ⟨fuel, rfl⟩ : ∃ n, fuel = n + 1 := ⟨fuel - 1, by omega⟩
    have hq₁len : q₁.rest.length = ts.length + rest.length := by simp [hq₁]
    obtain ⟨d, q, hrec, ht, hq⟩ := ih fuel q₁ (.bin op p.mkdId left right) (by omega) (by omega)
      hq₁ (by simp [Dag.tree, hleft])
    refine ⟨d, q, binaryTail_eq_ok_iff.mpr (.inr ⟨op, right, q₁, ?_, hr, hrec⟩), ht, hq⟩
    simpa [hp] using hop

/-- The tail of a level does not run out of fuel. -/
lemma binaryTail_total (hs : lv.opOf .sentinel = none) (hf : Recognizes R S k operand)
    {fuel : ℕ} : ∀ {p : Parser V} {left dag : Dag V}, p.rest.length < fuel →
      p.rest.length < k → binaryTail lv operand fuel p left dag ≠ .error .outOfFuel := by
  induction fuel with
  | zero => intro p left dag hfuel; omega
  | succ fuel ih =>
    intro p left dag hfuel hk
    rw [binaryTail]
    split
    · simp
    · next op hop =>
      obtain ⟨tok, us, hrest, -⟩ := lv.exists_rest_eq_cons hs hop
      have hlen : p.mkd.forward.rest.length + 1 = p.rest.length := by simp [hrest]
      split
      · next f hr =>
        intro h
        refine lv.operandFailure_ne_outOfFuel (fun hf' => ?_) (by simpa using h)
        exact hf.total (by omega) (hf' ▸ hr)
      · next right q hr =>
        obtain ⟨rs, -, hrs, -⟩ := hf.sound hr
        have hq : q.rest.length ≤ p.mkd.forward.rest.length := by rw [hrs]; simp
        split
        · next f hrec =>
          intro h
          refine f.traceOnce_ne_outOfFuel (fun hf' => ?_) (by simpa using h)
          exact ih (by omega) (by omega) (hf' ▸ hrec)
        · next d' q' hrec =>
          obtain ⟨ts, hts, -⟩ := binaryTail_sound hs hf hrec
          have hq' : q'.rest.length ≤ q.rest.length := by simp [hts]
          exact ih (by omega) (by omega)

/-- **A binary level recognizes chains of its operands**, provided its operators may follow an
operand. -/
lemma Recognizes.binaryLevel (hs : lv.opOf .sentinel = none) (hf : Recognizes R S k operand)
    (hS : ∀ tok op ts, lv.opOf (Token.op tok) = some op → S (tok :: ts)) {fuel : ℕ}
    (hfuel : k ≤ fuel) :
    Recognizes (LeftChain lv R) (fun rest => lv.Stops rest ∧ S rest) k
      (binaryLevel lv operand fuel) where
  sound {p d q} h := by
    rw [P1.binaryLevel] at h
    split at h
    · cases h
    · next left q₁ hl =>
      obtain ⟨us, hus, hp, hR⟩ := hf.sound hl
      obtain ⟨ts, hts, hext⟩ := binaryTail_sound hs hf h
      exact ⟨us ++ ts, by simp [hus], by simp [hp, hts], hext us (.one hR)⟩
  complete p rest ts t hk hR hp hrest := by
    obtain ⟨us, u, tail, hu, rfl, htail⟩ := hR.exists_tail
    have hfollow : S (tail ++ rest) := by
      cases htail with
      | nil => simpa using hrest.2
      | cons hop' _ _ => exact hS _ _ _ hop'
    obtain ⟨left, q₁, hl, rfl, hq₁⟩ := hf.complete p (tail ++ rest) hk hu (by simp [hp]) hfollow
    have hlen : q₁.rest.length ≤ p.rest.length := by simp [hp, hq₁]
    obtain ⟨d, q, hrec, ht, hq⟩ := binaryTail_complete hf hS htail hrest.1 hrest.2
      fuel q₁ left (by omega) (by omega) hq₁ rfl
    exact ⟨d, q, by simp [P1.binaryLevel, hl, hrec], ht, hq⟩
  total {p} hk := by
    rw [P1.binaryLevel]
    split
    · next f hl => exact fun h => hf.total hk (by simpa using hl.trans h)
    · next left q₁ hl =>
      obtain ⟨us, -, hp, -⟩ := hf.sound hl
      have hlen : q₁.rest.length ≤ p.rest.length := by simp [hp]
      exact binaryTail_total hs hf (by omega) (by omega)

end Tail

/-! ## Primary and unary expressions -/

/-- The empty condition on what follows. -/
def anyRest (_ : List (Token V)) : Prop := True

/-- An expression is followed by a token at which both binary levels stop. -/
def exprStops (rest : List (Token V)) : Prop :=
  addLevel.Stops rest ∧ mulLevel.Stops rest ∧ anyRest rest

/-- A primary expression is accepted if its sub-expressions are. As the opening parenthesis is
read first, inputs longer by one token are covered. -/
lemma Recognizes.exprPrimary {sub : Parser V → Res V} {k : ℕ}
    (hsub : Recognizes (Derives .expr) exprStops k sub) :
    Recognizes (Derives .primary) anyRest (k + 1) (exprPrimary sub) where
  sound {p d q} h := by
    rcases hp : p.rest with _ | ⟨tok, us⟩
    · simp [P1.exprPrimary, Parser.next, hp] at h
    · cases tok with
      | val v =>
        simp only [P1.exprPrimary, Parser.next, hp, List.head?_cons, Except.ok.injEq,
          Prod.mk.injEq] at h
        obtain ⟨rfl, rfl⟩ := h
        exact ⟨[.val v], by simp, by simp [hp], .val v⟩
      | opn =>
        simp only [P1.exprPrimary, Parser.next, hp, List.head?_cons] at h
        split at h
        · cases h
        · next dag q₁ hs =>
          split at h
          · next hcls =>
            simp only [Except.ok.injEq, Prod.mk.injEq] at h
            obtain ⟨rfl, rfl⟩ := h
            obtain ⟨ts, -, hts, hD⟩ := hsub.sound hs
            obtain ⟨vs, hvs⟩ : ∃ vs, q₁.rest = .cls :: vs := by
              rcases hq : q₁.rest with _ | ⟨tok, vs⟩
              · simp [Parser.matchOp, hq, Parser.nextOp, Parser.next] at hcls
              · cases tok <;> simp [Parser.matchOp, hq, Token.op] at hcls
                exact ⟨vs, rfl⟩
            refine ⟨.opn :: (ts ++ [.cls]), by simp, ?_, .paren hD⟩
            simp only [rest_forward, hp, List.tail_cons] at hts
            simp [hts, hvs]
          · cases h
      | _ => simp [P1.exprPrimary, Parser.next, hp] at h
  complete p rest ts t hk hD hp _ := by
    cases hD with
    | val v =>
      refine ⟨.val p.mkdId v, p.mkd.forward, ?_, rfl, by simp [hp]⟩
      simp [P1.exprPrimary, Parser.next, hp]
    | @paren us _ hD =>
      have hp' : p.forward.rest = us ++ .cls :: rest := by simp [hp]
      have hlen : p.rest.length = p.forward.rest.length + 1 := by simp [hp]
      obtain ⟨d, q, hs, ht, hq⟩ := hsub.complete p.forward (.cls :: rest)
        (by omega) hD hp' ⟨rfl, rfl, trivial⟩
      refine ⟨d, q.forward, ?_, ht, by simp [hq]⟩
      simp [P1.exprPrimary, Parser.next, hp, hs, Parser.matchOp, hq, Token.op]
  total {p} hk := by
    unfold P1.exprPrimary
    split
    · simp
    · next hopn =>
      obtain ⟨us, hus⟩ := List.head?_eq_some_iff.mp hopn
      have hlen : p.forward.rest.length < k := by
        rw [hus, List.length_cons] at hk
        simp [hus]; omega
      split
      · next f hs =>
        intro h
        refine f.traceOnce_ne_outOfFuel (fun hf => ?_) (by simpa using h)
        exact hsub.total hlen (hf ▸ hs)
      · split <;> simp
    · simp

/-- The tokens that start a unary expression with a sign. -/
lemma exprUnary_of_not_sign {sub : Parser V → Res V} {fuel : ℕ} {p : Parser V}
    (hadd : headOp p.rest ≠ .add) (hsub : headOp p.rest ≠ .sub) :
    exprUnary sub (fuel + 1) p = exprPrimary sub p := by
  rw [exprUnary]
  rcases hp : p.rest with _ | ⟨tok, us⟩
  · simp [Parser.next, hp]
  · cases tok <;> simp_all [Parser.next, Token.op]

/-- A primary expression does not start with a sign. -/
lemma Derives.primary_head {ts : List (Token V)} {t : Tree V} (h : Derives .primary ts t)
    (rest : List (Token V)) :
    headOp (ts ++ rest) ≠ .add ∧ headOp (ts ++ rest) ≠ .sub := by
  cases h <;> simp [Token.op]

section Unary

variable {sub : Parser V → Res V} {k : ℕ}

/-- What `expr_unary` accepts is a unary expression. -/
lemma exprUnary_sound (hprim : Recognizes (Derives .primary) anyRest k (exprPrimary sub))
    {fuel : ℕ} : ∀ {p : Parser V} {d : Dag V} {q : Parser V},
      exprUnary sub fuel p = .ok (d, q) →
      ∃ ts, ts ≠ [] ∧ p.rest = ts ++ q.rest ∧ Derives .unary ts d.tree := by
  induction fuel with
  | zero => intro p d q h; simp [P1.exprUnary] at h
  | succ fuel ih =>
    intro p d q h
    rw [P1.exprUnary] at h
    split at h
    · next hnext =>
      obtain ⟨us, hus⟩ := List.head?_eq_some_iff.mp hnext
      split at h
      · cases h
      · next r hr =>
        cases h
        obtain ⟨ts, -, hts, hD⟩ := ih hr
        simp only [rest_forward, hus, List.tail_cons] at hts
        exact ⟨.add :: ts, by simp, by simp [hus, hts], .plus hD⟩
    · next hnext =>
      obtain ⟨us, hus⟩ := List.head?_eq_some_iff.mp hnext
      split at h
      · cases h
      · next right q₁ hr =>
        cases h
        obtain ⟨ts, -, hts, hD⟩ := ih hr
        simp only [rest_forward, rest_mkd, hus, List.tail_cons] at hts
        exact ⟨.sub :: ts, by simp, by simp [hus, hts], .minus hD⟩
    · obtain ⟨ts, hne, hts, hD⟩ := hprim.sound h
      exact ⟨ts, hne, hts, .primary hD⟩

/-- Every unary expression is accepted by `expr_unary`. -/
lemma exprUnary_complete (hprim : Recognizes (Derives .primary) anyRest k (exprPrimary sub))
    {fuel : ℕ} : ∀ (p : Parser V) (rest : List (Token V)) {ts : List (Token V)} {t : Tree V},
      p.rest.length < fuel → p.rest.length < k → Derives .unary ts t → p.rest = ts ++ rest →
      ∃ d q, exprUnary sub fuel p = .ok (d, q) ∧ d.tree = t ∧ q.rest = rest := by
  induction fuel with
  | zero => intro p rest ts t hfuel; omega
  | succ fuel ih =>
    intro p rest ts t hfuel hk hD hp
    cases hD with
    | @plus us _ hD =>
      have hlen : p.rest.length = us.length + rest.length + 1 := by simp [hp]
      obtain ⟨d, q, hr, ht, hq⟩ := ih p.forward rest (by simp; omega)
        (by simp; omega) hD (by simp [hp])
      exact ⟨d, q, by simp [P1.exprUnary, Parser.next, hp, hr], ht, hq⟩
    | @minus us _ hD =>
      have hlen : p.rest.length = us.length + rest.length + 1 := by simp [hp]
      obtain ⟨d, q, hr, ht, hq⟩ := ih p.mkd.forward rest (by simp; omega)
        (by simp; omega) hD (by simp [hp])
      exact ⟨.neg p.mkdId d, q, by simp [P1.exprUnary, Parser.next, hp, hr],
        by simp [Dag.tree, ht], hq⟩
    | primary hD =>
      obtain ⟨hadd, hsub⟩ := hD.primary_head rest
      rw [exprUnary_of_not_sign (hp ▸ hadd) (hp ▸ hsub)]
      exact hprim.complete p rest hk hD hp trivial

/-- `expr_unary` does not run out of fuel. -/
lemma exprUnary_total (hprim : Recognizes (Derives .primary) anyRest k (exprPrimary sub))
    {fuel : ℕ} : ∀ {p : Parser V}, p.rest.length < fuel → p.rest.length < k →
      exprUnary sub fuel p ≠ .error .outOfFuel := by
  induction fuel with
  | zero => intro p hfuel; omega
  | succ fuel ih =>
    intro p hfuel hk
    rw [P1.exprUnary]
    split
    · next hnext =>
      obtain ⟨us, hus⟩ := List.head?_eq_some_iff.mp hnext
      have hlen : p.forward.rest.length + 1 = p.rest.length := by simp [hus]
      split
      · next f hr =>
        intro h
        refine f.traceOnce_ne_outOfFuel (fun hf => ?_) (by simpa using h)
        exact ih (by omega) (by omega) (hf ▸ hr)
      · simp
    · next hnext =>
      obtain ⟨us, hus⟩ := List.head?_eq_some_iff.mp hnext
      have hlen : p.mkd.forward.rest.length + 1 = p.rest.length := by simp [hus]
      split
      · next f hr =>
        intro h
        refine f.traceOnce_ne_outOfFuel (fun hf => ?_) (by simpa using h)
        exact ih (by omega) (by omega) (hf ▸ hr)
      · simp
    · exact hprim.total hk

/-- **A unary expression is recognized** if sub-expressions are. -/
lemma Recognizes.exprUnary (hsub : Recognizes (Derives .expr) exprStops k sub) {fuel : ℕ}
    (hfuel : k + 1 ≤ fuel) :
    Recognizes (Derives .unary) anyRest (k + 1) (exprUnary sub fuel) where
  sound := exprUnary_sound (.exprPrimary hsub)
  complete p rest _ _ hk hD hp _ :=
    exprUnary_complete (.exprPrimary hsub) p rest (by omega) hk hD hp
  total hk := exprUnary_total (.exprPrimary hsub) (by omega) hk

end Unary

/-! ## Expressions -/

/-- The sentences and the follow condition of `Recognizes` may be replaced by equivalent ones. -/
lemma Recognizes.congr {R R' : List (Token V) → Tree V → Prop} {S S' : List (Token V) → Prop}
    {k : ℕ} {f : Parser V → Res V} (h : Recognizes R S k f) (hR : ∀ ts t, R ts t ↔ R' ts t)
    (hS : ∀ ts, S' ts → S ts) : Recognizes R' S' k f where
  sound hf := by
    obtain ⟨ts, hne, hts, hd⟩ := h.sound hf
    exact ⟨ts, hne, hts, (hR _ _).mp hd⟩
  complete p rest _ _ hk hr hp hs := h.complete p rest hk ((hR _ _).mpr hr) hp (hS _ hs)
  total := h.total

/-- A smaller bound on the length of the input asks for less. -/
lemma Recognizes.mono {R : List (Token V) → Tree V → Prop} {S : List (Token V) → Prop}
    {j k : ℕ} {f : Parser V → Res V} (h : Recognizes R S k f) (hjk : j ≤ k) :
    Recognizes R S j f where
  sound := h.sound
  complete p rest _ _ hk := h.complete p rest (Nat.lt_of_lt_of_le hk hjk)
  total hk := h.total (Nat.lt_of_lt_of_le hk hjk)

/-- `expr_multiplicative` recognizes terms. -/
lemma Recognizes.exprMultiplicative {sub : Parser V → Res V} {k fuel : ℕ}
    (hsub : Recognizes (Derives .expr) exprStops k sub) (hfuel : k + 1 ≤ fuel) :
    Recognizes (Derives .term) (fun rest => mulLevel.Stops rest ∧ anyRest rest) (k + 1)
      (exprMultiplicative sub fuel) :=
  (Recognizes.binaryLevel rfl (.exprUnary hsub hfuel) (fun _ _ _ _ => trivial) hfuel).congr
    (fun _ _ => derives_term_iff.symm) (fun _ h => h)

/-- `expr_additive` recognizes expressions. -/
lemma Recognizes.exprAdditive {sub : Parser V → Res V} {k fuel : ℕ}
    (hsub : Recognizes (Derives .expr) exprStops k sub) (hfuel : k + 1 ≤ fuel) :
    Recognizes (Derives .expr) exprStops (k + 1) (exprAdditive sub fuel) := by
  have hfollow : ∀ (tok : Token V) (op : DagOp) (ts : List (Token V)),
      addLevel.opOf tok.op = some op → mulLevel.Stops (tok :: ts) ∧ anyRest (tok :: ts) := by
    intro tok op ts hop
    rcases addLevel_opOf_eq_some hop with ⟨rfl, -⟩ | ⟨rfl, -⟩ <;> exact ⟨rfl, trivial⟩
  exact (Recognizes.binaryLevel rfl (.exprMultiplicative hsub hfuel) hfollow hfuel).congr
    (fun _ _ => derives_expr_iff.symm) (fun _ h => h)

/-- **`expr` recognizes expressions**, on every input shorter than its bound. -/
lemma Recognizes.expr : ∀ k : ℕ, Recognizes (V := V) (Derives .expr) exprStops k (expr k)
  | 0 => {
      sound := fun h => by simp [P1.expr] at h
      complete := fun _ _ _ _ hk => by omega
      total := fun hk => by omega }
  | k + 1 => Recognizes.exprAdditive (Recognizes.expr k) (Nat.le_refl _)

/-- The end of the input follows an expression. -/
lemma exprStops_nil : exprStops ([] : List (Token V)) := ⟨rfl, rfl, trivial⟩

/-- Only the end of the input reads as the sentinel. -/
lemma matchOp_sentinel_iff (p : Parser V) : p.matchOp .sentinel = true ↔ p.rest = [] := by
  rcases hp : p.rest with _ | ⟨tok, us⟩
  · simp [Parser.matchOp, Parser.nextOp, Parser.next, hp]
  · cases tok <;> simp [Parser.matchOp, hp, Token.op]

/-- `top` never runs out of fuel: it returns a dag or fails as the source does. -/
theorem top_ne_outOfFuel (p : Parser V) : top p ≠ .error .outOfFuel := by
  unfold top
  split
  · next f hf =>
    intro h
    refine f.traceOnce_ne_outOfFuel (fun hf' => ?_) (by simpa using h)
    exact (Recognizes.expr _).total (Nat.lt_succ_self _) (hf' ▸ hf)
  · split <;> simp

/-- **The parser accepts exactly its grammar and builds the left-associative tree.** `top`
succeeds on a token sequence if and only if the sequence derives from `expr`, and the trees that
the sequence derives with are those of the dag that `top` returns, up to its ids.

**Proof sketch.** `Recognizes.expr` at a bound above the length of the input. A dag that is
returned was left at the end of the input (`matchOp_sentinel_iff`), so the sentence is the whole
input; a sentence is followed by the end of the input, at which both levels stop. -/
theorem top_derives (tokens : List (Token V)) :
    ((∃ d q, top (Parser.init tokens) = .ok (d, q)) ↔ ∃ t, Derives .expr tokens t) ∧
    ∀ t, Derives .expr tokens t ↔
      ∃ d q, top (Parser.init tokens) = .ok (d, q) ∧ d.tree = t := by
  have hexpr := Recognizes.expr (V := V) ((Parser.init tokens).rest.length + 1)
  have hcomplete : ∀ t, Derives .expr tokens t →
      ∃ d q, top (Parser.init tokens) = .ok (d, q) ∧ d.tree = t := by
    intro t ht
    obtain ⟨d, q, hd, hdt, hq⟩ := hexpr.complete (Parser.init tokens) [] (Nat.lt_succ_self _)
      ht (by simp [Parser.init]) exprStops_nil
    exact ⟨d, q, by simp [top, hd, (matchOp_sentinel_iff q).mpr hq], hdt⟩
  have hsound : ∀ d q, top (Parser.init tokens) = .ok (d, q) → Derives .expr tokens d.tree := by
    intro d q h
    unfold top at h
    split at h
    · cases h
    · next d' q' hd =>
      split at h
      · next hstop =>
        cases h
        obtain ⟨ts, -, hts, hD⟩ := hexpr.sound hd
        rw [(matchOp_sentinel_iff _).mp hstop, List.append_nil] at hts
        exact (show tokens = ts from hts) ▸ hD
      · cases h
  refine ⟨⟨fun ⟨d, q, h⟩ => ⟨d.tree, hsound d q h⟩, fun ⟨t, ht⟩ => ?_⟩,
    fun t => ⟨hcomplete t, fun ⟨d, q, h, hd⟩ => hd ▸ hsound d q h⟩⟩
  obtain ⟨d, q, hd, -⟩ := hcomplete t ht
  exact ⟨d, q, hd⟩

end Cs238p.P1
