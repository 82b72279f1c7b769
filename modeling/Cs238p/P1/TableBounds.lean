import Cs238p.P1.Grammar
import Cs238p.P1.Lexer

set_option relaxedAutoImplicit false
set_option autoImplicit false

/-!
# The tables of operator names

Where an operand is missing, `expr_multiplicative_` and `expr_additive_` look up the name of the
operator in a table of two entries, at the index `dag->op - PARSER_DAG_MUL`. For `*` and `/` this is
`0` or `1`, for `+` and `-` it is `2` or `3`. So the parser reads outside of a table exactly if it
reaches a `+` or `-` between two operands that no complete term follows.

## Main definitions

* `StartsTerm` — the tokens begin with a term that is not followed by `*` or `/`.
* `Dangling` — somewhere in the tokens, a `+` or `-` that no complete term follows is reached.
* `parserOpenText` — `parser_open`, from the text on.

## Main results

* `binaryTail_overruns` — where the loop of a binary level reads outside of its table.
* `tables_inBounds_iff` — when the parser reads no table outside of its bounds.
-/

namespace Cs238p.P1

variable {V : Type}

/-! ## Operators without a right operand -/

/-- The tokens begin with a term that is not followed by `*` or `/`. -/
def StartsTerm (ts : List (Token V)) : Prop :=
  ∃ us u rest, ts = us ++ rest ∧ Derives .term us u ∧ mulLevel.Stops rest

/-- `Dangling nt ts`: read as `nt`, the tokens `ts` lead to a `+` or `-` between two operands that
no complete term follows. -/
inductive Dangling : Nonterminal → List (Token V) → Prop
  | paren {ts : List (Token V)} : Dangling .expr ts → Dangling .primary (.opn :: ts)
  | sign {tok : Token V} {ts : List (Token V)} :
      tok = .add ∨ tok = .sub → Dangling .unary ts → Dangling .unary (tok :: ts)
  | primary {ts : List (Token V)} : Dangling .primary ts → Dangling .unary ts
  | unary {ts : List (Token V)} : Dangling .unary ts → Dangling .term ts
  | factor {us ts : List (Token V)} {u : Tree V} {tok : Token V} :
      Derives .term us u → tok = .mul ∨ tok = .div → Dangling .unary ts →
        Dangling .term (us ++ tok :: ts)
  | term {ts : List (Token V)} : Dangling .term ts → Dangling .expr ts
  | operand {us ts : List (Token V)} {u : Tree V} {tok : Token V} :
      Derives .expr us u → tok = .add ∨ tok = .sub → ¬ StartsTerm ts →
        Dangling .expr (us ++ tok :: ts)

/-! ## Where a parser function reads outside of a table -/

/-- On inputs of fewer than `k` tokens, `f` reads outside of a table exactly on those in `D`. -/
def Overruns (D : List (Token V) → Prop) (k : ℕ) (f : Parser V → Res V) : Prop :=
  ∀ p : Parser V, p.rest.length < k → ((∃ i, f p = .error (.tableIndex i)) ↔ D p.rest)

/-- A message does not change an index. -/
@[simp] lemma Failure.traceOnce_eq_tableIndex {f : Failure} {msg : String} {i : ℕ} :
    f.traceOnce msg = .tableIndex i ↔ f = .tableIndex i := by
  rcases f with (_ | _) | _ | _ <;> simp [Failure.traceOnce]

section Tail

variable {lv : Level} {operand : Parser V → Res V} {R : List (Token V) → Tree V → Prop}
  {S D : List (Token V) → Prop} {k : ℕ}

/-- On inputs of fewer than `k` tokens, the error path of the level reads outside of its table
exactly if the operand is in `D`. -/
def OperandOverruns (lv : Level) (D : List (Token V) → Prop) (k : ℕ) (operand : Parser V → Res V) :
    Prop :=
  ∀ (tok : Token V) (op : DagOp), lv.opOf tok.op = some op → ∀ p : Parser V, p.rest.length < k →
    ((∃ f i, operand p = .error f ∧ lv.operandFailure op f = .tableIndex i) ↔ D p.rest)

/-- A tail extends any chain of the tree that it continues. -/
lemma ChainTail.chain {l t : Tree V} {us ts : List (Token V)} (h : ChainTail lv R l ts t)
    (hl : LeftChain lv R us l) : LeftChain lv R (us ++ ts) t := by
  induction h generalizing us with
  | nil t => rwa [List.append_nil]
  | @cons l t u tok vs ts op hop hu _ ih => simpa using ih (hl.more hop hu)

/-- If the loop reads outside of the table, it has reached an operator whose operand is in `D`. -/
lemma exists_of_binaryTail (hs : lv.opOf .sentinel = none) (hf : Recognizes R S k operand)
    (hD : OperandOverruns lv D k operand) {fuel : ℕ} : ∀ {p : Parser V} {left : Dag V} {i : ℕ},
      p.rest.length < k → binaryTail lv operand fuel p left left = .error (.tableIndex i) →
      ∃ ts t tok op rest, p.rest = ts ++ tok :: rest ∧ ChainTail lv R left.tree ts t ∧
        lv.opOf (Token.op tok) = some op ∧ D rest := by
  induction fuel with
  | zero => intro p left i _ h; simp [binaryTail] at h
  | succ fuel ih =>
    intro p left i hk h
    rw [binaryTail] at h
    split at h
    · cases h
    · next op hop =>
      obtain ⟨tok, us, (hrest : p.rest = tok :: us), htok⟩ := lv.exists_rest_eq_cons hs hop
      have hus : p.mkd.forward.rest = us := by simp [hrest]
      have hlen : us.length < k := by rw [hrest, List.length_cons] at hk; omega
      split at h
      · next f hr =>
        have hover := (hD tok op htok p.mkd.forward (by rwa [hus])).mp
          ⟨f, i, hr, by simpa using h⟩
        exact ⟨[], left.tree, tok, op, us, hrest, .nil _, htok, hus ▸ hover⟩
      · next right q hr =>
        obtain ⟨rs, -, hrs, hR⟩ := hf.sound hr
        split at h
        · next f hrec =>
          have hf' : f = .tableIndex i := by simpa using h
          rw [hf'] at hrec
          have hq : q.rest.length < k := by
            rw [← hus, hrs, List.length_append] at hlen
            omega
          obtain ⟨ts, t, tok', op', rest, hts, htail, htok', hrest'⟩ := ih hq hrec
          refine ⟨tok :: (rs ++ ts), t, tok', op', rest, ?_, .cons htok hR htail, htok', hrest'⟩
          rw [hrest, ← hus, hrs, hts]
          simp
        · next d' q' hrec =>
          -- after the recursive call the level does not continue
          have hstop := stops_of_binaryTail hrec
          cases fuel with
          | zero => simp [binaryTail] at hrec
          | succ fuel =>
            rw [binaryTail_of_stops left d' hstop fuel] at h
            cases h

/-- If an operator whose operand is in `D` is reached, the loop reads outside of the table. -/
lemma ChainTail.overruns (hf : Recognizes R S k operand)
    (hS : ∀ tok op ts, lv.opOf (Token.op tok) = some op → S (tok :: ts))
    (hD : OperandOverruns lv D k operand) {l t : Tree V} {ts rest : List (Token V)} {tok : Token V}
    {op : DagOp} (h : ChainTail lv R l ts t) (htok : lv.opOf tok.op = some op) (hrest : D rest) :
    ∀ (fuel : ℕ) (p : Parser V) (left : Dag V), p.rest.length < fuel → p.rest.length < k →
      p.rest = ts ++ tok :: rest → left.tree = l →
      ∃ i, binaryTail lv operand fuel p left left = .error (.tableIndex i) := by
  induction h with
  | nil t =>
    intro fuel p left hfuel hk hp _
    rw [List.nil_append] at hp
    obtain ⟨fuel, rfl⟩ : ∃ n, fuel = n + 1 := ⟨fuel - 1, by omega⟩
    have hus : p.mkd.forward.rest = rest := by simp [hp]
    have hlen : rest.length < k := by rw [hp, List.length_cons] at hk; omega
    obtain ⟨f, i, hr, hfail⟩ := (hD tok op htok p.mkd.forward (by rwa [hus])).mpr (hus.symm ▸ hrest)
    have hop : lv.opOf p.nextOp = some op := by simpa [hp] using htok
    exact ⟨i, by rw [binaryTail, hop]; simp only [hr, hfail]⟩
  | @cons l t u tok' us ts op' hop hu htail ih =>
    intro fuel p left hfuel hk hp hleft
    have hlen : p.rest.length = 1 + us.length + ts.length + (rest.length + 1) := by
      simp [hp]; omega
    -- the operand is followed by an operator of the level
    have hfollow : S (ts ++ tok :: rest) := by
      cases htail with
      | nil => exact hS _ _ _ htok
      | cons hop' _ _ => exact hS _ _ _ hop'
    obtain ⟨right, q, hr, rfl, hq⟩ := hf.complete p.mkd.forward (ts ++ tok :: rest)
      (by simp; omega) hu (by simp [hp]) hfollow
    obtain ⟨fuel, rfl⟩ : ∃ n, fuel = n + 1 := ⟨fuel - 1, by omega⟩
    have hqlen : q.rest.length = ts.length + (rest.length + 1) := by simp [hq]
    obtain ⟨i, hrec⟩ := ih fuel q (.bin op' p.mkdId left right) (by omega) (by omega) hq
      (by simp [Dag.tree, hleft])
    have hop' : lv.opOf p.nextOp = some op' := by simpa [hp] using hop
    exact ⟨i, by rw [binaryTail, hop']; simp only [hr, hrec, Failure.traceOnce]⟩

/-- **A binary level reads outside of a table** exactly if its first operand does, or it reaches an
operator whose operand is in `D`. -/
lemma Overruns.binaryLevel {B : List (Token V) → Prop} (hs : lv.opOf .sentinel = none)
    (hf : Recognizes R S k operand)
    (hS : ∀ tok op ts, lv.opOf (Token.op tok) = some op → S (tok :: ts))
    (hB : Overruns B k operand) (hD : OperandOverruns lv D k operand) {fuel : ℕ}
    (hfuel : k ≤ fuel) :
    Overruns (fun input => B input ∨ ∃ ts t tok op rest, input = ts ++ tok :: rest ∧
      LeftChain lv R ts t ∧ lv.opOf (Token.op tok) = some op ∧ D rest) k
      (binaryLevel lv operand fuel) := by
  intro p hk
  constructor
  · rintro ⟨i, h⟩
    rw [P1.binaryLevel] at h
    split at h
    · next f hl => exact .inl ((hB p hk).mp ⟨i, by rw [hl, ← h]⟩)
    · next left q hl =>
      obtain ⟨us, -, hus, hR⟩ := hf.sound hl
      have hq : q.rest.length < k := by rw [hus, List.length_append] at hk; omega
      obtain ⟨ts, t, tok, op, rest, hts, htail, htok, hrest⟩ := exists_of_binaryTail hs hf hD hq h
      refine .inr ⟨us ++ ts, t, tok, op, rest, by rw [hus, hts, List.append_assoc], ?_, htok, hrest⟩
      exact htail.chain (.one hR)
  · rintro (hb | ⟨ts, t, tok, op, rest, hp, hchain, htok, hrest⟩)
    · obtain ⟨i, hl⟩ := (hB p hk).mpr hb
      exact ⟨i, by rw [P1.binaryLevel, hl]⟩
    · obtain ⟨us, u, tail, hu, rfl, htail⟩ := hchain.exists_tail
      have hfollow : S (tail ++ tok :: rest) := by
        cases htail with
        | nil => exact hS _ _ _ htok
        | cons hop' _ _ => exact hS _ _ _ hop'
      obtain ⟨left, q, hl, rfl, hq⟩ :=
        hf.complete p (tail ++ tok :: rest) hk hu (by simp [hp]) hfollow
      have hlen : q.rest.length ≤ p.rest.length := by simp [hp, hq]
      obtain ⟨i, hrec⟩ :=
        htail.overruns hf hS hD htok hrest fuel q left (by omega) (by omega) hq rfl
      exact ⟨i, by simp [P1.binaryLevel, hl, hrec]⟩

end Tail

/-! ## Primary and unary expressions -/

section Levels

variable {sub : Parser V → Res V} {k : ℕ}

/-- A function that passes on the failures of a part, with a message, and has no others of the kind
reads outside of a table exactly if the part does. -/
lemma overruns_iff_of_passes {whole part : Res V} {msg : String}
    (herror : ∀ f, part = .error f → whole = .error (f.traceOnce msg))
    (hok : ∀ r, part = .ok r → ∀ i, whole ≠ .error (.tableIndex i)) :
    (∃ i, whole = .error (.tableIndex i)) ↔ ∃ i, part = .error (.tableIndex i) := by
  cases hpart : part with
  | error f =>
    rw [herror f hpart]
    simp only [Except.error.injEq, Failure.traceOnce_eq_tableIndex]
  | ok r =>
    constructor
    · rintro ⟨i, h⟩
      exact absurd h (hok r hpart i)
    · rintro ⟨i, h⟩
      cases h

/-- Behind an opening parenthesis, the expression in the parentheses reads outside of a table. -/
lemma dangling_paren_iff {us : List (Token V)} :
    Dangling .primary (.opn :: us) ↔ Dangling .expr us := by
  constructor
  · intro h
    cases h with
    | paren h => exact h
  · exact .paren

/-- A primary expression reads outside of a table exactly if the expression in its parentheses
does. -/
lemma Overruns.exprPrimary (hsub : Overruns (Dangling .expr) k sub) :
    Overruns (Dangling .primary) (k + 1) (exprPrimary sub) := by
  intro p hk
  rcases hp : p.rest with _ | ⟨tok, us⟩
  · constructor
    · rintro ⟨i, h⟩
      simp [P1.exprPrimary, Parser.next, hp] at h
    · intro h
      cases h
  · cases tok with
    | opn =>
      have hus : p.forward.rest = us := by simp [hp]
      have hlen : p.forward.rest.length < k := by
        rw [hp, List.length_cons] at hk
        rw [hus]
        omega
      rw [dangling_paren_iff, ← hus, ← hsub p.forward hlen]
      refine @overruns_iff_of_passes _ _ _ "invalid sub-expression" (fun f hs => ?_)
        fun r hs i h => ?_
      · rw [P1.exprPrimary, Parser.next, hp]
        simp only [List.head?_cons, hs]
      · rw [P1.exprPrimary, Parser.next, hp] at h
        simp only [List.head?_cons, hs] at h
        split at h <;> cases h
    | _ =>
      constructor
      · rintro ⟨i, h⟩
        simp [P1.exprPrimary, Parser.next, hp] at h
      · intro h
        cases h

/-- The tokens that begin with a sign. -/
lemma exists_eq_sign_cons {tok : Token V} {ts : List (Token V)} (htok : tok = .add ∨ tok = .sub)
    (h : headOp ts = tok.op) : ∃ us, ts = tok :: us := by
  rcases ts with _ | ⟨t, us⟩
  · rcases htok with rfl | rfl <;> cases h
  · refine ⟨us, ?_⟩
    rcases htok with rfl | rfl <;> cases t <;> simp_all [Token.op]

/-- Behind a sign, the operand of the sign reads outside of a table. -/
lemma dangling_sign_iff {tok : Token V} {us : List (Token V)} (htok : tok = .add ∨ tok = .sub) :
    Dangling .unary (tok :: us) ↔ Dangling .unary us := by
  constructor
  · intro h
    cases h with
    | sign _ h => exact h
    | primary h => rcases htok with rfl | rfl <;> cases h
  · exact .sign htok

/-- Without a sign, the primary expression reads outside of a table. -/
lemma dangling_unary_iff {us : List (Token V)} (hadd : headOp us ≠ .add) (hsub : headOp us ≠ .sub) :
    Dangling .unary us ↔ Dangling .primary us := by
  constructor
  · intro h
    cases h with
    | sign htok _ => rcases htok with rfl | rfl <;> contradiction
    | primary h => exact h
  · exact .primary

/-- A unary expression reads outside of a table exactly if its primary expression does. -/
lemma Overruns.exprUnary (hsub : Overruns (Dangling .expr) k sub) {fuel : ℕ}
    (hfuel : k + 1 ≤ fuel) : Overruns (Dangling .unary) (k + 1) (exprUnary sub fuel) := by
  have hprim := hsub.exprPrimary
  suffices h : ∀ p : Parser V, p.rest.length < fuel → p.rest.length < k + 1 →
      ((∃ i, P1.exprUnary sub fuel p = .error (.tableIndex i)) ↔ Dangling .unary p.rest) from
    fun p hk => h p (by omega) hk
  clear hfuel
  induction fuel with
  | zero => intro p hfuel; omega
  | succ fuel ih =>
    intro p hfuel hk
    -- a sign is read, and then its operand
    have hsign {tok : Token V} {us : List (Token V)} {q : Parser V} (msg : String)
        (htok : tok = .add ∨ tok = .sub) (hp : p.rest = tok :: us) (hq : q.rest = us)
        (herror : ∀ f, P1.exprUnary sub fuel q = .error f →
          P1.exprUnary sub (fuel + 1) p = .error (f.traceOnce msg))
        (hok : ∀ r, P1.exprUnary sub fuel q = .ok r →
          ∀ i, P1.exprUnary sub (fuel + 1) p ≠ .error (.tableIndex i)) :
        ((∃ i, P1.exprUnary sub (fuel + 1) p = .error (.tableIndex i)) ↔
          Dangling .unary p.rest) := by
      rw [hp, List.length_cons] at hfuel hk
      rw [overruns_iff_of_passes herror hok, hp, dangling_sign_iff htok, ← hq]
      exact ih q (by rw [hq]; omega) (by rw [hq]; omega)
    by_cases hadd : headOp p.rest = .add
    · obtain ⟨us, hp⟩ := exists_eq_sign_cons (.inl rfl) hadd
      refine hsign (q := p.forward) "invalid unary '+' operand" (.inl rfl) hp (by simp [hp])
        (fun f hf => ?_) fun r hr i h => ?_
      · rw [P1.exprUnary, Parser.next, hp]
        simp only [List.head?_cons, hf]
      · rw [P1.exprUnary, Parser.next, hp] at h
        simp [hr] at h
    · by_cases hsub' : headOp p.rest = .sub
      · obtain ⟨us, hp⟩ := exists_eq_sign_cons (.inr rfl) hsub'
        refine hsign (q := p.mkd.forward) "invalid unary '-' operand" (.inr rfl) hp (by simp [hp])
          (fun f hf => ?_) fun r hr i h => ?_
        · rw [P1.exprUnary, Parser.next, hp]
          simp only [List.head?_cons, hf]
        · rw [P1.exprUnary, Parser.next, hp] at h
          simp [hr] at h
      · rw [exprUnary_of_not_sign hadd hsub', hprim p hk, dangling_unary_iff hadd hsub']

end Levels

/-! ## Expressions -/

/-- The error path of `expr_multiplicative_` reads within its table. -/
lemma operandOverruns_mul {D : List (Token V) → Prop} {k : ℕ} {operand : Parser V → Res V}
    (h : Overruns D k operand) : OperandOverruns mulLevel D k operand := by
  intro tok op hop p hk
  rw [← h p hk]
  have hfail (f : Failure) (i : ℕ) :
      mulLevel.operandFailure op f = .tableIndex i ↔ f = .tableIndex i := by
    rcases mulLevel_opOf_eq_some hop with ⟨-, rfl⟩ | ⟨-, rfl⟩ <;>
      exact Failure.traceOnce_eq_tableIndex
  constructor
  · rintro ⟨f, i, hf, hi⟩
    exact ⟨i, by rw [hf, (hfail f i).mp hi]⟩
  · rintro ⟨i, hi⟩
    exact ⟨_, i, hi, (hfail _ i).mpr rfl⟩

/-- `expr_multiplicative` returns a dag exactly on tokens that begin with a term. -/
lemma exprMultiplicative_ok_iff {sub : Parser V → Res V} {k fuel : ℕ}
    (h : Recognizes (Derives .expr) exprStops k sub) (hfuel : k + 1 ≤ fuel) {p : Parser V}
    (hk : p.rest.length < k + 1) :
    (∃ r, exprMultiplicative sub fuel p = .ok r) ↔ StartsTerm p.rest := by
  have hterm := Recognizes.exprMultiplicative h hfuel
  constructor
  · rintro ⟨⟨d, q⟩, hok⟩
    obtain ⟨us, -, hus, hD⟩ := hterm.sound hok
    refine ⟨us, d.tree, q.rest, hus, hD, ?_⟩
    rw [exprMultiplicative] at hok
    split at hok
    · cases hok
    · exact stops_of_binaryTail hok
  · rintro ⟨us, u, rest, hus, hD, hstop⟩
    obtain ⟨d, q, hok, -⟩ := hterm.complete p rest hk hD hus ⟨hstop, trivial⟩
    exact ⟨_, hok⟩

/-- **The error path of `expr_additive_` always reads outside of its table**: the indices of `+` and
`-` are those of the table of `*` and `/`, plus two. -/
lemma operandOverruns_add {sub : Parser V → Res V} {k fuel : ℕ}
    (h : Recognizes (Derives .expr) exprStops k sub) (hfuel : k + 1 ≤ fuel) :
    OperandOverruns addLevel (fun ts => ¬ StartsTerm ts) (k + 1) (exprMultiplicative sub fuel) := by
  intro tok op hop p hk
  show _ ↔ ¬ StartsTerm p.rest
  rw [← exprMultiplicative_ok_iff h hfuel hk]
  constructor
  · rintro ⟨f, i, hf, -⟩ ⟨r, hr⟩
    rw [hf] at hr
    cases hr
  · intro hnot
    cases hr : exprMultiplicative sub fuel p with
    | ok r => exact absurd ⟨r, hr⟩ hnot
    | error f =>
      rcases addLevel_opOf_eq_some hop with ⟨-, rfl⟩ | ⟨-, rfl⟩
      · exact ⟨f, 2, rfl, rfl⟩
      · exact ⟨f, 3, rfl, rfl⟩

/-- The operators of the multiplicative level. -/
lemma exists_mulLevel_opOf {tok : Token V} (h : tok = .mul ∨ tok = .div) :
    ∃ op, mulLevel.opOf tok.op = some op := by
  rcases h with rfl | rfl <;> exact ⟨_, rfl⟩

/-- The operators of the additive level. -/
lemma exists_addLevel_opOf {tok : Token V} (h : tok = .add ∨ tok = .sub) :
    ∃ op, addLevel.opOf tok.op = some op := by
  rcases h with rfl | rfl <;> exact ⟨_, rfl⟩

/-- `expr_multiplicative` reads outside of a table exactly on dangling tokens. -/
lemma Overruns.exprMultiplicative {sub : Parser V → Res V} {k fuel : ℕ}
    (hrec : Recognizes (Derives .expr) exprStops k sub) (h : Overruns (Dangling .expr) k sub)
    (hfuel : k + 1 ≤ fuel) : Overruns (Dangling .term) (k + 1) (exprMultiplicative sub fuel) := by
  have hunary := h.exprUnary hfuel
  have hlevel := Overruns.binaryLevel rfl (Recognizes.exprUnary hrec hfuel)
    (fun _ _ _ _ => trivial) hunary (operandOverruns_mul hunary) hfuel
  intro p hk
  refine (hlevel p hk).trans ⟨?_, fun hterm => ?_⟩
  · rintro (hu | ⟨ts, t, tok, op, rest, hp, hchain, hop, hrest⟩)
    · exact .unary hu
    · rw [hp]
      refine .factor (derives_term_iff.mpr hchain) ?_ hrest
      exact (mulLevel_opOf_eq_some hop).imp And.left And.left
  · generalize p.rest = input at hterm
    cases hterm with
    | unary hu => exact .inl hu
    | factor hus htok hrest =>
      obtain ⟨op, hop⟩ := exists_mulLevel_opOf htok
      exact .inr ⟨_, _, _, op, _, rfl, derives_term_iff.mp hus, hop, hrest⟩

/-- `expr_additive` reads outside of a table exactly on dangling tokens. -/
lemma Overruns.exprAdditive {sub : Parser V → Res V} {k fuel : ℕ}
    (hrec : Recognizes (Derives .expr) exprStops k sub) (h : Overruns (Dangling .expr) k sub)
    (hfuel : k + 1 ≤ fuel) : Overruns (Dangling .expr) (k + 1) (exprAdditive sub fuel) := by
  have hfollow : ∀ (tok : Token V) (op : DagOp) (ts : List (Token V)),
      addLevel.opOf tok.op = some op → mulLevel.Stops (tok :: ts) ∧ anyRest (tok :: ts) := by
    intro tok op ts hop
    rcases addLevel_opOf_eq_some hop with ⟨rfl, -⟩ | ⟨rfl, -⟩ <;> exact ⟨rfl, trivial⟩
  have hlevel := Overruns.binaryLevel rfl (Recognizes.exprMultiplicative hrec hfuel) hfollow
    (.exprMultiplicative hrec h hfuel) (operandOverruns_add hrec hfuel) hfuel
  intro p hk
  refine (hlevel p hk).trans ⟨?_, fun hexpr => ?_⟩
  · rintro (hterm | ⟨ts, t, tok, op, rest, hp, hchain, hop, hrest⟩)
    · exact .term hterm
    · rw [hp]
      refine .operand (derives_expr_iff.mpr hchain) ?_ hrest
      exact (addLevel_opOf_eq_some hop).imp And.left And.left
  · generalize p.rest = input at hexpr
    cases hexpr with
    | term hterm => exact .inl hterm
    | operand hus htok hrest =>
      obtain ⟨op, hop⟩ := exists_addLevel_opOf htok
      exact .inr ⟨_, _, _, op, _, rfl, derives_expr_iff.mp hus, hop, hrest⟩

/-- **`expr` reads outside of a table exactly on dangling tokens.** -/
lemma Overruns.expr : ∀ k : ℕ, Overruns (V := V) (Dangling .expr) k (expr k)
  | 0 => fun p hk => by omega
  | k + 1 => .exprAdditive (Recognizes.expr k) (Overruns.expr k) (Nat.le_refl _)

/-! ## The parser -/

/-- `parser_open`, on a text. -/
def parserOpenText (fresh : ℕ → LexerToken) (s : List Char) :
    Except Failure (Dag CNumeral.Number) :=
  match lexerOpen fresh s with
  | none => .error (.null none)
  | some lexer => parserOpen (lexerTokens lexer)

/-- No table is read outside of its bounds, and a dag or `NULL` is returned. -/
structure InBounds (res : Except Failure (Dag V)) : Prop where
  table : ∀ i, res ≠ .error (.tableIndex i)
  returns : (∃ dag, res = .ok dag) ∨ ∃ trace, res = .error (.null trace)

/-- A result that neither reads outside of a table nor runs out of fuel is a dag or `NULL`. -/
lemma inBounds_iff {res : Except Failure (Dag V)} (h : res ≠ .error .outOfFuel) :
    InBounds res ↔ ¬ ∃ i, res = .error (.tableIndex i) := by
  constructor
  · rintro ⟨htable, -⟩ ⟨i, hi⟩
    exact htable i hi
  · intro hnot
    refine ⟨fun i hi => hnot ⟨i, hi⟩, ?_⟩
    match res with
    | .ok dag => exact .inl ⟨dag, rfl⟩
    | .error (.null trace) => exact .inr ⟨trace, rfl⟩
    | .error (.tableIndex i) => exact absurd ⟨i, rfl⟩ hnot
    | .error .outOfFuel => exact absurd rfl h

/-- `top` reads outside of a table exactly on dangling tokens. -/
lemma top_overruns (p : Parser V) :
    (∃ i, top p = .error (.tableIndex i)) ↔ Dangling .expr p.rest := by
  rw [← Overruns.expr (p.rest.length + 1) p (Nat.lt_succ_self _)]
  constructor
  · rintro ⟨i, h⟩
    unfold top at h
    split at h
    · next f hf =>
      rw [Except.error.injEq, Failure.traceOnce_eq_tableIndex] at h
      exact ⟨i, by rw [hf, h]⟩
    · split at h <;> cases h
  · rintro ⟨i, h⟩
    exact ⟨i, by rw [top, h]; rfl⟩

/-- The parser stays in bounds exactly on tokens that are not dangling. -/
lemma inBounds_parserOpen_iff (tokens : List (Token V)) :
    InBounds (parserOpen tokens) ↔ ¬ Dangling .expr tokens := by
  have htop : (∃ i, top (Parser.init tokens) = .error (.tableIndex i)) ↔ Dangling .expr tokens :=
    top_overruns (Parser.init tokens)
  rw [inBounds_iff, not_iff_not, ← htop]
  · unfold parserOpen
    split
    · next hlen =>
      obtain rfl := List.length_eq_zero_iff.mp hlen
      refine iff_of_false (by simp) ?_
      rintro ⟨i, h⟩
      cases h
    · cases top (Parser.init tokens) <;> simp [Except.map]
  · unfold parserOpen
    split
    · simp
    · have hfuel := top_ne_outOfFuel (Parser.init tokens)
      cases htop' : top (Parser.init tokens) with
      | error f =>
        intro h
        rw [htop'] at hfuel
        exact hfuel (congrArg Except.error (Except.error.inj h))
      | ok r => simp [Except.map]

/-- **When the parser reads its tables within their bounds.** On a token sequence, well formed or
not, and on a text, `parser_open` reads no table outside of its bounds, and returns a parser or
`NULL`, if and only if it reaches no `+` or `-` between two operands that no complete term
follows.

**Proof sketch.** At each level the parser function reads outside of a table exactly on the dangling
tokens of the nonterminal (`Overruns.expr`): the error path of `*` and `/` stays in its table, that
of `+` and `-` never does, and a failure inside of an operand is passed on. -/
theorem tables_inBounds_iff :
    (∀ tokens : List (Token V), InBounds (parserOpen tokens) ↔ ¬ Dangling .expr tokens) ∧
    ∀ (fresh : ℕ → LexerToken) (s : List Char), InBounds (parserOpenText fresh s) ↔
      ∀ lexer, lexerOpen fresh s = some lexer → ¬ Dangling .expr (lexerTokens lexer) := by
  refine ⟨inBounds_parserOpen_iff, fun fresh s => ?_⟩
  rw [parserOpenText]
  cases lexerOpen fresh s with
  | none =>
    refine iff_of_true ⟨fun i h => ?_, .inr ⟨none, rfl⟩⟩ fun lexer h => ?_
    · cases h
    · cases h
  | some lexer =>
    rw [inBounds_parserOpen_iff]
    constructor
    · intro h lexer' heq
      obtain rfl := Option.some.inj heq
      exact h
    · exact fun h => h lexer rfl

/-- Of `1+` the operand is missing: the index is `2`. -/
theorem dangling_text_not_inBounds :
    ¬ InBounds (parserOpenText (fun _ => ⟨.sentinel, .finite 0⟩) ['1', '+']) := by
  intro h
  exact h.table 2 (by decide +kernel)

end Cs238p.P1
