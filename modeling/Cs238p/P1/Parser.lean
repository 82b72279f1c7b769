import Mathlib.Tactic.Common

set_option relaxedAutoImplicit false
set_option autoImplicit false

/-!
# The recursive-descent parser of `p1/parser.c`

The parser reads the token sequence produced by `p1/lexer.c` and builds an expression dag.
Every function of the source keeps its own definition here. The two binary levels
(`expr_multiplicative_` and `expr_additive_`) have the same body up to the operators, the
operand parser and the table of operator names, so both are instances of `binaryTail`.

## Main definitions

* `Token`, `LexerOp` — the tokens of `lexer.h`; the end of the input reads as the sentinel.
* `Dag`, `DagOp` — `struct parser_dag`, one constructor for each shape it can have.
* `Failure` — what a function that does not return a dag has done instead.
* `exprPrimary`, `exprUnary`, `exprMultiplicative`, `exprAdditive`, `expr`, `top`.

## Implementation notes

`struct parser` is reduced to what the functions read and write: the id counter and the
tokens from position `i` on. The recursion of the source goes through
`expr_primary → expr → …`; the parser of sub-expressions is a parameter `sub` of the lower
levels and `expr` closes the recursion with a bound on the nesting. Running out of that bound is
its own failure, which `Grammar.lean` shows never happens in `top`. Memory allocation succeeds,
and the id counter, an `int`, is read as a natural number.
-/

namespace Cs238p.P1

/-! ## Tokens -/

/-- `enum lexer_token_op`; `sentinel` is `LEXER_OP_`, the operator of the static sentinel. -/
inductive LexerOp
  | sentinel | val | add | sub | mul | div | opn | cls
  deriving DecidableEq, Repr

/-- `struct lexer_token`: only a `LEXER_OP_VAL` token has a value that is read. -/
inductive Token (V : Type)
  | val (v : V) | add | sub | mul | div | opn | cls
  deriving DecidableEq, Repr

/-- The `op` field of a token. -/
def Token.op {V : Type} : Token V → LexerOp
  | .val _ => .val
  | .add => .add
  | .sub => .sub
  | .mul => .mul
  | .div => .div
  | .opn => .opn
  | .cls => .cls

/-! ## Dags -/

/-- The binary members of `enum parser_dag_op`. -/
inductive DagOp
  | mul | div | add | sub
  deriving DecidableEq, Repr

/-- The numeric value of the enumerator (`PARSER_DAG_` is `0`, `PARSER_DAG_VAL` is `1`,
`PARSER_DAG_NEG` is `2`). -/
def DagOp.code : DagOp → ℕ
  | .mul => 3
  | .div => 4
  | .add => 5
  | .sub => 6

/-- `struct parser_dag`. A leaf has a value, a negation has a right child only, and the other
nodes have both children. -/
inductive Dag (V : Type)
  | val (id : ℕ) (v : V)
  | neg (id : ℕ) (right : Dag V)
  | bin (op : DagOp) (id : ℕ) (left right : Dag V)
  deriving DecidableEq, Repr

/-! ## The parser state and its failures -/

/-- `struct parser`: the global id counter and the tokens that are still to be read. -/
structure Parser (V : Type) where
  /-- `id`, the last id handed out -/
  id : ℕ
  /-- the tokens from position `i` on -/
  rest : List (Token V)
  deriving DecidableEq, Repr

/-- The ways in which a parser function does not return a dag. -/
inductive Failure
  /-- `NULL` is returned; `trace` is the message printed by the first `TRACE_ONCE`, if any. -/
  | null (trace : Option String)
  /-- The error path reads the table of operator names at an index past its end. -/
  | tableIndex (index : ℕ)
  /-- The bound on the recursion is used up. -/
  | outOfFuel
  deriving DecidableEq, Repr

/-- The result of a parser function: a dag and the parser after it, or a failure. -/
abbrev Res (V : Type) := Except Failure (Dag V × Parser V)

/-- `TRACE_ONCE`: the message is kept only if none was printed before. -/
def Failure.traceOnce (msg : String) : Failure → Failure
  | .null none => .null (some msg)
  | f => f

section Functions

variable {V : Type}

namespace Parser

/-- `next`: the current token, `none` standing for the sentinel. -/
def next (p : Parser V) : Option (Token V) := p.rest.head?

/-- The operator of the current token. -/
def nextOp (p : Parser V) : LexerOp :=
  match p.next with
  | some t => t.op
  | none => .sentinel

/-- `match`: is the current token of the given kind? -/
def matchOp (p : Parser V) (op : LexerOp) : Bool := p.nextOp = op

/-- `forward`: step to the next token, staying at the end. -/
def forward (p : Parser V) : Parser V := { p with rest := p.rest.tail }

/-- The id drawn by `MKD`, which is `++id`. -/
def mkdId (p : Parser V) : ℕ := p.id + 1

/-- The parser after `MKD` has drawn an id. -/
def mkd (p : Parser V) : Parser V := { p with id := p.id + 1 }

end Parser

/-! ## Primary and unary expressions -/

/-- `expr_primary`: a value, or a sub-expression in parentheses. -/
def exprPrimary (sub : Parser V → Res V) (p : Parser V) : Res V :=
  match p.next with
  | some (.val v) => .ok (.val p.mkdId v, p.mkd.forward)
  | some .opn =>
    match sub p.forward with
    | .error f => .error (f.traceOnce "invalid sub-expression")
    | .ok (dag, q) =>
      if q.matchOp .cls then .ok (dag, q.forward)
      else .error (.null (some "expecting ')'"))
  | _ => .error (.null none)

/-- `expr_unary`: a chain of signs before a primary expression. A unary plus adds no node. -/
def exprUnary (sub : Parser V → Res V) : ℕ → Parser V → Res V
  | 0, _ => .error .outOfFuel
  | fuel + 1, p =>
    match p.next with
    | some .add =>
      match exprUnary sub fuel p.forward with
      | .error f => .error (f.traceOnce "invalid unary '+' operand")
      | .ok r => .ok r
    | some .sub =>
      -- the id of the negation is drawn before its operand is parsed
      match exprUnary sub fuel p.mkd.forward with
      | .error f => .error (f.traceOnce "invalid unary '-' operand")
      | .ok (right, q) => .ok (.neg p.mkdId right, q)
    | _ => exprPrimary sub p

/-! ## The binary levels -/

/-- What distinguishes one binary level from the other: the operators it matches and the
operator names its error path prints. -/
structure Level where
  /-- the dag operator built for a token, if the level matches it -/
  opOf : LexerOp → Option DagOp
  /-- `TBL`, the operator names -/
  tbl : List String

/-- `expr_multiplicative_` matches `*` and `/`. -/
def mulLevel : Level where
  opOf
    | .mul => some .mul
    | .div => some .div
    | _ => none
  tbl := ["*", "/"]

/-- `expr_additive_` matches `+` and `-`. -/
def addLevel : Level where
  opOf
    | .add => some .add
    | .sub => some .sub
    | _ => none
  tbl := ["+", "-"]

/-- The error path after an operand that does not parse. Both levels print
`TBL[dag->op - PARSER_DAG_MUL]`. -/
def Level.operandFailure (lv : Level) (op : DagOp) (f : Failure) : Failure :=
  match lv.tbl[op.code - DagOp.mul.code]? with
  | some name => f.traceOnce ("invalid '" ++ name ++ "' operand")
  | none => .tableIndex (op.code - DagOp.mul.code)

/-- The loop of `expr_multiplicative_` and `expr_additive_`. Each round builds its node on
`left`, the argument of the call, not on the dag built so far; it is the recursive call, with the
new node as its `left`, that takes the operators which follow. -/
def binaryTail (lv : Level) (operand : Parser V → Res V) :
    ℕ → Parser V → Dag V → Dag V → Res V
  | 0, _, _, _ => .error .outOfFuel
  | fuel + 1, p, left, dag =>
    match lv.opOf p.nextOp with
    | none => .ok (dag, p)
    | some op =>
      match operand p.mkd.forward with
      | .error f => .error (lv.operandFailure op f)
      | .ok (right, q) =>
        match binaryTail lv operand fuel q (.bin op p.mkdId left right)
            (.bin op p.mkdId left right) with
        | .error f => .error (f.traceOnce "^")
        | .ok (dag', q') => binaryTail lv operand fuel q' left dag'

/-- One binary level: an operand, then the tail of the level with it as the left operand. -/
def binaryLevel (lv : Level) (operand : Parser V → Res V) (fuel : ℕ) (p : Parser V) : Res V :=
  match operand p with
  | .error f => .error f
  | .ok (left, q) => binaryTail lv operand fuel q left left

/-- `expr_multiplicative_`. -/
def exprMultiplicative_ (sub : Parser V → Res V) (fuel : ℕ) (p : Parser V) (left : Dag V) :
    Res V :=
  binaryTail mulLevel (exprUnary sub fuel) fuel p left left

/-- `expr_multiplicative`. -/
def exprMultiplicative (sub : Parser V → Res V) (fuel : ℕ) (p : Parser V) : Res V :=
  match exprUnary sub fuel p with
  | .error f => .error f
  | .ok (dag, q) => exprMultiplicative_ sub fuel q dag

/-- `expr_additive_`. -/
def exprAdditive_ (sub : Parser V → Res V) (fuel : ℕ) (p : Parser V) (left : Dag V) : Res V :=
  binaryTail addLevel (exprMultiplicative sub fuel) fuel p left left

/-- `expr_additive`. -/
def exprAdditive (sub : Parser V → Res V) (fuel : ℕ) (p : Parser V) : Res V :=
  match exprMultiplicative sub fuel p with
  | .error f => .error f
  | .ok (dag, q) => exprAdditive_ sub fuel q dag

/-- `expr`: an additive expression whose parenthesised parts are again expressions. -/
def expr : ℕ → Parser V → Res V
  | 0, _ => .error .outOfFuel
  | fuel + 1, p => exprAdditive (expr fuel) (fuel + 1) p

/-- `top`: an expression that is followed by the end of the input. -/
def top (p : Parser V) : Res V :=
  match expr (p.rest.length + 1) p with
  | .error f => .error (f.traceOnce "invalid expression")
  | .ok (dag, q) =>
    if q.matchOp .sentinel then .ok (dag, q)
    else .error (.null (some "bogus trailing content"))

/-- The parser with which `parser_open` calls `top` on the tokens of the lexer. -/
def Parser.init (tokens : List (Token V)) : Parser V := ⟨0, tokens⟩

/-- `parser_open` after the lexer: the dag of the whole token sequence. An empty sequence is
refused before `top` is called. -/
def parserOpen (tokens : List (Token V)) : Except Failure (Dag V) :=
  if tokens.length = 0 then .error (.null none)
  else (top (Parser.init tokens)).map Prod.fst

end Functions

/-- `1 - 2 - 3` associates to the left; the ids are those of the source's counter. -/
example : parserOpen [.val 1, .sub, .val 2, .sub, .val 3] =
    .ok (.bin .sub 4 (.bin .sub 2 (.val 1 1) (.val 3 2)) (.val 5 3)) := by decide

end Cs238p.P1
