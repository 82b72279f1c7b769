import Cs238p.Lib.StraightLine
import Mathlib.Data.Int.Notation
import Cs238p.P1.Grammar

set_option relaxedAutoImplicit false
set_option autoImplicit false

/-!
# Code generation of `p1/main.c`

`reflect` walks the dag in post-order and prints one declaration `double t<id> = …;` for each
node, naming operands by the ids of the children. The module models the printed statements as a
straight-line program, and shows that running it leaves the value of the dag in the temporary that
`generate` returns. The ids come from the parser; that they are distinct is proved for every
parser function.

## Main definitions

* `Op`, `Stmt`, `Stmt.text` — the statements that `reflect` prints, and their text.
* `reflect`, `generate` — the functions of `main.c`.
* `Arith`, `Dag.eval` — a number type, and direct recursive evaluation over it.
* `FreshIds` — a parser function draws the ids of its dag from the counter, each once.

## Main results

* `exec_reflect` — the program of a dag with distinct ids computes its value.
* `top_ids` — the ids of a dag that `top` returns are distinct.
* `generate_correct` — code generation preserves meaning.
-/

namespace Cs238p.P1

open StraightLine

variable {V N : Type}

/-! ## Statements -/

/-- The right-hand sides that `reflect` prints. -/
inductive Op (V : Type)
  /-- `%f`, a literal -/
  | lit (v : V)
  /-- `- t%d` -/
  | neg
  /-- `t%d * t%d` -/
  | mul
  /-- `t%d ? (t%d / t%d) : 0.0` -/
  | quot
  /-- `t%d + t%d` -/
  | add
  /-- `t%d - t%d` -/
  | sub
  deriving DecidableEq, Repr

/-- A printed statement: the declaration of the temporary `t<target>`. -/
abbrev Stmt (V : Type) := Decl ℕ (Op V)

/-- The text of a statement, where `fmt` prints a literal as `%f` does. -/
def Stmt.text (fmt : V → String) (s : Stmt V) : String :=
  let rhs : String :=
    match s.op, s.args with
    | .lit v, _ => fmt v
    | .neg, [r] => "- t" ++ toString r
    | .mul, [l, r] => "t" ++ toString l ++ " * t" ++ toString r
    | .quot, [c, l, r] =>
      "t" ++ toString c ++ " ? (t" ++ toString l ++ " / t" ++ toString r ++ ") : 0.0"
    | .add, [l, r] => "t" ++ toString l ++ " + t" ++ toString r
    | .sub, [l, r] => "t" ++ toString l ++ " - t" ++ toString r
    | _, _ => ""
  "double t" ++ toString s.target ++ " = " ++ rhs ++ ";\n"

/-- The `id` field of a dag. -/
def Dag.id : Dag V → ℕ
  | .val id _ => id
  | .neg id _ => id
  | .bin _ id _ _ => id

/-- The statement `reflect` prints for a binary node. A division names its divisor three times. -/
def binStmt (op : DagOp) (id l r : ℕ) : Stmt V :=
  match op with
  | .mul => ⟨id, .mul, [l, r]⟩
  | .div => ⟨id, .quot, [r, l, r]⟩
  | .add => ⟨id, .add, [l, r]⟩
  | .sub => ⟨id, .sub, [l, r]⟩

/-- `reflect`: the statements of the children, left before right, then that of the node. -/
def reflect : Dag V → List (Stmt V)
  | .val id v => [⟨id, .lit v, []⟩]
  | .neg id r => reflect r ++ [⟨id, .neg, [r.id]⟩]
  | .bin op id l r => reflect l ++ reflect r ++ [binStmt op id l.id r.id]

/-- The function that `generate` prints: its statements, and the temporary it hands to
`sigmoid` and returns. -/
structure Evaluate (V : Type) where
  body : List (Stmt V)
  ret : ℕ

/-- `generate`. -/
def generate (dag : Dag V) : Evaluate V := ⟨reflect dag, dag.id⟩

/-- The text that `generate` prints. -/
def Evaluate.text (fmt : V → String) (e : Evaluate V) : String :=
  "typedef double (*sigmoid_t)(double);\n" ++ "double evaluate(sigmoid_t sigmoid) \x7b\n" ++
    String.join (e.body.map (Stmt.text fmt)) ++ "return sigmoid(t" ++ toString e.ret ++
    ");\n\x7d\n"

/-! ## Meaning -/

/-- A number type with the operations of the generated code and the truth value of a number. -/
class Arith (N : Type) where
  neg : N → N
  mul : N → N → N
  div : N → N → N
  add : N → N → N
  sub : N → N → N
  /-- the constant `0.0` -/
  zero : N
  /-- is the number false as a condition? -/
  isZero : N → Bool

/-- The value of a binary operation; a division by zero gives zero. -/
def DagOp.apply [Arith N] (op : DagOp) (a b : N) : N :=
  match op with
  | .mul => Arith.mul a b
  | .div => if Arith.isZero b then Arith.zero else Arith.div a b
  | .add => Arith.add a b
  | .sub => Arith.sub a b

/-- Direct recursive evaluation of a dag, literals being interpreted by `lit`. -/
def Dag.eval [Arith N] (lit : V → N) : Dag V → N
  | .val _ v => lit v
  | .neg _ r => Arith.neg (r.eval lit)
  | .bin op _ l r => op.apply (l.eval lit) (r.eval lit)

/-- The value of a right-hand side as C evaluates it. -/
def Op.interp [Arith N] (lit : V → N) : Op V → List N → N
  | .lit v, _ => lit v
  | .neg, [a] => Arith.neg a
  | .mul, [a, b] => Arith.mul a b
  | .quot, [c, a, b] => if Arith.isZero c then Arith.zero else Arith.div a b
  | .add, [a, b] => Arith.add a b
  | .sub, [a, b] => Arith.sub a b
  | _, _ => Arith.zero

/-! ## The statements of a dag compute its value -/

/-- The ids of a dag, in the order in which `reflect` meets them. -/
def Dag.ids : Dag V → List ℕ
  | .val id _ => [id]
  | .neg id r => r.ids ++ [id]
  | .bin _ id l r => l.ids ++ r.ids ++ [id]

/-- The id of a dag is one of its ids. -/
lemma Dag.id_mem_ids (d : Dag V) : d.id ∈ d.ids := by
  cases d <;> simp [Dag.id, Dag.ids]

variable [Arith N] (lit : V → N)

/-- The statement of a binary node, run where its operands have their values. -/
lemma exec_binStmt {op : DagOp} {id l r : ℕ} {env : Env ℕ N} {a b : N} (hnew : env id = none)
    (hl : env l = some a) (hr : env r = some b) :
    (binStmt op id l r).exec (Op.interp lit) env =
      some (Function.update env id (some (op.apply a b))) := by
  cases op with
  | mul => exact Decl.exec_of_args _ _ [a, b] hnew (by simp [binStmt, hl, hr])
  | div => exact Decl.exec_of_args _ _ [b, a, b] hnew (by simp [binStmt, hl, hr])
  | add => exact Decl.exec_of_args _ _ [a, b] hnew (by simp [binStmt, hl, hr])
  | sub => exact Decl.exec_of_args _ _ [a, b] hnew (by simp [binStmt, hl, hr])

/-- **The program of a dag computes its value.** Run where none of its ids is declared, the
program of a dag with distinct ids leaves the value of the dag in its temporary and changes no
other temporary.

**Proof sketch.** Induction on the dag. The programs of the two children declare disjoint ids, so
the second leaves the result of the first in place, and the statement of the node finds both. -/
theorem exec_reflect (d : Dag V) : ∀ (env : Env ℕ N), d.ids.Nodup → (∀ i ∈ d.ids, env i = none) →
    ∃ env', exec (Op.interp lit) (reflect d) env = some env' ∧ env' d.id = some (d.eval lit) ∧
      ∀ i, i ∉ d.ids → env' i = env i := by
  induction d with
  | val id v =>
    intro env _ hnew
    have hid : env id = none := hnew id (by simp [Dag.ids])
    refine ⟨Function.update env id (some (lit v)), ?_, by simp [Dag.id, Dag.eval], fun i hi => ?_⟩
    · simp [reflect, Decl.exec, hid, Op.interp]
    · rw [Function.update_of_ne (by simpa [Dag.ids] using hi)]
  | neg id r ih =>
    intro env hnodup hnew
    simp only [Dag.ids, List.nodup_append, List.mem_append, List.mem_singleton] at hnodup hnew
    obtain ⟨env₁, h₁, hr, hframe⟩ := ih env hnodup.1 (fun i hi => hnew i (.inl hi))
    have hid : env₁ id = none := by
      rw [hframe id fun hmem => hnodup.2.2 id hmem id rfl rfl]
      exact hnew id (.inr rfl)
    refine ⟨Function.update env₁ id (some (Arith.neg (r.eval lit))), ?_,
      by simp [Dag.id, Dag.eval], fun i hi => ?_⟩
    · have hstmt := Decl.exec_of_args (Op.interp lit) ⟨id, .neg, [r.id]⟩
        [r.eval lit] hid (by simp [hr])
      simp [reflect, exec_append, h₁, hstmt, Op.interp]
    · simp only [Dag.ids, List.mem_append, List.mem_singleton, not_or] at hi
      rw [Function.update_of_ne hi.2, hframe i hi.1]
  | bin op id l r ihl ihr =>
    intro env hnodup hnew
    simp only [Dag.ids, List.nodup_append, List.mem_append, List.mem_singleton] at hnodup hnew
    obtain ⟨⟨hnl, hnr, hdisj⟩, -, hid⟩ := hnodup
    obtain ⟨env₁, h₁, hl, hframe₁⟩ := ihl env hnl (fun i hi => hnew i (.inl (.inl hi)))
    -- the right child runs after the left one and shares no id with it
    have hnew₁ : ∀ i ∈ r.ids, env₁ i = none := fun i hi => by
      rw [hframe₁ i fun hmem => hdisj i hmem i hi rfl]
      exact hnew i (.inl (.inr hi))
    obtain ⟨env₂, h₂, hr, hframe₂⟩ := ihr env₁ hnr hnew₁
    have hl₂ : env₂ l.id = some (l.eval lit) := by
      rw [hframe₂ l.id fun hmem => hdisj l.id l.id_mem_ids l.id hmem rfl, hl]
    have hnid : env₂ id = none := by
      rw [hframe₂ id fun hmem => hid id (.inr hmem) id rfl rfl,
        hframe₁ id fun hmem => hid id (.inl hmem) id rfl rfl]
      exact hnew id (.inr rfl)
    refine ⟨Function.update env₂ id (some (op.apply (l.eval lit) (r.eval lit))), ?_,
      by simp [Dag.id, Dag.eval], fun i hi => ?_⟩
    · simp [reflect, exec_append, h₁, h₂, exec_binStmt lit hnid hl₂ hr]
    · simp only [Dag.ids, List.mem_append, List.mem_singleton, not_or] at hi
      rw [Function.update_of_ne hi.2, hframe₂ i hi.1.2, hframe₁ i hi.1.1]

/-! ## The parser draws distinct ids -/

/-- A dag whose ids are distinct and were drawn while the counter went from `a` to `b`. -/
structure FreshIds (a b : ℕ) (d : Dag V) : Prop where
  le : a ≤ b
  nodup : d.ids.Nodup
  mem : ∀ i ∈ d.ids, a < i ∧ i ≤ b

/-- A parser function draws fresh ids for the dag it returns. -/
def DrawsFreshIds (f : Parser V → Res V) : Prop :=
  ∀ ⦃p d q⦄, f p = .ok (d, q) → FreshIds p.id q.id d

@[simp] lemma id_forward (p : Parser V) : p.forward.id = p.id := rfl

@[simp] lemma id_mkd (p : Parser V) : p.mkd.id = p.id + 1 := rfl

/-- A leaf draws one id. -/
lemma FreshIds.val (a : ℕ) (v : V) : FreshIds a (a + 1) (.val (a + 1) v) :=
  ⟨by omega, by simp [Dag.ids], fun i hi => by
    simp only [Dag.ids, List.mem_singleton] at hi
    omega⟩

/-- A negation draws its id before those of its operand. -/
lemma FreshIds.neg {a b : ℕ} {d : Dag V} (h : FreshIds (a + 1) b d) :
    FreshIds a b (.neg (a + 1) d) := by
  have hle := h.le
  refine ⟨by omega, ?_, fun i hi => ?_⟩
  · simp only [Dag.ids, List.nodup_append, List.mem_singleton]
    refine ⟨h.nodup, by simp, fun i hi j hj hij => ?_⟩
    have := (h.mem i hi).1
    omega
  · simp only [Dag.ids, List.mem_append, List.mem_singleton] at hi
    rcases hi with hi | rfl
    · have := h.mem i hi
      omega
    · omega

/-- A binary node draws its id between those of its operands. -/
lemma FreshIds.bin {a b c : ℕ} {l r : Dag V} {op : DagOp} (hl : FreshIds a b l)
    (hr : FreshIds (b + 1) c r) : FreshIds a c (.bin op (b + 1) l r) := by
  have hab := hl.le
  have hbc := hr.le
  refine ⟨by omega, ?_, fun i hi => ?_⟩
  · simp only [Dag.ids, List.nodup_append, List.mem_append, List.mem_singleton]
    refine ⟨⟨hl.nodup, hr.nodup, fun i hi j hj hij => ?_⟩, by simp, fun i hi j hj hij => ?_⟩
    · have := (hl.mem i hi).2
      have := (hr.mem j hj).1
      omega
    · rcases hi with hi | hi
      · have := (hl.mem i hi).2
        omega
      · have := (hr.mem i hi).1
        omega
  · simp only [Dag.ids, List.mem_append, List.mem_singleton] at hi
    rcases hi with (hi | hi) | rfl
    · have := hl.mem i hi
      omega
    · have := hr.mem i hi
      omega
    · omega

/-- The tail of a binary level draws fresh ids beyond those of its left operand. -/
lemma binaryTail_ids {lv : Level} {operand : Parser V → Res V} (hop : DrawsFreshIds operand)
    {a fuel : ℕ} : ∀ {p : Parser V} {left d : Dag V} {q : Parser V}, FreshIds a p.id left →
      binaryTail lv operand fuel p left left = .ok (d, q) → FreshIds a q.id d := by
  induction fuel with
  | zero => intro p left d q _ h; simp [binaryTail] at h
  | succ fuel ih =>
    intro p left d q hleft h
    rcases binaryTail_eq_ok_iff.mp h with ⟨-, rfl, rfl⟩ | ⟨op, right, q₁, -, hr, hrec⟩
    · exact hleft
    · have hright := hop hr
      exact ih (hleft.bin hright) hrec

/-- A binary level draws fresh ids if its operands do. -/
lemma DrawsFreshIds.binaryLevel {lv : Level} {operand : Parser V → Res V}
    (hop : DrawsFreshIds operand) (fuel : ℕ) : DrawsFreshIds (binaryLevel lv operand fuel) := by
  intro p d q h
  rw [P1.binaryLevel] at h
  split at h
  · cases h
  · next left q₁ hl => exact binaryTail_ids hop (hop hl) h

/-- A primary expression draws fresh ids if its sub-expressions do. -/
lemma DrawsFreshIds.exprPrimary {sub : Parser V → Res V} (hsub : DrawsFreshIds sub) :
    DrawsFreshIds (exprPrimary sub) := by
  intro p d q h
  unfold P1.exprPrimary at h
  split at h
  · cases h
    exact .val p.id _
  · split at h
    · cases h
    · next dag q₁ hs =>
      split at h
      · cases h
        have hd : FreshIds p.forward.id q₁.id d := hsub hs
        exact hd
      · cases h
  · cases h

/-- A unary expression draws fresh ids if its sub-expressions do. -/
lemma DrawsFreshIds.exprUnary {sub : Parser V → Res V} (hsub : DrawsFreshIds sub) (fuel : ℕ) :
    DrawsFreshIds (exprUnary sub fuel) := by
  induction fuel with
  | zero => intro p d q h; simp [P1.exprUnary] at h
  | succ fuel ih =>
    intro p d q h
    rw [P1.exprUnary] at h
    split at h
    · split at h
      · cases h
      · next r hr =>
        cases h
        have hd : FreshIds p.forward.id q.id d := ih hr
        exact hd
    · split at h
      · cases h
      · next right q₁ hr =>
        cases h
        exact (ih hr).neg
    · exact hsub.exprPrimary h

/-- An expression draws fresh ids. -/
lemma DrawsFreshIds.expr : ∀ fuel : ℕ, DrawsFreshIds (V := V) (expr fuel)
  | 0 => fun p d q h => by simp [P1.expr] at h
  | fuel + 1 =>
    (((DrawsFreshIds.expr fuel).exprUnary (fuel + 1)).binaryLevel (fuel + 1)).binaryLevel (fuel + 1)

/-- **The ids of a dag that the parser returns are distinct.** -/
theorem top_ids {p : Parser V} {d : Dag V} {q : Parser V} (h : top p = .ok (d, q)) :
    d.ids.Nodup := by
  unfold top at h
  split at h
  · cases h
  · next d' q' hd =>
    split at h
    · cases h
      exact (DrawsFreshIds.expr _ hd).nodup
    · cases h

/-- The integers as a number type. -/
instance : Arith ℤ where
  neg := Int.neg
  mul := Int.mul
  div := Int.tdiv
  add := Int.add
  sub := Int.sub
  zero := 0
  isZero n := n == 0

/-- **Code generation preserves meaning.** For the dag of a token sequence, the statements that
`reflect` prints declare each temporary once and every operand before its use; executed in order
they leave the value of the dag in the temporary that `generate` returns.

**Proof sketch.** The ids are distinct (`top_ids`), so the program runs and computes the value
(`exec_reflect`). A program that runs is in single-assignment form (`targets_nodup`) and declares
operands before their use (`mem_targets_of_mem_args`). -/
theorem generate_correct (tokens : List (Token V)) :
    ∀ d q, top (Parser.init tokens) = .ok (d, q) →
      (targets (generate d).body).Nodup ∧
      (∀ pre s post, (generate d).body = pre ++ s :: post → ∀ a ∈ s.args, a ∈ targets pre) ∧
      ∃ env, exec (Op.interp lit) (generate d).body (Env.empty ℕ N) = some env ∧
        env (generate d).ret = some (d.eval lit) := by
  intro d q h
  obtain ⟨env, hexec, hval, -⟩ :=
    exec_reflect lit d (Env.empty ℕ N) (top_ids h) (fun _ _ => rfl)
  refine ⟨(targets_nodup hexec).1, fun pre s post hsplit => ?_, env, hexec, hval⟩
  have hrun : exec (Op.interp lit) (pre ++ s :: post) (Env.empty ℕ N) = some env :=
    hsplit ▸ hexec
  exact mem_targets_of_mem_args hrun

/-- The statements for `-2 - 8 / 0`, whose value is `-2`. -/
theorem generate_correct_neg_sub_div :
    ∃ env, exec (Op.interp id) (generate (.bin .sub 3 (.neg 1 (.val 2 2))
        (.bin .div 5 (.val 4 8) (.val 6 0)))).body (Env.empty ℕ ℤ) = some env ∧
      env 3 = some (-2) :=
  (generate_correct (id : ℤ → ℤ) [.sub, .val 2, .sub, .val 8, .div, .val 0] _ ⟨6, []⟩
    (by decide)).2.2

end Cs238p.P1
