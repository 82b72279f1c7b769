import Mathlib.Order.WellFounded
import Cs238p.Lib.Transition

set_option relaxedAutoImplicit false
set_option autoImplicit false

/-!
# Programs that call a concurrent server

A client runs a program that calls an object, one call at a time. The object is implemented by a
server which takes steps of its own, also between the calls. If the server implements the object,
then what the program computes is what it computes on the object itself, in every interleaving; and
if the steps of the server come to an end, so do those of the client and the server together.

## Main definitions

* `Program` — a tree of calls, with a continuation for each answer.
* `Program.First` — the first call of a program.
* `Object`, `Program.wp` — the object that the calls are meant for, and what a program achieves on
  it.
* `Server`, `Config`, `step` — the server, and the client together with the server.
* `Implements` — the server simulates the object.
* `Terminates`, `Responsive` — the server's own steps come to an end, and a call is not left
  unanswered unless the server is blocked.

## Main results

* `wp_bind`, `wp_mono`, `wp_call` — the rules for programs.
* `Sound.run` — what a program achieves on the object stays true along every run.
* `step_terminates` — there is no infinite run.
* `done_or_step_or_blocked` — a configuration without a step is at its end, or the server is
  blocked.
* `wp_total` — the three together: every run can be continued to its end, where the program has
  achieved what it achieves on the object, or to a point at which the server is blocked.
-/

namespace CallProgram

open Transition

variable {ι ο α β σ τ κ ℓ : Type*}

/-! ## Programs -/

/-- A program returns a value, or makes a call and goes on with the answer. -/
inductive Program (ι ο α : Type*)
  | ret (a : α)
  | call (i : ι) (k : ο → Program ι ο α)

/-- The object of the calls: the calls that it admits in a state, and the answer and the next state
of each. -/
structure Object (ι ο τ : Type*) where
  Admits : τ → ι → Prop
  answer : τ → ι → ο
  next : τ → ι → τ

namespace Program

/-- One program after another. -/
def bind : Program ι ο α → (α → Program ι ο β) → Program ι ο β
  | .ret a, f => f a
  | .call i k, f => .call i fun o => (k o).bind f

/-- The program makes only admitted calls, and ends with a value and a state of the object that
satisfy the condition. -/
def wp (O : Object ι ο τ) : Program ι ο α → (α → τ → Prop) → τ → Prop
  | .ret a, Q, t => Q a t
  | .call i k, Q, t => O.Admits t i ∧ (k (O.answer t i)).wp O Q (O.next t i)

/-- The program makes a call, and the first one satisfies the condition. -/
def First (P : ι → Prop) : Program ι ο α → Prop
  | .ret _ => False
  | .call i _ => P i

variable {O : Object ι ο τ} {p : Program ι ο α} {f : α → Program ι ο β} {t : τ}
  {Q : α → τ → Prop} {R : β → τ → Prop} {P : ι → Prop}

@[simp] lemma bind_ret (a : α) (f : α → Program ι ο β) : (ret a).bind f = f a := rfl

@[simp] lemma bind_call (i : ι) (k : ο → Program ι ο α) (f : α → Program ι ο β) :
    (call i k).bind f = .call i fun o => (k o).bind f := rfl

lemma wp_ret {a : α} : (ret a).wp O Q t ↔ Q a t := Iff.rfl

/-- The rule of a call. -/
lemma wp_call {i : ι} {k : ο → Program ι ο α} :
    (call i k).wp O Q t ↔ O.Admits t i ∧ (k (O.answer t i)).wp O Q (O.next t i) := Iff.rfl

/-- **The rule of sequential composition.** -/
theorem wp_bind : (p.bind f).wp O R t ↔ p.wp O (fun a => (f a).wp O R) t := by
  induction p generalizing t with
  | ret a => exact Iff.rfl
  | call i k ih => exact and_congr_right fun _ => ih (O.answer t i)

/-- The rule of consequence. -/
lemma wp_mono {Q' : α → τ → Prop} (h : p.wp O Q t) (himp : ∀ a t, Q a t → Q' a t) :
    p.wp O Q' t := by
  induction p generalizing t with
  | ret a => exact himp a t h
  | call i k ih => exact ⟨h.1, ih (O.answer t i) h.2⟩

/-- The first call of one program after another. -/
lemma First.bind (h : p.First P) (f : α → Program ι ο β) : (p.bind f).First P := by
  cases p with
  | ret a => exact h.elim
  | call i k => exact h

end Program

/-! ## The server -/

/-- A server: it begins a call, takes steps of its own, and has an answer when a call has
returned. -/
structure Server (ι ο σ ℓ : Type*) where
  begin : σ → ι → Option σ
  internal : σ → ℓ → Option σ
  returned : σ → Option ο

/-- The client is about to run a program, or it waits for the answer to a call. -/
inductive Client (ι ο α : Type*)
  | ready (p : Program ι ο α)
  | waiting (k : ο → Program ι ο α)

/-- The client and the server. -/
structure Config (ι ο α σ : Type*) where
  client : Client ι ο α
  server : σ

/-- A step is one of the client or one of the server. -/
inductive Label (ℓ : Type*)
  | client
  | server (l : ℓ)
  deriving DecidableEq, Repr

/-- The steps of the client and the server. -/
def step (S : Server ι ο σ ℓ) (c : Config ι ο α σ) : Label ℓ → Option (Config ι ο α σ)
  | .server l => (S.internal c.server l).map fun s => { c with server := s }
  | .client =>
    match c.client with
    | .ready (.ret _) => none
    | .ready (.call i k) => (S.begin c.server i).map fun s => ⟨.waiting k, s⟩
    | .waiting k => (S.returned c.server).map fun o => ⟨.ready (k o), c.server⟩

/-- The steps by rules. -/
inductive Move (S : Server ι ο σ ℓ) : Label ℓ → Config ι ο α σ → Config ι ο α σ → Prop
  | server {l : ℓ} {s s' : σ} (client : Client ι ο α) (hs : S.internal s l = some s') :
    Move S (.server l) ⟨client, s⟩ ⟨client, s'⟩
  | begin {s s' : σ} {i : ι} (k : ο → Program ι ο α) (hs : S.begin s i = some s') :
    Move S .client ⟨.ready (.call i k), s⟩ ⟨.waiting k, s'⟩
  | resume {s : σ} {o : ο} (k : ο → Program ι ο α) (hs : S.returned s = some o) :
    Move S .client ⟨.waiting k, s⟩ ⟨.ready (k o), s⟩

variable {S : Server ι ο σ ℓ} {O : Object ι ο τ} {c c' : Config ι ο α σ} {lbl : Label ℓ}

/-- **The steps** are those of the rules. -/
theorem step_eq_some_iff : step S c lbl = some c' ↔ Move S lbl c c' := by
  constructor
  · intro h
    obtain ⟨client, s⟩ := c
    cases lbl with
    | server l =>
      obtain ⟨s', hs, rfl⟩ := Option.map_eq_some_iff.mp h
      exact .server client hs
    | client =>
      cases client with
      | ready p =>
        cases p with
        | ret a => simp [step] at h
        | call i k =>
          obtain ⟨s', hs, rfl⟩ := Option.map_eq_some_iff.mp h
          exact .begin k hs
      | waiting k =>
        obtain ⟨o, hs, rfl⟩ := Option.map_eq_some_iff.mp h
        exact .resume k hs
  · intro h
    cases h with
    | server client hs => simp [step, hs]
    | begin k hs => simp [step, hs]
    | resume k hs => simp [step, hs]

/-! ## Simulation -/

/-- The server simulates the object: `Idle s t` relates it to the object between two calls, and
`Busy s t i` during the call `i` that was made in the state `t` of the object. -/
structure Implements (S : Server ι ο σ ℓ) (O : Object ι ο τ) (Idle : σ → τ → Prop)
    (Busy : σ → τ → ι → Prop) : Prop where
  begin : ∀ {s s' t i}, Idle s t → O.Admits t i → S.begin s i = some s' → Busy s' t i
  idle : ∀ {s s' t l}, Idle s t → S.internal s l = some s' → Idle s' t
  busy : ∀ {s s' t i l}, Busy s t i → S.internal s l = some s' → Busy s' t i
  returned : ∀ {s t i o}, Busy s t i → S.returned s = some o →
    o = O.answer t i ∧ Idle s (O.next t i)

variable {Idle : σ → τ → Prop} {Busy : σ → τ → ι → Prop} {Q : α → τ → Prop}

/-- What the client has still to run achieves the condition on the object. -/
def Sound (O : Object ι ο τ) (Idle : σ → τ → Prop) (Busy : σ → τ → ι → Prop) (Q : α → τ → Prop)
    (c : Config ι ο α σ) : Prop :=
  match c.client with
  | .ready p => ∃ t, Idle c.server t ∧ p.wp O Q t
  | .waiting k => ∃ t i, Busy c.server t i ∧ (k (O.answer t i)).wp O Q (O.next t i)

/-- A step keeps what the client achieves. -/
lemma Sound.step (hS : Implements S O Idle Busy) (h : Sound O Idle Busy Q c)
    (hstep : CallProgram.step S c lbl = some c') : Sound O Idle Busy Q c' := by
  cases step_eq_some_iff.mp hstep with
  | server client hs =>
    cases client with
    | ready p =>
      obtain ⟨t, hidle, hwp⟩ := h
      exact ⟨t, hS.idle hidle hs, hwp⟩
    | waiting k =>
      obtain ⟨t, i, hbusy, hwp⟩ := h
      exact ⟨t, i, hS.busy hbusy hs, hwp⟩
  | begin k hs =>
    obtain ⟨t, hidle, hadmits, hwp⟩ := h
    exact ⟨t, _, hS.begin hidle hadmits hs, hwp⟩
  | resume k hs =>
    obtain ⟨t, i, hbusy, hwp⟩ := h
    obtain ⟨rfl, hidle⟩ := hS.returned hbusy hs
    exact ⟨_, hidle, hwp⟩

/-- A run keeps what the client achieves. -/
lemma Sound.run (hS : Implements S O Idle Busy) (h : Sound O Idle Busy Q c) {ls : List (Label ℓ)}
    (hrun : Transition.run (CallProgram.step S) c ls = some c') : Sound O Idle Busy Q c' :=
  invariant_run (fun _ _ _ hc hs => Sound.step hS hc hs) h hrun

/-! ## Termination -/

/-- The server's own steps, between and during the calls, make a value smaller. -/
structure Terminates (S : Server ι ο σ ℓ) (Idle : σ → τ → Prop) (Busy : σ → τ → ι → Prop)
    (μ : σ → κ) (r : κ → κ → Prop) : Prop where
  wf : WellFounded r
  idle : ∀ {s s' t l}, Idle s t → S.internal s l = some s' → r (μ s') (μ s)
  busy : ∀ {s s' t i l}, Busy s t i → S.internal s l = some s' → r (μ s') (μ s)

/-- The configurations that a step leads to. -/
def Next (S : Server ι ο σ ℓ) (c' c : Config ι ο α σ) : Prop := ∃ lbl, step S c lbl = some c'

variable {μ : σ → κ} {r : κ → κ → Prop}

/-- The client ends if it does after the answer to its call. -/
lemma acc_waiting (hS : Implements S O Idle Busy) (hT : Terminates S Idle Busy μ r) {s : σ} {t : τ}
    {i : ι} {k : ο → Program ι ο α} (hbusy : Busy s t i)
    (hk : ∀ s', Idle s' (O.next t i) → Acc (Next S) ⟨.ready (k (O.answer t i)), s'⟩) :
    Acc (Next S) ⟨.waiting k, s⟩ := by
  induction h : μ s using hT.wf.induction generalizing s with
  | h n ih =>
    subst h
    refine ⟨_, fun c' ⟨lbl, hstep⟩ => ?_⟩
    cases step_eq_some_iff.mp hstep with
    | server client hs => exact ih _ (hT.busy hbusy hs) (hS.busy hbusy hs) rfl
    | resume k hs =>
      obtain ⟨rfl, hidle⟩ := hS.returned hbusy hs
      exact hk s hidle

/-- **Every run ends**, from where the program makes only admitted calls.

**Proof sketch.** Induction on the program, and for each of its calls on the value that the steps
of the server make smaller, once before the call begins and once until it has returned. -/
theorem step_terminates (hS : Implements S O Idle Busy) (hT : Terminates S Idle Busy μ r)
    {p : Program ι ο α} {s : σ} {t : τ} (hidle : Idle s t) (hwp : p.wp O Q t) :
    Acc (Next S) ⟨.ready p, s⟩ := by
  induction p generalizing s t with
  | ret a =>
    induction h : μ s using hT.wf.induction generalizing s with
    | h n ih =>
      subst h
      refine ⟨_, fun c' ⟨lbl, hstep⟩ => ?_⟩
      cases step_eq_some_iff.mp hstep with
      | server client hs => exact ih _ (hT.idle hidle hs) (hS.idle hidle hs) rfl
  | call i k ihk =>
    obtain ⟨hadmits, hwp⟩ := hwp
    induction h : μ s using hT.wf.induction generalizing s with
    | h n ih =>
      subst h
      refine ⟨_, fun c' ⟨lbl, hstep⟩ => ?_⟩
      cases step_eq_some_iff.mp hstep with
      | server client hs => exact ih _ (hT.idle hidle hs) (hS.idle hidle hs) rfl
      | begin k hs =>
        exact acc_waiting hS hT (hS.begin hidle hadmits hs) fun s' hidle' => ihk _ hidle' hwp

/-- There is no infinite run where every run ends. -/
lemma not_infinite_of_acc {c : Config ι ο α σ} (h : Acc (Next S) c) :
    ¬ ∃ f : ℕ → Config ι ο α σ, f 0 = c ∧ ∀ n, ∃ lbl, step S (f n) lbl = some (f (n + 1)) := by
  rintro ⟨f, h0, hstep⟩
  exact not_acc_iff_exists_descending_chain.mpr ⟨f, h0, hstep⟩ h

/-! ## Progress -/

/-- A call can begin between two calls; and during a call the server has an answer, takes a step or
is blocked. -/
structure Responsive (S : Server ι ο σ ℓ) (O : Object ι ο τ) (Idle : σ → τ → Prop)
    (Busy : σ → τ → ι → Prop) (Blocked : σ → Prop) : Prop where
  begin : ∀ {s t i}, Idle s t → O.Admits t i → ∃ s', S.begin s i = some s'
  answers : ∀ {s t i}, Busy s t i →
    (∃ o, S.returned s = some o) ∨ (∃ l s', S.internal s l = some s') ∨ Blocked s

variable {Blocked : σ → Prop}

/-- **Progress**: the client is done, or there is a step, or the server is blocked. -/
theorem done_or_step_or_blocked (hR : Responsive S O Idle Busy Blocked)
    (h : Sound O Idle Busy Q c) :
    (∃ a, c.client = .ready (.ret a)) ∨ (∃ lbl c', step S c lbl = some c') ∨ Blocked c.server := by
  obtain ⟨client, s⟩ := c
  cases client with
  | ready p =>
    cases p with
    | ret a => exact .inl ⟨a, rfl⟩
    | call i k =>
      obtain ⟨t, hidle, hadmits, -⟩ := h
      obtain ⟨s', hs⟩ := hR.begin hidle hadmits
      exact .inr (.inl ⟨.client, _, step_eq_some_iff.mpr (.begin k hs)⟩)
  | waiting k =>
    obtain ⟨t, i, hbusy, -⟩ := h
    rcases hR.answers hbusy with ⟨o, hs⟩ | ⟨l, s', hs⟩ | hblocked
    · exact .inr (.inl ⟨.client, _, step_eq_some_iff.mpr (.resume k hs)⟩)
    · exact .inr (.inl ⟨.server l, _, step_eq_some_iff.mpr (.server _ hs)⟩)
    · exact .inr (.inr hblocked)

/-! ## Total correctness -/

/-- Every run that begins in the configuration ends: with the program at its end and the condition,
or where the server is blocked; and no run is infinite. -/
def Ends (S : Server ι ο σ ℓ) (Blocked : σ → Prop) (R : α → σ → Prop) (c : Config ι ο α σ) : Prop :=
  (¬ ∃ f : ℕ → Config ι ο α σ, f 0 = c ∧ ∀ n, ∃ lbl, step S (f n) lbl = some (f (n + 1))) ∧
  ∀ ls c', run (step S) c ls = some c' →
    (∀ a, c'.client = .ready (.ret a) → R a c'.server) ∧
    ((∃ a, c'.client = .ready (.ret a)) ∨ (∃ lbl c'', step S c' lbl = some c'') ∨
      Blocked c'.server)

/-- The rule of consequence. -/
lemma Ends.mono {S : Server ι ο σ ℓ} {Blocked : σ → Prop} {R R' : α → σ → Prop}
    {c : Config ι ο α σ} (h : Ends S Blocked R c) (himp : ∀ a s, R a s → R' a s) :
    Ends S Blocked R' c := by
  refine ⟨h.1, fun ls c' hrun => ?_⟩
  obtain ⟨hdone, hgoes⟩ := h.2 ls c' hrun
  exact ⟨fun a ha => himp a _ (hdone a ha), hgoes⟩

/-- **Total correctness** of a program over a server that implements the object. -/
theorem wp_total (hS : Implements S O Idle Busy) (hT : Terminates S Idle Busy μ r)
    (hR : Responsive S O Idle Busy Blocked) {R : α → σ → Prop} {p : Program ι ο α} {s : σ} {t : τ}
    (hidle : Idle s t) (hwp : p.wp O Q t) (himp : ∀ a s t, Idle s t → Q a t → R a s) :
    Ends S Blocked R ⟨.ready p, s⟩ := by
  have hsound : Sound O Idle Busy Q (⟨.ready p, s⟩ : Config ι ο α σ) := ⟨t, hidle, hwp⟩
  refine ⟨not_infinite_of_acc (step_terminates hS hT hidle hwp), fun ls c' hrun => ?_⟩
  have hsound' := hsound.run hS hrun
  refine ⟨fun a ha => ?_, done_or_step_or_blocked hR hsound'⟩
  rw [Sound, ha] at hsound'
  obtain ⟨t', hidle', hQ⟩ := hsound'
  exact himp a _ t' hidle' hQ

end CallProgram
