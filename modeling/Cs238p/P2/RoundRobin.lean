import Cs238p.Lib.RoundRobin
import Cs238p.P2.Completion

set_option relaxedAutoImplicit false
set_option autoImplicit false

/-!
# The order in which threads run

`thread_candidate` walks the ring of threads from the current one on and skips the terminated ones,
whose number grows while the threads run. This module shows that between two turns of a thread each
of the others has one, in the order of creation, except those that terminate in the meantime.

## Main definitions

* `beginRun` — a number of threads is created and executed.
* `selections` — the threads that are selected along a run.
* `TwoUnfinished` — a thread yields or returns while at least two threads are unfinished.
* `Rotating` — the invariant while threads are running.

## Main results

* `Rotating.step` — a thread that yields or returns passes the turn on.
* `round_robin` — every run.
-/

namespace Cs238p.P2

open CircularList RoundRobin Transition

/-- `n` threads are created and executed. -/
def beginRun (n : ℕ) : List Event := List.replicate n (.create true true) ++ [.execute]

/-- The threads that are selected along a run. `thread_candidate` keeps its choice in
`current_thread`. -/
def selections (s : State) : List Event → List ℕ
  | [] => []
  | e :: es =>
    match step s e with
    | none => []
    | some s' => s'.currentThread.toList ++ selections s' es

/-- A thread yields or returns while at least two threads are unfinished. -/
def TwoUnfinished (s : State) : Event → Prop
  | .yield | .return_ => 2 ≤ (List.range s.allocated).countP s.unfinished
  | .create _ _ | .execute => True

instance (s : State) : DecidablePred (TwoUnfinished s)
  | .yield | .return_ => inferInstanceAs (Decidable (2 ≤ _))
  | .create _ _ | .execute => .isTrue trivial

/-- The other threads in the order of creation, from behind thread `t` on. -/
def createdBehind (n t : ℕ) : List ℕ := List.range' (t + 1) (n - (t + 1)) ++ List.range t

variable {s s' : State} {t c n : ℕ} {l : List ℕ} {es : List Event}

/-! ## One selection -/

/-- The candidate is the next one in the round. -/
lemma next_of_candidate {s₁ : State} (hl : s.Listed l) (hc : s.currentThread = some c)
    (hcand : threadCandidate s = some (some t, s₁)) : Next l s.unfinished c t := by
  rintro r ⟨p, q, rfl, rfl⟩
  rw [threadCandidate_of_current hl hc] at hcand
  cases hfind : (q ++ p).find? s.unfinished with
  | none =>
    rw [hfind] at hcand
    simp at hcand
  | some d =>
    rw [hfind] at hcand
    simp only [Option.some.injEq, Prod.mk.injEq] at hcand
    rw [hcand.1]

/-- A selected thread is the current one; the ring and the unfinished threads stay the same. -/
lemma selected_of_candidate
    (hcand : threadCandidate { s with alarm := true, control := .scheduler } =
      some (some t, { s with alarm := true, control := .scheduler, currentThread := some t }))
    (ht : s.unfinished t = true) (hs' : schedulerExecute s = some s') :
    s'.currentThread = some t ∧ s'.unfinished = s.unfinished ∧ s'.allocated = s.allocated ∧
      ∀ l, s.Listed l → s'.Listed l := by
  obtain ⟨st, hst, hterm⟩ := State.unfinished_iff.mp ht
  obtain ⟨thread, hthread, hstatus⟩ := exists_of_statusOf hst
  rw [schedulerExecute, schedule, hcand] at hs'
  simp only [Option.bind_eq_bind, Option.bind_some, hthread, hstatus] at hs'
  by_cases hfresh : st = .status_
  · subst hfresh
    rw [if_pos rfl, State.store_of_eq
      (s := { s with alarm := true, control := .scheduler, currentThread := some t }) _ hthread]
      at hs'
    simp only [Option.bind_some, if_true, Option.some.injEq] at hs'
    subst hs'
    refine ⟨rfl, ?_, rfl, fun l hl => ?_⟩
    · funext u
      by_cases hut : u = t
      · subst hut
        simp [State.unfinished, hst]
      · simp [State.unfinished, Function.update_of_ne hut]
    · have := hl.update hthread { thread with threadStatus := .running } rfl
      exact ⟨this.ring, this.head, this.tail, this.mem_iff, this.lt⟩
  · rw [if_neg hfresh] at hs'
    simp only [State.deref, Option.bind_some, hthread] at hs'
    by_cases hctx : thread.ctx = true
    · rw [if_pos hctx] at hs'
      simp only [Option.bind_some, if_true, Option.some.injEq] at hs'
      subst hs'
      exact ⟨rfl, rfl, rfl, fun l hl => ⟨hl.ring, hl.head, hl.tail, hl.mem_iff, hl.lt⟩⟩
    · rw [if_neg hctx] at hs'
      simp at hs'

/-- While the threads run, the first `n` threads are in the ring in the order of creation, and
thread `c` is running. -/
structure Rotating (n : ℕ) (s : State) (c : ℕ) : Prop where
  inv : Inv s
  control : s.control = .running
  current : s.currentThread = some c
  listed : s.Listed (List.range n)
  allocated : s.allocated = n

/-- The running thread is unfinished. -/
lemma Rotating.unfinished (h : Rotating n s c) : s.unfinished c = true := by
  obtain ⟨c', thread, hc, hthread, hst⟩ := h.inv.exists_current h.control
  obtain rfl : c' = c := Option.some.inj (hc.symm.trans h.current)
  exact State.unfinished_iff.mpr ⟨.running, by rw [statusOf_of_eq hthread, hst], by decide⟩

lemma Rotating.lt (h : Rotating n s c) : c < n := by
  obtain ⟨st, hst, -⟩ := State.unfinished_iff.mp h.unfinished
  exact List.mem_range.mp ((h.listed.mem_iff c).mpr (by rw [hst]; rfl))

/-- Where another thread is unfinished, the next one in the round runs. -/
lemma Ready.selects (h : Ready s) (hl : s.Listed (List.range n)) (hallocated : s.allocated = n)
    (hc : s.currentThread = some c) (hlt : c < n) (hother : ∃ u, u ≠ c ∧ s.unfinished u = true) :
    ∃ s' d, schedulerExecute s = some s' ∧ Rotating n s' d ∧ s'.unfinished = s.unfinished ∧
      Next (List.range n) s'.unfinished c d := by
  rcases candidate_cases hl hc (List.mem_range.mpr hlt) with ⟨d, -, hun, hcand⟩ | ⟨hnone, -⟩
  · obtain ⟨s', hs', hrunning, hinv⟩ := h.run_candidate hcand hun
    obtain ⟨hcurrent, hunfinished, hsame, hlisted⟩ := selected_of_candidate hcand hun hs'
    have hl' : { s with alarm := true, control := Control.scheduler : State }.Listed
        (List.range n) := ⟨hl.ring, hl.head, hl.tail, hl.mem_iff, hl.lt⟩
    refine ⟨s', d, hs', ⟨hinv, hrunning, hcurrent, hlisted _ hl, hsame.trans hallocated⟩,
      hunfinished, ?_⟩
    rw [hunfinished]
    exact next_of_candidate (s := { s with alarm := true, control := .scheduler }) hl' hc hcand
  · obtain ⟨u, huc, hun⟩ := hother
    rw [hnone u huc] at hun
    simp at hun

/-- If two threads are unfinished, one of them is not the given one. -/
lemma exists_unfinished_ne (h : 2 ≤ (List.range n).countP s.unfinished) (c : ℕ) :
    ∃ u, u ≠ c ∧ s.unfinished u = true := by
  by_contra hnone
  have hsub : (List.range n).filter s.unfinished ⊆ [c] := by
    intro u hu
    by_contra huc
    exact hnone ⟨u, by simpa using huc, (List.mem_filter.mp hu).2⟩
  have hnodup : ((List.range n).filter s.unfinished).Nodup := List.nodup_range.filter _
  have hlen := (List.subperm_of_subset hnodup hsub).length_le
  rw [← List.countP_eq_length_filter, List.length_singleton] at hlen
  omega

/-- **A thread that yields or returns passes the turn on** to the next unfinished one. -/
theorem Rotating.step {e : Event} (h : Rotating n s c) (he : e = .yield ∨ e = .return_)
    (htwo : TwoUnfinished s e) :
    ∃ s' d, P2.step s e = some s' ∧ Rotating n s' d ∧
      (∀ x, s'.unfinished x = true → s.unfinished x = true) ∧
      Next (List.range n) s'.unfinished c d := by
  obtain ⟨c', thread, hc, hthread, hst⟩ := h.inv.exists_current h.control
  obtain rfl : c' = c := Option.some.inj (hc.symm.trans h.current)
  have hother : ∃ u, u ≠ c' ∧ s.unfinished u = true := by
    rcases he with rfl | rfl <;> exact exists_unfinished_ne htwo c'
  obtain ⟨u, huc, hun⟩ := hother
  rcases he with rfl | rfl
  · obtain ⟨hready, hstatus⟩ := h.inv.yielded hc hthread
    have hsame : (s.yielded c' thread).unfinished = s.unfinished := by
      funext x
      rw [State.unfinished, State.unfinished, hstatus]
    have hl := h.listed.update hthread { thread with ctx := true } rfl
    obtain ⟨s', d, hs', hrotating, hunfinished, hnext⟩ := hready.selects
      ⟨hl.ring, hl.head, hl.tail, hl.mem_iff, hl.lt⟩ h.allocated hc h.lt
      ⟨u, huc, by rw [hsame]; exact hun⟩
    refine ⟨s', d, ?_, hrotating, ?_, hnext⟩
    · rw [P2.step, if_pos h.control, schedulerYield_eq hc hthread, hs']
      rfl
    · rw [hunfinished, hsame]
      exact fun _ => id
  · obtain ⟨hready, hstatus⟩ := h.inv.returned hc hthread hst
    have hle : ∀ x, (s.returned c' thread).unfinished x = true → s.unfinished x = true := by
      intro x
      rw [State.unfinished, State.unfinished, hstatus]
      by_cases hxc : x = c'
      · subst hxc
        simp
      · rw [Function.update_of_ne hxc]
        exact id
    have hu : (s.returned c' thread).unfinished u = true := by
      rw [State.unfinished, hstatus, Function.update_of_ne huc]
      exact hun
    have hl := h.listed.update hthread { thread with threadStatus := .terminated } rfl
    obtain ⟨s', d, hs', hrotating, hunfinished, hnext⟩ := hready.selects
      ⟨hl.ring, hl.head, hl.tail, hl.mem_iff, hl.lt⟩ h.allocated hc h.lt ⟨u, huc, hu⟩
    refine ⟨s', d, ?_, hrotating, ?_, hnext⟩
    · rw [P2.step, if_pos h.control, threadReturn_eq hc hthread, hs']
      rfl
    · rw [hunfinished]
      exact hle

/-! ## Runs -/

/-- The running threads take turns. -/
lemma Rotating.run (h : Rotating n s c) (hes : ∀ e ∈ es, e = .yield ∨ e = .return_)
    (htwo : Always P2.step TwoUnfinished s es) :
    ∃ s' d, Transition.run P2.step s es = some s' ∧ Rotating n s' d ∧
      Turns (List.range n) s.unfinished c (selections s es) s'.unfinished := by
  induction es generalizing s c with
  | nil => exact ⟨s, c, rfl, h, .nil _ c⟩
  | cons e es ih =>
    obtain ⟨s₁, d, hstep, h₁, hle, hnext⟩ := h.step (hes e List.mem_cons_self) htwo.1
    obtain ⟨s', d', hrun, h', hturns⟩ :=
      ih h₁ (fun e' he' => hes e' (List.mem_cons_of_mem e he')) (htwo.2 s₁ hstep)
    refine ⟨s', d', (run_cons hstep).trans hrun, h', ?_⟩
    rw [selections, hstep]
    simp only [h₁.current, Option.toList_some, List.singleton_append]
    exact .cons hle hnext hturns

/-- The threads that were created, outside of `scheduler_execute`. -/
lemma run_creates (n : ℕ) :
    ∃ s, run step State.init (List.replicate n (.create true true)) = some s ∧
      Inv s ∧ s.control = .idle ∧ s.allocated = n ∧ s.Listed (List.range n) := by
  induction n with
  | zero =>
    obtain ⟨l, hl⟩ := inv_init.listed
    have hnil : l = [] := by
      apply List.eq_nil_iff_forall_not_mem.mpr
      intro t ht
      exact absurd (hl.lt t ht) (Nat.not_lt_zero t)
    subst hnil
    exact ⟨State.init, rfl, inv_init, rfl, rfl, hl⟩
  | succ n ih =>
    obtain ⟨s, hrun, hinv, hidle, hallocated, hl⟩ := ih
    obtain ⟨s', hcreate, hinv', hcontrol⟩ := hinv.create
    obtain ⟨threads, hcreate', -⟩ := schedulerCreate_of_listed hl
    obtain ⟨s₁, hcreate₁, hcreated⟩ := created_of_listed hl hinv.recorded
    obtain rfl : s₁ = s' := Option.some.inj (hcreate₁.symm.trans hcreate)
    have hnext : s₁.allocated = s.allocated + 1 := by
      rw [hcreate] at hcreate'
      rw [Option.some.inj hcreate']
    refine ⟨s₁, ?_, hinv', hcontrol.trans hidle, hnext.trans (congrArg _ hallocated), ?_⟩
    · have hstep : step s (.create true true) = some s₁ := by
        rw [step, if_pos (.inl hidle), hcreate]
        rfl
      rw [List.replicate_succ', run_append, hrun, Option.bind_some, run_cons hstep, run_nil]
    · have hlisted := hcreated.listed
      rwa [hallocated, ← List.range_succ] at hlisted

/-- The first thread to run is the one that was created first. -/
lemma run_beginRun (hn : 0 < n) : ∃ s, run step State.init (beginRun n) = some s ∧
    Rotating n s 0 := by
  obtain ⟨s, hrun, hinv, hidle, hallocated, hl⟩ := run_creates n
  have hcurrent := hinv.current
  rw [hidle] at hcurrent
  have hmem : 0 ∈ List.range n := List.mem_range.mpr hn
  have hhead : s.head = some 0 := by
    rw [hl.head]
    obtain ⟨m, rfl⟩ : ∃ m, n = m + 1 := ⟨n - 1, by omega⟩
    rw [List.range_succ_eq_map]
    rfl
  have hcand : threadCandidate { s with alarm := true, control := .scheduler } = some (some 0,
      { s with alarm := true, control := .scheduler, currentThread := some 0 }) := by
    simp only [threadCandidate, hcurrent.1, hhead]
  obtain ⟨st, hst⟩ := Option.isSome_iff_exists.mp ((hl.mem_iff 0).mp hmem)
  have hun : s.unfinished 0 = true :=
    State.unfinished_iff.mpr ⟨st, hst, by rw [hcurrent.2 0 st hst]; decide⟩
  obtain ⟨s', hs', hrunning, hinv'⟩ := (hinv.ready_of_idle hidle).run_candidate hcand hun
  obtain ⟨hcur, -, hsame, hlisted⟩ := selected_of_candidate hcand hun hs'
  refine ⟨s', ?_, hinv', hrunning, hcur, hlisted _ hl, hsame.trans hallocated⟩
  have hstep : step s .execute = some s' := by
    rw [step, if_pos hidle, hs']
    rfl
  rw [beginRun, run_append, hrun, Option.bind_some, run_cons hstep, run_nil]

/-- The ring of the threads, seen from one of them. -/
lemma behind_range (ht : t < n) : Behind (List.range n) t (createdBehind n t) := by
  refine ⟨List.range t, List.range' (t + 1) (n - (t + 1)), ?_, rfl⟩
  have happend : List.range' 0 t ++ List.range' (0 + t) (n - t) = List.range' 0 (t + (n - t)) :=
    List.range'_append_1
  rw [Nat.zero_add, show t + (n - t) = n by omega] at happend
  rw [← List.range'_succ, List.range_eq_range', List.range_eq_range',
    show n - (t + 1) + 1 = n - t by omega, happend]

/-- A thread that is created and is not `t` is behind `t`. -/
lemma mem_createdBehind {u : ℕ} (hu : u < n) (hut : u ≠ t) : u ∈ createdBehind n t := by
  rw [createdBehind, List.mem_append, List.mem_range'_1, List.mem_range]
  omega

/-- **Round robin.** At least two threads are created and executed, and from then on the running
thread yields or returns while at least two threads are unfinished. Then a thread that is selected
is unfinished; and between two consecutive selections of a thread, the selections are in the order
of creation from behind it on, and every other thread that is unfinished throughout is selected
exactly once.

**Proof sketch.** The threads are a ring in the order of creation, and each selection is that of the
first unfinished thread behind the running one. -/
theorem round_robin (n : ℕ) (hn : 2 ≤ n) (es : List Event)
    (hes : ∀ e ∈ es, e = .yield ∨ e = .return_)
    (htwo : Always step TwoUnfinished State.init (beginRun n ++ es)) :
    (∃ s t, run step State.init (beginRun n ++ es) = some s ∧ s.control = .running ∧
      s.currentThread = some t ∧ t < n ∧ s.unfinished t = true) ∧
    ∀ es₁ es₂ s s' t sel, es = es₁ ++ es₂ →
      run step State.init (beginRun n ++ es₁) = some s → run step s es₂ = some s' →
      s.currentThread = some t → selections s es₂ = sel ++ [t] → t ∉ sel →
      sel.Sublist (createdBehind n t) ∧
        ∀ u < n, u ≠ t → s'.unfinished u = true → sel.count u = 1 := by
  obtain ⟨s₀, hbegin, h₀⟩ := run_beginRun (show 0 < n by omega)
  have htwo₀ := htwo.right hbegin
  constructor
  · obtain ⟨s, t, hrun, h, -⟩ := h₀.run hes htwo₀
    refine ⟨s, t, ?_, h.control, h.current, h.lt, h.unfinished⟩
    rw [run_append, hbegin, Option.bind_some, hrun]
  · rintro es₁ es₂ s s' t sel rfl hrun hrun' hcurrent hsel hnot
    have hes₁ : ∀ e ∈ es₁, e = .yield ∨ e = .return_ :=
      fun e he => hes e (List.mem_append_left es₂ he)
    have hes₂ : ∀ e ∈ es₂, e = .yield ∨ e = .return_ :=
      fun e he => hes e (List.mem_append_right es₁ he)
    obtain ⟨s₁, c, hrun₁, h₁, -⟩ := h₀.run hes₁ htwo₀.left
    rw [run_append, hbegin, Option.bind_some, hrun₁] at hrun
    obtain rfl := Option.some.inj hrun
    obtain rfl : c = t := Option.some.inj (h₁.current.symm.trans hcurrent)
    obtain ⟨s₂, d, hrun₂, h₂, hturns⟩ := h₁.run hes₂ (htwo₀.right hrun₁)
    obtain rfl := Option.some.inj (hrun₂.symm.trans hrun')
    rw [hsel] at hturns
    have hbehind := behind_range h₁.lt
    obtain ⟨hsub, hall⟩ := hturns.round List.nodup_range hbehind hnot
    refine ⟨hsub, fun u hu hut hun => ?_⟩
    have hnodup := (hbehind.nodup List.nodup_range).sublist hsub
    exact List.count_eq_one_of_mem hnodup (hall u (mem_createdBehind hu hut) hun)

/-- Three threads, of which the second returns at its first turn. -/
theorem round_robin_three :
    (∃ s t, run step State.init (beginRun 3 ++ [.yield, .return_, .yield]) = some s ∧
      s.control = .running ∧ s.currentThread = some t ∧ t < 3 ∧ s.unfinished t = true) ∧
    ∀ es₁ es₂ s s' t sel, [.yield, .return_, .yield] = es₁ ++ es₂ →
      run step State.init (beginRun 3 ++ es₁) = some s → run step s es₂ = some s' →
      s.currentThread = some t → selections s es₂ = sel ++ [t] → t ∉ sel →
      sel.Sublist (createdBehind 3 t) ∧
        ∀ u < 3, u ≠ t → s'.unfinished u = true → sel.count u = 1 :=
  round_robin 3 (by decide) [.yield, .return_, .yield] (by decide) (by decide)

end Cs238p.P2
