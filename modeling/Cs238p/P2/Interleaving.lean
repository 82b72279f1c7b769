import Cs238p.Lib.Rounds
import Cs238p.P2.RingRuns
import Cs238p.P2.RoundRobin

set_option relaxedAutoImplicit false
set_option autoImplicit false

/-!
# The work of the threads

The function of a thread does its work in pieces, between which it yields, of its own will or by the
alarm. This module runs the threads with their work, and shows that `scheduler_execute` does it
round by round: first the first pieces of all threads in the order of creation, then the second
ones, and so on, until all is done or a thread yields while it is the only unfinished one. In the
latter case the call returns although there is work left.

## Main definitions

* `Machine`, `Machine.step` — the scheduler with the work of the threads, and the next piece.
* `pieces` — the pieces, round by round.
* `Serving` — the invariant while the threads run.

## Main results

* `Serving.step` — the next piece.
* `execute_interleaves` — what is done before `scheduler_execute` returns, and when that is all.

## Implementation notes

How the work of a thread is divided into pieces is arbitrary, so the alarm may interrupt it
anywhere; it does not interrupt the functions of the scheduler. A thread has at least one piece,
behind the last of which its function returns.
-/

namespace Cs238p.P2

open Rounds RoundRobin Transition

variable {α : Type}

/-- The scheduler, the pieces that the threads have not yet done, and what was done, with the thread
that did it. -/
structure Machine (α : Type) where
  sched : State
  left : ℕ → List α
  trace : List (ℕ × α)

/-- The running thread does its next piece. Then it yields if there is another one, and its function
returns if not. -/
def Machine.step (m : Machine α) (_ : Unit) : Option (Machine α) :=
  if m.sched.control = .running then
    m.sched.currentThread.bind fun c =>
      match m.left c with
      | [] => none
      | a :: l =>
        (P2.step m.sched (if l = [] then .return_ else .yield)).map fun s =>
          ⟨s, Function.update m.left c l, m.trace ++ [(c, a)]⟩
  else none

/-- The pieces of the threads, round by round: in the `j`-th round the `j`-th piece of each thread
that has one, in the order of creation. -/
def pieces (n rounds : ℕ) (work : ℕ → List α) : List (ℕ × α) :=
  (List.range rounds).flatMap fun j => (List.range n).filterMap fun t => (work t)[j]?.map (t, ·)

variable {s s' : State} {n c d : ℕ} {m : Machine α}

/-! ## The scheduler -/

/-- The threads that are unfinished after the running one has yielded or returned. -/
def State.unfinishedAfter (s : State) (c : ℕ) : Event → ℕ → Bool
  | .return_ => Function.update s.unfinished c false
  | _ => s.unfinished

/-- **The turn passes on** to the next unfinished thread, if there is one. -/
lemma Rotating.passes {e : Event} (h : Rotating n s c) (he : e = .yield ∨ e = .return_)
    (hother : ∃ u, u ≠ c ∧ s.unfinished u = true) :
    ∃ s' d, P2.step s e = some s' ∧ Rotating n s' d ∧ s'.unfinished = s.unfinishedAfter c e ∧
      Next (List.range n) s'.unfinished c d := by
  obtain ⟨c', thread, hc, hthread, hst⟩ := h.inv.exists_current h.control
  obtain rfl : c' = c := Option.some.inj (hc.symm.trans h.current)
  obtain ⟨u, huc, hun⟩ := hother
  rcases he with rfl | rfl
  · obtain ⟨hready, hstatus⟩ := h.inv.yielded hc hthread
    have hsame : (s.yielded c' thread).unfinished = s.unfinished := by
      funext x
      rw [State.unfinished, State.unfinished, hstatus]
    have hl := h.listed.update hthread { thread with ctx := true } rfl
    obtain ⟨s', d, hs', hrotating, hunfinished, hnext⟩ := hready.selects
      ⟨hl.ring, hl.head, hl.tail, hl.mem_iff, hl.lt⟩ h.allocated hc h.lt
      ⟨u, huc, by rw [hsame]; exact hun⟩
    refine ⟨s', d, ?_, hrotating, hunfinished.trans hsame, hnext⟩
    rw [P2.step, if_pos h.control, schedulerYield_eq hc hthread, hs']
    rfl
  · obtain ⟨hready, hstatus⟩ := h.inv.returned hc hthread hst
    have hafter : (s.returned c' thread).unfinished = Function.update s.unfinished c' false := by
      funext x
      rw [State.unfinished, hstatus]
      by_cases hxc : x = c'
      · subst hxc
        simp
      · rw [Function.update_of_ne hxc, Function.update_of_ne hxc]
        rfl
    have hl := h.listed.update hthread { thread with threadStatus := .terminated } rfl
    obtain ⟨s', d, hs', hrotating, hunfinished, hnext⟩ := hready.selects
      ⟨hl.ring, hl.head, hl.tail, hl.mem_iff, hl.lt⟩ h.allocated hc h.lt
      ⟨u, huc, by rw [hafter, Function.update_of_ne huc]; exact hun⟩
    refine ⟨s', d, ?_, hrotating, hunfinished.trans hafter, hnext⟩
    rw [P2.step, if_pos h.control, threadReturn_eq hc hthread, hs']
    rfl

/-- A yield of the only unfinished thread ends the execution, with work left. -/
lemma Rotating.yields_alone (h : Rotating n s c) (halone : ∀ u, u ≠ c → s.unfinished u = false) :
    ∃ s', P2.step s .yield = some s' ∧ s'.control = .idle ∧ ¬ AllDone s' := by
  obtain ⟨c', thread, l, hy⟩ := h.inv.exists_yielded h.control
  obtain rfl : c' = c := Option.some.inj (hy.current.symm.trans h.current)
  have hnone (t : ℕ) (ht : some t ≠ s.currentThread) : s.unfinished t = false :=
    halone t fun heq => ht (by rw [heq, hy.current])
  rcases hy.cases with ⟨t, htc, hun, -⟩ | ⟨-, hcand⟩
  · rw [halone t htc] at hun
    cases hun
  have hyield := schedulerYield_eq hy.current hy.stored
  obtain ⟨s', hs', hidle⟩ : ∃ s', schedulerExecute (s.yielded c' thread) = some s' ∧
      s'.control = .idle := by
    by_cases hhead : s.head = s.currentThread
    · have hun : (s.yielded c' thread).unfinished c' = true := by
        rw [hy.unfinished]
        exact h.unfinished
      exact ⟨_, (hy.ready.return_of_head hcand hy.current (hhead.trans hy.current) hun).1, rfl⟩
    · obtain ⟨_, _, _, _, _, -, -, hstops⟩ := h.inv.sched.yield_stops h.control hhead hnone
      exact ⟨_, hyield.symm.trans hstops, rfl⟩
  have hrunning : statusOf (s.yielded c' thread).threads c' = some .running := by
    rw [hy.status]
    exact hy.running
  refine ⟨s', ?_, hidle, ?_⟩
  · rw [P2.step, if_pos h.control, hyield, hs']
    rfl
  · rcases hy.ready.not_allDone hcand hrunning with hcrash | ⟨-, hnot⟩
    · rw [hs', State.orCrash, Option.getD_some, hidle] at hcrash
      cases hcrash
    · rwa [hs', State.orCrash, Option.getD_some] at hnot

/-- The return of the only unfinished thread ends the execution, with all work done. -/
lemma Rotating.returns_last (h : Rotating n s c) (halone : ∀ u, u ≠ c → s.unfinished u = false) :
    ∃ s', P2.step s .return_ = some s' ∧ s'.control = .idle ∧ AllDone s' := by
  obtain ⟨c', thread, l, hr⟩ := h.inv.exists_returned h.control
  obtain rfl : c' = c := Option.some.inj (hr.current.symm.trans h.current)
  rcases hr.cases with ⟨t, htc, hun, -⟩ | ⟨hterm, hcand⟩
  · rw [hr.unfinished htc, halone t htc] at hun
    cases hun
  · obtain ⟨a, -, hhead⟩ := hr.listed.exists_head hr.mem
    have hterm' (t : ℕ) (st : ThreadStatus)
        (ht : statusOf (s.returned c' thread).threads t = some st) : st = .terminated := by
      have hmem : t ∈ l := (hr.listed.mem_iff t).mpr (by rw [ht]; rfl)
      exact Option.some.inj (ht.symm.trans (hterm t hmem))
    obtain ⟨s', hs', hidle, hdone, -⟩ :=
      hr.ready.return_of_forall_terminated hcand (by simp [hhead]) hterm'
    refine ⟨s', ?_, hidle, hdone⟩
    rw [P2.step, if_pos h.control, threadReturn_eq hr.current hr.stored, hs']
    rfl

/-! ## The pieces -/

/-- The threads that still have work, from the running one on, with their work. -/
def queue (n : ℕ) (left : ℕ → List α) (c : ℕ) : List (ℕ × List α) :=
  (c :: createdBehind n c).map fun t => (t, left t)

/-- Thread `c` is running, the unfinished threads are those that have work left, and what was done
is what the threads do in rounds. -/
structure Serving (n : ℕ) (all : List (ℕ × α)) (m : Machine α) (c : ℕ) : Prop where
  rotating : Rotating n m.sched c
  left : ∀ t < n, m.sched.unfinished t = true ↔ m.left t ≠ []
  order : all = m.trace ++ merge (queue n m.left c)
  untilRepeated : untilRepeated all = m.trace ++ Rounds.untilRepeated (merge (queue n m.left c))

/-- The execution has ended: it went on until a thread would be served twice in a row. -/
structure Served (all : List (ℕ × α)) (m : Machine α) : Prop where
  idle : m.sched.control = .idle
  trace : m.trace = untilRepeated all
  done : AllDone m.sched ↔ untilRepeated all = all

variable {all : List (ℕ × α)}

/-- The threads behind thread `c` are other threads. -/
lemma ne_of_mem_createdBehind {t : ℕ} (hc : c < n) (ht : t ∈ createdBehind n c) :
    t < n ∧ t ≠ c := by
  rw [createdBehind, List.mem_append, List.mem_range'_1, List.mem_range] at ht
  omega

/-- The circle of the threads, seen from another one. -/
lemma createdBehind_eq {r₁ r₂ : List ℕ} (hc : c < n) (hd : d < n)
    (h : createdBehind n c = r₁ ++ d :: r₂) : createdBehind n d = r₂ ++ c :: r₁ := by
  have hbehind := behind_range hc
  rw [h] at hbehind
  exact (behind_range hd).unique List.nodup_range hbehind.symm

/-- **After a piece, the queue begins with the next unfinished thread.** The threads between have no
work. -/
lemma merge_queue_eq (left : ℕ → List α) {ready : ℕ → Bool} {l : List α} (hc : c < n)
    (hnext : Next (List.range n) ready c d)
    (hready : ∀ t < n, ready t = true ↔ Function.update left c l t ≠ []) :
    merge ((createdBehind n c).map (fun t => (t, left t)) ++ [(c, l)]) =
      merge (queue n (Function.update left c l) d) := by
  have hfind := hnext _ (behind_range hc)
  obtain ⟨hd, r₁, r₂, hr, hskip⟩ := List.find?_eq_some_iff_append.mp hfind
  have hmem (t : ℕ) := ne_of_mem_createdBehind (t := t) hc
  have hdn := (hmem d (by simp [hr])).1
  have hleft : (createdBehind n c).map (fun t => (t, left t)) =
      (createdBehind n c).map fun t => (t, Function.update left c l t) :=
    List.map_congr_left fun t ht => by rw [Function.update_of_ne (hmem t ht).2]
  have hnil : ∀ p ∈ r₁.map (fun t => (t, Function.update left c l t)), p.2 = [] := by
    intro p hp
    obtain ⟨t, ht, rfl⟩ := List.mem_map.mp hp
    by_contra hne
    have hready' := (hready t (hmem t (by simp [hr, ht])).1).mpr hne
    have := hskip t ht
    rw [hready'] at this
    cases this
  have hlast : [(c, l)] = [c].map fun t => (t, Function.update left c l t) := by
    rw [List.map_singleton, Function.update_self]
  rw [hleft, hlast, ← List.map_append, hr, queue, createdBehind_eq hc hdn hr, List.append_assoc,
    List.map_append, merge_rotate hnil, ← List.map_append]
  simp

/-- **After a piece of thread `c`**, the unfinished threads are those that have work left. -/
lemma Serving.left_after {l : List α} {e : Event} (h : Serving n all m c)
    (he : (if l = [] then Event.return_ else .yield) = e) {t : ℕ} (ht : t < n) :
    m.sched.unfinishedAfter c e t = true ↔ Function.update m.left c l t ≠ [] := by
  by_cases htc : t = c
  · subst htc
    rw [Function.update_self]
    by_cases hl : l = []
    · rw [if_pos hl] at he
      subst he
      simp [State.unfinishedAfter, hl]
    · rw [if_neg hl] at he
      subst he
      simp [State.unfinishedAfter, hl, h.rotating.unfinished]
  · have hsame : m.sched.unfinishedAfter c e t = m.sched.unfinished t := by
      cases e <;> simp [State.unfinishedAfter, htc]
    rw [Function.update_of_ne htc, hsame, h.left t ht]

/-- **The next piece** leaves another thread running, or ends the execution.

**Proof sketch.** If another thread is unfinished, the turn passes on to the next one in the ring,
which is the next one in the queue. If not, the queue consists of the running thread, which ends the
execution by its return, or by its yield, where it would be served again. -/
lemma Serving.step (h : Serving n all m c) : ∃ m', m.step () = some m' ∧
    ((∃ d, Serving n all m' d) ∨ Served all m') ∧
      all.length - m'.trace.length < all.length - m.trace.length := by
  obtain ⟨a, l, hleft⟩ := List.exists_cons_of_ne_nil
    ((h.left c h.rotating.lt).mp h.rotating.unfinished)
  have hqueue : merge (queue n m.left c) =
      (c, a) :: merge ((createdBehind n c).map (fun t => (t, m.left t)) ++ [(c, l)]) := by
    rw [queue, List.map_cons, hleft, merge_cons_cons]
  obtain ⟨e, he, hkind⟩ : ∃ e : Event, (if l = [] then .return_ else .yield) = e ∧
      (e = .yield ∨ e = .return_) := by
    by_cases hl : l = []
    · exact ⟨.return_, if_pos hl, .inr rfl⟩
    · exact ⟨.yield, if_neg hl, .inl rfl⟩
  have hstep {s' : State} (hs' : P2.step m.sched e = some s') :
      m.step () = some ⟨s', Function.update m.left c l, m.trace ++ [(c, a)]⟩ := by
    rw [Machine.step, if_pos h.rotating.control, h.rotating.current, Option.bind_some, hleft]
    simp only [he, hs', Option.map_some]
  have hless : all.length - (m.trace ++ [(c, a)]).length < all.length - m.trace.length := by
    have hall := congrArg List.length h.order
    rw [hqueue, List.length_append, List.length_cons] at hall
    rw [List.length_append, List.length_singleton]
    omega
  by_cases hother : ∃ u, u ≠ c ∧ m.sched.unfinished u = true
  · obtain ⟨s', d, hs', hrotating, hunfinished, hnext⟩ := h.rotating.passes hkind hother
    have hready : ∀ t < n, s'.unfinished t = true ↔ Function.update m.left c l t ≠ [] := by
      intro t ht
      rw [hunfinished]
      exact h.left_after he ht
    have hmerge := merge_queue_eq m.left h.rotating.lt hnext hready
    obtain ⟨b, k, hb⟩ := List.exists_cons_of_ne_nil
      ((hready d hrotating.lt).mp hrotating.unfinished)
    have hhead : merge (queue n (Function.update m.left c l) d) =
      (d, b) :: merge ((createdBehind n d).map
        (fun t => (t, Function.update m.left c l t)) ++ [(d, k)]) := by
      rw [queue, List.map_cons, hb, merge_cons_cons]
    have hcd : c ≠ d := (ne_of_mem_createdBehind h.rotating.lt (List.mem_of_find?_eq_some
      (hnext _ (behind_range h.rotating.lt)))).2.symm
    refine ⟨_, hstep hs', .inl ⟨d, hrotating, hready, ?_, ?_⟩, hless⟩
    · rw [h.order, hqueue, hmerge, List.append_assoc, List.singleton_append]
    · rw [h.untilRepeated, hqueue, hmerge, untilRepeated_cons, List.append_assoc,
        List.singleton_append]
      rw [hhead]
      intro y hy
      obtain rfl := Option.some.inj hy
      exact hcd
  · have halone (u : ℕ) (hu : u ≠ c) : m.sched.unfinished u = false := by
      by_contra hun
      exact hother ⟨u, hu, by simpa using hun⟩
    have hnil : ∀ p ∈ (createdBehind n c).map (fun t => (t, m.left t)), p.2 = [] := by
      intro p hp
      obtain ⟨t, ht, rfl⟩ := List.mem_map.mp hp
      obtain ⟨htn, htc⟩ := ne_of_mem_createdBehind h.rotating.lt ht
      by_contra hne
      have hun := (h.left t htn).mpr hne
      rw [halone t htc] at hun
      cases hun
    rw [merge_of_nil_append hnil] at hqueue
    have horder := h.order
    have huntil := h.untilRepeated
    cases l with
    | nil =>
      obtain rfl : Event.return_ = e := he
      obtain ⟨s', hs', hidle, hdone⟩ := h.rotating.returns_last halone
      rw [hqueue, merge_cons_nil, merge_nil] at horder huntil
      have hall : Rounds.untilRepeated all = all := huntil.trans horder.symm
      refine ⟨_, hstep hs', .inr ⟨hidle, ?_, ⟨fun _ => hall, fun _ => hdone⟩⟩, hless⟩
      rw [hall, horder]
    | cons b l =>
      obtain rfl : Event.yield = e := he
      obtain ⟨s', hs', hidle, hdone⟩ := h.rotating.yields_alone halone
      rw [hqueue, merge_cons_cons] at horder huntil
      rw [untilRepeated_of_eq (x := (c, a)) (y := (c, b)) _ rfl] at huntil
      have hall : Rounds.untilRepeated all ≠ all := by
        intro heq
        have hlen := congrArg List.length heq
        rw [huntil, horder] at hlen
        simp at hlen
      exact ⟨_, hstep hs', .inr ⟨hidle, huntil.symm, ⟨fun h => absurd h hdone,
        fun h => absurd h hall⟩⟩, hless⟩

end Cs238p.P2
