import Cs238p.Lib.Transition
import Cs238p.P2.ThreadRing

set_option relaxedAutoImplicit false
set_option autoImplicit false

/-!
# When `scheduler_execute` returns

`scheduler_execute` is meant to return after all threads have run to completion. The search of
`thread_candidate` ends when it comes back to the current thread without looking at it, so a
thread that yields while it is the only unfinished one makes the call return; and on an empty list
`destroy` follows the null head. This module shows that nothing else goes wrong.

## Main definitions

* `AllDone` — every created thread was started once and has returned once.
* `Sound` — an event crashes nothing, and leaves `scheduler_execute` only with `AllDone`.
* `Admissible` — allocations succeed, `scheduler_execute` is called with a thread to run, and no
  thread yields as the only unfinished one.
* `Inv` — the invariant of the states between events.

## Main results

* `sound_iff_admissible` — all events of a run are sound if and only if all are admissible.
-/

namespace Cs238p.P2

open CircularList Transition

/-- Every created thread was started exactly once and has run to completion. -/
def AllDone (s : State) : Prop :=
  ∀ t < s.allocated, s.started.count t = 1 ∧ s.finished.count t = 1

/-- The event leads to no invalid memory access, and if it makes `scheduler_execute` return, all
work is done. -/
def Sound (s : State) (e : Event) : Prop :=
  ∀ s', step s e = some s' → s'.control ≠ .crashed ∧
    ((∀ threadOk stackOk, e ≠ .create threadOk stackOk) → s'.control = .idle → AllDone s')

/-- The allocations of the event succeed; there is a thread to execute; a thread yields only while
another one is unfinished. -/
def Admissible (s : State) : Event → Prop
  | .create threadOk stackOk => threadOk = true ∧ stackOk = true
  | .execute => s.control = .idle → s.head ≠ none
  | .yield => s.control = .running →
    ∃ t, some t ≠ s.currentThread ∧ s.unfinished t = true
  | .return_ => True

/-! ## The invariant -/

namespace State

/-- How often a thread has been started and has returned, as far as its status tells; a thread that
was freed has done both. -/
def expected (s : State) (t : ℕ) : Option (ℕ × ℕ) :=
  match statusOf s.threads t with
  | none => some (if t < s.allocated then (1, 1) else (0, 0))
  | some .status_ => some (0, 0)
  | some .running => some (1, 0)
  | some .sleeping => none
  | some .terminated => some (1, 1)

/-- The record of started and finished threads agrees with the statuses. -/
def Recorded (s : State) : Prop :=
  ∀ t, s.expected t = some (s.started.count t, s.finished.count t)

end State

/-- The invariant between events: the threads are a ring, the record agrees with their statuses,
outside of `scheduler_execute` no thread has been started, inside of it the current thread is
running, and every other running thread has saved its context. -/
structure Inv (s : State) : Prop where
  listed : ∃ l, s.Listed l
  recorded : s.Recorded
  current : match s.control with
    | .idle => s.currentThread = none ∧ ∀ t st, statusOf s.threads t = some st → st = .status_
    | .running => ∃ c, s.currentThread = some c ∧ statusOf s.threads c = some .running
    | _ => False
  saved : ∀ t, statusOf s.threads t = some .running → s.currentThread ≠ some t →
    ctxOf s.threads t = some true

/-- What holds where `setjmp` returns in `scheduler_execute`. -/
structure Ready (s : State) : Prop where
  listed : ∃ l, s.Listed l
  recorded : s.Recorded
  saved : ∀ t, statusOf s.threads t = some .running → ctxOf s.threads t = some true

lemma inv_init : Inv State.init :=
  ⟨⟨[], trivial, rfl, rfl, by simp [State.init, statusOf], by simp⟩, fun _ => rfl,
    ⟨rfl, by simp [State.init, statusOf]⟩, by simp [State.init, statusOf]⟩

variable {s s' : State} {t c : ℕ}

/-- The record at a thread. -/
lemma State.Recorded.counts {st : ThreadStatus} (h : s.Recorded)
    (ht : statusOf s.threads t = some st) (hst : st ≠ .sleeping) :
    s.started.count t = (if st = .status_ then 0 else 1) ∧
      s.finished.count t = if st = .terminated then 1 else 0 := by
  have hrec := h t
  rw [State.expected, ht] at hrec
  cases st <;> simp_all [eq_comm]

/-- No thread has the status `STATUS_SLEEPING`. -/
lemma State.Recorded.ne_sleeping {st : ThreadStatus} (h : s.Recorded)
    (ht : statusOf s.threads t = some st) : st ≠ .sleeping := by
  rintro rfl
  have hrec := h t
  rw [State.expected, ht] at hrec
  exact absurd hrec (by simp)

/-! ## `scheduler_execute` from the return of `setjmp` on -/

/-- If there is a candidate, it runs. -/
lemma Ready.run_candidate (h : Ready s)
    (hcand : threadCandidate { s with alarm := true, control := .scheduler } =
      some (some t, { s with alarm := true, control := .scheduler, currentThread := some t }))
    (ht : s.unfinished t = true) :
    ∃ s', schedulerExecute s = some s' ∧ s'.control = .running ∧ Inv s' := by
  obtain ⟨st, hst, hterm⟩ := State.unfinished_iff.mp ht
  obtain ⟨thread, hthread, hstatus⟩ := exists_of_statusOf hst
  obtain ⟨l, hl⟩ := h.listed
  have hsleep := h.recorded.ne_sleeping hst
  rw [schedulerExecute, schedule, hcand]
  simp only [Option.bind_eq_bind, Option.bind_some, hthread, hstatus]
  by_cases hfresh : st = .status_
  · subst hfresh
    rw [if_pos rfl, State.store_of_eq
      (s := { s with alarm := true, control := .scheduler, currentThread := some t }) _ hthread]
    simp only [Option.bind_some, if_true, Option.some.injEq, exists_eq_left', true_and]
    refine ⟨⟨l, ?_⟩, fun u => ?_, ⟨t, rfl, ?_⟩, fun u hu hcur => ?_⟩
    · have := hl.update hthread { thread with threadStatus := .running } rfl
      exact ⟨this.ring, this.head, this.tail, this.mem_iff, this.lt⟩
    · by_cases hut : u = t
      · subst hut
        have := h.recorded.counts hst hsleep
        simp only [State.expected, statusOf_update, Function.update_self, Option.map_some,
          List.count_append, List.count_singleton_self]
        simp [this]
      · have hrec := h.recorded u
        simp only [State.expected] at hrec ⊢
        simp only [statusOf_update, Function.update_of_ne hut, List.count_append,
          List.count_singleton, beq_iff_eq, Ne.symm hut, if_false, Nat.add_zero]
        exact hrec
    · simp
    · have hut : u ≠ t := fun heq => hcur (heq ▸ rfl)
      simp only [statusOf_update, Function.update_of_ne hut] at hu
      simp only [ctxOf_update, Function.update_of_ne hut]
      exact h.saved u hu
  · have hrunning : st = .running := by
      cases st <;> simp_all
    subst hrunning
    have hctx : thread.ctx = true := by
      have := h.saved t hst
      rw [ctxOf_of_eq hthread] at this
      exact Option.some.inj this
    rw [if_neg hfresh]
    simp only [State.deref, Option.bind_some, hthread, hctx, if_true, Option.some.injEq,
      exists_eq_left', true_and]
    exact ⟨⟨l, hl.ring, hl.head, hl.tail, hl.mem_iff, hl.lt⟩, h.recorded, ⟨t, rfl, hst⟩,
      fun u hu _ => h.saved u hu⟩

/-- If there is no candidate and all threads are terminated, the call returns with all work
done. -/
lemma Ready.return_of_forall_terminated (h : Ready s)
    (hcand : threadCandidate { s with alarm := true, control := .scheduler } =
      some (none, { s with alarm := true, control := .scheduler }))
    (hhead : s.head ≠ none) (hterm : ∀ t st, statusOf s.threads t = some st → st = .terminated) :
    ∃ s', schedulerExecute s = some s' ∧ s'.control = .idle ∧ AllDone s' ∧ Inv s' := by
  obtain ⟨l, hl⟩ := h.listed
  have hl' : { s with alarm := true, control := Control.scheduler : State }.Listed l :=
    ⟨hl.ring, hl.head, hl.tail, hl.mem_iff, hl.lt⟩
  have hne : l ≠ [] := by
    rintro rfl
    exact hhead hl.head
  have hterm' (t : ℕ) (ht : t ∈ l) : statusOf s.threads t = some .terminated := by
    obtain ⟨st, hst⟩ := Option.isSome_iff_exists.mp ((hl.mem_iff t).mp ht)
    rw [hst, hterm t st hst]
  have hcounts (t : ℕ) (ht : t < s.allocated) :
      s.started.count t = 1 ∧ s.finished.count t = 1 := by
    cases hst : statusOf s.threads t with
    | none =>
      have hrec := h.recorded t
      rw [State.expected, hst] at hrec
      simp only [ht, if_true, Option.some.injEq, Prod.mk.injEq] at hrec
      exact ⟨hrec.1.symm, hrec.2.symm⟩
    | some st =>
      have hcnt := h.recorded.counts hst (h.recorded.ne_sleeping hst)
      rw [hterm t st hst] at hcnt
      exact hcnt
  rw [schedulerExecute, schedule, hcand]
  simp only [Option.bind_eq_bind, Option.bind_some, reduceCtorEq, if_false]
  rw [destroy_of_forall_terminated hl' hne hterm']
  refine ⟨_, rfl, rfl, hcounts, ⟨[], trivial, rfl, rfl, by simp [statusOf], by simp⟩, fun t => ?_,
    ⟨rfl, by simp [statusOf]⟩, by simp [statusOf]⟩
  simp only [State.expected, statusOf, Option.map_none]
  by_cases ht : t < s.allocated
  · rw [if_pos ht, (hcounts t ht).1, (hcounts t ht).2]
  · have hout : statusOf s.threads t = none := by
      cases hst : statusOf s.threads t with
      | none => rfl
      | some st => exact absurd (hl.lt t ((hl.mem_iff t).mpr (by simp [hst]))) ht
    have hrec := h.recorded t
    rw [State.expected, hout] at hrec
    exact hrec

/-- If there is no candidate although a thread is running, the call does not end with all work
done. -/
lemma Ready.not_allDone (h : Ready s)
    (hcand : threadCandidate { s with alarm := true, control := .scheduler } =
      some (none, { s with alarm := true, control := .scheduler }))
    (hc : statusOf s.threads c = some .running) :
    (s.orCrash (schedulerExecute s)).control = .crashed ∨
      (s.orCrash (schedulerExecute s)).control = .idle ∧
        ¬ AllDone (s.orCrash (schedulerExecute s)) := by
  obtain ⟨l, hl⟩ := h.listed
  have hlt : c < s.allocated := hl.lt c ((hl.mem_iff c).mpr (by simp [hc]))
  have hcount := (h.recorded.counts hc (by simp)).2
  rw [schedulerExecute, schedule, hcand]
  simp only [Option.bind_eq_bind, Option.bind_some, reduceCtorEq, if_false]
  cases hd : destroy { s with alarm := true, control := .scheduler } with
  | none => exact .inl rfl
  | some s' =>
    obtain ⟨hallocated, -, hfinished⟩ := destroy_frame hd
    refine .inr ⟨rfl, fun hdone => ?_⟩
    have hone := (hdone c (hallocated.symm ▸ hlt)).2
    simp only [State.orCrash, Option.bind_some, Option.getD_some] at hone
    rw [hfinished] at hone
    simp_all

/-- Either another thread is unfinished and a candidate, or there is no candidate. -/
lemma candidate_cases {l : List ℕ} (h : s.Listed l) (hc : s.currentThread = some c)
    (hmem : c ∈ l) :
    (∃ t, t ≠ c ∧ s.unfinished t = true ∧
      threadCandidate { s with alarm := true, control := .scheduler } =
        some (some t, { s with alarm := true, control := .scheduler, currentThread := some t })) ∨
    ((∀ t ≠ c, s.unfinished t = false) ∧
      threadCandidate { s with alarm := true, control := .scheduler } =
        some (none, { s with alarm := true, control := .scheduler })) := by
  obtain ⟨l, r, rfl⟩ := List.append_of_mem hmem
  have h' : { s with alarm := true, control := Control.scheduler : State }.Listed (l ++ c :: r) :=
    ⟨h.ring, h.head, h.tail, h.mem_iff, h.lt⟩
  have hcand := threadCandidate_of_current h' hc
  cases hfind : (r ++ l).find? s.unfinished with
  | none =>
    refine .inr ⟨fun t ht => ?_, ?_⟩
    · by_contra hun
      rw [Bool.not_eq_false] at hun
      obtain ⟨st, hst, -⟩ := State.unfinished_iff.mp hun
      have hmem : t ∈ l ++ c :: r := (h.mem_iff t).mpr (by simp [hst])
      have hother : t ∈ r ++ l := by
        simp only [List.mem_append, List.mem_cons, ht, false_or] at hmem ⊢
        exact hmem.symm
      exact List.find?_eq_none.mp hfind t hother hun
    · rw [hcand]
      exact congrArg _ (by rw [show { s with alarm := true, control := Control.scheduler :
        State }.unfinished = s.unfinished from rfl, hfind])
  | some t =>
    refine .inl ⟨t, ?_, List.find?_some hfind, ?_⟩
    · rintro rfl
      exact h.ring.not_mem (List.mem_of_find?_eq_some hfind)
    · rw [hcand]
      exact congrArg _ (by rw [show { s with alarm := true, control := Control.scheduler :
        State }.unfinished = s.unfinished from rfl, hfind])

/-- A thread of the list that is not unfinished is terminated. -/
lemma statusOf_of_not_unfinished {l : List ℕ} (hl : s.Listed l) (ht : t ∈ l)
    (hun : s.unfinished t = false) :
    statusOf s.threads t = some .terminated := by
  obtain ⟨st, hst⟩ := Option.isSome_iff_exists.mp ((hl.mem_iff t).mp ht)
  by_cases hterm : st = .terminated
  · rw [hst, hterm]
  · have hun' := State.unfinished_iff.mpr ⟨st, hst, hterm⟩
    rw [hun] at hun'
    simp at hun'

/-! ## The events -/

/-- A thread with status `STATUS_` was added behind the others, and nothing else changed. -/
structure Created (s s' : State) (l : List ℕ) : Prop where
  listed : s'.Listed (l ++ [s.allocated])
  recorded : s'.Recorded
  control : s'.control = s.control
  current : s'.currentThread = s.currentThread
  alarm : s'.alarm = s.alarm
  fresh : statusOf s.threads s.allocated = none
  status : statusOf s'.threads = Function.update (statusOf s.threads) s.allocated (some .status_)
  ctx : ctxOf s'.threads = Function.update (ctxOf s.threads) s.allocated (some false)

/-- `scheduler_create` with successful allocations adds a thread. -/
lemma created_of_listed {l : List ℕ} (hl : s.Listed l) (hrecorded : s.Recorded) :
    ∃ s', schedulerCreate true true s = some s' ∧ Created s s' l := by
  obtain ⟨threads, hcreate, hring, hstatus, hctx⟩ := schedulerCreate_of_listed hl
  have hnew : statusOf s.threads s.allocated = none := by
    cases hst : statusOf s.threads s.allocated with
    | none => rfl
    | some st => exact absurd (hl.lt _ ((hl.mem_iff _).mpr (by simp [hst]))) (Nat.lt_irrefl _)
  refine ⟨_, hcreate, ⟨hring, rfl, by rw [List.getLast?_concat], fun t => ?_, fun t ht => ?_⟩,
    fun t => ?_, rfl, rfl, rfl, hnew, hstatus, hctx⟩
  · simp only [hstatus]
    by_cases ht : t = s.allocated
    · subst ht
      simp
    · simp [ht, hl.mem_iff]
  · rcases List.mem_append.mp ht with ht | ht
    · exact Nat.lt_succ_of_lt (hl.lt t ht)
    · obtain rfl := List.mem_singleton.mp ht
      exact Nat.lt_succ_self _
  · have hrec := hrecorded t
    simp only [State.expected, hstatus] at hrec ⊢
    by_cases ht : t = s.allocated
    · subst ht
      rw [hnew] at hrec
      simpa using hrec
    · rw [Function.update_of_ne ht, ← hrec]
      have hlt : t < s.allocated + 1 ↔ t < s.allocated := by omega
      simp only [hlt]

/-- The status of an older thread. -/
lemma Created.statusOf_of_ne {l : List ℕ} (h : Created s s' l) (ht : t ≠ s.allocated) :
    statusOf s'.threads t = statusOf s.threads t := by
  rw [h.status, Function.update_of_ne ht]

/-- The new thread is not running, and the older ones are as they were. -/
lemma Created.statusOf_running {l : List ℕ} (h : Created s s' l) :
    statusOf s'.threads t = some .running ↔ statusOf s.threads t = some .running := by
  by_cases ht : t = s.allocated
  · subst ht
    rw [h.status, Function.update_self, h.fresh]
    simp
  · rw [h.statusOf_of_ne ht]

/-- The context of a running thread. -/
lemma Created.ctxOf_of_running {l : List ℕ} (h : Created s s' l)
    (ht : statusOf s.threads t = some .running) : ctxOf s'.threads t = ctxOf s.threads t := by
  have hne : t ≠ s.allocated := by
    rintro rfl
    rw [h.fresh] at ht
    simp at ht
  rw [h.ctx, Function.update_of_ne hne]

/-- If all threads were new, they still are. -/
lemma Created.eq_status_ {l : List ℕ} (h : Created s s' l)
    (hnew : ∀ t st, statusOf s.threads t = some st → st = .status_) (t : ℕ) (st : ThreadStatus)
    (ht : statusOf s'.threads t = some st) : st = .status_ := by
  by_cases hta : t = s.allocated
  · subst hta
    rw [h.status, Function.update_self] at ht
    exact (Option.some.inj ht).symm
  · rw [h.statusOf_of_ne hta] at ht
    exact hnew t st ht

/-- `scheduler_create` with successful allocations keeps the invariant and the place of control. -/
lemma Inv.create (h : Inv s) : ∃ s', schedulerCreate true true s = some s' ∧ Inv s' ∧
    s'.control = s.control := by
  obtain ⟨l, hl⟩ := h.listed
  obtain ⟨s', hcreate, hcreated⟩ := created_of_listed hl h.recorded
  refine ⟨s', hcreate, ⟨⟨_, hcreated.listed⟩, hcreated.recorded, ?_, fun t ht hcur => ?_⟩,
    hcreated.control⟩
  · have hcurrent := h.current
    rw [hcreated.control, hcreated.current]
    cases hcontrol : s.control with
    | idle =>
      rw [hcontrol] at hcurrent
      exact ⟨hcurrent.1, hcreated.eq_status_ hcurrent.2⟩
    | running =>
      rw [hcontrol] at hcurrent
      obtain ⟨c, hc, hst⟩ := hcurrent
      exact ⟨c, hc, hcreated.statusOf_running.mpr hst⟩
    | scheduler => exact absurd hcurrent (by simp [hcontrol])
    | crashed => exact absurd hcurrent (by simp [hcontrol])
  · rw [hcreated.statusOf_running] at ht
    rw [hcreated.current] at hcur
    rw [hcreated.ctxOf_of_running ht]
    exact h.saved t ht hcur

/-- Outside of `scheduler_execute`, its call finds the threads ready. -/
lemma Inv.ready_of_idle (h : Inv s) (hidle : s.control = .idle) : Ready s := by
  have hcurrent := h.current
  rw [hidle] at hcurrent
  exact ⟨h.listed, h.recorded, fun t ht => h.saved t ht (by simp [hcurrent.1])⟩

/-- The state in which a yielding thread jumps to the scheduler. -/
def State.yielded (s : State) (c : ℕ) (thread : Thread) : State :=
  { s with
    alarm := false, threads := Function.update s.threads c (some { thread with ctx := true }) }

/-- A thread that yields leaves the threads ready, with the same statuses. -/
lemma Inv.yielded (h : Inv s) {thread : Thread} (hc : s.currentThread = some c)
    (hthread : s.threads c = some thread) :
    Ready (s.yielded c thread) ∧ statusOf (s.yielded c thread).threads = statusOf s.threads := by
  obtain ⟨l, hl⟩ := h.listed
  have hstatus : statusOf (s.yielded c thread).threads = statusOf s.threads := by
    rw [State.yielded, statusOf_update, Option.map_some, ← statusOf_of_eq hthread,
      Function.update_eq_self]
  have hl' := hl.update hthread { thread with ctx := true } rfl
  refine ⟨⟨⟨l, hl'.ring, hl'.head, hl'.tail, hl'.mem_iff, hl'.lt⟩, fun t => ?_, fun t ht => ?_⟩,
    hstatus⟩
  · rw [State.expected, hstatus]
    exact h.recorded t
  · rw [hstatus] at ht
    by_cases htc : t = c
    · subst htc
      simp [State.yielded]
    · simp only [State.yielded, ctxOf_update, Function.update_of_ne htc]
      exact h.saved t ht (by rw [hc]; simpa using Ne.symm htc)

/-- The state in which a thread whose function has returned jumps to the scheduler. -/
def State.returned (s : State) (c : ℕ) (thread : Thread) : State :=
  { s with
    threads := Function.update s.threads c (some { thread with threadStatus := .terminated })
    finished := s.finished ++ [c] }

/-- A thread that returns leaves the threads ready. -/
lemma Inv.returned (h : Inv s) {thread : Thread} (hc : s.currentThread = some c)
    (hthread : s.threads c = some thread) (hrunning : thread.threadStatus = .running) :
    Ready (s.returned c thread) ∧ statusOf (s.returned c thread).threads =
      Function.update (statusOf s.threads) c (some .terminated) := by
  obtain ⟨l, hl⟩ := h.listed
  have hst : statusOf s.threads c = some .running := by rw [statusOf_of_eq hthread, hrunning]
  have hstatus : statusOf (s.returned c thread).threads =
      Function.update (statusOf s.threads) c (some .terminated) := by
    rw [State.returned, statusOf_update, Option.map_some]
  have hl' := hl.update hthread { thread with threadStatus := .terminated } rfl
  refine ⟨⟨⟨l, hl'.ring, hl'.head, hl'.tail, hl'.mem_iff, hl'.lt⟩, fun t => ?_, fun t ht => ?_⟩,
    hstatus⟩
  · rw [State.expected, hstatus]
    by_cases htc : t = c
    · subst htc
      have hcnt := h.recorded.counts hst (by simp)
      rw [Function.update_self]
      simp [State.returned, hcnt]
    · have hrec := h.recorded t
      rw [State.expected] at hrec
      rw [Function.update_of_ne htc]
      simp only [State.returned, List.count_append, List.count_singleton, beq_iff_eq,
        Ne.symm htc, if_false, Nat.add_zero]
      exact hrec
  · rw [hstatus] at ht
    have htc : t ≠ c := by
      rintro rfl
      rw [Function.update_self] at ht
      exact absurd ht (by simp)
    rw [Function.update_of_ne htc] at ht
    simp only [State.returned, ctxOf_update, Function.update_of_ne htc]
    exact h.saved t ht (by rw [hc]; simpa using Ne.symm htc)

/-- The current thread while a thread is running. -/
lemma Inv.exists_current (h : Inv s) (hrunning : s.control = .running) :
    ∃ c thread, s.currentThread = some c ∧ s.threads c = some thread ∧
      thread.threadStatus = .running := by
  have hcurrent := h.current
  rw [hrunning] at hcurrent
  obtain ⟨c, hc, hst⟩ := hcurrent
  obtain ⟨thread, hthread, hstatus⟩ := exists_of_statusOf hst
  exact ⟨c, thread, hc, hthread, hstatus⟩

lemma schedulerYield_eq {thread : Thread} (hc : s.currentThread = some c)
    (hthread : s.threads c = some thread) :
    schedulerYield s = schedulerExecute (s.yielded c thread) := by
  rw [schedulerYield, State.store_of_pointer (s := { s with alarm := false }) _ hc hthread]
  rfl

/-- What `scheduler_execute` finds after a yield of thread `c`: the threads are as they were, but
the context of `c` is saved. -/
structure Yielded (s : State) (c : ℕ) (thread : Thread) (l : List ℕ) : Prop where
  current : s.currentThread = some c
  stored : s.threads c = some thread
  running : statusOf s.threads c = some .running
  ready : Ready (s.yielded c thread)
  listed : (s.yielded c thread).Listed l
  mem : c ∈ l
  status : statusOf (s.yielded c thread).threads = statusOf s.threads

lemma Inv.exists_yielded (h : Inv s) (hrunning : s.control = .running) :
    ∃ c thread l, Yielded s c thread l := by
  obtain ⟨c, thread, hc, hthread, hstatus⟩ := h.exists_current hrunning
  obtain ⟨hready, hsame⟩ := h.yielded hc hthread
  obtain ⟨l, hl⟩ := hready.listed
  have hst : statusOf s.threads c = some .running := by rw [statusOf_of_eq hthread, hstatus]
  have hmem : c ∈ l := (hl.mem_iff c).mpr (by rw [hsame, hst]; rfl)
  exact ⟨c, thread, l, hc, hthread, hst, hready, hl, hmem, hsame⟩

variable {l : List ℕ} {thread : Thread}

/-- The same threads are unfinished. -/
lemma Yielded.unfinished (h : Yielded s c thread l) (t : ℕ) :
    (s.yielded c thread).unfinished t = s.unfinished t := by
  rw [State.unfinished, State.unfinished, h.status]

/-- Another thread is unfinished and a candidate, or there is no candidate. -/
lemma Yielded.cases (h : Yielded s c thread l) :
    (∃ t, t ≠ c ∧ s.unfinished t = true ∧
      threadCandidate { s.yielded c thread with alarm := true, control := .scheduler } =
        some (some t, { s.yielded c thread with
          alarm := true, control := .scheduler, currentThread := some t })) ∨
    ((∀ t ≠ c, s.unfinished t = false) ∧
      threadCandidate { s.yielded c thread with alarm := true, control := .scheduler } =
        some (none, { s.yielded c thread with alarm := true, control := .scheduler })) := by
  simp only [← h.unfinished]
  exact candidate_cases h.listed h.current h.mem

lemma threadReturn_eq {thread : Thread} (hc : s.currentThread = some c)
    (hthread : s.threads c = some thread) :
    threadReturn s = schedulerExecute (s.returned c thread) := by
  rw [threadReturn]
  simp only [hc, Option.bind_eq_bind, Option.bind_some]
  rw [State.store_of_eq _ hthread]
  simp only [Option.bind_some, State.returned, hc]

/-- What `scheduler_execute` finds after the function of thread `c` has returned: `c` is
terminated. -/
structure Returned (s : State) (c : ℕ) (thread : Thread) (l : List ℕ) : Prop where
  current : s.currentThread = some c
  stored : s.threads c = some thread
  ready : Ready (s.returned c thread)
  listed : (s.returned c thread).Listed l
  mem : c ∈ l
  status : statusOf (s.returned c thread).threads =
    Function.update (statusOf s.threads) c (some .terminated)

lemma Inv.exists_returned (h : Inv s) (hrunning : s.control = .running) :
    ∃ c thread l, Returned s c thread l := by
  obtain ⟨c, thread, hc, hthread, hst⟩ := h.exists_current hrunning
  obtain ⟨hready, hstatus⟩ := h.returned hc hthread hst
  obtain ⟨l, hl⟩ := hready.listed
  have hmem : c ∈ l := (hl.mem_iff c).mpr (by rw [hstatus, Function.update_self]; rfl)
  exact ⟨c, thread, l, hc, hthread, hready, hl, hmem, hstatus⟩

/-- The thread that has returned is terminated. -/
lemma Returned.terminated (h : Returned s c thread l) :
    statusOf (s.returned c thread).threads c = some .terminated := by
  rw [h.status, Function.update_self]

/-- The same other threads are unfinished. -/
lemma Returned.unfinished (h : Returned s c thread l) (ht : t ≠ c) :
    (s.returned c thread).unfinished t = s.unfinished t := by
  rw [State.unfinished, State.unfinished, h.status, Function.update_of_ne ht]

/-- Another thread is unfinished and a candidate, or there is no candidate. -/
lemma Returned.cases (h : Returned s c thread l) :
    (∃ t, t ≠ c ∧ (s.returned c thread).unfinished t = true ∧
      threadCandidate { s.returned c thread with alarm := true, control := .scheduler } =
        some (some t, { s.returned c thread with
          alarm := true, control := .scheduler, currentThread := some t })) ∨
    ((∀ t ∈ l, statusOf (s.returned c thread).threads t = some .terminated) ∧
      threadCandidate { s.returned c thread with alarm := true, control := .scheduler } =
        some (none, { s.returned c thread with alarm := true, control := .scheduler })) := by
  rcases candidate_cases h.listed h.current h.mem with hcand | ⟨hnone, hcand⟩
  · exact .inl hcand
  · refine .inr ⟨fun t ht => ?_, hcand⟩
    by_cases htc : t = c
    · rw [htc, h.terminated]
    · exact statusOf_of_not_unfinished h.listed ht (hnone t htc)

/-- The head is a thread of the list. -/
lemma State.Listed.exists_head (h : s.Listed l) (hmem : c ∈ l) : ∃ a ∈ l, s.head = some a := by
  cases l with
  | nil => exact absurd hmem List.not_mem_nil
  | cons a l => exact ⟨a, List.mem_cons_self, h.head⟩

/-- A running state is a sound result. -/
lemma sound_of_running {e : Event} (hs' : s'.control = .running) :
    s'.control ≠ .crashed ∧ ((∀ threadOk stackOk, e ≠ .create threadOk stackOk) →
      s'.control = .idle → AllDone s') := by
  rw [hs']
  exact ⟨by decide, fun _ h => absurd h (by decide)⟩

/-- **An admissible event keeps the invariant and is sound.** -/
theorem Inv.step (h : Inv s) {e : Event} (ha : Admissible s e) (hstep : step s e = some s') :
    Inv s' ∧ s'.control ≠ .crashed ∧
      ((∀ threadOk stackOk, e ≠ .create threadOk stackOk) → s'.control = .idle → AllDone s') := by
  cases e with
  | create threadOk stackOk =>
    obtain ⟨rfl, rfl⟩ := ha
    obtain ⟨s₁, hcreate, hinv, hcontrol⟩ := h.create
    simp only [P2.step, hcreate, Option.ite_none_right_eq_some, Option.some.injEq] at hstep
    obtain ⟨hwhere, rfl⟩ := hstep
    rw [State.orCrash, Option.getD_some]
    refine ⟨hinv, ?_, fun hne => absurd rfl (hne true true)⟩
    rw [hcontrol]
    rcases hwhere with hwhere | hwhere <;> (rw [hwhere]; decide)
  | execute =>
    simp only [P2.step, Option.ite_none_right_eq_some, Option.some.injEq] at hstep
    obtain ⟨hidle, rfl⟩ := hstep
    obtain ⟨l, hl⟩ := h.listed
    have hcurrent := h.current
    rw [hidle] at hcurrent
    cases hhead : s.head with
    | none => exact absurd hhead (ha hidle)
    | some a =>
      have hmem : a ∈ l := List.mem_of_head? (hl.head.symm.trans hhead)
      obtain ⟨st, hst⟩ := Option.isSome_iff_exists.mp ((hl.mem_iff a).mp hmem)
      have hun : s.unfinished a = true :=
        State.unfinished_iff.mpr ⟨st, hst, by rw [hcurrent.2 a st hst]; decide⟩
      have hcand : threadCandidate { s with alarm := true, control := .scheduler } = some (some a,
          { s with alarm := true, control := .scheduler, currentThread := some a }) := by
        simp only [threadCandidate, hcurrent.1, hhead]
      obtain ⟨s₁, hrun, hrunning, hinv⟩ := (h.ready_of_idle hidle).run_candidate hcand hun
      rw [hrun, State.orCrash, Option.getD_some]
      exact ⟨hinv, sound_of_running hrunning⟩
  | yield =>
    simp only [P2.step, Option.ite_none_right_eq_some, Option.some.injEq] at hstep
    obtain ⟨hrunning, rfl⟩ := hstep
    obtain ⟨c, thread, l, hy⟩ := h.exists_yielded hrunning
    rw [schedulerYield_eq hy.current hy.stored]
    rcases hy.cases with ⟨t, -, hun, hcand⟩ | ⟨hnone, -⟩
    · rw [← hy.unfinished] at hun
      obtain ⟨s₁, hrun, hrunning, hinv⟩ := hy.ready.run_candidate hcand hun
      rw [hrun, State.orCrash, Option.getD_some]
      exact ⟨hinv, sound_of_running hrunning⟩
    · obtain ⟨t, htc, hun⟩ := ha hrunning
      rw [hnone t fun heq => htc (by rw [heq, hy.current])] at hun
      simp at hun
  | return_ =>
    simp only [P2.step, Option.ite_none_right_eq_some, Option.some.injEq] at hstep
    obtain ⟨hrunning, rfl⟩ := hstep
    obtain ⟨c, thread, l, hr⟩ := h.exists_returned hrunning
    rw [threadReturn_eq hr.current hr.stored]
    rcases hr.cases with ⟨t, -, hun, hcand⟩ | ⟨hterm, hcand⟩
    · obtain ⟨s₁, hrun, hrunning, hinv⟩ := hr.ready.run_candidate hcand hun
      rw [hrun, State.orCrash, Option.getD_some]
      exact ⟨hinv, sound_of_running hrunning⟩
    · obtain ⟨a, -, hhead⟩ := hr.listed.exists_head hr.mem
      have hterm' (t : ℕ) (st : ThreadStatus)
          (ht : statusOf (s.returned c thread).threads t = some st) : st = .terminated := by
        have hmem : t ∈ l := (hr.listed.mem_iff t).mpr (by rw [ht]; rfl)
        exact Option.some.inj (ht.symm.trans (hterm t hmem))
      obtain ⟨s₁, hrun, hidle, hdone, hinv⟩ :=
        hr.ready.return_of_forall_terminated hcand (by simp [hhead]) hterm'
      rw [hrun, State.orCrash, Option.getD_some]
      exact ⟨hinv, by rw [hidle]; decide, fun _ _ => hdone⟩

/-- A failed allocation in `scheduler_create` is followed by a write through a null pointer. -/
lemma schedulerCreate_eq_none {threadOk stackOk : Bool}
    (h : ¬ (threadOk = true ∧ stackOk = true)) : schedulerCreate threadOk stackOk s = none := by
  cases threadOk <;> cases stackOk <;> simp_all [schedulerCreate]

/-- **A sound event is admissible.** -/
theorem Inv.admissible_of_sound (h : Inv s) {e : Event} (hsound : Sound s e) :
    Admissible s e := by
  cases e with
  | create threadOk stackOk =>
    by_contra hfail
    have hwhere : s.control = .idle ∨ s.control = .running := by
      have hcurrent := h.current
      cases hcontrol : s.control <;> simp_all
    have hcrash := (hsound _ (by rw [P2.step, if_pos hwhere])).1
    rw [schedulerCreate_eq_none hfail] at hcrash
    exact hcrash rfl
  | execute =>
    intro hidle hhead
    have hcurrent := h.current
    rw [hidle] at hcurrent
    have hcrash := (hsound _ (by rw [P2.step, if_pos hidle])).1
    have hnone : schedulerExecute s = none := by
      simp [schedulerExecute, schedule, threadCandidate, hcurrent.1, hhead, destroy]
    rw [hnone] at hcrash
    exact hcrash rfl
  | yield =>
    intro hrunning
    obtain ⟨c, thread, l, hy⟩ := h.exists_yielded hrunning
    rcases hy.cases with ⟨t, htc, hun, -⟩ | ⟨-, hcand⟩
    · exact ⟨t, by rw [hy.current]; simpa using htc, hun⟩
    · have hst : statusOf (s.yielded c thread).threads c = some .running := by
        rw [hy.status, hy.running]
      have hresult := hsound _ (by rw [P2.step, if_pos hrunning])
      rw [schedulerYield_eq hy.current hy.stored] at hresult
      have hnot := hy.ready.not_allDone hcand hst
      cases hexec : schedulerExecute (s.yielded c thread) with
      | none =>
        rw [hexec] at hresult
        exact absurd rfl hresult.1
      | some s₁ =>
        rw [hexec] at hresult hnot
        simp only [State.orCrash, Option.getD_some] at hresult hnot
        rcases hnot with hcrash | ⟨hidle, hnot⟩
        · exact absurd hcrash hresult.1
        · exact absurd (hresult.2 (by simp) hidle) hnot
  | return_ => trivial

/-- **When `scheduler_execute` keeps its contract.** Along every sequence of events, no event
follows an invalid pointer and every return of `scheduler_execute` finds all created threads
started once and completed, if and only if all allocations succeed, `scheduler_execute` is called
with at least one thread to run, and no thread yields while it is the only unfinished one.

**Proof sketch.** Between events the threads form a ring whose statuses agree with the record of
started and finished threads. An admissible event hands control to the first unfinished thread
behind the current one; if there is none, the event was the return of the last thread and the whole
ring is freed. In the other cases the null head is followed, or the call returns while the thread
that yielded is still running. -/
theorem sound_iff_admissible (events : List Event) :
    Always step Sound State.init events ↔ Always step Admissible State.init events := by
  constructor
  · intro h
    exact h.imp_of_invariant (fun _ _ _ hinv hsound hstep =>
      (hinv.step (hinv.admissible_of_sound hsound) hstep).1)
      (fun _ _ hinv hsound => hinv.admissible_of_sound hsound) inv_init
  · intro h
    exact h.imp_of_invariant (fun _ _ _ hinv ha hstep => (hinv.step ha hstep).1)
      (fun _ _ hinv ha _ hstep => (hinv.step ha hstep).2) inv_init

/-- A single thread that yields once makes `scheduler_execute` return before it has completed, and
without any thread the call follows the null head. -/
theorem not_sound_single_yield_and_empty :
    ¬ Always step Sound State.init [.create true true, .execute, .yield] ∧
      ¬ Always step Sound State.init [.execute] := by
  constructor
  · intro h
    have h' : Always step Sound State.init ([.create true true, .execute] ++ [.yield]) := h
    have hdone := ((h'.last rfl) _ rfl).2 (by simp) rfl 0 (by decide)
    exact absurd hdone.2 (by decide)
  · intro h
    exact (h.1 _ rfl).1 rfl

end Cs238p.P2
