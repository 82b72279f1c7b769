import Cs238p.P2.RingRuns

set_option relaxedAutoImplicit false
set_option autoImplicit false

/-!
# What becomes of a torn ring

A thread that yields as the only unfinished one, behind the head, makes `destroy` free the threads
before it and stop: the threads that are left are linked in a line whose last link points to freed
memory. This module follows all runs, those with such a yield included: a created thread closes the
ring again, a call of `scheduler_execute` resumes the thread, and its next yield or return follows
the freed pointer.

## Main definitions

* `Torn` — the list after a `destroy` that has stopped.
* `Between` — the invariant of the states between events of all runs.

## Main results

* `Between.step` — every event keeps the invariant.
-/

namespace Cs238p.P2

open CircularList Transition

variable {s s' : State} {t c : ℕ} {l r : List ℕ}

/-- The threads `c :: r` are linked in a line whose last link points to freed memory. The head `c`
is running, and the others are terminated. Outside of `scheduler_execute` no thread is current. -/
structure Torn (s : State) (c : ℕ) (r : List ℕ) : Prop where
  path : ∃ a, Path (linkOf s.threads) c r a ∧ s.threads a = none
  nodup : (c :: r).Nodup
  head : s.head = some c
  tail : s.tail = (c :: r).getLast?
  mem_iff : ∀ t, t ∈ c :: r ↔ (statusOf s.threads t).isSome
  lt : ∀ t ∈ c :: r, t < s.allocated
  recorded : s.Recorded
  status : statusOf s.threads c = some .running
  others : ∀ t ≠ c, s.unfinished t = false
  control : match s.control with
    | .idle => s.currentThread = none ∧ ctxOf s.threads c = some true
    | .running => s.currentThread = some c
    | .crashed => True
    | .scheduler => False

/-! ## How a ring is torn -/

/-- A thread that `destroy` has freed has run to completion. -/
lemma State.Recorded.stopped (h : s.Recorded) (hlt : ∀ u ∈ l, u < s.allocated)
    (hterm : ∀ u ∈ l, statusOf s.threads u = some .terminated) :
    (s.stopped l c).Recorded := by
  intro t
  rw [State.expected]
  by_cases ht : t ∈ l
  · have hnone : statusOf (s.stopped l c).threads t = none := by
      simp only [State.stopped, statusOf, if_pos ht, Option.map_none]
    obtain ⟨hstarted, hfinished⟩ := h.counts (hterm t ht) (by simp)
    have hlt' : t < (s.stopped l c).allocated := hlt t ht
    rw [hnone]
    simp only [hlt', if_true, Option.some.injEq, Prod.mk.injEq]
    exact ⟨hstarted.symm, hfinished.symm⟩
  · rw [statusOf_stopped ht]
    exact h t

/-- **A yield that makes `destroy` stop tears the ring.** -/
lemma Sched.torn (h : Sched s) (hrunning : s.control = .running)
    (hhead : s.head ≠ s.currentThread)
    (hnone : ∀ t, some t ≠ s.currentThread → s.unfinished t = false) :
    ∃ s' c r, schedulerYield s = some s' ∧ Torn s' c r := by
  obtain ⟨c, thread, a, l, r, hy, hterm, hyield⟩ := h.yield_stops hrunning hhead hnone
  have hl := hy.listed
  have hnodup := hl.ring.nodup
  rw [List.nodup_append] at hnodup
  obtain ⟨-, hcr, hdisjoint⟩ := hnodup
  have hkept {u : ℕ} (hu : u ∈ c :: r) : u ∉ a :: l := fun hul => hdisjoint u hul u hu rfl
  have hcl : c ∉ a :: l := hkept List.mem_cons_self
  have hstatus (t : ℕ) : statusOf ((s.yielded c thread).stopped (a :: l) c).threads t =
      if t ∈ a :: l then none else statusOf s.threads t := by
    by_cases ht : t ∈ a :: l
    · simp only [State.stopped, statusOf, if_pos ht, Option.map_none]
    · rw [statusOf_stopped ht, if_neg ht, hy.status]
  refine ⟨_, c, r, hyield, ⟨a, ?_, if_pos List.mem_cons_self⟩, hcr, rfl, ?_, fun t => ?_,
    fun t ht => hl.lt t (List.mem_append_right _ ht), ?_, ?_, fun t ht => ?_, rfl, ?_⟩
  · have hpath := (path_append.mp hl.ring.rotate).1
    exact hpath.congr fun u hu => linkOf_stopped (c := c) (hkept hu)
  · rw [← List.getLast?_append_of_ne_nil (a :: l) (List.cons_ne_nil c r)]
    exact hl.tail
  · have hmem := hl.mem_iff t
    rw [hy.status] at hmem
    have hstatus' := hstatus t
    simp only at hstatus' ⊢
    rw [hstatus']
    by_cases ht : t ∈ a :: l
    · rw [if_pos ht]
      exact ⟨fun htr => absurd ht (hkept htr), fun hsome => absurd hsome (by simp)⟩
    · rw [if_neg ht, ← hmem, List.mem_append]
      exact ⟨.inr, fun hor => hor.resolve_left ht⟩
  · exact hy.ready.recorded.stopped (c := c) (fun u hu => hl.lt u (List.mem_append_left _ hu)) hterm
  · exact (hstatus c).trans (by rw [if_neg hcl, hy.running])
  · have hstatus' := hstatus t
    rw [State.unfinished]
    simp only at hstatus' ⊢
    rw [hstatus']
    split
    · rfl
    · exact hnone t (by rw [hy.current]; simpa using ht)
  · have hctx : ctxOf ((s.yielded c thread).stopped (a :: l) c).threads c =
        ctxOf (s.yielded c thread).threads c := by
      simp only [State.stopped, ctxOf, if_neg hcl]
    refine hctx.trans ?_
    simp [State.yielded]

/-! ## A created thread closes the ring -/

/-- The link of the tail changed to the head. -/
def State.closed (s : State) (z : ℕ) (thread : Thread) : State :=
  { s with
    threads := Function.update s.threads z (some { thread with linkedThread := s.head }) }

/-- `scheduler_create` overwrites the link of the tail. -/
lemma schedulerCreate_closed {z : ℕ} {thread : Thread} (hhead : s.head = some c)
    (htail : s.tail = some z) (hthread : s.threads z = some thread) (hz : z ≠ s.allocated) :
    schedulerCreate true true (s.closed z thread) = schedulerCreate true true s := by
  rw [schedulerCreate, schedulerCreate]
  simp only [State.closed, hhead, htail, Bool.true_eq_false, if_false]
  rw [State.store_of_eq _ ((Function.update_of_ne hz _ _).trans (Function.update_self _ _ _)),
    State.store_of_eq _ ((Function.update_of_ne hz _ _).trans hthread)]
  simp only [Option.bind_eq_bind, Option.bind_some]
  congr 1
  simp only [State.mk.injEq, and_true]
  rw [Function.update_comm hz, Function.update_idem]

/-- A torn ring is closed by one link, between events. -/
lemma Torn.exists_closed (h : Torn s c r) (hwhere : s.control = .idle ∨ s.control = .running) :
    ∃ z thread, s.tail = some z ∧ s.threads z = some thread ∧ z ≠ s.allocated ∧
      Sched (s.closed z thread) := by
  obtain ⟨z, hz⟩ : ∃ z, (c :: r).getLast? = some z :=
    ⟨_, List.getLast?_eq_some_getLast (List.cons_ne_nil c r)⟩
  have hmem : z ∈ c :: r := List.mem_of_getLast? hz
  obtain ⟨st, hst⟩ := Option.isSome_iff_exists.mp ((h.mem_iff z).mp hmem)
  obtain ⟨thread, hthread, -⟩ := exists_of_statusOf hst
  obtain ⟨a, hpath, -⟩ := h.path
  have hstatus : statusOf (s.closed z thread).threads = statusOf s.threads := by
    rw [State.closed, statusOf_update, Option.map_some, ← statusOf_of_eq hthread,
      Function.update_eq_self]
  have hctx : ctxOf (s.closed z thread).threads = ctxOf s.threads := by
    rw [State.closed, ctxOf_update, Option.map_some, ← ctxOf_of_eq hthread,
      Function.update_eq_self]
  have hlisted : (s.closed z thread).Listed (c :: r) := by
    refine ⟨⟨h.nodup, ?_⟩, h.head, h.tail, fun t => by rw [hstatus]; exact h.mem_iff t, h.lt⟩
    rw [State.closed, linkOf_update, Option.bind_some, h.head]
    exact hpath.redirect_getLast h.nodup hz c
  have honly (t : ℕ) (ht : statusOf s.threads t = some .running) : t = c := by
    by_contra htc
    have hun := State.unfinished_iff.mpr ⟨.running, ht, by decide⟩
    rw [h.others t htc] at hun
    simp at hun
  have hcontrol := h.control
  refine ⟨z, thread, h.tail.trans hz, hthread, Nat.ne_of_lt (h.lt z hmem),
    proper_of_listed hlisted fun u hu => ?_, fun t => ?_, ?_⟩
  · rw [hstatus]
    have hcurrent : s.currentThread = some u := hu
    rcases hwhere with hidle | hrunning
    · rw [hidle] at hcontrol
      rw [hcontrol.1] at hcurrent
      simp at hcurrent
    · rw [hrunning] at hcontrol
      obtain rfl : c = u := Option.some.inj (hcontrol.symm.trans hcurrent)
      rw [h.status]
      rfl
  · rw [State.expected, hstatus]
    exact h.recorded t
  · simp only [hstatus, hctx]
    rcases hwhere with hidle | hrunning
    · rw [hidle] at hcontrol
      simp only [State.closed, hidle]
      refine ⟨fun t ht => ?_, fun a ha => ?_, fun u hu => ?_⟩
      · rw [honly t ht, hcontrol.2]
      · obtain rfl : c = a := Option.some.inj (h.head.symm.trans ha)
        exact State.unfinished_iff.mpr ⟨.running, (congrFun hstatus c).trans h.status, by decide⟩
      · rw [hcontrol.1] at hu
        simp at hu
    · rw [hrunning] at hcontrol
      simp only [State.closed, hrunning]
      refine ⟨⟨c, hcontrol, h.status⟩, fun t ht hne => ?_⟩
      rw [honly t ht] at hne
      exact absurd hcontrol hne

/-- **`scheduler_create` closes a torn ring.** -/
lemma Torn.create (h : Torn s c r) (hwhere : s.control = .idle ∨ s.control = .running) :
    ∃ s', schedulerCreate true true s = some s' ∧ Sched s' := by
  obtain ⟨z, thread, htail, hthread, hz, hsched⟩ := h.exists_closed hwhere
  obtain ⟨s', hcreate, hsched', -⟩ := hsched.create hwhere
  rw [schedulerCreate_closed h.head htail hthread hz] at hcreate
  exact ⟨s', hcreate, hsched'⟩

/-! ## The thread at the head of a torn ring -/

/-- `scheduler_execute` resumes the thread at the head. -/
lemma Torn.execute (h : Torn s c r) (hidle : s.control = .idle) :
    ∃ s', schedulerExecute s = some s' ∧ Torn s' c r := by
  have hcontrol := h.control
  rw [hidle] at hcontrol
  obtain ⟨hnull, hctx⟩ := hcontrol
  obtain ⟨thread, hthread, hstatus⟩ := exists_of_statusOf h.status
  rw [ctxOf_of_eq hthread, Option.some.injEq] at hctx
  have hrun : schedulerExecute s =
      some { s with alarm := true, control := .running, currentThread := some c } := by
    simp [schedulerExecute, schedule, threadCandidate, hnull, h.head, hthread, hstatus,
      State.deref, hctx]
  exact ⟨_, hrun, h.path, h.nodup, h.head, h.tail, h.mem_iff, h.lt, h.recorded, h.status,
    h.others, rfl⟩

/-- The search follows a freed pointer. -/
lemma search_of_freed {a fuel : ℕ} (ha : s.threads a = none) (hac : a ≠ c) :
    search s c fuel (some a) = none := by
  cases fuel with
  | zero => rfl
  | succ fuel =>
    rw [search, if_neg (by simpa using hac)]
    simp only [State.deref, Option.bind_some, ha]

/-- The search along a line of terminated threads to freed memory follows a freed pointer. -/
lemma search_of_line {a x fuel : ℕ} (h : Path (linkOf s.threads) x l a)
    (ha : s.threads a = none) (hac : a ≠ c) (hc : c ∉ x :: l)
    (hterm : ∀ u ∈ x :: l, statusOf s.threads u = some .terminated) :
    search s c fuel (some x) = none := by
  induction l generalizing x fuel with
  | nil =>
    cases fuel with
    | zero => rfl
    | succ fuel =>
      obtain ⟨thread, hthread, hstatus⟩ := exists_of_statusOf (hterm x List.mem_cons_self)
      have hx : x ≠ c := fun hxc => hc (hxc ▸ List.mem_cons_self)
      have hlink : thread.linkedThread = some a := by rw [← linkOf_of_eq hthread, h]
      rw [search, if_neg (by simpa using hx)]
      simp only [State.deref, Option.bind_some, hthread, hstatus, ne_eq, not_true_eq_false,
        if_false, hlink]
      exact search_of_freed ha hac
  | cons z l ih =>
    cases fuel with
    | zero => rfl
    | succ fuel =>
      obtain ⟨thread, hthread, hstatus⟩ := exists_of_statusOf (hterm x List.mem_cons_self)
      have hx : x ≠ c := fun hxc => hc (hxc ▸ List.mem_cons_self)
      have hlink : thread.linkedThread = some z := by rw [← linkOf_of_eq hthread, h.1]
      rw [search, if_neg (by simpa using hx)]
      simp only [State.deref, Option.bind_some, hthread, hstatus, ne_eq, not_true_eq_false,
        if_false, hlink]
      exact ih h.2 (fun hmem => hc (List.mem_cons_of_mem _ hmem))
        fun u hu => hterm u (List.mem_cons_of_mem _ hu)

/-- **The thread at the head of a torn ring cannot leave the processor**: once it yields or returns,
the search for a candidate follows a freed pointer. -/
lemma Torn.threadCandidate_eq_none {s₁ : State} (h : Torn s c r)
    (hcurrent : s₁.currentThread = some c)
    (hlink : linkOf s₁.threads = linkOf s.threads)
    (hstatus : ∀ t ≠ c, statusOf s₁.threads t = statusOf s.threads t)
    (hc : (s₁.threads c).isSome) : threadCandidate s₁ = none := by
  obtain ⟨a, hpath, hfreed⟩ := h.path
  obtain ⟨thread, hthread⟩ := Option.isSome_iff_exists.mp hc
  obtain ⟨hcr, -⟩ := List.nodup_cons.mp h.nodup
  have hac : a ≠ c := by
    rintro rfl
    have hst := h.status
    rw [statusOf, hfreed] at hst
    simp at hst
  have ha : s₁.threads a = none := by
    have hnone := hstatus a hac
    rw [statusOf, statusOf, hfreed, Option.map_none, Option.map_eq_none_iff] at hnone
    exact hnone
  have hterm (u : ℕ) (hu : u ∈ r) : statusOf s₁.threads u = some .terminated := by
    have huc : u ≠ c := fun heq => hcr (heq ▸ hu)
    obtain ⟨st, hst⟩ := Option.isSome_iff_exists.mp ((h.mem_iff u).mp (List.mem_cons_of_mem _ hu))
    rw [hstatus u huc, hst]
    by_contra hne
    have hun := State.unfinished_iff.mpr ⟨st, hst, fun heq => hne (by rw [heq])⟩
    rw [h.others u huc] at hun
    simp at hun
  rw [← hlink] at hpath
  have hsearch : search s₁ c (s₁.allocated + 1) thread.linkedThread = none := by
    rw [← linkOf_of_eq hthread]
    cases r with
    | nil =>
      rw [show linkOf s₁.threads c = some a from hpath]
      exact search_of_freed ha hac
    | cons w r =>
      rw [hpath.1]
      exact search_of_line hpath.2 ha hac hcr hterm
  simp [threadCandidate, hcurrent, hthread, hsearch]

/-- The search after a yield. -/
lemma Torn.candidate_yielded (h : Torn s c r) (hcurrent : s.currentThread = some c)
    {thread : Thread} (hthread : s.threads c = some thread) :
    threadCandidate { s.yielded c thread with alarm := true, control := .scheduler } = none := by
  apply h.threadCandidate_eq_none
  · exact hcurrent
  · simp only [State.yielded, linkOf_update, Option.bind_some]
    rw [← linkOf_of_eq hthread, Function.update_eq_self]
  · intro t ht
    simp only [State.yielded, statusOf_update, Function.update_of_ne ht]
  · simp [State.yielded]

/-- The search after the return of the thread's function. -/
lemma Torn.candidate_returned (h : Torn s c r) (hcurrent : s.currentThread = some c)
    {thread : Thread} (hthread : s.threads c = some thread) :
    threadCandidate { s.returned c thread with alarm := true, control := .scheduler } = none := by
  apply h.threadCandidate_eq_none
  · exact hcurrent
  · simp only [State.returned, linkOf_update, Option.bind_some]
    rw [← linkOf_of_eq hthread, Function.update_eq_self]
  · intro t ht
    simp only [State.returned, statusOf_update, Function.update_of_ne ht]
  · simp [State.returned]

/-- Without a result of the search, `scheduler_execute` has none. -/
lemma schedulerExecute_eq_none
    (hcand : threadCandidate { s with alarm := true, control := .scheduler } = none) :
    schedulerExecute s = none := by
  rw [schedulerExecute, schedule, hcand]
  rfl

/-- A crash leaves the line as it was. -/
lemma Torn.crash (h : Torn s c r) : Torn { s with control := .crashed } c r :=
  ⟨h.path, h.nodup, h.head, h.tail, h.mem_iff, h.lt, h.recorded, h.status, h.others, trivial⟩

/-! ## All runs -/

/-- The invariant between events of all runs: the list is a ring or a torn one. -/
def Between (s : State) : Prop := Sched s ∨ ∃ c r, Torn s c r

lemma between_init : Between State.init := .inl sched_init

/-- The events of a ring. -/
lemma Sched.between (h : Sched s) {e : Event} (hstep : P2.step s e = some s') : Between s' := by
  by_cases hcloses : Closes s e
  · exact .inl (h.step hcloses hstep).2
  cases e with
  | create threadOk stackOk =>
    simp only [P2.step, Option.ite_none_right_eq_some, Option.some.injEq] at hstep
    obtain ⟨hwhere, rfl⟩ := hstep
    have hfail : ¬ (threadOk = true ∧ stackOk = true) := fun hok => hcloses fun _ => hok
    rw [schedulerCreate_eq_none hfail, State.orCrash, Option.getD_none]
    exact .inl h.crash
  | execute => exact absurd trivial hcloses
  | yield =>
    simp only [P2.step, Option.ite_none_right_eq_some, Option.some.injEq] at hstep
    obtain ⟨hrunning, rfl⟩ := hstep
    obtain ⟨hhead, hothers⟩ := not_or.mp fun hor => hcloses fun _ => hor
    have hnone (t : ℕ) (ht : some t ≠ s.currentThread) : s.unfinished t = false := by
      by_contra hun
      exact hothers ⟨t, ht, by simpa using hun⟩
    obtain ⟨s₁, c, r, hyield, htorn⟩ := h.torn hrunning hhead hnone
    rw [hyield, State.orCrash, Option.getD_some]
    exact .inr ⟨c, r, htorn⟩
  | return_ => exact absurd trivial hcloses

/-- The events of a torn ring. -/
lemma Torn.between (h : Torn s c r) {e : Event} (hstep : P2.step s e = some s') :
    Between s' := by
  have hcrash : Between (s.orCrash none) := .inr ⟨c, r, h.crash⟩
  have hcontrol := h.control
  cases e with
  | create threadOk stackOk =>
    simp only [P2.step, Option.ite_none_right_eq_some, Option.some.injEq] at hstep
    obtain ⟨hwhere, rfl⟩ := hstep
    by_cases hok : threadOk = true ∧ stackOk = true
    · obtain ⟨rfl, rfl⟩ := hok
      obtain ⟨s₁, hcreate, hsched⟩ := h.create hwhere
      rw [hcreate, State.orCrash, Option.getD_some]
      exact .inl hsched
    · rwa [schedulerCreate_eq_none hok]
  | execute =>
    simp only [P2.step, Option.ite_none_right_eq_some, Option.some.injEq] at hstep
    obtain ⟨hidle, rfl⟩ := hstep
    obtain ⟨s₁, hrun, htorn⟩ := h.execute hidle
    rw [hrun, State.orCrash, Option.getD_some]
    exact .inr ⟨c, r, htorn⟩
  | yield =>
    simp only [P2.step, Option.ite_none_right_eq_some, Option.some.injEq] at hstep
    obtain ⟨hrunning, rfl⟩ := hstep
    rw [hrunning] at hcontrol
    obtain ⟨thread, hthread, -⟩ := exists_of_statusOf h.status
    rwa [schedulerYield_eq hcontrol hthread,
      schedulerExecute_eq_none (h.candidate_yielded hcontrol hthread)]
  | return_ =>
    simp only [P2.step, Option.ite_none_right_eq_some, Option.some.injEq] at hstep
    obtain ⟨hrunning, rfl⟩ := hstep
    rw [hrunning] at hcontrol
    obtain ⟨thread, hthread, -⟩ := exists_of_statusOf h.status
    rwa [threadReturn_eq hcontrol hthread,
      schedulerExecute_eq_none (h.candidate_returned hcontrol hthread)]

/-- **Every event keeps the invariant.** -/
theorem Between.step (h : Between s) {e : Event} (hstep : step s e = some s') : Between s' := by
  rcases h with hsched | ⟨c, r, htorn⟩
  · exact hsched.between hstep
  · exact htorn.between hstep

end Cs238p.P2
