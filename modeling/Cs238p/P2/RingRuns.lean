import Cs238p.P2.Completion

set_option relaxedAutoImplicit false
set_option autoImplicit false

/-!
# The thread list along runs

When `thread_candidate` finds no candidate, `scheduler_execute` calls `destroy`, which frees
threads from the head on until it meets one that is not terminated. If it has freed a thread by
then, the tail still points to it. And a failed allocation in `scheduler_create` is followed by a
write through the null pointer. This module shows that the list is a ring in all other runs, those
in which `scheduler_execute` returns too early included.

## Main definitions

* `Proper` — the list is a ring of all allocated threads, and the current thread is one of them.
* `Kept` — what an event does to the list, to freed threads and to failing calls.
* `Closes` — allocations succeed, and a thread that yields as the only unfinished one is the head.
* `Sched` — the invariant of the states between events.

## Main results

* `destroy_of_prefix` — what `destroy` does when it stops at an unfinished thread.
* `kept_iff_closes` — all events of a run keep the list if and only if all meet the condition.
-/

namespace Cs238p.P2

open CircularList Transition

/-! ## What an event should do -/

/-- `head` is null if and only if `tail` is; the links lead from `head` through every allocated
thread once and from `tail` back to `head`; and `current_thread` is null or allocated. -/
structure Proper (s : State) : Prop where
  null : s.head = none ↔ s.tail = none
  ring : ∃ l, s.Listed l
  current : ∀ c, s.currentThread = some c → (s.threads c).isSome

/-- `scheduler_create` with its return value, which is zero wherever it returns. -/
def createResult (threadOk stackOk : Bool) (s : State) : Option (ℤ × State) :=
  (schedulerCreate threadOk stackOk s).map fun s' => (0, s')

/-- The event leads from `s` to `s'` with a proper list. It frees terminated threads only, where
the thread that returns from its function is terminated by the event; it follows no pointer to
freed memory, so that it frees no thread twice; and a `scheduler_create` that fails to allocate
returns an error and leaves the list as it was. -/
structure Kept (s : State) (e : Event) (s' : State) : Prop where
  proper : Proper s'
  freed : ∀ t, (s.threads t).isSome → s'.threads t = none →
    statusOf s.threads t = some .terminated ∨ e = .return_ ∧ s.currentThread = some t
  valid : s'.control = .crashed → s.head = none
  failed : ∀ threadOk stackOk, e = .create threadOk stackOk → ¬ (threadOk = true ∧ stackOk = true) →
    ∃ code s₁, createResult threadOk stackOk s = some (code, s₁) ∧ code ≠ 0 ∧
      s₁.threads = s.threads ∧ s₁.head = s.head ∧ s₁.tail = s.tail

/-- The event keeps the list, if it can happen. -/
def Keeps (s : State) (e : Event) : Prop := ∀ s', step s e = some s' → Kept s e s'

/-- The allocations of the event succeed; and a thread that yields is at the head of the list, or
another one is unfinished. -/
def Closes (s : State) : Event → Prop
  | .create threadOk stackOk =>
    s.control = .idle ∨ s.control = .running → threadOk = true ∧ stackOk = true
  | .execute => True
  | .yield => s.control = .running →
    s.head = s.currentThread ∨ ∃ t, some t ≠ s.currentThread ∧ s.unfinished t = true
  | .return_ => True

variable {s s' : State} {t c : ℕ} {l r : List ℕ}

/-! ## Destruction that stops -/

/-- The state that `destroy` leaves when it has freed the threads of `l` and stops at thread `c`. -/
def State.stopped (s : State) (l : List ℕ) (c : ℕ) : State :=
  { s with
    threads := fun u => if u ∈ l then none else s.threads u, head := some c, currentThread := none }

/-- The threads that are not freed keep their links. -/
lemma linkOf_stopped (ht : t ∉ l) :
    linkOf (s.stopped l c).threads t = linkOf s.threads t := by
  simp only [State.stopped, linkOf, if_neg ht]

/-- The threads that are not freed keep their statuses. -/
lemma statusOf_stopped (ht : t ∉ l) :
    statusOf (s.stopped l c).threads t = statusOf s.threads t := by
  simp only [State.stopped, statusOf, if_neg ht]

/-- The loop of `destroy` frees the terminated threads before the first unfinished one.

**Proof sketch.** Induction on the terminated threads, as in `destroyLoop_of_forall_terminated`; the
last of them is not the tail. -/
lemma destroyLoop_of_prefix {y fuel : ℕ} {st : ThreadStatus}
    (hpath : Path (linkOf s.threads) t (l ++ c :: r) y) (hnodup : (t :: (l ++ c :: r)).Nodup)
    (hhead : s.head = some t) (htail : s.tail = (c :: r).getLast?)
    (hterm : ∀ u ∈ t :: l, statusOf s.threads u = some .terminated)
    (hc : statusOf s.threads c = some st) (hst : st ≠ .terminated) (hfuel : l.length + 1 < fuel) :
    destroyLoop fuel t s = some (s.stopped (t :: l) c) := by
  induction l generalizing t fuel s with
  | nil =>
    obtain ⟨fuel, rfl⟩ : ∃ k, fuel = k + 2 := ⟨fuel - 2, by simp at hfuel; omega⟩
    obtain ⟨thread, hthread, hstatus⟩ := exists_of_statusOf hc
    obtain ⟨hnot, -⟩ := List.nodup_cons.mp hnodup
    have hne : s.head ≠ s.tail := by
      rw [hhead, htail]
      intro heq
      exact hnot (List.mem_of_getLast? heq.symm)
    have hct : c ≠ t := fun heq => hnot (heq ▸ List.mem_cons_self)
    rw [destroyLoop_succ hpath.1 (hterm t List.mem_cons_self) hne, destroyLoop]
    simp only [State.free, State.stopped, Function.update_of_ne hct, hthread, hstatus, hst,
      if_false, Option.some.injEq, State.mk.injEq, and_true]
    simpa using freed_cons s.threads t []
  | cons z l ih =>
    obtain ⟨fuel, rfl⟩ : ∃ k, fuel = k + 1 := ⟨fuel - 1, by omega⟩
    obtain ⟨hnot, hnodup'⟩ := List.nodup_cons.mp hnodup
    obtain ⟨htz, hpath'⟩ := hpath
    have hne : s.head ≠ s.tail := by
      rw [hhead, htail]
      intro heq
      refine hnot (List.mem_cons_of_mem _ (List.mem_append_right _ ?_))
      exact List.mem_of_getLast? heq.symm
    have hother {u : ℕ} (hu : u ∈ z :: (l ++ c :: r)) : u ≠ t := fun heq => hnot (heq ▸ hu)
    rw [destroyLoop_succ htz (hterm t List.mem_cons_self) hne, ih]
    · simp only [State.free, State.stopped, freed_cons]
    · simp only [State.free, linkOf_update, Option.bind_none]
      exact hpath'.congr fun u hu => Function.update_of_ne (hother hu) _ _
    · exact hnodup'
    · rfl
    · exact htail
    · intro u hu
      simp only [State.free, statusOf_update, Option.map_none]
      rw [Function.update_of_ne (hother (by simp at hu ⊢; tauto))]
      exact hterm u (List.mem_cons_of_mem _ hu)
    · simp only [State.free, statusOf_update, Option.map_none]
      rw [Function.update_of_ne (hother (by simp))]
      exact hc
    · simp only [List.length_cons] at hfuel
      omega

/-- `destroy` frees nothing if the head is unfinished. -/
lemma destroy_of_head {st : ThreadStatus} (hhead : s.head = some c)
    (hc : statusOf s.threads c = some st) (hst : st ≠ .terminated) : destroy s = some s := by
  obtain ⟨thread, hthread, hstatus⟩ := exists_of_statusOf hc
  rw [destroy, hhead]
  simp only
  rw [destroyLoop]
  simp [hthread, hstatus, hst]

/-- **`destroy` stops at the first unfinished thread**, having freed the threads before it. -/
theorem destroy_of_prefix {a : ℕ} {st : ThreadStatus} (h : s.Listed (a :: l ++ c :: r))
    (hterm : ∀ u ∈ a :: l, statusOf s.threads u = some .terminated)
    (hc : statusOf s.threads c = some st) (hst : st ≠ .terminated) :
    destroy s = some (s.stopped (a :: l) c) := by
  have hlen := h.length_le
  rw [List.length_append, List.length_cons, List.length_cons] at hlen
  have hhead : s.head = some a := h.head
  have htail : s.tail = (c :: r).getLast? := by
    rw [h.tail, List.getLast?_append_of_ne_nil _ (List.cons_ne_nil c r)]
  rw [destroy, hhead]
  exact destroyLoop_of_prefix h.ring.2 h.ring.nodup hhead htail hterm hc hst (by omega)

/-- A write through a pointer frees nothing. -/
lemma isSome_of_store {p : Option ℕ} {f : Thread → Thread} (h : s.store p f = some s')
    (ht : (s.threads t).isSome) : (s'.threads t).isSome := by
  unfold State.store at h
  split at h
  · simp at h
  · next u =>
    split at h
    · simp at h
    · obtain rfl := Option.some.inj h
      by_cases htu : t = u
      · subst htu
        simp
      · simpa [Function.update_of_ne htu] using ht

/-- **The loop of `destroy` frees terminated threads only.** -/
theorem destroyLoop_freed {fuel u : ℕ} (h : destroyLoop fuel u s = some s')
    (ht : (s.threads t).isSome) (hfreed : s'.threads t = none) :
    statusOf s.threads t = some .terminated := by
  induction fuel generalizing s u with
  | zero => simp [destroyLoop] at h
  | succ fuel ih =>
    have hnone : s.threads t ≠ none := Option.isSome_iff_ne_none.mp ht
    rw [destroyLoop] at h
    split at h
    · simp at h
    · next thread hthread =>
      split at h
      · next hterm =>
        have hu : statusOf s.threads u = some .terminated := by rw [statusOf_of_eq hthread, hterm]
        by_cases htu : t = u
        · rwa [htu]
        split at h
        · split at h
          · simp at h
          · next s₁ hs₁ =>
            obtain rfl := Option.some.inj h
            have hsome := isSome_of_store hs₁ ht
            simp only [State.free, Function.update_of_ne htu] at hfreed
            rw [hfreed] at hsome
            simp at hsome
        · split at h
          · obtain rfl := Option.some.inj h
            simp only [State.free, Function.update_of_ne htu] at hfreed
            exact absurd hfreed hnone
          · have hrest := ih h (by simpa [State.free, Function.update_of_ne htu] using ht)
            simpa [State.free, Function.update_of_ne htu] using hrest
      · obtain rfl := Option.some.inj h
        exact absurd hfreed hnone

/-- **`destroy` frees terminated threads only.** -/
theorem destroy_freed (h : destroy s = some s') (ht : (s.threads t).isSome)
    (hfreed : s'.threads t = none) : statusOf s.threads t = some .terminated := by
  rw [destroy] at h
  split at h
  · simp at h
  · exact destroyLoop_freed h ht hfreed

/-- `thread_candidate` does not touch the threads. -/
lemma threadCandidate_threads {candidate : Option ℕ}
    (h : threadCandidate s = some (candidate, s')) : s'.threads = s.threads := by
  unfold threadCandidate at h
  split at h
  · obtain ⟨-, rfl⟩ := Prod.mk.inj (Option.some.inj h)
    rfl
  · obtain ⟨thread, -, h⟩ := Option.bind_eq_some_iff.mp h
    obtain ⟨found, -, h⟩ := Option.bind_eq_some_iff.mp h
    split at h
    · obtain ⟨-, rfl⟩ := Prod.mk.inj (Option.some.inj h)
      rfl
    · obtain ⟨-, rfl⟩ := Prod.mk.inj (Option.some.inj h)
      rfl

/-- `schedule` frees nothing, and if it returns, it has not touched the threads. -/
lemma schedule_threads (h : schedule s = some s') :
    (∀ t, (s.threads t).isSome → (s'.threads t).isSome) ∧
      (s'.control ≠ .running → s'.threads = s.threads) := by
  obtain ⟨⟨candidate, s₁⟩, hcand, h⟩ := Option.bind_eq_some_iff.mp h
  have hthreads := threadCandidate_threads hcand
  rw [← hthreads]
  cases candidate with
  | none =>
    obtain rfl := Option.some.inj h
    exact ⟨fun _ ht => ht, fun _ => rfl⟩
  | some u =>
    obtain ⟨thread, -, h⟩ := Option.bind_eq_some_iff.mp h
    split at h
    · obtain ⟨s₂, hstore, h⟩ := Option.bind_eq_some_iff.mp h
      obtain rfl := Option.some.inj h
      refine ⟨fun t ht => ?_, fun hne => absurd rfl hne⟩
      have hsome := isSome_of_store hstore ht
      exact hsome
    · obtain ⟨current, -, h⟩ := Option.bind_eq_some_iff.mp h
      split at h
      · obtain rfl := Option.some.inj h
        exact ⟨fun _ ht => ht, fun _ => rfl⟩
      · simp at h

/-- `scheduler_execute` frees terminated threads only. -/
lemma schedulerExecute_freed (h : schedulerExecute s = some s') (ht : (s.threads t).isSome)
    (hfreed : s'.threads t = none) : statusOf s.threads t = some .terminated := by
  obtain ⟨s₁, hschedule, h⟩ := Option.bind_eq_some_iff.mp h
  obtain ⟨hkept, hsame⟩ := schedule_threads hschedule
  split at h
  · obtain rfl := Option.some.inj h
    have hsome := hkept t ht
    rw [hfreed] at hsome
    simp at hsome
  · next hreturned =>
    obtain ⟨s₂, hdestroy, h⟩ := Option.bind_eq_some_iff.mp h
    obtain rfl := Option.some.inj h
    have hthreads : s₁.threads = s.threads := hsame hreturned
    have hterm := destroy_freed (t := t) hdestroy (by rw [hthreads]; exact ht) hfreed
    rwa [hthreads] at hterm

/-! ## The invariant -/

/-- The invariant between events: the list is proper and the record agrees with the statuses. In a
thread's function, the current thread is running and every other running thread has saved its
context. Outside of `scheduler_execute` all running threads have, the head is unfinished, and no
other thread is current. -/
structure Sched (s : State) : Prop where
  proper : Proper s
  recorded : s.Recorded
  control : match s.control with
    | .idle =>
      (∀ t, statusOf s.threads t = some .running → ctxOf s.threads t = some true) ∧
        (∀ a, s.head = some a → s.unfinished a = true) ∧
        ∀ c, s.currentThread = some c → s.head = some c
    | .running =>
      (∃ c, s.currentThread = some c ∧ statusOf s.threads c = some .running) ∧
        ∀ t, statusOf s.threads t = some .running → s.currentThread ≠ some t →
          ctxOf s.threads t = some true
    | .crashed => True
    | .scheduler => False

/-- A ring whose current thread is allocated is proper. -/
lemma proper_of_listed (hl : s.Listed l)
    (hcurrent : ∀ c, s.currentThread = some c → (statusOf s.threads c).isSome) : Proper s where
  null := by
    rw [hl.head, hl.tail, List.head?_eq_none_iff, List.getLast?_eq_none_iff]
  ring := ⟨l, hl⟩
  current := fun c hc => by simpa [statusOf] using hcurrent c hc

/-- The stronger invariant of the runs in which `scheduler_execute` does not return early. -/
lemma Inv.sched (h : Inv s) : Sched s := by
  obtain ⟨l, hl⟩ := h.listed
  have hcurrent := h.current
  have hsaved := h.saved
  refine ⟨proper_of_listed hl fun c hc => ?_, h.recorded, ?_⟩
  · cases hcontrol : s.control <;> simp_all
  · cases hcontrol : s.control with
    | idle =>
      rw [hcontrol] at hcurrent
      obtain ⟨hnull, hnew⟩ := hcurrent
      refine ⟨fun t ht => hsaved t ht (by simp [hnull]), fun a ha => ?_,
        fun c hc => absurd hc (by simp [hnull])⟩
      have hmem : a ∈ l := List.mem_of_head? (hl.head.symm.trans ha)
      obtain ⟨st, hst⟩ := Option.isSome_iff_exists.mp ((hl.mem_iff a).mp hmem)
      exact State.unfinished_iff.mpr ⟨st, hst, by rw [hnew a st hst]; decide⟩
    | running =>
      rw [hcontrol] at hcurrent
      exact ⟨hcurrent, hsaved⟩
    | scheduler => exact absurd hcurrent (by simp [hcontrol])
    | crashed => exact absurd hcurrent (by simp [hcontrol])

/-- In a thread's function the two invariants agree. -/
lemma Sched.inv (h : Sched s) (hrunning : s.control = .running) : Inv s := by
  have hcontrol := h.control
  rw [hrunning] at hcontrol
  refine ⟨h.proper.ring, h.recorded, ?_, hcontrol.2⟩
  rw [hrunning]
  exact hcontrol.1

/-- Outside of `scheduler_execute`, its call finds the threads ready. -/
lemma Sched.ready_of_idle (h : Sched s) (hidle : s.control = .idle) : Ready s := by
  have hcontrol := h.control
  rw [hidle] at hcontrol
  exact ⟨h.proper.ring, h.recorded, hcontrol.1⟩

lemma sched_init : Sched State.init := inv_init.sched

/-- A crash leaves the threads as they were. -/
lemma Sched.crash (h : Sched s) : Sched { s with control := .crashed } := by
  obtain ⟨l, hl⟩ := h.proper.ring
  exact ⟨⟨h.proper.null, ⟨l, hl.ring, hl.head, hl.tail, hl.mem_iff, hl.lt⟩, h.proper.current⟩,
    h.recorded, trivial⟩

/-! ## The events -/

/-- `scheduler_create` with successful allocations keeps the invariant. -/
lemma Sched.create (h : Sched s) (hwhere : s.control = .idle ∨ s.control = .running) :
    ∃ s', schedulerCreate true true s = some s' ∧ Sched s' ∧ s'.control = s.control ∧
      s'.currentThread = s.currentThread ∧ s'.alarm = s.alarm ∧
      ∀ t, (s.threads t).isSome → (s'.threads t).isSome := by
  obtain ⟨l, hl⟩ := h.proper.ring
  obtain ⟨s', hcreate, hcreated⟩ := created_of_listed hl h.recorded
  have hkept (t : ℕ) (ht : (s.threads t).isSome) : (s'.threads t).isSome := by
    have hsome : (statusOf s'.threads t).isSome := by
      by_cases hta : t = s.allocated
      · subst hta
        rw [hcreated.status, Function.update_self]
        rfl
      · rw [hcreated.statusOf_of_ne hta]
        simpa [statusOf] using ht
    simpa [statusOf] using hsome
  have hproper : Proper s' := by
    refine proper_of_listed hcreated.listed fun c hc => ?_
    rw [hcreated.current] at hc
    simpa [statusOf] using hkept c (h.proper.current c hc)
  refine ⟨s', hcreate, ⟨hproper, hcreated.recorded, ?_⟩, hcreated.control, hcreated.current,
    hcreated.alarm, hkept⟩
  have hcontrol := h.control
  rw [hcreated.control, hcreated.current]
  rcases hwhere with hidle | hrunning
  · rw [hidle] at hcontrol ⊢
    obtain ⟨hsaved, hhead, hcurrent⟩ := hcontrol
    refine ⟨fun t ht => ?_, fun a ha => ?_, fun c hc => ?_⟩
    · rw [hcreated.statusOf_running] at ht
      rw [hcreated.ctxOf_of_running ht, hsaved t ht]
    · rw [hcreated.listed.head, List.head?_append, ← hl.head] at ha
      cases hold : s.head with
      | none =>
        rw [hold, Option.none_or] at ha
        obtain rfl : s.allocated = a := Option.some.inj ha
        rw [State.unfinished, hcreated.status, Function.update_self]
        rfl
      | some b =>
        rw [hold, Option.some_or] at ha
        obtain rfl : b = a := Option.some.inj ha
        have hmem : b ∈ l := List.mem_of_head? (hl.head.symm.trans hold)
        have hne : b ≠ s.allocated := Nat.ne_of_lt (hl.lt b hmem)
        rw [State.unfinished, hcreated.statusOf_of_ne hne]
        exact hhead b hold
    · have hc' := hcurrent c hc
      rw [hl.head] at hc'
      rw [hcreated.listed.head, List.head?_append, hc', Option.some_or]
  · rw [hrunning] at hcontrol ⊢
    obtain ⟨⟨c, hc, hst⟩, hsaved⟩ := hcontrol
    refine ⟨⟨c, hc, hcreated.statusOf_running.mpr hst⟩, fun t ht hne => ?_⟩
    rw [hcreated.statusOf_running] at ht
    rw [hcreated.ctxOf_of_running ht, hsaved t ht hne]

/-- If there is no candidate, `scheduler_execute` destroys and returns. -/
lemma schedulerExecute_of_none
    (hcand : threadCandidate { s with alarm := true, control := .scheduler } =
      some (none, { s with alarm := true, control := .scheduler })) :
    schedulerExecute s = (destroy { s with alarm := true, control := .scheduler }).map
      fun s' => { s' with control := .idle } := by
  rw [schedulerExecute, schedule, hcand]
  simp only [Option.bind_eq_bind, Option.bind_some, reduceCtorEq, if_false]
  cases destroy { s with alarm := true, control := .scheduler } <;> rfl

/-- If there is no candidate and the head is the unfinished current thread, `scheduler_execute`
returns and has only armed the alarm. -/
lemma Ready.return_of_head (h : Ready s)
    (hcand : threadCandidate { s with alarm := true, control := .scheduler } =
      some (none, { s with alarm := true, control := .scheduler }))
    (hc : s.currentThread = some c) (hhead : s.head = some c) (hun : s.unfinished c = true) :
    schedulerExecute s = some { s with alarm := true, control := .idle } ∧
      Sched { s with alarm := true, control := .idle } := by
  obtain ⟨st, hst, hterm⟩ := State.unfinished_iff.mp hun
  have hdestroy : destroy { s with alarm := true, control := .scheduler } =
      some { s with alarm := true, control := .scheduler } :=
    destroy_of_head (s := { s with alarm := true, control := .scheduler }) hhead hst hterm
  refine ⟨by rw [schedulerExecute_of_none hcand, hdestroy]; rfl, ?_, h.recorded, h.saved, ?_, ?_⟩
  · obtain ⟨l, hl⟩ := h.listed
    refine proper_of_listed (l := l) ⟨hl.ring, hl.head, hl.tail, hl.mem_iff, hl.lt⟩ fun u hu => ?_
    obtain rfl := Option.some.inj (hc.symm.trans hu)
    rw [hst]
    rfl
  · intro a ha
    obtain rfl := Option.some.inj (hhead.symm.trans ha)
    exact hun
  · intro u hu
    obtain rfl := Option.some.inj (hc.symm.trans hu)
    exact hhead

/-- **A call of `scheduler_execute`** keeps the invariant; it crashes only on an empty list. -/
lemma Sched.execute (h : Sched s) (hidle : s.control = .idle) :
    (s.head = none ∧ schedulerExecute s = none) ∨
      ∃ s', schedulerExecute s = some s' ∧ Sched s' ∧ s'.control ≠ .crashed := by
  have hready := h.ready_of_idle hidle
  have hcontrol := h.control
  rw [hidle] at hcontrol
  obtain ⟨-, hunfinished, hcurrent⟩ := hcontrol
  obtain ⟨l, hl⟩ := h.proper.ring
  cases hc : s.currentThread with
  | none =>
    cases hhead : s.head with
    | none =>
      refine .inl ⟨rfl, ?_⟩
      simp [schedulerExecute, schedule, threadCandidate, hc, hhead, destroy]
    | some a =>
      have hcand : threadCandidate { s with alarm := true, control := .scheduler } = some (some a,
          { s with alarm := true, control := .scheduler, currentThread := some a }) := by
        simp only [threadCandidate, hc, hhead]
      obtain ⟨s', hrun, hrunning, hinv⟩ := hready.run_candidate hcand (hunfinished a hhead)
      exact .inr ⟨s', hrun, hinv.sched, by simp [hrunning]⟩
  | some c =>
    have hhead := hcurrent c hc
    have hmem : c ∈ l := List.mem_of_head? (hl.head.symm.trans hhead)
    rcases candidate_cases hl hc hmem with ⟨t, -, hun, hcand⟩ | ⟨-, hcand⟩
    · obtain ⟨s', hrun, hrunning, hinv⟩ := hready.run_candidate hcand hun
      exact .inr ⟨s', hrun, hinv.sched, by simp [hrunning]⟩
    · obtain ⟨hrun, hsched⟩ := hready.return_of_head hcand hc hhead (hunfinished c hhead)
      exact .inr ⟨_, hrun, hsched, by simp⟩

/-- **A yield** that finds another unfinished thread, or whose thread is the head, keeps the
invariant. -/
lemma Sched.yield (h : Sched s) (hrunning : s.control = .running)
    (hcloses : s.head = s.currentThread ∨
      ∃ t, some t ≠ s.currentThread ∧ s.unfinished t = true) :
    ∃ s', schedulerYield s = some s' ∧ Sched s' ∧ s'.control ≠ .crashed := by
  obtain ⟨c, thread, l, hy⟩ := (h.inv hrunning).exists_yielded hrunning
  rw [schedulerYield_eq hy.current hy.stored]
  rcases hy.cases with ⟨t, -, hun, hcand⟩ | ⟨hnone, hcand⟩
  · rw [← hy.unfinished] at hun
    obtain ⟨s', hrun, hrunning', hinv'⟩ := hy.ready.run_candidate hcand hun
    exact ⟨s', hrun, hinv'.sched, by simp [hrunning']⟩
  · have hhead : s.head = some c := by
      rcases hcloses with hhead | ⟨t, htc, hun⟩
      · rw [hhead, hy.current]
      · rw [hnone t fun heq => htc (by rw [heq, hy.current])] at hun
        simp at hun
    have hun : (s.yielded c thread).unfinished c = true := by
      rw [hy.unfinished]
      exact State.unfinished_iff.mpr ⟨.running, hy.running, by decide⟩
    obtain ⟨hrun, hsched⟩ := hy.ready.return_of_head hcand hy.current hhead hun
    exact ⟨_, hrun, hsched, by simp⟩

/-- **Any other yield makes `destroy` stop**: the threads before the one that yields are freed. -/
lemma Sched.yield_stops (h : Sched s) (hrunning : s.control = .running)
    (hhead : s.head ≠ s.currentThread)
    (hnone : ∀ t, some t ≠ s.currentThread → s.unfinished t = false) :
    ∃ c thread a l r, Yielded s c thread (a :: l ++ c :: r) ∧
      (∀ u ∈ a :: l, statusOf (s.yielded c thread).threads u = some .terminated) ∧
      schedulerYield s = some
        { (s.yielded c thread).stopped (a :: l) c with alarm := true, control := .idle } := by
  obtain ⟨c, thread, l, hy⟩ := (h.inv hrunning).exists_yielded hrunning
  have hfinished (t : ℕ) (ht : t ≠ c) : s.unfinished t = false :=
    hnone t (by rw [hy.current]; simpa using ht)
  rcases hy.cases with ⟨t, htc, hun, -⟩ | ⟨-, hcand⟩
  · rw [hfinished t htc] at hun
    simp at hun
  obtain ⟨pre, r, rfl⟩ := List.append_of_mem hy.mem
  cases pre with
  | nil => exact absurd (hy.listed.head.trans hy.current.symm) hhead
  | cons a l =>
    have hnodup := hy.listed.ring.nodup
    rw [List.nodup_append] at hnodup
    have hterm : ∀ u ∈ a :: l, statusOf (s.yielded c thread).threads u = some .terminated := by
      intro u hu
      have huc : u ≠ c := hnodup.2.2 u hu c List.mem_cons_self
      apply statusOf_of_not_unfinished hy.listed (List.mem_append_left _ hu)
      rw [hy.unfinished, hfinished u huc]
    have hl' : { s.yielded c thread with alarm := true, control := Control.scheduler :
        State }.Listed (a :: l ++ c :: r) :=
      ⟨hy.listed.ring, hy.listed.head, hy.listed.tail, hy.listed.mem_iff, hy.listed.lt⟩
    have hst : statusOf (s.yielded c thread).threads c = some .running := by
      rw [hy.status, hy.running]
    refine ⟨c, thread, a, l, r, hy, hterm, ?_⟩
    rw [schedulerYield_eq hy.current hy.stored, schedulerExecute_of_none hcand,
      destroy_of_prefix hl' hterm hst (by simp)]
    rfl

/-- **It breaks the ring**: the tail still points to the first of the freed threads. -/
lemma Sched.yield_breaks (h : Sched s) (hrunning : s.control = .running)
    (hhead : s.head ≠ s.currentThread)
    (hnone : ∀ t, some t ≠ s.currentThread → s.unfinished t = false) :
    ∃ s', schedulerYield s = some s' ∧ ¬ Proper s' := by
  obtain ⟨c, thread, a, l, r, hy, -, hyield⟩ := h.yield_stops hrunning hhead hnone
  have hl := hy.listed
  refine ⟨_, hyield, fun hproper => ?_⟩
  have hnodup := hl.ring.nodup
  rw [List.nodup_append] at hnodup
  obtain ⟨l', hring⟩ := hproper.ring
  obtain ⟨z, hz⟩ : ∃ z, (c :: r).getLast? = some z :=
    ⟨_, List.getLast?_eq_some_getLast (List.cons_ne_nil c r)⟩
  have hlast : (a :: l ++ c :: r).getLast? = some z := by
    rw [List.getLast?_append_of_ne_nil _ (List.cons_ne_nil c r), hz]
  -- the tail is not freed and keeps its link to the old head
  have hzl : z ∉ a :: l := fun hzl => hnodup.2.2 z hzl z (List.mem_of_getLast? hz) rfl
  have hold : linkOf (s.yielded c thread).threads z = some a := hl.ring.next_getLast hlast
  have htail : l'.getLast? = some z := hring.tail.symm.trans (hl.tail.trans hlast)
  have hnew := (hring.ring.next_getLast htail).trans hring.head.symm
  have hac : some a = some c := hold.symm.trans ((linkOf_stopped (c := c) hzl).symm.trans hnew)
  obtain rfl := Option.some.inj hac
  exact hnodup.2.2 a List.mem_cons_self a List.mem_cons_self rfl

/-- **The return of a thread's function** keeps the invariant. -/
lemma Sched.threadReturn (h : Sched s) (hrunning : s.control = .running) :
    ∃ s', P2.threadReturn s = some s' ∧ Sched s' ∧ s'.control ≠ .crashed := by
  obtain ⟨s', hreturn⟩ : ∃ s', step s .return_ = some s' :=
    ⟨_, by rw [P2.step, if_pos hrunning]⟩
  obtain ⟨hinv, hcrashed, -⟩ := (h.inv hrunning).step (e := .return_) trivial hreturn
  rw [P2.step, if_pos hrunning, Option.some.injEq] at hreturn
  subst hreturn
  cases hresult : P2.threadReturn s with
  | none =>
    rw [hresult] at hcrashed
    exact absurd rfl hcrashed
  | some s' =>
    rw [hresult] at hinv hcrashed
    exact ⟨s', rfl, hinv.sched, hcrashed⟩

/-- Outside of `scheduler_create`, a result that keeps the invariant and has freed terminated
threads only keeps the list. -/
lemma Sched.kept {e : Event} (h : Sched s') (hne : s'.control ≠ .crashed)
    (hcreate : ∀ threadOk stackOk, e ≠ .create threadOk stackOk)
    (hfreed : ∀ t, (s.threads t).isSome → s'.threads t = none →
      statusOf s.threads t = some .terminated ∨ e = .return_ ∧ s.currentThread = some t) :
    Kept s e s' :=
  ⟨h.proper, hfreed, fun hcrashed => absurd hcrashed hne,
    fun threadOk stackOk he _ => absurd he (hcreate threadOk stackOk)⟩

/-- **An event that meets the condition keeps the list** and the invariant.

**Proof sketch.** By cases on the event. What it frees is freed by `destroy`, which looks at the
statuses of the state in which control enters the scheduler: they are those of `s`, except that the
thread that returns is terminated. -/
theorem Sched.step (h : Sched s) {e : Event} (hcloses : Closes s e)
    (hstep : step s e = some s') : Kept s e s' ∧ Sched s' := by
  cases e with
  | create threadOk stackOk =>
    simp only [P2.step, Option.ite_none_right_eq_some, Option.some.injEq] at hstep
    obtain ⟨hwhere, rfl⟩ := hstep
    obtain ⟨rfl, rfl⟩ := hcloses hwhere
    obtain ⟨s₁, hcreate, hsched, hcontrol, -, -, hkept⟩ := h.create hwhere
    rw [hcreate, State.orCrash, Option.getD_some]
    refine ⟨⟨hsched.proper, fun t ht hfreed => ?_, fun hcrashed => ?_, ?_⟩, hsched⟩
    · have hsome := hkept t ht
      rw [hfreed] at hsome
      simp at hsome
    · rw [hcontrol] at hcrashed
      simp [hcrashed] at hwhere
    · intro threadOk stackOk he hfail
      cases he
      exact absurd ⟨rfl, rfl⟩ hfail
  | execute =>
    simp only [P2.step, Option.ite_none_right_eq_some, Option.some.injEq] at hstep
    obtain ⟨hidle, rfl⟩ := hstep
    rcases h.execute hidle with ⟨hhead, hnone⟩ | ⟨s₁, hrun, hsched, hne⟩
    · rw [hnone, State.orCrash, Option.getD_none]
      refine ⟨⟨h.crash.proper, fun t ht hfreed => ?_, fun _ => hhead, by simp⟩, h.crash⟩
      exact absurd hfreed (Option.isSome_iff_ne_none.mp ht)
    · rw [hrun, State.orCrash, Option.getD_some]
      exact ⟨hsched.kept hne (by simp) fun t ht hfreed =>
        .inl (schedulerExecute_freed hrun ht hfreed), hsched⟩
  | yield =>
    simp only [P2.step, Option.ite_none_right_eq_some, Option.some.injEq] at hstep
    obtain ⟨hrunning, rfl⟩ := hstep
    obtain ⟨c, thread, l, hy⟩ := (h.inv hrunning).exists_yielded hrunning
    obtain ⟨s₁, hyield, hsched, hne⟩ := h.yield hrunning (hcloses hrunning)
    rw [hyield, State.orCrash, Option.getD_some]
    refine ⟨hsched.kept hne (by simp) fun t ht hfreed => .inl ?_, hsched⟩
    rw [schedulerYield_eq hy.current hy.stored] at hyield
    have hsome : ((s.yielded c thread).threads t).isSome := by
      have hstatus := congrArg Option.isSome (congrFun hy.status t)
      simp only [statusOf, Option.isSome_map] at hstatus
      rw [hstatus, ht]
    rw [← hy.status]
    exact schedulerExecute_freed hyield hsome hfreed
  | return_ =>
    simp only [P2.step, Option.ite_none_right_eq_some, Option.some.injEq] at hstep
    obtain ⟨hrunning, rfl⟩ := hstep
    obtain ⟨c, thread, l, hr⟩ := (h.inv hrunning).exists_returned hrunning
    obtain ⟨s₁, hreturn, hsched, hne⟩ := h.threadReturn hrunning
    rw [hreturn, State.orCrash, Option.getD_some]
    refine ⟨hsched.kept hne (by simp) fun t ht hfreed => ?_, hsched⟩
    by_cases htc : t = c
    · exact .inr ⟨rfl, by rw [hr.current, htc]⟩
    · rw [threadReturn_eq hr.current hr.stored] at hreturn
      have hsome : ((s.returned c thread).threads t).isSome := by
        simpa [State.returned, Function.update_of_ne htc] using ht
      have hterm := schedulerExecute_freed hreturn hsome hfreed
      rw [hr.status, Function.update_of_ne htc] at hterm
      exact .inl hterm

/-- **An event that keeps the list meets the condition.** -/
theorem Sched.closes_of_keeps (h : Sched s) {e : Event} (hkeeps : Keeps s e) : Closes s e := by
  cases e with
  | create threadOk stackOk =>
    intro hwhere
    by_contra hfail
    have hkept := hkeeps _ (by rw [P2.step, if_pos hwhere])
    obtain ⟨code, s₁, hresult, -⟩ := hkept.failed threadOk stackOk rfl hfail
    rw [createResult, schedulerCreate_eq_none hfail, Option.map_none] at hresult
    simp at hresult
  | execute => trivial
  | yield =>
    intro hrunning
    by_contra hfail
    obtain ⟨hhead, hothers⟩ := not_or.mp hfail
    have hnone (t : ℕ) (ht : some t ≠ s.currentThread) : s.unfinished t = false := by
      by_contra hun
      exact hothers ⟨t, ht, by simpa using hun⟩
    obtain ⟨s₁, hyield, hnot⟩ := h.yield_breaks hrunning hhead hnone
    have hkept := hkeeps _ (by rw [P2.step, if_pos hrunning])
    rw [hyield, State.orCrash, Option.getD_some] at hkept
    exact hnot hkept.proper
  | return_ => trivial

/-- **When the thread list stays a ring.** Along every sequence of events, every event leaves the
list a ring of all allocated threads, frees terminated threads only and follows no freed pointer,
and every failing `scheduler_create` returns an error, if and only if all allocations succeed and no
thread yields as the only unfinished one unless it is the head.

**Proof sketch.** One event meets the first condition if and only if it meets the second one, under
an invariant that also allows for a `scheduler_execute` that has returned early. -/
theorem kept_iff_closes (events : List Event) :
    Always step Keeps State.init events ↔ Always step Closes State.init events := by
  refine always_congr_of_invariant (E := fun _ _ => True) (I := Sched) ?_ ?_ sched_init
    (always_of_forall_mem _ fun _ _ => trivial)
  · intro s e s' h _ hcloses hstep
    exact (h.step hcloses hstep).2
  · intro s e h _
    exact ⟨h.closes_of_keeps, fun hcloses s' hstep => (h.step hcloses hstep).1⟩

/-- After the first of two threads has returned, a yield of the second one frees the first and
leaves the tail pointing to it; and a thread that cannot be allocated is written to. -/
theorem not_kept_last_yield_and_full :
    ¬ Always step Keeps State.init
        [.create true true, .create true true, .execute, .return_, .yield] ∧
      ¬ Always step Keeps State.init [.create false true] := by
  constructor
  · intro h
    have h' : Always step Keeps State.init
        ([.create true true, .create true true, .execute, .return_] ++ [.yield]) := h
    obtain ⟨l, hl⟩ := ((h'.last rfl) _ rfl).proper.ring
    obtain ⟨z, hz⟩ : ∃ z, l.getLast? = some z := ⟨1, hl.tail.symm⟩
    have hone : 1 = z := Option.some.inj (hl.tail.trans hz)
    -- the tail is thread 1 and linked to the freed thread 0, but the head is thread 1
    have hlink := (hl.ring.next_getLast hz).trans hl.head.symm
    subst hone
    exact absurd hlink (by decide)
  · intro h
    obtain ⟨code, s, hresult, -⟩ := (h.1 _ rfl).failed false true rfl (by simp)
    exact absurd hresult (by simp [createResult, schedulerCreate])

end Cs238p.P2
