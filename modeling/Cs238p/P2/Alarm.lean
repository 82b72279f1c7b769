import Cs238p.P2.TornRing

set_option relaxedAutoImplicit false
set_option autoImplicit false

/-!
# Where the preemption alarm is delivered

`alarm(1)` in `scheduler_execute` arms the alarm and `alarm(0)` in `scheduler_yield` disarms it. The
handler of the signal is `scheduler_yield`, which saves a context through `current_thread`. This
module goes through the states between all statements of the scheduler and finds those in which an
armed alarm meets a null `current_thread`: `scheduler_execute` arms it before the first thread is
selected, and `destroy` resets `current_thread` while it is armed.

## Main definitions

* `State.AlarmSafe` — if the alarm is armed, the current thread is allocated.
* `points` — the states that an event passes, from the one before it on.
* `EventSafe` — the alarm is safe in all of them.
* `Guarded` — the condition under which it is.

## Main results

* `points_getLast` — the states that an event passes end in the one after it.
* `alarmSafe_iff_guarded` — in every run, an event is safe if and only if it is guarded.
-/

namespace Cs238p.P2

open CircularList Transition

/-! ## The states between the statements -/

/-- If the alarm can be delivered, its handler saves the context of an allocated thread. -/
def State.AlarmSafe (s : State) : Prop :=
  s.alarm = true → (s.deref s.currentThread).isSome = true

instance : DecidablePred State.AlarmSafe :=
  fun s => inferInstanceAs (Decidable (s.alarm = true → (s.deref s.currentThread).isSome = true))

/-- The states after the statements of `scheduler_create`, up to an invalid access. -/
def createPoints (threadOk stackOk : Bool) (s : State) : List State :=
  if threadOk = false then []
  else
    let t := s.allocated
    let s₁ := { s with
      threads := Function.update s.threads t (some ⟨false, .status_, none⟩)
      allocated := t + 1 }
    if stackOk = false then [s₁, s₁.free t]
    else
      match s₁.head with
      | none =>
        let s₂ := { s₁ with head := some t }
        let s₃ := { s₂ with tail := some t }
        [s₁, s₂, s₃] ++
          (s₃.store s₃.tail fun thread => { thread with linkedThread := s₃.head }).toList
      | some _ =>
        s₁ :: match s₁.store s₁.tail fun thread => { thread with linkedThread := some t } with
          | none => []
          | some s₂ =>
            let s₃ := { s₂ with tail := some t }
            [s₂, s₃] ++
              (s₃.store s₃.tail fun thread => { thread with linkedThread := s₃.head }).toList

/-- The states after the statements of `schedule`, the call of `thread_candidate` being one. -/
def schedulePoints (s : State) : List State :=
  match threadCandidate s with
  | none => []
  | some (none, s₁) => [s₁]
  | some (some t, s₁) =>
    s₁ :: match s₁.threads t with
      | none => []
      | some thread =>
        if thread.threadStatus = .status_ then
          match s₁.store (some t) fun thread => { thread with threadStatus := .running } with
          | none => []
          | some s₂ => [s₂, { s₂ with control := .running, started := s₂.started ++ [t] }]
        else
          match s₁.deref s₁.currentThread with
          | none => []
          | some current => if current.ctx then [{ s₁ with control := .running }] else []

/-- The states after the statements in the loop of `destroy`. -/
def destroyLoopPoints : ℕ → ℕ → State → List State
  | 0, _, _ => []
  | fuel + 1, t, s =>
    match s.threads t with
    | none => []
    | some thread =>
      if thread.threadStatus = .terminated then
        if s.head = s.tail then
          match s.store s.tail fun thread => { thread with linkedThread := none } with
          | none => []
          | some s₁ =>
            let s₂ := { s₁ with tail := none }
            let s₃ := { s₂ with head := none }
            let s₄ := { s₃ with currentThread := none }
            [s₁, s₂, s₃, s₄, s₄.free t]
        else
          let s₁ := { s with head := thread.linkedThread }
          let s₂ := { s₁ with currentThread := none }
          s₁ :: s₂ :: s₂.free t :: match thread.linkedThread with
            | none => []
            | some next => destroyLoopPoints fuel next (s₂.free t)
      else []

/-- The states after the statements of `destroy`. -/
def destroyPoints (s : State) : List State :=
  match s.head with
  | none => []
  | some t => destroyLoopPoints (s.allocated + 1) t s

/-- The states of `scheduler_execute` from the return of `setjmp` on: the alarm is armed before
`schedule` is called. -/
def executePoints (s : State) : List State :=
  let s₁ := { s with control := .scheduler }
  let s₂ := { s₁ with alarm := true }
  s₁ :: s₂ :: (schedulePoints s₂ ++
    match schedule s₂ with
    | none => []
    | some s₃ =>
      if s₃.control = .running then []
      else destroyPoints s₃ ++ ((destroy s₃).map fun s => { s with control := .idle }).toList)

/-- The states of `scheduler_yield`: the alarm is disarmed first. -/
def yieldPoints (s : State) : List State :=
  let s₁ := { s with alarm := false }
  s₁ :: match s₁.store s₁.currentThread fun thread => { thread with ctx := true } with
    | none => []
    | some s₂ => s₂ :: executePoints s₂

/-- The states after the function of the current thread has returned; the alarm stays as it is. -/
def returnPoints (s : State) : List State :=
  match s.currentThread with
  | none => []
  | some t =>
    match s.store (some t) fun thread => { thread with threadStatus := .terminated } with
    | none => []
    | some s₁ =>
      let s₂ := { s₁ with finished := s₁.finished ++ [t] }
      s₁ :: s₂ :: executePoints s₂

/-- The states that an event passes where control admits it, from the one before it on. -/
def points (s : State) : Event → List State
  | .create threadOk stackOk =>
    if s.control = .idle ∨ s.control = .running then s :: createPoints threadOk stackOk s else []
  | .execute => if s.control = .idle then s :: executePoints s else []
  | .yield => if s.control = .running then s :: yieldPoints s else []
  | .return_ => if s.control = .running then s :: returnPoints s else []

/-- The alarm is safe in all states that the event passes. -/
def EventSafe (s : State) (e : Event) : Prop := ∀ p ∈ points s e, p.AlarmSafe

instance (s : State) (e : Event) : Decidable (EventSafe s e) :=
  inferInstanceAs (Decidable (∀ p ∈ points s e, p.AlarmSafe))

/-- A thread is current where one is created with an armed alarm and where `scheduler_execute` is
called; a thread that yields is the head, or another one is unfinished; and where a function
returns, another thread is unfinished, unless the list is no ring. -/
def Guarded (s : State) : Event → Prop
  | .create _ _ =>
    s.control = .idle ∨ s.control = .running → s.alarm = true → s.currentThread ≠ none
  | .execute => s.control = .idle → s.currentThread ≠ none
  | .yield => s.control = .running →
    s.head = s.currentThread ∨ ∃ t, some t ≠ s.currentThread ∧ s.unfinished t = true
  | .return_ => s.control = .running →
    s.tail.bind (linkOf s.threads) ≠ s.head ∨
      ∃ t, some t ≠ s.currentThread ∧ s.unfinished t = true

variable {s s' p : State} {t c : ℕ} {l r : List ℕ}

/-! ## The last of the states -/

/-- The states of the loop of `destroy` end in its result. -/
lemma destroyLoopPoints_getLast {fuel : ℕ} (h : destroyLoop fuel t s = some s') :
    (s :: destroyLoopPoints fuel t s).getLast? = some s' := by
  induction fuel generalizing t s with
  | zero => simp [destroyLoop] at h
  | succ fuel ih =>
    rw [destroyLoop] at h
    rw [destroyLoopPoints]
    cases hthread : s.threads t with
    | none => simp [hthread] at h
    | some thread =>
      simp only [hthread] at h ⊢
      split at h
      · next hterm =>
        rw [if_pos hterm]
        split at h
        · next heq =>
          rw [if_pos heq]
          cases hstore : s.store s.tail fun thread => { thread with linkedThread := none } with
          | none => simp [hstore] at h
          | some s₁ =>
            simp only [hstore, Option.some.injEq] at h
            subst h
            rfl
        · next hne =>
          rw [if_neg hne]
          cases hlink : thread.linkedThread with
          | none =>
            simp only [hlink, Option.some.injEq] at h
            subst h
            rfl
          | some next =>
            simp only [hlink] at h
            have hlast := ih h
            simp only [List.getLast?_cons_cons]
            exact hlast
      · next hterm =>
        rw [if_neg hterm]
        exact h

/-- The states of `destroy` end in its result. -/
lemma destroyPoints_getLast (h : destroy s = some s') :
    (s :: destroyPoints s).getLast? = some s' := by
  rw [destroy] at h
  rw [destroyPoints]
  cases hhead : s.head with
  | none => simp [hhead] at h
  | some t =>
    simp only [hhead] at h ⊢
    exact destroyLoopPoints_getLast h

/-- The states of `schedule` end in its result. -/
lemma schedulePoints_getLast (h : schedule s = some s') :
    (schedulePoints s).getLast? = some s' := by
  rw [schedule] at h
  rw [schedulePoints]
  cases hcand : threadCandidate s with
  | none => simp [hcand] at h
  | some result =>
    obtain ⟨candidate, s₁⟩ := result
    simp only [hcand, Option.bind_eq_bind, Option.bind_some] at h
    cases candidate with
    | none => exact h
    | some t =>
      simp only at h ⊢
      cases hthread : s₁.threads t with
      | none => simp [hthread] at h
      | some thread =>
        simp only [hthread, Option.bind_some] at h ⊢
        split at h
        · next hfresh =>
          rw [if_pos hfresh]
          obtain ⟨s₂, hstore, h⟩ := Option.bind_eq_some_iff.mp h
          rw [hstore]
          exact h
        · next hfresh =>
          rw [if_neg hfresh]
          obtain ⟨current, hcurrent, h⟩ := Option.bind_eq_some_iff.mp h
          rw [hcurrent]
          split at h
          · next hctx =>
            simp only [hctx, if_true]
            exact h
          · simp at h

/-- The states of `scheduler_execute` end in its result. -/
lemma executePoints_getLast (h : schedulerExecute s = some s') :
    (executePoints s).getLast? = some s' := by
  obtain ⟨s₃, hschedule, h⟩ := Option.bind_eq_some_iff.mp h
  have hlast := schedulePoints_getLast hschedule
  rw [executePoints]
  simp only [hschedule]
  split at h
  · next hrunning =>
    rw [if_pos hrunning, List.append_nil, List.getLast?_cons, List.getLast?_cons, hlast]
    exact h
  · next hreturned =>
    obtain ⟨s₄, hdestroy, h⟩ := Option.bind_eq_some_iff.mp h
    rw [if_neg hreturned, hdestroy, List.getLast?_cons, List.getLast?_cons]
    simp only [Option.map_some, Option.toList_some, List.getLast?_append, List.getLast?_singleton,
      Option.some_or, Option.getD_some]
    exact h

/-- The states of `scheduler_create` end in its result. -/
lemma createPoints_getLast {threadOk stackOk : Bool}
    (h : schedulerCreate threadOk stackOk s = some s') :
    (createPoints threadOk stackOk s).getLast? = some s' := by
  rw [schedulerCreate] at h
  rw [createPoints]
  split at h
  · simp at h
  · next hthread =>
    rw [if_neg hthread]
    split at h
    · simp at h
    · next hstack =>
      rw [if_neg hstack]
      cases hhead : s.head with
      | none =>
        simp only [hhead] at h ⊢
        rw [h]
        rfl
      | some a =>
        simp only [hhead] at h ⊢
        obtain ⟨s₂, hstore, h⟩ := Option.bind_eq_some_iff.mp h
        rw [hstore]
        simp only
        rw [h]
        rfl

/-- **The states that an event passes end in the state after it**, unless it crashes. -/
theorem points_getLast {e : Event} (h : step s e = some s') :
    (points s e).getLast? = some s' ∨ s' = { s with control := .crashed } := by
  have hresult {result : Option State} {ps : List State} (hs' : s.orCrash result = s')
      (hlast : ∀ s₁, result = some s₁ → ps.getLast? = some s₁) :
      (s :: ps).getLast? = some s' ∨ s' = { s with control := .crashed } := by
    cases hr : result with
    | none =>
      rw [hr] at hs'
      exact .inr hs'.symm
    | some s₁ =>
      rw [hr, State.orCrash, Option.getD_some] at hs'
      subst hs'
      rw [List.getLast?_cons, hlast s₁ hr]
      exact .inl rfl
  cases e with
  | create threadOk stackOk =>
    simp only [step, Option.ite_none_right_eq_some, Option.some.injEq] at h
    obtain ⟨hwhere, hs'⟩ := h
    rw [points, if_pos hwhere]
    exact hresult hs' fun s₁ => createPoints_getLast
  | execute =>
    simp only [step, Option.ite_none_right_eq_some, Option.some.injEq] at h
    obtain ⟨hidle, hs'⟩ := h
    rw [points, if_pos hidle]
    exact hresult hs' fun s₁ => executePoints_getLast
  | yield =>
    simp only [step, Option.ite_none_right_eq_some, Option.some.injEq] at h
    obtain ⟨hrunning, hs'⟩ := h
    rw [points, if_pos hrunning]
    refine hresult hs' fun s₁ hyield => ?_
    obtain ⟨s₂, hstore, hexec⟩ := Option.bind_eq_some_iff.mp hyield
    rw [yieldPoints]
    simp only at hstore ⊢
    rw [hstore, List.getLast?_cons, List.getLast?_cons, executePoints_getLast hexec]
    rfl
  | return_ =>
    simp only [step, Option.ite_none_right_eq_some, Option.some.injEq] at h
    obtain ⟨hrunning, hs'⟩ := h
    rw [points, if_pos hrunning]
    refine hresult hs' fun s₁ hreturn => ?_
    obtain ⟨t, hcurrent, hreturn⟩ := Option.bind_eq_some_iff.mp hreturn
    obtain ⟨s₂, hstore, hexec⟩ := Option.bind_eq_some_iff.mp hreturn
    rw [returnPoints, hcurrent]
    simp only
    rw [hstore]
    simp only
    rw [List.getLast?_cons, List.getLast?_cons, executePoints_getLast hexec]
    rfl

/-! ## States in which nothing changes for the alarm -/

/-- The alarm and the current thread are those of `s`, and the threads of `s` are still
allocated. -/
structure Follows (s p : State) : Prop where
  alarm : p.alarm = s.alarm
  current : p.currentThread = s.currentThread
  threads : ∀ t, (s.threads t).isSome → (p.threads t).isSome

lemma Follows.refl (s : State) : Follows s s := ⟨rfl, rfl, fun _ ht => ht⟩

lemma Follows.trans (h : Follows s p) (h' : Follows p s') : Follows s s' :=
  ⟨h'.alarm.trans h.alarm, h'.current.trans h.current, fun t ht => h'.threads t (h.threads t ht)⟩

/-- If the current thread is allocated, the alarm is safe. -/
lemma alarmSafe_of_current (hc : s.currentThread = some c) (hthread : (s.threads c).isSome) :
    s.AlarmSafe := by
  intro _
  rw [State.deref, hc]
  exact hthread

/-- A safe alarm stays safe. -/
lemma Follows.alarmSafe (h : Follows s p) (hs : s.AlarmSafe) : p.AlarmSafe := by
  intro halarm
  rw [h.alarm] at halarm
  have hcurrent := hs halarm
  rw [State.deref, h.current]
  cases hc : s.currentThread with
  | none =>
    rw [State.deref, hc] at hcurrent
    simp at hcurrent
  | some c =>
    rw [State.deref, hc] at hcurrent
    exact h.threads c hcurrent

/-- A write through a pointer changes nothing for the alarm. -/
lemma follows_of_store {q : Option ℕ} {f : Thread → Thread} (h : s.store q f = some p) :
    Follows s p := by
  have hthreads (t : ℕ) (ht : (s.threads t).isSome) := isSome_of_store h ht
  unfold State.store at h
  split at h
  · simp at h
  · split at h
    · simp at h
    · obtain rfl := Option.some.inj h
      exact ⟨rfl, rfl, hthreads⟩

/-- Nor does an allocation, -/
lemma follows_update (t : ℕ) (thread : Thread) : Follows s { s with
    threads := Function.update s.threads t (some thread), allocated := t + 1 } := by
  refine ⟨rfl, rfl, fun u hu => ?_⟩
  by_cases hut : u = t
  · subst hut
    simp
  · simpa [Function.update_of_ne hut] using hu

/-- nor any statement of `scheduler_create`. -/
lemma createPoints_follow {threadOk stackOk : Bool} (hfresh : s.threads s.allocated = none)
    (hp : p ∈ createPoints threadOk stackOk s) : Follows s p := by
  have halloc := follows_update (s := s) s.allocated ⟨false, .status_, none⟩
  rw [createPoints] at hp
  split at hp
  · simp at hp
  split at hp
  · simp only [List.mem_cons, List.not_mem_nil, or_false] at hp
    rcases hp with rfl | rfl
    · exact halloc
    · refine ⟨rfl, rfl, fun t ht => ?_⟩
      have htne : t ≠ s.allocated := by
        rintro rfl
        rw [hfresh] at ht
        simp at ht
      simpa [State.free, Function.update_of_ne htne] using ht
  cases hhead : s.head with
  | none =>
    rw [hhead] at halloc
    simp only [hhead, List.cons_append, List.nil_append, List.mem_cons, Option.mem_toList] at hp
    rcases hp with rfl | rfl | rfl | hstore
    · exact halloc
    · exact ⟨rfl, rfl, halloc.threads⟩
    · exact ⟨rfl, rfl, halloc.threads⟩
    · have hfollows := follows_of_store hstore
      exact ⟨hfollows.alarm, hfollows.current, fun t ht => hfollows.threads t (halloc.threads t ht)⟩
  | some a =>
    rw [hhead] at halloc
    simp only [hhead] at hp
    rcases List.mem_cons.mp hp with rfl | hp
    · exact halloc
    split at hp
    · simp at hp
    · next s₂ hlink =>
      have hlinked := halloc.trans (follows_of_store hlink)
      simp only [List.cons_append, List.nil_append, List.mem_cons, Option.mem_toList] at hp
      rcases hp with rfl | rfl | hstore
      · exact hlinked
      · exact ⟨hlinked.alarm, hlinked.current, hlinked.threads⟩
      · have hfollows := follows_of_store hstore
        exact ⟨hfollows.alarm.trans hlinked.alarm, hfollows.current.trans hlinked.current,
          fun t ht => hfollows.threads t (hlinked.threads t ht)⟩

/-- In `schedule`, nothing changes for the alarm behind `thread_candidate`. -/
lemma schedulePoints_follow {candidate : Option ℕ} {s₁ : State}
    (hcand : threadCandidate s = some (candidate, s₁)) (hp : p ∈ schedulePoints s) :
    Follows s₁ p := by
  rw [schedulePoints, hcand] at hp
  cases candidate with
  | none =>
    obtain rfl := List.mem_singleton.mp hp
    exact .refl p
  | some t =>
    rcases List.mem_cons.mp hp with rfl | hp
    · exact .refl p
    split at hp
    · simp at hp
    split at hp
    · split at hp
      · simp at hp
      · next s₂ hstore =>
        have hfollows := follows_of_store hstore
        simp only [List.mem_cons, List.not_mem_nil, or_false] at hp
        rcases hp with rfl | rfl
        · exact hfollows
        · exact ⟨hfollows.alarm, hfollows.current, hfollows.threads⟩
    · split at hp
      · simp at hp
      split at hp
      · obtain rfl := List.mem_singleton.mp hp
        exact ⟨rfl, rfl, fun _ ht => ht⟩
      · simp at hp

/-! ## The states of `scheduler_execute` -/

/-- If `thread_candidate` crashes, the alarm has been armed before. -/
lemma executePoints_of_crash
    (hcand : threadCandidate { s with alarm := true, control := .scheduler } = none) :
    executePoints s =
      [{ s with control := .scheduler }, { s with alarm := true, control := .scheduler }] := by
  simp only [executePoints, schedulePoints, schedule, hcand, Option.bind_eq_bind,
    Option.bind_none, List.append_nil]

/-- If a thread runs, `schedule` has not returned. -/
lemma executePoints_of_running (hexec : schedulerExecute s = some s')
    (hrunning : s'.control = .running) :
    executePoints s = { s with control := .scheduler } ::
      { s with alarm := true, control := .scheduler } ::
        schedulePoints { s with alarm := true, control := .scheduler } := by
  obtain ⟨s₃, hschedule, hexec⟩ := Option.bind_eq_some_iff.mp hexec
  have hrunning₃ : s₃.control = .running := by
    split at hexec
    · next h => exact h
    · obtain ⟨s₄, -, hexec⟩ := Option.bind_eq_some_iff.mp hexec
      obtain rfl := Option.some.inj hexec
      simp at hrunning
  simp only [executePoints, hschedule, hrunning₃, if_true, List.append_nil]

/-- If there is no candidate, `destroy` follows. -/
lemma executePoints_of_none
    (hcand : threadCandidate { s with alarm := true, control := .scheduler } =
      some (none, { s with alarm := true, control := .scheduler })) :
    executePoints s = { s with control := .scheduler } ::
      { s with alarm := true, control := .scheduler } ::
      { s with alarm := true, control := .scheduler } ::
        (destroyPoints { s with alarm := true, control := .scheduler } ++
          ((destroy { s with alarm := true, control := .scheduler }).map
            fun s => { s with control := .idle }).toList) := by
  simp only [executePoints, schedulePoints, schedule, hcand, Option.bind_eq_bind,
    Option.bind_some, reduceCtorEq, if_false, List.cons_append, List.nil_append]

/-- The alarm is armed for an allocated current thread, and then selected for a thread that
runs. -/
lemma Ready.executePoints_safe (h : Ready s) (hc : s.currentThread = some c)
    (hthread : (s.threads c).isSome)
    (hcand : threadCandidate { s with alarm := true, control := .scheduler } =
      some (some t, { s with alarm := true, control := .scheduler, currentThread := some t }))
    (hun : s.unfinished t = true) (hp : p ∈ executePoints s) : p.AlarmSafe := by
  obtain ⟨s', hexec, hrunning, -⟩ := h.run_candidate hcand hun
  obtain ⟨st, hst, -⟩ := State.unfinished_iff.mp hun
  obtain ⟨thread, ht, -⟩ := exists_of_statusOf hst
  rw [executePoints_of_running hexec hrunning] at hp
  rcases List.mem_cons.mp hp with rfl | hp
  · exact alarmSafe_of_current hc hthread
  rcases List.mem_cons.mp hp with rfl | hp
  · exact alarmSafe_of_current hc hthread
  apply (schedulePoints_follow hcand hp).alarmSafe
  exact alarmSafe_of_current (c := t) rfl (Option.isSome_of_eq_some ht)

/-- If there is no candidate and the head is unfinished, the current thread stays. -/
lemma executePoints_safe_of_head (hc : s.currentThread = some c) (hthread : (s.threads c).isSome)
    (hcand : threadCandidate { s with alarm := true, control := .scheduler } =
      some (none, { s with alarm := true, control := .scheduler }))
    {a : ℕ} (hhead : s.head = some a) (hun : s.unfinished a = true)
    (hp : p ∈ executePoints s) : p.AlarmSafe := by
  obtain ⟨st, hst, hterm⟩ := State.unfinished_iff.mp hun
  obtain ⟨thread, ha, hstatus⟩ := exists_of_statusOf hst
  have hdestroy : destroy { s with alarm := true, control := .scheduler } =
      some { s with alarm := true, control := .scheduler } :=
    destroy_of_head (s := { s with alarm := true, control := .scheduler }) hhead hst hterm
  have hpoints : destroyPoints { s with alarm := true, control := .scheduler } = [] := by
    rw [destroyPoints]
    simp only [hhead]
    rw [destroyLoopPoints]
    simp [ha, hstatus, hterm]
  rw [executePoints_of_none hcand, hdestroy, hpoints] at hp
  simp only [List.nil_append, Option.map_some, Option.toList_some, List.mem_cons,
    List.not_mem_nil, or_false] at hp
  rcases hp with rfl | rfl | rfl | rfl
  all_goals exact alarmSafe_of_current hc hthread

/-- `destroy` resets the current thread if the head is terminated. -/
lemma destroyPoints_reset {a : ℕ} (hhead : s.head = some a)
    (hst : statusOf s.threads a = some .terminated) :
    ∃ p ∈ destroyPoints s, p.alarm = s.alarm ∧ p.currentThread = none := by
  obtain ⟨thread, ha, hstatus⟩ := exists_of_statusOf hst
  rw [destroyPoints]
  simp only [hhead]
  rw [destroyLoopPoints]
  simp only [ha, hstatus, if_true]
  by_cases htail : s.head = s.tail
  · rw [if_pos htail, State.store_of_pointer _ (htail.symm.trans hhead) ha]
    exact ⟨_, .tail _ (.tail _ (.tail _ (.head _))), rfl, rfl⟩
  · rw [if_neg htail]
    exact ⟨_, .tail _ (.head _), rfl, rfl⟩

/-- An armed alarm is not safe without a current thread. -/
lemma not_alarmSafe (halarm : s.alarm = true) (hnull : s.currentThread = none) :
    ¬ s.AlarmSafe := by
  intro hsafe
  have hsome := hsafe halarm
  rw [State.deref, hnull] at hsome
  simp at hsome

/-- **If there is no candidate and the head is terminated, the current thread is reset while the
alarm is armed.** -/
lemma executePoints_not_safe {a : ℕ}
    (hcand : threadCandidate { s with alarm := true, control := .scheduler } =
      some (none, { s with alarm := true, control := .scheduler }))
    (hhead : s.head = some a) (hst : statusOf s.threads a = some .terminated) :
    ∃ p ∈ executePoints s, ¬ p.AlarmSafe := by
  obtain ⟨p, hp, halarm, hnull⟩ := destroyPoints_reset
    (s := { s with alarm := true, control := .scheduler }) hhead hst
  refine ⟨p, ?_, not_alarmSafe halarm hnull⟩
  rw [executePoints_of_none hcand]
  simp only [List.mem_cons, List.mem_append]
  exact .inr (.inr (.inr (.inl hp)))

/-! ## The events -/

/-- An event that control does not admit passes no states. -/
lemma eventSafe_of_nil {e : Event} (h : points s e = []) : EventSafe s e := by
  intro p hp
  rw [h] at hp
  exact absurd hp List.not_mem_nil

/-- A created thread changes nothing for the alarm. -/
lemma create_safe_iff {threadOk stackOk : Bool} (hfresh : s.threads s.allocated = none)
    (hcurrent : ∀ c, s.currentThread = some c → (s.threads c).isSome) :
    EventSafe s (.create threadOk stackOk) ↔ Guarded s (.create threadOk stackOk) := by
  constructor
  · intro hsafe hwhere halarm hnull
    refine not_alarmSafe halarm hnull (hsafe s ?_)
    rw [points, if_pos hwhere]
    exact List.mem_cons_self
  · intro hguarded p hp
    rw [points] at hp
    split at hp
    · next hwhere =>
      have hs : s.AlarmSafe := by
        intro halarm
        obtain ⟨c, hc⟩ := Option.ne_none_iff_exists'.mp (hguarded hwhere halarm)
        exact alarmSafe_of_current hc (hcurrent c hc) halarm
      rcases List.mem_cons.mp hp with rfl | hp
      · exact hs
      · exact (createPoints_follow hfresh hp).alarmSafe hs
    · simp at hp

/-- Without a current thread, `scheduler_execute` arms the alarm too early. -/
lemma not_execute_safe (hidle : s.control = .idle) (hnull : s.currentThread = none) :
    ¬ EventSafe s .execute := by
  intro hsafe
  refine not_alarmSafe (s := { s with alarm := true, control := .scheduler }) rfl hnull
    (hsafe _ ?_)
  rw [points, if_pos hidle]
  exact .tail _ (.tail _ (.head _))

lemma yieldPoints_eq {thread : Thread} (hc : s.currentThread = some c)
    (hthread : s.threads c = some thread) :
    yieldPoints s = { s with alarm := false } :: s.yielded c thread ::
      executePoints (s.yielded c thread) := by
  simp only [yieldPoints,
    State.store_of_pointer (s := { s with alarm := false }) _ hc hthread]
  rfl

lemma returnPoints_eq {thread : Thread} (hc : s.currentThread = some c)
    (hthread : s.threads c = some thread) : returnPoints s =
      { s.returned c thread with finished := s.finished } :: s.returned c thread ::
        executePoints (s.returned c thread) := by
  simp only [returnPoints, hc, State.store_of_eq _ hthread]
  simp only [State.returned, hc]

/-- A yield is as safe as the `scheduler_execute` that it jumps to. -/
lemma yield_safe_iff {thread : Thread} (hrunning : s.control = .running)
    (hc : s.currentThread = some c) (hthread : s.threads c = some thread) :
    EventSafe s .yield ↔ ∀ p ∈ executePoints (s.yielded c thread), p.AlarmSafe := by
  rw [EventSafe, points, if_pos hrunning, yieldPoints_eq hc hthread]
  constructor
  · intro hsafe p hp
    exact hsafe p (.tail _ (.tail _ (.tail _ hp)))
  · intro hsafe p hp
    rcases List.mem_cons.mp hp with rfl | hp
    · exact alarmSafe_of_current hc (Option.isSome_of_eq_some hthread)
    rcases List.mem_cons.mp hp with rfl | hp
    · exact alarmSafe_of_current hc (Option.isSome_of_eq_some hthread)
    rcases List.mem_cons.mp hp with rfl | hp
    · exact alarmSafe_of_current hc (by simp [State.yielded])
    · exact hsafe p hp

/-- The return of a function is as safe as the `scheduler_execute` that it jumps to. -/
lemma return_safe_iff {thread : Thread} (hrunning : s.control = .running)
    (hc : s.currentThread = some c) (hthread : s.threads c = some thread) :
    EventSafe s .return_ ↔ ∀ p ∈ executePoints (s.returned c thread), p.AlarmSafe := by
  rw [EventSafe, points, if_pos hrunning, returnPoints_eq hc hthread]
  constructor
  · intro hsafe p hp
    exact hsafe p (.tail _ (.tail _ (.tail _ hp)))
  · intro hsafe p hp
    rcases List.mem_cons.mp hp with rfl | hp
    · exact alarmSafe_of_current hc (Option.isSome_of_eq_some hthread)
    rcases List.mem_cons.mp hp with rfl | hp
    · exact alarmSafe_of_current hc (by simp [State.returned])
    rcases List.mem_cons.mp hp with rfl | hp
    · exact alarmSafe_of_current hc (by simp [State.returned])
    · exact hsafe p hp

/-! ### On a ring -/

/-- A call of `scheduler_execute` with a current thread. -/
lemma Sched.execute_safe (h : Sched s) (hidle : s.control = .idle)
    (hc : s.currentThread = some c) : EventSafe s .execute := by
  intro p hp
  have hcontrol := h.control
  rw [hidle] at hcontrol
  obtain ⟨-, hunfinished, hcurrent⟩ := hcontrol
  have hready := h.ready_of_idle hidle
  have hthread := h.proper.current c hc
  have hhead := hcurrent c hc
  obtain ⟨l, hl⟩ := h.proper.ring
  have hmem : c ∈ l := List.mem_of_head? (hl.head.symm.trans hhead)
  rw [points, if_pos hidle] at hp
  rcases List.mem_cons.mp hp with rfl | hp
  · exact alarmSafe_of_current hc hthread
  rcases candidate_cases hl hc hmem with ⟨t, -, hun, hcand⟩ | ⟨-, hcand⟩
  · exact hready.executePoints_safe hc hthread hcand hun hp
  · exact executePoints_safe_of_head hc hthread hcand hhead (hunfinished c hhead) hp

/-- A yield on a ring. -/
lemma Sched.yield_safe_iff (h : Sched s) (hrunning : s.control = .running) :
    EventSafe s .yield ↔ s.head = s.currentThread ∨
      ∃ t, some t ≠ s.currentThread ∧ s.unfinished t = true := by
  obtain ⟨c, thread, l, hy⟩ := (h.inv hrunning).exists_yielded hrunning
  have hsome : ((s.yielded c thread).threads c).isSome := by simp [State.yielded]
  rw [P2.yield_safe_iff hrunning hy.current hy.stored]
  rcases hy.cases with ⟨t, htc, hun, hcand⟩ | ⟨hnone, hcand⟩
  · refine ⟨fun _ => .inr ⟨t, ?_, hun⟩, fun _ p hp => ?_⟩
    · rw [hy.current]
      simpa using htc
    · rw [← hy.unfinished] at hun
      exact hy.ready.executePoints_safe hy.current hsome hcand hun hp
  · obtain ⟨a, hal, ha⟩ := hy.listed.exists_head hy.mem
    constructor
    · intro hsafe
      by_cases hac : a = c
      · exact .inl (by rw [hy.current, ← hac]; exact ha)
      · have hfinished : (s.yielded c thread).unfinished a = false := by
          rw [hy.unfinished, hnone a hac]
        have hterm := statusOf_of_not_unfinished hy.listed hal hfinished
        obtain ⟨p, hp, hnot⟩ := executePoints_not_safe hcand ha hterm
        exact absurd (hsafe p hp) hnot
    · rintro (hhead | ⟨t, htc, hun⟩) p hp
      · have hun : (s.yielded c thread).unfinished c = true := by
          rw [hy.unfinished]
          exact State.unfinished_iff.mpr ⟨.running, hy.running, by decide⟩
        exact executePoints_safe_of_head (s := s.yielded c thread) hy.current hsome hcand
          (hhead.trans hy.current) hun hp
      · rw [hnone t fun heq => htc (by rw [heq, hy.current])] at hun
        simp at hun

/-- A return on a ring. -/
lemma Sched.return_safe_iff (h : Sched s) (hrunning : s.control = .running) :
    EventSafe s .return_ ↔ ∃ t, some t ≠ s.currentThread ∧ s.unfinished t = true := by
  obtain ⟨c, thread, l, hr⟩ := (h.inv hrunning).exists_returned hrunning
  have hsome : ((s.returned c thread).threads c).isSome := by simp [State.returned]
  rw [P2.return_safe_iff hrunning hr.current hr.stored]
  rcases hr.cases with ⟨t, htc, hun, hcand⟩ | ⟨hterm, hcand⟩
  · refine ⟨fun _ => ⟨t, ?_, ?_⟩, fun _ p hp => ?_⟩
    · rw [hr.current]
      simpa using htc
    · rwa [← hr.unfinished htc]
    · exact hr.ready.executePoints_safe hr.current hsome hcand hun hp
  · constructor
    · intro hsafe
      obtain ⟨a, hal, ha⟩ := hr.listed.exists_head hr.mem
      obtain ⟨p, hp, hnot⟩ := executePoints_not_safe hcand ha (hterm a hal)
      exact absurd (hsafe p hp) hnot
    · rintro ⟨t, htc, hun⟩
      have hne : t ≠ c := fun heq => htc (by rw [heq, hr.current])
      rw [← hr.unfinished hne] at hun
      obtain ⟨st, hst, hnot⟩ := State.unfinished_iff.mp hun
      have hmem : t ∈ l := (hr.listed.mem_iff t).mpr (by rw [hst]; rfl)
      exact absurd (Option.some.inj (hst.symm.trans (hterm t hmem))) hnot

/-- The tail of a ring is linked to the head. -/
lemma State.Listed.tail_link (h : s.Listed l) : s.tail.bind (linkOf s.threads) = s.head := by
  cases htail : s.tail with
  | none =>
    have hempty := h.tail.symm.trans htail
    rw [h.head, List.getLast?_eq_none_iff.mp hempty]
    rfl
  | some z => exact (h.ring.next_getLast (h.tail.symm.trans htail)).trans h.head.symm

/-- **On a ring, an event is safe if and only if it is guarded.** -/
theorem Sched.eventSafe_iff (h : Sched s) (e : Event) : EventSafe s e ↔ Guarded s e := by
  obtain ⟨l, hl⟩ := h.proper.ring
  cases e with
  | create threadOk stackOk =>
    refine create_safe_iff ?_ h.proper.current
    cases hfresh : s.threads s.allocated with
    | none => rfl
    | some thread =>
      have hmem : s.allocated ∈ l := (hl.mem_iff _).mpr (by rw [statusOf_of_eq hfresh]; rfl)
      exact absurd (hl.lt _ hmem) (Nat.lt_irrefl _)
  | execute =>
    constructor
    · intro hsafe hidle hnull
      exact not_execute_safe hidle hnull hsafe
    · intro hguarded
      by_cases hidle : s.control = .idle
      · obtain ⟨c, hc⟩ := Option.ne_none_iff_exists'.mp (hguarded hidle)
        exact h.execute_safe hidle hc
      · exact eventSafe_of_nil (if_neg hidle)
  | yield =>
    by_cases hrunning : s.control = .running
    · rw [h.yield_safe_iff hrunning]
      exact ⟨fun hsafe _ => hsafe, fun hguarded => hguarded hrunning⟩
    · exact ⟨fun _ hrun => absurd hrun hrunning, fun _ => eventSafe_of_nil (if_neg hrunning)⟩
  | return_ =>
    by_cases hrunning : s.control = .running
    · rw [h.return_safe_iff hrunning]
      refine ⟨fun hsafe _ => .inr hsafe, fun hguarded => ?_⟩
      exact (hguarded hrunning).resolve_left fun hne => hne hl.tail_link
    · exact ⟨fun _ hrun => absurd hrun hrunning, fun _ => eventSafe_of_nil (if_neg hrunning)⟩

/-! ### On a torn ring -/

/-- The tail of a torn ring is not linked to the head. -/
lemma Torn.tail_link (h : Torn s c r) : s.tail.bind (linkOf s.threads) ≠ s.head := by
  obtain ⟨a, hpath, hfreed⟩ := h.path
  obtain ⟨z, hz⟩ : ∃ z, (c :: r).getLast? = some z :=
    ⟨_, List.getLast?_eq_some_getLast (List.cons_ne_nil c r)⟩
  have hst := h.status
  rw [h.tail, hz, h.head]
  intro hlink
  obtain rfl : a = c := Option.some.inj ((hpath.next_getLast hz).symm.trans hlink)
  rw [statusOf, hfreed] at hst
  simp at hst

/-- If `thread_candidate` crashes, the alarm is armed for the current thread. -/
lemma executePoints_safe_of_crash (hc : s.currentThread = some c)
    (hthread : (s.threads c).isSome)
    (hcand : threadCandidate { s with alarm := true, control := .scheduler } = none)
    (hp : p ∈ executePoints s) : p.AlarmSafe := by
  rw [executePoints_of_crash hcand] at hp
  simp only [List.mem_cons, List.not_mem_nil, or_false] at hp
  rcases hp with rfl | rfl
  all_goals exact alarmSafe_of_current hc hthread

/-- **On a torn ring, an event is safe if and only if it is guarded.** -/
theorem Torn.eventSafe_iff (h : Torn s c r) (e : Event) : EventSafe s e ↔ Guarded s e := by
  obtain ⟨thread, hthread, -⟩ := exists_of_statusOf h.status
  have hcontrol := h.control
  cases e with
  | create threadOk stackOk =>
    by_cases hwhere : s.control = .idle ∨ s.control = .running
    · refine create_safe_iff ?_ fun u hu => ?_
      · cases hfresh : s.threads s.allocated with
        | none => rfl
        | some thread' =>
          have hmem := (h.mem_iff s.allocated).mpr (by rw [statusOf_of_eq hfresh]; rfl)
          exact absurd (h.lt _ hmem) (Nat.lt_irrefl _)
      · rcases hwhere with hidle | hrunning
        · rw [hidle] at hcontrol
          rw [hcontrol.1] at hu
          simp at hu
        · rw [hrunning] at hcontrol
          obtain rfl := Option.some.inj (hcontrol.symm.trans hu)
          exact Option.isSome_of_eq_some hthread
    · exact ⟨fun _ hw => absurd hw hwhere, fun _ => eventSafe_of_nil (if_neg hwhere)⟩
  | execute =>
    by_cases hidle : s.control = .idle
    · rw [hidle] at hcontrol
      refine ⟨fun hsafe => absurd hsafe (not_execute_safe hidle hcontrol.1), fun hguarded => ?_⟩
      exact absurd hcontrol.1 (hguarded hidle)
    · exact ⟨fun _ hrun => absurd hrun hidle, fun _ => eventSafe_of_nil (if_neg hidle)⟩
  | yield =>
    by_cases hrunning : s.control = .running
    · rw [hrunning] at hcontrol
      refine ⟨fun _ _ => .inl (h.head.trans hcontrol.symm), fun _ => ?_⟩
      rw [yield_safe_iff hrunning hcontrol hthread]
      intro p hp
      exact executePoints_safe_of_crash (s := s.yielded c thread) hcontrol
        (by simp [State.yielded]) (h.candidate_yielded hcontrol hthread) hp
    · exact ⟨fun _ hrun => absurd hrun hrunning, fun _ => eventSafe_of_nil (if_neg hrunning)⟩
  | return_ =>
    by_cases hrunning : s.control = .running
    · rw [hrunning] at hcontrol
      refine ⟨fun _ _ => .inl h.tail_link, fun _ => ?_⟩
      rw [return_safe_iff hrunning hcontrol hthread]
      intro p hp
      exact executePoints_safe_of_crash (s := s.returned c thread) hcontrol
        (by simp [State.returned]) (h.candidate_returned hcontrol hthread) hp
    · exact ⟨fun _ hrun => absurd hrun hrunning, fun _ => eventSafe_of_nil (if_neg hrunning)⟩

/-! ## All runs -/

/-- Between the events of any run, an event is safe if and only if it is guarded. -/
lemma Between.eventSafe_iff (h : Between s) (e : Event) : EventSafe s e ↔ Guarded s e := by
  rcases h with hsched | ⟨c, r, htorn⟩
  · exact hsched.eventSafe_iff e
  · exact htorn.eventSafe_iff e

/-- **Where the alarm is safe.** The alarm is safe in all states that a run passes if and only if
all events of the run are guarded; and at every event of every run, what came before it
notwithstanding, the alarm is safe in all states that the event passes if and only if the event is
guarded.

**Proof sketch.** Between events the list is a ring, or a torn one after a yield that made `destroy`
stop. On a ring, a current thread is exchanged for another one without a gap, so that what is left
is the first statement of a `scheduler_execute` without a current thread, and a `destroy` that frees
the head. On a torn ring, the search crashes before either of them. -/
theorem alarmSafe_iff_guarded (events : List Event) :
    (Always step EventSafe State.init events ↔ Always step Guarded State.init events) ∧
      Always step (fun s e => EventSafe s e ↔ Guarded s e) State.init events := by
  constructor
  · refine always_congr_of_invariant (E := fun _ _ => True) (I := Between) ?_ ?_ between_init
      (always_of_forall_mem _ fun _ _ => trivial)
    · intro s e s' h _ _ hstep
      exact h.step hstep
    · intro s e h _
      exact h.eventSafe_iff e
  · refine always_of_invariant (I := fun s => Between s) ?_ ?_ between_init events
    · intro s e s' h hstep
      exact h.step hstep
    · intro s e h
      exact h.eventSafe_iff e

/-- The first call of `scheduler_execute` arms the alarm without a current thread; and after the
only thread has returned, the call leaves an armed alarm without a current thread. -/
theorem not_alarmSafe_first_execute_and_last_return :
    ¬ Always step EventSafe State.init [.create true true, .execute] ∧
      ∃ s, run step State.init [.create true true, .execute, .return_] = some s ∧
        s.control = .idle ∧ ¬ s.AlarmSafe := by
  constructor
  · intro h
    have h' : Always step EventSafe State.init ([.create true true] ++ [.execute]) := h
    exact absurd (h'.last rfl) (by decide)
  · exact ⟨_, rfl, rfl, by decide⟩

end Cs238p.P2
