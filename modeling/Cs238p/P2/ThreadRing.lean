import Mathlib.Data.List.Perm.Subperm
import Cs238p.Lib.CircularList
import Cs238p.P2.Scheduler

set_option relaxedAutoImplicit false
set_option autoImplicit false

/-!
# The scheduler's circular thread list

The threads that are allocated form a ring behind `head`. This module says what the functions of
the scheduler do on such a ring.

## Main definitions

* `linkOf`, `statusOf`, `ctxOf` — the fields of the threads in a heap.
* `State.Listed` — the allocated threads are the members of a ring from `head` to `tail`.

## Main results

* `schedulerCreate_of_listed` — a created thread is linked in behind the tail.
* `threadCandidate_of_current` — the candidate is the first unfinished thread behind the current
  one in the order of the ring.
* `destroy_of_forall_terminated` — a ring of terminated threads is freed completely.
-/

namespace Cs238p.P2

open CircularList

/-! ## Fields of the threads -/

/-- The thread behind a thread. -/
def linkOf (threads : ℕ → Option Thread) (t : ℕ) : Option ℕ :=
  (threads t).bind Thread.linkedThread

/-- The status of a thread. -/
def statusOf (threads : ℕ → Option Thread) (t : ℕ) : Option ThreadStatus :=
  (threads t).map Thread.threadStatus

/-- Whether the context of a thread has been saved. -/
def ctxOf (threads : ℕ → Option Thread) (t : ℕ) : Option Bool := (threads t).map Thread.ctx

variable {threads : ℕ → Option Thread} {t c : ℕ} {thread : Thread} {o : Option Thread}

@[simp] lemma linkOf_update : linkOf (Function.update threads t o) =
    Function.update (linkOf threads) t (o.bind Thread.linkedThread) := by
  funext u
  by_cases hu : u = t
  · subst hu
    simp only [linkOf, Function.update_self]
  · simp only [linkOf, Function.update_of_ne hu]

@[simp] lemma statusOf_update : statusOf (Function.update threads t o) =
    Function.update (statusOf threads) t (o.map Thread.threadStatus) := by
  funext u
  by_cases hu : u = t
  · subst hu
    simp only [statusOf, Function.update_self]
  · simp only [statusOf, Function.update_of_ne hu]

@[simp] lemma ctxOf_update : ctxOf (Function.update threads t o) =
    Function.update (ctxOf threads) t (o.map Thread.ctx) := by
  funext u
  by_cases hu : u = t
  · subst hu
    simp only [ctxOf, Function.update_self]
  · simp only [ctxOf, Function.update_of_ne hu]

lemma linkOf_of_eq (h : threads t = some thread) : linkOf threads t = thread.linkedThread := by
  rw [linkOf, h, Option.bind_some]

lemma statusOf_of_eq (h : threads t = some thread) :
    statusOf threads t = some thread.threadStatus := by
  rw [statusOf, h, Option.map_some]

lemma ctxOf_of_eq (h : threads t = some thread) : ctxOf threads t = some thread.ctx := by
  rw [ctxOf, h, Option.map_some]

/-- A thread with a status is allocated. -/
lemma exists_of_statusOf {st : ThreadStatus} (h : statusOf threads t = some st) :
    ∃ thread, threads t = some thread ∧ thread.threadStatus = st :=
  Option.map_eq_some_iff.mp h

namespace State

/-- The thread is allocated and not terminated. -/
def unfinished (s : State) (t : ℕ) : Bool := (statusOf s.threads t).any (· ≠ .terminated)

/-- The allocated threads are the members of the list, which is a ring from `head` to `tail`. -/
structure Listed (s : State) (l : List ℕ) : Prop where
  ring : Ring (linkOf s.threads) l
  head : s.head = l.head?
  tail : s.tail = l.getLast?
  mem_iff : ∀ t, t ∈ l ↔ (statusOf s.threads t).isSome
  lt : ∀ t ∈ l, t < s.allocated

variable {s : State} {l r : List ℕ}

lemma unfinished_iff :
    s.unfinished t = true ↔ ∃ st, statusOf s.threads t = some st ∧ st ≠ .terminated := by
  rw [unfinished]
  cases statusOf s.threads t <;> simp

/-- A thread of the list is allocated. -/
lemma Listed.exists_thread (h : s.Listed l) (ht : t ∈ l) : ∃ thread, s.threads t = some thread := by
  obtain ⟨st, hst⟩ := Option.isSome_iff_exists.mp ((h.mem_iff t).mp ht)
  obtain ⟨thread, hthread, -⟩ := exists_of_statusOf hst
  exact ⟨thread, hthread⟩

/-- There are at least as many allocations as members of the list. -/
lemma Listed.length_le (h : s.Listed l) : l.length ≤ s.allocated := by
  have hsub : l ⊆ List.range s.allocated := fun t ht => List.mem_range.mpr (h.lt t ht)
  have hlen := (List.subperm_of_subset h.ring.nodup hsub).length_le
  rwa [List.length_range] at hlen

/-- An update that keeps the link of a thread keeps the ring. -/
lemma Listed.update (h : s.Listed l) (hthread : s.threads t = some thread) (thread' : Thread)
    (hlink : thread'.linkedThread = thread.linkedThread) :
    Listed { s with threads := Function.update s.threads t (some thread') } l := by
  have hlinks : linkOf (Function.update s.threads t (some thread')) = linkOf s.threads := by
    rw [linkOf_update, Option.bind_some, hlink, ← linkOf_of_eq hthread,
      Function.update_eq_self]
  refine ⟨hlinks ▸ h.ring, h.head, h.tail, fun u => ?_, h.lt⟩
  by_cases hu : u = t
  · subst hu
    simp [h.mem_iff, statusOf_of_eq hthread]
  · simp [Function.update_of_ne hu, h.mem_iff]

lemma store_of_pointer {p : Option ℕ} (f : Thread → Thread) (hp : p = some t)
    (h : s.threads t = some thread) :
    s.store p f = some { s with threads := Function.update s.threads t (some (f thread)) } := by
  subst hp
  rw [State.store]
  simp only [h]

lemma store_of_eq (f : Thread → Thread) (h : s.threads t = some thread) :
    s.store (some t) f =
      some { s with threads := Function.update s.threads t (some (f thread)) } :=
  store_of_pointer f rfl h

end State

open State

variable {s s' : State} {l r : List ℕ}

/-! ## Creation -/

/-- **A created thread is linked in behind the tail**, with status `STATUS_` and no saved context.

**Proof sketch.** On an empty list the new thread is linked to itself. Otherwise the old tail is
linked to it, and it is linked to the head. -/
lemma schedulerCreate_of_listed (h : s.Listed l) : ∃ threads,
    schedulerCreate true true s = some { s with
      threads := threads, allocated := s.allocated + 1, head := (l ++ [s.allocated]).head?,
      tail := some s.allocated } ∧
    Ring (linkOf threads) (l ++ [s.allocated]) ∧
    statusOf threads = Function.update (statusOf s.threads) s.allocated (some .status_) ∧
    ctxOf threads = Function.update (ctxOf s.threads) s.allocated (some false) := by
  have hhead := h.head
  cases l with
  | nil =>
    rw [schedulerCreate]
    simp only [hhead, List.head?_nil, Bool.true_eq_false, if_false]
    rw [State.store_of_eq _ (Function.update_self _ _ _)]
    refine ⟨_, rfl, ?_, ?_, ?_⟩
    · refine ⟨List.nodup_singleton _, ?_⟩
      simp [CircularList.Path]
    · simp
    · simp
  | cons a l =>
    obtain ⟨z, hz⟩ : ∃ z, (a :: l).getLast? = some z :=
      ⟨_, List.getLast?_eq_some_getLast (List.cons_ne_nil a l)⟩
    have hzl : z ∈ a :: l := List.mem_of_getLast? hz
    have hzt : z ≠ s.allocated := Nat.ne_of_lt (h.lt z hzl)
    obtain ⟨thread, hthread⟩ := h.exists_thread hzl
    have hfresh : s.allocated ∉ a :: l := fun hmem => Nat.lt_irrefl _ (h.lt _ hmem)
    have htail := h.tail.trans hz
    rw [schedulerCreate]
    simp only [hhead, List.head?_cons, Bool.true_eq_false, if_false, htail]
    rw [State.store_of_eq _ ((Function.update_of_ne hzt _ _).trans hthread)]
    simp only [Option.bind_eq_bind, Option.bind_some]
    rw [State.store_of_eq _
      ((Function.update_of_ne hzt.symm _ _).trans (Function.update_self _ _ _))]
    refine ⟨_, rfl, ?_, ?_, ?_⟩
    · have hring := h.ring.snoc hz hfresh
      simp only [linkOf_update, Option.bind_some]
      rw [Function.update_comm hzt, Function.update_idem]
      simpa only [Function.update_comm hzt, Function.update_idem] using hring
    · simp only [statusOf_update, Option.map_some]
      rw [← statusOf_of_eq hthread]
      funext u
      by_cases hu : u = s.allocated
      · subst hu
        simp
      · by_cases huz : u = z
        · subst huz
          simp [Function.update_of_ne hu]
        · simp [Function.update_of_ne hu, Function.update_of_ne huz]
    · simp only [ctxOf_update, Option.map_some]
      rw [← ctxOf_of_eq hthread]
      funext u
      by_cases hu : u = s.allocated
      · subst hu
        simp
      · by_cases huz : u = z
        · subst huz
          simp [Function.update_of_ne hu]
        · simp [Function.update_of_ne hu, Function.update_of_ne huz]

/-! ## Selection -/

/-- The search along a path that comes back to thread `c` finds the first unfinished thread. -/
lemma search_of_path {x : ℕ} {fuel : ℕ} (h : Path (linkOf s.threads) x l c) (hc : c ∉ x :: l)
    (hfuel : l.length + 1 < fuel) :
    search s c fuel (some x) = some ((x :: l).find? s.unfinished) := by
  induction l generalizing x fuel with
  | nil =>
    obtain ⟨fuel, rfl⟩ : ∃ k, fuel = k + 2 := ⟨fuel - 2, by simp at hfuel; omega⟩
    have hx : x ≠ c := fun hxc => hc (hxc ▸ List.mem_cons_self)
    obtain ⟨thread, hthread, hlink⟩ := Option.bind_eq_some_iff.mp h
    rw [search, if_neg (by simpa using hx)]
    simp only [State.deref, Option.bind_some, hthread, List.find?_cons, List.find?_nil,
      State.unfinished, statusOf, Option.map_some, Option.any_some]
    by_cases hst : thread.threadStatus = .terminated
    · simp [hst, hlink, search]
    · simp [hst]
  | cons z l ih =>
    obtain ⟨fuel, rfl⟩ : ∃ k, fuel = k + 1 := ⟨fuel - 1, by omega⟩
    have hx : x ≠ c := fun hxc => hc (hxc ▸ List.mem_cons_self)
    obtain ⟨hxz, hpath⟩ := h
    obtain ⟨thread, hthread, hlink⟩ := Option.bind_eq_some_iff.mp hxz
    have hfuel' : l.length + 1 < fuel := by
      simp only [List.length_cons] at hfuel
      omega
    have hrest := ih hpath (fun hmem => hc (List.mem_cons_of_mem _ hmem)) hfuel'
    rw [search, if_neg (by simpa using hx)]
    rw [List.find?_cons]
    simp only [State.deref, Option.bind_some, hthread, State.unfinished, statusOf, Option.map_some,
      Option.any_some]
    by_cases hst : thread.threadStatus = .terminated
    · simp only [hst, hlink, hrest, ne_eq, not_true_eq_false, if_false, decide_false]
    · simp [hst]

/-- **The candidate** is the first unfinished thread behind the current one in the order of the
ring; there is none if all other threads are terminated. -/
theorem threadCandidate_of_current (h : s.Listed (l ++ c :: r)) (hc : s.currentThread = some c) :
    threadCandidate s = some (match (r ++ l).find? s.unfinished with
      | none => (none, s)
      | some t => (some t, { s with currentThread := some t })) := by
  obtain ⟨thread, hthread⟩ := h.exists_thread (t := c) (by simp)
  have hpath := h.ring.rotate
  have hlen := h.length_le
  have hnot := h.ring.not_mem
  have hsearch : search s c (s.allocated + 1) thread.linkedThread =
      some ((r ++ l).find? s.unfinished) := by
    rw [← linkOf_of_eq hthread]
    rw [List.length_append, List.length_cons] at hlen
    cases hw : r ++ l with
    | nil =>
      rw [hw] at hpath
      rw [show linkOf s.threads c = some c from hpath, search, if_pos rfl, List.find?_nil]
    | cons w ws =>
      rw [hw] at hpath hnot
      have hlen' : ws.length + 1 = r.length + l.length := by
        rw [← List.length_append, hw, List.length_cons]
      rw [hpath.1, search_of_path hpath.2 hnot (by omega)]
  rw [threadCandidate]
  simp only [hc, hthread, hsearch, Option.bind_eq_bind, Option.bind_some]
  cases (r ++ l).find? s.unfinished <;> rfl

/-! ## Destruction -/

/-- Freeing a thread and then those of a list. -/
lemma freed_cons (threads : ℕ → Option Thread) (t : ℕ) (l : List ℕ) :
    (fun u => if u ∈ l then none else Function.update threads t none u) =
      fun u => if u ∈ t :: l then none else threads u := by
  funext u
  by_cases hu : u = t
  · subst hu
    simp
  · simp [hu]

/-- The loop of `destroy` frees a terminated thread at the head that is not the tail, and goes on
behind it. -/
lemma destroyLoop_succ {z fuel : ℕ} (hlink : linkOf s.threads t = some z)
    (hterm : statusOf s.threads t = some .terminated) (hne : s.head ≠ s.tail) :
    destroyLoop (fuel + 1) t s =
      destroyLoop fuel z { s.free t with head := some z, currentThread := none } := by
  obtain ⟨thread, hthread, hstatus⟩ := exists_of_statusOf hterm
  rw [linkOf_of_eq hthread] at hlink
  rw [destroyLoop]
  simp only [hthread, hstatus, if_true, hne, if_false, hlink]

/-- The loop of `destroy` along terminated threads frees all of them.

**Proof sketch.** Induction on the list. The thread at hand is the head. If it is also the tail, it
is the last one; otherwise the head moves to the next thread and the rest of the path is
unchanged, since its threads are distinct from the one that is freed. -/
lemma destroyLoop_of_forall_terminated {y : ℕ} {fuel : ℕ} (hpath : Path (linkOf s.threads) t l y)
    (hnodup : (t :: l).Nodup) (hhead : s.head = some t) (htail : s.tail = (t :: l).getLast?)
    (hterm : ∀ u ∈ t :: l, statusOf s.threads u = some .terminated) (hfuel : l.length < fuel) :
    destroyLoop fuel t s = some { s with
      threads := fun u => if u ∈ t :: l then none else s.threads u, head := none, tail := none,
      currentThread := none } := by
  induction l generalizing t fuel s with
  | nil =>
    obtain ⟨fuel, rfl⟩ : ∃ k, fuel = k + 1 := ⟨fuel - 1, by omega⟩
    obtain ⟨thread, hthread, hst⟩ := exists_of_statusOf (hterm t List.mem_cons_self)
    have htail' : s.tail = some t := htail
    rw [destroyLoop]
    simp only [hthread, hst, if_true, hhead, htail']
    rw [State.store_of_eq _ hthread]
    simp only [State.free, Function.update_idem, Option.some.injEq, State.mk.injEq, and_true]
    simpa using freed_cons s.threads t []
  | cons z l ih =>
    obtain ⟨fuel, rfl⟩ : ∃ k, fuel = k + 1 := ⟨fuel - 1, by omega⟩
    obtain ⟨hnot, hnodup'⟩ := List.nodup_cons.mp hnodup
    obtain ⟨htz, hpath'⟩ := hpath
    have hne : s.head ≠ s.tail := by
      rw [hhead, htail, List.getLast?_cons_cons]
      intro heq
      exact hnot (List.mem_of_getLast? heq.symm)
    have hother {u : ℕ} (hu : u ∈ z :: l) : u ≠ t := fun heq => hnot (heq ▸ hu)
    rw [destroyLoop_succ htz (hterm t List.mem_cons_self) hne, ih]
    · simp only [State.free, freed_cons]
    · simp only [State.free, linkOf_update, Option.bind_none]
      exact hpath'.congr fun u hu => Function.update_of_ne (hother hu) _ _
    · exact hnodup'
    · rfl
    · rw [List.getLast?_cons_cons] at htail
      exact htail
    · intro u hu
      simp only [State.free, statusOf_update, Option.map_none]
      rw [Function.update_of_ne (hother hu)]
      exact hterm u (List.mem_cons_of_mem _ hu)
    · simp only [List.length_cons] at hfuel
      omega

/-- **A ring of terminated threads is freed completely.** -/
theorem destroy_of_forall_terminated (h : s.Listed l) (hne : l ≠ [])
    (hterm : ∀ u ∈ l, statusOf s.threads u = some .terminated) :
    destroy s = some { s with
      threads := fun _ => none, head := none, tail := none, currentThread := none } := by
  cases l with
  | nil => exact absurd rfl hne
  | cons a l =>
    have hlen := h.length_le
    rw [List.length_cons] at hlen
    have hhead : s.head = some a := h.head
    rw [destroy, hhead]
    simp only
    rw [destroyLoop_of_forall_terminated h.ring.2 h.ring.nodup hhead h.tail hterm (by omega)]
    simp only [Option.some.injEq, State.mk.injEq, and_true]
    funext u
    split
    · rfl
    · next hu =>
      have hnone := mt (h.mem_iff u).mpr hu
      simpa [statusOf] using hnone

/-- `destroy` neither starts nor finishes a thread, nor allocates one. -/
lemma destroy_frame (h : destroy s = some s') :
    s'.allocated = s.allocated ∧ s'.started = s.started ∧ s'.finished = s.finished := by
  have hloop (fuel t : ℕ) (s s' : State) (h : destroyLoop fuel t s = some s') :
      s'.allocated = s.allocated ∧ s'.started = s.started ∧ s'.finished = s.finished := by
    induction fuel generalizing t s with
    | zero => simp [destroyLoop] at h
    | succ fuel ih =>
      rw [destroyLoop] at h
      split at h
      · simp at h
      · next thread hthread =>
        split at h
        · split at h
          · split at h
            · simp at h
            · next s₁ hs₁ =>
              obtain rfl := Option.some.inj h
              simp only [State.store] at hs₁
              split at hs₁
              · simp at hs₁
              · split at hs₁
                · simp at hs₁
                · obtain rfl := Option.some.inj hs₁
                  exact ⟨rfl, rfl, rfl⟩
          · split at h
            · obtain rfl := Option.some.inj h
              exact ⟨rfl, rfl, rfl⟩
            · exact ih _ { s.free t with head := _, currentThread := none } h
        · obtain rfl := Option.some.inj h
          exact ⟨rfl, rfl, rfl⟩
  rw [destroy] at h
  split at h
  · simp at h
  · exact hloop _ _ _ _ h

end Cs238p.P2
