import Mathlib.Data.Nat.Notation
import Mathlib.Logic.Function.Basic

set_option relaxedAutoImplicit false
set_option autoImplicit false

/-!
# The user-level thread scheduler of `p2/scheduler.c`

The functions of the scheduler over a heap of `struct Thread`s. `setjmp` and `longjmp` connect
them: a thread that yields or returns continues `scheduler_execute` behind its `setjmp`, and
`schedule` continues a thread behind its last `scheduler_yield`.

## Main definitions

* `Thread`, `State` — `struct Thread` and the scheduler's `state`, with a record of the threads
  whose functions were started and have returned.
* `schedulerCreate`, `threadCandidate`, `schedule`, `destroy`, `schedulerExecute`,
  `schedulerYield`, `threadReturn` — as in the source.
* `Event`, `step` — what the program around the scheduler and the threads can do.

## Implementation notes

Addresses are numbers, handed out in increasing order; `none` is the null pointer. A function of
the model is `none` where the code follows a null or freed pointer or jumps through a context that
was never saved. What a thread's function does between two calls of the scheduler is not part of
the state, so its code, argument and stack memory are left out. So is the stack pointer: `schedule`
sets it to the low end of the stack, below which the frames of the function lie, and the model
assumes that they overwrite nothing in use. The loops run on fuel that exceeds the number of
threads.
-/

namespace Cs238p.P2

/-- The values of `thread_status`. -/
inductive ThreadStatus
  | status_
  | running
  | sleeping
  | terminated
  deriving DecidableEq, Repr

/-- `struct Thread`: whether its `ctx` has been saved, its status and the next thread in line. -/
structure Thread where
  ctx : Bool
  threadStatus : ThreadStatus
  linkedThread : Option ℕ
  deriving DecidableEq, Repr

/-- Where control is: outside of `scheduler_execute`, inside of it, in a thread's function, or lost
to an invalid memory access. -/
inductive Control
  | idle
  | scheduler
  | running
  | crashed
  deriving DecidableEq, Repr

/-- The scheduler: the allocated threads, the number of allocations so far, the fields of `state`,
whether the alarm is armed, where control is, and the threads whose functions were started and have
returned, in order. -/
structure State where
  threads : ℕ → Option Thread
  allocated : ℕ
  head : Option ℕ
  currentThread : Option ℕ
  tail : Option ℕ
  alarm : Bool
  control : Control
  started : List ℕ
  finished : List ℕ

namespace State

/-- The state before the first call. -/
def init : State := ⟨fun _ => none, 0, none, none, none, false, .idle, [], []⟩

/-- Read through a pointer. -/
def deref (s : State) (p : Option ℕ) : Option Thread := p.bind s.threads

/-- Write through a pointer. -/
def store (s : State) (p : Option ℕ) (f : Thread → Thread) : Option State :=
  match p with
  | none => none
  | some t =>
    match s.threads t with
    | none => none
    | some thread => some { s with threads := Function.update s.threads t (some (f thread)) }

/-- `FREE`. -/
def free (s : State) (t : ℕ) : State := { s with threads := Function.update s.threads t none }

end State

/-- `scheduler_create`, given which of its two allocations succeed. After a failed one the source
goes on and writes through the null pointer. -/
def schedulerCreate (threadOk stackOk : Bool) (s : State) : Option State :=
  if threadOk = false then none
  else if stackOk = false then none
  else
    let t := s.allocated
    let s := { s with
      threads := Function.update s.threads t (some ⟨false, .status_, none⟩)
      allocated := t + 1 }
    match s.head with
    | none =>
      let s := { s with head := some t, tail := some t }
      s.store s.tail fun thread => { thread with linkedThread := s.head }
    | some _ => do
      let s ← s.store s.tail fun thread => { thread with linkedThread := some t }
      let s := { s with tail := some t }
      s.store s.tail fun thread => { thread with linkedThread := s.head }

/-- The loop of `thread_candidate`: the first thread from `next` on that is not terminated, null if
the search comes back to thread `c`. -/
def search (s : State) (c : ℕ) : ℕ → Option ℕ → Option (Option ℕ)
  | 0, _ => none
  | fuel + 1, next =>
    if next = some c then some none
    else
      match s.deref next with
      | none => none
      | some thread =>
        if thread.threadStatus ≠ .terminated then some next
        else search s c fuel thread.linkedThread

/-- `thread_candidate`. Both branches for a null `current_thread` select the head. -/
def threadCandidate (s : State) : Option (Option ℕ × State) :=
  match s.currentThread with
  | none => some (s.head, { s with currentThread := s.head })
  | some c => do
    let thread ← s.threads c
    let found ← search s c (s.allocated + 1) thread.linkedThread
    match found with
    | none => some (none, s)
    | some t => some (some t, { s with currentThread := some t })

/-- `schedule`: it returns with control in the scheduler if there is no candidate; otherwise control
goes to the candidate. -/
def schedule (s : State) : Option State := do
  let (candidate, s) ← threadCandidate s
  match candidate with
  | none => some s
  | some t =>
    let thread ← s.threads t
    if thread.threadStatus = .status_ then
      let s ← s.store (some t) fun thread => { thread with threadStatus := .running }
      some { s with control := .running, started := s.started ++ [t] }
    else
      let current ← s.deref s.currentThread
      if current.ctx then some { s with control := .running } else none

/-- The loop of `destroy` at the thread `t`. -/
def destroyLoop : ℕ → ℕ → State → Option State
  | 0, _, _ => none
  | fuel + 1, t, s =>
    match s.threads t with
    | none => none
    | some thread =>
      if thread.threadStatus = .terminated then
        if s.head = s.tail then
          match s.store s.tail fun thread => { thread with linkedThread := none } with
          | none => none
          | some s => some { s.free t with tail := none, head := none, currentThread := none }
        else
          let s := { s.free t with head := thread.linkedThread, currentThread := none }
          match thread.linkedThread with
          | none => some s
          | some next => destroyLoop fuel next s
      else some s

/-- `destroy`. -/
def destroy (s : State) : Option State :=
  match s.head with
  | none => none
  | some t => destroyLoop (s.allocated + 1) t s

/-- `scheduler_execute` from the return of `setjmp` on: the alarm is armed, a thread is scheduled,
and if `schedule` returns, the threads are destroyed and the call returns. -/
def schedulerExecute (s : State) : Option State := do
  let s ← schedule { s with alarm := true, control := .scheduler }
  if s.control = .running then some s
  else
    let s ← destroy s
    some { s with control := .idle }

/-- `scheduler_yield` in a thread: it saves the context of the current thread and jumps to the
scheduler. -/
def schedulerYield (s : State) : Option State := do
  let s ← { s with alarm := false }.store s.currentThread fun thread => { thread with ctx := true }
  schedulerExecute s

/-- The function of the current thread returns to `schedule`, which marks the thread and jumps to
the scheduler. -/
def threadReturn (s : State) : Option State := do
  let t ← s.currentThread
  let s ← s.store (some t) fun thread => { thread with threadStatus := .terminated }
  schedulerExecute { s with finished := s.finished ++ [t] }

/-- What can happen: a call of `scheduler_create` with the outcomes of its allocations, a call of
`scheduler_execute`, and, in a thread, a yield (voluntary or by the alarm) or the return of its
function. -/
inductive Event
  | create (threadOk stackOk : Bool)
  | execute
  | yield
  | return_
  deriving DecidableEq, Repr

/-- The state after a call, with control lost if it follows an invalid pointer. -/
def State.orCrash (s : State) (result : Option State) : State :=
  result.getD { s with control := .crashed }

/-- The state after an event, where control admits it: threads are created from outside of the
scheduler or by a running thread, and `scheduler_execute` is not re-entered. -/
def step (s : State) : Event → Option State
  | .create threadOk stackOk =>
    if s.control = .idle ∨ s.control = .running then
      some (s.orCrash (schedulerCreate threadOk stackOk s))
    else none
  | .execute => if s.control = .idle then some (s.orCrash (schedulerExecute s)) else none
  | .yield => if s.control = .running then some (s.orCrash (schedulerYield s)) else none
  | .return_ => if s.control = .running then some (s.orCrash (threadReturn s)) else none

end Cs238p.P2
