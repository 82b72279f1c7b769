import Cs238p.P4.LogfsRun

set_option relaxedAutoImplicit false
set_option autoImplicit false

/-!
# Deadlocks of the log

`logfs_append` waits on `space_avail` when the write buffer is full, but nothing signals that
condition. A call that appends more bytes than the write buffer has room for therefore never
returns; without such calls, one of the two threads can always take a step.

## Main definitions

* `Stuck` — the client is inside a call, and neither thread can take a step.
* `AppendFits` — when `logfs_append` locks the mutex, the write buffer has room for its bytes.

## Main results

* `no_deadlock` — no deadlock as long as all appended buffers fit.
* `append_stuck` — a deadlock.
-/

namespace Cs238p.P4.Logfs

open Transition

/-- The client is inside a call. -/
def ClientPc.InCall : ClientPc → Prop
  | .idle _ | .closed => False
  | _ => True

/-- The client is inside a call, and neither thread can take a step. -/
def Stuck (s : State) : Prop :=
  s.client.InCall ∧ (∀ outcome, clientStep s outcome = none) ∧ ∀ ok, workerStep s ok = none

/-- When `logfs_append` locks the mutex, the write buffer has room for its bytes. -/
def AppendFits (s : State) (a : Action) : Prop :=
  match s.client, a with
  | .appendLock buf, .client _ =>
    s.mutex = none → s.logfs.writeBufferFilled + buf.length ≤ s.logfs.writeBufferSize
  | _, _ => True

instance (s : State) (a : Action) : Decidable (AppendFits s a) :=
  decidable_of_iff ((match s.client, a with
    | .appendLock buf, .client _ => decide (s.mutex = none →
      s.logfs.writeBufferFilled + buf.length ≤ s.logfs.writeBufferSize)
    | _, _ => true) = true) (by unfold AppendFits; split <;> simp only [decide_eq_true_iff])

/-- The bytes that the client has still to append fit into the write buffer, and it does not wait
for space. -/
def Fits (s : State) : Prop :=
  match s.client with
  | .append rest => s.logfs.writeBufferFilled + rest.length ≤ s.logfs.writeBufferSize
  | .appendWait _ | .appendWoken _ => False
  | _ => True

variable {B : ℕ} {s s' : State} {bytes : List UInt8}

/-- Only an appending client is concerned. -/
lemma Fits.congr (h : Fits s) (hclient : s'.client = s.client)
    (hlogfs : ∀ rest, s.client = .append rest → s'.logfs = s.logfs) : Fits s' := by
  unfold Fits at h ⊢
  rw [hclient]
  split at h
  · next rest hrest =>
    rw [hlogfs rest hrest]
    exact h
  · exact h
  · exact h
  · trivial

/-- A step of the client keeps the bytes fitting. -/
lemma Fits.clientStep (h : Fits s) (hfits : AppendFits s (.client .ok))
    (hs : Logfs.clientStep s .ok = some s') : Fits s' := by
  cases clientStep_eq_some_iff.mp hs with
  | appendLock logfs worker buf => exact hfits rfl
  | appendFull logfs mutex worker b rest hfull =>
    have hroom : logfs.writeBufferFilled + (b :: rest).length ≤ logfs.writeBufferSize := h
    rw [List.length_cons] at hroom
    omega
  | appendByte logfs mutex worker b rest hroom =>
    have hroom : logfs.writeBufferFilled + (b :: rest).length ≤ logfs.writeBufferSize := h
    rw [List.length_cons] at hroom
    rw [Fits, signalItemAvail_client, signalItemAvail_logfs]
    show logfs.writeBufferFilled + 1 + rest.length ≤ logfs.writeBufferSize
    omega
  | appendWoken logfs worker rest => exact absurd h id
  | flushLock logfs worker caller =>
    rw [Fits, signalItemAvail_client]
    trivial
  | flushWoken logfs worker distance caller => cases caller <;> trivial
  | closeSignal logfs mutex worker =>
    rw [Fits, signalItemAvail_client]
    trivial
  | _ => trivial

/-- A step of the worker keeps the bytes fitting: it does not write while the client appends. -/
lemma Fits.workerStep (h : Fits s) (hlocks : Locks s) (hs : Logfs.workerStep s true = some s') :
    Fits s' := by
  have hwritten {logfs : Logfs} {mutex : Option Thread} {client : ClientPc}
      (h : Fits ⟨logfs, mutex, client, .inner⟩) (hlocks : Locks ⟨logfs, mutex, client, .inner⟩) :
      Fits ⟨logfs.writeBlock, mutex, client, .outer⟩ := by
    refine h.congr rfl fun rest hrest => ?_
    have hworker : mutex = some .worker := hlocks.owned (.inr rfl)
    have hclient : mutex = some .client := hlocks.client.mpr ⟨rest, hrest⟩
    rw [hworker] at hclient
    exact absurd hclient (by simp)
  cases workerStep_eq_some_iff.mp hs with
  | write logfs mutex client hfull hdrained => exact hwritten h hlocks
  | drain logfs mutex client hfull hdrained =>
    unfold State.signalFlush
    split
    · trivial
    · exact hwritten h hlocks
  | _ => exact h.congr rfl fun _ _ => rfl

/-- Every step keeps the bytes fitting. -/
lemma Fits.step {a : Action} (h : Fits s) (hlocks : Locks s) (ha : a.Reliable)
    (hfits : AppendFits s a) (hs : Logfs.step s a = some s') : Fits s' := by
  have hcall {client : ClientPc} (hs : s.call client = some s')
      (hcalls : (∃ buf, client = .appendLock buf) ∨ ∃ caller, client = .flushLock caller) :
      Fits s' := by
    obtain ⟨-, rfl⟩ := call_eq_some_iff.mp hs
    rcases hcalls with ⟨buf, rfl⟩ | ⟨caller, rfl⟩ <;> trivial
  cases a with
  | append buf => exact hcall hs (.inl ⟨buf, rfl⟩)
  | read off len => exact hcall hs (.inr ⟨.read off len, rfl⟩)
  | close => exact hcall hs (.inr ⟨.close, rfl⟩)
  | client outcome =>
    obtain rfl : outcome = .ok := ha
    exact h.clientStep hfits hs
  | worker ok =>
    obtain rfl : ok = true := ha
    exact h.workerStep hlocks hs
  | spurious thread => exact absurd ha id

/-! ## Progress -/

/-- A worker that owns the mutex or waits for it can take a step when the mutex is free or its own,
unless it has exited. -/
lemma workerStep_isSome (hlocks : Locks s) (hclient : ∀ rest, s.client ≠ .append rest)
    (hawake : s.worker ≠ .waitItem) (hexited : s.worker ≠ .exited) :
    ∃ s', workerStep s true = some s' := by
  have hmutex : s.mutex ≠ some .client := fun h => by
    obtain ⟨rest, hrest⟩ := hlocks.client.mp h
    exact hclient rest hrest
  have hfree (hw : s.worker = .start ∨ s.worker = .wokenItem) : s.mutex = none := by
    cases hm : s.mutex with
    | none => rfl
    | some t =>
      cases t with
      | client => exact absurd hm hmutex
      | worker =>
        rcases hlocks.worker hm with h | h | h <;> rcases hw with hw | hw <;> simp [hw] at h
  rw [workerStep]
  split
  · next hw => exact ⟨_, if_pos (hfree (.inl hw))⟩
  · split <;> exact ⟨_, rfl⟩
  · split
    · split <;> exact ⟨_, rfl⟩
    · simp only [if_true]
      split <;> exact ⟨_, rfl⟩
  · next hw => exact absurd hw hawake
  · next hw => exact ⟨_, if_pos (hfree (.inr hw))⟩
  · next hw => exact absurd hw hexited

/-- The mutex is free, or the worker owns it and can take a step. -/
lemma free_or_workerStep (hlocks : Locks s) (hclient : ∀ rest, s.client ≠ .append rest)
    (hrun : s.logfs.exitWorkerThread ≠ true) :
    s.mutex = none ∨ ∃ s', workerStep s true = some s' := by
  cases hm : s.mutex with
  | none => exact .inl rfl
  | some t =>
    cases t with
    | client =>
      obtain ⟨rest, hrest⟩ := hlocks.client.mp hm
      exact absurd hrest (hclient rest)
    | worker =>
      have hexited : s.worker ≠ .exited := fun h => hrun (hlocks.exited h)
      refine .inr (workerStep_isSome hlocks hclient ?_ hexited)
      rcases hlocks.worker hm with h | h | h <;> simp [h]

/-- **A thread can take a step** if the bytes that the client appends fit.

**Proof sketch.** A client that needs the mutex gets it, or the worker owns it and can go on. A
client that waits for a flush has left a block in the ring, and the worker is awake. A client that
waits for the end of the worker has told it to exit, and the worker does not sleep any more. -/
lemma Holds.not_stuck (h : Holds B s bytes) (hfits : Fits s) : ¬ Stuck s := by
  rintro ⟨hcall, hclientStuck, hworkerStuck⟩
  obtain ⟨log, f, d, ⟨hlayout, hlocks, hclient⟩, -⟩ := h
  have hstuck {s' : State} : Logfs.workerStep s true ≠ some s' := by
    rw [hworkerStuck true]
    simp
  have hfree (happend : ∀ rest, s.client ≠ .append rest) (hclosing : ¬ s.client.Closing) :
      s.mutex = none := by
    rcases free_or_workerStep hlocks happend (fun h => hclosing (hlocks.exit.mp h)) with h | ⟨s', h⟩
    · exact h
    · exact absurd h hstuck
  have hclientStuck := hclientStuck .ok
  rw [Logfs.clientStep] at hclientStuck
  cases hc : s.client with
  | idle ret =>
    rw [hc] at hcall
    exact hcall
  | appendLock buf =>
    have hmutex := hfree (by simp [hc]) (by simp [hc, ClientPc.Closing])
    simp [hc, hmutex] at hclientStuck
  | append rest =>
    cases rest with
    | nil => simp [hc] at hclientStuck
    | cons b rest =>
      simp only [hc] at hclientStuck
      split at hclientStuck <;> simp at hclientStuck
  | appendWait rest =>
    rw [Fits, hc] at hfits
    exact hfits
  | appendWoken rest =>
    rw [Fits, hc] at hfits
    exact hfits
  | flushLock caller =>
    have hmutex := hfree (by simp [hc]) (by simp [hc, ClientPc.Closing])
    simp [hc, hmutex] at hclientStuck
  | flushWait distance caller =>
    rw [ClientInv, hc] at hclient
    obtain ⟨-, -, -, hawake⟩ := hclient
    have hexited : s.worker ≠ .exited := fun h => by
      have hclosing := hlocks.exit.mp (hlocks.exited h)
      rw [hc] at hclosing
      exact hclosing
    obtain ⟨s', hs'⟩ := workerStep_isSome hlocks (by simp [hc]) hawake hexited
    exact hstuck hs'
  | flushWoken distance caller =>
    have hmutex := hfree (by simp [hc]) (by simp [hc, ClientPc.Closing])
    simp [hc, hmutex] at hclientStuck
  | read r => simp [hc] at hclientStuck
  | closeLock =>
    have hmutex := hfree (by simp [hc]) (by simp [hc, ClientPc.Closing])
    simp [hc, hmutex] at hclientStuck
  | closeSignal => simp [hc] at hclientStuck
  | closeJoin =>
    rw [ClientInv, hc] at hclient
    obtain ⟨-, -, hawake⟩ := hclient
    by_cases hexited : s.worker = .exited
    · simp [hc, hexited] at hclientStuck
    · obtain ⟨s', hs'⟩ := workerStep_isSome hlocks (by simp [hc]) hawake hexited
      exact hstuck hs'
  | closed =>
    rw [hc] at hcall
    exact hcall

/-- **No deadlock without large appends**: in every run with successful device accesses and without
spurious wake-ups in which each buffer fits into the write buffer when `logfs_append` locks the
mutex, no state is stuck. -/
theorem no_deadlock (B : ℕ) (hB : 0 < B) (device : ℤ → UInt8) (as : List Action) (s : State)
    (hreliable : ∀ a ∈ as, a.Reliable)
    (hfits : Always Logfs.step AppendFits (State.start B device) as)
    (hrun : run Logfs.step (State.start B device) as = some s) : ¬ Stuck s := by
  have hstart : (∃ bytes, Holds B (State.start B device) bytes) ∧ Fits (State.start B device) :=
    ⟨⟨[], holds_start hB device⟩, trivial⟩
  have hinv := invariant_run_of_always (I := fun s => (∃ bytes, Holds B s bytes) ∧ Fits s)
    (C := fun s a => AppendFits s a ∧ a.Reliable) ?_ hstart
    (hfits.and (always_of_forall_mem _ hreliable)) hrun
  · obtain ⟨⟨bytes, hholds⟩, hfits⟩ := hinv
    exact hholds.not_stuck hfits
  · rintro s a s' ⟨⟨bytes, hholds⟩, hfits⟩ ⟨happend, ha⟩ hs
    obtain ⟨log, f, d, hinv, -⟩ := id hholds
    exact ⟨⟨_, hholds.step ha hs⟩, hfits.step hinv.locks ha happend hs⟩

/-- Two buffers that fill half of the write buffer each. -/
theorem no_deadlock_halves :
    let as : List Action := [.append (List.replicate 16 1), .client .ok] ++
      List.replicate 17 (.client .ok) ++ [.append (List.replicate 16 2), .client .ok]
    ∃ s, run Logfs.step (State.start 1 fun _ => 0) as = some s ∧ ¬ Stuck s := by
  intro as
  have hreliable : ∀ a ∈ as, a.Reliable := by decide
  have hfits : Always Logfs.step AppendFits (State.start 1 fun _ => 0) as := by decide +kernel
  have hruns : (run Logfs.step (State.start 1 fun _ => 0) as).isSome = true := by decide +kernel
  obtain ⟨s, hrun⟩ := Option.isSome_iff_exists.mp hruns
  exact ⟨s, hrun, no_deadlock 1 (by decide) _ as s hreliable hfits hrun⟩

/-- **A deadlock**: with blocks of one byte, a buffer of 33 bytes fills the write buffer; the worker
empties it and sleeps, and the client waits for space for ever. -/
theorem append_stuck :
    let as : List Action := .append (List.replicate 33 7) :: List.replicate 34 (.client .ok) ++
      List.replicate 67 (.worker true)
    ∃ s, run Logfs.step (State.start 1 fun _ => 0) as = some s ∧ (∀ a ∈ as, a.Reliable) ∧
      Stuck s ∧ s.client = .appendWait [7] ∧ s.worker = .waitItem ∧
      s.logfs.writeBufferFilled = 0 := by
  intro as
  have hend : (run Logfs.step (State.start 1 fun _ => 0) as).map
      (fun s => (s.client, s.worker, s.logfs.writeBufferFilled)) =
      some (.appendWait [7], .waitItem, 0) := by decide +kernel
  obtain ⟨s, hrun, hs⟩ := Option.map_eq_some_iff.mp hend
  simp only [Prod.mk.injEq] at hs
  obtain ⟨hclient, hworker, hfilled⟩ := hs
  refine ⟨s, hrun, by decide, ⟨?_, fun outcome => ?_, fun ok => ?_⟩, hclient, hworker, hfilled⟩
  · rw [hclient]
    trivial
  · rw [Logfs.clientStep, hclient]
  · rw [Logfs.workerStep, hworker]

end Cs238p.P4.Logfs
