import Cs238p.P4.Logfs

set_option relaxedAutoImplicit false
set_option autoImplicit false

/-!
# What a step of the log can do

The steps of the client and of the worker as relations with one rule for each branch of the code.
The invariants of the log are preserved rule by rule.

## Main definitions

* `ClientMove`, `WorkerMove`, `SpuriousMove` — the steps.

## Main results

* `clientStep_eq_some_iff`, `workerStep_eq_some_iff`, `spuriousStep_eq_some_iff`,
  `call_eq_some_iff` — the steps of the model are those of the rules.
* `WorkerMove.workLeft_lt` — the worker cannot go on forever without a wait.
-/

namespace Cs238p.P4.Logfs

/-! ## Signals -/

section Signals

variable (s : State)

@[simp] lemma signalItemAvail_logfs : s.signalItemAvail.logfs = s.logfs := by
  unfold State.signalItemAvail
  split <;> rfl

@[simp] lemma signalItemAvail_mutex : s.signalItemAvail.mutex = s.mutex := by
  unfold State.signalItemAvail
  split <;> rfl

@[simp] lemma signalItemAvail_client : s.signalItemAvail.client = s.client := by
  unfold State.signalItemAvail
  split <;> rfl

/-- A signal of `item_avail` only moves a worker that waits on it. -/
lemma signalItemAvail_worker_eq {w : WorkerPc} (hwait : w ≠ .waitItem) (hwoken : w ≠ .wokenItem) :
    s.signalItemAvail.worker = w ↔ s.worker = w := by
  unfold State.signalItemAvail
  split
  · next h => simp [h, Ne.symm hwait, Ne.symm hwoken]
  · rfl

@[simp] lemma signalFlush_logfs : s.signalFlush.logfs = s.logfs := by
  unfold State.signalFlush
  split <;> rfl

@[simp] lemma signalFlush_mutex : s.signalFlush.mutex = s.mutex := by
  unfold State.signalFlush
  split <;> rfl

@[simp] lemma signalFlush_worker : s.signalFlush.worker = s.worker := by
  unfold State.signalFlush
  split <;> rfl

/-- After a signal nobody waits on `item_avail`. -/
lemma signalItemAvail_worker_ne : s.signalItemAvail.worker ≠ .waitItem := by
  unfold State.signalItemAvail
  split
  · simp
  · assumption

end Signals

/-! ## The client -/

/-- The steps of the client inside a call. -/
inductive ClientMove : ReadOutcome → State → State → Prop
  | appendLock {outcome : ReadOutcome} (logfs : Logfs) (worker : WorkerPc) (buf : List UInt8) :
    ClientMove outcome ⟨logfs, none, .appendLock buf, worker⟩
      ⟨logfs, some .client, .append buf, worker⟩
  | appendDone {outcome : ReadOutcome} (logfs : Logfs) (mutex : Option Thread)
      (worker : WorkerPc) :
    ClientMove outcome ⟨logfs, mutex, .append [], worker⟩ ⟨logfs, none, .idle .append, worker⟩
  | appendFull {outcome : ReadOutcome} (logfs : Logfs) (mutex : Option Thread) (worker : WorkerPc)
      (b : UInt8) (rest : List UInt8)
      (hfull : (logfs.writeBufferSize : ℤ) ≤ logfs.writeBufferFilled) :
    ClientMove outcome ⟨logfs, mutex, .append (b :: rest), worker⟩
      ⟨logfs, none, .appendWait (b :: rest), worker⟩
  | appendByte {outcome : ReadOutcome} (logfs : Logfs) (mutex : Option Thread) (worker : WorkerPc)
      (b : UInt8) (rest : List UInt8)
      (hroom : ¬ (logfs.writeBufferSize : ℤ) ≤ logfs.writeBufferFilled) :
    ClientMove outcome ⟨logfs, mutex, .append (b :: rest), worker⟩
      (State.signalItemAvail ⟨logfs.appendByte b, mutex, .append rest, worker⟩)
  | appendWoken {outcome : ReadOutcome} (logfs : Logfs) (worker : WorkerPc) (rest : List UInt8) :
    ClientMove outcome ⟨logfs, none, .appendWoken rest, worker⟩
      ⟨logfs, some .client, .append rest, worker⟩
  | flushLock {outcome : ReadOutcome} (logfs : Logfs) (worker : WorkerPc) (caller : Caller) :
    ClientMove outcome ⟨logfs, none, .flushLock caller, worker⟩
      (State.signalItemAvail
        ⟨logfs.pad, none, .flushWait logfs.distanceToMoveHead caller, worker⟩)
  | flushWoken {outcome : ReadOutcome} (logfs : Logfs) (worker : WorkerPc) (distance : ℤ)
      (caller : Caller) :
    ClientMove outcome ⟨logfs, none, .flushWoken distance caller, worker⟩
      ⟨logfs.unpad distance, none, caller.resume logfs.blockSize, worker⟩
  | readDone {outcome : ReadOutcome} (logfs : Logfs) (mutex : Option Thread) (worker : WorkerPc)
      (r : Reading) (hdone : ¬ r.readTillNow < r.len) :
    ClientMove outcome ⟨logfs, mutex, .read r, worker⟩
      ⟨logfs, mutex, .idle (.read r.off r.len 0 r.buf), worker⟩
  | readCached {outcome : ReadOutcome} (logfs : Logfs) (mutex : Option Thread) (worker : WorkerPc)
      (r : Reading) (hlt : r.readTillNow < r.len) (hcached : logfs.Cached r.blockId) :
    ClientMove outcome ⟨logfs, mutex, .read r, worker⟩
      ⟨logfs, mutex, .read (r.next logfs.blockSize
        (logfs.readCache (r.blockId.tmod rcacheBlocks)).block), worker⟩
  | readBlock (logfs : Logfs) (mutex : Option Thread) (worker : WorkerPc) (r : Reading)
      (hlt : r.readTillNow < r.len) (huncached : ¬ logfs.Cached r.blockId) :
    ClientMove .ok ⟨logfs, mutex, .read r, worker⟩
      ⟨logfs.readBlock r.blockId, mutex, .read (r.next (logfs.readBlock r.blockId).blockSize
        ((logfs.readBlock r.blockId).readCache (r.blockId.tmod rcacheBlocks)).block), worker⟩
  | readFailed (logfs : Logfs) (mutex : Option Thread) (worker : WorkerPc) (r : Reading)
      (bytes : List UInt8) (hlt : r.readTillNow < r.len) (huncached : ¬ logfs.Cached r.blockId) :
    ClientMove (.fail bytes) ⟨logfs, mutex, .read r, worker⟩
      ⟨logfs.readFailed r.blockId bytes, mutex, .idle (.read r.off r.len (-1) r.buf), worker⟩
  | closeLock {outcome : ReadOutcome} (logfs : Logfs) (worker : WorkerPc) :
    ClientMove outcome ⟨logfs, none, .closeLock, worker⟩
      ⟨{ logfs with exitWorkerThread := true }, none, .closeSignal, worker⟩
  | closeSignal {outcome : ReadOutcome} (logfs : Logfs) (mutex : Option Thread)
      (worker : WorkerPc) :
    ClientMove outcome ⟨logfs, mutex, .closeSignal, worker⟩
      (State.signalItemAvail ⟨logfs, mutex, .closeJoin, worker⟩)
  | closeJoin {outcome : ReadOutcome} (logfs : Logfs) (mutex : Option Thread) :
    ClientMove outcome ⟨logfs, mutex, .closeJoin, .exited⟩ ⟨logfs, mutex, .closed, .exited⟩

variable {s s' : State}

/-- The rounds of the loop of `logfs_read`. -/
lemma clientMove_readStep (logfs : Logfs) (mutex : Option Thread) (worker : WorkerPc) (r : Reading)
    (outcome : ReadOutcome) :
    ClientMove outcome ⟨logfs, mutex, .read r, worker⟩
      (readStep ⟨logfs, mutex, .read r, worker⟩ r outcome) := by
  unfold readStep
  split
  · next hlt =>
    split
    · next hcached => exact .readCached logfs mutex worker r hlt hcached
    · next huncached =>
      cases outcome with
      | ok => exact .readBlock logfs mutex worker r hlt huncached
      | fail bytes => exact .readFailed logfs mutex worker r bytes hlt huncached
  · next hdone => exact .readDone logfs mutex worker r hdone

/-- **The steps of the client** are those of the rules. -/
theorem clientStep_eq_some_iff {outcome : ReadOutcome} :
    clientStep s outcome = some s' ↔ ClientMove outcome s s' := by
  constructor
  · intro hs
    obtain ⟨logfs, mutex, client, worker⟩ := s
    cases client with
    | idle ret => simp [clientStep] at hs
    | appendLock buf =>
      simp only [clientStep, Option.ite_none_right_eq_some, Option.some.injEq] at hs
      obtain ⟨rfl, rfl⟩ := hs
      exact .appendLock logfs worker buf
    | append rest =>
      cases rest with
      | nil =>
        obtain rfl := Option.some.inj hs
        exact .appendDone logfs mutex worker
      | cons b rest =>
        simp only [clientStep] at hs
        split at hs <;> obtain rfl := Option.some.inj hs
        · next hfull => exact .appendFull logfs mutex worker b rest hfull
        · next hroom => exact .appendByte logfs mutex worker b rest hroom
    | appendWait rest => simp [clientStep] at hs
    | appendWoken rest =>
      simp only [clientStep, Option.ite_none_right_eq_some, Option.some.injEq] at hs
      obtain ⟨rfl, rfl⟩ := hs
      exact .appendWoken logfs worker rest
    | flushLock caller =>
      simp only [clientStep, Option.ite_none_right_eq_some, Option.some.injEq] at hs
      obtain ⟨rfl, rfl⟩ := hs
      exact .flushLock logfs worker caller
    | flushWait distance caller => simp [clientStep] at hs
    | flushWoken distance caller =>
      simp only [clientStep, Option.ite_none_right_eq_some, Option.some.injEq] at hs
      obtain ⟨rfl, rfl⟩ := hs
      exact .flushWoken logfs worker distance caller
    | read r =>
      obtain rfl := Option.some.inj hs
      exact clientMove_readStep logfs mutex worker r outcome
    | closeLock =>
      simp only [clientStep, Option.ite_none_right_eq_some, Option.some.injEq] at hs
      obtain ⟨rfl, rfl⟩ := hs
      exact .closeLock logfs worker
    | closeSignal =>
      obtain rfl := Option.some.inj hs
      exact .closeSignal logfs mutex worker
    | closeJoin =>
      simp only [clientStep, Option.ite_none_right_eq_some, Option.some.injEq] at hs
      obtain ⟨rfl, rfl⟩ := hs
      exact .closeJoin logfs mutex
    | closed => simp [clientStep] at hs
  · intro hmove
    cases hmove with
    | appendFull logfs mutex worker b rest hfull => exact if_pos hfull
    | appendByte logfs mutex worker b rest hroom => exact if_neg hroom
    | readDone logfs mutex worker r hdone => simp [clientStep, readStep, hdone]
    | readCached logfs mutex worker r hlt hcached => simp [clientStep, readStep, hlt, hcached]
    | readBlock logfs mutex worker r hlt huncached => simp [clientStep, readStep, hlt, huncached]
    | readFailed logfs mutex worker r bytes hlt huncached =>
      simp [clientStep, readStep, hlt, huncached]
    | _ => rfl

/-! ## The worker -/

/-- The steps of the worker, with the outcome of `device_write`. -/
inductive WorkerMove : Bool → State → State → Prop
  | lock {ok : Bool} (logfs : Logfs) (client : ClientPc) :
    WorkerMove ok ⟨logfs, none, client, .start⟩ ⟨logfs, some .worker, client, .outer⟩
  | leave {ok : Bool} (logfs : Logfs) (mutex : Option Thread) (client : ClientPc)
      (hexit : logfs.exitWorkerThread = true) :
    WorkerMove ok ⟨logfs, mutex, client, .outer⟩ ⟨logfs, mutex, client, .exited⟩
  | enter {ok : Bool} (logfs : Logfs) (mutex : Option Thread) (client : ClientPc)
      (hrun : ¬ logfs.exitWorkerThread = true) :
    WorkerMove ok ⟨logfs, mutex, client, .outer⟩ ⟨logfs, mutex, client, .inner⟩
  | exit {ok : Bool} (logfs : Logfs) (mutex : Option Thread) (client : ClientPc)
      (hless : logfs.writeBufferFilled < logfs.blockSize)
      (hexit : logfs.exitWorkerThread = true) :
    WorkerMove ok ⟨logfs, mutex, client, .inner⟩ ⟨logfs, none, client, .exited⟩
  | sleep {ok : Bool} (logfs : Logfs) (mutex : Option Thread) (client : ClientPc)
      (hless : logfs.writeBufferFilled < logfs.blockSize)
      (hrun : ¬ logfs.exitWorkerThread = true) :
    WorkerMove ok ⟨logfs, mutex, client, .inner⟩ ⟨logfs, none, client, .waitItem⟩
  | write (logfs : Logfs) (mutex : Option Thread) (client : ClientPc)
      (hfull : ¬ logfs.writeBufferFilled < logfs.blockSize)
      (hdrained : ¬ logfs.writeBlock.Drained) :
    WorkerMove true ⟨logfs, mutex, client, .inner⟩ ⟨logfs.writeBlock, mutex, client, .outer⟩
  | drain (logfs : Logfs) (mutex : Option Thread) (client : ClientPc)
      (hfull : ¬ logfs.writeBufferFilled < logfs.blockSize)
      (hdrained : logfs.writeBlock.Drained) :
    WorkerMove true ⟨logfs, mutex, client, .inner⟩
      (State.signalFlush ⟨logfs.writeBlock, mutex, client, .outer⟩)
  | fail (logfs : Logfs) (mutex : Option Thread) (client : ClientPc)
      (hfull : ¬ logfs.writeBufferFilled < logfs.blockSize) :
    WorkerMove false ⟨logfs, mutex, client, .inner⟩ ⟨logfs.invalidate, mutex, client, .exited⟩
  | wake {ok : Bool} (logfs : Logfs) (client : ClientPc) :
    WorkerMove ok ⟨logfs, none, client, .wokenItem⟩ ⟨logfs, some .worker, client, .inner⟩

/-- **The steps of the worker** are those of the rules. -/
theorem workerStep_eq_some_iff {ok : Bool} :
    workerStep s ok = some s' ↔ WorkerMove ok s s' := by
  constructor
  · intro hs
    obtain ⟨logfs, mutex, client, worker⟩ := s
    cases worker with
    | start =>
      simp only [workerStep, Option.ite_none_right_eq_some, Option.some.injEq] at hs
      obtain ⟨rfl, rfl⟩ := hs
      exact .lock logfs client
    | outer =>
      simp only [workerStep] at hs
      split at hs <;> obtain rfl := Option.some.inj hs
      · next hexit => exact .leave logfs mutex client hexit
      · next hrun => exact .enter logfs mutex client hrun
    | inner =>
      simp only [workerStep] at hs
      split at hs
      · next hless =>
        split at hs <;> obtain rfl := Option.some.inj hs
        · next hexit => exact .exit logfs mutex client hless hexit
        · next hrun => exact .sleep logfs mutex client hless hrun
      · next hfull =>
        cases ok with
        | false =>
          obtain rfl := Option.some.inj hs
          exact .fail logfs mutex client hfull
        | true =>
          simp only [if_true] at hs
          split at hs <;> obtain rfl := Option.some.inj hs
          · next hdrained => exact .drain logfs mutex client hfull hdrained
          · next hdrained => exact .write logfs mutex client hfull hdrained
    | waitItem => simp [workerStep] at hs
    | wokenItem =>
      simp only [workerStep, Option.ite_none_right_eq_some, Option.some.injEq] at hs
      obtain ⟨rfl, rfl⟩ := hs
      exact .wake logfs client
    | exited => simp [workerStep] at hs
  · intro hmove
    cases hmove with
    | leave logfs mutex client hexit => exact if_pos hexit
    | enter logfs mutex client hrun => exact if_neg hrun
    | exit logfs mutex client hless hexit => simp [workerStep, hless, hexit]
    | sleep logfs mutex client hless hrun => simp [workerStep, hless, hrun]
    | write logfs mutex client hfull hdrained => simp [workerStep, hfull, hdrained]
    | drain logfs mutex client hfull hdrained => simp [workerStep, hfull, hdrained]
    | fail logfs mutex client hfull => simp [workerStep, hfull]
    | _ => rfl

/-! ## What the worker has to do -/

/-- How far the worker is from its next wait, within a round of its loops. -/
def WorkerPc.rank : WorkerPc → ℕ
  | .start => 3
  | .outer | .wokenItem => 2
  | .inner => 1
  | .waitItem | .exited => 0

/-- A measure of what the worker has to do before it waits. -/
def State.workLeft (s : State) : ℕ := 3 * s.logfs.writeBufferFilled.toNat + s.worker.rank

/-- **Every step of the worker** leaves less to do. -/
theorem WorkerMove.workLeft_lt {ok : Bool} (h : WorkerMove ok s s')
    (hpos : 0 < s.logfs.blockSize) : s'.workLeft < s.workLeft := by
  cases h with
  | write logfs mutex client hfull hdrained =>
    simp only at hpos
    simp only [State.workLeft, WorkerPc.rank, writeBufferFilled_writeBlock]
    omega
  | drain logfs mutex client hfull hdrained =>
    simp only at hpos
    simp only [State.workLeft, WorkerPc.rank, signalFlush_logfs, signalFlush_worker,
      writeBufferFilled_writeBlock]
    omega
  | fail logfs mutex client hfull =>
    simp only [State.workLeft, WorkerPc.rank, writeBufferFilled_invalidate]
    omega
  | _ => exact Nat.add_lt_add_left (by simp only [WorkerPc.rank]; omega) _

/-- A worker that neither waits nor has exited can go on, if it owns the mutex or nobody does. -/
lemma exists_workerMove (hwait : s.worker ≠ .waitItem) (hexited : s.worker ≠ .exited)
    (hmutex : s.mutex ≠ none → s.worker = .outer ∨ s.worker = .inner) :
    ∃ s', WorkerMove true s s' := by
  obtain ⟨logfs, mutex, client, worker⟩ := s
  cases worker with
  | start =>
    obtain rfl : mutex = none := by simpa using mt hmutex
    exact ⟨_, .lock logfs client⟩
  | outer =>
    by_cases hexit : logfs.exitWorkerThread = true
    · exact ⟨_, .leave logfs mutex client hexit⟩
    · exact ⟨_, .enter logfs mutex client hexit⟩
  | inner =>
    by_cases hless : logfs.writeBufferFilled < logfs.blockSize
    · by_cases hexit : logfs.exitWorkerThread = true
      · exact ⟨_, .exit logfs mutex client hless hexit⟩
      · exact ⟨_, .sleep logfs mutex client hless hexit⟩
    · by_cases hdrained : logfs.writeBlock.Drained
      · exact ⟨_, .drain logfs mutex client hless hdrained⟩
      · exact ⟨_, .write logfs mutex client hless hdrained⟩
  | waitItem => exact absurd rfl hwait
  | wokenItem =>
    obtain rfl : mutex = none := by simpa using mt hmutex
    exact ⟨_, .wake logfs client⟩
  | exited => exact absurd rfl hexited

/-- The worker does not touch the flag. -/
lemma WorkerMove.exitWorkerThread_eq {ok : Bool} (h : WorkerMove ok s s') :
    s'.logfs.exitWorkerThread = s.logfs.exitWorkerThread := by
  cases h with
  | write logfs => exact exitWorkerThread_writeBlock logfs
  | drain logfs =>
    rw [signalFlush_logfs]
    exact exitWorkerThread_writeBlock logfs
  | fail logfs => exact exitWorkerThread_invalidate logfs
  | _ => rfl

/-- The worker locks the mutex for itself only. -/
lemma WorkerMove.mutex_ne_client {ok : Bool} (h : WorkerMove ok s s')
    (hmutex : s.mutex ≠ some .client) : s'.mutex ≠ some .client := by
  cases h with
  | drain logfs mutex client =>
    rw [signalFlush_mutex]
    exact hmutex
  | lock | exit | sleep | wake => simp
  | leave | enter | write | fail => exact hmutex

/-! ## Spurious wake-ups and calls -/

/-- The spurious wake-ups. -/
inductive SpuriousMove : Thread → State → State → Prop
  | append (logfs : Logfs) (mutex : Option Thread) (worker : WorkerPc) (rest : List UInt8) :
    SpuriousMove .client ⟨logfs, mutex, .appendWait rest, worker⟩
      ⟨logfs, mutex, .appendWoken rest, worker⟩
  | flush (logfs : Logfs) (mutex : Option Thread) (worker : WorkerPc) (distance : ℤ)
      (caller : Caller) :
    SpuriousMove .client ⟨logfs, mutex, .flushWait distance caller, worker⟩
      ⟨logfs, mutex, .flushWoken distance caller, worker⟩
  | item (logfs : Logfs) (mutex : Option Thread) (client : ClientPc) :
    SpuriousMove .worker ⟨logfs, mutex, client, .waitItem⟩ ⟨logfs, mutex, client, .wokenItem⟩

/-- **The spurious wake-ups** are those of a thread that waits on a condition variable. -/
theorem spuriousStep_eq_some_iff {thread : Thread} :
    spuriousStep s thread = some s' ↔ SpuriousMove thread s s' := by
  constructor
  · intro hs
    obtain ⟨logfs, mutex, client, worker⟩ := s
    cases thread with
    | client =>
      cases client <;> simp only [spuriousStep, Option.some.injEq, reduceCtorEq] at hs <;>
        subst hs
      · exact .append logfs mutex worker _
      · exact .flush logfs mutex worker _ _
    | worker =>
      cases worker <;> simp only [spuriousStep, Option.some.injEq, reduceCtorEq] at hs
      subst hs
      exact .item logfs mutex client
  · intro hmove
    cases hmove <;> rfl

/-- A call begins when the client is idle. -/
lemma call_eq_some_iff {client : ClientPc} :
    s.call client = some s' ↔ (∃ ret, s.client = .idle ret) ∧ s' = { s with client := client } := by
  unfold State.call
  split
  · next ret hret => simp [hret, eq_comm]
  · next hidle => simpa using fun ret hret => absurd hret (hidle ret)

end Cs238p.P4.Logfs
