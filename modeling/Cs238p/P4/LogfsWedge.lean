import Cs238p.P4.LogfsFlush

set_option relaxedAutoImplicit false
set_option autoImplicit false

/-!
# Device writes that fail

When `device_write` fails, `write_to_disk` calls `pthread_exit` with the mutex locked. This module
determines in which runs a thread is left waiting for something that no live thread can do.

## Main definitions

* `Blocked` — the client waits for the mutex, for a flush or for space.
* `Wedged` — the worker has exited with the mutex locked, or the client is blocked whatever the
  worker goes on to do.
* `Sound` — the step is not a device write that fails, nor a wait of `logfs_append` for space.
* `Live` — the invariant.

## Main results

* `Live.worker_waits` — a worker can write what is left, and then it waits with the mutex released.
* `unwedged_iff_sound` — along a run without early flushes, no state is wedged if and only if every
  step is sound.
-/

namespace Cs238p.P4.Logfs

open RingLog Transition

/-- The client waits for the mutex, for a flush or for space. -/
def Blocked (s : State) : Prop :=
  match s.client with
  | .appendLock _ | .appendWoken _ | .flushLock _ | .flushWoken _ _ | .closeLock => s.mutex ≠ none
  | .appendWait _ | .flushWait _ _ => True
  | _ => False

/-- The worker has exited with the mutex locked, or the client is blocked and no steps of the
worker, whatever its device writes return, unblock it. -/
def Wedged (s : State) : Prop :=
  s.worker = .exited ∧ s.mutex = some .worker ∨
    Blocked s ∧ ∀ (oks : List Bool) (t : State),
      run step s (oks.map Action.worker) = some t → Blocked t

/-- The step does not lead to a state that is wedged. -/
def Unwedged (s : State) (a : Action) : Prop := ∀ s', step s a = some s' → ¬ Wedged s'

/-- The step is not a `device_write` that fails. -/
def WriteOk (s : State) (a : Action) : Prop :=
  a = .worker false → s.worker = .inner → s.logfs.writeBufferFilled < s.logfs.blockSize

/-- The step is not a wait of `logfs_append` for space. -/
def HasSpace (s : State) (a : Action) : Prop :=
  match s.client, a with
  | .append (_ :: _), .client _ => s.logfs.writeBufferFilled < s.logfs.writeBufferSize
  | _, _ => True

/-- The step is neither of the two. -/
def Sound (s : State) (a : Action) : Prop := WriteOk s a ∧ HasSpace s a

instance (s : State) (a : Action) : Decidable (WriteOk s a) :=
  inferInstanceAs (Decidable (_ → _ → _))

instance (s : State) (a : Action) : Decidable (HasSpace s a) :=
  decidable_of_iff ((match s.client, a with
    | .append (_ :: _), .client _ =>
      decide (s.logfs.writeBufferFilled < s.logfs.writeBufferSize)
    | _, _ => true) = true) (by unfold HasSpace; split <;> simp only [decide_eq_true_iff])

instance (s : State) (a : Action) : Decidable (Sound s a) := inferInstanceAs (Decidable (_ ∧ _))

variable {B f d : ℕ} {s s' t : State} {log bytes : List UInt8}

/-! ## The invariant -/

/-- A client never waits for space; while it waits for a flush there is a block left to write, and
the worker is not asleep; and once it has told the worker to exit, none is left, and the worker
passes its inner loop before it exits. -/
def Awake (s : State) : Prop :=
  match s.client with
  | .appendWait _ | .appendWoken _ => False
  | .flushWait _ _ =>
    s.worker ≠ .waitItem ∧ s.logfs.blockSize ≤ s.logfs.writeBufferFilled
  | .flushWoken _ _ => s.worker = .start → s.logfs.blockSize ≤ s.logfs.writeBufferFilled
  | .closeLock => s.worker ≠ .start ∧ s.logfs.writeBufferFilled < s.logfs.blockSize
  | .closeSignal | .closeJoin | .closed =>
    s.logfs.writeBufferFilled < s.logfs.blockSize ∧
      (s.worker = .waitItem ∨ s.worker = .wokenItem ∨ s.worker = .inner ∨
        s.worker = .exited ∧ s.mutex = none)
  | _ => True

/-- The invariant of the runs of sound steps without early flushes. -/
structure Live (B : ℕ) (s : State) : Prop where
  carries : ∃ bytes, Carries B s bytes
  locks : Locks s
  awake : Awake s

lemma live_start (hB : 0 < B) (device : ℤ → UInt8) : Live B (State.start B device) :=
  ⟨⟨[], carries_start hB device⟩, locks_start B device, trivial⟩

/-- A padded log has a block left to write. -/
lemma Ring.le_filled {logfs : Logfs} (h : Ring B logfs log f 0) :
    (logfs.pad.blockSize : ℤ) ≤ logfs.pad.writeBufferFilled := by
  have hpad := h.pad.2
  have hsize : logfs.pad.blockSize = B := hpad.blockSize
  have hfilled : logfs.pad.writeBufferFilled =
      (log.length + padding B log.length : ℕ) - (B * f : ℕ) := hpad.filled
  have hle : B * f ≤ log.length := h.le
  have hlt : f < log.length / B + 1 := by
    have hdiv : f ≤ log.length / B := (Nat.le_div_iff_mul_le h.pos).mpr (by rwa [Nat.mul_comm])
    omega
  have hmul := Nat.mul_le_mul_left B (Nat.succ_le_of_lt hlt)
  rw [add_padding h.pos] at hfilled
  rw [Nat.mul_succ] at hmul
  omega

/-- The worker signals `flush` if less than a block is left to write. -/
lemma Ring.drained {logfs : Logfs} (h : Ring B logfs log f (padding B log.length))
    (hlt : log.length + padding B log.length < B * f + B) : logfs.Drained := by
  have hdrained : logfs.uncached.Drained := Layout.drained h (Layout.blocks_eq h rfl hlt)
  exact hdrained

/-- The bytes of the last block are less than a block. -/
lemma filled_unpad_lt {logfs : Logfs} (hB : 0 < logfs.blockSize) (distance : ℤ) :
    (logfs.unpad distance).writeBufferFilled < (logfs.unpad distance).blockSize :=
  Int.tmod_lt_of_pos _ (by exact_mod_cast hB)

/-- **A step of the client** keeps the invariant if it does not wait for space and does not end a
flush early. -/
lemma Awake.clientStep {outcome : ReadOutcome} (h : Awake s) (hcarries : Carries B s bytes)
    (hlocks : Locks s) (hspace : HasSpace s (.client outcome))
    (hearly : NotEarly s (.client outcome)) (hs : Logfs.clientStep s outcome = some s') :
    Awake s' := by
  cases clientStep_eq_some_iff.mp hs with
  | appendFull logfs mutex worker b rest hfull =>
    have hroom : logfs.writeBufferFilled < logfs.writeBufferSize := hspace
    exact absurd hfull (Int.not_le.mpr hroom)
  | appendByte logfs mutex worker b rest hroom =>
    rw [Awake, signalItemAvail_client]
    trivial
  | appendWoken logfs worker rest => exact absurd h id
  | flushLock logfs worker caller =>
    obtain ⟨log, f, d, hring, hpad, -⟩ := hcarries
    obtain rfl : d = 0 := hpad
    rw [Awake, signalItemAvail_client]
    refine ⟨signalItemAvail_worker_ne _, ?_⟩
    rw [signalItemAvail_logfs]
    exact hring.le_filled
  | flushWoken logfs worker distance caller =>
    obtain ⟨log, f, d, hring, -⟩ := hcarries
    have hB : 0 < logfs.blockSize := by
      rw [show logfs.blockSize = B from hring.blockSize]
      exact hring.pos
    cases caller with
    | read off len => trivial
    | close =>
      refine ⟨fun hstart => ?_, filled_unpad_lt hB distance⟩
      have hfull : (logfs.blockSize : ℤ) ≤ logfs.writeBufferFilled := h hstart
      have hless : logfs.writeBufferFilled < logfs.blockSize := hearly rfl
      omega
  | closeLock logfs worker =>
    obtain ⟨hstart, hless⟩ := h
    refine ⟨hless, ?_⟩
    have howned := hlocks.owned
    have hexited := hlocks.exited
    rw [hlocks.exit] at hexited
    cases worker with
    | start => exact absurd rfl hstart
    | outer => simp at howned
    | inner => simp at howned
    | waitItem => exact .inl rfl
    | wokenItem => exact .inr (.inl rfl)
    | exited => exact absurd (hexited rfl) id
  | closeSignal logfs mutex worker =>
    obtain ⟨hless, hworker⟩ := h
    rw [Awake, signalItemAvail_client, signalItemAvail_logfs, signalItemAvail_mutex]
    refine ⟨hless, ?_⟩
    cases worker <;> simp_all [State.signalItemAvail]
  | closeJoin logfs mutex => exact h
  | _ => trivial

/-- The worker moves without writing: it does not go back to its start, and it goes to sleep or
exits only if less than a block is left to write. -/
lemma Awake.of_worker (h : Awake s) {mutex : Option Thread} {worker : WorkerPc}
    (hstart : worker ≠ .start)
    (hmoved : worker = .waitItem → s.logfs.writeBufferFilled < s.logfs.blockSize)
    (hclosing : s.client.Closing → worker = .inner ∨ worker = .exited ∧ mutex = none) :
    Awake { s with mutex := mutex, worker := worker } := by
  obtain ⟨logfs, mutex₀, client, worker₀⟩ := s
  cases client with
  | flushWait distance caller =>
    obtain ⟨-, hfull⟩ := h
    refine ⟨fun hwait => ?_, hfull⟩
    have hless := hmoved hwait
    simp only at hless hfull
    omega
  | flushWoken distance caller => exact fun h => absurd h hstart
  | closeLock => exact ⟨hstart, h.2⟩
  | closeSignal => exact ⟨h.1, .inr (.inr (hclosing trivial))⟩
  | closeJoin => exact ⟨h.1, .inr (.inr (hclosing trivial))⟩
  | closed => exact ⟨h.1, .inr (.inr (hclosing trivial))⟩
  | appendWait rest => exact h
  | appendWoken rest => exact h
  | idle ret => trivial
  | appendLock buf => trivial
  | append rest => trivial
  | flushLock caller => trivial
  | read r => trivial

/-- **The worker writes a block**: if it does not signal `flush` then, a block is left to write. -/
lemma Awake.writeBlock (h : Awake s) (hcarries : Carries B s bytes)
    (hfull : ¬ s.logfs.writeBufferFilled < s.logfs.blockSize) :
    Awake (if s.logfs.writeBlock.Drained then
        State.signalFlush { s with logfs := s.logfs.writeBlock, worker := .outer }
      else { s with logfs := s.logfs.writeBlock, worker := .outer }) := by
  obtain ⟨log, f, d, hring, hpad, -⟩ := hcarries
  obtain ⟨logfs, mutex, client, worker⟩ := s
  cases client with
  | flushWait distance caller =>
    obtain ⟨rfl, rfl⟩ := hpad
    by_cases hdrained : logfs.writeBlock.Drained
    · rw [if_pos hdrained]
      exact fun h => absurd h (by simp)
    · rw [if_neg hdrained]
      refine ⟨by simp, ?_⟩
      have hfilled : logfs.writeBufferFilled =
          (log.length + padding B log.length : ℕ) - (B * f : ℕ) := hring.filled
      have hsize : logfs.blockSize = B := hring.blockSize
      have hwritten := hring.writeBlock (by simp only at hfull; omega)
      have hsize' : logfs.writeBlock.blockSize = B := hwritten.blockSize
      have hfilled' : logfs.writeBlock.writeBufferFilled =
          (log.length + padding B log.length : ℕ) - (B * (f + 1) : ℕ) := hwritten.filled
      -- otherwise the padded block was the last one
      by_contra hless
      refine hdrained (Ring.drained hwritten ?_)
      simp only at hless
      omega
  | flushWoken distance caller => split <;> exact fun h => absurd h (by simp)
  | closeLock => exact absurd h.2 hfull
  | closeSignal => exact absurd h.1 hfull
  | closeJoin => exact absurd h.1 hfull
  | closed => exact absurd h.1 hfull
  | appendWait rest => exact absurd h id
  | appendWoken rest => exact absurd h id
  | idle ret => split <;> trivial
  | appendLock buf => split <;> trivial
  | append rest => split <;> trivial
  | flushLock caller => split <;> trivial
  | read r => split <;> trivial

/-- **A step of the worker** keeps the invariant. -/
lemma Awake.workerStep (h : Awake s) (hcarries : Carries B s bytes) (hlocks : Locks s)
    (hs : Logfs.workerStep s true = some s') : Awake s' := by
  have hclosing : s.client.Closing → s.worker ≠ .start ∧ s.worker ≠ .outer := by
    obtain ⟨logfs, mutex, client, worker⟩ := s
    intro hc
    cases client <;> simp only [ClientPc.Closing] at hc <;> obtain ⟨-, hworker⟩ := h <;>
      rcases hworker with rfl | rfl | rfl | ⟨rfl, -⟩ <;> simp
  have hexit := hlocks.exit
  cases workerStep_eq_some_iff.mp hs with
  | lock logfs client => exact h.of_worker (by simp) (by simp) fun hc => absurd rfl (hclosing hc).1
  | leave logfs mutex client hexit' =>
    exact h.of_worker (by simp) (by simp) fun hc => absurd rfl (hclosing hc).2
  | enter logfs mutex client hrun =>
    exact h.of_worker (by simp) (by simp) fun hc => absurd rfl (hclosing hc).2
  | exit logfs mutex client hless hexit' =>
    exact h.of_worker (by simp) (by simp) fun _ => .inr ⟨rfl, rfl⟩
  | sleep logfs mutex client hless hrun =>
    exact h.of_worker (by simp) (fun _ => hless) fun hc => absurd (hexit.mpr hc) hrun
  | write logfs mutex client hfull hdrained =>
    have hwritten := h.writeBlock hcarries hfull
    rwa [if_neg hdrained] at hwritten
  | drain logfs mutex client hfull hdrained =>
    have hwritten := h.writeBlock hcarries hfull
    rwa [if_pos hdrained] at hwritten
  | wake logfs client => exact h.of_worker (by simp) (by simp) fun _ => .inl rfl

/-- A spurious wake-up keeps the invariant. -/
lemma Awake.spuriousStep {thread : Thread} (h : Awake s)
    (hs : Logfs.spuriousStep s thread = some s') : Awake s' := by
  cases spuriousStep_eq_some_iff.mp hs with
  | append logfs mutex worker rest => exact h
  | flush logfs mutex worker distance caller => exact fun _ => h.2
  | item logfs mutex client => cases client <;> simp_all [Awake]

lemma Live.blockSize_pos (h : Live B s) : 0 < s.logfs.blockSize := by
  obtain ⟨bytes, log, f, d, hring, -⟩ := h.carries
  rw [show s.logfs.blockSize = B from hring.blockSize]
  exact hring.pos

/-- A step of a live worker. -/
lemma Live.workerStep (h : Live B s) (hs : Logfs.workerStep s true = some s') : Live B s' := by
  obtain ⟨⟨bytes, hcarries⟩, hlocks, hawake⟩ := h
  exact ⟨⟨bytes, hcarries.workerStep hs⟩, hlocks.workerStep hs,
    hawake.workerStep hcarries hlocks hs⟩

/-- **Every sound step** keeps the invariant unless it ends a flush early. -/
theorem Live.step {a : Action} (h : Live B s) (hearly : NotEarly s a) (hsound : Sound s a)
    (hs : Logfs.step s a = some s') : Live B s' := by
  obtain ⟨⟨bytes, hcarries⟩, hlocks, hawake⟩ := id h
  have hcall {client : ClientPc} (hs : s.call client = some s')
      (hcalls : (∃ buf, client = .appendLock buf) ∨ ∃ caller, client = .flushLock caller) :
      Live B s' := by
    refine ⟨⟨_, hcarries.call hs hcalls⟩, hlocks.call hs ?_ ?_, ?_⟩
    · rcases hcalls with ⟨buf, rfl⟩ | ⟨caller, rfl⟩ <;> simp
    · rcases hcalls with ⟨buf, rfl⟩ | ⟨caller, rfl⟩ <;> simp [ClientPc.Closing]
    · obtain ⟨-, rfl⟩ := call_eq_some_iff.mp hs
      rcases hcalls with ⟨buf, rfl⟩ | ⟨caller, rfl⟩ <;> trivial
  cases a with
  | append buf => exact hcall hs (.inl ⟨buf, rfl⟩)
  | read off len => exact hcall hs (.inr ⟨.read off len, rfl⟩)
  | close => exact hcall hs (.inr ⟨.close, rfl⟩)
  | client outcome =>
    exact ⟨⟨bytes, hcarries.clientStep hearly hs⟩, hlocks.clientStep hs,
      hawake.clientStep hcarries hlocks hsound.2 hearly hs⟩
  | worker ok =>
    have heq : Logfs.workerStep s ok = Logfs.workerStep s true :=
      workerStep_eq_true fun hok => hsound.1 (by rw [hok])
    exact h.workerStep (heq ▸ hs)
  | spurious thread =>
    exact ⟨⟨bytes, hcarries.spuriousStep hs⟩, hlocks.spuriousStep hs, hawake.spuriousStep hs⟩

/-! ## Progress of the worker -/

/-- **The worker can go on until it waits**, with the mutex released, unless it is told to exit or
the client owns the mutex.

**Proof sketch.** A live worker that does not wait can take a step, and each of its steps leaves
less to do. -/
theorem Live.worker_waits (h : Live B s) (hrun : s.logfs.exitWorkerThread = false)
    (hmutex : s.mutex ≠ some .client) :
    ∃ (k : ℕ) (t : State), run Logfs.step s (List.replicate k (.worker true)) = some t ∧
      Live B t ∧ t.mutex = none ∧ t.worker = .waitItem := by
  have hstep (s : State)
      (h : Live B s ∧ s.logfs.exitWorkerThread = false ∧ s.mutex ≠ some .client)
      (hwait : s.worker ≠ .waitItem) : ∃ s', Logfs.step s (.worker true) = some s' ∧
        (Live B s' ∧ s'.logfs.exitWorkerThread = false ∧ s'.mutex ≠ some .client) ∧
          s'.workLeft < s.workLeft := by
    obtain ⟨hlive, hrun, hmutex⟩ := h
    have hexited : s.worker ≠ .exited := fun hexited => by
      have hexit := hlive.locks.exited hexited
      simp [hrun] at hexit
    have howner (hne : s.mutex ≠ none) : s.worker = .outer ∨ s.worker = .inner := by
      obtain ⟨thread, hthread⟩ := Option.ne_none_iff_exists'.mp hne
      cases thread with
      | client => exact absurd hthread hmutex
      | worker =>
        rcases hlive.locks.worker hthread with houter | hinner | h
        · exact .inl houter
        · exact .inr hinner
        · exact absurd h hexited
    obtain ⟨s', hmove⟩ := exists_workerMove hwait hexited howner
    have hs : Logfs.workerStep s true = some s' := workerStep_eq_some_iff.mpr hmove
    exact ⟨s', hs, ⟨hlive.workerStep hs, hmove.exitWorkerThread_eq.trans hrun,
      hmove.mutex_ne_client hmutex⟩, hmove.workLeft_lt hlive.blockSize_pos⟩
  obtain ⟨k, t, hsteps, ⟨hlive, -, hmutex'⟩, hwait⟩ :=
    exists_run_replicate State.workLeft hstep ⟨h, hrun, hmutex⟩
  refine ⟨k, t, hsteps, hlive, ?_, hwait⟩
  cases hthread : t.mutex with
  | none => rfl
  | some thread =>
    cases thread with
    | client => exact absurd hthread hmutex'
    | worker =>
      have howned := hlive.locks.worker hthread
      simp [hwait] at howned

/-- The client is not blocked if the mutex is free and the worker asleep. -/
lemma Live.not_blocked (h : Live B s) (hmutex : s.mutex = none) (hasleep : s.worker = .waitItem) :
    ¬ Blocked s := by
  intro hblocked
  have hawake := h.awake
  unfold Blocked at hblocked
  unfold Awake at hawake
  cases hclient : s.client <;> rw [hclient] at hblocked hawake <;> simp_all

/-- A client that is blocked has not told the worker to exit. -/
lemma Live.exitWorkerThread_of_blocked (h : Live B s) (hblocked : Blocked s) :
    s.logfs.exitWorkerThread = false := by
  rw [Bool.eq_false_iff]
  intro hexit
  have hclosing := h.locks.exit.mp hexit
  unfold Blocked at hblocked
  cases hclient : s.client <;> rw [hclient] at hblocked hclosing <;>
    simp_all [ClientPc.Closing]

/-- **A blocked client can be unblocked** by the worker: it goes on until it waits, which it does
not before it has signalled `flush`. -/
lemma Live.unblock (h : Live B s) (hblocked : Blocked s) :
    ∃ (oks : List Bool) (t : State), run Logfs.step s (oks.map Action.worker) = some t ∧
      ¬ Blocked t := by
  have hmutex : s.mutex ≠ some .client := by
    intro hmutex
    obtain ⟨rest, hrest⟩ := h.locks.client.mp hmutex
    unfold Blocked at hblocked
    rw [hrest] at hblocked
    exact hblocked
  obtain ⟨k, t, hsteps, hlive, hfree, hwait⟩ :=
    h.worker_waits (h.exitWorkerThread_of_blocked hblocked) hmutex
  refine ⟨List.replicate k true, t, ?_, hlive.not_blocked hfree hwait⟩
  rw [List.map_replicate, hsteps]

/-- **A live state is not wedged.** -/
theorem Live.not_wedged (h : Live B s) : ¬ Wedged s := by
  rintro (⟨hexited, hmutex⟩ | ⟨hblocked, hstays⟩)
  · have hclosing := h.locks.exit.mp (h.locks.exited hexited)
    have hawake := h.awake
    unfold Awake at hawake
    cases hclient : s.client <;> rw [hclient] at hclosing hawake <;>
      simp_all [ClientPc.Closing]
  · obtain ⟨oks, t, hruns, hfree⟩ := h.unblock hblocked
    exact hfree (hstays oks t hruns)

/-! ## Steps that are not sound -/

/-- A step of the worker moves a client only if it waits for a flush. -/
lemma client_workerStep {ok : Bool} (hs : Logfs.workerStep s ok = some s')
    (hflush : ∀ distance caller, s.client ≠ .flushWait distance caller) :
    s'.client = s.client := by
  cases workerStep_eq_some_iff.mp hs with
  | drain logfs mutex client hfull hdrained =>
    unfold State.signalFlush
    split
    · next distance caller hclient => exact absurd hclient (hflush distance caller)
    · rfl
  | _ => rfl

/-- The worker does not wake a client that waits for space. -/
lemma client_worker_run {oks : List Bool} {rest : List UInt8}
    (hclient : s.client = .appendWait rest)
    (hruns : run Logfs.step s (oks.map Action.worker) = some t) :
    t.client = .appendWait rest := by
  induction oks generalizing s with
  | nil =>
    obtain rfl := Option.some.inj hruns
    exact hclient
  | cons ok oks ih =>
    obtain ⟨s', hs, hruns⟩ := run_cons_eq_some.mp hruns
    refine ih ?_ hruns
    have hsame : s'.client = s.client := client_workerStep hs (by simp [hclient])
    rw [hsame, hclient]

/-- **A step that is not sound** leads to a state that is wedged. -/
lemma Live.sound_of_unwedged {a : Action} (h : Live B s) (hunwedged : Unwedged s a) :
    Sound s a := by
  refine ⟨?_, ?_⟩
  · rintro rfl hinner
    by_contra hfull
    obtain ⟨s', hs⟩ : ∃ s', Logfs.workerStep s false = some s' := by
      rw [Logfs.workerStep, hinner]
      simp [hfull]
    have hdead := h.locks.dead hinner hfull hs
    exact hunwedged s' hs (.inl ⟨hdead.worker, hdead.mutex⟩)
  · unfold HasSpace
    split
    · next b rest outcome hclient =>
      by_contra hfull
      have hs : Logfs.step s (.client outcome) =
          some { s with mutex := none, client := .appendWait (b :: rest) } := by
        show Logfs.clientStep s outcome = _
        rw [Logfs.clientStep, hclient]
        simp only
        rw [if_pos (by omega)]
      refine hunwedged _ hs (.inr ⟨trivial, fun oks t hruns => ?_⟩)
      unfold Blocked
      rw [client_worker_run rfl hruns]
      trivial
    · trivial

/-- **Along a run without early flushes no state is wedged if and only if** no device write fails
and `logfs_append` never waits for space.

**Proof sketch.** A worker whose device write fails exits with the mutex locked, and nobody signals
`space_avail`. Up to the first such step, the worker can always go on to unblock the client
(`Live.unblock`). -/
theorem unwedged_iff_sound (B : ℕ) (hB : 0 < B) (device : ℤ → UInt8) (as : List Action)
    (hearly : Always Logfs.step NotEarly (State.start B device) as) :
    Always Logfs.step Unwedged (State.start B device) as ↔
      Always Logfs.step Sound (State.start B device) as :=
  always_congr_of_invariant (fun _ _ _ h hearly hsound hs => h.step hearly hsound hs)
    (fun _ _ h hearly => ⟨h.sound_of_unwedged,
      fun hsound _ hs => (h.step hearly hsound hs).not_wedged⟩)
    (live_start hB device) hearly

/-- A byte is appended and read, and the log is closed. -/
def closingRun : List Action :=
  [.append [7], .client .ok, .client .ok, .client .ok, .read 0 1, .client .ok] ++
    List.replicate 7 (.worker true) ++ List.replicate 3 (.client .ok) ++ [.close, .client .ok] ++
      List.replicate 4 (.worker true) ++ List.replicate 3 (.client .ok) ++
        [.worker true, .worker true, .client .ok]

/-- The run closes the log, and no state of it is wedged. -/
theorem unwedged_closingRun :
    ((run Logfs.step (State.start 1 fun _ => 0) closingRun).map State.client = some .closed) ∧
      Always Logfs.step Unwedged (State.start 1 fun _ => 0) closingRun :=
  ⟨by decide +kernel,
    (unwedged_iff_sound 1 (by decide) _ closingRun (by decide +kernel)).mpr (by decide +kernel)⟩

/-- A byte is appended to a log with blocks of one byte, and the worker fails to write it: the
worker exits with the mutex locked. -/
theorem wedged_write_fails :
    ∃ s, run Logfs.step (State.start 1 fun _ => 0) [.append [7], .client .ok, .client .ok,
      .client .ok, .worker true, .worker true, .worker false] = some s ∧ Wedged s := by
  have hend : (run Logfs.step (State.start 1 fun _ => 0) [.append [7], .client .ok, .client .ok,
      .client .ok, .worker true, .worker true, .worker false]).map
      (fun s => (s.worker, s.mutex)) = some (.exited, some .worker) := by decide +kernel
  obtain ⟨s, hrun, hs⟩ := Option.map_eq_some_iff.mp hend
  obtain ⟨hworker, hmutex⟩ := Prod.mk.inj hs
  exact ⟨s, hrun, .inl ⟨hworker, hmutex⟩⟩

end Cs238p.P4.Logfs
