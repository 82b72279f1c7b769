import Cs238p.P4.LogfsRun

set_option relaxedAutoImplicit false
set_option autoImplicit false

/-!
# Flushes that return early

`flush_to_disk` waits for the worker with a single `pthread_cond_wait`, without a loop around it. A
spurious wake-up can therefore end the flush before the worker has written the padded block. This
module determines which flushes do what they should, when every wait may be left at any time.

## Main definitions

* `Ring` — the log in the ring and on the device, whatever the read cache holds.
* `Flush` — all of the log is on the device, and the ring goes on where it ends.
* `loggedStep`, `Flushed` — the steps with the bytes appended so far; a flush that returns flushes.
* `NotEarly` — when `flush_to_disk` locks the mutex after its wait, less than a block is left to
  write.
* `Carries` — the invariant of the runs without early flushes.

## Main results

* `Ring.unpad_iff` — the end of `flush_to_disk` flushes if and only if it is not early.
* `flushed_iff_notEarly` — along a run, the flushes flush if and only if none of them is early.
* `always_notEarly` — without spurious wake-ups of the client no flush is early.
-/

namespace Cs238p.P4.Logfs

open RingLog Transition

/-! ## The ring without the read cache -/

/-- The log with an empty read cache. -/
def uncached (logfs : Logfs) : Logfs := { logfs with readCache := fun _ => ⟨false, -1, []⟩ }

/-- The log consists of the given bytes, of which `f` blocks are on the device and the last ones
are in the ring; behind it there are `d` bytes of padding. Nothing is said of the read cache. -/
def Ring (B : ℕ) (logfs : Logfs) (log : List UInt8) (f d : ℕ) : Prop :=
  Layout B logfs.uncached log f d

/-- The whole log is on the device, and the ring is one in which it can be continued. -/
def Flush (B : ℕ) (logfs : Logfs) (log : List UInt8) : Prop :=
  (∃ f, Ring B logfs log f 0) ∧ Stored (fun j : ℕ => logfs.device j) log log.length

variable {B f d n : ℕ} {logfs : Logfs} {log bytes : List UInt8} {s s' : State}

lemma coherent_uncached (logfs : Logfs) : logfs.uncached.Coherent := by
  intro idx hvalid
  simp [uncached] at hvalid

/-- The read cache does not matter for the ring. -/
lemma Layout.ring (h : Layout B logfs log f d) : Ring B logfs log f d :=
  ⟨h.pos, h.blockSize, h.head, h.tail, h.filled, h.fileOffset, h.le, h.room, h.stored, h.retained,
    coherent_uncached logfs⟩

lemma Ring.appendByte (h : Ring B logfs log f 0) (hroom : log.length < B * f + ringSize B)
    (b : UInt8) : Ring B (logfs.appendByte b) (log ++ [b]) f 0 :=
  Layout.appendByte h hroom b

lemma Ring.pad (h : Ring B logfs log f 0) : logfs.distanceToMoveHead = padding B log.length ∧
    Ring B logfs.pad log f (padding B log.length) :=
  Layout.pad h

lemma uncached_invalidate (logfs : Logfs) : logfs.invalidate.uncached = logfs.uncached := by
  rw [invalidate_eq]
  rfl

/-- What is written does not depend on the read cache. -/
lemma uncached_writeBlock (logfs : Logfs) :
    logfs.uncached.writeBlock.uncached = logfs.writeBlock.uncached := by
  show logfs.uncached.invalidate.uncached.deviceWrite.advance =
    logfs.invalidate.uncached.deviceWrite.advance
  rw [uncached_invalidate, uncached_invalidate]
  rfl

lemma Ring.writeBlock (h : Ring B logfs log f d) (hfull : B * f + B ≤ log.length + d) :
    Ring B logfs.writeBlock log (f + 1) d := by
  have hwritten := (Layout.writeBlock h hfull).ring
  unfold Ring at hwritten ⊢
  rwa [uncached_writeBlock] at hwritten

/-- **The end of `flush_to_disk` flushes if and only if** less than a block is left to write.

**Proof sketch.** The worker has then written the padded block, and `Layout.unpad` applies.
Otherwise the file offset and the number of bytes in the ring, which are set back by a block and to
the bytes of the last block, disagree. -/
theorem Ring.unpad_iff (h : Ring B logfs log f (padding B log.length)) :
    Flush B (logfs.unpad (padding B log.length)) log ↔
      logfs.writeBufferFilled < logfs.blockSize := by
  have hfilled := h.filled
  have hoff := h.fileOffset
  have hsize : logfs.blockSize = B := h.blockSize
  have hhead : logfs.head = (log.length % ringSize B + padding B log.length : ℕ) := h.head
  have hlt := Nat.mod_lt log.length h.pos
  have hpadding : padding B log.length = B - log.length % B := rfl
  rw [show logfs.uncached.writeBufferFilled = logfs.writeBufferFilled from rfl] at hfilled
  rw [show logfs.uncached.fileOffset = logfs.fileOffset from rfl] at hoff
  constructor
  · rintro ⟨⟨f', hring⟩, -⟩
    have hoff' : logfs.fileOffset - logfs.blockSize = (B * f' : ℕ) := hring.fileOffset
    have hfilled' : (logfs.head - (padding B log.length : ℕ)).tmod logfs.blockSize =
        (log.length + 0 : ℕ) - (B * f' : ℕ) := hring.filled
    rw [hhead, hsize, show ((log.length % ringSize B + padding B log.length : ℕ) : ℤ) -
      (padding B log.length : ℕ) = (log.length % ringSize B : ℕ) by omega, ← Int.ofNat_tmod,
      mod_ringSize_mod] at hfilled'
    omega
  · intro hless
    have hle := h.le
    have hf : f = log.length / B + 1 := by
      refine Layout.blocks_eq h rfl ?_
      omega
    obtain ⟨hlayout, hsynced⟩ := Layout.unpad h hf
    exact ⟨⟨_, hlayout⟩, hsynced.1⟩

/-! ## Runs with spurious wake-ups -/

/-- When `flush_to_disk` locks the mutex after its wait, less than a block is left to write. -/
def NotEarly (s : State) (a : Action) : Prop :=
  match s.client, a with
  | .flushWoken _ _, .client _ =>
    s.mutex = none → s.logfs.writeBufferFilled < s.logfs.blockSize
  | _, _ => True

instance (s : State) (a : Action) : Decidable (NotEarly s a) := by
  unfold NotEarly
  split <;> infer_instance

/-- A step of the system, with the bytes that the calls have appended so far. -/
def loggedStep (x : State × List UInt8) (a : Action) : Option (State × List UInt8) :=
  (step x.1 a).map fun s => (s, x.2 ++ a.bytes)

/-- If `flush_to_disk` returns, all bytes appended before are on the device, and the ring is one in
which the log can be continued. -/
def Flushed (B : ℕ) (x : State × List UInt8) (a : Action) : Prop :=
  match x.1.client, a with
  | .flushWoken _ _, .client _ => ∀ x', loggedStep x a = some x' → Flush B x'.1.logfs x.2
  | _, _ => True

/-- While the client is in `flush_to_disk` behind its first critical section, the log is padded. -/
def Padded (B : ℕ) (client : ClientPc) (n d : ℕ) : Prop :=
  match client with
  | .flushWait distance _ | .flushWoken distance _ => d = padding B n ∧ distance = d
  | _ => d = 0

/-- The bytes appended so far are in the ring and on the device, up to those still to append. -/
def Carries (B : ℕ) (s : State) (bytes : List UInt8) : Prop :=
  ∃ log f d, Ring B s.logfs log f d ∧ Padded B s.client log.length d ∧
    bytes = log ++ s.client.rest

lemma carries_start (hB : 0 < B) (device : ℤ → UInt8) : Carries B (State.start B device) [] :=
  ⟨[], 0, 0, (layout_logfsOpen hB device).ring, rfl, rfl⟩

/-- A step that keeps the ring and moves the client within the same part of a call. -/
lemma Carries.congr (h : Carries B s bytes) (hring : s'.logfs.uncached = s.logfs.uncached)
    (hpadded : ∀ n d, Padded B s.client n d → Padded B s'.client n d)
    (hrest : s'.client.rest = s.client.rest) : Carries B s' bytes := by
  obtain ⟨log, f, d, hlog, hpad, rfl⟩ := h
  refine ⟨log, f, d, ?_, hpadded _ _ hpad, by rw [hrest]⟩
  unfold Ring
  rw [hring]
  exact hlog

lemma Carries.signalItemAvail (h : Carries B s bytes) : Carries B s.signalItemAvail bytes :=
  h.congr (by rw [signalItemAvail_logfs]) (fun _ _ hpad => by rwa [signalItemAvail_client])
    (by rw [signalItemAvail_client])

lemma Carries.signalFlush (h : Carries B s bytes) : Carries B s.signalFlush bytes := by
  refine h.congr (by rw [signalFlush_logfs]) (fun n d hpad => ?_) (rest_signalFlush s)
  unfold State.signalFlush
  split
  · next hclient =>
    rw [hclient] at hpad
    exact hpad
  · exact hpad

/-- **A step of the client** keeps the invariant unless it ends a flush early. -/
lemma Carries.clientStep {outcome : ReadOutcome} (h : Carries B s bytes)
    (hearly : NotEarly s (.client outcome)) (hs : Logfs.clientStep s outcome = some s') :
    Carries B s' bytes := by
  cases clientStep_eq_some_iff.mp hs with
  | appendByte logfs mutex worker b rest hroom =>
    obtain ⟨log, f, d, hring, hpad, rfl⟩ := h
    obtain rfl : d = 0 := hpad
    apply Carries.signalItemAvail
    refine ⟨log ++ [b], f, 0, hring.appendByte (Layout.lt_of_not_full hring hroom) b, rfl, ?_⟩
    exact List.append_cons log b rest
  | flushLock logfs worker caller =>
    obtain ⟨log, f, d, hring, hpad, rfl⟩ := h
    obtain rfl : d = 0 := hpad
    obtain ⟨hdistance, hpadded⟩ := hring.pad
    apply Carries.signalItemAvail
    exact ⟨log, f, _, hpadded, ⟨rfl, hdistance⟩, rfl⟩
  | flushWoken logfs worker distance caller =>
    obtain ⟨log, f, d, hring, ⟨rfl, rfl⟩, rfl⟩ := h
    obtain ⟨⟨f', hring'⟩, -⟩ := hring.unpad_iff.mpr (hearly rfl)
    refine ⟨log, f', 0, hring', ?_, ?_⟩
    · cases caller <;> rfl
    · cases caller <;> rfl
  | closeLock logfs worker =>
    obtain ⟨log, f, d, hring, hpad, rfl⟩ := h
    exact ⟨log, f, d, Layout.congr hring rfl rfl rfl rfl rfl rfl rfl rfl, hpad, rfl⟩
  | closeSignal logfs mutex worker =>
    apply Carries.signalItemAvail
    exact h.congr rfl (fun _ _ hpad => hpad) rfl
  -- the other steps change at most the read cache
  | _ => exact h.congr rfl (fun _ _ hpad => hpad) rfl

/-- **A step of the worker** keeps the invariant. -/
lemma Carries.workerStep (h : Carries B s bytes) (hs : Logfs.workerStep s true = some s') :
    Carries B s' bytes := by
  have hwritten {logfs : Logfs} {mutex : Option Thread} {client : ClientPc}
      (h : Carries B ⟨logfs, mutex, client, .inner⟩ bytes)
      (hfull : ¬ logfs.writeBufferFilled < logfs.blockSize) :
      Carries B ⟨logfs.writeBlock, mutex, client, .outer⟩ bytes := by
    obtain ⟨log, f, d, hring, hpad, rfl⟩ := h
    have hfilled : logfs.writeBufferFilled = (log.length + d : ℕ) - (B * f : ℕ) := hring.filled
    rw [show logfs.blockSize = B from hring.blockSize] at hfull
    exact ⟨log, f + 1, d, hring.writeBlock (by omega), hpad, rfl⟩
  cases workerStep_eq_some_iff.mp hs with
  | write logfs mutex client hfull hdrained => exact hwritten h hfull
  | drain logfs mutex client hfull hdrained => exact (hwritten h hfull).signalFlush
  | _ => exact h.congr rfl (fun _ _ hpad => hpad) rfl

/-- A spurious wake-up keeps the invariant. -/
lemma Carries.spuriousStep {thread : Thread} (h : Carries B s bytes)
    (hs : Logfs.spuriousStep s thread = some s') : Carries B s' bytes := by
  cases spuriousStep_eq_some_iff.mp hs <;> exact h.congr rfl (fun _ _ hpad => hpad) rfl

/-- The client begins a call that appends the bytes of the call. -/
lemma Carries.call {client : ClientPc} (h : Carries B s bytes) (hs : s.call client = some s')
    (hcalls : (∃ buf, client = .appendLock buf) ∨ ∃ caller, client = .flushLock caller) :
    Carries B s' (bytes ++ client.rest) := by
  obtain ⟨log, f, d, hring, hpad, rfl⟩ := h
  obtain ⟨⟨ret, hret⟩, rfl⟩ := call_eq_some_iff.mp hs
  rw [hret] at hpad
  refine ⟨log, f, d, hring, ?_, by simp [hret, ClientPc.rest]⟩
  rcases hcalls with ⟨buf, rfl⟩ | ⟨caller, rfl⟩ <;> exact hpad

/-- A step of the worker whose device write does not fail. -/
lemma Action.eq_true_of_worker_ne {ok : Bool} (h : Action.worker ok ≠ .worker false) :
    ok = true := by
  cases ok with
  | false => exact absurd rfl h
  | true => rfl

/-- **Every step** whose device writes succeed keeps the invariant unless it ends a flush early. -/
theorem Carries.step {a : Action} (h : Carries B s bytes) (ha : a ≠ .worker false)
    (hearly : NotEarly s a) (hs : Logfs.step s a = some s') : Carries B s' (bytes ++ a.bytes) := by
  cases a with
  | append buf => exact h.call hs (.inl ⟨buf, rfl⟩)
  | read off len => exact h.call hs (.inr ⟨.read off len, rfl⟩)
  | close => exact h.call hs (.inr ⟨.close, rfl⟩)
  | client outcome =>
    rw [show (Action.client outcome).bytes = [] from rfl, List.append_nil]
    exact h.clientStep hearly hs
  | worker ok =>
    obtain rfl := Action.eq_true_of_worker_ne ha
    rw [show (Action.worker true).bytes = [] from rfl, List.append_nil]
    exact h.workerStep hs
  | spurious thread =>
    rw [show (Action.spurious thread).bytes = [] from rfl, List.append_nil]
    exact h.spuriousStep hs

/-- A flush that returns flushes if and only if it is not early. -/
lemma Carries.flushed_iff {a : Action} (h : Carries B s bytes) :
    Flushed B (s, bytes) a ↔ NotEarly s a := by
  unfold Flushed NotEarly
  cases hclient : s.client with
  | flushWoken distance caller =>
    cases a with
    | client outcome =>
      obtain ⟨log, f, d, hring, hpad, rfl⟩ := h
      rw [hclient] at hpad
      obtain ⟨rfl, rfl⟩ := hpad
      rw [hclient, show (ClientPc.flushWoken _ caller).rest = [] from rfl, List.append_nil]
      have hstep : Logfs.step s (.client outcome) = if s.mutex = none then
          some { s with
            logfs := s.logfs.unpad (padding B log.length)
            client := caller.resume s.logfs.blockSize } else none := by
        show Logfs.clientStep s outcome = _
        rw [Logfs.clientStep, hclient]
      simp only
      rw [← hring.unpad_iff]
      unfold loggedStep
      rw [hstep]
      by_cases hmutex : s.mutex = none
      · rw [if_pos hmutex]
        simp [hmutex]
      · rw [if_neg hmutex]
        simp [hmutex]
    | _ => exact Iff.rfl
  | _ => cases a <;> exact Iff.rfl

/-- **Along a run whose device writes succeed, every flush that returns has flushed if and only if**
none of them returns while a block is left to write.

**Proof sketch.** A flush that is not early leaves the whole log on the device and the ring as it
was without the padding (`Ring.unpad_iff`), so the invariant is kept up to the first early one. -/
theorem flushed_iff_notEarly (B : ℕ) (hB : 0 < B) (device : ℤ → UInt8) (as : List Action)
    (hwrites : ∀ a ∈ as, a ≠ .worker false) :
    Always loggedStep (Flushed B) (State.start B device, []) as ↔
      Always loggedStep (fun x a => NotEarly x.1 a) (State.start B device, []) as := by
  refine always_congr_of_invariant (I := fun x : State × List UInt8 => Carries B x.1 x.2)
    (E := fun _ a => a ≠ Action.worker false) ?_ (fun x a h _ => h.flushed_iff)
    (carries_start hB device) (always_of_forall_mem _ hwrites)
  rintro ⟨s, bytes⟩ a x' h ha hearly hs
  obtain ⟨s', hs', rfl⟩ := Option.map_eq_some_iff.mp hs
  exact h.step ha hearly hs'

/-! ## Runs without spurious wake-ups of the client -/

/-- A spurious wake-up does not touch the mutex. -/
lemma Locks.spuriousStep {thread : Thread} (h : Locks s)
    (hs : Logfs.spuriousStep s thread = some s') : Locks s' := by
  obtain ⟨hclient, howned, hworker, hexit, hexited⟩ := h
  cases spuriousStep_eq_some_iff.mp hs <;> constructor <;> simp_all [ClientPc.Closing]

/-- Every step whose device write does not fail keeps the discipline of the mutex. -/
lemma Locks.step {a : Action} (h : Locks s) (ha : a ≠ .worker false)
    (hs : Logfs.step s a = some s') : Locks s' := by
  cases a with
  | append buf => exact h.call hs (by simp) (by simp [ClientPc.Closing])
  | read off len => exact h.call hs (by simp) (by simp [ClientPc.Closing])
  | close => exact h.call hs (by simp) (by simp [ClientPc.Closing])
  | client outcome => exact h.clientStep hs
  | worker ok =>
    obtain rfl := Action.eq_true_of_worker_ne ha
    exact h.workerStep hs
  | spurious thread => exact h.spuriousStep hs

/-- A client that was woken from a flush cannot lock the mutex before less than a block is left to
write. -/
def Settled (s : State) : Prop :=
  match s.client with
  | .flushWoken _ _ =>
    s.mutex = some .worker ∨ s.logfs.writeBufferFilled < s.logfs.blockSize
  | _ => True

/-- A client that is not in a flush is settled. -/
lemma settled_of_ne (h : ∀ distance caller, s.client ≠ .flushWoken distance caller) :
    Settled s := by
  unfold Settled
  split
  · next distance caller hclient => exact absurd hclient (h distance caller)
  · trivial

/-- No step of the client itself ends its wait for a flush. -/
lemma clientStep_ne_flushWoken {outcome : ReadOutcome}
    (hs : Logfs.clientStep s outcome = some s') (distance : ℤ) (caller : Caller) :
    s'.client ≠ .flushWoken distance caller := by
  cases clientStep_eq_some_iff.mp hs with
  | flushWoken logfs worker distance' caller' => cases caller' <;> simp [Caller.resume]
  | _ => simp

/-- The worker releases the mutex only when less than a block is left to write. -/
lemma Settled.workerStep (h : Settled s) (hlocks : Locks s)
    (hs : Logfs.workerStep s true = some s') : Settled s' := by
  have howner {s : State} (hmutex : s.mutex = some .worker) : Settled s := by
    unfold Settled
    split
    · exact .inl hmutex
    · trivial
  have hwritten {s : State} (hless : s.logfs.writeBufferFilled < s.logfs.blockSize) :
      Settled s := by
    unfold Settled
    split
    · exact .inr hless
    · trivial
  cases workerStep_eq_some_iff.mp hs with
  | lock logfs client => exact howner rfl
  | leave logfs mutex client hexit => exact h
  | enter logfs mutex client hrun => exact h
  | exit logfs mutex client hless hexit => exact hwritten hless
  | sleep logfs mutex client hless hrun => exact hwritten hless
  | write logfs mutex client hfull hdrained => exact howner (hlocks.owned (.inr rfl))
  | drain logfs mutex client hfull hdrained =>
    apply howner
    rw [signalFlush_mutex]
    exact hlocks.owned (.inr rfl)
  | wake logfs client => exact howner rfl

/-- Every step but a spurious wake-up of the client keeps the client settled. -/
lemma Settled.step {a : Action} (h : Settled s) (hlocks : Locks s) (ha : a ≠ .worker false)
    (hspurious : a ≠ .spurious .client) (hs : Logfs.step s a = some s') : Settled s' := by
  have hcall {client : ClientPc} (hs : s.call client = some s')
      (hne : ∀ distance caller, client ≠ .flushWoken distance caller) : Settled s' := by
    obtain ⟨-, rfl⟩ := call_eq_some_iff.mp hs
    exact settled_of_ne hne
  cases a with
  | append buf => exact hcall hs (by simp)
  | read off len => exact hcall hs (by simp)
  | close => exact hcall hs (by simp)
  | client outcome => exact settled_of_ne (clientStep_ne_flushWoken hs)
  | worker ok =>
    obtain rfl := Action.eq_true_of_worker_ne ha
    exact h.workerStep hlocks hs
  | spurious thread =>
    cases spuriousStep_eq_some_iff.mp hs with
    | append logfs mutex worker rest => exact absurd rfl hspurious
    | flush logfs mutex worker distance caller => exact absurd rfl hspurious
    | item logfs mutex client => exact h

/-- A flush of a settled client is not early: the worker does not own the mutex that is locked. -/
lemma Settled.notEarly (h : Settled s) (a : Action) : NotEarly s a := by
  unfold Settled at h
  unfold NotEarly
  split
  · next hclient =>
    rw [hclient] at h
    intro hmutex
    rw [hmutex] at h
    simpa using h
  · trivial

/-- A step of the worker that does not write does not depend on the outcome of `device_write`. -/
lemma workerStep_eq_true {ok : Bool}
    (h : ok = false → s.worker = .inner → s.logfs.writeBufferFilled < s.logfs.blockSize) :
    Logfs.workerStep s ok = Logfs.workerStep s true := by
  cases ok with
  | true => rfl
  | false =>
    unfold Logfs.workerStep
    split
    · rfl
    · rfl
    · next hinner => rw [if_pos (h rfl hinner), if_pos (h rfl hinner)]
    · rfl
    · rfl
    · rfl

/-- The worker has exited with the mutex locked: nobody can lock it again. -/
structure Dead (s : State) : Prop where
  worker : s.worker = .exited
  mutex : s.mutex = some .worker
  client : ∀ rest, s.client ≠ .append rest

/-- A step of the client keeps the mutex locked. -/
lemma Dead.clientStep {outcome : ReadOutcome} (h : Dead s)
    (hs : Logfs.clientStep s outcome = some s') : Dead s' := by
  obtain ⟨hworker, hmutex, hclient⟩ := h
  cases clientStep_eq_some_iff.mp hs <;> constructor <;> simp_all [State.signalItemAvail]

/-- Every step keeps the mutex locked. -/
lemma Dead.step {a : Action} (h : Dead s) (hs : Logfs.step s a = some s') : Dead s' := by
  have hcall {client : ClientPc} (hs : s.call client = some s')
      (hne : ∀ rest, client ≠ .append rest) : Dead s' := by
    obtain ⟨-, rfl⟩ := call_eq_some_iff.mp hs
    exact ⟨h.worker, h.mutex, hne⟩
  cases a with
  | append buf => exact hcall hs (by simp)
  | read off len => exact hcall hs (by simp)
  | close => exact hcall hs (by simp)
  | client outcome => exact h.clientStep hs
  | worker ok => simp [Logfs.step, Logfs.workerStep, h.worker] at hs
  | spurious thread =>
    obtain ⟨hworker, hmutex, hclient⟩ := h
    cases spuriousStep_eq_some_iff.mp hs with
    | append logfs mutex worker rest => exact ⟨hworker, hmutex, by simp⟩
    | flush logfs mutex worker distance caller => exact ⟨hworker, hmutex, by simp⟩
    | item logfs mutex client => simp at hworker

/-- The worker exits with the mutex locked if `device_write` fails. -/
lemma Locks.dead (h : Locks s) (hinner : s.worker = .inner)
    (hfull : ¬ s.logfs.writeBufferFilled < s.logfs.blockSize)
    (hs : Logfs.workerStep s false = some s') : Dead s' := by
  have hmutex := h.owned (.inr hinner)
  rw [Logfs.workerStep, hinner] at hs
  simp only [if_neg hfull, Bool.false_eq_true, if_false, Option.some.injEq] at hs
  subst hs
  refine ⟨rfl, hmutex, fun rest hrest => ?_⟩
  have hclient := h.client.mpr ⟨rest, hrest⟩
  rw [hmutex] at hclient
  simp at hclient

/-- **Without spurious wake-ups of the client no flush is early**, whichever device writes fail: the
worker keeps the mutex until less than a block is left to write. -/
theorem always_notEarly (B : ℕ) (device : ℤ → UInt8) (as : List Action)
    (hspurious : ∀ a ∈ as, a ≠ .spurious .client) :
    Always Logfs.step NotEarly (State.start B device) as := by
  refine (always_of_forall_mem _ hspurious).imp_of_invariant
    (I := fun s => Locks s ∧ Settled s ∨ Dead s) ?_ ?_
    (.inl ⟨locks_start B device, settled_of_ne (by simp [State.start])⟩)
  · rintro s a s' (⟨hlocks, hsettled⟩ | hdead) hne hs
    · by_cases ha : a = .worker false
      · subst ha
        by_cases hwrite : s.worker = .inner ∧ ¬ s.logfs.writeBufferFilled < s.logfs.blockSize
        · exact .inr (hlocks.dead hwrite.1 hwrite.2 hs)
        · have heq : Logfs.workerStep s false = Logfs.workerStep s true :=
            workerStep_eq_true fun _ hinner => not_not.mp fun hfull => hwrite ⟨hinner, hfull⟩
          have hs' : Logfs.workerStep s true = some s' := heq ▸ hs
          exact .inl ⟨hlocks.workerStep hs', hsettled.workerStep hlocks hs'⟩
      · exact .inl ⟨hlocks.step ha hs, hsettled.step hlocks ha hne hs⟩
    · exact .inr (hdead.step hs)
  · rintro s a (⟨-, hsettled⟩ | hdead) -
    · exact hsettled.notEarly a
    · unfold NotEarly
      split
      · intro hmutex
        rw [hdead.mutex] at hmutex
        simp at hmutex
      · trivial

/-! ## Two runs -/

/-- A byte is appended to a log with blocks of two bytes, and read while the worker has not yet
begun: a spurious wake-up ends the flush before the byte is written. -/
def earlyRun : List Action :=
  [.append [7], .client .ok, .client .ok, .client .ok, .read 0 1, .client .ok, .spurious .client,
    .client .ok]

/-- The same run, in which the worker writes the padded block before the flush goes on. -/
def lateRun : List Action :=
  [.append [7], .client .ok, .client .ok, .client .ok, .read 0 1, .client .ok, .spurious .client,
    .worker true, .worker true, .worker true, .worker true, .worker true, .client .ok]

/-- A flush that a spurious wake-up ends late enough. -/
theorem flushed_lateRun : Always loggedStep (Flushed 2) (State.start 2 fun _ => 0, []) lateRun :=
  (flushed_iff_notEarly 2 (by decide) _ lateRun (by decide)).mpr (by decide +kernel)

/-- A flush that a spurious wake-up ends early: the byte is not on the device, and the file offset
is negative. -/
theorem not_flushed_earlyRun :
    ¬ Always loggedStep (Flushed 2) (State.start 2 fun _ => 0, []) earlyRun := by
  intro h
  have hruns : ((run loggedStep (State.start 2 fun _ => 0, []) earlyRun.dropLast).map fun x =>
      (x.1.client, (loggedStep x (.client .ok)).map fun y => y.1.logfs.fileOffset)) =
      some (.flushWoken 1 (.read 0 1), some (-2)) := by decide +kernel
  obtain ⟨x, hrun, hx⟩ := Option.map_eq_some_iff.mp hruns
  obtain ⟨hclient, hoff⟩ := Prod.mk.inj hx
  obtain ⟨y, hy, hoff⟩ := Option.map_eq_some_iff.mp hoff
  have happend : Always loggedStep (Flushed 2) (State.start 2 fun _ => 0, [])
    (earlyRun.dropLast ++ [.client .ok]) := h
  have hlast := happend.last hrun
  unfold Flushed at hlast
  rw [hclient] at hlast
  obtain ⟨⟨f, hring⟩, -⟩ := hlast y hy
  have hring' : y.1.logfs.fileOffset = (2 * f : ℕ) := hring.fileOffset
  omega

end Cs238p.P4.Logfs
