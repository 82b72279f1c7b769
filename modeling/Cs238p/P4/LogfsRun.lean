import Cs238p.Lib.Transition
import Cs238p.P4.LogfsMoves
import Cs238p.P4.LogfsRing

set_option relaxedAutoImplicit false
set_option autoImplicit false

/-!
# The client of the log and its worker

The client and the worker run in any order. As long as device accesses succeed and nothing but a
signal wakes a thread, the log that passes through the ring is the one that was appended.

## Main definitions

* `Action.Reliable`, `appended` — steps with successful device accesses and without spurious
  wake-ups; the bytes appended in a run.
* `Locks` — who owns the mutex, and which thread may sleep.
* `ClientInv`, `Holds` — the invariant.

## Main results

* `faithful` — reads return the appended bytes, and after `logfs_close` they are on the device.
-/

namespace Cs238p.P4.Logfs

open RingLog Transition

/-! ## Runs -/

/-- Device accesses succeed, and there is no spurious wake-up. -/
def Action.Reliable : Action → Prop
  | .client outcome => outcome = .ok
  | .worker ok => ok = true
  | .spurious _ => False
  | _ => True

instance : DecidablePred Action.Reliable
  | .client outcome => inferInstanceAs (Decidable (outcome = .ok))
  | .worker ok => inferInstanceAs (Decidable (ok = true))
  | .spurious _ => .isFalse not_false
  | .append _ | .read _ _ | .close => .isTrue trivial

/-- The bytes that a call appends. -/
def Action.bytes : Action → List UInt8
  | .append buf => buf
  | _ => []

/-- The concatenation of all appended buffers. -/
def appended (as : List Action) : List UInt8 := as.flatMap Action.bytes

/-- The bytes that `logfs_append` has still to append. -/
def ClientPc.rest : ClientPc → List UInt8
  | .appendLock buf => buf
  | .append rest | .appendWait rest | .appendWoken rest => rest
  | _ => []

/-- `logfs_close` has told the worker to exit. -/
def ClientPc.Closing : ClientPc → Prop
  | .closeSignal | .closeJoin | .closed => True
  | _ => False

/-! ## The mutex -/

/-- Who owns the mutex: the client while it appends, the worker in its loops, and for ever if it has
exited from the outer one. The worker exits only when it was told to. -/
structure Locks (s : State) : Prop where
  client : s.mutex = some .client ↔ ∃ rest, s.client = .append rest
  owned : s.worker = .outer ∨ s.worker = .inner → s.mutex = some .worker
  worker : s.mutex = some .worker →
    s.worker = .outer ∨ s.worker = .inner ∨ s.worker = .exited
  exit : s.logfs.exitWorkerThread = true ↔ s.client.Closing
  exited : s.worker = .exited → s.logfs.exitWorkerThread = true

lemma locks_start (B : ℕ) (device : ℤ → UInt8) : Locks (State.start B device) where
  client := by simp [State.start]
  owned := by simp [State.start]
  worker := by simp [State.start]
  exit := by simp [State.start, logfsOpen, ClientPc.Closing]
  exited := by simp [State.start]

lemma Locks.signalItemAvail {s : State} (h : Locks s) : Locks s.signalItemAvail := by
  obtain ⟨hclient, howned, hworker, hexit, hexited⟩ := h
  refine ⟨?_, ?_, ?_, ?_, ?_⟩
  · simpa using hclient
  · simpa [signalItemAvail_worker_eq] using howned
  · simpa [signalItemAvail_worker_eq] using hworker
  · simpa using hexit
  · simpa [signalItemAvail_worker_eq] using hexited

/-- A step of the client keeps the discipline of the mutex. -/
lemma Locks.clientStep {s s' : State} {outcome : ReadOutcome} (h : Locks s)
    (hs : Logfs.clientStep s outcome = some s') : Locks s' := by
  obtain ⟨hclient, howned, hworker, hexit, hexited⟩ := h
  cases clientStep_eq_some_iff.mp hs with
  | appendByte logfs mutex worker b rest hroom =>
    apply Locks.signalItemAvail
    constructor <;> simp_all [ClientPc.Closing, Logfs.appendByte]
  | flushLock logfs worker caller =>
    apply Locks.signalItemAvail
    constructor <;> simp_all [ClientPc.Closing, Logfs.pad]
  | flushWoken logfs worker distance caller =>
    cases caller <;> constructor <;> simp_all [ClientPc.Closing, Caller.resume, Logfs.unpad]
  | closeSignal logfs mutex worker =>
    apply Locks.signalItemAvail
    constructor <;> simp_all [ClientPc.Closing]
  | readBlock logfs mutex worker r hlt huncached =>
    constructor <;> simp_all [ClientPc.Closing, Logfs.readBlock]
  | readFailed logfs mutex worker r bytes hlt huncached =>
    constructor <;> simp_all [ClientPc.Closing, Logfs.readFailed]
  | _ => constructor <;> simp_all [ClientPc.Closing]

/-- A signal of `flush` only moves a client that waits on it. -/
lemma Locks.signalFlush {s : State} (h : Locks s) : Locks s.signalFlush := by
  obtain ⟨hclient, howned, hworker, hexit, hexited⟩ := h
  unfold State.signalFlush
  split
  · next distance caller hc =>
    rw [hc] at hclient hexit
    exact ⟨by simpa using hclient, howned, hworker, by simpa [ClientPc.Closing] using hexit,
      hexited⟩
  · exact ⟨hclient, howned, hworker, hexit, hexited⟩

/-- The worker keeps the mutex while it writes a block. -/
lemma Locks.writeBlock {s : State} (h : Locks s) (hinner : s.worker = .inner) :
    Locks { s with logfs := s.logfs.writeBlock, worker := .outer } := by
  obtain ⟨hclient, howned, hworker, hexit, hexited⟩ := h
  constructor <;> simp_all

/-- A step of the worker whose device access succeeds keeps the discipline of the mutex. -/
lemma Locks.workerStep {s s' : State} (h : Locks s) (hs : Logfs.workerStep s true = some s') :
    Locks s' := by
  cases workerStep_eq_some_iff.mp hs with
  | write logfs mutex client hfull hdrained => exact h.writeBlock rfl
  | drain logfs mutex client hfull hdrained => exact (h.writeBlock rfl).signalFlush
  | _ =>
    obtain ⟨hclient, howned, hworker, hexit, hexited⟩ := h
    constructor <;> simp_all

/-- A call of the client keeps the discipline of the mutex. -/
lemma Locks.call {s s' : State} {client : ClientPc} (h : Locks s) (hs : s.call client = some s')
    (happend : ∀ rest, client ≠ .append rest) (hclosing : ¬ client.Closing) : Locks s' := by
  obtain ⟨hclient, howned, hworker, hexit, hexited⟩ := h
  obtain ⟨⟨ret, hret⟩, rfl⟩ := call_eq_some_iff.mp hs
  rw [hret] at hclient hexit
  refine ⟨?_, howned, hworker, ?_, hexited⟩
  · rw [hclient]
    simp [happend]
  · rw [hexit]
    exact iff_of_false id hclosing

/-! ## The log -/

/-- What a call of `logfs_read` returned is a part of the log. -/
def Return.Faithful (log : List UInt8) : Return → Prop
  | .read off len code buf =>
    code = 0 ∧ (off + len ≤ log.length → buf = (log.drop off).take len)
  | _ => True

/-- What holds at each point of the client. While it waits for a flush, the log is padded, and the
worker is not asleep or done. Once a flush has returned, the whole log is on the device until the
client appends again. -/
def ClientInv (B : ℕ) (s : State) (log : List UInt8) (f d : ℕ) : Prop :=
  match s.client with
  | .idle ret => d = 0 ∧ ret.Faithful log
  | .appendLock _ | .append _ | .appendWait _ | .appendWoken _ | .flushLock _ => d = 0
  | .flushWait distance _ =>
    d = padding B log.length ∧ distance = d ∧ B * f < log.length + d ∧ s.worker ≠ .waitItem
  | .flushWoken distance _ =>
    d = padding B log.length ∧ distance = d ∧
      (s.mutex = some .worker ∨ f = log.length / B + 1)
  | .read r => d = 0 ∧ Synced B s.logfs log f ∧ ReadProgress B s.logfs r
  | .closeLock | .closeSignal => d = 0 ∧ Synced B s.logfs log f
  | .closeJoin | .closed => d = 0 ∧ Synced B s.logfs log f ∧ s.worker ≠ .waitItem

/-- The log is the one that the calls have appended, up to the bytes still to append. -/
structure Inv (B : ℕ) (s : State) (log : List UInt8) (f d : ℕ) : Prop where
  layout : Layout B s.logfs log f d
  locks : Locks s
  client : ClientInv B s log f d

/-- The invariant, for the bytes appended so far. -/
def Holds (B : ℕ) (s : State) (bytes : List UInt8) : Prop :=
  ∃ log f d, Inv B s log f d ∧ bytes = log ++ s.client.rest

lemma holds_start {B : ℕ} (hB : 0 < B) (device : ℤ → UInt8) :
    Holds B (State.start B device) [] :=
  ⟨[], 0, 0, ⟨layout_logfsOpen hB device, locks_start B device, rfl, trivial⟩, rfl⟩

variable {B f d : ℕ} {s s' : State} {log bytes : List UInt8}

/-- The control state of the threads does not matter for the log. -/
lemma Layout.congr {l l' : Logfs} (h : Layout B l log f d) (hdevice : l'.device = l.device)
    (hoff : l'.fileOffset = l.fileOffset) (hsize : l'.blockSize = l.blockSize)
    (hhead : l'.head = l.head) (htail : l'.tail = l.tail) (hbuffer : l'.writeBuffer = l.writeBuffer)
    (hfilled : l'.writeBufferFilled = l.writeBufferFilled) (hcache : l'.readCache = l.readCache) :
    Layout B l' log f d := by
  obtain ⟨device, off, size, head, tail, buffer, filled, flag, cache⟩ := l
  obtain ⟨device', off', size', head', tail', buffer', filled', flag', cache'⟩ := l'
  simp only at hdevice hoff hsize hhead htail hbuffer hfilled hcache
  subst hdevice hoff hsize hhead htail hbuffer hfilled hcache
  exact ⟨h.pos, h.blockSize, h.head, h.tail, h.filled, h.fileOffset, h.le, h.room, h.stored,
    h.retained, h.coherent⟩

/-- The ring has room as long as the client does not wait. -/
lemma Layout.lt_of_not_full {l : Logfs} (h : Layout B l log f 0)
    (hfull : ¬ (l.writeBufferSize : ℤ) ≤ l.writeBufferFilled) :
    log.length < B * f + ringSize B := by
  rw [writeBufferSize, h.blockSize, h.filled] at hfull
  show log.length < B * f + wcacheBlocks * B
  omega

/-- **A step of the client** keeps the invariant. -/
lemma Holds.clientStep (h : Holds B s bytes) (hs : Logfs.clientStep s .ok = some s') :
    Holds B s' bytes := by
  obtain ⟨log, f, d, hinv, rfl⟩ := h
  have hlocks := hinv.locks.clientStep hs
  cases clientStep_eq_some_iff.mp hs with
  | appendLock logfs worker buf => exact ⟨log, f, d, ⟨hinv.layout, hlocks, hinv.client⟩, rfl⟩
  | appendDone logfs mutex worker =>
    exact ⟨log, f, d, ⟨hinv.layout, hlocks, hinv.client, trivial⟩, rfl⟩
  | appendFull logfs mutex worker b rest hfull =>
    exact ⟨log, f, d, ⟨hinv.layout, hlocks, hinv.client⟩, rfl⟩
  | appendByte logfs mutex worker b rest hroom =>
    obtain rfl : d = 0 := hinv.client
    refine ⟨log ++ [b], f, 0, ⟨?_, hlocks, ?_⟩, ?_⟩
    · rw [signalItemAvail_logfs]
      exact hinv.layout.appendByte (hinv.layout.lt_of_not_full hroom) b
    · rw [ClientInv, signalItemAvail_client]
    · rw [signalItemAvail_client]
      exact List.append_cons log b rest
  | appendWoken logfs worker rest => exact ⟨log, f, d, ⟨hinv.layout, hlocks, hinv.client⟩, rfl⟩
  | flushLock logfs worker caller =>
    obtain rfl : d = 0 := hinv.client
    obtain ⟨hdistance, hpad⟩ := hinv.layout.pad
    have hle := hinv.layout.le
    have hpos := padding_pos (n := log.length) hinv.layout.pos
    refine ⟨log, f, padding B log.length, ⟨?_, hlocks, ?_⟩, ?_⟩
    · rw [signalItemAvail_logfs]
      exact hpad
    · rw [ClientInv, signalItemAvail_client]
      exact ⟨rfl, hdistance, by omega, signalItemAvail_worker_ne _⟩
    · rw [signalItemAvail_client]
      rfl
  | flushWoken logfs worker distance caller =>
    obtain ⟨rfl, rfl, hdone⟩ := hinv.client
    have hf : f = log.length / B + 1 := hdone.resolve_left (by simp)
    obtain ⟨hlayout, hsynced⟩ := hinv.layout.unpad hf
    refine ⟨log, log.length / B, 0, ⟨hlayout, hlocks, ?_⟩, ?_⟩
    · cases caller with
      | read off len =>
        rw [hinv.layout.blockSize]
        exact ⟨rfl, hsynced, readProgress_begin hinv.layout.pos _ off len⟩
      | close => exact ⟨rfl, hsynced⟩
    · cases caller <;> rfl
  | readDone logfs mutex worker r hdone =>
    obtain ⟨rfl, hsynced, hprogress⟩ := hinv.client
    refine ⟨log, f, 0, ⟨hinv.layout, hlocks, rfl, rfl, fun hlen => ?_⟩, rfl⟩
    have hall : r.readTillNow = r.len := Nat.le_antisymm hprogress.le (Nat.not_lt.mp hdone)
    rw [hprogress.buf, hall]
    exact hsynced.deviceRead_eq hlen
  | readCached logfs mutex worker r hlt hcached =>
    obtain ⟨rfl, hsynced, hprogress⟩ := hinv.client
    refine ⟨log, f, 0, ⟨hinv.layout, hlocks, rfl, hsynced, ?_⟩, rfl⟩
    rw [hinv.layout.coherent.block_eq hcached, hinv.layout.blockSize]
    exact hprogress.next hlt
  | readBlock logfs mutex worker r hlt huncached =>
    obtain ⟨rfl, hsynced, hprogress⟩ := hinv.client
    refine ⟨log, f, 0, ⟨hinv.layout.readBlock r.blockId, hlocks, rfl, hsynced, ?_⟩, rfl⟩
    have hnext := hprogress.next hlt
    rw [readBlock_block, show (logfs.readBlock r.blockId).blockSize = B from hinv.layout.blockSize,
      hinv.layout.blockSize]
    exact ⟨hnext.le, hnext.buf, hnext.position, hnext.start_lt, hnext.lenToRead⟩
  | closeLock logfs worker =>
    refine ⟨log, f, d, ⟨?_, hlocks, hinv.client⟩, rfl⟩
    exact hinv.layout.congr rfl rfl rfl rfl rfl rfl rfl rfl
  | closeSignal logfs mutex worker =>
    obtain ⟨rfl, hsynced⟩ := hinv.client
    refine ⟨log, f, 0, ⟨?_, hlocks, ?_⟩, ?_⟩
    · rw [signalItemAvail_logfs]
      exact hinv.layout
    · rw [ClientInv, signalItemAvail_client]
      rw [signalItemAvail_logfs]
      exact ⟨rfl, hsynced, signalItemAvail_worker_ne _⟩
    · rw [signalItemAvail_client]
      rfl
  | closeJoin logfs mutex => exact ⟨log, f, d, ⟨hinv.layout, hlocks, hinv.client⟩, rfl⟩

/-- The worker moves without touching the log. It goes to sleep or releases the mutex only if there
is less than a block in the ring, and then it has written the padded block. -/
lemma Inv.of_worker (h : Inv B s log f d) {mutex : Option Thread} {worker : WorkerPc}
    (hlocks : Locks { s with mutex := mutex, worker := worker })
    (hmoved : s.logfs.writeBufferFilled < B ∨
      worker ≠ .waitItem ∧ (s.mutex = some .worker → mutex = some .worker))
    (hexit : s.logfs.exitWorkerThread = true → worker ≠ .waitItem) :
    Inv B { s with mutex := mutex, worker := worker } log f d := by
  obtain ⟨hlayout, hlocks₀, hclient⟩ := h
  refine ⟨hlayout, hlocks, ?_⟩
  have hfilled := hlayout.filled
  have hclosing := hlocks₀.exit
  obtain ⟨logfs, mutex₀, client, worker₀⟩ := s
  cases client with
  | flushWait distance caller =>
    obtain ⟨rfl, rfl, hlt, hawake⟩ := hclient
    refine ⟨rfl, rfl, hlt, ?_⟩
    rcases hmoved with hless | ⟨hwait, -⟩
    · have hle := hlayout.le
      have hf := hlayout.blocks_eq rfl (by omega)
      rw [add_padding hlayout.pos, hf] at hlt
      omega
    · exact hwait
  | flushWoken distance caller =>
    obtain ⟨rfl, rfl, hdone⟩ := hclient
    refine ⟨rfl, rfl, ?_⟩
    rcases hmoved with hless | ⟨-, hkeep⟩
    · have hle := hlayout.le
      exact .inr (hlayout.blocks_eq rfl (by omega))
    · exact hdone.imp hkeep id
  | closeJoin =>
    obtain ⟨rfl, hsynced, -⟩ := hclient
    exact ⟨rfl, hsynced, hexit (hclosing.mpr trivial)⟩
  | closed =>
    obtain ⟨rfl, hsynced, -⟩ := hclient
    exact ⟨rfl, hsynced, hexit (hclosing.mpr trivial)⟩
  | idle ret => exact hclient
  | appendLock buf => exact hclient
  | append rest => exact hclient
  | appendWait rest => exact hclient
  | appendWoken rest => exact hclient
  | flushLock caller => exact hclient
  | read r => exact hclient
  | closeLock => exact hclient
  | closeSignal => exact hclient

/-- **The worker writes a block** and signals `flush` if the ring is empty then.

**Proof sketch.** There is a whole block in the ring only if the client is not between a flush and
the next append. If it waits for the flush and the block was the last one of the padded log, the
signal wakes it; it may also be woken earlier, from a full ring, but then the worker keeps the mutex
until it has written the padded block. -/
lemma Inv.writeBlock (h : Inv B s log f d) (hworker : s.worker = .inner)
    (hfull : ¬ s.logfs.writeBufferFilled < B) :
    Inv B
      (if s.logfs.writeBlock.Drained then
        State.signalFlush { s with logfs := s.logfs.writeBlock, worker := .outer }
      else { s with logfs := s.logfs.writeBlock, worker := .outer }) log (f + 1) d := by
  obtain ⟨hlayout, hlocks₀, hclient⟩ := h
  have hlocks := hlocks₀.writeBlock hworker
  have hmutex : s.mutex = some .worker := hlocks₀.owned (.inr hworker)
  have hfilled := hlayout.filled
  have hlayout' := hlayout.writeBlock (by omega)
  have hmul : B * (f + 1) = B * f + B := Nat.mul_succ B f
  obtain ⟨logfs, mutex, client, worker⟩ := s
  cases client with
  | flushWait distance caller =>
    obtain ⟨rfl, rfl, hlt, hawake⟩ := hclient
    by_cases hdrained : logfs.writeBlock.Drained
    · rw [if_pos hdrained]
      exact ⟨hlayout', hlocks.signalFlush, rfl, rfl, .inl hmutex⟩
    · rw [if_neg hdrained]
      refine ⟨hlayout', hlocks, rfl, rfl, ?_, by simp⟩
      have hle := hlayout'.le
      rw [add_padding hlayout.pos] at hle ⊢
      refine Nat.lt_of_le_of_ne hle fun heq => hdrained (hlayout'.drained ?_)
      exact Nat.eq_of_mul_eq_mul_left hlayout.pos heq
  | flushWoken distance caller =>
    obtain ⟨rfl, rfl, -⟩ := hclient
    split <;> exact ⟨hlayout', hlocks, rfl, rfl, .inl hmutex⟩
  | read r =>
    obtain ⟨rfl, hsynced, -⟩ := hclient
    have := hsynced.2
    omega
  | closeLock =>
    obtain ⟨rfl, hsynced⟩ := hclient
    have := hsynced.2
    omega
  | closeSignal =>
    obtain ⟨rfl, hsynced⟩ := hclient
    have := hsynced.2
    omega
  | closeJoin =>
    obtain ⟨rfl, hsynced, -⟩ := hclient
    have := hsynced.2
    omega
  | closed =>
    obtain ⟨rfl, hsynced, -⟩ := hclient
    have := hsynced.2
    omega
  | idle ret => split <;> exact ⟨hlayout', hlocks, hclient⟩
  | appendLock buf => split <;> exact ⟨hlayout', hlocks, hclient⟩
  | append rest => split <;> exact ⟨hlayout', hlocks, hclient⟩
  | appendWait rest => split <;> exact ⟨hlayout', hlocks, hclient⟩
  | appendWoken rest => split <;> exact ⟨hlayout', hlocks, hclient⟩
  | flushLock caller => split <;> exact ⟨hlayout', hlocks, hclient⟩

/-- A signal of `flush` leaves the bytes to append alone. -/
@[simp] lemma rest_signalFlush (s : State) : s.signalFlush.client.rest = s.client.rest := by
  unfold State.signalFlush
  split
  · next h =>
    rw [h]
    rfl
  · rfl

/-- **A step of the worker** keeps the invariant. -/
lemma Holds.workerStep (h : Holds B s bytes) (hs : Logfs.workerStep s true = some s') :
    Holds B s' bytes := by
  obtain ⟨log, f, d, hinv, rfl⟩ := h
  have hlocks := hinv.locks.workerStep hs
  have hsize := hinv.layout.blockSize
  cases workerStep_eq_some_iff.mp hs with
  | lock logfs client =>
    exact ⟨log, f, d, hinv.of_worker hlocks (.inr ⟨by simp, fun _ => rfl⟩) (by simp), rfl⟩
  | leave logfs mutex client hexit =>
    exact ⟨log, f, d, hinv.of_worker hlocks (.inr ⟨by simp, id⟩) (by simp), rfl⟩
  | enter logfs mutex client hrun =>
    exact ⟨log, f, d, hinv.of_worker hlocks (.inr ⟨by simp, id⟩) (by simp), rfl⟩
  | exit logfs mutex client hless hexit =>
    rw [hsize] at hless
    exact ⟨log, f, d, hinv.of_worker hlocks (.inl hless) (by simp), rfl⟩
  | sleep logfs mutex client hless hrun =>
    rw [hsize] at hless
    exact ⟨log, f, d, hinv.of_worker hlocks (.inl hless) (fun h => absurd h hrun), rfl⟩
  | write logfs mutex client hfull hdrained =>
    rw [hsize] at hfull
    have hinv' := hinv.writeBlock rfl hfull
    rw [if_neg hdrained] at hinv'
    exact ⟨log, f + 1, d, hinv', rfl⟩
  | drain logfs mutex client hfull hdrained =>
    rw [hsize] at hfull
    have hinv' := hinv.writeBlock rfl hfull
    rw [if_pos hdrained] at hinv'
    exact ⟨log, f + 1, d, hinv', by rw [rest_signalFlush]⟩
  | wake logfs client =>
    exact ⟨log, f, d, hinv.of_worker hlocks (.inr ⟨by simp, fun _ => rfl⟩) (by simp), rfl⟩

/-- A call of the client keeps the invariant, for the bytes with those of the call. -/
lemma Holds.call {client : ClientPc} (h : Holds B s bytes) (hs : s.call client = some s')
    (hcalls : (∃ buf, client = .appendLock buf) ∨ ∃ caller, client = .flushLock caller) :
    Holds B s' (bytes ++ client.rest) := by
  obtain ⟨log, f, d, hinv, rfl⟩ := h
  have hlocks : Locks s' := hinv.locks.call hs
    (by rcases hcalls with ⟨buf, rfl⟩ | ⟨caller, rfl⟩ <;> simp)
    (by rcases hcalls with ⟨buf, rfl⟩ | ⟨caller, rfl⟩ <;> simp [ClientPc.Closing])
  obtain ⟨hlayout, -, hclient⟩ := hinv
  obtain ⟨⟨ret, hret⟩, rfl⟩ := call_eq_some_iff.mp hs
  rw [ClientInv, hret] at hclient
  refine ⟨log, f, d, ⟨hlayout, hlocks, ?_⟩, by simp [hret, ClientPc.rest]⟩
  rcases hcalls with ⟨buf, rfl⟩ | ⟨caller, rfl⟩
  · exact hclient.1
  · exact hclient.1

/-- **Every step** with successful device accesses and without a spurious wake-up keeps the
invariant. -/
theorem Holds.step {a : Action} (h : Holds B s bytes) (ha : a.Reliable)
    (hs : Logfs.step s a = some s') : Holds B s' (bytes ++ a.bytes) := by
  cases a with
  | append buf => exact h.call hs (.inl ⟨buf, rfl⟩)
  | read off len => exact h.call hs (.inr ⟨.read off len, rfl⟩)
  | close => exact h.call hs (.inr ⟨.close, rfl⟩)
  | client outcome =>
    obtain rfl : outcome = .ok := ha
    show Holds B s' (bytes ++ [])
    rw [List.append_nil]
    exact h.clientStep hs
  | worker ok =>
    obtain rfl : ok = true := ha
    show Holds B s' (bytes ++ [])
    rw [List.append_nil]
    exact h.workerStep hs
  | spurious thread => exact absurd ha id

/-- A run keeps the invariant, for the bytes with those that its calls append. -/
lemma Holds.run {as : List Action} (h : Holds B s bytes) (ha : ∀ a ∈ as, a.Reliable)
    (hrun : Transition.run Logfs.step s as = some s') : Holds B s' (bytes ++ appended as) := by
  induction as generalizing s bytes with
  | nil =>
    obtain rfl := Option.some.inj hrun
    rw [appended, List.flatMap_nil, List.append_nil]
    exact h
  | cons a as ih =>
    obtain ⟨s₁, hs₁, hrun⟩ := run_cons_eq_some.mp hrun
    rw [appended, List.flatMap_cons, ← List.append_assoc]
    exact ih (h.step (ha a List.mem_cons_self) hs₁)
      (fun b hb => ha b (List.mem_cons_of_mem a hb)) hrun

/-- **The log is faithful**: in every run with successful device accesses and without spurious
wake-ups, a read inside the log returns the bytes that were appended, and after `logfs_close` they
are at the beginning of the device.

**Proof sketch.** The invariant holds along the run. A call that has returned leaves no bytes to
append, so the log is the concatenation of the buffers. A read has seen it on the device, since it
began with a flush; and so has `logfs_close`. -/
theorem faithful (B : ℕ) (hB : 0 < B) (device : ℤ → UInt8) (as : List Action) (s : State)
    (hreliable : ∀ a ∈ as, a.Reliable)
    (hrun : Transition.run Logfs.step (State.start B device) as = some s) :
    (∀ off len code buf, s.client = .idle (.read off len code buf) →
      off + len ≤ (appended as).length →
        code = 0 ∧ buf = ((appended as).drop off).take len) ∧
    (s.client = .closed → ∀ j (hj : j < (appended as).length),
      s.logfs.device j = (appended as)[j]) := by
  obtain ⟨log, f, d, ⟨hlayout, hlocks, hclient⟩, hbytes⟩ :=
    (holds_start hB device).run hreliable hrun
  rw [List.nil_append] at hbytes
  constructor
  · intro off len code buf hs hlen
    rw [ClientInv, hs] at hclient
    rw [hs, ClientPc.rest, List.append_nil] at hbytes
    · rw [hbytes] at hlen ⊢
      exact ⟨hclient.2.1, hclient.2.2 hlen⟩
    all_goals simp
  · intro hs j hj
    rw [ClientInv, hs] at hclient
    rw [hs, show ClientPc.closed.rest = [] from rfl, List.append_nil] at hbytes
    have hstored := hclient.2.1.1
    simp only [← hbytes] at hstored
    exact hstored j _ (List.getElem?_eq_getElem hj) hj

/-- Three bytes are appended to a log with blocks of two bytes, and the last two are read while the
worker writes the padded block. -/
theorem faithful_read :
    let as : List Action := [.append [7, 8, 9], .client .ok, .client .ok, .client .ok, .client .ok,
      .client .ok, .read 1 2, .worker true, .worker true, .worker true, .worker true, .worker true,
      .client .ok, .worker true, .worker true, .worker true, .worker true, .client .ok,
      .client .ok, .client .ok, .client .ok]
    ∃ s code buf, Transition.run Logfs.step (State.start 2 fun _ => 0) as = some s ∧
      s.client = .idle (.read 1 2 code buf) ∧ code = 0 ∧ buf = [8, 9] := by
  intro as
  have hreliable : ∀ a ∈ as, a.Reliable := by decide
  have hreturns : ((Transition.run Logfs.step (State.start 2 fun _ => 0) as).map State.client) =
      some (.idle (.read 1 2 0 [8, 9])) := by decide +kernel
  obtain ⟨s, hrun, hs⟩ := Option.map_eq_some_iff.mp hreturns
  exact ⟨s, 0, [8, 9], hrun, hs,
    (faithful 2 (by decide) _ as s hreliable hrun).1 1 2 _ _ hs (by decide)⟩

end Cs238p.P4.Logfs
