import Mathlib.Data.Int.Notation
import Mathlib.Data.List.Basic
import Mathlib.Logic.Function.Basic

set_option relaxedAutoImplicit false
set_option autoImplicit false

/-!
# The log of `p4/logfs.c`

Appended bytes go to a write buffer, a ring of 32 blocks, from which a worker thread writes whole
blocks to the device. A read first flushes: it pads the last block, waits until the worker has
written it, and takes the padding back. Blocks are read through a cache with 256 slots.

## Main definitions

* `Logfs` — `struct logfs`, with the contents of its device.
* `Logfs.appendByte`, `Logfs.pad`, `Logfs.unpad`, `Logfs.writeBlock`, `Logfs.readBlock` — what the
  threads do to it between two operations on the mutex and the condition variables.
* `Logfs.State`, `ClientPc`, `WorkerPc` — the mutex and the points at which the two threads are.
* `Logfs.clientStep`, `workerStep`, `step` — the steps of the threads.

## Implementation notes

The counters of type `int` are unbounded integers, with the division of the language. The device and
the write buffer are total functions of the offset, and device accesses are in range. A critical
section that does not wait is one step, except that `logfs_append` takes one step for each byte and
`write_to_disk` one for each block. A signal wakes the thread that waits, if there is one; a woken
thread has to lock the mutex again. The outcomes of device accesses and the spurious wake-ups are
labels of the steps.
-/

namespace Cs238p.P4

/-- `WCACHE_BLOCKS`. -/
def wcacheBlocks : ℕ := 32

/-- `RCACHE_BLOCKS`. -/
def rcacheBlocks : ℕ := 256

/-- `struct READ_CACHE_BLOCK`. -/
structure ReadCacheBlock where
  valid : Bool
  blockId : ℤ
  block : List UInt8
  deriving DecidableEq, Repr

/-- `struct logfs`, without the means of synchronisation. -/
structure Logfs where
  device : ℤ → UInt8
  fileOffset : ℤ
  blockSize : ℕ
  head : ℤ
  tail : ℤ
  writeBuffer : ℤ → UInt8
  writeBufferFilled : ℤ
  exitWorkerThread : Bool
  readCache : ℤ → ReadCacheBlock

/-- `logfs_open`. -/
def logfsOpen (blockSize : ℕ) (device : ℤ → UInt8) : Logfs where
  device := device
  fileOffset := 0
  blockSize := blockSize
  head := 0
  tail := 0
  writeBuffer := fun _ => 0
  writeBufferFilled := 0
  exitWorkerThread := false
  readCache := fun _ => ⟨false, -1, []⟩

namespace Logfs

/-- `write_buffer_size`. -/
def writeBufferSize (logfs : Logfs) : ℕ := wcacheBlocks * logfs.blockSize

/-! ## Appending and flushing -/

/-- The body of the loop of `logfs_append`. -/
def appendByte (logfs : Logfs) (b : UInt8) : Logfs :=
  { logfs with
    writeBufferFilled := logfs.writeBufferFilled + 1
    writeBuffer := Function.update logfs.writeBuffer logfs.head b
    head := (logfs.head + 1).tmod logfs.writeBufferSize }

/-- `distance_to_move_head` of `flush_to_disk`. -/
def distanceToMoveHead (logfs : Logfs) : ℤ := logfs.blockSize - logfs.head.tmod logfs.blockSize

/-- The padding of the last block in `flush_to_disk`. -/
def pad (logfs : Logfs) : Logfs :=
  { logfs with
    head := logfs.head + logfs.distanceToMoveHead
    writeBufferFilled := logfs.writeBufferFilled + logfs.distanceToMoveHead }

/-- The end of `flush_to_disk`, which takes the padding back. -/
def unpad (logfs : Logfs) (distance : ℤ) : Logfs :=
  let head := logfs.head - distance
  { logfs with
    head := head
    tail := if logfs.tail = 0 then head - head.tmod logfs.blockSize
      else logfs.tail - logfs.blockSize
    writeBufferFilled := head.tmod logfs.blockSize
    fileOffset := logfs.fileOffset - logfs.blockSize }

/-! ## Writing -/

/-- `device_write` of a block of the write buffer. -/
def deviceWrite (logfs : Logfs) : Logfs :=
  { logfs with
    device := fun j =>
      if logfs.fileOffset ≤ j ∧ j < logfs.fileOffset + logfs.blockSize then
        logfs.writeBuffer (logfs.tail + (j - logfs.fileOffset))
      else logfs.device j }

/-- In `write_to_disk`, the block that is written becomes invalid in the read cache. -/
def invalidate (logfs : Logfs) : Logfs :=
  let blockId := logfs.fileOffset.tdiv logfs.blockSize
  let readCacheIdx := blockId.tmod rcacheBlocks
  let cached := logfs.readCache readCacheIdx
  if cached.blockId = blockId then
    { logfs with
      readCache := Function.update logfs.readCache readCacheIdx { cached with valid := false } }
  else logfs

/-- What is invalidated is in the read cache. -/
lemma invalidate_eq (logfs : Logfs) :
    logfs.invalidate = { logfs with readCache := logfs.invalidate.readCache } := by
  rw [invalidate]
  split <;> rfl

section Invalidate

variable (logfs : Logfs)

@[simp] lemma blockSize_invalidate : logfs.invalidate.blockSize = logfs.blockSize := by
  rw [invalidate_eq]

@[simp] lemma head_invalidate : logfs.invalidate.head = logfs.head := by
  rw [invalidate_eq]

@[simp] lemma tail_invalidate : logfs.invalidate.tail = logfs.tail := by
  rw [invalidate_eq]

@[simp] lemma writeBufferFilled_invalidate :
    logfs.invalidate.writeBufferFilled = logfs.writeBufferFilled := by
  rw [invalidate_eq]

@[simp] lemma writeBuffer_invalidate : logfs.invalidate.writeBuffer = logfs.writeBuffer := by
  rw [invalidate_eq]

@[simp] lemma fileOffset_invalidate : logfs.invalidate.fileOffset = logfs.fileOffset := by
  rw [invalidate_eq]

@[simp] lemma device_invalidate : logfs.invalidate.device = logfs.device := by
  rw [invalidate_eq]

@[simp] lemma exitWorkerThread_invalidate :
    logfs.invalidate.exitWorkerThread = logfs.exitWorkerThread := by
  rw [invalidate_eq]

end Invalidate

/-- In `write_to_disk`, the block that was written leaves the write buffer. -/
def advance (logfs : Logfs) : Logfs :=
  { logfs with
    tail := (logfs.tail + logfs.blockSize).tmod logfs.writeBufferSize
    writeBufferFilled := logfs.writeBufferFilled - logfs.blockSize
    fileOffset := logfs.fileOffset + logfs.blockSize }

/-- The body of the loop of `write_to_disk`, if `device_write` succeeds. -/
def writeBlock (logfs : Logfs) : Logfs := logfs.invalidate.deviceWrite.advance

section WriteBlock

variable (logfs : Logfs)

@[simp] lemma blockSize_writeBlock : logfs.writeBlock.blockSize = logfs.blockSize :=
  blockSize_invalidate logfs

@[simp] lemma head_writeBlock : logfs.writeBlock.head = logfs.head := head_invalidate logfs

@[simp] lemma writeBuffer_writeBlock : logfs.writeBlock.writeBuffer = logfs.writeBuffer :=
  writeBuffer_invalidate logfs

@[simp] lemma exitWorkerThread_writeBlock :
    logfs.writeBlock.exitWorkerThread = logfs.exitWorkerThread := exitWorkerThread_invalidate logfs

lemma tail_writeBlock : logfs.writeBlock.tail =
    (logfs.tail + logfs.blockSize).tmod logfs.writeBufferSize := by
  show (logfs.invalidate.tail + (logfs.invalidate.blockSize : ℕ)).tmod
    (wcacheBlocks * logfs.invalidate.blockSize : ℕ) = _
  rw [tail_invalidate, blockSize_invalidate, writeBufferSize]

lemma writeBufferFilled_writeBlock : logfs.writeBlock.writeBufferFilled =
    logfs.writeBufferFilled - logfs.blockSize := by
  show logfs.invalidate.writeBufferFilled - (logfs.invalidate.blockSize : ℕ) = _
  rw [writeBufferFilled_invalidate, blockSize_invalidate]

lemma fileOffset_writeBlock : logfs.writeBlock.fileOffset =
    logfs.fileOffset + logfs.blockSize := by
  show logfs.invalidate.fileOffset + (logfs.invalidate.blockSize : ℕ) = _
  rw [fileOffset_invalidate, blockSize_invalidate]

lemma device_writeBlock (j : ℤ) : logfs.writeBlock.device j =
    if logfs.fileOffset ≤ j ∧ j < logfs.fileOffset + logfs.blockSize then
      logfs.writeBuffer (logfs.tail + (j - logfs.fileOffset))
    else logfs.device j := by
  show (if logfs.invalidate.fileOffset ≤ j ∧
      j < logfs.invalidate.fileOffset + (logfs.invalidate.blockSize : ℕ) then
    logfs.invalidate.writeBuffer (logfs.invalidate.tail + (j - logfs.invalidate.fileOffset))
    else logfs.invalidate.device j) = _
  rw [fileOffset_invalidate, blockSize_invalidate, tail_invalidate, writeBuffer_invalidate,
    device_invalidate]

end WriteBlock

/-- The condition under which `write_to_disk` signals `flush`. -/
def Drained (logfs : Logfs) : Prop :=
  logfs.head = logfs.tail ∨ logfs.tail = 0 ∧ logfs.head = logfs.writeBufferSize

instance (logfs : Logfs) : Decidable logfs.Drained := inferInstanceAs (Decidable (_ ∨ _))

/-! ## Reading -/

/-- `device_read`. -/
def deviceRead (logfs : Logfs) (off : ℤ) (len : ℕ) : List UInt8 :=
  (List.range len).map fun j : ℕ => logfs.device (off + j)

/-- The block is in its slot of the read cache. -/
def Cached (logfs : Logfs) (blockId : ℤ) : Prop :=
  (logfs.readCache (blockId.tmod rcacheBlocks)).valid = true ∧
    (logfs.readCache (blockId.tmod rcacheBlocks)).blockId = blockId

instance (logfs : Logfs) (blockId : ℤ) : Decidable (logfs.Cached blockId) :=
  inferInstanceAs (Decidable (_ ∧ _))

/-- In `logfs_read`, a block that is not cached is read into its slot. -/
def readBlock (logfs : Logfs) (blockId : ℤ) : Logfs :=
  { logfs with
    readCache := Function.update logfs.readCache (blockId.tmod rcacheBlocks)
      ⟨true, blockId, logfs.deviceRead (blockId * logfs.blockSize) logfs.blockSize⟩ }

/-- A `device_read` that fails leaves some bytes in the slot. -/
def readFailed (logfs : Logfs) (blockId : ℤ) (bytes : List UInt8) : Logfs :=
  { logfs with
    readCache := Function.update logfs.readCache (blockId.tmod rcacheBlocks)
      { logfs.readCache (blockId.tmod rcacheBlocks) with block := bytes } }

/-! ## The threads -/

/-- The two threads. -/
inductive Thread
  | client
  | worker
  deriving DecidableEq, Repr

/-- The callers of `flush_to_disk`. -/
inductive Caller
  | read (off len : ℕ)
  | close
  deriving DecidableEq, Repr

/-- The variables of `logfs_read`; `buf` holds the bytes that were read so far. -/
structure Reading where
  off : ℕ
  len : ℕ
  blockId : ℤ
  readStartOff : ℕ
  lenToRead : ℕ
  readTillNow : ℕ
  buf : List UInt8
  deriving DecidableEq, Repr

/-- What the last call of the client returned. -/
inductive Return
  | opened
  | append
  | read (off len : ℕ) (code : ℤ) (buf : List UInt8)
  deriving DecidableEq, Repr

/-- The points at which the client is. The list of `append` holds the bytes still to append. -/
inductive ClientPc
  | idle (ret : Return)
  | appendLock (buf : List UInt8)
  | append (rest : List UInt8)
  | appendWait (rest : List UInt8)
  | appendWoken (rest : List UInt8)
  | flushLock (caller : Caller)
  | flushWait (distance : ℤ) (caller : Caller)
  | flushWoken (distance : ℤ) (caller : Caller)
  | read (r : Reading)
  | closeLock
  | closeSignal
  | closeJoin
  | closed
  deriving DecidableEq, Repr

/-- The points at which the worker is: before its first lock, at the outer and the inner loop of
`write_to_disk`, waiting on `item_avail` or woken from it, and behind its end. -/
inductive WorkerPc
  | start
  | outer
  | inner
  | waitItem
  | wokenItem
  | exited
  deriving DecidableEq, Repr

/-- The log, the owner of the mutex and the two threads. -/
structure State where
  logfs : Logfs
  mutex : Option Thread
  client : ClientPc
  worker : WorkerPc

/-- The state after `logfs_open`. -/
def State.start (blockSize : ℕ) (device : ℤ → UInt8) : State :=
  ⟨logfsOpen blockSize device, none, .idle .opened, .start⟩

/-- `pthread_cond_signal(&logfs->item_avail)`. -/
def State.signalItemAvail (s : State) : State :=
  match s.worker with
  | .waitItem => { s with worker := .wokenItem }
  | _ => s

/-- `pthread_cond_signal(&logfs->flush)`. -/
def State.signalFlush (s : State) : State :=
  match s.client with
  | .flushWait distance caller => { s with client := .flushWoken distance caller }
  | _ => s

/-- Whether the next `device_read` succeeds; a failing one may leave any bytes in its buffer. -/
inductive ReadOutcome
  | ok
  | fail (bytes : List UInt8)
  deriving DecidableEq, Repr

/-- The variables of `logfs_read` before its loop. -/
def Reading.begin (blockSize off len : ℕ) : Reading where
  off := off
  len := len
  blockId := (off / blockSize : ℕ)
  readStartOff := off % blockSize
  lenToRead := min len (blockSize - off % blockSize)
  readTillNow := 0
  buf := []

/-- The variables of `logfs_read` after the bytes of a block were copied. -/
def Reading.next (r : Reading) (blockSize : ℕ) (block : List UInt8) : Reading :=
  { r with
    buf := r.buf ++ (block.drop r.readStartOff).take r.lenToRead
    readTillNow := r.readTillNow + r.lenToRead
    blockId := r.blockId + 1
    readStartOff := 0
    lenToRead := min blockSize (r.len - (r.readTillNow + r.lenToRead)) }

/-- Where the client is after `flush_to_disk`. -/
def Caller.resume (blockSize : ℕ) : Caller → ClientPc
  | .read off len => .read (Reading.begin blockSize off len)
  | .close => .closeLock

/-- A round of the loop of `logfs_read`, or its end. -/
def readStep (s : State) (r : Reading) (outcome : ReadOutcome) : State :=
  if r.readTillNow < r.len then
    let idx := r.blockId.tmod rcacheBlocks
    if s.logfs.Cached r.blockId then
      { s with client := .read (r.next s.logfs.blockSize (s.logfs.readCache idx).block) }
    else
      match outcome with
      | .fail bytes =>
        { s with
          logfs := s.logfs.readFailed r.blockId bytes
          client := .idle (.read r.off r.len (-1) r.buf) }
      | .ok =>
        let logfs := s.logfs.readBlock r.blockId
        { s with
          logfs := logfs
          client := .read (r.next logfs.blockSize (logfs.readCache idx).block) }
  else { s with client := .idle (.read r.off r.len 0 r.buf) }

/-- A step of the client inside a call, `none` if it is blocked. -/
def clientStep (s : State) (outcome : ReadOutcome) : Option State :=
  match s.client with
  | .idle _ => none
  | .appendLock buf =>
    if s.mutex = none then some { s with mutex := some .client, client := .append buf } else none
  | .append [] => some { s with mutex := none, client := .idle .append }
  | .append (b :: rest) =>
    if s.logfs.writeBufferSize ≤ s.logfs.writeBufferFilled then
      some { s with mutex := none, client := .appendWait (b :: rest) }
    else
      some (State.signalItemAvail
        { s with logfs := s.logfs.appendByte b, client := .append rest })
  | .appendWait _ => none
  | .appendWoken rest =>
    if s.mutex = none then some { s with mutex := some .client, client := .append rest } else none
  | .flushLock caller =>
    if s.mutex = none then
      some (State.signalItemAvail
        { s with
          logfs := s.logfs.pad
          client := .flushWait s.logfs.distanceToMoveHead caller })
    else none
  | .flushWait _ _ => none
  | .flushWoken distance caller =>
    if s.mutex = none then
      some
        { s with
          logfs := s.logfs.unpad distance
          client := caller.resume s.logfs.blockSize }
    else none
  | .read r => some (readStep s r outcome)
  | .closeLock =>
    if s.mutex = none then
      some { s with logfs := { s.logfs with exitWorkerThread := true }, client := .closeSignal }
    else none
  | .closeSignal => some (State.signalItemAvail { s with client := .closeJoin })
  | .closeJoin => if s.worker = .exited then some { s with client := .closed } else none
  | .closed => none

/-- A step of the worker, `none` if it is blocked. The flag tells whether its next `device_write`
succeeds; if not, the worker exits and keeps the mutex, and so it does at the end of its loop. -/
def workerStep (s : State) (ok : Bool) : Option State :=
  match s.worker with
  | .start =>
    if s.mutex = none then some { s with mutex := some .worker, worker := .outer } else none
  | .outer =>
    if s.logfs.exitWorkerThread then some { s with worker := .exited }
    else some { s with worker := .inner }
  | .inner =>
    if s.logfs.writeBufferFilled < s.logfs.blockSize then
      if s.logfs.exitWorkerThread then some { s with mutex := none, worker := .exited }
      else some { s with mutex := none, worker := .waitItem }
    else if ok then
      let s' := { s with logfs := s.logfs.writeBlock, worker := .outer }
      if s'.logfs.Drained then some s'.signalFlush else some s'
    else some { s with logfs := s.logfs.invalidate, worker := .exited }
  | .waitItem => none
  | .wokenItem =>
    if s.mutex = none then some { s with mutex := some .worker, worker := .inner } else none
  | .exited => none

/-- A spurious wake-up from a condition variable. -/
def spuriousStep (s : State) : Thread → Option State
  | .client =>
    match s.client with
    | .appendWait rest => some { s with client := .appendWoken rest }
    | .flushWait distance caller => some { s with client := .flushWoken distance caller }
    | _ => none
  | .worker =>
    match s.worker with
    | .waitItem => some { s with worker := .wokenItem }
    | _ => none

/-- The labels of the steps: the calls of the client, and the steps of the threads. -/
inductive Action
  | append (buf : List UInt8)
  | read (off len : ℕ)
  | close
  | client (outcome : ReadOutcome)
  | worker (ok : Bool)
  | spurious (thread : Thread)
  deriving DecidableEq, Repr

/-- The client begins a call. -/
def State.call (s : State) (client : ClientPc) : Option State :=
  match s.client with
  | .idle _ => some { s with client := client }
  | _ => none

/-- The steps of the system. -/
def step (s : State) : Action → Option State
  | .append buf => s.call (.appendLock buf)
  | .read off len => s.call (.flushLock (.read off len))
  | .close => s.call (.flushLock .close)
  | .client outcome => clientStep s outcome
  | .worker ok => workerStep s ok
  | .spurious thread => spuriousStep s thread

end Logfs

end Cs238p.P4
