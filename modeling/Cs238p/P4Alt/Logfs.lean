import Mathlib.Data.List.ModifyLast
import Mathlib.Data.Nat.Notation
import Mathlib.Tactic.Common

set_option relaxedAutoImplicit false
set_option autoImplicit false

/-!
# The log of `p4/p4_alt/logfs.c`

Appended bytes stay in a write cache, a list of blocks of 4096 bytes. A worker thread that waits for
a signal writes all of them to the device. A read takes a block of the device into a read cache.

## Main definitions

* `Logfs` — `struct logfs`, with the contents of its device.
* `Logfs.append` — `logfs_append`, without its mutex.
* `Logfs.readBlock`, `Logfs.writeBlocks` — what `logfs_read` and the worker do to the caches and to
  the device.
* `State`, `ClientPc`, `WorkerPc` — the points at which the two threads are.
* `step` — the steps of the threads.

## Implementation notes

The counters of type `uint64_t` are natural numbers. The device is a total function of the offset,
and all allocations and device accesses succeed. A critical section that does not wait is one step,
so that which mutexes are locked is told by the point at which the worker is. A signal wakes the
thread that waits, if there is one; a woken thread has to lock the mutex again. A `memcpy` from a
block of the read cache takes no more than is in the block.
-/

namespace Cs238p.P4Alt

/-- `BLOCK_SIZE`. -/
def blockSize : ℕ := 4096

/-- `struct logfs_block`, without its link. -/
structure LogfsBlock where
  id : ℕ
  data : List UInt8
  size : ℕ
  deriving DecidableEq, Repr

/-- `create_new_block`, with the identifier that its callers assign. -/
def createNewBlock (id : ℕ) : LogfsBlock := ⟨id, List.replicate blockSize 0, 0⟩

/-- `struct logfs`, without the worker thread. The caches are lists from the head to the tail. -/
structure Logfs where
  size : ℕ
  device : ℕ → UInt8
  deviceBlock : ℕ
  wcache : List LogfsBlock
  rcache : List LogfsBlock
  wcacheBlocks : ℕ

/-- `logfs_open`. -/
def logfsOpen (deviceBlock : ℕ) (device : ℕ → UInt8) : Logfs where
  size := 0
  device := device
  deviceBlock := deviceBlock
  wcache := []
  rcache := []
  wcacheBlocks := 0

/-- `memcpy` to an offset of a region. -/
def memcpy (data : List UInt8) (off : ℕ) (src : List UInt8) : List UInt8 :=
  data.take off ++ src ++ data.drop (off + src.length)

namespace Logfs

/-! ## Appending -/

/-- `remaining_space` of `logfs_append`. -/
def remainingSpace (logfs : Logfs) : ℕ := blockSize - logfs.size % blockSize

/-- In `logfs_append`, a new block is linked to the write cache if it is needed. -/
def newBlock (logfs : Logfs) : Logfs :=
  if logfs.remainingSpace = blockSize then
    { logfs with
      wcache := logfs.wcache ++ [createNewBlock logfs.wcacheBlocks]
      wcacheBlocks := logfs.wcacheBlocks + 1 }
  else logfs

/-- In `logfs_append`, bytes are copied to the tail of the write cache. -/
def copy (logfs : Logfs) (src : List UInt8) : Logfs :=
  { logfs with
    wcache := logfs.wcache.modifyLast fun tail =>
      { tail with
        data := memcpy tail.data (tail.size % blockSize) src
        size := tail.size + src.length }
    size := logfs.size + src.length }

/-- The loop of `logfs_append`, with `len` bytes to go. The bytes that a round copies are the first
ones of `buf`. -/
def appendLoop (buf : List UInt8) (len : ℕ) (logfs : Logfs) : Logfs :=
  if 0 < len then
    let copySize := if len < logfs.remainingSpace then len else logfs.remainingSpace
    appendLoop buf (len - copySize) (logfs.newBlock.copy (buf.take copySize))
  else logfs
termination_by len
decreasing_by
  have hspace : 0 < logfs.remainingSpace := by
    have := Nat.mod_lt logfs.size (show 0 < blockSize by decide)
    rw [remainingSpace]
    omega
  split <;> omega

/-- `logfs_append`. -/
def append (logfs : Logfs) (buf : List UInt8) : Logfs := logfs.appendLoop buf buf.length

/-! ## Reading -/

/-- `read_from_device`, into the data of a block. -/
def readFromDevice (logfs : Logfs) (off : ℕ) (data : List UInt8) : List UInt8 :=
  memcpy data 0 ((List.range logfs.deviceBlock).map fun j =>
    logfs.device (logfs.deviceBlock * (off / logfs.deviceBlock) + j))

/-- The search of the read cache. A block that is found is read again. -/
def refresh (id : ℕ) (f : List UInt8 → List UInt8) :
    List LogfsBlock → Option (List LogfsBlock × List UInt8)
  | [] => none
  | block :: rest =>
    if block.id = id then some ({ block with data := f block.data } :: rest, f block.data)
    else (refresh id f rest).map fun r => (block :: r.1, r.2)

/-- In `logfs_read`, a block is read, and bytes are copied from it. -/
def readBlock (logfs : Logfs) (off len : ℕ) : Logfs × List UInt8 :=
  let id := off / logfs.deviceBlock
  match refresh id (logfs.readFromDevice off) logfs.rcache with
  | some (rcache, data) =>
    ({ logfs with rcache := rcache }, (data.drop (off % logfs.deviceBlock)).take len)
  | none =>
    let data := logfs.readFromDevice off (createNewBlock id).data
    ({ logfs with rcache := ⟨id, data, logfs.deviceBlock⟩ :: logfs.rcache },
      (data.drop (off % logfs.deviceBlock)).take len)

/-! ## Writing -/

/-- `write_to_device`. -/
def writeToDevice (logfs : Logfs) (current : LogfsBlock) : Logfs :=
  { logfs with
    device := fun j =>
      if current.id * blockSize ≤ j ∧ j < current.id * blockSize + blockSize then
        current.data.getD (j - current.id * blockSize) 0
      else logfs.device j }

/-- The body of the loop of `worker_thread_function`. -/
def writeNext (logfs : Logfs) (current : LogfsBlock) : Logfs :=
  { logfs.writeToDevice current with size := logfs.size + current.size }

/-- The worker writes the blocks of the write cache and counts their bytes again. -/
def writeBlocks (logfs : Logfs) : Logfs := logfs.wcache.foldl writeNext { logfs with size := 0 }

end Logfs

/-! ## The threads -/

/-- What the last call of the client returned. -/
inductive Return
  | opened
  | append
  | read (off len : ℕ) (buf : List UInt8)
  deriving DecidableEq, Repr

/-- The points at which the client is: between two calls, before the lock of a call, waiting on
`rcache_cond` or woken from it. -/
inductive ClientPc
  | idle (ret : Return)
  | append (buf : List UInt8)
  | read (off len : ℕ)
  | readWait (off len : ℕ)
  | readWoken (off len : ℕ)
  deriving DecidableEq, Repr

/-- The points at which the worker is: before it unlocks the mutexes that `logfs_open` has locked,
before the lock of `wcache_mutex`, waiting on `wcache_cond` or woken from it, and before the lock of
`rcache_mutex`. -/
inductive WorkerPc
  | unlockRcache
  | unlockWcache
  | lockWcache
  | wait
  | woken
  | lockRcache
  deriving DecidableEq, Repr

/-- The log and the two threads. The size that the worker counted last is recorded. -/
structure State where
  logfs : Logfs
  counted : ℕ
  client : ClientPc
  worker : WorkerPc

namespace State

/-- The state after `logfs_open`. -/
def start (deviceBlock : ℕ) (device : ℕ → UInt8) : State :=
  ⟨logfsOpen deviceBlock device, 0, .idle .opened, .unlockRcache⟩

/-- `wcache_mutex` is locked: by `logfs_open`, or by the worker that was woken. -/
def WcacheLocked (s : State) : Prop :=
  s.worker = .unlockRcache ∨ s.worker = .unlockWcache ∨ s.worker = .lockRcache

/-- `rcache_mutex` is locked by `logfs_open`. -/
def RcacheLocked (s : State) : Prop := s.worker = .unlockRcache

instance (s : State) : Decidable s.WcacheLocked := inferInstanceAs (Decidable (_ ∨ _))

instance (s : State) : Decidable s.RcacheLocked := inferInstanceAs (Decidable (_ = _))

/-- `pthread_cond_signal(&wcache_cond)`. -/
def signalWcache (s : State) : State :=
  match s.worker with
  | .wait => { s with worker := .woken }
  | _ => s

/-- `pthread_cond_signal(&rcache_cond)`. -/
def signalRcache (s : State) : State :=
  match s.client with
  | .readWait off len => { s with client := .readWoken off len }
  | _ => s

/-- The end of `logfs_read`. -/
def readEnd (s : State) (off len : ℕ) : State :=
  { s with
    logfs := (s.logfs.readBlock off len).1
    client := .idle (.read off len (s.logfs.readBlock off len).2) }

end State

/-- A step of the client inside a call, `none` if it is blocked. -/
def clientStep (s : State) : Option State :=
  match s.client with
  | .idle _ => none
  | .append buf =>
    if s.WcacheLocked then none
    else some (State.signalWcache
      { s with logfs := s.logfs.append buf, client := .idle .append })
  | .read off len =>
    if s.RcacheLocked then none
    else if off + len > s.logfs.size then
      some (State.signalWcache { s with client := .readWait off len })
    else some (s.readEnd off len)
  | .readWait _ _ => none
  | .readWoken off len => if s.RcacheLocked then none else some (s.readEnd off len)

/-- A step of the worker, `none` if it is blocked. -/
def workerStep (s : State) : Option State :=
  match s.worker with
  | .unlockRcache => some { s with worker := .unlockWcache }
  | .unlockWcache => some { s with worker := .lockWcache }
  | .lockWcache => some { s with worker := .wait }
  | .wait => none
  | .woken => some { s with worker := .lockRcache }
  | .lockRcache =>
    some (State.signalRcache
      { s with
        logfs := s.logfs.writeBlocks
        counted := s.logfs.writeBlocks.size
        worker := .lockWcache })

/-- A spurious wake-up from a condition variable. -/
inductive WakeUp
  | client
  | worker
  deriving DecidableEq, Repr

/-- The thread that wakes up has waited. -/
def wakeUpStep (s : State) : WakeUp → Option State
  | .client =>
    match s.client with
    | .readWait off len => some { s with client := .readWoken off len }
    | _ => none
  | .worker =>
    match s.worker with
    | .wait => some { s with worker := .woken }
    | _ => none

/-- The labels of the steps: the calls of the client, and the steps of the threads. -/
inductive Action
  | append (buf : List UInt8)
  | read (off len : ℕ)
  | client
  | worker
  | spurious (wakeUp : WakeUp)
  deriving DecidableEq, Repr

/-- The client begins a call. -/
def State.call (s : State) (client : ClientPc) : Option State :=
  match s.client with
  | .idle _ => some { s with client := client }
  | _ => none

/-- The steps of the system. -/
def step (s : State) : Action → Option State
  | .append buf => s.call (.append buf)
  | .read off len => s.call (.read off len)
  | .client => clientStep s
  | .worker => workerStep s
  | .spurious wakeUp => wakeUpStep s wakeUp

end Cs238p.P4Alt
