import Cs238p.P4.LogfsFlush

set_option relaxedAutoImplicit false
set_option autoImplicit false

/-!
# Where the log accesses its device

Blocks of the log are written where the log is continued, and a flush writes one block more than the
full ones, of which at least one byte is padding. So a flush of a log that fills its device writes
behind the end of the device.

## Main definitions

* `Engaged` — the invariant: the log is in the ring and on the device, and what was known of the
  arguments of a call when it began is still known.
* `AccessInRange` — the accesses of a step are aligned and inside the device.
* `ReadsWithin`, `FlushesBelow` — reads within the log; flushes of a log that does not fill the
  device.

## Main results

* `Engaged.step` — every step keeps the invariant, also one with a failing device access.
* `Engaged.write`, `Engaged.read` — where a block is written or read.
* `always_accessInRange` — every run.

## Implementation notes

The offsets are unbounded integers; `LogfsInts.lean` says for which runs those of the source are.
-/

namespace Cs238p.P4.Logfs

open RingLog Transition

/-! ## Calls -/

/-- The call that begins with a flush. -/
def Action.caller : Action → Option Caller
  | .read off len => some (.read off len)
  | .close => some .close
  | _ => none

/-- A call that begins with a flush meets a condition on the number of bytes appended so far. -/
def CallsMeet (P : ℕ → Caller → Prop) (x : State × List UInt8) (a : Action) : Prop :=
  ∀ caller, a.caller = some caller → P x.2.length caller

/-- The position of `logfs_read` in its loop, whatever it has read. -/
structure Reading.Positioned (B : ℕ) (r : Reading) : Prop where
  le : r.readTillNow ≤ r.len
  position : r.readTillNow < r.len → r.blockId * B + r.readStartOff = (r.off + r.readTillNow : ℕ)
  start_lt : r.readStartOff < B
  lenToRead : r.lenToRead = min (B - r.readStartOff) (r.len - r.readTillNow)

/-- What is known of the call of the client, of `n` bytes appended so far. While it reads, less than
a block is left to write. -/
def ClientPc.Engaged (P : ℕ → Caller → Prop) (B n : ℕ) (logfs : Logfs) : ClientPc → Prop
  | .flushLock caller | .flushWait _ caller | .flushWoken _ caller => P n caller
  | .read r => P n (.read r.off r.len) ∧ r.Positioned B ∧ logfs.writeBufferFilled < B
  | _ => True

/-- The invariant of the runs in which no flush is early. A failing `device_write` ends the worker,
and nobody gets the mutex again. -/
inductive Engaged (P : ℕ → Caller → Prop) (B : ℕ) (x : State × List UInt8) : Prop
  | alive (carries : Carries B x.1 x.2) (locks : Locks x.1)
    (client : x.1.client.Engaged P B x.2.length x.1.logfs)
  | dead (dead : Dead x.1) (client : ∀ r, x.1.client ≠ .read r)

variable {P : ℕ → Caller → Prop} {B n S : ℕ} {s s' : State} {bytes : List UInt8} {a : Action}
  {logfs logfs' : Logfs} {r : Reading}

lemma positioned_begin (hB : 0 < B) (off len : ℕ) : (Reading.begin B off len).Positioned B := by
  have h := readProgress_begin hB (logfsOpen B fun _ => 0) off len
  exact ⟨h.le, h.position, h.start_lt, h.lenToRead⟩

/-- A round of the loop moves to the next block. -/
lemma Reading.Positioned.next (h : r.Positioned B) (hlt : r.readTillNow < r.len)
    (block : List UInt8) : (r.next B block).Positioned B := by
  let logfs := logfsOpen B fun _ => 0
  have hprogress : ReadProgress B logfs
      { r with buf := logfs.deviceRead r.off r.readTillNow } :=
    ⟨h.le, rfl, h.position, h.start_lt, h.lenToRead⟩
  have hnext := hprogress.next hlt
  exact ⟨hnext.le, hnext.position, hnext.start_lt, hnext.lenToRead⟩

lemma engaged_start (hB : 0 < B) (device : ℤ → UInt8) :
    Engaged P B (State.start B device, []) :=
  .alive (carries_start hB device) (locks_start B device) trivial

/-! ## Steps -/

/-- A step of the client keeps what is known of its call. -/
lemma ClientPc.Engaged.clientStep {outcome : ReadOutcome} (hB : 0 < B)
    (hsize : s.logfs.blockSize = B) (h : s.client.Engaged P B n s.logfs)
    (hs : Logfs.clientStep s outcome = some s') : s'.client.Engaged P B n s'.logfs := by
  cases clientStep_eq_some_iff.mp hs with
  | appendByte logfs mutex worker b rest hroom =>
    rw [signalItemAvail_client]
    trivial
  | flushLock logfs worker caller =>
    rw [signalItemAvail_client]
    exact h
  | flushWoken logfs worker distance caller =>
    rw [show logfs.blockSize = B from hsize]
    cases caller with
    | close => trivial
    | read off len =>
      refine ⟨h, positioned_begin hB off len, ?_⟩
      show (logfs.head - distance).tmod logfs.blockSize < B
      rw [show logfs.blockSize = B from hsize]
      exact Int.tmod_lt_of_pos _ (by omega)
  | readCached logfs mutex worker r hlt hcached =>
    obtain ⟨hcall, hposition, hless⟩ := h
    rw [show logfs.blockSize = B from hsize]
    exact ⟨hcall, hposition.next hlt _, hless⟩
  | readBlock logfs mutex worker r hlt huncached =>
    obtain ⟨hcall, hposition, hless⟩ := h
    rw [show (logfs.readBlock r.blockId).blockSize = B from hsize]
    exact ⟨hcall, hposition.next hlt _, hless⟩
  | closeSignal logfs mutex worker =>
    rw [signalItemAvail_client]
    trivial
  | _ => trivial

/-- A step of the worker keeps what is known of the call of the client. -/
lemma ClientPc.Engaged.workerStep {ok : Bool} (hsize : s.logfs.blockSize = B)
    (h : s.client.Engaged P B n s.logfs) (hs : Logfs.workerStep s ok = some s') :
    s'.client.Engaged P B n s'.logfs := by
  -- The client does not read when a block is written.
  have hwrite (hfull : ¬ s.logfs.writeBufferFilled < s.logfs.blockSize) (logfs' : Logfs) :
      s.client.Engaged P B n logfs' := by
    rw [hsize] at hfull
    revert h
    cases s.client with
    | read r => exact fun h => absurd h.2.2 hfull
    | _ => exact id
  cases workerStep_eq_some_iff.mp hs with
  | write logfs mutex client hfull hdrained => exact hwrite hfull _
  | drain logfs mutex client hfull hdrained =>
    have hafter := hwrite hfull logfs.writeBlock
    rw [signalFlush_logfs]
    unfold State.signalFlush
    split
    · next hclient =>
      simp only at hclient hafter
      rw [hclient] at hafter
      exact hafter
    · exact hafter
  | fail logfs mutex client hfull => exact hwrite hfull _
  | _ => exact h

/-- Nobody begins to read when the mutex is locked for ever. -/
lemma Dead.client_ne_read (h : Dead s) (hclient : ∀ r, s.client ≠ .read r)
    (hs : Logfs.step s a = some s') (r : Reading) : s'.client ≠ .read r := by
  obtain ⟨hworker, hmutex, happend⟩ := h
  cases a with
  | client outcome =>
    cases clientStep_eq_some_iff.mp hs with
    | flushWoken logfs worker distance caller => simp at hmutex
    | readCached logfs mutex worker r' hlt hcached => exact absurd rfl (hclient r')
    | readBlock logfs mutex worker r' hlt huncached => exact absurd rfl (hclient r')
    | _ => simp
  | worker ok => simp [Logfs.step, Logfs.workerStep, hworker] at hs
  | spurious thread =>
    cases spuriousStep_eq_some_iff.mp hs with
    | item logfs mutex client => exact hclient r
    | _ => simp
  | _ =>
    obtain ⟨-, rfl⟩ := call_eq_some_iff.mp hs
    simp

/-- The size of a block does not change. -/
lemma Carries.blockSize (h : Carries B s bytes) : s.logfs.blockSize = B := by
  obtain ⟨log, f, d, hring, -, -⟩ := h
  exact hring.blockSize

lemma Carries.pos (h : Carries B s bytes) : 0 < B := by
  obtain ⟨log, f, d, hring, -, -⟩ := h
  exact hring.pos

/-- **Every step** keeps the invariant unless it ends a flush early. -/
theorem Engaged.step {x x' : State × List UInt8} (h : Engaged P B x) (hearly : NotEarly x.1 a)
    (hcall : CallsMeet P x a) (hs : loggedStep x a = some x') : Engaged P B x' := by
  obtain ⟨s, bytes⟩ := x
  obtain ⟨s', hs', rfl⟩ := Option.map_eq_some_iff.mp hs
  cases h with
  | dead hdead hclient => exact .dead (hdead.step hs') (hdead.client_ne_read hclient hs')
  | alive hcarries hlocks hclient =>
    have hsize := hcarries.blockSize
    by_cases ha : a = .worker false
    · subst ha
      by_cases hwrite : s.worker = .inner ∧ ¬ s.logfs.writeBufferFilled < s.logfs.blockSize
      · have hdead := hlocks.dead hwrite.1 hwrite.2 hs'
        refine .dead hdead fun r hr => ?_
        -- The worker does not move the client, and the client does not read.
        have hmove : s'.client = s.client := by
          cases workerStep_eq_some_iff.mp hs' <;> rfl
        rw [hmove] at hr
        rw [hr] at hclient
        rw [hsize] at hwrite
        exact hwrite.2 hclient.2.2
      · have heq : Logfs.workerStep s false = Logfs.workerStep s true :=
          workerStep_eq_true fun _ hinner => not_not.mp fun hfull => hwrite ⟨hinner, hfull⟩
        have hs'' : Logfs.workerStep s true = some s' := heq ▸ hs'
        rw [show (Action.worker false).bytes = [] from rfl, List.append_nil]
        exact .alive (hcarries.workerStep hs'') (hlocks.workerStep hs'')
          (hclient.workerStep hsize hs')
    · refine .alive (hcarries.step ha hearly hs') (hlocks.step ha hs') ?_
      cases a with
      | append buf =>
        obtain ⟨-, rfl⟩ := call_eq_some_iff.mp hs'
        trivial
      | read off len =>
        obtain ⟨-, rfl⟩ := call_eq_some_iff.mp hs'
        rw [show (Action.read off len).bytes = [] from rfl, List.append_nil]
        exact hcall _ rfl
      | close =>
        obtain ⟨-, rfl⟩ := call_eq_some_iff.mp hs'
        rw [show Action.close.bytes = [] from rfl, List.append_nil]
        exact hcall _ rfl
      | client outcome =>
        rw [show (Action.client outcome).bytes = [] from rfl, List.append_nil]
        exact hclient.clientStep hcarries.pos hsize hs'
      | worker ok =>
        rw [show (Action.worker ok).bytes = [] from rfl, List.append_nil]
        exact hclient.workerStep hsize hs'
      | spurious thread =>
        rw [show (Action.spurious thread).bytes = [] from rfl, List.append_nil]
        cases spuriousStep_eq_some_iff.mp hs' <;> exact hclient

/-! ## Accesses -/

/-- **Where a block is written**: it is a full block of the log, or the last block of the log padded
by a flush. -/
theorem Engaged.write {x : State × List UInt8} (h : Engaged P B x) (hinner : x.1.worker = .inner)
    (hfull : ¬ x.1.logfs.writeBufferFilled < x.1.logfs.blockSize) :
    ∃ f : ℕ, x.1.logfs.fileOffset = (B * f : ℕ) ∧ (B * f + B ≤ x.2.length ∨
      ∃ caller, P x.2.length caller ∧ B * f + B ≤ B * (x.2.length / B + 1)) := by
  obtain ⟨s, bytes⟩ := x
  cases h with
  | dead hdead hclient =>
    have := hdead.worker.symm.trans hinner
    simp at this
  | alive hcarries hlocks hclient =>
    obtain ⟨log, f, d, hring, hpad, hbytes⟩ := hcarries
    simp only at hring hpad hbytes hclient hfull
    have hfilled : s.logfs.writeBufferFilled = (log.length + d : ℕ) - (B * f : ℕ) := hring.filled
    rw [show s.logfs.blockSize = B from hring.blockSize] at hfull
    refine ⟨f, hring.fileOffset, ?_⟩
    have hwaits (caller : Caller) (hcaller : P bytes.length caller) (hd : d = padding B log.length)
        (hrest : s.client.rest = []) : ∃ caller, P bytes.length caller ∧
          B * f + B ≤ B * (bytes.length / B + 1) := by
      rw [hrest, List.append_nil] at hbytes
      subst hbytes hd
      have hend := add_padding (n := bytes.length) hring.pos
      exact ⟨caller, hcaller, by omega⟩
    have hplain (hd : d = 0) : B * f + B ≤ bytes.length := by
      rw [hbytes, List.length_append]
      omega
    cases hc : s.client <;> rw [hc] at hclient hpad
    case flushWait distance caller => exact .inr (hwaits caller hclient hpad.1 (by rw [hc]; rfl))
    case flushWoken distance caller => exact .inr (hwaits caller hclient hpad.1 (by rw [hc]; rfl))
    all_goals exact .inl (hplain hpad)

/-- **Where a block is read**: it is one of the blocks of the bytes that are asked for. -/
theorem Engaged.read {x : State × List UInt8} (h : Engaged P B x) (hr : x.1.client = .read r)
    (hlt : r.readTillNow < r.len) :
    P x.2.length (.read r.off r.len) ∧ ∃ b : ℕ, r.blockId = b ∧ r.off / B ≤ b ∧
      b * B < r.off + r.len := by
  obtain ⟨s, bytes⟩ := x
  cases h with
  | dead hdead hclient => exact absurd hr (hclient r)
  | alive hcarries hlocks hclient =>
    have hB := hcarries.pos
    rw [hr] at hclient
    obtain ⟨hcall, hposition, -⟩ := hclient
    refine ⟨hcall, ?_⟩
    have hpos := hposition.position hlt
    have hstart := hposition.start_lt
    -- The number of the block is not negative, since its start is less than a block before.
    have hnonneg : 0 ≤ r.blockId := by
      by_contra hneg
      have hmul := Int.mul_le_mul_of_nonneg_right (show r.blockId ≤ -1 by omega)
        (Int.natCast_nonneg B)
      omega
    obtain ⟨b, hb⟩ := Int.eq_ofNat_of_zero_le hnonneg
    rw [hb, ← Int.natCast_mul, ← Int.natCast_add, Int.natCast_inj] at hpos
    refine ⟨b, hb, ?_, by omega⟩
    have hle : r.off < (b + 1) * B := by
      rw [Nat.add_mul, Nat.one_mul]
      omega
    exact Nat.lt_succ_iff.mp (Nat.div_lt_of_lt_mul (by rwa [Nat.mul_comm]))

/-- The assertions of `device_read` and `device_write` about their arguments: `len` bytes at an
aligned offset are inside a device of `size` bytes. A negative offset becomes a large one. -/
def InRange (size block : ℕ) (off : ℤ) : Prop :=
  (block : ℤ) ∣ off ∧ 0 ≤ off ∧ off + block ≤ size

/-- The accesses of a step to a device of `size` bytes meet the assertions: that of the worker,
which writes a block if there is one, and that of a client that reads a block that is not cached. -/
def AccessInRange (size : ℕ) (s : State) (a : Action) : Prop :=
  match a with
  | .worker _ => s.worker = .inner → ¬ s.logfs.writeBufferFilled < s.logfs.blockSize →
      InRange size s.logfs.blockSize s.logfs.fileOffset
  | .client _ => ∀ r, s.client = .read r → r.readTillNow < r.len → ¬ s.logfs.Cached r.blockId →
      InRange size s.logfs.blockSize (r.blockId * s.logfs.blockSize)
  | _ => True

/-- `logfs_read` is called for bytes that were appended. -/
def ReadsWithin (x : State × List UInt8) : Action → Prop
  | .read off len => off + len ≤ x.2.length
  | _ => True

instance (x : State × List UInt8) : DecidablePred (ReadsWithin x)
  | .read off len => inferInstanceAs (Decidable (off + len ≤ x.2.length))
  | .append _ | .close | .client _ | .worker _ | .spurious _ => .isTrue trivial

/-- `logfs_read` and `logfs_close` are called while the log does not fill the device. -/
def FlushesBelow (size : ℕ) (x : State × List UInt8) : Action → Prop
  | .read _ _ | .close => x.2.length < size
  | _ => True

instance (size : ℕ) (x : State × List UInt8) : DecidablePred (FlushesBelow size x)
  | .read _ _ | .close => inferInstanceAs (Decidable (x.2.length < size))
  | .append _ | .client _ | .worker _ | .spurious _ => .isTrue trivial

/-- What is known of a call of `n` bytes appended so far. -/
def Within (size n : ℕ) (caller : Caller) : Prop :=
  n < size ∧ ∀ off len, caller = .read off len → off + len ≤ n

lemma callsMeet_within {x : State × List UInt8} (hreads : ReadsWithin x a)
    (hflushes : FlushesBelow S x a) : CallsMeet (Within S) x a := by
  intro caller hcaller
  cases a with
  | read off len =>
    obtain rfl := Option.some.inj hcaller
    refine ⟨hflushes, fun off' len' heq => ?_⟩
    obtain ⟨rfl, rfl⟩ := Caller.read.inj heq
    exact hreads
  | close =>
    obtain rfl := Option.some.inj hcaller
    exact ⟨hflushes, by simp⟩
  | _ => simp [Action.caller] at hcaller

/-- **The accesses of a step** to a device of `m` blocks. -/
lemma Engaged.accessInRange {m : ℕ} {x : State × List UInt8} (h : Engaged (Within (B * m)) B x)
    (hlen : x.2.length ≤ B * m) (hsize : x.1.logfs.blockSize = B) (a : Action) :
    AccessInRange (B * m) x.1 a := by
  cases a with
  | worker ok =>
    intro hinner hfull
    obtain ⟨f, hoff, hle⟩ := h.write hinner hfull
    have hend : B * f + B ≤ B * m := by
      rcases hle with hle | ⟨caller, ⟨hlt, -⟩, hle⟩
      · omega
      · have hdiv : x.2.length / B + 1 ≤ m := Nat.div_lt_of_lt_mul hlt
        exact hle.trans (Nat.mul_le_mul_left B hdiv)
    rw [hsize, hoff]
    exact ⟨⟨f, Int.natCast_mul B f⟩, Int.natCast_nonneg _, by omega⟩
  | client outcome =>
    intro r hr hlt huncached
    obtain ⟨⟨hbelow, hwithin⟩, b, hb, -, hlt'⟩ := h.read hr hlt
    have hbytes := hwithin _ _ rfl
    have hblock : b + 1 ≤ m := by
      apply Nat.lt_of_mul_lt_mul_left (a := B)
      rw [Nat.mul_comm]
      omega
    have hend : B * (b + 1) ≤ B * m := Nat.mul_le_mul_left B hblock
    rw [Nat.mul_succ] at hend
    rw [hsize, hb, ← Int.natCast_mul, Nat.mul_comm b B]
    rw [Nat.mul_comm b B] at hlt'
    exact ⟨⟨b, Int.natCast_mul B b⟩, Int.natCast_nonneg _, by omega⟩
  | _ => trivial

/-- The bytes that are appended in a run are at most those of all its calls. -/
lemma always_length_le {x : State × List UInt8} {as : List Action}
    (h : (x.2 ++ appended as).length ≤ n) :
    Always loggedStep (fun x a => (x.2 ++ a.bytes).length ≤ n) x as := by
  induction as generalizing x with
  | nil => trivial
  | cons a as ih =>
    rw [appended, List.flatMap_cons, ← List.append_assoc] at h
    refine ⟨?_, fun x' hs => ?_⟩
    · rw [List.length_append] at h
      omega
    · obtain ⟨s', -, rfl⟩ := Option.map_eq_some_iff.mp hs
      exact ih h

/-- The size of a block does not change, whatever happens. -/
lemma blockSize_step (hs : Logfs.step s a = some s') : s'.logfs.blockSize = s.logfs.blockSize := by
  cases a with
  | client outcome =>
    cases clientStep_eq_some_iff.mp hs with
    | appendByte => rw [signalItemAvail_logfs]; rfl
    | flushLock => rw [signalItemAvail_logfs]; rfl
    | closeSignal => rw [signalItemAvail_logfs]
    | _ => rfl
  | worker ok =>
    cases workerStep_eq_some_iff.mp hs with
    | write logfs mutex client hfull hdrained => exact blockSize_writeBlock logfs
    | drain logfs mutex client hfull hdrained =>
      rw [signalFlush_logfs]
      exact blockSize_writeBlock logfs
    | fail logfs mutex client hfull => exact blockSize_invalidate logfs
    | _ => rfl
  | spurious thread => cases spuriousStep_eq_some_iff.mp hs <;> rfl
  | _ =>
    obtain ⟨-, rfl⟩ := call_eq_some_iff.mp hs
    rfl

/-- **The accesses to the device are aligned and in range** in every run that appends no more than
the device holds, reads what was appended and calls `logfs_read` and `logfs_close` while the log
does not fill the device, as long as no flush is ended early by a spurious wake-up.

**Proof sketch.** The blocks of the log are at the multiples of the block size. The block behind the
full ones is written by a flush only, and then at least one byte of it is on the device. -/
theorem always_accessInRange (B m : ℕ) (hB : 0 < B) (device : ℤ → UInt8) (as : List Action)
    (hlen : (appended as).length ≤ B * m)
    (hreads : Always loggedStep ReadsWithin (State.start B device, []) as)
    (hflushes : Always loggedStep (FlushesBelow (B * m)) (State.start B device, []) as)
    (hearly : Always loggedStep (fun x a => NotEarly x.1 a) (State.start B device, []) as) :
    Always loggedStep (fun x a => AccessInRange (B * m) x.1 a) (State.start B device, []) as := by
  have hbytes : Always loggedStep (fun x a => (x.2 ++ a.bytes).length ≤ B * m)
      (State.start B device, []) as := always_length_le hlen
  refine Always.imp_of_invariant (I := fun x => Engaged (Within (B * m)) B x ∧
    x.2.length ≤ B * m ∧ x.1.logfs.blockSize = B) ?_ ?_ ?_
    ((hreads.and hflushes).and (hearly.and hbytes))
  · rintro x a x' ⟨h, -, hsize⟩ ⟨⟨hreads, hflushes⟩, hearly, hbytes⟩ hs
    refine ⟨h.step hearly (callsMeet_within hreads hflushes) hs, ?_⟩
    obtain ⟨s', hs', rfl⟩ := Option.map_eq_some_iff.mp hs
    exact ⟨hbytes, (blockSize_step hs').trans hsize⟩
  · rintro x a ⟨h, hlen, hsize⟩ -
    exact h.accessInRange hlen hsize a
  · exact ⟨engaged_start hB device, Nat.zero_le _, rfl⟩

/-- Two bytes are appended to a log with blocks of two bytes, and the log is closed. -/
def fullRun : List Action :=
  [.append [7, 8], .client .ok, .client .ok, .client .ok, .client .ok, .close, .client .ok] ++
    List.replicate 4 (.worker true)

/-- On a device of one block, closing the log writes behind its end: the log fills the device, and
the flush pads it with a block. -/
theorem fullRun_not_inRange :
    ¬ ∀ (B m : ℕ), 0 < B → ∀ (device : ℤ → UInt8) (as : List Action),
      (appended as).length ≤ B * m →
      Always loggedStep ReadsWithin (State.start B device, []) as →
      Always loggedStep (fun x a => AccessInRange (B * m) x.1 a) (State.start B device, []) as := by
  intro h
  have hruns : ((run loggedStep (State.start 2 fun _ => 0, []) fullRun).map fun x =>
      (x.1.worker, x.1.logfs.writeBufferFilled, x.1.logfs.blockSize, x.1.logfs.fileOffset)) =
      some (.inner, 2, 2, 2) := by decide +kernel
  obtain ⟨x, hrun, hx⟩ := Option.map_eq_some_iff.mp hruns
  simp only [Prod.mk.injEq] at hx
  obtain ⟨hworker, hfilled, hsize, hoff⟩ := hx
  have hlast := (h 2 1 (by decide) (fun _ => 0) (fullRun ++ [.worker true]) (by decide)
    (by decide +kernel)).last hrun
  obtain ⟨-, -, hle⟩ := hlast hworker (by rw [hfilled, hsize]; decide)
  rw [hoff, hsize] at hle
  exact absurd hle (by decide)

end Cs238p.P4.Logfs
