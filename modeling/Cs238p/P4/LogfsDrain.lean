import Cs238p.P4.LogfsMoves
import Cs238p.P4.LogfsRing
import Cs238p.Lib.Transition

set_option relaxedAutoImplicit false
set_option autoImplicit false

/-!
# A flush from every position of the ring

`flush_to_disk` moves the head to the end of its block, lets the worker write, and then undoes the
padding. From every position of the head and the tail, and every number of bytes between them, the
ring is left in one normal form: the tail at the start of the head's block.

## Main definitions

* `RingState` — the positions of a ring.
* `pending` — the bytes of the ring that wait to be written.
* `NormalForm` — the normal form, in terms of the ring before the flush.
* `Draining` — the ring after the worker has written some blocks of the padded ring.
* `Flushing` — the states of the two threads while the client is in `flush_to_disk`.

## Main results

* `Layout.ringState` — a log between its calls has such a ring.
* `Draining.writeBlock`, `Draining.normalForm` — a block is written, and the padding undone.
* `Flushing.workerStep`, `Flushing.worker_waits` — the worker goes on until the padded block is
  written, and then it waits.
* `flush_normalForm` — the flush ends, and it ends in the normal form.

## Implementation notes

The worker owns the mutex from its first block to its last. It may signal `flush` before the last
one: in a full ring whose head is at the start of a block, the padding adds a whole block, and the
tail meets the head after the first block already. The client then has to wait for the mutex.
-/

namespace Cs238p.P4.Logfs

open Transition

/-! ## The ring before and after a flush -/

/-- The positions of a ring: the tail is at the start of a block, and the number of bytes that wait
fits to the tail and the head. -/
structure RingState (B : ℕ) (logfs : Logfs) : Prop where
  pos : 0 < B
  blockSize : logfs.blockSize = B
  head_nonneg : 0 ≤ logfs.head
  head_lt : logfs.head < ringSize B
  tail_nonneg : 0 ≤ logfs.tail
  tail_lt : logfs.tail < ringSize B
  dvd_tail : (B : ℤ) ∣ logfs.tail
  filled_nonneg : 0 ≤ logfs.writeBufferFilled
  filled_le : logfs.writeBufferFilled ≤ ringSize B
  filled_emod : logfs.writeBufferFilled % ringSize B = (logfs.head - logfs.tail) % ringSize B

/-- The next bytes of the ring, from its tail on. -/
def ringBytes (logfs : Logfs) (len : ℕ) : List UInt8 :=
  (List.range len).map fun i : ℕ =>
    logfs.writeBuffer ((logfs.tail + i).tmod logfs.writeBufferSize)

/-- The bytes of the ring that wait to be written. -/
def pending (logfs : Logfs) : List UInt8 := logfs.ringBytes logfs.writeBufferFilled.toNat

/-- The bytes of the ring in `[tail, head)`. -/
def unflushed (logfs : Logfs) : List UInt8 :=
  (List.range (logfs.head - logfs.tail).toNat).map fun i : ℕ => logfs.writeBuffer (logfs.tail + i)

/-- The number of bytes in the whole blocks of the ring. -/
def wholeBytes (B : ℕ) (logfs : Logfs) : ℤ := logfs.writeBufferFilled / B * B

/-- The log after a flush: the whole blocks that waited are on the device, the rest is in the
head's block. -/
structure NormalForm (B : ℕ) (old new : Logfs) : Prop where
  head : new.head = old.head
  tail : new.tail = old.head - old.head % B
  filled : new.writeBufferFilled = old.head % B
  fileOffset : new.fileOffset = old.fileOffset + old.wholeBytes B
  unflushed : new.unflushed = old.pending.drop (old.wholeBytes B).toNat
  written : new.deviceRead old.fileOffset (old.wholeBytes B).toNat =
    old.pending.take (old.wholeBytes B).toNat

variable {B f n j : ℕ} {old logfs : Logfs} {caller : Caller} {s s' t : State}
  {log : List UInt8}

/-- A log between its calls is in such a state. -/
theorem Layout.ringState (h : Layout B logfs log f 0) : RingState B logfs where
  pos := h.pos
  blockSize := h.blockSize
  head_nonneg := by rw [h.head]; exact Int.natCast_nonneg _
  head_lt := by
    have hlt := Nat.mod_lt log.length (Nat.lt_trans h.pos (lt_ringSize h.pos))
    rw [h.head, Nat.add_zero]
    exact Int.ofNat_lt.mpr hlt
  tail_nonneg := by rw [h.tail]; exact Int.natCast_nonneg _
  tail_lt := by
    have hle := mul_mod_ringSize_add_le B f
    have hpos := h.pos
    rw [h.tail]
    omega
  dvd_tail := by
    rw [h.tail, mul_mod_ringSize]
    exact Int.natCast_dvd_natCast.mpr (Nat.dvd_mul_right B _)
  filled_nonneg := by
    have hle := h.le
    rw [h.filled]
    omega
  filled_le := by
    have hroom := h.room
    rw [h.filled]
    omega
  filled_emod := by
    rw [h.filled, h.head, h.tail, Nat.add_zero, Nat.add_zero, Int.natCast_emod, Int.natCast_emod,
      ← Int.sub_emod]

/-- The positions in natural numbers: the end of the log is `n` bytes behind the tail. -/
structure Positions (B f n : ℕ) (logfs : Logfs) : Prop where
  pos : 0 < B
  blockSize : logfs.blockSize = B
  lt : B * f < ringSize B
  le : n ≤ ringSize B
  tail : logfs.tail = (B * f : ℕ)
  filled : logfs.writeBufferFilled = n
  head : logfs.head = ((B * f + n) % ringSize B : ℕ)

lemma RingState.exists_positions (h : RingState B logfs) : ∃ f n, Positions B f n logfs := by
  obtain ⟨n, hn⟩ := Int.eq_ofNat_of_zero_le h.filled_nonneg
  obtain ⟨t, ht⟩ := Int.eq_ofNat_of_zero_le h.tail_nonneg
  obtain ⟨f, rfl⟩ : B ∣ t := by
    have hdvd := h.dvd_tail
    rw [ht] at hdvd
    exact Int.natCast_dvd_natCast.mp hdvd
  have hlt := h.tail_lt
  have hle := h.filled_le
  refine ⟨f, n, h.pos, h.blockSize, by omega, by omega, ht, hn, ?_⟩
  have hhead : logfs.head = (logfs.tail + logfs.writeBufferFilled) % ringSize B := by
    rw [Int.add_emod, h.filled_emod, ← Int.add_emod,
      show logfs.tail + (logfs.head - logfs.tail) = logfs.head by omega]
    exact (Int.emod_eq_of_lt h.head_nonneg h.head_lt).symm
  rw [hhead, ht, hn, ← Int.natCast_add, ← Int.natCast_emod]

/-! ## The worker -/

/-- The ring after the padding, and after `j` blocks of it were written. -/
structure Draining (B f n : ℕ) (old : Logfs) (j : ℕ) (logfs : Logfs) : Prop where
  blockSize : logfs.blockSize = B
  running : logfs.exitWorkerThread = false
  head : logfs.head = ((B * f + n) % ringSize B + padding B (B * f + n) : ℕ)
  tail : logfs.tail = (B * (f + j) % ringSize B : ℕ)
  filled : logfs.writeBufferFilled = (B * (n / B + 1) : ℕ) - (B * j : ℕ)
  fileOffset : logfs.fileOffset = old.fileOffset + (B * j : ℕ)
  writeBuffer : logfs.writeBuffer = old.writeBuffer
  written : ∀ i < B * j,
    logfs.device (old.fileOffset + i) = old.writeBuffer ((B * f + i) % ringSize B : ℕ)

/-- The padding depends on the bytes that wait only. -/
lemma padding_add (B f n : ℕ) : padding B (B * f + n) = padding B n := by
  rw [padding, padding, Nat.mul_add_mod]

/-- **The padding** fills the last of the bytes that wait to a whole block. -/
lemma Positions.pad (h : Positions B f n old) (hrun : old.exitWorkerThread = false) :
    old.distanceToMoveHead = padding B (B * f + n) ∧ Draining B f n old 0 old.pad := by
  obtain ⟨hpos, hsize, hlt, hle, htail, hfilled, hhead⟩ := h
  have hdistance := distanceToMoveHead_eq hpos hsize hhead
  refine ⟨hdistance, hsize, hrun, ?_, ?_, ?_, ?_, rfl, ?_⟩
  · rw [Logfs.pad, hdistance]
    simp only
    omega
  · rw [Nat.add_zero, Nat.mod_eq_of_lt hlt]
    exact htail
  · rw [Logfs.pad, hdistance, ← add_padding hpos, padding_add]
    simp only
    omega
  · rw [Nat.mul_zero, Int.natCast_zero, Int.add_zero]
    rfl
  · intro i hi
    omega

/-- **The loop of `write_to_disk`** writes the next block. -/
lemma Draining.writeBlock (h : Draining B f n old j logfs) :
    Draining B f n old (j + 1) logfs.writeBlock := by
  have hmul : B * (j + 1) = B * j + B := Nat.mul_succ B j
  obtain ⟨hsize, hrun, hhead, htail, hfilled, hoff, hbuffer, hwritten⟩ := h
  refine ⟨(blockSize_writeBlock _).trans hsize, (exitWorkerThread_writeBlock _).trans hrun,
    (head_writeBlock _).trans hhead, ?_, ?_, ?_, (writeBuffer_writeBlock _).trans hbuffer, ?_⟩
  · rw [tail_writeBlock, htail, writeBufferSize, hsize, ← Int.natCast_add, ← Int.ofNat_tmod,
      Nat.mod_add_mod, ← Nat.add_assoc f j 1, Nat.mul_succ B (f + j)]
  · rw [writeBufferFilled_writeBlock, hfilled, hsize]
    omega
  · rw [fileOffset_writeBlock, hoff, hsize]
    omega
  · intro i hi
    rw [device_writeBlock, hoff, hsize, htail, hbuffer]
    by_cases hi' : i < B * j
    · rw [if_neg (by omega)]
      exact hwritten i hi'
    · -- the block does not wrap around
      have hslot : (B * f + i) % ringSize B = B * (f + j) % ringSize B + (i - B * j) := by
        rw [show B * f + i = B * (f + j) + (i - B * j) by rw [Nat.mul_add]; omega]
        exact mul_add_mod_ringSize (by omega)
      rw [if_pos (by omega), hslot]
      congr 1
      omega

/-- The worker signals `flush` when it has written the padded block. -/
lemma Draining.drained (hB : 0 < B) (h : Draining B f n old (n / B + 1) logfs) :
    logfs.Drained := by
  refine drained_of_padded hB h.blockSize h.head ?_
  rw [h.tail, Nat.mul_add_div hB, Nat.add_assoc]

/-- A part of the bytes that wait. -/
lemma take_ringBytes (logfs : Logfs) {m k : ℕ} (h : k ≤ m) :
    (logfs.ringBytes m).take k = logfs.ringBytes k := by
  rw [ringBytes, ringBytes, ← List.map_take, List.take_range, Nat.min_eq_left h]

/-- The bytes that wait, without a part of them. -/
lemma drop_ringBytes (logfs : Logfs) {m k : ℕ} (h : k ≤ m) :
    (logfs.ringBytes m).drop k = (List.range (m - k)).map fun i : ℕ =>
      logfs.writeBuffer ((logfs.tail + (k + i : ℕ)).tmod logfs.writeBufferSize) := by
  obtain ⟨l, rfl⟩ := Nat.exists_eq_add_of_le h
  rw [ringBytes, List.range_add, List.map_append, List.map_map,
    List.drop_left' (by rw [List.length_map, List.length_range]), Nat.add_sub_cancel_left]
  rfl

/-- The slots of the bytes that wait. -/
lemma Positions.slot (h : Positions B f n logfs) (i : ℕ) :
    (logfs.tail + i).tmod logfs.writeBufferSize = ((B * f + i) % ringSize B : ℕ) := by
  rw [h.tail, writeBufferSize, h.blockSize, ← Int.natCast_add, ← Int.ofNat_tmod]

/-- **The end of `flush_to_disk`** leaves the normal form. -/
theorem Draining.normalForm (h : Draining B f n old (n / B + 1) logfs) (hp : Positions B f n old) :
    NormalForm B old (logfs.unpad (padding B (B * f + n))) := by
  have hdrained : logfs.tail = (B * ((B * f + n) / B + 1) % ringSize B : ℕ) := by
    rw [h.tail, Nat.mul_add_div hp.pos, Nat.add_assoc]
  obtain ⟨hhead, htail, hfilled⟩ := unpad_of_padded hp.pos h.blockSize h.head hdrained
  have hmod := mod_ringSize_mod B (B * f + n)
  have hmod' : (B * f + n) % B = n % B := Nat.mul_add_mod B f n
  have hdiv' := Nat.div_add_mod n B
  have hpos := hp.pos
  have hpending : old.pending = old.ringBytes n := by
    rw [pending, hp.filled, Int.toNat_natCast]
  have hwhole : old.wholeBytes B = (B * (n / B) : ℕ) := by
    rw [wholeBytes, hp.filled, ← Int.natCast_ediv, ← Int.natCast_mul, Nat.mul_comm]
  -- the start of the head's block
  have hstart : B * ((B * f + n) / B) % ringSize B + (B * f + n) % B =
      (B * f + n) % ringSize B := by
    rw [mul_mod_ringSize, ← mod_ringSize_div, ← hmod]
    exact Nat.div_add_mod _ _
  refine ⟨?_, ?_, ?_, ?_, ?_, ?_⟩
  · rw [hhead, hp.head]
  · rw [htail, hp.head, ← Int.natCast_emod, hmod]
    omega
  · rw [hfilled, hp.head, ← Int.natCast_emod, hmod]
  · rw [Logfs.unpad, hwhole]
    simp only
    rw [h.fileOffset, h.blockSize, Nat.mul_succ]
    omega
  · rw [hpending, hwhole, Int.toNat_natCast, drop_ringBytes _ (Nat.mul_div_le n B),
      Logfs.unflushed, hhead, htail]
    rw [show (((B * f + n) % ringSize B : ℕ) -
      (B * ((B * f + n) / B) % ringSize B : ℕ) : ℤ).toNat = n - B * (n / B) by omega]
    apply List.map_congr_left
    intro i hi
    have hlt : i < B := by
      have hmod_lt := Nat.mod_lt n hp.pos
      rw [List.mem_range] at hi
      omega
    show logfs.writeBuffer _ = _
    rw [h.writeBuffer, hp.slot, Nat.mul_add_div hp.pos, ← Nat.add_assoc,
      ← Nat.mul_add, mul_add_mod_ringSize hlt, Int.natCast_add]
  · rw [hpending, hwhole, Int.toNat_natCast, take_ringBytes _ (Nat.mul_div_le n B)]
    apply List.map_congr_left
    intro i hi
    rw [hp.slot]
    exact h.written i (Nat.lt_trans (List.mem_range.mp hi) (by rw [Nat.mul_succ]; omega))

/-! ## The two threads -/

/-- The states while the client is in `flush_to_disk`: the worker has not begun, or it writes and
the client waits for its signal or for the mutex, or the padded block is written. -/
inductive Flushing (B f n : ℕ) (old : Logfs) (caller : Caller) : State → Prop
  | padded (logfs : Logfs) (worker : WorkerPc) (hworker : worker = .start ∨ worker = .wokenItem)
      (h : Draining B f n old 0 logfs) :
    Flushing B f n old caller ⟨logfs, none, .flushWait (padding B (B * f + n)) caller, worker⟩
  | waiting (logfs : Logfs) (worker : WorkerPc) (j : ℕ)
      (hworker : worker = .outer ∨ worker = .inner) (hj : j < n / B + 1)
      (h : Draining B f n old j logfs) :
    Flushing B f n old caller
      ⟨logfs, some .worker, .flushWait (padding B (B * f + n)) caller, worker⟩
  | signalled (logfs : Logfs) (worker : WorkerPc) (j : ℕ)
      (hworker : worker = .outer ∨ worker = .inner) (hj : j ≤ n / B + 1)
      (h : Draining B f n old j logfs) :
    Flushing B f n old caller
      ⟨logfs, some .worker, .flushWoken (padding B (B * f + n)) caller, worker⟩
  | written (logfs : Logfs) (h : Draining B f n old (n / B + 1) logfs) :
    Flushing B f n old caller
      ⟨logfs, none, .flushWoken (padding B (B * f + n)) caller, .waitItem⟩

/-- The last block is written when less than a block is left. -/
lemma Draining.lt_blockSize_iff (h : Draining B f n old j logfs) (hB : 0 < B)
    (hj : j ≤ n / B + 1) : logfs.writeBufferFilled < logfs.blockSize ↔ j = n / B + 1 := by
  rw [h.filled, h.blockSize]
  constructor
  · intro hless
    by_contra hne
    have hmul := Nat.mul_le_mul_left B (show j + 1 ≤ n / B + 1 by omega)
    rw [Nat.mul_succ B j] at hmul
    omega
  · intro heq
    rw [heq]
    omega

/-- **The worker goes on** until the padded block is written, and signals `flush` before it waits.

**Proof sketch.** The worker waits only if less than a block is left, which is so when the padded
block is written. At that moment the tail has met the head, so `flush` was signalled, if not
before. -/
lemma Flushing.workerStep (hB : 0 < B) (h : Flushing B f n old caller s)
    (hs : workerStep s true = some s') : Flushing B f n old caller s' := by
  have hmove := workerStep_eq_some_iff.mp hs
  cases h with
  | padded logfs worker hw h =>
    rcases hw with rfl | rfl
    · cases hmove with
      | lock => exact .waiting _ _ 0 (.inl rfl) (Nat.succ_pos _) h
    · cases hmove with
      | wake => exact .waiting _ _ 0 (.inr rfl) (Nat.succ_pos _) h
  | waiting logfs worker j hw hj h =>
    have hfull := mt (h.lt_blockSize_iff hB (Nat.le_of_lt hj)).mp (Nat.ne_of_lt hj)
    rcases hw with rfl | rfl
    · cases hmove with
      | leave _ _ _ hexit => simp [h.running] at hexit
      | enter => exact .waiting _ _ j (.inr rfl) hj h
    · cases hmove with
      | exit _ _ _ hless | sleep _ _ _ hless => exact absurd hless hfull
      | drain => exact .signalled _ _ (j + 1) (.inl rfl) hj h.writeBlock
      | write _ _ _ _ hdrained =>
        have hlast : j + 1 ≠ n / B + 1 := by
          intro heq
          exact hdrained ((heq ▸ h.writeBlock).drained hB)
        exact .waiting _ _ (j + 1) (.inl rfl) (by omega) h.writeBlock
  | signalled logfs worker j hw hj h =>
    have hless_iff := h.lt_blockSize_iff hB hj
    rcases hw with rfl | rfl
    · cases hmove with
      | leave _ _ _ hexit => simp [h.running] at hexit
      | enter => exact .signalled _ _ j (.inr rfl) hj h
    · cases hmove with
      | exit _ _ _ _ hexit => simp [h.running] at hexit
      | sleep _ _ _ hless =>
        obtain rfl := hless_iff.mp hless
        exact .written _ h
      | drain _ _ _ hfull | write _ _ _ hfull =>
        have hlast := mt hless_iff.mpr hfull
        exact .signalled _ _ (j + 1) (.inl rfl) (by omega) h.writeBlock
  | written logfs h => cases hmove

/-- As long as it does not wait, the worker can go on. -/
lemma Flushing.exists_workerMove (h : Flushing B f n old caller s) (hwait : s.worker ≠ .waitItem) :
    ∃ s', WorkerMove true s s' := by
  apply Logfs.exists_workerMove hwait
  · cases h with
    | padded logfs worker hw | waiting logfs worker j hw | signalled logfs worker j hw =>
      rcases hw with rfl | rfl <;> simp
    | written logfs h => exact absurd rfl hwait
  · cases h with
    | padded | written => exact fun hmutex => absurd rfl hmutex
    | waiting logfs worker j hw | signalled logfs worker j hw => exact fun _ => hw

lemma Flushing.blockSize (h : Flushing B f n old caller s) : s.logfs.blockSize = B := by
  cases h with
  | padded _ _ _ h | waiting _ _ _ _ _ h | signalled _ _ _ _ _ h | written _ h =>
    exact h.blockSize

/-- The client is blocked until the worker waits: it waits for the signal, or for the mutex. -/
lemma Flushing.client_blocked (h : Flushing B f n old caller s) (hworker : s.worker ≠ .waitItem)
    (outcome : ReadOutcome) : step s (.client outcome) = none := by
  cases h with
  | padded | waiting | signalled => rfl
  | written logfs h => exact absurd rfl hworker

/-- When the worker waits, everything is written and the client can go on. -/
lemma Flushing.of_waitItem (h : Flushing B f n old caller s) (hworker : s.worker = .waitItem) :
    s.mutex = none ∧ s.client = .flushWoken (padding B (B * f + n)) caller ∧
      Draining B f n old (n / B + 1) s.logfs := by
  cases h with
  | padded logfs worker hw | waiting logfs worker j hw | signalled logfs worker j hw =>
    rcases hw with rfl | rfl <;> simp at hworker
  | written logfs h => exact ⟨rfl, rfl, h⟩

/-- The steps of the worker keep the client in `flush_to_disk`. -/
lemma Flushing.worker_run (hB : 0 < B) (h : Flushing B f n old caller s) {k : ℕ}
    (hrun : run step s (List.replicate k (.worker true)) = some t) :
    Flushing B f n old caller t := by
  have hlabels : Always step (fun _ a => a = .worker true) s (List.replicate k (.worker true)) :=
    always_of_forall_mem s fun a ha => List.eq_of_mem_replicate ha
  refine invariant_run_of_always ?_ h hlabels hrun
  rintro s a s' h rfl hs
  exact h.workerStep hB hs

/-- The steps of the worker lead to its wait. -/
lemma Flushing.worker_waits (hB : 0 < B) (h : Flushing B f n old caller s) :
    ∃ k t, run step s (List.replicate k (.worker true)) = some t ∧ t.worker = .waitItem := by
  have hstep (s : State) (h : Flushing B f n old caller s) (hwait : s.worker ≠ .waitItem) :
      ∃ s', step s (.worker true) = some s' ∧ Flushing B f n old caller s' ∧
        s'.workLeft < s.workLeft := by
    obtain ⟨s', hmove⟩ := h.exists_workerMove hwait
    have hs : Logfs.workerStep s true = some s' := workerStep_eq_some_iff.mpr hmove
    exact ⟨s', hs, h.workerStep hB hs, hmove.workLeft_lt (h.blockSize ▸ hB)⟩
  obtain ⟨k, t, hrun, -, hwait⟩ := exists_run_replicate State.workLeft hstep h
  exact ⟨k, t, hrun, hwait⟩

/-- **The client's first step** in `flush_to_disk` wakes the worker. -/
lemma Positions.flushing (h : Positions B f n s.logfs) (hrun : s.logfs.exitWorkerThread = false)
    (hmutex : s.mutex = none) (hclient : s.client = .flushLock caller)
    (hworker : s.worker = .start ∨ s.worker = .waitItem ∨ s.worker = .wokenItem) :
    ∃ s', step s (.client .ok) = some s' ∧ Flushing B f n s.logfs caller s' := by
  obtain ⟨logfs, mutex, client, worker⟩ := s
  obtain rfl : mutex = none := hmutex
  obtain rfl : client = .flushLock caller := hclient
  obtain ⟨hdistance, hpad⟩ := h.pad hrun
  have hstep := clientStep_eq_some_iff.mpr
    (@ClientMove.flushLock .ok logfs worker caller)
  rw [hdistance] at hstep
  refine ⟨_, hstep, ?_⟩
  rcases hworker with hw | hw | hw <;> obtain rfl := hw
  · exact .padded _ _ (.inl rfl) hpad
  · exact .padded _ _ (.inr rfl) hpad
  · exact .padded _ _ (.inr rfl) hpad

/-- **A flush leaves the normal form**, from every ring and whatever the worker does at first: the
worker comes to its wait, the client cannot go on before, and then it was signalled, less than a
block is left, and its last step leads to the normal form.

**Proof sketch.** The padded ring is a number of whole blocks, so that the worker waits only when
the tail is at the end of the padded block (`Flushing.workerStep`). There `flush` is signalled, and
the rollback has the same result whether or not the tail has wrapped around (`unpad_of_padded`). -/
theorem flush_normalForm (hring : RingState B s.logfs) (hrun : s.logfs.exitWorkerThread = false)
    (hmutex : s.mutex = none) (hclient : s.client = .flushLock caller)
    (hworker : s.worker = .start ∨ s.worker = .waitItem ∨ s.worker = .wokenItem) :
    (∃ k s', run step s (.client .ok :: List.replicate k (.worker true)) = some s' ∧
      s'.worker = .waitItem) ∧
    ∀ k s', run step s (.client .ok :: List.replicate k (.worker true)) = some s' →
      (s'.worker ≠ .waitItem → step s' (.client .ok) = none) ∧
      (s'.worker = .waitItem →
        s'.client = .flushWoken s.logfs.distanceToMoveHead caller ∧
        s'.logfs.writeBufferFilled < B ∧
        ∃ t, step s' (.client .ok) = some t ∧ NormalForm B s.logfs t.logfs) := by
  obtain ⟨f, n, hpositions⟩ := hring.exists_positions
  have hB := hring.pos
  obtain ⟨s₁, hs₁, hflushing⟩ := hpositions.flushing hrun hmutex hclient hworker
  rw [(hpositions.pad hrun).1]
  constructor
  · obtain ⟨k, s', hsteps, hwait⟩ := hflushing.worker_waits hB
    exact ⟨k, s', by rw [run_cons hs₁, hsteps], hwait⟩
  · intro k s' hsteps
    rw [run_cons hs₁] at hsteps
    have hflushing' := hflushing.worker_run hB hsteps
    refine ⟨fun hw => hflushing'.client_blocked hw .ok, fun hw => ?_⟩
    obtain ⟨hfree, hwoken, hwritten⟩ := hflushing'.of_waitItem hw
    have hless := (hwritten.lt_blockSize_iff hB (Nat.le_refl _)).mpr rfl
    rw [hwritten.blockSize] at hless
    refine ⟨hwoken, hless, ?_⟩
    obtain ⟨logfs, mutex, client, worker⟩ := s'
    obtain rfl : mutex = none := hfree
    obtain rfl : client = _ := hwoken
    exact ⟨_, rfl, hwritten.normalForm hpositions⟩

/-- A full ring, with the head at the start of a block. -/
def fullRing : State :=
  ⟨{ logfsOpen 2 (fun _ => 0) with
      head := 4, tail := 4, writeBufferFilled := 64, writeBuffer := fun i => UInt8.ofNat i.toNat },
    none, .flushLock .close, .waitItem⟩

/-- The flush of the full ring, which is signalled after its first block, writes all 32 blocks. -/
theorem flush_normalForm_full : ∃ k s' t,
    run step fullRing (.client .ok :: List.replicate k (.worker true)) = some s' ∧
      step s' (.client .ok) = some t ∧ t.logfs.head = 4 ∧ t.logfs.tail = 4 ∧
        t.logfs.writeBufferFilled = 0 ∧ t.logfs.fileOffset = 64 := by
  have hring : RingState 2 fullRing.logfs := by
    constructor <;> decide
  obtain ⟨⟨k, s', hsteps, hwait⟩, hruns⟩ :=
    flush_normalForm hring rfl rfl rfl (.inr (.inl rfl))
  obtain ⟨-, -, t, ht, hhead, htail, hfilled, hoff, -, -⟩ := (hruns k s' hsteps).2 hwait
  exact ⟨k, s', t, hsteps, ht, hhead, htail, hfilled, hoff⟩

end Cs238p.P4.Logfs
