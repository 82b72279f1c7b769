import Cs238p.P4.LogfsInts

set_option relaxedAutoImplicit false
set_option autoImplicit false

/-!
# The read cache across failing reads

A block that is not in the read cache is read into its slot. If `device_read` fails, `logfs_read`
returns at once and leaves `valid` and `block_id` of the slot as they were, though its bytes may
have been overwritten. The slot is shared by all blocks that are equal modulo 256.

## Main definitions

* `ReadsCoherently` — after the step the read cache is coherent, and a `logfs_read` that returns `0`
  has read what is on the device.
* `HarmlessRead` — a failing `device_read` hits a slot that is not valid, or leaves its bytes.
* `CacheInv` — the invariant: a file offset between blocks, a coherent cache, and nothing to write
  while the client reads.

## Main results

* `CacheInv.step` — every step with a harmless read keeps the invariant.
* `readsCoherently_iff_harmless` — in every run of the model, with spurious wake-ups and failing
  writes as well.
* `coherent_iff_harmless` — in the runs whose offsets fit into the types of the source.

## Implementation notes

A round of the loop of `logfs_read` is one step, although the client does not own the mutex. The
invariant says why this loses no order of the threads: as long as the client reads, the worker
neither writes nor invalidates a block.
-/

namespace Cs238p.P4.Logfs

open Transition

/-- After the step the valid entries of the read cache have the bytes of the device, and if the step
ends a `logfs_read` that succeeds, it has read what is on the device. -/
def ReadsCoherently (s : State) (a : Action) : Prop :=
  ∀ s', step s a = some s' → s'.logfs.Coherent ∧
    ∀ r off len buf, s.client = .read r → s'.client = .idle (.read off len 0 buf) →
      buf = s'.logfs.deviceRead off len

/-- If `device_read` is called and fails, the entry in the slot is not valid, or it keeps its
bytes. -/
def HarmlessRead (s : State) (a : Action) : Prop :=
  match s.client, a with
  | .read r, .client (.fail bytes) =>
    r.readTillNow < r.len → ¬ s.logfs.Cached r.blockId →
      (s.logfs.readCache (r.blockId.tmod rcacheBlocks)).valid = true →
        bytes = (s.logfs.readCache (r.blockId.tmod rcacheBlocks)).block
  | _, _ => True

/-- What holds in every state of a run with harmless reads. -/
structure CacheInv (B : ℕ) (s : State) : Prop where
  pos : 0 < B
  blockSize : s.logfs.blockSize = B
  aligned : ∃ k : ℤ, s.logfs.fileOffset = k * B
  coherent : s.logfs.Coherent
  reading : ∀ r, s.client = .read r →
    s.logfs.writeBufferFilled < B ∧ ReadProgress B s.logfs r

/-- The two logs have the same device, the same file offset and the same read cache. -/
structure SameDisk (l l' : Logfs) : Prop where
  device : l'.device = l.device
  blockSize : l'.blockSize = l.blockSize
  fileOffset : l'.fileOffset = l.fileOffset
  readCache : l'.readCache = l.readCache

variable {B : ℕ} {l l' : Logfs} {s s' : State} {r : Reading} {a : Action} {bytes : List UInt8}

@[refl] lemma SameDisk.refl (l : Logfs) : SameDisk l l := ⟨rfl, rfl, rfl, rfl⟩

lemma deviceRead_congr (h : l'.device = l.device) (off : ℤ) (len : ℕ) :
    l'.deviceRead off len = l.deviceRead off len := by
  rw [deviceRead, deviceRead, h]

lemma SameDisk.coherent (h : SameDisk l l') (hcoherent : l.Coherent) : l'.Coherent := by
  intro idx hvalid
  rw [h.readCache] at hvalid ⊢
  rw [h.blockSize, deviceRead_congr h.device]
  exact hcoherent idx hvalid

lemma ReadProgress.congr (h : ReadProgress B l r) (hdevice : l'.device = l.device) :
    ReadProgress B l' r :=
  ⟨h.le, by rw [deviceRead_congr hdevice]; exact h.buf, h.position, h.start_lt, h.lenToRead⟩

/-- An entry that is invalidated is not valid any more; the others stay. -/
lemma Coherent.invalidate (h : l.Coherent) : l.invalidate.Coherent := by
  rw [Logfs.invalidate]
  split
  · next hcached =>
    intro idx hvalid
    by_cases hidx : idx = (l.fileOffset.tdiv l.blockSize).tmod rcacheBlocks
    · rw [hidx] at hvalid
      simp at hvalid
    · simp only [Function.update_of_ne hidx] at hvalid ⊢
      exact h idx hvalid
  · exact h

/-- A read that fails and is harmless. -/
lemma Coherent.readFailed (h : l.Coherent) {b : ℤ}
    (hbytes : (l.readCache (b.tmod rcacheBlocks)).valid = true →
      bytes = (l.readCache (b.tmod rcacheBlocks)).block) : (l.readFailed b bytes).Coherent := by
  intro idx hvalid
  by_cases hidx : idx = b.tmod rcacheBlocks
  · subst hidx
    rw [Logfs.readFailed] at hvalid ⊢
    simp only [Function.update_self] at hvalid ⊢
    rw [hbytes hvalid]
    exact h _ hvalid
  · have hsame : (l.readFailed b bytes).readCache idx = l.readCache idx :=
      Function.update_of_ne hidx _ _
    rw [hsame] at hvalid ⊢
    exact h idx hvalid

namespace CacheInv

/-- A step that leaves the disk alone and leads out of the loop of `logfs_read`, or does not enter
it. -/
lemma congr (h : CacheInv B s) (hdisk : SameDisk s.logfs s'.logfs)
    (hclient : ∀ r, s'.client ≠ .read r) : CacheInv B s' where
  pos := h.pos
  blockSize := hdisk.blockSize.trans h.blockSize
  aligned := by
    rw [hdisk.fileOffset]
    exact h.aligned
  coherent := hdisk.coherent h.coherent
  reading r hr := absurd hr (hclient r)

/-- A step of the worker that does not touch the log. -/
lemma of_logfs_eq (h : CacheInv B s) (hlogfs : s'.logfs = s.logfs)
    (hclient : s'.client = s.client) : CacheInv B s' := by
  obtain ⟨hpos, hsize, haligned, hcoherent, hreading⟩ := h
  rw [← hlogfs] at hsize haligned hcoherent hreading
  rw [← hclient] at hreading
  exact ⟨hpos, hsize, haligned, hcoherent, hreading⟩

end CacheInv

lemma cacheInv_start (hB : 0 < B) (device : ℤ → UInt8) : CacheInv B (State.start B device) where
  pos := hB
  blockSize := rfl
  aligned := ⟨0, by simp [State.start, logfsOpen]⟩
  coherent := (layout_logfsOpen hB device).coherent
  reading r hr := by simp [State.start] at hr

/-- A block is written while the client does not read. -/
lemma CacheInv.writeBlock (h : CacheInv B s)
    (hfull : ¬ s.logfs.writeBufferFilled < s.logfs.blockSize)
    (hlogfs : s'.logfs = s.logfs.writeBlock)
    (hclient : ∀ r, s.client ≠ .read r → s'.client ≠ .read r) : CacheInv B s' := by
  obtain ⟨k, hk⟩ := h.aligned
  have hpos := h.pos
  have hreading (r : Reading) : s.client ≠ .read r := by
    intro hr
    rw [h.blockSize] at hfull
    exact hfull (h.reading r hr).1
  have hdiv : s.logfs.fileOffset.tdiv s.logfs.blockSize = k := by
    rw [hk, h.blockSize]
    exact Int.mul_tdiv_cancel k (by omega)
  refine ⟨hpos, ?_, ⟨k + 1, ?_⟩, ?_, fun r hr => absurd hr (hclient r (hreading r))⟩
  · rw [hlogfs, blockSize_writeBlock, h.blockSize]
  · rw [hlogfs, fileOffset_writeBlock, hk, h.blockSize, Int.add_mul, Int.one_mul]
  · rw [hlogfs]
    exact h.coherent.deviceWrite hdiv (by rw [hk, h.blockSize])

/-- **A step of the client** keeps the invariant if a failing read is harmless. -/
lemma CacheInv.clientStep {outcome : ReadOutcome} (h : CacheInv B s)
    (hharmless : HarmlessRead s (.client outcome))
    (hs : Logfs.clientStep s outcome = some s') : CacheInv B s' := by
  cases clientStep_eq_some_iff.mp hs with
  | appendByte logfs mutex worker b rest hroom =>
    apply h.congr
    · rw [signalItemAvail_logfs]
      exact ⟨rfl, rfl, rfl, rfl⟩
    · simp
  | flushLock logfs worker caller =>
    apply h.congr
    · rw [signalItemAvail_logfs]
      exact ⟨rfl, rfl, rfl, rfl⟩
    · simp
  | flushWoken logfs worker distance caller =>
    obtain ⟨k, hk⟩ := h.aligned
    have hpos := h.pos
    have hsize : logfs.blockSize = B := h.blockSize
    refine ⟨hpos, hsize, ⟨k - 1, ?_⟩, h.coherent, fun r hr => ?_⟩
    · show logfs.fileOffset - (logfs.blockSize : ℕ) = _
      rw [show logfs.fileOffset = k * B from hk, hsize, Int.sub_mul, Int.one_mul]
    · -- The number of bytes in the ring is set to a remainder.
      have hless : (logfs.unpad distance).writeBufferFilled < B := by
        show (logfs.head - distance).tmod logfs.blockSize < B
        rw [hsize]
        exact Int.tmod_lt_of_pos _ (by omega)
      cases caller with
      | close => simp [Caller.resume] at hr
      | read off len =>
        simp only [Caller.resume, ClientPc.read.injEq] at hr
        subst hr
        rw [hsize]
        exact ⟨hless, readProgress_begin hpos _ off len⟩
  | readCached logfs mutex worker r hlt hcached =>
    obtain ⟨hless, hprogress⟩ := h.reading r rfl
    refine ⟨h.pos, h.blockSize, h.aligned, h.coherent, fun r' hr' => ?_⟩
    obtain rfl := ClientPc.read.inj hr'
    refine ⟨hless, ?_⟩
    rw [h.coherent.block_eq hcached, show logfs.blockSize = B from h.blockSize]
    exact hprogress.next hlt
  | readBlock logfs mutex worker r hlt huncached =>
    obtain ⟨hless, hprogress⟩ := h.reading r rfl
    refine ⟨h.pos, h.blockSize, h.aligned, h.coherent.readBlock r.blockId, fun r' hr' => ?_⟩
    obtain rfl := ClientPc.read.inj hr'
    refine ⟨hless, ?_⟩
    have hsize : logfs.blockSize = B := h.blockSize
    rw [readBlock_block, show (logfs.readBlock r.blockId).blockSize = B from hsize, hsize]
    exact (hprogress.next hlt).congr rfl
  | readFailed logfs mutex worker r bytes hlt huncached =>
    refine ⟨h.pos, h.blockSize, h.aligned, ?_, by simp⟩
    exact h.coherent.readFailed (hharmless hlt huncached)
  | closeSignal logfs mutex worker =>
    apply h.congr
    · rw [signalItemAvail_logfs]
    · simp
  -- the other steps leave the disk alone and do not enter the loop of `logfs_read`
  | _ => exact h.congr ⟨rfl, rfl, rfl, rfl⟩ (by simp)

/-- **A step of the worker** keeps the invariant, whether its write fails or not. -/
lemma CacheInv.workerStep {ok : Bool} (h : CacheInv B s)
    (hs : Logfs.workerStep s ok = some s') : CacheInv B s' := by
  cases workerStep_eq_some_iff.mp hs with
  | write logfs mutex client hfull hdrained => exact h.writeBlock hfull rfl fun _ hne => hne
  | drain logfs mutex client hfull hdrained =>
    apply h.writeBlock hfull
    · rw [signalFlush_logfs]
    · intro r hne
      unfold State.signalFlush
      split
      · simp
      · exact hne
  | fail logfs mutex client hfull =>
    have hreading (r : Reading) : client ≠ .read r := by
      intro hr
      rw [show logfs.blockSize = B from h.blockSize] at hfull
      exact hfull (h.reading r hr).1
    refine ⟨h.pos, (blockSize_invalidate _).trans h.blockSize, ?_, h.coherent.invalidate,
      fun r hr => absurd hr (hreading r)⟩
    rw [fileOffset_invalidate]
    exact h.aligned
  | _ => exact h.of_logfs_eq rfl rfl

/-- **Every step with a harmless read** keeps the invariant. -/
theorem CacheInv.step (h : CacheInv B s) (hharmless : HarmlessRead s a)
    (hs : Logfs.step s a = some s') : CacheInv B s' := by
  have hcall {client : ClientPc} (hs : s.call client = some s')
      (hne : ∀ r, client ≠ .read r) : CacheInv B s' := by
    obtain ⟨-, rfl⟩ := call_eq_some_iff.mp hs
    exact h.congr (.refl _) hne
  cases a with
  | append buf => exact hcall hs (by simp)
  | read off len => exact hcall hs (by simp)
  | close => exact hcall hs (by simp)
  | client outcome => exact h.clientStep hharmless hs
  | worker ok => exact h.workerStep hs
  | spurious thread =>
    cases spuriousStep_eq_some_iff.mp hs with
    | append logfs mutex worker rest => exact h.congr (.refl _) (by simp)
    | flush logfs mutex worker distance caller => exact h.congr (.refl _) (by simp)
    | item logfs mutex client => exact h.of_logfs_eq rfl rfl

/-! ## Runs -/

/-- What a `logfs_read` returns that succeeds. -/
lemma CacheInv.read_eq (h : CacheInv B s) (hs : Logfs.step s a = some s') (hr : s.client = .read r)
    {off len : ℕ} {buf : List UInt8} (hdone : s'.client = .idle (.read off len 0 buf)) :
    buf = s'.logfs.deviceRead off len := by
  obtain ⟨-, hprogress⟩ := h.reading r hr
  cases a with
  | client outcome =>
    cases clientStep_eq_some_iff.mp hs with
    | readDone logfs mutex worker r' hall =>
      obtain rfl := ClientPc.read.inj hr
      simp only [ClientPc.idle.injEq, Return.read.injEq] at hdone
      obtain ⟨rfl, rfl, -, rfl⟩ := hdone
      rw [hprogress.buf, Nat.le_antisymm hprogress.le (Nat.not_lt.mp hall)]
    | readFailed logfs mutex worker r' bytes hlt huncached => simp at hdone
    | _ => simp at hdone hr
  | worker ok =>
    -- A step of the worker does not end a call.
    have hclient : s'.client = s.client ∨ ∃ distance caller, s'.client = .flushWoken distance caller
        := by
      cases workerStep_eq_some_iff.mp hs with
      | drain logfs mutex client hfull hdrained =>
        unfold State.signalFlush
        split
        · exact .inr ⟨_, _, rfl⟩
        · exact .inl rfl
      | _ => exact .inl rfl
    rcases hclient with hclient | ⟨distance, caller, hclient⟩
    · rw [hclient, hr] at hdone
      simp at hdone
    · rw [hclient] at hdone
      simp at hdone
  | spurious thread =>
    cases spuriousStep_eq_some_iff.mp hs <;> simp_all
  | _ =>
    obtain ⟨⟨ret, hret⟩, -⟩ := call_eq_some_iff.mp hs
    rw [hret] at hr
    simp at hr

/-- **A step reads coherently if and only if** its failing read is harmless. -/
theorem CacheInv.readsCoherently_iff (h : CacheInv B s) (a : Action) :
    ReadsCoherently s a ↔ HarmlessRead s a := by
  constructor
  · intro hreads
    unfold HarmlessRead
    split
    · next r bytes hr =>
      intro hlt huncached hvalid
      have hs : Logfs.step s (.client (.fail bytes)) = some
          { s with
            logfs := s.logfs.readFailed r.blockId bytes
            client := .idle (.read r.off r.len (-1) r.buf) } := by
        show Logfs.clientStep s (.fail bytes) = _
        rw [Logfs.clientStep, hr]
        simp only [readStep, hlt, if_true, huncached, if_false]
      have hafter := (hreads _ hs).1 (r.blockId.tmod rcacheBlocks)
      have hbefore := h.coherent (r.blockId.tmod rcacheBlocks) hvalid
      simp only [Logfs.readFailed, Function.update_self] at hafter
      rw [hbefore.2]
      exact (hafter hvalid).2
    · trivial
  · intro hharmless s' hs
    refine ⟨(h.step hharmless hs).coherent, fun r off len buf hr hdone => ?_⟩
    exact h.read_eq hs hr hdone

/-- **Every run reads coherently if and only if its failing reads are harmless.** -/
theorem readsCoherently_iff_harmless (B : ℕ) (hB : 0 < B) (device : ℤ → UInt8) (as : List Action) :
    Always step ReadsCoherently (State.start B device) as ↔
      Always step HarmlessRead (State.start B device) as := by
  apply always_congr_of_invariant (I := CacheInv B) (E := fun _ _ => True)
  · intro s a s' h _ hharmless hs
    exact h.step hharmless hs
  · intro s a h _
    exact h.readsCoherently_iff a
  · exact cacheInv_start hB device
  · exact always_of_forall_mem (P := fun _ => True) _ fun _ _ => trivial

/-- **The read cache is coherent if and only if failing reads are harmless**: in every run of the
client and the worker whose offsets fit into their types, the numbers of the blocks and the slots
are exact; and after every step the valid entries of the read cache have the bytes of the device and
reads that succeed return what is on the device, exactly as long as each `device_read` that fails
hits an entry that is not valid or leaves its bytes.

**Proof sketch.** A block is invalidated before it is written, and the file offset is a multiple of
the block size, so that this is the entry of the block. While the client reads, there is less than a
block in the ring, since every flush sets the number of bytes there to a remainder. -/
theorem coherent_iff_harmless (B : ℕ) (hB : 0 < B) (hsize : wcacheBlocks * B < 2 ^ 31)
    (device : ℤ → UInt8) (as : List Action)
    (hfit : Always loggedStep (IntsFit B) (State.start B device, []) as)
    (hearly : Always loggedStep (fun x a => NotEarly x.1 a) (State.start B device, []) as) :
    Always loggedStep (fun x a => ExactInts x.1 a) (State.start B device, []) as ∧
      (Always step ReadsCoherently (State.start B device) as ↔
        Always step HarmlessRead (State.start B device) as) :=
  ⟨always_exactInts B hB hsize device as hfit hearly, readsCoherently_iff_harmless B hB device as⟩

/-- The steps of a flush, of which the worker takes `n`. -/
def flushSteps (n : ℕ) : List Action :=
  [.client .ok] ++ List.replicate n (.worker true) ++ [.client .ok]

/-- A byte is appended and flushed for a read. -/
def appendAndFlush : List Action :=
  [.append [7], .client .ok, .client .ok, .client .ok, .read 0 1] ++ flushSteps 7

/-- The read fails, but its slot is not in use. -/
theorem coherent_iff_harmless_unused :
    Always loggedStep (fun x a => ExactInts x.1 a) (State.start 1 fun _ => 0, [])
        (appendAndFlush ++ [.client (.fail [99])]) ∧
      (Always step ReadsCoherently (State.start 1 fun _ => 0)
          (appendAndFlush ++ [.client (.fail [99])]) ↔
        Always step HarmlessRead (State.start 1 fun _ => 0)
          (appendAndFlush ++ [.client (.fail [99])])) :=
  coherent_iff_harmless 1 (by decide) (by decide) _ _ (by decide +kernel) (by decide +kernel)

/-- The read succeeds. Then a read of block 256 fails and leaves another byte in the slot of block
0, and block 0 is read again. -/
def clobberingRun : List Action :=
  appendAndFlush ++ [.client .ok, .client .ok, .read 256 1] ++ flushSteps 4 ++
    [.client (.fail [99]), .read 0 1] ++ flushSteps 4 ++ [.client .ok]

/-- The second read of block 0 returns the byte that the failing read left in its slot. -/
theorem clobberingRun_not_coherent :
    ¬ ∀ (B : ℕ), 0 < B → ∀ (device : ℤ → UInt8) (as : List Action),
      Always step ReadsCoherently (State.start B device) as := by
  intro h
  have hruns : ((run step (State.start 1 fun _ => 0) clobberingRun).map fun s => (s.client,
      (Logfs.step s (.client .ok)).map fun s' => (s'.client, s'.logfs.deviceRead 0 1))) =
      some (.read ⟨0, 1, 1, 0, 0, 1, [99]⟩, some (.idle (.read 0 1 0 [99]), [7])) := by
    decide +kernel
  obtain ⟨s, hrun, hs⟩ := Option.map_eq_some_iff.mp hruns
  obtain ⟨hclient, hs'⟩ := Prod.mk.inj hs
  obtain ⟨s', hstep, hs'⟩ := Option.map_eq_some_iff.mp hs'
  obtain ⟨hdone, hdevice⟩ := Prod.mk.inj hs'
  have hlast := (h 1 (by decide) (fun _ => 0) (clobberingRun ++ [.client .ok])).last hrun
  have hbuf := (hlast s' hstep).2 _ 0 1 [99] hclient hdone
  rw [show ((0 : ℕ) : ℤ) = 0 from rfl, hdevice] at hbuf
  exact absurd hbuf (by decide)

end Cs238p.P4.Logfs
