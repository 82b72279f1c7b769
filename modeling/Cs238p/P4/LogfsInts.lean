import Cs238p.Lib.MachineInt
import Cs238p.P4.LogfsBounds

set_option relaxedAutoImplicit false
set_option autoImplicit false

/-!
# The counters of the log as machine integers

The offsets of a read are unsigned numbers of 64 bits, while `file_offset`, `block_id` and
`block_size` are signed ones of 32 bits. The product `block_id * block_size` of a read overflows
long before the number of the block does.

## Main definitions

* `writeInts`, `advanceInts`, `unpadInts`, `beginInts`, `nextInts`, `deviceReadOff` — the arithmetic
  of the source on these counters, `none` if it overflows.
* `ExactInts` — the arithmetic of a step has the values of the integers; no index is negative.
* `IntsFit` — the lengths and offsets for which it has.

## Main results

* `Engaged.unpad` — where the log is continued after a flush.
* `always_exactInts`, `ints_exact` — every run.
* `accesses_inRange` — the accesses to the device, with the arithmetic of the source.

## Implementation notes

The model of the log has unbounded counters. A run of the code is a run of the model up to the first
step whose arithmetic is not exact.
-/

namespace Cs238p.P4.Logfs

open MachineInt Transition

/-! ## The arithmetic of the source -/

/-- The bits of an `int`. -/
def intBits : ℕ := 32

/-- `block_id` and `read_cache_idx` of `write_to_disk`. -/
def writeInts (fileOffset : ℤ) (blockSize : ℕ) : Option (ℤ × ℤ) := do
  let blockId ← div intBits fileOffset blockSize
  let readCacheIdx ← mod intBits blockId rcacheBlocks
  some (blockId, readCacheIdx)

/-- `file_offset` after `write_to_disk` has written a block. -/
def advanceInts (fileOffset : ℤ) (blockSize : ℕ) : Option ℤ := add intBits fileOffset blockSize

/-- `file_offset` at the end of `flush_to_disk`. -/
def unpadInts (fileOffset : ℤ) (blockSize : ℕ) : Option ℤ := sub intBits fileOffset blockSize

/-- `block_id` and `read_buff_idx` before the loop of `logfs_read`. The quotient is unsigned, since
`off` is. -/
def beginInts (off blockSize : ℕ) : Option (ℤ × ℤ) := do
  let blockId := ofUnsigned intBits (off / blockSize)
  let readBuffIdx ← mod intBits blockId rcacheBlocks
  some (blockId, readBuffIdx)

/-- `block_id` and `read_buff_idx` for the next round of the loop of `logfs_read`. -/
def nextInts (blockId : ℤ) : Option (ℤ × ℤ) := do
  let blockId ← add intBits blockId 1
  let readBuffIdx ← mod intBits blockId rcacheBlocks
  some (blockId, readBuffIdx)

/-- The offset that `logfs_read` passes to `device_read`. -/
def deviceReadOff (blockId : ℤ) (blockSize : ℕ) : Option ℤ := mul intBits blockId blockSize

/-- The arithmetic of a step on the counters has the values of the integers. In particular an index
of the read cache is not negative. -/
def ExactInts (s : State) (a : Action) : Prop :=
  match a with
  | .worker ok => s.worker = .inner → ¬ s.logfs.writeBufferFilled < s.logfs.blockSize →
      writeInts s.logfs.fileOffset s.logfs.blockSize =
        some (s.logfs.fileOffset / s.logfs.blockSize,
          s.logfs.fileOffset / s.logfs.blockSize % rcacheBlocks) ∧
      (ok = true → advanceInts s.logfs.fileOffset s.logfs.blockSize =
        some (s.logfs.fileOffset + s.logfs.blockSize))
  | .client outcome =>
      (∀ distance caller, s.client = .flushWoken distance caller → s.mutex = none →
        unpadInts s.logfs.fileOffset s.logfs.blockSize =
          some (s.logfs.fileOffset - s.logfs.blockSize) ∧
        ∀ off len, caller = .read off len → beginInts off s.logfs.blockSize =
          some ((off / s.logfs.blockSize : ℤ), (off / s.logfs.blockSize % rcacheBlocks : ℤ))) ∧
      ∀ r, s.client = .read r → r.readTillNow < r.len →
        (¬ s.logfs.Cached r.blockId → deviceReadOff r.blockId s.logfs.blockSize =
          some (r.blockId * s.logfs.blockSize)) ∧
        (s.logfs.Cached r.blockId ∨ outcome = .ok → nextInts r.blockId =
          some (r.blockId + 1, (r.blockId + 1) % rcacheBlocks))
  | _ => True

/-! ## Exact values -/

variable {P : ℕ → Caller → Prop} {B f b off len n : ℕ} {r : Reading}

lemma rcacheBlocks_pos : 0 < rcacheBlocks := by
  rw [rcacheBlocks]
  omega

lemma fits_int_iff : Fits intBits n ↔ n < 2 ^ 31 := fits_natCast

/-- Two operations, the second on the result of the first. -/
lemma pair_eq {x : Option ℤ} {g : ℤ → Option ℤ} {u v : ℤ} (hx : x = some u) (hg : g u = some v) :
    (do
      let blockId ← x
      let idx ← g blockId
      some (blockId, idx)) = some (u, v) := by
  subst hx
  simp [hg]

lemma writeInts_eq (hB : 0 < B) (h : B * f < 2 ^ 31) :
    writeInts (B * f : ℕ) B = some ((f : ℤ), ((f % rcacheBlocks : ℕ) : ℤ)) := by
  have hfits : Fits intBits (B * f : ℕ) := fits_int_iff.mpr h
  have hle : f ≤ B * f := Nat.le_mul_of_pos_left f hB
  have hdiv := div_natCast hB hfits
  rw [Nat.mul_div_cancel_left f hB] at hdiv
  exact pair_eq hdiv (mod_natCast rcacheBlocks_pos (hfits.of_le hle))

lemma advanceInts_eq (h : n + B < 2 ^ 31) : advanceInts n B = some ((n : ℤ) + B) := by
  rw [advanceInts, add, checked_eq_self_iff, ← Int.natCast_add]
  exact fits_int_iff.mpr h

lemma unpadInts_eq (hn : n < 2 ^ 31) (hB : B < 2 ^ 31) :
    unpadInts n B = some ((n : ℤ) - B) := by
  rw [unpadInts, sub, checked_eq_self_iff]
  constructor <;> rw [intBits] <;> omega

lemma beginInts_eq (h : off / B < 2 ^ 31) :
    beginInts off B = some (((off / B : ℕ) : ℤ), ((off / B % rcacheBlocks : ℕ) : ℤ)) := by
  have hfits : Fits intBits (off / B : ℕ) := fits_int_iff.mpr h
  have hconv : ofUnsigned intBits (off / B) = (off / B : ℕ) :=
    (ofUnsigned_eq_iff (by decide)).mpr hfits
  rw [beginInts, hconv]
  exact Option.bind_eq_some_iff.mpr ⟨_, mod_natCast rcacheBlocks_pos hfits, rfl⟩

lemma nextInts_eq (h : b + 1 < 2 ^ 31) :
    nextInts b = some (((b + 1 : ℕ) : ℤ), (((b + 1) % rcacheBlocks : ℕ) : ℤ)) := by
  have hfits : Fits intBits (b + 1 : ℕ) := fits_int_iff.mpr h
  have hadd : add intBits b 1 = some ((b + 1 : ℕ) : ℤ) := checked_eq_self_iff.mpr hfits
  exact pair_eq hadd (mod_natCast rcacheBlocks_pos hfits)

lemma deviceReadOff_eq (h : b * B < 2 ^ 31) : deviceReadOff b B = some ((b : ℤ) * B) := by
  rw [deviceReadOff, mul, checked_eq_self_iff, ← Int.natCast_mul]
  exact fits_int_iff.mpr h

/-! ## Runs -/

/-- **Where the log is continued after a flush**: at most at the block behind the padded one. -/
theorem Engaged.unpad {x : State × List UInt8} {distance : ℤ} {caller : Caller}
    (h : Engaged P B x) (hclient : x.1.client = .flushWoken distance caller)
    (hmutex : x.1.mutex = none) :
    P x.2.length caller ∧ ∃ f : ℕ, x.1.logfs.fileOffset = (B * f : ℕ) ∧
      B * f ≤ B * (x.2.length / B + 1) := by
  obtain ⟨s, bytes⟩ := x
  cases h with
  | dead hdead _ =>
    have := hdead.mutex.symm.trans hmutex
    simp at this
  | alive hcarries hlocks hengaged =>
    obtain ⟨log, f, d, hring, hpad, hbytes⟩ := hcarries
    simp only at hclient hring hpad hbytes hengaged
    rw [hclient] at hengaged hpad hbytes
    have hlog : bytes = log := by rw [hbytes]; exact List.append_nil log
    subst hlog
    show P bytes.length caller ∧ ∃ f : ℕ, s.logfs.fileOffset = (B * f : ℕ) ∧
      B * f ≤ B * (bytes.length / B + 1)
    refine ⟨hengaged, f, hring.fileOffset, ?_⟩
    have hle := hring.le
    have hend := add_padding (n := bytes.length) hring.pos
    have hd : d = padding B bytes.length := hpad.1
    omega

/-- The numbers of the blocks of a read and their offsets on the device are below `2 ^ 31`. -/
def ReadFits (B off len : ℕ) : Prop :=
  off / B < 2 ^ 31 ∧ (0 < len → off + len ≤ 2 ^ 31 ∧ (B = 1 → off + len < 2 ^ 31))

instance (B off len : ℕ) : Decidable (ReadFits B off len) := inferInstanceAs (Decidable (_ ∧ _))

/-- The block that a flush pads ends below `2 ^ 31`, and so does what is read. -/
def CallFits (B n : ℕ) (caller : Caller) : Prop :=
  n + B < 2 ^ 31 ∧ ∀ off len, caller = .read off len → ReadFits B off len

/-- The log stays below `2 ^ 31` bytes, by a block when it is flushed, and reads fit. -/
def IntsFit (B : ℕ) (x : State × List UInt8) : Action → Prop
  | .append buf => x.2.length + buf.length < 2 ^ 31
  | .read off len => x.2.length + B < 2 ^ 31 ∧ ReadFits B off len
  | .close => x.2.length + B < 2 ^ 31
  | _ => True

instance (B : ℕ) (x : State × List UInt8) : DecidablePred (IntsFit B x)
  | .append buf => inferInstanceAs (Decidable (x.2.length + buf.length < 2 ^ 31))
  | .read _ _ => inferInstanceAs (Decidable (_ ∧ _))
  | .close => inferInstanceAs (Decidable (x.2.length + B < 2 ^ 31))
  | .client _ | .worker _ | .spurious _ => .isTrue trivial

lemma IntsFit.callsMeet {x : State × List UInt8} {a : Action} (h : IntsFit B x a) :
    CallsMeet (CallFits B) x a := by
  intro caller hcaller
  cases a with
  | read off len =>
    obtain rfl := Option.some.inj hcaller
    refine ⟨h.1, fun off' len' heq => ?_⟩
    obtain ⟨rfl, rfl⟩ := Caller.read.inj heq
    exact h.2
  | close =>
    obtain rfl := Option.some.inj hcaller
    exact ⟨h, by simp⟩
  | _ => simp [Action.caller] at hcaller

lemma IntsFit.length_lt {x : State × List UInt8} {a : Action} (h : IntsFit B x a)
    (hlen : x.2.length < 2 ^ 31) : (x.2 ++ a.bytes).length < 2 ^ 31 := by
  rw [List.length_append]
  cases a with
  | append buf => exact h
  | _ => exact hlen

/-- **The arithmetic of a step.** -/
lemma Engaged.exactInts {x : State × List UInt8} (hB : 0 < B) (hint : B < 2 ^ 31)
    (h : Engaged (CallFits B) B x) (hlen : x.2.length < 2 ^ 31)
    (hsize : x.1.logfs.blockSize = B) (a : Action) : ExactInts x.1 a := by
  cases a with
  | worker ok =>
    intro hinner hfull
    obtain ⟨f, hoff, hle⟩ := h.write hinner hfull
    have hend : B * f + B < 2 ^ 31 := by
      rcases hle with hle | ⟨caller, ⟨hfits, -⟩, hle⟩
      · omega
      · have hmul := Nat.mul_div_le x.2.length B
        rw [Nat.mul_succ] at hle
        omega
    rw [hoff, hsize]
    refine ⟨?_, fun _ => advanceInts_eq hend⟩
    rw [writeInts_eq hB (by omega), ← Int.natCast_ediv, Nat.mul_div_cancel_left f hB,
      ← Int.natCast_emod]
  | client outcome =>
    constructor
    · intro distance caller hclient hmutex
      obtain ⟨⟨hfits, hread⟩, f, hoff, hle⟩ := h.unpad hclient hmutex
      have hmul := Nat.mul_div_le x.2.length B
      rw [Nat.mul_succ] at hle
      rw [hoff, hsize]
      refine ⟨unpadInts_eq (by omega) hint, fun off len hcaller => ?_⟩
      rw [beginInts_eq (hread off len hcaller).1, Int.natCast_emod, Int.natCast_ediv]
    · intro r hr hlt
      obtain ⟨⟨hfits, hread⟩, b, hb, -, hlt'⟩ := h.read hr hlt
      obtain ⟨-, hbound⟩ := hread _ _ rfl
      obtain ⟨hle, hone⟩ := hbound (by omega)
      have hoff : b * B < 2 ^ 31 := by omega
      -- With blocks of at least two bytes the number of the block is below half the offset.
      have hnext : b + 1 < 2 ^ 31 := by
        by_cases hB1 : B = 1
        · have := hone hB1
          subst hB1
          omega
        · have := Nat.mul_le_mul_left b (show 2 ≤ B by omega)
          omega
      rw [hb, hsize]
      refine ⟨fun _ => deviceReadOff_eq hoff, fun _ => ?_⟩
      rw [nextInts_eq hnext, Int.natCast_emod, Int.natCast_add, Int.natCast_one]
  | _ => trivial

section Runs

variable (B : ℕ) (hB : 0 < B) (hsize : wcacheBlocks * B < 2 ^ 31) (device : ℤ → UInt8)
  (as : List Action) (hfit : Always loggedStep (IntsFit B) (State.start B device, []) as)
  (hearly : Always loggedStep (fun x a => NotEarly x.1 a) (State.start B device, []) as)

include hB hsize hfit hearly

/-- **The arithmetic of a run** whose calls fit. -/
theorem always_exactInts :
    Always loggedStep (fun x a => ExactInts x.1 a) (State.start B device, []) as := by
  have hint : B < 2 ^ 31 := (Nat.le_mul_of_pos_left B (by decide)).trans_lt hsize
  refine Always.imp_of_invariant (I := fun x => Engaged (CallFits B) B x ∧
    x.2.length < 2 ^ 31 ∧ x.1.logfs.blockSize = B) ?_ ?_ ?_ (hfit.and hearly)
  · rintro x a x' ⟨h, hlen, hsize⟩ ⟨hfit, hearly⟩ hs
    refine ⟨h.step hearly hfit.callsMeet hs, ?_⟩
    obtain ⟨s', hs', rfl⟩ := Option.map_eq_some_iff.mp hs
    exact ⟨hfit.length_lt hlen, (blockSize_step hs').trans hsize⟩
  · rintro x a ⟨h, hlen, hsize⟩ -
    exact h.exactInts hB hint hlen hsize a
  · exact ⟨engaged_start hB device, Nat.two_pow_pos 31, rfl⟩

/-- **The accesses to the device are aligned and in range**, and their offsets exact, in every run
that appends no more than the device holds, reads what was appended and calls `logfs_read` and
`logfs_close` while the log does not fill the device, as long as the counters fit into their type
and no flush is ended early by a spurious wake-up.

**Proof sketch.** The offsets of the model are those of the source (`always_exactInts`), and in the
model the accesses are in range (`always_accessInRange`). -/
theorem accesses_inRange (m : ℕ) (hlen : (appended as).length ≤ B * m)
    (hreads : Always loggedStep ReadsWithin (State.start B device, []) as)
    (hflushes : Always loggedStep (FlushesBelow (B * m)) (State.start B device, []) as) :
    Always loggedStep (fun x a => AccessInRange (B * m) x.1 a ∧ ExactInts x.1 a)
      (State.start B device, []) as :=
  (always_accessInRange B m hB device as hlen hreads hflushes hearly).and
    (always_exactInts B hB hsize device as hfit hearly)

end Runs

/-- Two bytes are appended and flushed on a device of two blocks of two bytes. -/
theorem accesses_inRange_two :
    Always loggedStep (fun x a => AccessInRange (2 * 2) x.1 a ∧ ExactInts x.1 a)
      (State.start 2 fun _ => 0, []) (fullRun ++ [.worker true]) :=
  accesses_inRange 2 (by decide) (by decide) _ _ (by decide +kernel) (by decide +kernel) 2
    (by decide) (by decide +kernel) (by decide +kernel)

/-- **The arithmetic on the offsets of the log is exact** in every run in which less than `2 ^ 31`
bytes are appended, the log is a block shorter when it is flushed, and what is read is below
`2 ^ 31`, as long as no flush is ended early by a spurious wake-up. The size of the write buffer is
an `int` as well.

**Proof sketch.** `file_offset` is at most the end of the block that a flush pads, and the number of
a block that is read times the block size is below the end of what is asked for. -/
theorem ints_exact (k : ℕ) (hk : wcacheBlocks * 2 ^ k < 2 ^ 31) (device : ℤ → UInt8)
    (as : List Action)
    (hfit : Always loggedStep (IntsFit (2 ^ k)) (State.start (2 ^ k) device, []) as)
    (hearly : Always loggedStep (fun x a => NotEarly x.1 a) (State.start (2 ^ k) device, []) as) :
    Always loggedStep (fun x a => ExactInts x.1 a) (State.start (2 ^ k) device, []) as :=
  always_exactInts (2 ^ k) (Nat.two_pow_pos k) hk device as hfit hearly

/-- A call is made, its flush runs, and the worker waits again. -/
def flushedCall (call : Action) : List Action :=
  [call, .client .ok] ++ List.replicate 5 (.worker true) ++ [.client .ok]

/-- Three bytes are appended in blocks of two, and two of them are read. -/
theorem ints_exact_two :
    Always loggedStep (fun x a => ExactInts x.1 a) (State.start (2 ^ 1) fun _ => 0, [])
      ([.append [7, 8, 9]] ++ List.replicate 5 (.client .ok) ++ flushedCall (.read 1 2) ++
        List.replicate 3 (.client .ok)) :=
  ints_exact 1 (by decide) _ _ (by decide +kernel) (by decide +kernel)

/-- On a device that is larger than `2 ^ 31` bytes, the offset of the block to read overflows. -/
theorem deviceReadOff_overflows :
    ¬ ∀ (k m : ℕ) (device : ℤ → UInt8) (as : List Action),
      wcacheBlocks * 2 ^ k < 2 ^ 31 → (appended as).length ≤ 2 ^ k * m →
      (∀ off len, .read off len ∈ as → off + len ≤ 2 ^ k * m) →
      Always loggedStep (fun x a => ExactInts x.1 a) (State.start (2 ^ k) device, []) as := by
  intro h
  have hruns : ((run loggedStep (State.start (2 ^ 9) fun _ => 0, [])
      (flushedCall (.read (2 ^ 31) 1))).map fun x =>
      (x.1.client, x.1.logfs.blockSize, decide (x.1.logfs.Cached (2 ^ 22)))) =
      some (.read (Reading.begin (2 ^ 9) (2 ^ 31) 1), 2 ^ 9, false) := by decide +kernel
  obtain ⟨x, hrun, hx⟩ := Option.map_eq_some_iff.mp hruns
  simp only [Prod.mk.injEq, decide_eq_false_iff_not] at hx
  obtain ⟨hclient, hsize, huncached⟩ := hx
  have hreads : ∀ off len, Action.read off len ∈
      flushedCall (.read (2 ^ 31) 1) ++ [.client .ok] → off + len ≤ 2 ^ 9 * (2 ^ 22 + 1) := by
    intro off len hmem
    have heq : Action.read off len = .read (2 ^ 31) 1 := by simpa [flushedCall] using hmem
    obtain ⟨rfl, rfl⟩ := Action.read.inj heq
    decide
  have hlast := (h 9 (2 ^ 22 + 1) (fun _ => 0) (flushedCall (.read (2 ^ 31) 1) ++ [.client .ok])
    (by decide) (by decide) hreads).last hrun
  have hexact := (hlast.2 _ hclient (by decide)).1 huncached
  rw [hsize] at hexact
  exact absurd hexact (by decide +kernel)

end Cs238p.P4.Logfs
