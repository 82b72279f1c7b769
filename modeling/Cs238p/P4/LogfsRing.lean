import Cs238p.Lib.RingLog
import Cs238p.P4.Logfs

set_option relaxedAutoImplicit false
set_option autoImplicit false

/-!
# The ring of the log

While a log passes through the write buffer, the positions of the ring follow from the number of
bytes of the log and the number of blocks that were written: a flush takes back exactly what it
added.

## Main definitions

* `Layout` — the log of bytes, the number of blocks written and the padding that a `Logfs` has.
* `Coherent` — the valid blocks of the read cache are those of the device.
* `ReadProgress` — the variables of `logfs_read` in its loop.

## Main results

* `Layout.appendByte`, `Layout.pad`, `Layout.unpad`, `Layout.writeBlock` — what the threads do to
  the log.
* `Layout.drained` — the worker signals `flush` once it has written the padded block.
* `ReadProgress.next` — one round of the loop of `logfs_read`.
-/

namespace Cs238p.P4.Logfs

open RingLog

/-- The size of the ring. -/
abbrev ringSize (B : ℕ) : ℕ := wcacheBlocks * B

/-- The valid blocks of the read cache are in their slots, with the bytes of the device. -/
def Coherent (logfs : Logfs) : Prop :=
  ∀ idx, (logfs.readCache idx).valid = true →
    idx = (logfs.readCache idx).blockId.tmod rcacheBlocks ∧
      (logfs.readCache idx).block =
        logfs.deviceRead ((logfs.readCache idx).blockId * logfs.blockSize) logfs.blockSize

/-- The log consists of the given bytes, of which `f` blocks are on the device and the last ones
are in the ring; behind it there are `d` bytes of padding. -/
structure Layout (B : ℕ) (logfs : Logfs) (log : List UInt8) (f d : ℕ) : Prop where
  pos : 0 < B
  blockSize : logfs.blockSize = B
  head : logfs.head = (log.length % ringSize B + d : ℕ)
  tail : logfs.tail = (B * f % ringSize B : ℕ)
  filled : logfs.writeBufferFilled = (log.length + d : ℕ) - (B * f : ℕ)
  fileOffset : logfs.fileOffset = (B * f : ℕ)
  le : B * f ≤ log.length + d
  room : log.length ≤ B * f + ringSize B
  stored : Stored (fun j : ℕ => logfs.device j) log (B * f)
  retained : Retained (fun j : ℕ => logfs.writeBuffer j) (ringSize B) log
  coherent : logfs.Coherent

/-- The padding of `flush_to_disk`. -/
def padding (B n : ℕ) : ℕ := B - n % B

/-- The whole log is on the device. -/
def Synced (B : ℕ) (logfs : Logfs) (log : List UInt8) (f : ℕ) : Prop :=
  Stored (fun j : ℕ => logfs.device j) log log.length ∧ log.length < B * f + B

variable {B f d n : ℕ} {logfs : Logfs} {log : List UInt8}

/-! ## Positions -/

lemma dvd_ringSize (B : ℕ) : B ∣ ringSize B := Nat.dvd_mul_left B wcacheBlocks

lemma lt_ringSize (hB : 0 < B) : B < ringSize B := by
  rw [ringSize, wcacheBlocks]
  omega

/-- The position of a block in the ring. -/
lemma mul_mod_ringSize (B f : ℕ) : B * f % ringSize B = B * (f % wcacheBlocks) := by
  rw [ringSize, Nat.mul_comm wcacheBlocks, Nat.mul_mod_mul_left]

/-- A block does not wrap around. -/
lemma mul_mod_ringSize_add_le (B f : ℕ) : B * f % ringSize B + B ≤ ringSize B := by
  have hlt : f % wcacheBlocks + 1 ≤ wcacheBlocks := Nat.mod_lt _ (by decide)
  have hmul := Nat.mul_le_mul_left B hlt
  rw [mul_mod_ringSize, ringSize, Nat.mul_comm wcacheBlocks]
  rw [Nat.mul_succ] at hmul
  exact hmul

/-- The position of a byte within its block. -/
lemma mod_ringSize_mod (B n : ℕ) : n % ringSize B % B = n % B :=
  Nat.mod_mod_of_dvd n (dvd_ringSize B)

/-- The block of a position in the ring. -/
lemma mod_ringSize_div (B n : ℕ) : n % ringSize B / B = n / B % wcacheBlocks := by
  rw [ringSize, Nat.mod_mul_left_div_self]

/-- The slots of a block are next to each other. -/
lemma mul_add_mod_ringSize {i : ℕ} (hi : i < B) :
    (B * f + i) % ringSize B = B * f % ringSize B + i := by
  have hle := mul_mod_ringSize_add_le B f
  have hlt := lt_ringSize (Nat.lt_of_le_of_lt (Nat.zero_le i) hi)
  rw [Nat.add_mod, Nat.mod_eq_of_lt (a := i) (by omega), Nat.mod_eq_of_lt (by omega)]

/-- The padded log ends with a block. -/
lemma add_padding (hB : 0 < B) : n + padding B n = B * (n / B + 1) := by
  have hdiv := Nat.div_add_mod n B
  have hlt := Nat.mod_lt n hB
  rw [padding, Nat.mul_succ]
  omega

lemma padding_pos (hB : 0 < B) : 0 < padding B n := by
  have := Nat.mod_lt n hB
  rw [padding]
  omega

/-- The position of the padded log's end, not yet taken modulo the size of the ring. -/
lemma mod_add_padding (hB : 0 < B) :
    n % ringSize B + padding B n = B * (n / B % wcacheBlocks + 1) := by
  have h := add_padding (n := n % ringSize B) hB
  rwa [mod_ringSize_div, padding, mod_ringSize_mod] at h

/-- Blocks are whole: less than a block is none. -/
lemma mul_eq_of_lt (hle : B * f ≤ B * n) (hlt : B * n < B * f + B) : B * f = B * n := by
  have h₁ : n < f + 1 := Nat.lt_of_mul_lt_mul_left (a := B) (by rw [Nat.mul_succ]; exact hlt)
  rcases Nat.lt_or_ge n f with h₂ | h₂
  · have := Nat.mul_le_mul_left B (Nat.le_of_lt h₂)
    omega
  · rw [show n = f by omega]

/-! ## The operations -/

/-- The log is empty after `logfs_open`. -/
lemma layout_logfsOpen (hB : 0 < B) (device : ℤ → UInt8) :
    Layout B (logfsOpen B device) [] 0 0 where
  pos := hB
  blockSize := rfl
  head := by simp [logfsOpen]
  tail := by simp [logfsOpen]
  filled := by simp [logfsOpen]
  fileOffset := by simp [logfsOpen]
  le := Nat.zero_le _
  room := Nat.zero_le _
  stored := stored_zero
  retained := retained_nil
  coherent := fun idx h => by simp [logfsOpen] at h

/-- **`logfs_append`** appends a byte if the ring has room. -/
theorem Layout.appendByte (h : Layout B logfs log f 0) (hroom : log.length < B * f + ringSize B)
    (b : UInt8) : Layout B (logfs.appendByte b) (log ++ [b]) f 0 where
  pos := h.pos
  blockSize := h.blockSize
  head := by
    rw [List.length_append, List.length_singleton, Logfs.appendByte]
    simp only [h.head, writeBufferSize, h.blockSize, Nat.add_zero]
    rw [show ((log.length % ringSize B : ℕ) : ℤ) + 1 = (log.length % ringSize B + 1 : ℕ) from rfl,
      ← Int.ofNat_tmod, Nat.mod_add_mod]
  tail := h.tail
  filled := by
    have := h.filled
    rw [List.length_append, List.length_singleton, Logfs.appendByte]
    simp only
    omega
  fileOffset := h.fileOffset
  le := by
    have := h.le
    rw [List.length_append]
    omega
  room := by
    rw [List.length_append, List.length_singleton]
    omega
  stored := h.stored.concat h.le b
  retained := by
    have hupdate : (fun j : ℕ => (logfs.appendByte b).writeBuffer j) =
        Function.update (fun j : ℕ => logfs.writeBuffer j) (log.length % ringSize B) b := by
      rw [Logfs.appendByte]
      simp only [h.head, Nat.add_zero]
      exact Function.update_comp_eq_of_injective _ (fun _ _ => Int.ofNat_inj.mp) _ _
    rw [hupdate]
    exact h.retained.concat b
  coherent := h.coherent

/-- The head is moved to the end of its block. -/
lemma distanceToMoveHead_eq (hB : 0 < B) (hsize : logfs.blockSize = B)
    (hhead : logfs.head = (n % ringSize B : ℕ)) : logfs.distanceToMoveHead = padding B n := by
  have hlt := Nat.mod_lt n hB
  rw [distanceToMoveHead, hhead, hsize, ← Int.ofNat_tmod, mod_ringSize_mod, padding]
  omega

/-- **The padding of `flush_to_disk`** fills the last block. -/
theorem Layout.pad (h : Layout B logfs log f 0) :
    logfs.distanceToMoveHead = padding B log.length ∧
      Layout B logfs.pad log f (padding B log.length) := by
  have hdistance : logfs.distanceToMoveHead = padding B log.length :=
    distanceToMoveHead_eq h.pos h.blockSize h.head
  refine ⟨hdistance, ?_⟩
  obtain ⟨hpos, hsize, hhead, htail, hfilled, hoff, hle, hroom, hstored, hretained, hcoherent⟩ := h
  refine ⟨hpos, hsize, ?_, htail, ?_, hoff, by omega, hroom, hstored, hretained, hcoherent⟩
  · rw [Logfs.pad, hdistance]
    simp only
    omega
  · rw [Logfs.pad, hdistance]
    simp only
    omega

/-- The worker has written the padded block: nothing is left in the ring. -/
lemma Layout.blocks_eq (h : Layout B logfs log f d) (hd : d = padding B log.length)
    (hlt : log.length + d < B * f + B) : f = log.length / B + 1 := by
  subst hd
  rw [add_padding h.pos] at hlt
  have hle := h.le
  rw [add_padding h.pos] at hle
  exact Nat.eq_of_mul_eq_mul_left h.pos (mul_eq_of_lt hle hlt)

/-- The ring once the padded block is written: the head is behind it, the tail as well, but modulo
the size of the ring. -/
lemma tail_of_padded (htail : logfs.tail = (B * (n / B + 1) % ringSize B : ℕ)) :
    logfs.tail = if n / B % wcacheBlocks + 1 = wcacheBlocks then 0
      else ((B * (n / B % wcacheBlocks) + B : ℕ) : ℤ) := by
  rw [htail, mul_mod_ringSize, Nat.add_mod, Nat.mod_eq_of_lt (a := 1) (by decide)]
  split
  · next heq => rw [heq, Nat.mod_self, Nat.mul_zero]; rfl
  · next hne =>
    have := Nat.mod_lt (n / B) (show 0 < wcacheBlocks by decide)
    rw [Nat.mod_eq_of_lt (a := _ + 1) (by omega), Nat.mul_succ]

/-- **The worker signals `flush`** once it has written the padded block. -/
lemma drained_of_padded (hB : 0 < B) (hsize : logfs.blockSize = B)
    (hhead : logfs.head = (n % ringSize B + padding B n : ℕ))
    (htail : logfs.tail = (B * (n / B + 1) % ringSize B : ℕ)) : logfs.Drained := by
  have hring : B * (n / B % wcacheBlocks + 1) = B * (n / B % wcacheBlocks) + B := Nat.mul_succ B _
  rw [mod_add_padding hB] at hhead
  rw [Drained, writeBufferSize, hsize, hhead, tail_of_padded htail]
  by_cases hlast : n / B % wcacheBlocks + 1 = wcacheBlocks
  · right
    rw [if_pos hlast, hlast, Nat.mul_comm]
    exact ⟨rfl, rfl⟩
  · left
    rw [if_neg hlast, hring]

/-- **The end of `flush_to_disk`** undoes the padding.

**Proof sketch.** The tail is at the end of the padded block, which is the start of the ring if the
block was the last one of the ring. In both cases it moves back to the start of that block. -/
lemma unpad_of_padded (hB : 0 < B) (hsize : logfs.blockSize = B)
    (hhead : logfs.head = (n % ringSize B + padding B n : ℕ))
    (htail : logfs.tail = (B * (n / B + 1) % ringSize B : ℕ)) :
    (logfs.unpad (padding B n)).head = (n % ringSize B : ℕ) ∧
      (logfs.unpad (padding B n)).tail = (B * (n / B) % ringSize B : ℕ) ∧
        (logfs.unpad (padding B n)).writeBufferFilled = (n % B : ℕ) := by
  have hend := mod_add_padding (n := n) hB
  have hring : B * (n / B % wcacheBlocks + 1) = B * (n / B % wcacheBlocks) + B := Nat.mul_succ B _
  have hhead' : logfs.head - (padding B n : ℕ) = (n % ringSize B : ℕ) := by omega
  have hpad : padding B n = B - n % B := rfl
  have hlt := Nat.mod_lt n hB
  rw [Logfs.unpad, mul_mod_ringSize]
  simp only [hhead', hsize, ← Int.ofNat_tmod, mod_ringSize_mod]
  refine ⟨trivial, ?_, trivial⟩
  rw [tail_of_padded htail]
  by_cases hlast : n / B % wcacheBlocks + 1 = wcacheBlocks
  · rw [if_pos hlast, if_pos rfl]
    omega
  · rw [if_neg hlast, if_neg (by omega)]
    omega

/-- **The end of `flush_to_disk`** takes the padded block back. -/
theorem Layout.unpad (h : Layout B logfs log f (padding B log.length))
    (hf : f = log.length / B + 1) :
    Layout B (logfs.unpad (padding B log.length)) log (log.length / B) 0 ∧
      Synced B (logfs.unpad (padding B log.length)) log (log.length / B) := by
  obtain ⟨hpos, hsize, hhead, htail, hfilled, hoff, hle, hroom, hstored, hretained, hcoherent⟩ := h
  subst hf
  obtain ⟨hhead', htail', hfilled'⟩ := unpad_of_padded hpos hsize hhead htail
  have hdiv := Nat.div_add_mod log.length B
  have hlt := Nat.mod_lt log.length hpos
  have hsmall := lt_ringSize hpos
  have hmul : B * (log.length / B + 1) = B * (log.length / B) + B := Nat.mul_succ B _
  refine ⟨⟨hpos, hsize, hhead', htail', ?_, ?_, ?_, ?_, ?_, hretained, hcoherent⟩, ?_, ?_⟩
  · rw [hfilled']
    omega
  · rw [Logfs.unpad]
    simp only [hsize]
    omega
  · omega
  · omega
  · exact fun j x hx hj => hstored j x hx (by omega)
  · exact fun j x hx hj => hstored j x hx (by omega)
  · omega

/-- The worker signals `flush` once it has written the padded block of the log. -/
theorem Layout.drained (h : Layout B logfs log f (padding B log.length))
    (hf : f = log.length / B + 1) : logfs.Drained := by
  subst hf
  exact drained_of_padded h.pos h.blockSize h.head h.tail

/-! ## Writing a block -/

/-- What is read from a part of the device that is not written. -/
lemma deviceRead_deviceWrite {off : ℤ} {len : ℕ}
    (hoff : off + len ≤ logfs.fileOffset ∨ logfs.fileOffset + logfs.blockSize ≤ off) :
    logfs.deviceWrite.deviceRead off len = logfs.deviceRead off len := by
  rw [deviceRead, deviceRead]
  apply List.map_congr_left
  intro j hj
  rw [List.mem_range] at hj
  rw [deviceWrite]
  simp only
  rw [if_neg (by omega)]

/-- Different blocks of the device do not overlap. -/
lemma block_le_or_le {b b' : ℤ} (hne : b ≠ b') (B : ℕ) :
    b * B + B ≤ b' * B ∨ b' * B + B ≤ b * B := by
  have hmul {c c' : ℤ} (h : c + 1 ≤ c') : c * B + B ≤ c' * B := by
    have := Int.mul_le_mul_of_nonneg_right h (Int.natCast_nonneg B)
    rwa [Int.add_mul, Int.one_mul] at this
  rcases Int.lt_or_gt_of_ne hne with h | h
  · exact .inl (hmul h)
  · exact .inr (hmul h)

/-- **Writing a block** keeps the read cache coherent: its slot becomes invalid. -/
lemma Coherent.deviceWrite (h : logfs.Coherent) {b : ℤ}
    (hb : logfs.fileOffset.tdiv logfs.blockSize = b)
    (hoff : logfs.fileOffset = b * logfs.blockSize) : logfs.invalidate.deviceWrite.Coherent := by
  have hsame : logfs.invalidate.deviceWrite.device = logfs.deviceWrite.device := by
    rw [invalidate_eq]
    rfl
  have hsize : logfs.invalidate.deviceWrite.blockSize = logfs.blockSize :=
    blockSize_invalidate logfs
  have hread (off : ℤ) (len : ℕ) : logfs.invalidate.deviceWrite.deviceRead off len =
      logfs.deviceWrite.deviceRead off len := by
    rw [deviceRead, deviceRead, hsame]
  -- A slot that stays valid holds another block.
  have hvalid (idx : ℤ) (hv : (logfs.invalidate.readCache idx).valid = true) :
      logfs.invalidate.readCache idx = logfs.readCache idx ∧ (logfs.readCache idx).blockId ≠ b := by
    rw [invalidate, hb] at hv ⊢
    by_cases hcached : (logfs.readCache (b.tmod rcacheBlocks)).blockId = b
    · rw [if_pos hcached] at hv ⊢
      by_cases hidx : idx = b.tmod rcacheBlocks
      · subst hidx
        simp at hv
      · simp only [Function.update_of_ne hidx] at hv
        refine ⟨Function.update_of_ne hidx _ _, fun heq => hidx ?_⟩
        rw [(h idx hv).1, heq]
    · rw [if_neg hcached] at hv ⊢
      refine ⟨rfl, fun heq => hcached ?_⟩
      rw [← heq, ← (h idx hv).1]
  intro idx hv
  obtain ⟨hcache, hne⟩ := hvalid idx hv
  have hcache' : logfs.invalidate.deviceWrite.readCache idx = logfs.readCache idx := hcache
  rw [hcache'] at hv ⊢
  obtain ⟨hidx, hblock⟩ := h idx hv
  refine ⟨hidx, ?_⟩
  rw [hsize, hread, deviceRead_deviceWrite, hblock]
  rw [hoff]
  exact block_le_or_le hne logfs.blockSize

/-- **The loop of `write_to_disk`** writes the next block of the log, or of the padded log. -/
theorem Layout.writeBlock (h : Layout B logfs log f d) (hfull : B * f + B ≤ log.length + d) :
    Layout B logfs.writeBlock log (f + 1) d := by
  have hmul : B * (f + 1) = B * f + B := Nat.mul_succ B f
  have hdiv : logfs.fileOffset.tdiv logfs.blockSize = (f : ℤ) := by
    rw [h.fileOffset, h.blockSize, ← Int.ofNat_tdiv, Nat.mul_div_cancel_left f h.pos]
  have hcoherent := h.coherent.deviceWrite hdiv
    (by rw [h.fileOffset, h.blockSize, Int.natCast_mul, Int.mul_comm])
  obtain ⟨hpos, hsize, hhead, htail, hfilled, hoff, hle, hroom, hstored, hretained, -⟩ := h
  refine ⟨hpos, (blockSize_writeBlock _).trans hsize, (head_writeBlock _).trans hhead, ?_, ?_, ?_,
    by omega, by omega, ?_, ?_, hcoherent⟩
  · rw [tail_writeBlock, htail, writeBufferSize, hsize, ← Int.natCast_add, ← Int.ofNat_tmod,
      Nat.mod_add_mod, hmul]
  · rw [writeBufferFilled_writeBlock, hfilled, hsize]
    omega
  · rw [fileOffset_writeBlock, hoff, hsize]
    omega
  · have hcopy := hstored.copy hretained hroom (mul_mod_ringSize_add_le B f)
    rw [hmul]
    convert hcopy using 2 with j
    rw [device_writeBlock, hoff, hsize, htail]
    by_cases hj : B * f ≤ j ∧ j < B * f + B
    · rw [if_pos (by omega), if_pos hj]
      congr 1
      omega
    · rw [if_neg (by omega), if_neg hj]
  · rw [writeBuffer_writeBlock]
    exact hretained

/-! ## Reading -/

/-- The variables of `logfs_read` in its loop: the bytes read so far are those of the device, and
the next ones are at `readStartOff` of the block. -/
structure ReadProgress (B : ℕ) (logfs : Logfs) (r : Reading) : Prop where
  le : r.readTillNow ≤ r.len
  buf : r.buf = logfs.deviceRead r.off r.readTillNow
  position : r.readTillNow < r.len → r.blockId * B + r.readStartOff = (r.off + r.readTillNow : ℕ)
  start_lt : r.readStartOff < B
  lenToRead : r.lenToRead = min (B - r.readStartOff) (r.len - r.readTillNow)

/-- Adjacent parts of the device. -/
lemma deviceRead_add (logfs : Logfs) (off : ℤ) (a b : ℕ) :
    logfs.deviceRead off (a + b) = logfs.deviceRead off a ++ logfs.deviceRead (off + a) b := by
  rw [deviceRead, List.range_add, List.map_append, List.map_map, deviceRead, deviceRead]
  congr 1
  apply List.map_congr_left
  intro j _
  rw [Function.comp_apply, Int.natCast_add, Int.add_assoc]

@[simp] lemma length_deviceRead (logfs : Logfs) (off : ℤ) (len : ℕ) :
    (logfs.deviceRead off len).length = len := by
  rw [deviceRead, List.length_map, List.length_range]

/-- A part of a block. -/
lemma deviceRead_drop_take (logfs : Logfs) (off : ℤ) {len i k : ℕ} (h : i + k ≤ len) :
    ((logfs.deviceRead off len).drop i).take k = logfs.deviceRead (off + i) k := by
  obtain ⟨m, rfl⟩ : ∃ m, len = i + (k + m) := ⟨len - i - k, by omega⟩
  rw [deviceRead_add, List.drop_left' (length_deviceRead _ _ _), deviceRead_add,
    List.take_left' (length_deviceRead _ _ _)]

/-- A block that is cached has the bytes of the device. -/
lemma Coherent.block_eq (h : logfs.Coherent) {b : ℤ} (hb : logfs.Cached b) :
    (logfs.readCache (b.tmod rcacheBlocks)).block =
      logfs.deviceRead (b * logfs.blockSize) logfs.blockSize := by
  obtain ⟨-, hblock⟩ := h _ hb.1
  rw [hblock, hb.2]

/-- A block that is read into the cache. -/
lemma readBlock_block (logfs : Logfs) (b : ℤ) :
    ((logfs.readBlock b).readCache (b.tmod rcacheBlocks)).block =
      logfs.deviceRead (b * logfs.blockSize) logfs.blockSize := by
  rw [readBlock]
  simp only [Function.update_self]

lemma Coherent.readBlock (h : logfs.Coherent) (b : ℤ) : (logfs.readBlock b).Coherent := by
  intro idx hv
  by_cases hidx : idx = b.tmod rcacheBlocks
  · subst hidx
    rw [readBlock_block, Logfs.readBlock]
    simp only [Function.update_self]
    exact ⟨trivial, rfl⟩
  · have hsame : (logfs.readBlock b).readCache idx = logfs.readCache idx :=
      Function.update_of_ne hidx _ _
    rw [hsame] at hv ⊢
    exact h idx hv

/-- Reading a block into the cache does not touch the log. -/
lemma Layout.readBlock (h : Layout B logfs log f d) (b : ℤ) :
    Layout B (logfs.readBlock b) log f d :=
  ⟨h.pos, h.blockSize, h.head, h.tail, h.filled, h.fileOffset, h.le, h.room, h.stored, h.retained,
    h.coherent.readBlock b⟩

/-- The loop of `logfs_read` begins. -/
lemma readProgress_begin (hB : 0 < B) (logfs : Logfs) (off len : ℕ) :
    ReadProgress B logfs (Reading.begin B off len) where
  le := Nat.zero_le _
  buf := rfl
  position := by
    intro _
    have hdiv := Nat.div_add_mod off B
    show ((off / B : ℕ) : ℤ) * B + (off % B : ℕ) = (off + 0 : ℕ)
    rw [← Int.natCast_mul, Nat.mul_comm, ← Int.natCast_add, hdiv, Nat.add_zero]
  start_lt := Nat.mod_lt off hB
  lenToRead := Nat.min_comm _ _

/-- **A round of the loop of `logfs_read`** copies the next bytes of the device. -/
theorem ReadProgress.next {r : Reading} (h : ReadProgress B logfs r) (hlt : r.readTillNow < r.len) :
    ReadProgress B logfs (r.next B (logfs.deviceRead (r.blockId * B) B)) := by
  obtain ⟨hle, hbuf, hposition, hstart, hlen⟩ := h
  have hposition := hposition hlt
  refine ⟨?_, ?_, ?_, ?_, ?_⟩
  · show r.readTillNow + r.lenToRead ≤ r.len
    omega
  · show r.buf ++ ((logfs.deviceRead (r.blockId * B) B).drop r.readStartOff).take r.lenToRead =
      logfs.deviceRead r.off (r.readTillNow + r.lenToRead)
    rw [deviceRead_drop_take _ _ (by omega), hposition, hbuf, deviceRead_add, Int.natCast_add]
  · intro hmore
    show (r.blockId + 1) * B + (0 : ℕ) = (r.off + (r.readTillNow + r.lenToRead) : ℕ)
    have hmore' : r.readTillNow + r.lenToRead < r.len := hmore
    rw [Int.add_mul, Int.one_mul]
    omega
  · show 0 < B
    omega
  · rfl

/-- **What is read from a log that is on the device** is the log. -/
lemma Synced.deviceRead_eq (h : Synced B logfs log f) {off len : ℕ}
    (hlen : off + len ≤ log.length) : logfs.deviceRead off len = (log.drop off).take len :=
  h.1.slice_eq (Nat.le_refl _) hlen

end Cs238p.P4.Logfs
