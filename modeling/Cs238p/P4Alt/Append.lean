import Cs238p.Lib.Pieces
import Cs238p.P4Alt.Logfs

set_option relaxedAutoImplicit false
set_option autoImplicit false

/-!
# What the write cache of `p4_alt` holds

The write cache is a sequence of bytes, cut into blocks. `logfs_append` continues the sequence, in
the last block or in a new one. Each round of its loop copies from the beginning of the buffer, so
that bytes behind the first round are those of the first rounds again.

## Main definitions

* `blocksOf` — a sequence of bytes as a list of blocks.
* `stored` — the bytes by which `logfs_append` continues the sequence.
* `Repeats` — the bytes behind the first round are those that are copied for them.
* `Caches` — the write cache holds given bytes.

## Main results

* `Holds.append` — the write cache is always a sequence of bytes in blocks.
* `caches_iff_repeats` — it is that of the appended bytes exactly if all buffers repeat themselves.
-/

namespace Cs238p.P4Alt

open Pieces

/-! ## Sequences of bytes in blocks -/

/-- A block that is filled from its beginning. -/
def blockOf (id : ℕ) (bytes : List UInt8) : LogfsBlock :=
  ⟨id, bytes ++ List.replicate (blockSize - bytes.length) 0, bytes.length⟩

/-- A sequence of bytes in blocks. -/
def blocksOf (bytes : List UInt8) : List LogfsBlock := (pieces blockSize bytes).mapIdx blockOf

/-- The write cache is a sequence of bytes in blocks. -/
structure Holds (logfs : Logfs) (bytes : List UInt8) : Prop where
  size : logfs.size = bytes.length
  wcache : logfs.wcache = blocksOf bytes
  wcacheBlocks : logfs.wcacheBlocks = (pieces blockSize bytes).length

/-- The write cache holds bytes: the size is their number, the blocks are numbered in order, all but
the last are full, and the bytes are the first ones of the blocks. -/
structure Caches (logfs : Logfs) (bytes : List UInt8) : Prop where
  size : logfs.size = bytes.length
  ids : logfs.wcache.map LogfsBlock.id = List.range logfs.wcache.length
  full : ∀ block ∈ logfs.wcache.dropLast, block.size = blockSize
  bytes : (logfs.wcache.flatMap fun block => block.data.take block.size) = bytes

lemma blockSize_pos : 0 < blockSize := by decide

variable {logfs : Logfs} {bytes : List UInt8}

lemma take_blockOf (id : ℕ) (p : List UInt8) :
    (blockOf id p).data.take (blockOf id p).size = p := by
  rw [blockOf, List.take_left]

/-- A sequence is read from its blocks. -/
lemma flatMap_blocksOf (bytes : List UInt8) :
    ((blocksOf bytes).flatMap fun block => block.data.take block.size) = bytes := by
  have hdata : ∀ ps : List (List UInt8), ∀ f : ℕ → ℕ,
      ((ps.mapIdx fun i p => blockOf (f i) p).flatMap fun block => block.data.take block.size) =
        ps.flatten := by
    intro ps
    induction ps with
    | nil => exact fun _ => rfl
    | cons p ps ih =>
      intro f
      rw [List.mapIdx_cons, List.flatMap_cons, take_blockOf, ih fun i => f (i + 1),
        List.flatten_cons]
  rw [blocksOf, hdata _ fun i => i, flatten_pieces blockSize_pos]

lemma ids_blocksOf (bytes : List UInt8) :
    (blocksOf bytes).map LogfsBlock.id = List.range (blocksOf bytes).length := by
  refine List.ext_getElem (by simp) fun i hi _ => ?_
  simp [blocksOf, blockOf]

/-- All blocks but the last are full. -/
lemma full_blocksOf (bytes : List UInt8) {block : LogfsBlock}
    (h : block ∈ (blocksOf bytes).dropLast) : block.size = blockSize := by
  obtain ⟨i, hi, rfl⟩ := List.getElem_of_mem h
  have hlt : i < (pieces blockSize bytes).dropLast.length := by
    simpa [blocksOf] using hi
  have hsize :
      ((blocksOf bytes).dropLast[i]).size = ((pieces blockSize bytes).dropLast[i]).length := by
    simp [blocksOf, blockOf]
  rw [hsize]
  exact length_of_mem_dropLast blockSize_pos (List.getElem_mem hlt)

/-- A sequence in blocks is that of the bytes that are read from them. -/
lemma Holds.caches_iff (h : Holds logfs bytes) {bytes' : List UInt8} :
    Caches logfs bytes' ↔ bytes = bytes' := by
  constructor
  · intro hcaches
    rw [← hcaches.bytes, h.wcache, flatMap_blocksOf]
  · rintro rfl
    refine ⟨h.size, ?_, ?_, ?_⟩
    · rw [h.wcache, ids_blocksOf]
    · rw [h.wcache]
      exact fun block => full_blocksOf bytes
    · rw [h.wcache, flatMap_blocksOf]

/-- The write cache of an opened log is the empty sequence. -/
lemma holds_logfsOpen (deviceBlock : ℕ) (device : ℕ → UInt8) :
    Holds (logfsOpen deviceBlock device) [] := by
  refine ⟨rfl, ?_, ?_⟩
  · rw [blocksOf, pieces_nil]
    rfl
  · rw [pieces_nil]
    rfl

/-! ## A round of the loop -/

/-- The bytes of a block that is not full are continued. -/
lemma extend_blockOf (id : ℕ) {p : List UInt8} (hp : p.length < blockSize) (src : List UInt8) :
    (⟨id, memcpy (blockOf id p).data (p.length % blockSize) src, p.length + src.length⟩ :
      LogfsBlock) = blockOf id (p ++ src) := by
  have hdrop : (p ++ List.replicate (blockSize - p.length) 0).drop (p.length + src.length) =
      List.replicate (blockSize - (p.length + src.length)) 0 := by
    rw [← List.drop_drop, List.drop_left, List.drop_replicate, Nat.sub_sub]
  rw [Nat.mod_eq_of_lt hp, memcpy, blockOf, blockOf, List.take_left, hdrop, List.length_append]

/-- The next round needs a new block exactly behind a full one. -/
lemma Holds.remainingSpace_eq_iff (h : Holds logfs bytes) :
    logfs.remainingSpace = blockSize ↔ blockSize ∣ bytes.length := by
  have hpos := blockSize_pos
  have hmod := Nat.mod_lt logfs.size hpos
  rw [Logfs.remainingSpace, Nat.dvd_iff_mod_eq_zero, ← h.size]
  omega

/-- **A round continues the sequence**, in the last block or in a new one. -/
lemma Holds.copy (h : Holds logfs bytes) {src : List UInt8} (hsrc : src ≠ [])
    (hspace : src.length ≤ logfs.remainingSpace) :
    Holds (logfs.newBlock.copy src) (bytes ++ src) := by
  have hpos := blockSize_pos
  have hmod := Nat.mod_lt bytes.length hpos
  have hfits : bytes.length % blockSize + src.length ≤ blockSize := by
    rw [Logfs.remainingSpace, h.size] at hspace
    omega
  by_cases hdvd : blockSize ∣ bytes.length
  · have hpieces := pieces_append_of_dvd hpos hdvd hsrc (by omega)
    rw [Logfs.newBlock, if_pos (h.remainingSpace_eq_iff.mpr hdvd)]
    refine ⟨?_, ?_, ?_⟩
    · rw [Logfs.copy, List.length_append, h.size]
    · rw [Logfs.copy]
      dsimp only
      rw [List.modifyLast_concat, h.wcache, h.wcacheBlocks, blocksOf, blocksOf, hpieces,
        List.mapIdx_concat]
      have hblock := @extend_blockOf (pieces blockSize bytes).length [] hpos src
      rw [List.nil_append] at hblock
      rw [← hblock]
      rfl
    · rw [Logfs.copy, hpieces, List.length_append, h.wcacheBlocks]
      rfl
  · obtain ⟨ps, q, hold, hnew, hq⟩ := exists_pieces_append hpos hdvd hfits
    rw [Logfs.newBlock, if_neg (mt h.remainingSpace_eq_iff.mp hdvd)]
    refine ⟨?_, ?_, ?_⟩
    · rw [Logfs.copy, List.length_append, h.size]
    · rw [Logfs.copy]
      dsimp only
      rw [h.wcache, blocksOf, blocksOf, hold, hnew, List.mapIdx_concat, List.mapIdx_concat,
        List.modifyLast_concat, ← extend_blockOf _ (hq ▸ hmod)]
      rfl
    · rw [Logfs.copy, h.wcacheBlocks, hold, hnew, List.length_append, List.length_append]
      rfl

/-! ## The loop -/

/-- The place in the buffer of the byte that is stored as the byte `j` of it. -/
def source (size j : ℕ) : ℕ :=
  if j < blockSize - size % blockSize then j else (j - (blockSize - size % blockSize)) % blockSize

/-- What the loop stores in rounds of `len` bytes in all. -/
def stored (size len : ℕ) (buf : List UInt8) : List UInt8 :=
  (List.range len).map fun j => buf.getD (source size j) 0

@[simp] lemma length_stored (size len : ℕ) (buf : List UInt8) :
    (stored size len buf).length = len := by
  rw [stored, List.length_map, List.length_range]

/-- The first round stores the first bytes of the buffer. -/
lemma stored_of_le {size len : ℕ} {buf : List UInt8} (hlen : len ≤ buf.length)
    (h : len ≤ blockSize - size % blockSize) : stored size len buf = buf.take len := by
  refine List.ext_getElem (by simp [hlen]) fun j hj _ => ?_
  rw [length_stored] at hj
  have hsource : source size j = j := if_pos (by omega)
  simp [stored, hsource, List.getElem?_eq_getElem (show j < buf.length by omega)]

/-- The other rounds store bytes of the buffer from its beginning again. -/
lemma stored_add {size len : ℕ} {buf : List UInt8}
    (hlen : blockSize - size % blockSize ≤ buf.length) :
    stored size (blockSize - size % blockSize + len) buf =
      buf.take (blockSize - size % blockSize) ++
        stored (size + (blockSize - size % blockSize)) len buf := by
  have hpos := blockSize_pos
  have hmod := Nat.mod_lt size hpos
  have haligned : (size + (blockSize - size % blockSize)) % blockSize = 0 := by
    simp only [blockSize]
    omega
  rw [← stored_of_le hlen le_rfl, stored, List.range_add, List.map_append, List.map_map, stored,
    stored]
  refine congrArg _ (List.map_congr_left fun j _ => ?_)
  have hleft : source size (blockSize - size % blockSize + j) = j % blockSize := by
    rw [source, if_neg (by omega), Nat.add_sub_cancel_left]
  have hright : source (size + (blockSize - size % blockSize)) j = j % blockSize := by
    rw [source, haligned, Nat.sub_zero]
    split
    · next hlt => exact (Nat.mod_eq_of_lt hlt).symm
    · next hle => exact (Nat.mod_eq_sub_mod (Nat.not_lt.mp hle)).symm
  rw [Function.comp, hleft, hright]

/-- **The loop continues the sequence by what it stores.** -/
lemma Holds.appendLoop {logfs : Logfs} {bytes buf : List UInt8} {len : ℕ}
    (h : Holds logfs bytes) (hlen : len ≤ buf.length) :
    Holds (logfs.appendLoop buf len) (bytes ++ stored bytes.length len buf) := by
  have hmod := Nat.mod_lt bytes.length blockSize_pos
  have hspace : logfs.remainingSpace = blockSize - bytes.length % blockSize := by
    rw [Logfs.remainingSpace, h.size]
  rw [Logfs.appendLoop]
  split
  · next hpos =>
    generalize hcopy : (if len < logfs.remainingSpace then len else logfs.remainingSpace) = copySize
    have hle : copySize ≤ len ∧ copySize ≤ logfs.remainingSpace ∧ 0 < copySize := by
      rw [← hcopy]
      split <;> omega
    have hlength : (buf.take copySize).length = copySize := by
      rw [List.length_take]
      omega
    have hne : buf.take copySize ≠ [] := List.ne_nil_of_length_pos (by omega)
    have hround := h.copy hne (by omega)
    have hrest := hround.appendLoop (show len - copySize ≤ buf.length by omega)
    rw [List.append_assoc, List.length_append, hlength] at hrest
    have hstored : stored bytes.length len buf =
        buf.take copySize ++ stored (bytes.length + copySize) (len - copySize) buf := by
      by_cases hlast : len < logfs.remainingSpace
      · rw [if_pos hlast] at hcopy
        rw [← hcopy, Nat.sub_self, stored_of_le hlen (by omega)]
        exact (List.append_nil _).symm
      · rw [if_neg hlast] at hcopy
        have := @stored_add bytes.length (len - copySize) buf (by omega)
        rw [← hspace, hcopy, Nat.add_sub_cancel' hle.1] at this
        exact this
    rw [hstored]
    exact hrest
  · next hzero =>
    obtain rfl : len = 0 := Nat.eq_zero_of_not_pos hzero
    rw [stored, List.range_zero, List.map_nil, List.append_nil]
    exact h
termination_by len
decreasing_by omega

/-- The device is left to the worker. -/
lemma device_appendLoop (buf : List UInt8) (len : ℕ) (logfs : Logfs) :
    (logfs.appendLoop buf len).device = logfs.device := by
  fun_induction Logfs.appendLoop buf len logfs with
  | case1 len logfs _ _ ih =>
    rw [ih, Logfs.copy, Logfs.newBlock]
    split <;> rfl
  | case2 => rfl

/-! ## Sequences of calls -/

/-- The bytes behind the first round are those at the beginning of the buffer, again and again. -/
def Repeats (size : ℕ) (buf : List UInt8) : Prop :=
  ∀ j < buf.length, blockSize - size % blockSize ≤ j →
    buf[j]? = buf[(j - (blockSize - size % blockSize)) % blockSize]?

/-- A buffer is stored as it is exactly if it repeats itself. -/
lemma stored_eq_iff {size : ℕ} {buf : List UInt8} :
    stored size buf.length buf = buf ↔ Repeats size buf := by
  have hpos := blockSize_pos
  have hsource : ∀ j < buf.length, source size j < buf.length := by
    intro j hj
    rw [source]
    split
    · exact hj
    · exact (Nat.mod_le _ _).trans_lt (by omega)
  have hget : ∀ j < buf.length, (stored size buf.length buf)[j]? = buf[source size j]? := by
    intro j hj
    rw [List.getElem?_eq_getElem (by simpa using hj), List.getElem?_eq_getElem (hsource j hj)]
    simp [stored, List.getElem?_eq_getElem (hsource j hj)]
  constructor
  · intro heq j hj hspace
    have hj' := hget j hj
    rw [heq, source, if_neg (by omega)] at hj'
    exact hj'
  · intro hrepeats
    refine List.ext_getElem? fun j => ?_
    by_cases hj : j < buf.length
    · rw [hget j hj, source]
      split
      · rfl
      · next hspace => exact (hrepeats j hj (by omega)).symm
    · rw [List.getElem?_eq_none (by simpa using hj), List.getElem?_eq_none (by omega)]

/-- What a sequence of calls stores. -/
def storedAll : ℕ → List (List UInt8) → List UInt8
  | _, [] => []
  | size, buf :: bufs => stored size buf.length buf ++ storedAll (size + buf.length) bufs

/-- Calls continue the sequence. -/
lemma Holds.foldl_append (h : Holds logfs bytes) (bufs : List (List UInt8)) :
    Holds (bufs.foldl Logfs.append logfs) (bytes ++ storedAll bytes.length bufs) := by
  induction bufs generalizing logfs bytes with
  | nil =>
    rw [storedAll, List.append_nil]
    exact h
  | cons buf bufs ih =>
    have hcall := ih (h.appendLoop (@le_rfl _ _ buf.length))
    rw [List.length_append, length_stored, List.append_assoc] at hcall
    exact hcall

/-- Calls store their buffers exactly if each of them repeats itself. -/
lemma storedAll_eq_iff (size : ℕ) (bufs : List (List UInt8)) :
    storedAll size bufs = bufs.flatten ↔
      ∀ pre buf, pre ++ [buf] <+: bufs → Repeats (size + pre.flatten.length) buf := by
  induction bufs generalizing size with
  | nil => simp [storedAll]
  | cons buf bufs ih =>
    have hsplit : storedAll size (buf :: bufs) = (buf :: bufs).flatten ↔
        Repeats size buf ∧ storedAll (size + buf.length) bufs = bufs.flatten := by
      rw [storedAll, List.flatten_cons, ← stored_eq_iff]
      constructor
      · exact fun heq => List.append_inj heq (length_stored _ _ _)
      · rintro ⟨hbuf, hbufs⟩
        rw [hbuf, hbufs]
    rw [hsplit, ih]
    constructor
    · rintro ⟨hbuf, hbufs⟩ pre buf' hpre
      cases pre with
      | nil =>
        obtain rfl : buf' = buf := by simpa using hpre
        exact hbuf
      | cons b pre =>
        obtain ⟨rfl, htail⟩ : b = buf ∧ pre ++ [buf'] <+: bufs := by simpa using hpre
        rw [List.flatten_cons, List.length_append, ← Nat.add_assoc]
        exact hbufs pre buf' htail
    · intro h
      refine ⟨h [] buf ⟨bufs, rfl⟩, fun pre buf' hpre => ?_⟩
      have := h (buf :: pre) buf' (by simpa using hpre)
      rw [List.flatten_cons, List.length_append, ← Nat.add_assoc] at this
      exact this

/-- **The write cache holds the appended bytes exactly if all buffers repeat themselves** behind the
space that was left in the last block.

**Proof sketch.** A round of the loop continues the bytes of the cache by the first bytes of the
buffer. The first round fills the space that is left, and the others start from the beginning of the
buffer again. -/
theorem caches_iff_repeats (deviceBlock : ℕ) (device : ℕ → UInt8) (bufs : List (List UInt8)) :
    Caches (bufs.foldl Logfs.append (logfsOpen deviceBlock device)) bufs.flatten ↔
      ∀ pre buf, pre ++ [buf] <+: bufs → Repeats pre.flatten.length buf := by
  have h := (holds_logfsOpen deviceBlock device).foldl_append bufs
  rw [h.caches_iff, List.nil_append, List.length_nil, storedAll_eq_iff]
  simp only [Nat.zero_add]

/-- Two bytes that are appended when there is space for one: the first one is stored twice. -/
theorem not_caches_split :
    ¬ Caches ([List.replicate 4095 0, [1, 2]].foldl Logfs.append (logfsOpen 512 fun _ => 0))
      (List.replicate 4095 0 ++ [1, 2]) := by
  have h := (holds_logfsOpen 512 fun _ => 0).foldl_append [List.replicate 4095 0, [1, 2]]
  rw [h.caches_iff, List.nil_append, List.length_nil]
  intro heq
  have hrepeats := (storedAll_eq_iff 0 [List.replicate 4095 0, [1, 2]]).mp
    (heq.trans (by simp only [List.flatten_cons, List.flatten_nil, List.append_nil]))
    [List.replicate 4095 0] [1, 2] (List.prefix_refl _)
  rw [List.flatten_singleton, List.length_replicate] at hrepeats
  exact absurd (hrepeats 1 (by decide) (by decide)) (by decide)

end Cs238p.P4Alt
