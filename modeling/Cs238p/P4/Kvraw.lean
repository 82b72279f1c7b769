import Cs238p.Lib.Memory
import Cs238p.Lib.Transition
import Cs238p.P4.Index

set_option relaxedAutoImplicit false
set_option autoImplicit false

/-!
# Records of `p4/kvraw.c`

Records are appended to a log of bytes. A record is a packed header with a link, the lengths of the
key and of the value, followed by the key and the value.

## Main definitions

* `Meta`, `Meta.encode`, `Meta.decode` — `struct meta` and its bytes.
* `Kvraw`, `readMeta`, `kvrawOpen`, `kvrawLookup`, `kvrawAppend` — as in the source.
* `Record`, `RecordAt` — a record that lies in the log at an offset.
* `appendStep` — a call of `kvraw_append` on an ideal log, as a step.

## Main results

* `Meta.decode_encode` — the header round trip.
* `kvrawLookup_of_recordAt` — what `kvraw_lookup` returns for a record of the log.
* `recordAt_kvrawAppend`, `RecordAt.mono` — an appended record lies in the log, and earlier
  ones stay.
* `kvraw_round_trip` — every record of a sequence of appends can be looked up after all of them.

## Implementation notes

The log is ideal: `logfs_append` appends its bytes, `logfs_read` returns what was appended. Which of
the three appends of a record fails, if any, is a parameter of `kvrawAppend`. A pointer to a buffer
is `none` if it is null and else the contents of the buffer.
-/

namespace Cs238p.P4

open LittleEndian Transition

/-- `struct meta`. -/
structure Meta where
  mark : UInt8 × UInt8
  off : ℕ
  keyLen : ℕ
  valLen : ℕ
  deriving DecidableEq, Repr

/-- `META_LEN`. -/
def metaLen : ℕ := 16

/-- The bytes of the packed header. -/
def Meta.encode (m : Meta) : List UInt8 :=
  m.mark.1 :: m.mark.2 :: (toBytes 8 m.off ++ (toBytes 2 m.keyLen ++ toBytes 4 m.valLen))

/-- The header at the beginning of a sequence of bytes. -/
def Meta.decode (bytes : List UInt8) : Meta where
  mark := (bytes.getD 0 0, bytes.getD 1 0)
  off := ofBytes ((bytes.drop 2).take 8)
  keyLen := ofBytes ((bytes.drop 10).take 2)
  valLen := ofBytes ((bytes.drop 12).take 4)

/-- The mark `'K'`, `'V'` of a header. -/
def kvMark : UInt8 × UInt8 := (75, 86)

/-- `struct kvraw`, with the bytes of its log. -/
structure Kvraw where
  size : ℕ
  logfs : List UInt8

/-- `logfs_read`. -/
def logfsRead (log : List UInt8) (off len : ℕ) : List UInt8 := (log.drop off).take len

/-- `read_meta`. -/
def readMeta (kvraw : Kvraw) (off : ℕ) : Option Meta :=
  if u64 (off + metaLen) > kvraw.size then none
  else
    let m := Meta.decode (logfsRead kvraw.logfs off metaLen)
    if m.mark ≠ kvMark ∨ u64 (off + metaLen + m.keyLen + m.valLen) > kvraw.size then none
    else some m

/-- Bytes are copied to the beginning of a buffer. -/
def copyTo (buf : Option (List UInt8)) (bytes : List UInt8) : Option (List UInt8) :=
  buf.map fun b => bytes ++ b.drop bytes.length

/-- What `kvraw_lookup` leaves in its arguments. -/
structure Found where
  key : Option (List UInt8)
  keyLen : ℕ
  val : Option (List UInt8)
  valLen : ℕ
  off : ℕ
  deriving DecidableEq, Repr

/-- `kvraw_lookup`. The result is `none` where the source returns `-1`. -/
def kvrawLookup (kvraw : Kvraw) (key : Option (List UInt8)) (keyLen : ℕ)
    (val : Option (List UInt8)) (valLen : ℕ) (off : ℕ) : Except Stop (Option Found) :=
  if (keyLen ≠ 0 ∧ key = none) ∨ (valLen ≠ 0 ∧ val = none) ∨ off = 0 then .error .assertion
  else
    match readMeta kvraw off with
    | none => .ok none
    | some m =>
      let keyLen_ := min m.keyLen keyLen
      let valLen_ := min m.valLen valLen
      .ok (some ⟨copyTo key (logfsRead kvraw.logfs (u64 (off + metaLen)) keyLen_), m.keyLen,
        copyTo val (logfsRead kvraw.logfs (u64 (off + metaLen + m.keyLen)) valLen_), m.valLen,
        m.off⟩)

/-- `kvraw_append`, with the number of the `logfs_append` that fails, if any. It returns the
record's offset, `none` where the source returns `-1`. -/
def kvrawAppend (failAt : Option ℕ) (kvraw : Kvraw) (key val : List UInt8) (off : ℕ) :
    Except Stop (Kvraw × Option ℕ) :=
  if key.length = 0 ∨ key.length > 0xffff ∨ val.length > 0xffffffff then .error .assertion
  else
    let m : Meta := ⟨kvMark, off, key.length % 2 ^ 16, val.length % 2 ^ 32⟩
    let log₁ := kvraw.logfs ++ m.encode
    let log₂ := log₁ ++ key.take m.keyLen
    let log₃ := log₂ ++ val.take m.valLen
    match failAt with
    | some 0 => .ok (kvraw, none)
    | some 1 => .ok ({ kvraw with logfs := log₁ }, none)
    | some 2 => .ok ({ kvraw with logfs := log₂ }, none)
    | _ => .ok (⟨u64 (kvraw.size + (metaLen + m.keyLen + m.valLen)), log₃⟩, some kvraw.size)

/-- `kvraw_open` on an empty log: a record is appended at offset `0`, with whatever the variable
`off` contains as its link. -/
def kvrawOpen (off : ℕ) : Kvraw :=
  match kvrawAppend none ⟨0, []⟩ [0] [0] off with
  | .ok (kvraw, _) => kvraw
  | .error _ => ⟨0, []⟩

/-! ## Records -/

/-- What a record holds. -/
structure Record where
  link : ℕ
  key : List UInt8
  val : List UInt8
  deriving DecidableEq, Repr

namespace Record

/-- The header of a record. -/
def header (r : Record) : Meta := ⟨kvMark, r.link, r.key.length, r.val.length⟩

/-- The bytes of a record. -/
def bytes (r : Record) : List UInt8 := r.header.encode ++ (r.key ++ r.val)

/-- The fields of the record fit into its header. -/
def Fits (r : Record) : Prop :=
  r.link < 2 ^ 64 ∧ r.key.length < 2 ^ 16 ∧ r.val.length < 2 ^ 32

end Record

/-- The record lies in the log at the offset. -/
def RecordAt (kvraw : Kvraw) (off : ℕ) (r : Record) : Prop :=
  r.Fits ∧ ∃ pre post, kvraw.logfs = pre ++ (r.bytes ++ post) ∧ pre.length = off

/-- The store knows the size of its log, which is less than `2 ^ 64`. -/
def Kvraw.Sized (kvraw : Kvraw) : Prop :=
  kvraw.size = kvraw.logfs.length ∧ kvraw.logfs.length < 2 ^ 64

variable {kvraw kvraw' : Kvraw} {r : Record} {off : ℕ}

@[simp] lemma Meta.length_encode (m : Meta) : m.encode.length = 16 := by
  simp [Meta.encode]

/-- **The header round trip**, whatever follows the header. -/
theorem Meta.decode_encode {m : Meta} (hoff : m.off < 2 ^ 64) (hkey : m.keyLen < 2 ^ 16)
    (hval : m.valLen < 2 ^ 32) : Meta.decode m.encode = m := by
  have hoff' : ofBytes (toBytes 8 m.off) = m.off := ofBytes_toBytes_of_lt hoff
  have hkey' : ofBytes (toBytes 2 m.keyLen) = m.keyLen := ofBytes_toBytes_of_lt hkey
  have hval' : ofBytes (toBytes 4 m.valLen) = m.valLen := ofBytes_toBytes_of_lt hval
  have hdrop : ∀ n, m.encode.drop (n + 2) =
      (toBytes 8 m.off ++ (toBytes 2 m.keyLen ++ toBytes 4 m.valLen)).drop n := fun _ => rfl
  have htake₁ : (m.encode.drop 2).take 8 = toBytes 8 m.off := by
    rw [hdrop 0, List.drop_zero, List.take_append_of_le_length (by simp), List.take_of_length_le
      (by simp)]
  have htake₂ : (m.encode.drop 10).take 2 = toBytes 2 m.keyLen := by
    rw [hdrop 8, List.drop_append, List.drop_of_length_le (by simp), length_toBytes,
      List.nil_append, List.drop_zero, List.take_append_of_le_length (by simp),
      List.take_of_length_le (by simp)]
  have htake₃ : (m.encode.drop 12).take 4 = toBytes 4 m.valLen := by
    rw [hdrop 10, List.drop_append, List.drop_of_length_le (by simp), length_toBytes,
      List.nil_append, List.drop_append, List.drop_of_length_le (by simp), length_toBytes,
      List.nil_append, List.drop_zero, List.take_of_length_le (by simp)]
  rw [Meta.decode, htake₁, htake₂, htake₃, hoff', hkey', hval']
  rfl

/-- Reading from a log behind its beginning. -/
lemma logfsRead_append (pre l : List UInt8) (n k : ℕ) :
    logfsRead (pre ++ l) (pre.length + n) k = (l.drop n).take k := by
  rw [logfsRead, List.drop_append, List.drop_of_length_le (by omega), List.nil_append,
    Nat.add_sub_cancel_left]

/-- The length of a record. -/
lemma Record.length_bytes (r : Record) : r.bytes.length = 16 + r.key.length + r.val.length := by
  rw [Record.bytes, List.length_append, List.length_append, Meta.length_encode]
  omega

/-- A record ends inside the log. -/
lemma RecordAt.le_length (h : RecordAt kvraw off r) :
    off + 16 + r.key.length + r.val.length ≤ kvraw.logfs.length := by
  obtain ⟨-, pre, post, hlog, rfl⟩ := h
  rw [hlog, List.length_append, List.length_append, Record.length_bytes]
  omega

/-- What is read at a record: its header, and as much of its key and value as is asked for. -/
lemma RecordAt.read (h : RecordAt kvraw off r) :
    Meta.decode (logfsRead kvraw.logfs off metaLen) = r.header ∧
      (∀ n ≤ r.key.length, logfsRead kvraw.logfs (off + metaLen) n = r.key.take n) ∧
      ∀ n ≤ r.val.length,
        logfsRead kvraw.logfs (off + metaLen + r.key.length) n = r.val.take n := by
  obtain ⟨⟨hlink, hkey, hval⟩, pre, post, hlog, rfl⟩ := h
  have hdrop : ∀ n, (r.bytes ++ post).drop (metaLen + n) = (r.key ++ (r.val ++ post)).drop n := by
    intro n
    rw [Record.bytes, List.append_assoc, List.drop_append,
      List.drop_of_length_le (by simp [metaLen]), Meta.length_encode, List.nil_append, metaLen,
      Nat.add_sub_cancel_left, List.append_assoc]
  refine ⟨?_, fun n hn => ?_, fun n hn => ?_⟩
  · have hread := logfsRead_append pre (r.bytes ++ post) 0 metaLen
    rw [Nat.add_zero, List.drop_zero] at hread
    rw [hlog, hread, Record.bytes, List.append_assoc,
      List.take_append_of_le_length (by simp [metaLen]),
      List.take_of_length_le (by simp [metaLen])]
    exact Meta.decode_encode hlink hkey hval
  · have hkeyAt := hdrop 0
    rw [Nat.add_zero, List.drop_zero] at hkeyAt
    rw [hlog, logfsRead_append, hkeyAt, List.take_append_of_le_length hn]
  · rw [hlog, Nat.add_assoc, logfsRead_append, hdrop, List.drop_left,
      List.take_append_of_le_length hn]

/-- `read_meta` finds the header of a record. -/
lemma readMeta_of_recordAt (hsized : kvraw.Sized) (h : RecordAt kvraw off r) :
    readMeta kvraw off = some r.header := by
  have hle := h.le_length
  obtain ⟨hdecode, -, -⟩ := h.read
  obtain ⟨hsize, hlt⟩ := hsized
  have hu₁ : u64 (off + metaLen) = off + 16 := Nat.mod_eq_of_lt (by
    rw [metaLen]
    omega)
  have hu₂ : u64 (off + metaLen + r.header.keyLen + r.header.valLen) =
      off + 16 + r.key.length + r.val.length := Nat.mod_eq_of_lt (by
    simp only [metaLen, Record.header]
    omega)
  rw [readMeta, hu₁, hdecode]
  simp only [hu₂]
  rw [if_neg (by omega), if_neg]
  simp only [Record.header, not_or, not_not, gt_iff_lt, Nat.not_lt, true_and]
  omega

/-- **What `kvraw_lookup` returns for a record of the log**: its lengths and its link, and as much
of its key and value as the buffers admit. -/
theorem kvrawLookup_of_recordAt (hsized : kvraw.Sized) (h : RecordAt kvraw off r) (hoff : off ≠ 0)
    (key : Option (List UInt8)) (keyLen : ℕ) (val : Option (List UInt8)) (valLen : ℕ)
    (hkey : keyLen ≠ 0 → key ≠ none) (hval : valLen ≠ 0 → val ≠ none) :
    kvrawLookup kvraw key keyLen val valLen off =
      .ok (some ⟨copyTo key (r.key.take (min r.key.length keyLen)), r.key.length,
        copyTo val (r.val.take (min r.val.length valLen)), r.val.length, r.link⟩) := by
  have hle := h.le_length
  have hmeta := readMeta_of_recordAt hsized h
  obtain ⟨-, hreadKey, hreadVal⟩ := h.read
  obtain ⟨hsize, hlt⟩ := hsized
  have hu₁ : u64 (off + metaLen) = off + metaLen := Nat.mod_eq_of_lt (by
    rw [metaLen]
    omega)
  have hu₂ : u64 (off + metaLen + r.key.length) = off + metaLen + r.key.length :=
    Nat.mod_eq_of_lt (by
      rw [metaLen]
      omega)
  rw [kvrawLookup, if_neg, hmeta]
  · simp only [Record.header, hu₁, hu₂, hreadKey _ (Nat.min_le_left _ _),
      hreadVal _ (Nat.min_le_left _ _)]
  · rintro (⟨hk, hk'⟩ | ⟨hv, hv'⟩ | h0)
    · exact hkey hk hk'
    · exact hval hv hv'
    · exact hoff h0

/-- What `kvraw_append` does when no append fails. -/
lemma kvrawAppend_eq (kvraw : Kvraw) (off : ℕ) {key val : List UInt8} (hkey : key.length ≠ 0)
    (hkey' : key.length < 2 ^ 16)
    (hval : val.length < 2 ^ 32) : kvrawAppend none kvraw key val off =
      .ok (⟨u64 (kvraw.size + (16 + key.length + val.length)),
        kvraw.logfs ++ (Record.mk off key val).bytes⟩, some kvraw.size) := by
  have hk : key.length % 2 ^ 16 = key.length := Nat.mod_eq_of_lt hkey'
  have hv : val.length % 2 ^ 32 = val.length := Nat.mod_eq_of_lt hval
  rw [kvrawAppend, if_neg (by omega)]
  simp only [hk, hv, List.take_length, metaLen, Record.bytes, Record.header, List.append_assoc]

/-- **An appended record lies in the log**, and the size of the log is known again. -/
theorem recordAt_kvrawAppend (off : ℕ) {key val : List UInt8} (hsized : kvraw.Sized)
    (hfits : (Record.mk off key val).Fits)
    (hlt : kvraw.logfs.length + (16 + key.length + val.length) < 2 ^ 64) :
    Kvraw.Sized ⟨u64 (kvraw.size + (16 + key.length + val.length)),
      kvraw.logfs ++ (Record.mk off key val).bytes⟩ ∧
    RecordAt ⟨u64 (kvraw.size + (16 + key.length + val.length)),
      kvraw.logfs ++ (Record.mk off key val).bytes⟩ kvraw.size ⟨off, key, val⟩ := by
  have hsize := hsized.1
  refine ⟨⟨?_, ?_⟩, hfits, kvraw.logfs, [], by rw [List.append_nil], hsize.symm⟩
  · simp only [List.length_append, Record.length_bytes]
    rw [u64, Nat.mod_eq_of_lt (by omega), hsize]
  · simp only [List.length_append, Record.length_bytes]
    exact hlt

/-- Records stay in a log that grows. -/
lemma RecordAt.mono (h : RecordAt kvraw off r) {bytes : List UInt8}
    (hlog : kvraw'.logfs = kvraw.logfs ++ bytes) : RecordAt kvraw' off r := by
  obtain ⟨hfits, pre, post, hpre, hlen⟩ := h
  exact ⟨hfits, pre, post ++ bytes, by rw [hlog, hpre]; simp [List.append_assoc], hlen⟩

/-! ## Sequences of appends -/

/-- A call of `kvraw_append` with the key, the value and the in-value of `off` of a record, where no
append to the log fails. -/
def appendStep (kvraw : Kvraw) (r : Record) : Option Kvraw :=
  match kvrawAppend none kvraw r.key r.val r.link with
  | .ok (kvraw', _) => some kvraw'
  | .error _ => none

/-- The log that consists of the given records. -/
def Kvraw.ofRecords (rs : List Record) : Kvraw :=
  ⟨(rs.flatMap Record.bytes).length, rs.flatMap Record.bytes⟩

variable {rs : List Record}

/-- A record is appended to a log of records. -/
lemma kvrawAppend_ofRecords (hkey : r.key ≠ []) (hfits : r.Fits)
    (hlt : ((rs ++ [r]).flatMap Record.bytes).length < 2 ^ 64) :
    kvrawAppend none (.ofRecords rs) r.key r.val r.link =
      .ok (.ofRecords (rs ++ [r]), some (rs.flatMap Record.bytes).length) := by
  have hbytes : (rs ++ [r]).flatMap Record.bytes = rs.flatMap Record.bytes ++ r.bytes := by
    rw [List.flatMap_append, List.flatMap_singleton]
  have hkey' : r.key.length ≠ 0 := fun h => hkey (List.length_eq_zero_iff.mp h)
  rw [hbytes, List.length_append, r.length_bytes] at hlt
  have hsize : u64 ((rs.flatMap Record.bytes).length + (16 + r.key.length + r.val.length)) =
      (rs.flatMap Record.bytes ++ r.bytes).length := by
    rw [u64, Nat.mod_eq_of_lt hlt, List.length_append, r.length_bytes]
  rw [kvrawAppend_eq _ _ hkey' hfits.2.1 hfits.2.2]
  simp only [Kvraw.ofRecords, hbytes, hsize]

/-- The records of a sequence of appends lie behind the earlier ones. -/
lemma run_appendStep (as : List Record) (hfits : ∀ r ∈ rs, r.key ≠ [] ∧ r.Fits)
    (hlt : ((as ++ rs).flatMap Record.bytes).length < 2 ^ 64) :
    run appendStep (.ofRecords as) rs = some (.ofRecords (as ++ rs)) := by
  induction rs generalizing as with
  | nil => rw [run_nil, List.append_nil]
  | cons r rs ih =>
    obtain ⟨hkey, hr⟩ := hfits r List.mem_cons_self
    have hcons : as ++ r :: rs = (as ++ [r]) ++ rs := by rw [List.append_assoc]; rfl
    rw [hcons] at hlt ⊢
    have hlt₁ : ((as ++ [r]).flatMap Record.bytes).length < 2 ^ 64 := by
      rw [List.flatMap_append, List.length_append] at hlt
      omega
    have hstep : appendStep (.ofRecords as) r = some (.ofRecords (as ++ [r])) := by
      rw [appendStep, kvrawAppend_ofRecords hkey hr hlt₁]
    rw [run_cons hstep]
    exact ih (as ++ [r]) (fun r' hr' => hfits r' (List.mem_cons_of_mem r hr')) hlt

/-- A record of a log of records lies behind the records before it. -/
lemma recordAt_ofRecords (as bs : List Record) (hfits : r.Fits) :
    RecordAt (.ofRecords (as ++ r :: bs)) (as.flatMap Record.bytes).length r := by
  refine ⟨hfits, as.flatMap Record.bytes, bs.flatMap Record.bytes, ?_, rfl⟩
  rw [Kvraw.ofRecords, List.flatMap_append, List.flatMap_cons]

/-- **The record format round-trips**: all of a sequence of appends succeed if their bytes are less
than `2 ^ 64` in number, and then `kvraw_lookup` at the offset that one of them returned yields the
lengths, the link and as much of the key and of the value as the buffers admit.

**Proof sketch.** The log consists of the records one after the other. The header of a record is
read back since its fields fit, and no sum of an offset and lengths exceeds the length of the log,
so none wraps around. -/
theorem kvraw_round_trip (rs : List Record) (hfits : ∀ r ∈ rs, r.key ≠ [] ∧ r.Fits)
    (hlt : (rs.flatMap Record.bytes).length < 2 ^ 64) :
    ∃ kvraw, run appendStep ⟨0, []⟩ rs = some kvraw ∧
      ∀ as r bs, rs = as ++ r :: bs → ∃ kvraw₁ kvraw₂ o, run appendStep ⟨0, []⟩ as = some kvraw₁ ∧
        kvrawAppend none kvraw₁ r.key r.val r.link = .ok (kvraw₂, some o) ∧
        run appendStep kvraw₂ bs = some kvraw ∧
        (o > 0 → ∀ (key : Option (List UInt8)) (keyLen : ℕ) (val : Option (List UInt8))
          (valLen : ℕ), (keyLen ≠ 0 → key ≠ none) → (valLen ≠ 0 → val ≠ none) →
          kvrawLookup kvraw key keyLen val valLen o =
            .ok (some ⟨copyTo key (r.key.take (min r.key.length keyLen)), r.key.length,
              copyTo val (r.val.take (min r.val.length valLen)), r.val.length, r.link⟩)) := by
  refine ⟨.ofRecords rs, run_appendStep [] hfits hlt, ?_⟩
  rintro as r bs rfl
  obtain ⟨hkey, hr⟩ := hfits r (List.mem_append_right as List.mem_cons_self)
  have hcons : as ++ r :: bs = (as ++ [r]) ++ bs := by rw [List.append_assoc]; rfl
  have hlt₂ : ((as ++ [r]).flatMap Record.bytes).length < 2 ^ 64 := by
    rw [hcons, List.flatMap_append, List.length_append] at hlt
    omega
  have hlt₁ : (as.flatMap Record.bytes).length < 2 ^ 64 := by
    rw [List.flatMap_append, List.length_append] at hlt₂
    omega
  refine ⟨.ofRecords as, .ofRecords (as ++ [r]), (as.flatMap Record.bytes).length, ?_, ?_, ?_, ?_⟩
  · exact run_appendStep [] (fun r' hr' => hfits r' (List.mem_append_left _ hr')) hlt₁
  · exact kvrawAppend_ofRecords hkey hr hlt₂
  · rw [hcons] at hlt ⊢
    exact run_appendStep (as ++ [r]) (fun r' hr' => hfits r' (by simp [hr'])) hlt
  · intro ho key keyLen val valLen hk hv
    exact kvrawLookup_of_recordAt ⟨rfl, hlt⟩ (recordAt_ofRecords as bs hr) (by omega) key keyLen val
      valLen hk hv

/-- Two records, the second of them with an empty value. -/
theorem kvraw_round_trip_two :
    ∃ kvraw, run appendStep ⟨0, []⟩ [⟨7, [0], [0]⟩, ⟨2 ^ 64 - 1, [1, 2], []⟩] = some kvraw ∧
      kvrawLookup kvraw (some [9]) 1 none 0 18 = .ok (some ⟨some [1], 2, none, 0, 2 ^ 64 - 1⟩) := by
  obtain ⟨kvraw, hrun, h⟩ := kvraw_round_trip [⟨7, [0], [0]⟩, ⟨2 ^ 64 - 1, [1, 2], []⟩]
    (by simp [Record.Fits]) (by decide)
  refine ⟨kvraw, hrun, ?_⟩
  obtain ⟨kvraw₁, kvraw₂, o, hrun₁, happend, -, hlookup⟩ :=
    h [⟨7, [0], [0]⟩] ⟨2 ^ 64 - 1, [1, 2], []⟩ [] rfl
  have h₁ : run appendStep ⟨0, []⟩ [⟨7, [0], [0]⟩] =
      some (.ofRecords [⟨7, [0], [0]⟩]) :=
    run_appendStep [] (by simp [Record.Fits]) (by decide)
  obtain rfl := Option.some.inj (h₁.symm.trans hrun₁)
  have ho : o = 18 := by
    rw [kvrawAppend_eq _ _ (by decide) (by decide) (by decide)] at happend
    simp only [Except.ok.injEq, Prod.mk.injEq, Option.some.injEq] at happend
    exact happend.2.symm
  subst ho
  exact hlookup (by decide) (some [9]) 1 none 0 (by simp) (by simp)

end Cs238p.P4
