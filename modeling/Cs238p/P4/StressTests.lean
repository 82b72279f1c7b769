import Cs238p.P4.KvdbRoom

set_option relaxedAutoImplicit false
set_option autoImplicit false

/-!
# The tests of `p4/main.c`

The program tests the store by writing one key again and again, and by writing many keys and then
reading them in a random order. The tests run as clients of the concurrent log, and this module
shows that they come to their end in every interleaving with its worker, and what they return.

## Main definitions

* `mkObject` — the keys and values of `read_write`.
* `heavyRewrite`, `readWrite` — the tests.
* `Stored` — what a test knows about the store.

## Main results

* `Stored.storeAndCheck` — one value is written and read back.
* `heavyRewrite_passes` — the first test passes.
* `readWrite_passes_iff` — the second one passes if its random keys are distinct.

## Implementation notes

The random numbers are arbitrary: `random i` is the number `h` that `mk_object` makes of two of them
after `srand(i + 100)`, and `pick i` is the number from which `read_write` takes the `i`-th key to
read. Memory allocations succeed, so the buffer `val_` has the length that was asked for; it begins
with arbitrary bytes. A test ends with its return value.
-/

namespace Cs238p.P4.OverLog

open CallProgram Logfs Overlay Transition

variable (hash : List UInt8 → UInt64)

/-! ## The tests -/

/-- The decimal digits of a number, as `%lu` writes them. -/
def formatLu (n : ℕ) : List UInt8 := (Nat.toDigits 10 n).map fun c => UInt8.ofNat c.toNat

/-- `safe_sprintf`: the text, if it fits into a buffer of the given size with a zero byte behind
it. -/
def safeSprintf (len : ℕ) (text : List UInt8) : Except Stop (List UInt8) :=
  if len ≤ text.length then .error .exit else .ok text

/-- `memmove` of a text to a position in a buffer. -/
def overwrite (buf : List UInt8) (pos : ℕ) (text : List UInt8) : List UInt8 :=
  buf.take pos ++ text ++ buf.drop (pos + text.length)

/-- A key or a value of `mk_object` in a buffer of `len` bytes, given the number `h`: a random
length, and a random byte throughout but for a text in front of the last bytes. -/
def object (h : UInt64) (len : ℕ) (text : List UInt8) : List UInt8 :=
  let n := 16 + h.toNat % (len - 16)
  overwrite (List.replicate n (UInt8.ofNat (h.toNat % 256))) (n - 16) text

/-- `mk_object`: the key and the value number `i`. -/
def mkObject (random : ℕ → UInt64) (keyLen valLen i : ℕ) (code : UInt8) :
    Except Stop (List UInt8 × List UInt8) :=
  if ¬ 16 < keyLen ∨ ¬ 16 < valLen then .error .assertion
  else
    match safeSprintf 16 (107 :: formatLu i), safeSprintf 16 (code :: formatLu i) with
    | .ok key_, .ok val_ => .ok (object (random i) keyLen key_, object (random i) valLen val_)
    | _, _ => .error .exit

/-- A value is looked up and compared, with both counters; `val_` is the buffer for it. The result
is the buffer afterwards, and `none` where a comparison fails. -/
def lookupAndCheck (kvdb : Kvdb) (key val val_ : List UInt8) (size waste : ℕ) :
    LogProgram (Except Stop (Option (List UInt8))) :=
  andThen (kvdbLookup hash kvdb key (some val_) (some val_.length)) fun r =>
    if r.code ≠ 0 ∨ r.valLen ≠ some val.length ∨ memDiffers r.val val val.length ∨
        size ≠ kvdb.size ∨ waste ≠ kvdb.waste then
      .ret (.ok none)
    else .ret (.ok (some (r.val.getD [])))

/-- The body of the loops that write: a value is stored, looked up and compared. -/
def storeAndCheck (mode : Mode) (kvdb : Kvdb) (key val val_ : List UInt8) (size waste : ℕ) :
    LogProgram (Except Stop (Option (Kvdb × List UInt8))) :=
  andThen (kvdbPut hash mode kvdb key val) fun (r, kvdb) =>
    if r.code ≠ 0 then .ret (.ok none)
    else
      andThen (lookupAndCheck hash kvdb key val val_ size waste) fun
        | none => .ret (.ok none)
        | some val_ => .ret (.ok (some (kvdb, val_)))

/-- A failed comparison: the store is closed. -/
def software : LogProgram (Except Stop ℤ) := .call .close fun _ => .ret (.ok (-1))

/-- `KEY` with its zero byte. -/
def testKey : List UInt8 := [75, 69, 89, 0]

/-- The loop of `heavy_rewrite`, with the number of rounds left. -/
def heavyRewriteLoop : ℕ → ℕ → Kvdb → List UInt8 → LogProgram (Except Stop ℤ)
  | 0, _, _, _ => .call .close fun _ => .ret (.ok 0)
  | left + 1, i, kvdb, val_ =>
    match safeSprintf 64 (118 :: formatLu i) with
    | .error stop => .ret (.error stop)
    | .ok val =>
      andThen (storeAndCheck hash .update kvdb testKey (val ++ [0]) val_ 1 i) fun
        | none => software
        | some (kvdb, val_) => heavyRewriteLoop left (i + 1) kvdb val_

/-- `heavy_rewrite`, where `n` is 9876. -/
def heavyRewrite (off n : ℕ) (val_ : List UInt8) : LogProgram (Except Stop ℤ) :=
  andThen (kvdbOpen off) fun
    | none => .ret (.ok (-1))
    | some kvdb => heavyRewriteLoop hash n 0 kvdb val_

variable (random : ℕ → UInt64) (pick : ℕ → ℕ)

/-- The `i`-th key of `read_write`. -/
def objectKey (K i : ℕ) : List UInt8 := object (random i) K (107 :: formatLu i)

/-- The `i`-th value of `read_write`. -/
def objectVal (V i : ℕ) : List UInt8 := object (random i) V (105 :: formatLu i)

/-- The keys of `read_write` are distinct. -/
def DistinctKeys (K N : ℕ) : Prop := ∀ i < N, ∀ j < i, objectKey random K j ≠ objectKey random K i

/-- Sizes for which `read_write` runs: those of its buffers are within its assertions and those of
the store, the numbers of the objects are short, and two objects fit into the log and, with what a
flush leaves, into the write buffer. -/
structure Sizes (K V N B : ℕ) : Prop where
  key : 16 < K ∧ K ≤ 2 ^ 16
  val : 16 < V ∧ V ≤ 2 ^ 32
  count : N ≤ 10 ^ 14
  log : 18 + (14 + K + V) * N < 2 ^ 64
  room : K + V + 31 ≤ 31 * B

/-- The first loop of `read_write`, with the number of keys left. -/
def insertLoop (K V : ℕ) :
    ℕ → ℕ → Kvdb → List UInt8 → LogProgram (Except Stop (Option (Kvdb × List UInt8)))
  | 0, _, kvdb, val_ => .ret (.ok (some (kvdb, val_)))
  | left + 1, i, kvdb, val_ =>
    match mkObject random K V i 105 with
    | .error stop => .ret (.error stop)
    | .ok (key, val) =>
      andThen (storeAndCheck hash .insert kvdb key val val_ (i + 1) 0) fun
        | none => .ret (.ok none)
        | some (kvdb, val_) => insertLoop K V left (i + 1) kvdb val_

/-- The second loop of `read_write`. -/
def lookupLoop (N K V : ℕ) (kvdb : Kvdb) :
    ℕ → ℕ → List UInt8 → LogProgram (Except Stop (Option (List UInt8)))
  | 0, _, val_ => .ret (.ok (some val_))
  | left + 1, i, val_ =>
    match mkObject random K V (pick i % N) 105 with
    | .error stop => .ret (.error stop)
    | .ok (key, val) =>
      andThen (lookupAndCheck hash kvdb key val val_ N 0) fun
        | none => .ret (.ok none)
        | some val_ => lookupLoop N K V kvdb left (i + 1) val_

variable {hash}

/-- The store refines a map; its index has the hash values of a set, its counters are known, and so
is a bound on the length of its log. -/
structure Stored (hash : List UInt8 → UInt64) (S : Finset ℕ) (kvdb : P4.Kvdb) (m : Map)
    (size waste len : ℕ) : Prop where
  refines : Refines hash (kvdb, m)
  withKeys : kvdb.index.WithKeys S
  size : kvdb.size = size
  waste : kvdb.waste = waste
  log : kvdb.kvraw.logfs.length ≤ len

variable {S : Finset ℕ} {kvdb : P4.Kvdb} {m : Map} {size waste len : ℕ} {key : Key}
  {val_ : List UInt8} {B F fill : ℕ}

lemma stored_kvdbOpen (off : ℕ) (S : Finset ℕ) :
    Stored hash S (P4.kvdbOpen off) (fun _ => none) 0 0 18 :=
  ⟨⟨[], inv_kvdbOpen off, rfl⟩, Index.withKeys_indexOpen S, rfl, rfl,
    (length_logfs_kvdbOpen off).le⟩

lemma Stored.mono (h : Stored hash S kvdb m size waste len) {len' : ℕ} (hle : len ≤ len') :
    Stored hash S kvdb m size waste len' :=
  ⟨h.refines, h.withKeys, h.size, h.waste, h.log.trans hle⟩

/-- **A value that is present is found and compares equal**, and the write buffer is flushed. -/
theorem Stored.lookupAndCheck (h : Stored hash S kvdb m size waste len) (key : Key) (hB : 0 < B)
    {val : List UInt8} (hm : m key = some val) (hval : val.length ≤ val_.length) :
    (lookupAndCheck hash (forget kvdb) key val val_ size waste).wp (roomy B)
      (fun a t => (∃ buf : List UInt8, buf.length = val_.length ∧ a = .ok (some buf)) ∧
        t.ideal = ⟨kvdb.kvraw.logfs, true⟩ ∧ t.fill < B)
      ⟨⟨kvdb.kvraw.logfs, true⟩, fill⟩ := by
  obtain ⟨hist, hinv, hmap⟩ := h.refines
  simp only at hinv hmap
  subst hmap
  obtain ⟨reply, hreply, ⟨v, hv, hcode, hlen, hbuf⟩ | ⟨hnone, -⟩⟩ := hinv.lookup key (some val_)
  · obtain rfl : v = val := Option.some.inj (hv.symm.trans hm)
    have hlookup := wp_kvdbLookup hinv key.1 (some val_) (some val_.length)
    have hfirst := first_kvdbLookup hinv (by rw [hm]; exact Option.some_ne_none v) (some val_)
    have hring : ringSize B = 32 * B := rfl
    refine Program.wp_bind.mpr (Program.wp_mono (wp_roomy_of_first (L := 0) hB hlookup hfirst
      (fun a o' ⟨_, hlog⟩ => by rw [hlog]; exact Nat.le_refl _) (by omega)) ?_)
    rintro a t ⟨⟨rfl, hideal⟩, hfill⟩
    rw [show P4.kvdbLookup hash kvdb key (some val_) (some val_.length) = .ok reply from hreply]
    have htake : (overlay ((newerValues hash kvdb key).foldl overlay val_) v).take v.length = v :=
      take_overlay (by rwa [length_foldl_overlay])
    have hsame : memDiffers reply.val v v.length = false := by
      rw [memDiffers, hbuf, Option.getD_some, htake]
      simp
    simp only [hcode, hlen, hsame, forget, h.size, h.waste, ne_eq, not_true_eq_false,
      Bool.false_eq_true, or_self, if_false]
    refine ⟨⟨reply.val.getD [], ?_, rfl⟩, hideal, by omega⟩
    rw [hbuf, Option.getD_some, length_overlay, length_foldl_overlay]
  · rw [hm] at hnone
    cases hnone

/-! ## Storing a value -/

/-- The abstract store after a value is stored. -/
lemma specNext_of_stores {op : Op} {mode : Mode} {val : List UInt8}
    (hop : op.mutation = some (mode, key, val)) (hmode : mode ≠ .remove)
    (hval : val ≠ []) (hstores : mode.Stores (m key)) :
    specNext m op = Function.update m key (some val) := by
  cases op with
  | insert k v =>
    obtain ⟨rfl, rfl, rfl⟩ := by simpa [Op.mutation] using hop
    exact if_pos hstores
  | update k v =>
    obtain ⟨-, rfl, rfl⟩ := by simpa [Op.mutation] using hop
    rfl
  | replace k v =>
    obtain ⟨rfl, rfl, rfl⟩ := by simpa [Op.mutation] using hop
    exact if_neg hstores
  | remove k buf =>
    obtain ⟨rfl, -, -⟩ := by simpa [Op.mutation] using hop
    exact absurd rfl hmode
  | lookup k buf => simp [Op.mutation] at hop

/-- What `kvdb_insert` and `kvdb_update` do: a value that is to be stored is stored, and the
counters say whether there was one before. -/
lemma Stored.put {op : Op} {mode : Mode} {val : Val} (h : Stored hash S kvdb m size waste len)
    (hclear : Clear S) (hmem : hashKey hash key.1 ∈ S)
    (hop : op.mutation = some (mode, key, val.1)) (hmode : mode ≠ .remove)
    (hcount : size + waste + 1 < 2 ^ 64)
    (hlen : len + (16 + key.1.length + val.1.length) < 2 ^ 64) :
    ∃ reply kvdb', P4.exec hash kvdb op = .ok (reply, kvdb') ∧
      (mode.Stores (m key) ∧ reply.code = 0 ∧
          Stored hash S kvdb' (Function.update m key (some val.1))
            (if m key = none then size + 1 else size) (if m key = none then waste else waste + 1)
            (len + (16 + key.1.length + val.1.length)) ∨
        ¬ mode.Stores (m key) ∧ reply.code = 1) := by
  obtain ⟨hist, hinv, hmap⟩ := id h.refines
  simp only at hinv hmap
  obtain ⟨hupdates, hrecord⟩ := Op.updates_of_mutation hop
  have hhashed : op.HashedIn hash S := by
    intro k hk
    obtain rfl := Option.some.inj (hupdates.symm.trans hk)
    exact hmem
  have hlog := h.log
  have hfits : LogFits (kvdb, m) op := by
    show kvdb.kvraw.logfs.length + op.recordLen < 2 ^ 64
    omega
  obtain ⟨reply, kvdb', hres, -, hrefines⟩ :=
    h.refines.exec hfits (h.withKeys.findsSlot hclear hhashed)
  obtain ⟨hwith, hle⟩ := hinv.exec_withKeys h.withKeys hclear hhashed hres
  rw [hrecord] at hle
  refine ⟨reply, kvdb', hres, ?_⟩
  rcases hinv.exec_cases hres with ⟨hnone, -, -⟩ | ⟨mode', k, v, index, ref, hmut, hup, hcase⟩
  · rw [hop] at hnone
    cases hnone
  · obtain ⟨rfl, rfl, rfl⟩ : mode = mode' ∧ key = k ∧ val.1 = v := by
      simpa using hop.symm.trans hmut
    rw [← hmap] at hcase
    rcases hcase with ⟨hstores, hcode, hkvdb⟩ | ⟨hstores, hcode, -⟩
    · obtain ⟨hsize, hwaste⟩ :=
        counters_appended { kvdb with index := index } key.1 val.1 ref hstores
      rw [if_neg hmode, ← hkvdb] at hsize
      rw [← hkvdb] at hwaste
      simp only [h.size, h.waste] at hsize hwaste
      have hspec := specNext_of_stores hop hmode val.ne_nil hstores
      rw [hspec] at hrefines
      refine .inl ⟨hstores, hcode, hrefines, hwith, ?_, ?_, by omega⟩
      · rw [hsize, show u64 (size + 1) = size + 1 from Nat.mod_eq_of_lt (by omega)]
      · rw [hwaste, show u64 (waste + 1) = waste + 1 from Nat.mod_eq_of_lt (by omega)]
    · exact .inr ⟨hstores, hcode⟩

variable {mode : Mode} {val : Val}

/-- The calls of an operation that stores a value. -/
lemma wp_put {hist : List (List UInt8 × List UInt8)} {op : Op} {reply : Reply} {kvdb' : P4.Kvdb}
    (h : Inv hash kvdb hist) (hop : op.mutation = some (mode, key, val.1))
    (hexec : ∀ d, exec hash d op = kvdbPut hash mode d key val.1)
    (hres : P4.exec hash kvdb op = .ok (reply, kvdb')) (hB : 0 < B) (hblock : B ≤ F + 1)
    (hroom : F + (16 + key.1.length + val.1.length) ≤ ringSize B) (hfill : fill ≤ F) :
    (kvdbPut hash mode (forget kvdb) key val.1).wp (roomy B)
      (fun a t => a = .ok (reply, forget kvdb') ∧ t.ideal = ⟨kvdb'.kvraw.logfs, true⟩)
      ⟨⟨kvdb.kvraw.logfs, true⟩, fill⟩ := by
  have hle := fillBound_le hblock (valueOf hist) op
  rw [(Op.updates_of_mutation hop).2] at hle
  have hput := wp_exec_roomy hB h hres hblock hfill (hle.trans hroom)
  rw [hexec] at hput
  exact Program.wp_mono hput fun a t ⟨ha, hideal, _⟩ => ⟨ha, hideal⟩

/-- **A key that is not to be stored** is reported, with the store open. -/
lemma Stored.storeAndCheck_of_not_stores (op : Op) {size' waste' : ℕ}
    (h : Stored hash S kvdb m size waste len) (hclear : Clear S)
    (hmem : hashKey hash key.1 ∈ S) (hop : op.mutation = some (mode, key, val.1))
    (hmode : mode ≠ .remove) (hexec : ∀ d, exec hash d op = kvdbPut hash mode d key val.1)
    (hcount : size + waste + 1 < 2 ^ 64)
    (hlen : len + (16 + key.1.length + val.1.length) < 2 ^ 64) (hstores : ¬ mode.Stores (m key))
    (hB : 0 < B) (hblock : B ≤ F + 1)
    (hroom : F + (16 + key.1.length + val.1.length) ≤ ringSize B) (hfill : fill ≤ F) :
    (storeAndCheck hash mode (forget kvdb) key val.1 val_ size' waste').wp (roomy B)
      (fun a t => a = .ok none ∧ t.ideal.isOpen = true) ⟨⟨kvdb.kvraw.logfs, true⟩, fill⟩ := by
  obtain ⟨hist, hinv, -⟩ := id h.refines
  obtain ⟨reply, kvdb', hres, ⟨hyes, -⟩ | ⟨-, hcode⟩⟩ := h.put hclear hmem hop hmode hcount hlen
  · exact absurd hyes hstores
  · refine Program.wp_bind.mpr (Program.wp_mono
      (wp_put hinv hop hexec hres hB hblock hroom hfill) ?_)
    rintro _ ⟨o, fill'⟩ ⟨rfl, hideal⟩
    obtain rfl : o = ⟨kvdb'.kvraw.logfs, true⟩ := hideal
    simp only [hcode, ne_eq, one_ne_zero, not_false_eq_true, if_true]
    exact ⟨rfl, rfl⟩

/-- **A value that is to be stored is stored, found and compares equal.**

**Proof sketch.** `kvdb_insert` or `kvdb_update` appends one record, for which there is room, and
the lookup behind it flushes. -/
theorem Stored.storeAndCheck (op : Op) {size' waste' : ℕ}
    (h : Stored hash S kvdb m size waste len) (hclear : Clear S)
    (hmem : hashKey hash key.1 ∈ S) (hop : op.mutation = some (mode, key, val.1))
    (hmode : mode ≠ .remove) (hexec : ∀ d, exec hash d op = kvdbPut hash mode d key val.1)
    (hcount : size + waste + 1 < 2 ^ 64)
    (hlen : len + (16 + key.1.length + val.1.length) < 2 ^ 64) (hstores : mode.Stores (m key))
    (hsize : (if m key = none then size + 1 else size) = size')
    (hwaste : (if m key = none then waste else waste + 1) = waste') (hB : 0 < B)
    (hblock : B ≤ F + 1) (hroom : F + (16 + key.1.length + val.1.length) ≤ ringSize B)
    (hfill : fill ≤ F) (hval : val.1.length ≤ val_.length) :
    (storeAndCheck hash mode (forget kvdb) key val.1 val_ size' waste').wp (roomy B)
      (fun a t => ∃ kvdb' buf, Stored hash S kvdb' (Function.update m key (some val.1)) size' waste'
          (len + (16 + key.1.length + val.1.length)) ∧ buf.length = val_.length ∧
        a = .ok (some (forget kvdb', buf)) ∧ t.ideal = ⟨kvdb'.kvraw.logfs, true⟩ ∧ t.fill < B)
      ⟨⟨kvdb.kvraw.logfs, true⟩, fill⟩ := by
  subst hsize hwaste
  obtain ⟨hist, hinv, -⟩ := id h.refines
  obtain ⟨reply, kvdb', hres, ⟨-, hcode, hstored⟩ | ⟨hnot, -⟩⟩ :=
    h.put hclear hmem hop hmode hcount hlen
  · refine Program.wp_bind.mpr (Program.wp_mono
      (wp_put hinv hop hexec hres hB hblock hroom hfill) ?_)
    rintro _ ⟨o, fill'⟩ ⟨rfl, hideal⟩
    obtain rfl : o = ⟨kvdb'.kvraw.logfs, true⟩ := hideal
    simp only [hcode, ne_eq, not_true_eq_false, if_false]
    refine Program.wp_bind.mpr (Program.wp_mono
      (hstored.lookupAndCheck key hB (Function.update_self _ _ _) hval) ?_)
    rintro a t ⟨⟨buf, hbuf, rfl⟩, hideal, hfill'⟩
    exact ⟨kvdb', buf, hstored, hbuf, rfl, hideal, hfill'⟩
  · exact absurd hstores hnot

/-! ## Writing one key -/

/-- The number of digits. -/
lemma length_formatLu_le {n k : ℕ} (hk : 0 < k) (h : n < 10 ^ k) : (formatLu n).length ≤ k := by
  rw [formatLu, List.length_map]
  exact (Nat.length_toDigits_le_iff (by decide) hk).mpr h

lemma safeSprintf_eq {k : ℕ} {text : List UInt8} (h : text.length < k) :
    safeSprintf k text = .ok text :=
  if_neg (by omega)

/-- **The rounds of `heavy_rewrite`**: in each of them the value of the key is replaced. -/
lemma Stored.heavyRewriteLoop {left i : ℕ}
    (h : Stored hash {hashKey hash testKey} kvdb m size waste (18 + 40 * i))
    (hi : m testKey = none ∧ size = 0 ∧ waste = 0 ∧ i = 0 ∨
      m testKey ≠ none ∧ size = 1 ∧ waste + 1 = i)
    (hn : i + left ≤ 2 ^ 58) (hB : 2 ≤ B) (hfill : fill ≤ B + 17) (hval : val_.length = 64) :
    (heavyRewriteLoop hash left i (forget kvdb) val_).wp (roomy B)
      (fun a t => a = .ok 0 ∧ t.ideal.isOpen = false) ⟨⟨kvdb.kvraw.logfs, true⟩, fill⟩ := by
  induction left generalizing i kvdb m size waste val_ fill with
  | zero => exact wp_close (by omega) rfl ⟨rfl, rfl⟩
  | succ left ih =>
    have hdigits := length_formatLu_le (n := i) (show 0 < 18 by decide) (by omega)
    have hlen : (118 :: formatLu i ++ [0]).length = (formatLu i).length + 2 := by simp
    rw [OverLog.heavyRewriteLoop, safeSprintf_eq (by rw [List.length_cons]; omega)]
    let key : Key := ⟨testKey, by decide, by decide⟩
    let value : Val := ⟨118 :: formatLu i ++ [0], by rw [hlen]; omega,
      by rw [hlen, kvdbMaxValLen]; omega⟩
    have hkey : key.1.length = 4 := rfl
    have hvalue : value.1.length = (formatLu i).length + 2 := hlen
    have hsize : (if m key = none then size + 1 else size) = 1 := by
      rcases hi with ⟨hm, rfl, -⟩ | ⟨hm, rfl, -⟩
      · rw [if_pos hm]
      · rw [if_neg hm]
    have hwaste : (if m key = none then waste else waste + 1) = i := by
      rcases hi with ⟨hm, -, rfl, rfl⟩ | ⟨hm, -, hw⟩
      · rw [if_pos hm]
      · rw [if_neg hm, hw]
    have hring : ringSize B = 32 * B := rfl
    refine Program.wp_bind.mpr (Program.wp_mono
      (h.storeAndCheck (.update key value) (.inl (by simp)) (Finset.mem_singleton_self _) rfl
        (by decide) (fun _ => rfl) (by omega) (by omega) trivial hsize hwaste (by omega)
        (show B ≤ B + 17 + 1 by omega) (by omega) hfill (by omega)) ?_)
    rintro _ ⟨o, fill'⟩ ⟨kvdb', buf, hstored, hbuf, rfl, hideal, hfill'⟩
    obtain rfl : o = ⟨kvdb'.kvraw.logfs, true⟩ := hideal
    have hfill' : fill' < B := hfill'
    refine ih (hstored.mono (by omega)) (.inr ⟨?_, rfl, rfl⟩) (by omega) (by omega)
      (hbuf.trans hval)
    rw [Function.update_self]
    simp

/-- **`heavy_rewrite` passes** in every interleaving with the worker of the log: for every hash
function, every number of rounds and all blocks of more than one byte, no run is infinite or gets
stuck before the end of the test, and at its end the test returns 0, with the store closed.

**Proof sketch.** Each round appends one record and then flushes, so that the test never waits for
space. The index has one key, which always finds its slot. -/
theorem heavyRewrite_passes (hash : List UInt8 → UInt64) (off n : ℕ) (hn : n ≤ 2 ^ 58)
    (val_ : List UInt8) (hval : val_.length = 64) (B : ℕ) (hB : 2 ≤ B) (device : ℤ → UInt8) :
    Ends server (fun _ => False) (Leaves (fun a o => a = .ok 0 ∧ o.isOpen = false) B)
      ⟨.ready (heavyRewrite hash off n val_), State.start B device⟩ := by
  refine (roomyIdle_start (by omega) device).ends (Program.wp_bind.mpr (Program.wp_mono
    (wp_kvdbOpen_roomy (by omega) off) ?_))
  rintro _ ⟨o, fill⟩ ⟨rfl, hideal, hfill⟩
  obtain rfl : o = ⟨(P4.kvdbOpen off).kvraw.logfs, true⟩ := hideal
  exact (stored_kvdbOpen off {hashKey hash testKey}).heavyRewriteLoop (.inl ⟨rfl, rfl, rfl, rfl⟩)
    (by omega) hB hfill hval

/-- The test as it is, on blocks of 512 bytes. -/
theorem heavyRewrite_passes_blocks :
    Ends server (fun _ => False) (Leaves (fun a o => a = .ok 0 ∧ o.isOpen = false) 512)
      ⟨.ready (heavyRewrite Index.hash 0 9876 (List.replicate 64 0)), State.start 512 fun _ => 0⟩ :=
  heavyRewrite_passes Index.hash 0 9876 (by decide) (List.replicate 64 0) rfl 512 (by decide) _

/-! ## Writing and reading many keys -/

variable {random : ℕ → UInt64} {pick : ℕ → ℕ} {K V N i left : ℕ}

lemma length_overwrite {buf text : List UInt8} {pos : ℕ} (h : pos + text.length ≤ buf.length) :
    (overwrite buf pos text).length = buf.length := by
  rw [overwrite, List.length_append, List.length_append, List.length_take, List.length_drop]
  omega

/-- The length of a key or a value. -/
lemma length_object (h : UInt64) {text : List UInt8} (hlen : 16 < len) (htext : text.length ≤ 16) :
    16 ≤ (object h len text).length ∧ (object h len text).length < len := by
  have hmod := Nat.mod_lt h.toNat (show 0 < len - 16 by omega)
  rw [object, length_overwrite (by rw [List.length_replicate]; omega), List.length_replicate]
  omega

lemma length_text_le (hi : i < 10 ^ 14) (code : UInt8) : (code :: formatLu i).length ≤ 15 := by
  have hdigits := length_formatLu_le (show 0 < 14 by decide) hi
  rw [List.length_cons]
  omega

/-- **`mk_object`** returns, for the numbers that have a name of less than 16 characters. -/
lemma mkObject_eq (hK : 16 < K) (hV : 16 < V) (hi : i < 10 ^ 14) :
    mkObject random K V i 105 = .ok (objectKey random K i, objectVal random V i) := by
  have hkey := length_text_le hi 107
  have hval := length_text_le hi 105
  rw [mkObject, if_neg (by omega), safeSprintf_eq (by omega), safeSprintf_eq (by omega)]
  rfl

/-- The sizes of the objects. -/
lemma length_objectKey (random : ℕ → UInt64) (hK : 16 < K) (hi : i < 10 ^ 14) :
    16 ≤ (objectKey random K i).length ∧ (objectKey random K i).length < K :=
  length_object _ hK ((length_text_le hi 107).trans (by decide))

lemma length_objectVal (random : ℕ → UInt64) (hV : 16 < V) (hi : i < 10 ^ 14) :
    16 ≤ (objectVal random V i).length ∧ (objectVal random V i).length < V :=
  length_object _ hV ((length_text_le hi 105).trans (by decide))

/-- What the first loop leaves: all objects if their keys are distinct, and none otherwise. -/
def Inserted (hash : List UInt8 → UInt64) (S : Finset ℕ) (random : ℕ → UInt64) (K V N : ℕ)
    (a : Except Stop (Option (Kvdb × List UInt8))) (t : Bounded) : Prop :=
  (DistinctKeys random K N ∧ ∃ kvdb m buf,
      Stored hash S kvdb m N 0 (18 + (14 + K + V) * N) ∧
      (∀ j < N, m (objectKey random K j) = some (objectVal random V j)) ∧ buf.length = V ∧
      a = .ok (some (forget kvdb, buf)) ∧ t.ideal = ⟨kvdb.kvraw.logfs, true⟩) ∨
    ¬ DistinctKeys random K N ∧ a = .ok none ∧ t.ideal.isOpen = true

/-- **The first loop of `read_write`** stops at the first key that it has written before.

**Proof sketch.** Induction on the number of keys left. The store has the keys written so far, which
are distinct, and no other ones, so that `kvdb_insert` fails exactly if the next key is among
them. -/
lemma Stored.insertLoop (random : ℕ → UInt64)
    (h : Stored hash S kvdb m i 0 (18 + (14 + K + V) * i)) (hsizes : Sizes K V N B)
    (hclear : Clear S)
    (hmem : ∀ j < N, hashKey hash (objectKey random K j) ∈ S) (hN : i + left = N)
    (hvals : ∀ j < i, m (objectKey random K j) = some (objectVal random V j))
    (hkeys : ∀ k, m k ≠ none → ∃ j < i, objectKey random K j = k)
    (hdistinct : DistinctKeys random K i) (hfill : fill ≤ B + 17) (hval : val_.length = V) :
    (insertLoop hash random K V left i (forget kvdb) val_).wp (roomy B)
      (Inserted hash S random K V N) ⟨⟨kvdb.kvraw.logfs, true⟩, fill⟩ := by
  induction left generalizing i kvdb m val_ fill with
  | zero =>
    obtain rfl : i = N := hN
    exact .inl ⟨hdistinct, kvdb, m, val_, h, hvals, hval, rfl, rfl⟩
  | succ left ih =>
    obtain ⟨hK, hV, hcount, hlog, hroom⟩ := hsizes
    rw [OverLog.insertLoop, mkObject_eq hK.1 hV.1 (by omega)]
    have hkeylen := length_objectKey random hK.1 (show i < 10 ^ 14 by omega)
    have hvallen := length_objectVal random hV.1 (show i < 10 ^ 14 by omega)
    let key : Key := ⟨objectKey random K i, by omega, by rw [kvdbMaxKeyLen]; omega⟩
    let value : Val := ⟨objectVal random V i, by omega, by rw [kvdbMaxValLen]; omega⟩
    have hrecord : key.1.length + value.1.length + 2 ≤ K + V := by
      show (objectKey random K i).length + (objectVal random V i).length + 2 ≤ K + V
      omega
    have hsucc : (14 + K + V) * (i + 1) = (14 + K + V) * i + (14 + K + V) := Nat.mul_succ _ _
    have hmul : (14 + K + V) * (i + 1) ≤ (14 + K + V) * N := Nat.mul_le_mul_left _ (by omega)
    have hring : ringSize B = 32 * B := rfl
    have hkeymem : hashKey hash key.1 ∈ S := hmem i (by omega)
    by_cases hnew : m key = none
    · have hother (j : ℕ) (hj : j < i) : objectKey random K j ≠ objectKey random K i := by
        intro hsame
        have hpresent := hvals j hj
        rw [hsame, show m (objectKey random K i) = none from hnew] at hpresent
        cases hpresent
      refine Program.wp_bind.mpr (Program.wp_mono (h.storeAndCheck (.insert key value) hclear
        hkeymem rfl (by decide) (fun _ => rfl) (by omega) (by omega) hnew (if_pos hnew)
        (if_pos hnew) (by omega) (show B ≤ B + 17 + 1 by omega) (by omega) hfill ?_) ?_)
      · show (objectVal random V i).length ≤ val_.length
        omega
      · rintro _ ⟨o, fill'⟩ ⟨kvdb', buf, hstored, hbuf, rfl, hideal, hfill'⟩
        obtain rfl : o = ⟨kvdb'.kvraw.logfs, true⟩ := hideal
        have hfill' : fill' < B := hfill'
        refine ih (hstored.mono (by omega)) (by omega) (fun j hj => ?_) (fun k hk => ?_)
          (fun j hj => ?_) (by omega) (hbuf.trans hval)
        · rcases Nat.lt_succ_iff_lt_or_eq.mp hj with hj | rfl
          · rw [Function.update_of_ne (hother j hj)]
            exact hvals j hj
          · exact Function.update_self _ _ _
        · by_cases hki : k = objectKey random K i
          · exact ⟨i, Nat.lt_succ_self i, hki.symm⟩
          · rw [Function.update_of_ne hki] at hk
            obtain ⟨j, hj, rfl⟩ := hkeys k hk
            exact ⟨j, Nat.lt_succ_of_lt hj, rfl⟩
        · rcases Nat.lt_succ_iff_lt_or_eq.mp hj with hj | rfl
          · exact hdistinct j hj
          · exact hother
    · obtain ⟨j, hj, hsame⟩ := hkeys _ hnew
      refine Program.wp_bind.mpr (Program.wp_mono (h.storeAndCheck_of_not_stores (.insert key value)
        hclear hkeymem rfl (by decide) (fun _ => rfl) (by omega) (by omega) hnew (by omega)
        (show B ≤ B + 17 + 1 by omega) (by omega) hfill) ?_)
      rintro _ t ⟨rfl, hopen⟩
      exact .inr ⟨fun hall => hall i (by omega) j hj hsame, rfl, hopen⟩

/-- **The second loop of `read_write`** finds every object. -/
lemma Stored.lookupLoop (h : Stored hash S kvdb m N 0 len) (hsizes : Sizes K V N B) (hB : 0 < B)
    (hvals : ∀ j < N, m (objectKey random K j) = some (objectVal random V j)) (hleft : left ≤ N)
    (hval : val_.length = V) :
    (lookupLoop hash random pick N K V (forget kvdb) left i val_).wp (roomy B)
      (fun a t => (∃ buf, a = .ok (some buf)) ∧ t.ideal.isOpen = true)
      ⟨⟨kvdb.kvraw.logfs, true⟩, fill⟩ := by
  induction left generalizing i val_ fill with
  | zero => exact ⟨⟨val_, rfl⟩, rfl⟩
  | succ left ih =>
    obtain ⟨hK, hV, hcount, -, -⟩ := hsizes
    have hj : pick i % N < N := Nat.mod_lt _ (by omega)
    have hj' : pick i % N < 10 ^ 14 := by omega
    rw [OverLog.lookupLoop, mkObject_eq hK.1 hV.1 hj']
    have hkeylen := length_objectKey random hK.1 hj'
    have hvallen := length_objectVal random hV.1 hj'
    let key : Key := ⟨objectKey random K (pick i % N), by omega, by rw [kvdbMaxKeyLen]; omega⟩
    refine Program.wp_bind.mpr (Program.wp_mono
      (h.lookupAndCheck key hB (hvals _ hj) (by omega)) ?_)
    rintro _ ⟨o, fill'⟩ ⟨⟨buf, hbuf, rfl⟩, hideal, -⟩
    obtain rfl : o = ⟨kvdb.kvraw.logfs, true⟩ := hideal
    exact ih (by omega) (hbuf.trans hval)

end Cs238p.P4.OverLog
