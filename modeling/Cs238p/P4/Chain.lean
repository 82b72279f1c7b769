import Cs238p.Lib.History
import Cs238p.Lib.Overlay
import Cs238p.P4.Kvdb

set_option relaxedAutoImplicit false
set_option autoImplicit false

/-!
# Chains of records

The records with one hash value are linked to a chain, the newest first. The lookup of a key along
the chain finds the newest record with that key. On its way it copies the values of the other
records into the buffer of the caller.

## Main definitions

* `ChainAt`, `chainFrom` — the keys and values of the chain that begins at an offset.
* `ChainAnswer` — what the lookup leaves in its arguments, in terms of the keys and values.

## Main results

* `chainLookup_of_chainAt` — `chain_lookup` returns, with the latest value of the key.
-/

namespace Cs238p.P4

open History LittleEndian Overlay

/-- The chain of records from the offset on has the given keys and values. Every record links to a
smaller offset, the last one to `0`. -/
def ChainAt (kvraw : Kvraw) : ℕ → List (List UInt8 × List UInt8) → Prop
  | off, [] => off = 0
  | off, (key, val) :: chain =>
    off ≠ 0 ∧ ∃ link < off, RecordAt kvraw off ⟨link, key, val⟩ ∧ ChainAt kvraw link chain

/-- The keys and values of the records from the offset on, as their links lead to them. -/
def chainFrom (log : List UInt8) : ℕ → ℕ → List (List UInt8 × List UInt8)
  | 0, _ => []
  | fuel + 1, off =>
    if off = 0 then []
    else
      let m := Meta.decode (logfsRead log off metaLen)
      (logfsRead log (off + metaLen) m.keyLen, logfsRead log (off + metaLen + m.keyLen) m.valLen) ::
        chainFrom log fuel m.off

variable {kvraw kvraw' : Kvraw} {off : ℕ} {chain : List (List UInt8 × List UInt8)}

/-- A chain stays in a log that grows. -/
lemma ChainAt.mono {bytes : List UInt8} (h : ChainAt kvraw off chain)
    (hlog : kvraw'.logfs = kvraw.logfs ++ bytes) : ChainAt kvraw' off chain := by
  induction chain generalizing off with
  | nil => exact h
  | cons e chain ih =>
    obtain ⟨hoff, link, hlt, hrec, hchain⟩ := h
    exact ⟨hoff, link, hlt, hrec.mono hlog, ih hchain⟩

/-- A chain is no longer than its first offset. -/
lemma ChainAt.length_le (h : ChainAt kvraw off chain) : chain.length ≤ off := by
  induction chain generalizing off with
  | nil => exact Nat.zero_le _
  | cons e chain ih =>
    obtain ⟨-, link, hlt, -, hchain⟩ := h
    have := ih hchain
    rw [List.length_cons]
    omega

/-- A chain begins inside the log. -/
lemma ChainAt.lt_length (h : ChainAt kvraw off chain) (hlog : 0 < kvraw.logfs.length) :
    off < kvraw.logfs.length := by
  cases chain with
  | nil => exact h ▸ hlog
  | cons e chain =>
    obtain ⟨-, link, -, hrec, -⟩ := h
    have := hrec.le_length
    omega

/-- The records of a chain are read from the log. -/
lemma chainFrom_of_chainAt {fuel : ℕ} (h : ChainAt kvraw off chain) (hfuel : chain.length < fuel) :
    chainFrom kvraw.logfs fuel off = chain := by
  induction chain generalizing off fuel with
  | nil =>
    obtain ⟨fuel, rfl⟩ : ∃ n, fuel = n + 1 := ⟨fuel - 1, by omega⟩
    exact if_pos h
  | cons e chain ih =>
    obtain ⟨k, v⟩ := e
    obtain ⟨fuel, rfl⟩ : ∃ n, fuel = n + 1 := ⟨fuel - 1, by omega⟩
    rw [List.length_cons] at hfuel
    obtain ⟨hoff, link, -, hrec, hchain⟩ := h
    obtain ⟨hmeta, hkey, hval⟩ := hrec.read
    rw [chainFrom, if_neg hoff]
    simp only [hmeta, Record.header, hkey _ le_rfl, hval _ le_rfl, List.take_length]
    rw [ih hchain (by omega)]

/-! ## Buffers -/

/-- The buffer after bytes were copied to its beginning. -/
lemma take_copyTo {b bytes : List UInt8} {n : ℕ} (hn : n ≤ bytes.length) :
    ((copyTo (some b) bytes).getD []).take n = bytes.take n := by
  simp only [copyTo, Option.map_some, Option.getD_some]
  rw [List.take_append_of_le_length hn]

/-- Copying nothing changes nothing. -/
@[simp] lemma copyTo_nil (buf : Option (List UInt8)) : copyTo buf [] = buf := by
  cases buf <;> simp [copyTo]

/-- A lookup copies a value into a buffer of the given capacity, as far as it fits. -/
def copyValue (capacity : ℕ) (buf : Option (List UInt8)) (v : List UInt8) : Option (List UInt8) :=
  copyTo buf (v.take (min v.length capacity))

/-- What lookups copy one after another lies over each other. -/
lemma foldl_copyValue (ws : List (List UInt8)) (b : List UInt8) :
    ws.foldl (copyValue b.length) (some b) = some (ws.foldl overlay b) := by
  suffices h : ∀ b' : List UInt8, b'.length = b.length →
      ws.foldl (copyValue b.length) (some b') = some (ws.foldl overlay b') from h b rfl
  induction ws with
  | nil => exact fun b' _ => rfl
  | cons w ws ih =>
    intro b' hb
    have hcopy : copyValue b.length (some b') w = some (overlay b' w) := by
      rw [← hb, copyValue, copyTo, Option.map_some, overlay, List.length_take]
      congr 2
      · rw [List.take_eq_take_iff]
        omega
      · by_cases hle : w.length ≤ b'.length
        · rw [Nat.min_eq_left hle, Nat.min_self]
        · rw [List.drop_of_length_le (by omega), List.drop_of_length_le (by omega)]
    rw [List.foldl_cons, List.foldl_cons, hcopy, ih _ (by rw [length_overlay, hb])]

/-- The comparison of a part of a record's key that was read into a buffer. -/
lemma memDiffers_copyTo (b k key : List UInt8) {m n : ℕ} (hn : n ≤ m) (hm : m ≤ k.length) :
    memDiffers (copyTo (some b) (k.take m)) key n = decide (k.take n ≠ key.take n) := by
  have hlen : n ≤ (k.take m).length := by
    rw [List.length_take]
    omega
  rw [memDiffers, take_copyTo hlen, List.take_take, Nat.min_eq_left hn]

/-! ## Lookup -/

/-- What a lookup along a chain leaves in its arguments: without a record of the key the offset is
`0`; otherwise it is that of a record, and the length is that of the latest value. The values of the
records that it walks over are copied into the buffer, the latest value of the key at last. -/
structure ChainAnswer (chain : List (List UInt8 × List UInt8)) (key : List UInt8) (valLen : ℕ)
    (val : Option (List UInt8)) (c : ChainResult) : Prop where
  absent : latest chain key = none → c.off = 0 ∧ c.valLen = valLen
  present : ∀ v, latest chain key = some v → c.off ≠ 0 ∧ c.valLen = v.length
  buffer : c.val =
    (newer chain key ++ (latest chain key).toList).foldl (copyValue valLen) val

/-- **`chain_lookup` finds the latest value of the key along the chain.**

**Proof sketch.** Induction on the chain. A record with another key length, another beginning or,
after the second lookup, another key is skipped; it may have copied its value into the buffer. The
record with the key copies its value in the first lookup, and the second one copies nothing. -/
theorem chainLookup_of_chainAt (hsized : kvraw.Sized) {key : List UInt8} (hkey : key.length ≠ 0)
    {valLen fuel : ℕ} {val : Option (List UInt8)} (hval : valLen ≠ 0 → val ≠ none)
    (h : ChainAt kvraw off chain) (hfuel : chain.length < fuel) :
    ∃ c, chainLookup kvraw key valLen fuel val off = .ok (some c) ∧
      ChainAnswer chain key valLen val c := by
  induction chain generalizing off val fuel with
  | nil =>
    obtain ⟨fuel, rfl⟩ : ∃ n, fuel = n + 1 := ⟨fuel - 1, by omega⟩
    obtain rfl : off = 0 := h
    exact ⟨⟨val, valLen, 0⟩, rfl, fun _ => ⟨rfl, rfl⟩, fun v hv => absurd hv (by simp), rfl⟩
  | cons e chain ih =>
    obtain ⟨k, v⟩ := e
    obtain ⟨fuel, rfl⟩ : ∃ n, fuel = n + 1 := ⟨fuel - 1, by omega⟩
    rw [List.length_cons] at hfuel
    obtain ⟨hoff, link, -, hrec, hchain⟩ := h
    have hfirst := kvrawLookup_of_recordAt hsized hrec hoff (some (List.replicate 256 0))
      (min key.length 256) val valLen (fun _ => Option.some_ne_none _) hval
    dsimp only at hfirst
    -- The rest of the chain is searched with the buffer that the first lookup leaves.
    have hskip (hne : k ≠ key) : ∃ c,
        chainLookup kvraw key valLen fuel (copyTo val (v.take (min v.length valLen))) link =
          .ok (some c) ∧ ChainAnswer ((k, v) :: chain) key valLen val c := by
      have hval' : valLen ≠ 0 → copyTo val (v.take (min v.length valLen)) ≠ none := by
        intro hv
        obtain ⟨b, hb⟩ := Option.ne_none_iff_exists'.mp (hval hv)
        simp [copyTo, hb]
      have hfuel' : chain.length < fuel := by omega
      obtain ⟨c, hc, habsent, hpresent, hbuffer⟩ := ih hval' hchain hfuel'
      refine ⟨c, hc, ?_, ?_, ?_⟩
      · rwa [latest_cons, if_neg hne]
      · rwa [latest_cons, if_neg hne]
      · rw [latest_cons, if_neg hne, newer_cons, if_neg hne]
        exact hbuffer
    have hfound : ChainAnswer ((k, v) :: chain) k valLen val
        ⟨copyTo val (v.take (min v.length valLen)), v.length, off⟩ := by
      rw [show copyTo val (v.take (min v.length valLen)) = copyValue valLen val v from rfl]
      refine ⟨?_, ?_, ?_⟩
      · rw [latest_cons, if_pos rfl]
        exact fun hv => absurd hv (by simp)
      · rw [latest_cons, if_pos rfl]
        intro v' hv'
        obtain rfl := Option.some.inj hv'
        exact ⟨hoff, rfl⟩
      · rw [latest_cons, if_pos rfl, newer_cons, if_pos rfl]
        rfl
    rw [chainLookup, if_neg hoff, hfirst]
    simp only
    by_cases hlen : k.length = key.length
    · have hpart := memDiffers_copyTo (List.replicate 256 0) k key
        (show min key.length 8 ≤ min k.length (min key.length 256) by omega) (Nat.min_le_left _ _)
      rw [hpart]
      by_cases hbegin : k.take (min key.length 8) = key.take (min key.length 8)
      · simp only [hlen, hbegin, ne_eq, not_true_eq_false, decide_false, or_self, if_false,
          Bool.false_eq_true]
        by_cases hlong : 8 < key.length
        · have hagain := kvrawLookup_of_recordAt hsized hrec hoff
            (some (List.replicate key.length 0)) key.length
            (copyTo val (v.take (min v.length valLen))) 0 (fun _ => Option.some_ne_none _)
            (fun h0 => absurd rfl h0)
          dsimp only at hagain
          rw [hlen, Nat.min_self, Nat.min_zero, List.take_zero, copyTo_nil] at hagain
          have hfull := memDiffers_copyTo (List.replicate key.length 0) k key
            (Nat.le_refl key.length) (by omega)
          rw [List.take_length, ← hlen, List.take_length] at hfull
          rw [if_pos hlong, hagain]
          simp only
          rw [← hlen, List.take_length, hfull]
          by_cases hkk : k = key
          · subst hkk
            simp only [ne_eq, not_true_eq_false, decide_false, Bool.false_eq_true, if_false]
            exact ⟨_, rfl, hfound⟩
          · simp only [ne_eq, hkk, not_false_eq_true, decide_true, if_true]
            exact hskip hkk
        · have hkk : k = key := by
            rw [Nat.min_eq_left (by omega), List.take_length, ← hlen, List.take_length] at hbegin
            exact hbegin
          subst hkk
          rw [if_neg hlong]
          simp only
          rw [memDiffers_copyTo _ _ _ (by omega) (by omega)]
          simp only [ne_eq, not_true_eq_false, decide_false, Bool.false_eq_true, if_false]
          exact ⟨_, rfl, hfound⟩
      · simp only [hbegin, ne_eq, not_false_eq_true, decide_true, or_true, if_true]
        exact hskip fun heq => hbegin (heq ▸ rfl)
    · simp only [ne_eq, hlen, not_false_eq_true, true_or, if_true]
      exact hskip fun heq => hlen (heq ▸ rfl)

end Cs238p.P4
