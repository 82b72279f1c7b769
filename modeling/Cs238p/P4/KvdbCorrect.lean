import Cs238p.P4.KvdbAsserts

set_option relaxedAutoImplicit false
set_option autoImplicit false

/-!
# When the key/value store answers like a map

Two things can go wrong. The probe `(key + i) % capacity` of the index is computed modulo `2 ^ 64`,
so the probes of a hash value close to `2 ^ 64` leave slots out, and an insertion can reach `EXIT`
though the table has empty slots. And `chain_lookup` copies the value of every record that it walks
over into the buffer of the caller, so a longer value of another key with the same hash value shows
behind a shorter one. Everything else is as it should be.

## Main definitions

* `ReachesSlot` — the table of the index grows, or a slot in reach is empty or holds the hash value.

## Main results

* `correct_iff_reaches_spared` — along every run whose log does not overflow, all answers are
  correct if and only if all insertions reach a slot and all buffers are spared.
-/

namespace Cs238p.P4

open Overlay Transition

variable (hash : List UInt8 → UInt64)

/-- The hash value of the key that the operation inserts into the index reaches a slot. -/
def ReachesSlot (s : Kvdb × Map) (op : Op) : Prop :=
  ∀ key, op.updates = some key → InReach s.1.index (hashKey hash key)

variable {hash} {s s' : Kvdb × Map} {op : Op}

/-- An insertion finds a slot exactly if it reaches one. -/
lemma findsSlot_iff_reachesSlot (h : s.1.index.Spacious) :
    FindsSlot hash s op ↔ ReachesSlot hash s op := by
  refine forall_congr' fun key => imp_congr_right fun _ => ?_
  rw [← indexUpdate_isOk_iff key.2.1, ← findsSlotFor_iff h hashKey_lt, FindsSlotFor,
    ← indexUpdate_eq_insertKey hash key.2.1]
  cases indexUpdate hash s.1.index key <;> simp [Except.map]

/-- No step makes the index too full. -/
lemma Refines.spacious_step (h : Refines hash s) (hspacious : s.1.index.Spacious)
    (hs : step hash s op = some s') : s'.1.index.Spacious := by
  obtain ⟨hist, hinv, -⟩ := h
  rw [step] at hs
  split at hs
  · simp at hs
  · next hres =>
    obtain rfl := Option.some.inj hs
    exact hinv.spacious_exec hspacious hres

/-- **The store refines the abstract store exactly as long as insertions reach slots and buffers are
spared**: along every run whose log does not overflow, every operation returns the answer of the
abstract store if and only if the hash value of every key to be inserted into the index reaches a
slot, and no value that a lookup walks over shows in the buffer behind the value of the key.

**Proof sketch.** The store keeps a history of the abstract store. An operation whose insertion
reaches no slot does not return; every other one extends the history as the abstract store does, and
a lookup copies the newer values of the bucket before the value of the key. -/
theorem correct_iff_reaches_spared (hash : List UInt8 → UInt64) (off : ℕ) (ops : List Op)
    (hfits : Always (step hash) LogFits (start off) ops) :
    Always (step hash) (AnswersCorrectly hash) (start off) ops ↔
      Always (step hash) (fun s op => ReachesSlot hash s op ∧ Spared hash s op) (start off)
        ops := by
  refine always_congr_of_invariant (I := fun s => Refines hash s ∧ s.1.index.Spacious) ?_ ?_
    ⟨⟨[], inv_kvdbOpen off, rfl⟩, Index.spacious_indexOpen⟩ hfits
  · rintro s op s' ⟨hrefines, hspacious⟩ hE ⟨hreach, -⟩ hs'
    have hslot := (findsSlot_iff_reachesSlot hspacious).mpr hreach
    exact ⟨hrefines.of_step hE hslot hs', hrefines.spacious_step hspacious hs'⟩
  · rintro s op ⟨hrefines, hspacious⟩ hE
    rw [hrefines.answersCorrectly_iff hE, findsSlot_iff_reachesSlot hspacious]

/-- Two keys with one hash value. A lookup of the older one walks over a value of the same length,
and after its removal it is absent, and the other one is present. -/
theorem correct_iff_reaches_spared_collision :
    let ops : List Op := [.insert (numberedKey 0) oneByte, .update (numberedKey 1) oneByte,
      .lookup (numberedKey 0) (some [0, 0]), .remove (numberedKey 0) none,
      .lookup (numberedKey 1) (some [0, 0])]
    Always (step numberHash) (AnswersCorrectly numberHash) (start 0) ops ∧
      Always (step numberHash) (fun s op => ReachesSlot numberHash s op ∧ Spared numberHash s op)
        (start 0) ops := by
  intro ops
  have hfits : Always (step numberHash) LogFits (start 0) ops := by decide +kernel
  have hcorrect : Always (step numberHash) (AnswersCorrectly numberHash) (start 0) ops := by
    decide +kernel
  exact ⟨hcorrect, (correct_iff_reaches_spared numberHash 0 ops hfits).mp hcorrect⟩

/-! ## What goes wrong -/

/-- With 102 entries the table grows to a capacity of 363. Since `2 ^ 64 % 363 = 214`, the probes of
the hash value `2 ^ 64 - 200` are the slots 14 to 213 and after the overflow the slots 0 to 162. -/
def crowdedOps : List Op :=
  ((List.range 213).map fun n => .insert (numberedKey (n + 1)) oneByte) ++
    [.insert (numberedKey 363) oneByte, .insert (numberedKey (2 ^ 64 - 200)) oneByte]

/-- Two keys with one hash value, the newer one with the longer value: the lookup of the older one
leaves `1, 9, 9, 9` in the buffer. -/
def spilledOps : List Op :=
  [.insert (numberedKey 0) oneByte, .insert (numberedKey 1) ⟨[9, 9, 9, 9], by decide, by decide⟩,
    .lookup (numberedKey 0) (some [0, 0, 0, 0])]

/-- The last of the crowded insertions does not return, though the table has empty slots; and the
last lookup after the others changes the buffer behind the value. -/
theorem crowded_spilled_not_correct :
    ¬ Always (step numberHash) (AnswersCorrectly numberHash) (start 0) crowdedOps ∧
      ¬ Always (step numberHash) (AnswersCorrectly numberHash) (start 0) spilledOps := by
  constructor <;> decide +kernel

end Cs238p.P4
