import Cs238p.Lib.Transition
import Cs238p.P3.Shell

set_option relaxedAutoImplicit false
set_option autoImplicit false

/-!
# The history of the shell

A line that is not blank fills a slot of the history, and the next line is edited in the slot behind
it. The index of that slot is cut off at `H`, which is one more than the array has.

## Main definitions

* `accepted` — the number of lines of a session that are not blank.

## Main results

* `slots_lt_iff` — a session stays within the history exactly if it has less than `H` such lines.
-/

namespace Cs238p.P3

open Buffer Transition WhiteSpace

/-- The enter key ends a line that is not blank. -/
def Accepts (s : ReadLine) (k : Key) : Prop :=
  k = .newline ∧ ¬ ∀ b ∈ string s.buf, isBlank b = true

instance (s : ReadLine) (k : Key) : Decidable (Accepts s k) :=
  inferInstanceAs (Decidable (_ ∧ _))

/-- The number of lines of a session that are not blank. -/
def accepted (fnc : List UInt8 → List UInt8) : ReadLine → List Key → ℕ
  | _, [] => 0
  | s, k :: keys => (if Accepts s k then 1 else 0) + accepted fnc (s.step fnc k) keys

/-- The next key of a session. -/
def sessionStep (fnc : List UInt8 → List UInt8) (s : ReadLine) (k : Key) : Option ReadLine :=
  some (s.step fnc k)

/-- The line is edited in the last slot, and it was recalled from a slot of the history. -/
structure InHistory (s : ReadLine) : Prop where
  own : s.own = s.last
  j_le : s.j ≤ s.last
  last_lt : s.last < H

/-- What a key means for the history: an accepted line fills a slot. -/
structure Fills (fnc : List UInt8 → List UInt8) (s : ReadLine) (k : Key) : Prop where
  inHistory : InHistory (s.step fnc k)
  last : (s.step fnc k).last = s.last + if Accepts s k then 1 else 0

variable {fnc : List UInt8 → List UInt8} {s : ReadLine} {k : Key}

/-! ## A key of the editor -/

lemma recallLine_frame (s : ReadLine) (j : ℕ) :
    (s.recallLine j).own = s.own ∧ (s.recallLine j).last = s.last ∧ (s.recallLine j).j = j := by
  rw [ReadLine.recallLine]
  split <;> exact ⟨rfl, rfl, rfl⟩

/-- A key of the editor stays in its slot and goes no further than to the last one. -/
lemma key_frame (hj : s.j ≤ s.last) (k : Key) :
    (s.key k).own = s.own ∧ (s.key k).last = s.last ∧ (s.key k).j ≤ s.last := by
  cases k with
  | escape c =>
    simp only [ReadLine.key]
    split
    · split
      · obtain ⟨hown, hlast, hrecall⟩ := recallLine_frame s (s.j - 1)
        exact ⟨hown, hlast, hrecall.le.trans ((Nat.sub_le _ _).trans hj)⟩
      · exact ⟨rfl, rfl, hj⟩
    split
    · split
      · next hlt =>
        obtain ⟨hown, hlast, hrecall⟩ := recallLine_frame s (s.j + 1)
        exact ⟨hown, hlast, hrecall.le.trans hlt⟩
      · exact ⟨rfl, rfl, hj⟩
    split
    · exact ⟨rfl, rfl, hj⟩
    split <;> exact ⟨rfl, rfl, hj⟩
  | code k =>
    simp only [ReadLine.key]
    split_ifs <;> exact ⟨rfl, rfl, hj⟩

/-! ## The enter key -/

/-- Behind a blank line the next one is edited in the same slot. -/
lemma enter_blank (hblank : strlen (shellStrtrim s.buf) = 0) :
    (s.enter fnc).own = s.last ∧ (s.enter fnc).j = s.last ∧ (s.enter fnc).last = s.last := by
  rw [ReadLine.enter, if_pos hblank]
  exact ⟨rfl, rfl, rfl⟩

/-- Behind another line the next one is edited in the next slot. -/
lemma enter_accepted (hown : s.own = s.last) (hline : strlen (shellStrtrim s.buf) ≠ 0) :
    (s.enter fnc).own = ReadLine.nextSlot s.last ∧ (s.enter fnc).j = ReadLine.nextSlot s.last ∧
      (s.enter fnc).last = ReadLine.nextSlot s.last := by
  rw [ReadLine.enter, if_neg hline, if_pos hown]
  exact ⟨rfl, rfl, rfl⟩

/-- The slots of a key are those of the history, if it does not end a line in the last one. -/
lemma slots_lt_iff_of_inHistory (h : InHistory s) (k : Key) :
    (∀ x ∈ s.slots k, x < H) ↔ (Accepts s k → s.last + 1 < H) := by
  have hown := h.own
  have hj := h.j_le
  have hlt := h.last_lt
  rw [ReadLine.slots]
  by_cases hk : k = .newline
  · rw [if_pos hk, if_pos hown]
    by_cases hblank : ∀ b ∈ string s.buf, isBlank b = true
    · rw [if_pos ((strlen_shellStrtrim_eq_zero_iff s.buf).mpr hblank)]
      simp only [List.mem_cons, List.not_mem_nil, or_false, forall_eq_or_imp, forall_eq]
      exact ⟨fun _ hacc => absurd hblank hacc.2, fun _ => ⟨by omega, hlt⟩⟩
    · rw [if_neg (mt (strlen_shellStrtrim_eq_zero_iff s.buf).mp hblank), ReadLine.nextSlot]
      simp only [List.mem_cons, List.not_mem_nil, or_false, forall_eq_or_imp, forall_eq]
      constructor
      · intro ⟨_, hnext⟩ _
        split at hnext
        · assumption
        · exact absurd hnext (Nat.lt_irrefl _)
      · intro hacc
        have hroom := hacc ⟨hk, hblank⟩
        rw [if_pos hroom]
        exact ⟨by omega, hroom⟩
  · rw [if_neg hk]
    refine ⟨fun _ hacc => absurd hacc.1 hk, fun _ x hx => ?_⟩
    split at hx
    · simp only [List.mem_cons, List.not_mem_nil, or_false] at hx
      omega
    split at hx
    · simp only [List.mem_cons, List.not_mem_nil, or_false] at hx
      omega
    · simp only [List.mem_cons, List.not_mem_nil, or_false] at hx
      omega

/-- **A key fills a slot exactly if it ends a line that is not blank.** -/
lemma fills_step (h : InHistory s) (hroom : Accepts s k → s.last + 1 < H) : Fills fnc s k := by
  have hlt := h.last_lt
  by_cases hk : k = .newline
  · have hstep : s.step fnc k = s.enter fnc := if_pos hk
    by_cases hblank : ∀ b ∈ string s.buf, isBlank b = true
    · obtain ⟨hown, hj, hlast⟩ := @enter_blank fnc s
        ((strlen_shellStrtrim_eq_zero_iff s.buf).mpr hblank)
      rw [← hstep] at hown hj hlast
      refine ⟨⟨hown.trans hlast.symm, (hj.trans hlast.symm).le, hlast ▸ hlt⟩, ?_⟩
      rw [if_neg fun hacc => hacc.2 hblank]
      exact hlast
    · obtain ⟨hown, hj, hlast⟩ := @enter_accepted fnc s h.own
        (mt (strlen_shellStrtrim_eq_zero_iff s.buf).mp hblank)
      have hnext : ReadLine.nextSlot s.last = s.last + 1 := if_pos (hroom ⟨hk, hblank⟩)
      rw [← hstep] at hown hj hlast
      refine ⟨⟨hown.trans hlast.symm, (hj.trans hlast.symm).le, ?_⟩, ?_⟩
      · rw [hlast, hnext]
        exact hroom ⟨hk, hblank⟩
      · rw [hlast, hnext, if_pos ⟨hk, hblank⟩]
  · have hstep : s.step fnc k = s.key k := if_neg hk
    obtain ⟨hown, hlast, hj⟩ := key_frame h.j_le k
    rw [← hstep] at hown hlast hj
    refine ⟨⟨hown.trans (h.own.trans hlast.symm), hlast ▸ hj, hlast ▸ hlt⟩, ?_⟩
    rw [if_neg fun hacc => hk hacc.1]
    exact hlast

/-! ## Sessions -/

/-- From any state of the history, the slots are those of the history exactly if there is one for
every line to come. -/
lemma always_slots_lt_iff (h : InHistory s) (keys : List Key) :
    Always (sessionStep fnc) (fun s k => ∀ x ∈ s.slots k, x < H) s keys ↔
      s.last + accepted fnc s keys ≤ H - 1 := by
  induction keys generalizing s with
  | nil =>
    have := h.last_lt
    exact ⟨fun _ => by rw [accepted]; omega, fun _ => trivial⟩
  | cons k keys ih =>
    rw [always_cons, slots_lt_iff_of_inHistory h, accepted]
    by_cases hroom : Accepts s k → s.last + 1 < H
    · obtain ⟨hnext, hlast⟩ := @fills_step fnc s k h hroom
      have hrest := ih hnext
      rw [hlast] at hrest
      constructor
      · rintro ⟨-, hkeys⟩
        have := hrest.mp (hkeys _ rfl)
        omega
      · intro hle
        refine ⟨hroom, fun s' hs' => ?_⟩
        obtain rfl := Option.some.inj hs'
        exact hrest.mpr (by omega)
    · obtain ⟨hacc, hfull⟩ := Classical.not_imp.mp hroom
      refine ⟨fun hkeys => absurd hkeys.1 hroom, fun hle => ?_⟩
      rw [if_pos hacc] at hle
      have hpos : 0 < H := by decide
      omega

/-- **A session stays within the history exactly if it accepts less than `H` lines.**

**Proof sketch.** The index of the last slot is the number of accepted lines, as long as it is less
than `H`. A further line in the slot `H - 1` makes it `H`, and that slot is cleared at once. -/
theorem slots_lt_iff (fnc : List UInt8 → List UInt8) (rest : List UInt8) (keys : List Key) :
    Always (sessionStep fnc) (fun s k => ∀ x ∈ s.slots k, x < H) (session rest) keys ↔
      accepted fnc (session rest) keys ≤ H - 1 := by
  have hpos : 0 < H := by decide
  have h : InHistory (session rest) := ⟨rfl, le_rfl, hpos⟩
  have hlast : (session rest).last = 0 := rfl
  rw [always_slots_lt_iff h, hlast, Nat.zero_add]

/-! ## The line that goes beyond -/

/-- The line is still empty, in a slot of the array. -/
structure Fresh (m : ℕ) (s : ReadLine) : Prop where
  own : s.own = m
  last : s.last = m
  j : s.j = m
  i : s.i = 0
  n : s.n = 0
  before : s.before.length = N * m
  buf : ∃ x rest, s.buf = 0 :: x :: rest
  length : s.before.length + s.buf.length = H * N

/-- A cleared slot of the array is an empty line. -/
lemma fresh_start {history : List UInt8} {m : ℕ} (hlength : history.length = H * N) (hm : m < H)
    (hzero : history[N * m]? = some 0) : Fresh m (ReadLine.start history m) := by
  have hroom : N * m + N ≤ H * N := by
    rw [← Nat.mul_succ, Nat.mul_comm H]
    exact Nat.mul_le_mul_left N hm
  have hN : 1 < N := by decide
  have hfirst : N * m < history.length := by omega
  have hsecond : N * m + 1 < history.length := by omega
  have hbuf : history.drop (N * m) =
      0 :: history[N * m + 1] :: history.drop (N * m + 1 + 1) := by
    rw [List.drop_eq_getElem_cons hfirst, List.drop_eq_getElem_cons hsecond]
    rw [List.getElem?_eq_getElem hfirst] at hzero
    rw [Option.some.inj hzero]
  have hstrlen : strlen (history.drop (N * m)) = 0 := by rw [hbuf]; rfl
  refine ⟨rfl, rfl, rfl, hstrlen, hstrlen, ?_, ⟨_, _, hbuf⟩, ?_⟩
  · rw [ReadLine.start, List.length_take]
    omega
  · rw [ReadLine.start, List.length_take, List.length_drop]
    omega

/-- A letter in an empty line. -/
lemma Fresh.letter {m : ℕ} (h : Fresh m s) : ∃ rest, s.step fnc (.code 97) =
    { s with
      buf := 97 :: 0 :: rest
      written := s.written ++ [⟨0, 1⟩] ++ [⟨1, 1⟩]
      i := 1
      n := 1 } ∧ s.buf.length = rest.length + 2 := by
  obtain ⟨x, rest, hbuf⟩ := h.buf
  refine ⟨rest, ?_, by rw [hbuf]; rfl⟩
  have hroom : 1 < N := by decide
  simp [ReadLine.step, ReadLine.key, Key.newline, h.i, h.n, hroom, ReadLine.put, hbuf]

/-- The enter key behind a line that the function of the shell leaves as it is. -/
lemma enter_id (hown : s.own = s.last) (hline : ¬ ∀ b ∈ string s.buf, isBlank b = true) :
    s.enter id = ReadLine.start ((s.before ++ shellStrtrim s.buf).set
      (N * ReadLine.nextSlot s.last) 0) (ReadLine.nextSlot s.last) := by
  rw [ReadLine.enter, if_neg (mt (strlen_shellStrtrim_eq_zero_iff _).mp hline)]
  simp only [if_pos hown, id_eq, List.take_append_drop]

/-- A line of a letter is accepted, and the next one is empty. -/
lemma Fresh.word {m : ℕ} (h : Fresh m s) :
    Accepts (s.step id (.code 97)) .newline ∧
      (m + 1 < H → Fresh (m + 1) ((s.step id (.code 97)).step id .newline)) := by
  obtain ⟨rest, hletter, hlength⟩ := @Fresh.letter id s m h
  have hstring : string (97 :: 0 :: rest) = [97] := rfl
  have hline : ¬ ∀ b ∈ string (97 :: 0 :: rest), isBlank b = true := by
    rw [hstring]
    decide
  rw [hletter]
  refine ⟨⟨rfl, hline⟩, fun hroom => ?_⟩
  have hnext : ReadLine.nextSlot s.last = m + 1 := by
    rw [h.last]
    exact if_pos hroom
  have htotal : (s.before ++ shellStrtrim (97 :: 0 :: rest)).length = H * N := by
    rw [List.length_append, length_shellStrtrim, ← h.length, hlength]
    rfl
  rw [ReadLine.step, if_pos rfl, enter_id, hnext]
  · refine fresh_start (by rw [List.length_set, htotal]) hroom ?_
    rw [List.getElem?_set_self]
    rw [htotal, Nat.mul_comm H]
    exact Nat.mul_lt_mul_of_pos_left hroom (by decide)
  · exact h.own.trans h.last.symm
  · exact hline

/-- Lines of a letter fill one slot each. -/
lemma fresh_words {m : ℕ} (hm : m < H) :
    ∃ s, run (sessionStep id) (session []) (List.replicate m [Key.code 97, .newline]).flatten =
      some s ∧ Fresh m s := by
  induction m with
  | zero =>
    refine ⟨session [], rfl, fresh_start ?_ hm ?_⟩
    · rw [List.append_nil, List.length_replicate]
    · rw [List.append_nil, List.getElem?_replicate, if_pos (by decide)]
  | succ m ih =>
    obtain ⟨s, hrun, hs⟩ := ih (by omega)
    refine ⟨(s.step id (.code 97)).step id .newline, ?_, hs.word.2 hm⟩
    rw [List.replicate_succ', List.flatten_append, run_append, hrun]
    rfl

/-- The line that fills the last slot clears the slot `H`. -/
theorem words_leave_history :
    ¬ Always (sessionStep id) (fun s k => ∀ x ∈ s.slots k, x < H) (session [])
      (List.replicate H [Key.code 97, .newline]).flatten := by
  intro h
  have hpos : H - 1 < H := by decide
  obtain ⟨s, hrun, hs⟩ := fresh_words hpos
  rw [show H = H - 1 + 1 from rfl, List.replicate_succ', List.flatten_append] at h
  have hstep := (h.right hrun).2 _ rfl
  obtain ⟨rest, hletter, -⟩ := @Fresh.letter id s _ hs
  have hhist : InHistory (s.step id (.code 97)) := by
    rw [hletter]
    exact ⟨hs.own.trans hs.last.symm, (hs.j.trans hs.last.symm).le, hs.last.trans_lt hpos⟩
  have hroom := (slots_lt_iff_of_inHistory hhist _).mp hstep.1 hs.word.1
  have hlast : (s.step id (.code 97)).last = H - 1 := by
    rw [hletter]
    exact hs.last
  omega

end Cs238p.P3
