import Cs238p.Lib.Transition
import Cs238p.P3.Scm

set_option relaxedAutoImplicit false
set_option autoImplicit false

/-!
# Sessions on an SCM region file

The number of utilized bytes is kept in the handle and in the first word of the file. An allocation
that succeeds writes the word, and so does every `scm_free`; `scm_open` with truncation resets the
handle only. This module determines when a session finds what the one before it left.

## Main definitions

* `SessionCall`, `Scm.exec` — the calls of a session, and what they do.
* `RegionFile`, `Disk` — a region file, and what the session before left.
* `ScmSession.Barren` — the session truncates the region and allocates nothing.
* `Disk.Found` — `scm_open` of the session finds what was left, and nothing behind a barren session.

## Main results

* `Scm.exec_foldl` — after its calls, the handle is as it was or agrees with the first word.
* `found_iff_clear` — the sessions of a run find what was left if and only if none of them opens
  without truncation, behind a barren session, a file whose first word is not zero.
-/

namespace Cs238p.P3

open Transition

/-! ## The calls of a session -/

/-- A call on an open region. -/
inductive SessionCall
  | malloc (n : ℕ)
  | strdup (s : CString)
  | free (p : ℕ)
  deriving DecidableEq

namespace Scm

/-- The handle after a call. -/
def exec (scm : Scm) : SessionCall → Scm
  | .malloc n => (scmMalloc scm n).2
  | .strdup s => (scmStrdup scm s).2
  | .free p => scmFree scm p

/-- The call allocates a block. -/
def Allocates (scm : Scm) : SessionCall → Prop
  | .malloc n => scm.Fits n
  | .strdup s => scm.Fits (s.strlen + 1)
  | .free _ => False

instance (scm : Scm) : DecidablePred scm.Allocates
  | .malloc n => inferInstanceAs (Decidable (scm.Fits n))
  | .strdup s => inferInstanceAs (Decidable (scm.Fits (s.strlen + 1)))
  | .free _ => inferInstanceAs (Decidable False)

/-- The call writes the first word: it allocates a block or releases one. -/
def Writes (scm : Scm) (call : SessionCall) : Prop :=
  scm.Allocates call ∨ ∃ p, call = .free p

/-- The handle and the first word of the mapping agree. -/
def Synced (scm : Scm) : Prop := scm.mem.word virtAddr 8 = scm.utilized

variable {scm : Scm} {call : SessionCall}

/-- A call that does not write the first word has failed, and changes nothing. -/
lemma exec_of_not_writes (h : ¬ scm.Writes call) : scm.exec call = scm := by
  obtain ⟨hallocates, hfree⟩ := not_or.mp h
  cases call with
  | malloc n =>
    show (scmMalloc scm n).2 = scm
    rw [scmMalloc_of_not_fits hallocates]
  | strdup s =>
    show (scmStrdup scm s).2 = scm
    rw [scmStrdup_of_not_fits hallocates]
  | free p => exact absurd ⟨p, rfl⟩ hfree

/-- The number of utilized bytes is written to the first word. -/
lemma word_setWord_counter (m : Mem) (n : ℕ) :
    (m.setWord (addr - 8) 8 (sizeT n)).word virtAddr 8 = sizeT n :=
  Mem.word_setWord (Nat.mod_lt _ (by decide))

/-- What is written to the first word is the number of utilized bytes. -/
lemma synced_exec (h : scm.Writes call) : (scm.exec call).Synced := by
  cases call with
  | malloc n =>
    have hfits : scm.Fits n := h.resolve_right (by simp)
    show (scmMalloc scm n).2.Synced
    rw [scmMalloc_of_fits hfits]
    exact word_setWord_counter _ _
  | strdup s =>
    have hfits : scm.Fits (s.strlen + 1) := h.resolve_right (by simp)
    show (scmStrdup scm s).2.Synced
    rw [scmStrdup_of_fits hfits]
    have hgrow : (scm.grow (s.strlen + 1)).Synced := word_setWord_counter _ _
    unfold Synced growString
    rw [← hgrow]
    -- the characters are written behind the first word
    refine Mem.word_congr fun x hx => Mem.write_of_not_mem ?_
    rw [Span.mem_mk] at hx ⊢
    simp only [addr]
    omega
  | free p => exact word_setWord_counter _ _

/-- None of the calls allocates a block. -/
def AllocatesNothing (scm : Scm) (calls : List SessionCall) : Prop :=
  Always (fun scm call => some (scm.exec call)) (fun scm call => ¬ scm.Allocates call) scm calls

instance (scm : Scm) (calls : List SessionCall) : Decidable (scm.AllocatesNothing calls) :=
  decidableAlways _ _ _ _

/-- **After its calls, the handle of a session agrees with the first word, or it is as it was**, all
of them having failed. -/
theorem exec_foldl (scm : Scm) (calls : List SessionCall) :
    (calls.foldl exec scm).Synced ∨ calls.foldl exec scm = scm ∧ scm.AllocatesNothing calls := by
  induction calls generalizing scm with
  | nil => exact .inr ⟨rfl, trivial⟩
  | cons call calls ih =>
    rw [List.foldl_cons]
    by_cases hcall : scm.Writes call
    · obtain hsynced | ⟨heq, -⟩ := ih (scm.exec call)
      · exact .inl hsynced
      · rw [heq]
        exact .inl (synced_exec hcall)
    · have hkeep := exec_of_not_writes hcall
      rw [hkeep]
      refine (ih scm).imp_right fun ⟨heq, hnothing⟩ => ⟨heq, ?_, fun scm' hstep => ?_⟩
      · exact (not_or.mp hcall).1
      · obtain rfl := Option.some.inj hstep
        rwa [hkeep]

end Scm

/-! ## Sessions -/

/-- A region file: its bytes, from `VIRT_ADDR` on, and their number. It has room for its first
word, which `scm_open` reads. -/
structure RegionFile where
  bytes : Mem
  capacity : ℕ
  room : 8 ≤ capacity

/-- The first word of the file. -/
def RegionFile.word (file : RegionFile) : ℕ := file.bytes.word virtAddr 8

/-- A session: `scm_open`, calls on the region, and `scm_close`. -/
structure ScmSession where
  truncate : Bool
  calls : List SessionCall
  deriving DecidableEq

namespace ScmSession

variable {file : RegionFile} {session : ScmSession}

/-- The handle that `scm_open` returns. -/
def opened (session : ScmSession) (file : RegionFile) : Scm :=
  scmOpen file.bytes file.capacity session.truncate

/-- The handle that is passed to `scm_close`. -/
def closed (session : ScmSession) (file : RegionFile) : Scm :=
  session.calls.foldl Scm.exec (session.opened file)

/-- The session truncates the region and allocates nothing. -/
def Barren (session : ScmSession) (file : RegionFile) : Prop :=
  session.truncate = true ∧ (session.opened file).AllocatesNothing session.calls

instance (session : ScmSession) (file : RegionFile) : Decidable (session.Barren file) :=
  inferInstanceAs (Decidable (_ ∧ _))

lemma word_opened (session : ScmSession) (file : RegionFile) :
    (session.opened file).mem.word virtAddr 8 = file.word := by
  have hmem : (session.opened file).mem =
      fun x => if x ∈ mappedSpan file.capacity then file.bytes x else 0 := by
    unfold opened scmOpen
    cases session.truncate <;> rfl
  rw [hmem]
  refine Mem.word_congr fun x hx => if_pos ?_
  have hroom := file.room
  rw [Span.mem_mk] at hx
  rw [mappedSpan, Span.mem_mk]
  omega

lemma utilized_opened_truncate (h : session.truncate = true) :
    (session.opened file).utilized = 0 := by
  unfold opened scmOpen
  rw [h]
  rfl

lemma synced_opened (h : session.truncate = false) : (session.opened file).Synced := by
  unfold opened scmOpen
  rw [h]
  exact rfl

lemma utilized_opened (h : session.truncate = false) :
    (session.opened file).utilized = file.word := by
  rw [← word_opened session file, synced_opened h]

/-- A session leaves the number of utilized bytes in the first word, or it is barren and ends with
no byte utilized. -/
lemma closed_spec (session : ScmSession) (file : RegionFile) :
    (session.closed file).Synced ∨
      session.Barren file ∧ (session.closed file).utilized = 0 := by
  obtain hsynced | ⟨heq, hnothing⟩ := (session.opened file).exec_foldl session.calls
  · exact .inl hsynced
  · rw [closed, heq]
    cases htruncate : session.truncate with
    | true => exact .inr ⟨⟨htruncate, hnothing⟩, utilized_opened_truncate htruncate⟩
    | false => exact .inl (synced_opened htruncate)

end ScmSession

/-! ## Runs of sessions -/

/-- The region file between two sessions, with the number of bytes that were utilized at the last
`scm_close`, and whether the last session was barren. -/
structure Disk where
  file : RegionFile
  closed : Option ℕ
  barren : Bool

namespace Disk

/-- A file before its first session. -/
def fresh (file : RegionFile) : Disk := ⟨file, none, false⟩

/-- The disk after a session. -/
def step (d : Disk) (session : ScmSession) : Option Disk :=
  some ⟨⟨scmClose (session.closed d.file), d.file.capacity, d.file.room⟩,
    some (scmUtilized (session.closed d.file)), decide (session.Barren d.file)⟩

/-- Right after `scm_open` no byte is utilized if it truncates the region, and otherwise as many
as at the last `scm_close`; none if the last session truncated the region and allocated nothing. -/
def Found (d : Disk) (session : ScmSession) : Prop :=
  if session.truncate then scmUtilized (session.opened d.file) = 0
  else (∀ n, d.closed = some n → scmUtilized (session.opened d.file) = n) ∧
    (d.barren = true → scmUtilized (session.opened d.file) = 0)

/-- The session does not open without truncation, behind a barren session, a file whose first word
is not zero. -/
def Clear (d : Disk) (session : ScmSession) : Prop :=
  session.truncate = false → d.barren = true → d.file.word = 0

/-- What the last session left. -/
def Left (d : Disk) : Prop :=
  (∀ n, d.closed = some n → d.file.word = n) ∨ d.barren = true ∧ d.closed = some 0

variable {d d' : Disk} {session : ScmSession}

lemma left_fresh (file : RegionFile) : (fresh file).Left :=
  .inl fun n h => absurd h (by simp [fresh])

/-- Every session leaves the number of utilized bytes in the file, or it is barren and leaves
none. -/
lemma left_step (h : d.step session = some d') : d'.Left := by
  obtain rfl := Option.some.inj h
  obtain hsynced | ⟨hbarren, hzero⟩ := session.closed_spec d.file
  · refine .inl fun n hn => ?_
    obtain rfl := Option.some.inj hn
    exact hsynced
  · exact .inr ⟨decide_eq_true hbarren, congrArg some hzero⟩

/-- A session finds what was left if and only if its file is clear. -/
lemma Left.found_iff (h : d.Left) (session : ScmSession) : d.Found session ↔ d.Clear session := by
  unfold Found Clear scmUtilized
  cases htruncate : session.truncate with
  | true => exact iff_of_true (ScmSession.utilized_opened_truncate htruncate) (by simp)
  | false =>
    rw [if_neg Bool.false_ne_true, ScmSession.utilized_opened htruncate]
    constructor
    · rintro ⟨-, hnone⟩ -
      exact hnone
    · intro hclear
      refine ⟨?_, hclear rfl⟩
      rcases h with hword | ⟨hbarren, hclosed⟩
      · exact hword
      · intro n hn
        obtain rfl := Option.some.inj (hclosed.symm.trans hn)
        exact hclear rfl hbarren

/-- **The sessions of a run find what was left if and only if** none of them opens without
truncation, behind a session that truncated the region and allocated nothing, a file whose first
word is not zero.

**Proof sketch.** A session leaves the number of utilized bytes in the first word, unless all of its
calls fail behind a truncation; then it leaves none utilized and does not write the word
(`left_step`). -/
theorem found_iff_clear (file : RegionFile) (sessions : List ScmSession) :
    Always step Found (fresh file) sessions ↔ Always step Clear (fresh file) sessions :=
  always_congr_of_invariant (E := fun _ _ => True) (fun _ _ _ _ _ _ hstep => left_step hstep)
    (fun _ session h _ => h.found_iff session) (left_fresh file)
    (always_of_forall_mem _ fun _ _ => trivial)

/-- An empty region of 4096 bytes. -/
def emptyFile : RegionFile := ⟨fun _ => 0, 4096, by decide⟩

/-- A block of one byte is allocated, the region is truncated and closed again, and the next
session finds eleven utilized bytes. -/
theorem not_found_truncated : ¬ Always step Found (fresh emptyFile)
    [⟨true, [.malloc 1]⟩, ⟨true, []⟩, ⟨false, []⟩] := by
  intro h
  have hfound := ((h.2 _ rfl).2 _ rfl).1.1 0 rfl
  revert hfound
  decide +kernel

end Disk

end Cs238p.P3
