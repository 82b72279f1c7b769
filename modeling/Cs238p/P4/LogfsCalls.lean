import Cs238p.Lib.CallProgram
import Cs238p.P4.Kvraw
import Cs238p.P4.LogfsProgress

set_option relaxedAutoImplicit false
set_option autoImplicit false

/-!
# Programs over the log

A program that calls `logfs_append`, `logfs_read` and `logfs_close` runs as the client of the log,
beside the worker. What it computes is what it computes on an ideal log, a list of bytes; and it
comes to its end unless it waits for space.

## Main definitions

* `Call`, `Answer`, `Ideal`, `ideal` — the calls, what they return, and the ideal log.
* `server` — the log with its worker, as the server of the calls.
* `Idle`, `Busy` — how the log is related to the ideal one between and during the calls.
* `stepsLeft`, `rank` — how far the two threads are from the end of their steps.

## Main results

* `implements_ideal` — the log implements the ideal one.
* `terminates_server`, `responsive_server` — its steps come to an end, and only a client that waits
  for space is blocked.
* `program_total` — every program ends in every interleaving with what it computes on the ideal log,
  or it waits for space.

## Implementation notes

The log is that of `Cs238p.P4.Logfs`, with counters of type `int` that do not overflow. Every device
access of the server is in range and succeeds, and its threads wake up only when they are signalled.
-/

namespace Cs238p.P4.Logfs

open CallProgram RingLog

/-! ## The ideal log -/

/-- The calls of the log. -/
inductive Call
  | append (buf : List UInt8)
  | read (off len : ℕ)
  | close
  deriving DecidableEq, Repr

/-- The return value of a call, and the bytes it leaves in its buffer. -/
abbrev Answer := ℤ × List UInt8

/-- The ideal log: the bytes appended so far, and whether it is open. -/
structure Ideal where
  log : List UInt8
  isOpen : Bool
  deriving DecidableEq, Repr

/-- The bytes that a call appends. -/
def Call.bytes : Call → List UInt8
  | .append buf => buf
  | _ => []

/-- A read inside the log. -/
def Call.Inside (log : List UInt8) : Call → Prop
  | .read off len => off + len ≤ log.length
  | _ => True

/-- The ideal log as an object. -/
def ideal : Object Call Answer Ideal where
  Admits t i := t.isOpen = true ∧ i.Inside t.log
  answer t i :=
    match i with
    | .read off len => (0, logfsRead t.log off len)
    | _ => (0, [])
  next t i :=
    match i with
    | .append buf => { t with log := t.log ++ buf }
    | .read _ _ => t
    | .close => { t with isOpen := false }

lemma log_next (t : Ideal) (i : Call) : (ideal.next t i).log = t.log ++ i.bytes := by
  cases i with
  | append buf => rfl
  | read off len => exact (List.append_nil _).symm
  | close => exact (List.append_nil _).symm

/-! ## The log as a server -/

/-- The label of a call. -/
def Call.action : Call → Action
  | .append buf => .append buf
  | .read off len => .read off len
  | .close => .close

/-- The log with its worker: device accesses succeed, and there are no spurious wake-ups. -/
def server : Server Call Answer State Thread where
  begin s i := Logfs.step s i.action
  internal s := fun
    | .client => clientStep s .ok
    | .worker => workerStep s true
  returned s :=
    match s.client with
    | .idle (.read _ _ code buf) => some (code, buf)
    | .idle _ | .closed => some (0, [])
    | _ => none

/-- The client is inside the call, or has returned from it. -/
inductive Serves : Call → ClientPc → Prop
  | appendLock {buf buf' : List UInt8} : Serves (.append buf) (.appendLock buf')
  | append {buf rest : List UInt8} : Serves (.append buf) (.append rest)
  | appendWait {buf rest : List UInt8} : Serves (.append buf) (.appendWait rest)
  | appended {buf : List UInt8} : Serves (.append buf) (.idle .append)
  | readLock {off len : ℕ} : Serves (.read off len) (.flushLock (.read off len))
  | readWait {off len : ℕ} {distance : ℤ} :
    Serves (.read off len) (.flushWait distance (.read off len))
  | readWoken {off len : ℕ} {distance : ℤ} :
    Serves (.read off len) (.flushWoken distance (.read off len))
  | read {r : Reading} : Serves (.read r.off r.len) (.read r)
  | returned {off len : ℕ} {code : ℤ} {buf : List UInt8} :
    Serves (.read off len) (.idle (.read off len code buf))
  | closeFlush : Serves .close (.flushLock .close)
  | closeWait {distance : ℤ} : Serves .close (.flushWait distance .close)
  | closeWoken {distance : ℤ} : Serves .close (.flushWoken distance .close)
  | closeLock : Serves .close .closeLock
  | closeSignal : Serves .close .closeSignal
  | closeJoin : Serves .close .closeJoin
  | closed : Serves .close .closed

variable {B : ℕ} {s s' : State} {t : Ideal} {i : Call}

/-- The client stays inside its call. -/
lemma Serves.clientStep (h : Serves i s.client) (hs : Logfs.clientStep s .ok = some s') :
    Serves i s'.client := by
  cases clientStep_eq_some_iff.mp hs with
  | appendLock logfs worker buf =>
    cases h
    exact .append
  | appendDone logfs mutex worker =>
    cases h
    exact .appended
  | appendFull logfs mutex worker b rest hfull =>
    cases h
    exact .appendWait
  | appendByte logfs mutex worker b rest hroom =>
    rw [signalItemAvail_client]
    cases h
    exact .append
  | appendWoken logfs worker rest => cases h
  | flushLock logfs worker caller =>
    rw [signalItemAvail_client]
    cases h with
    | readLock => exact .readWait
    | closeFlush => exact .closeWait
  | flushWoken logfs worker distance caller =>
    cases h with
    | readWoken => exact .read (r := Reading.begin _ _ _)
    | closeWoken => exact .closeLock
  | readDone logfs mutex worker r hdone =>
    cases h
    exact .returned
  | readCached logfs mutex worker r hlt hcached =>
    cases h
    exact .read (r := r.next _ _)
  | readBlock logfs mutex worker r hlt huncached =>
    cases h
    exact .read (r := r.next _ _)
  | closeLock logfs worker =>
    cases h
    exact .closeSignal
  | closeSignal logfs mutex worker =>
    rw [signalItemAvail_client]
    cases h
    exact .closeJoin
  | closeJoin logfs mutex =>
    cases h
    exact .closed

/-- A signal of `flush` wakes the client inside its call. -/
lemma Serves.signalFlush (h : Serves i s.client) : Serves i s.signalFlush.client := by
  unfold State.signalFlush
  split
  · next distance caller hc =>
    rw [hc] at h
    cases h with
    | readWait => exact .readWoken
    | closeWait => exact .closeWoken
  · exact h

/-- The worker leaves the client inside its call. -/
lemma Serves.workerStep (h : Serves i s.client) (hs : Logfs.workerStep s true = some s') :
    Serves i s'.client := by
  cases workerStep_eq_some_iff.mp hs with
  | drain logfs mutex client hfull hdrained =>
    exact Serves.signalFlush (s := ⟨logfs.writeBlock, mutex, client, .outer⟩) h
  | _ => exact h

/-- The worker leaves a client between two calls alone. -/
lemma client_eq_of_workerStep (hs : Logfs.workerStep s true = some s')
    (hclient : ∀ distance caller, s.client ≠ .flushWait distance caller) :
    s'.client = s.client := by
  cases workerStep_eq_some_iff.mp hs with
  | drain logfs mutex client hfull hdrained =>
    unfold State.signalFlush
    split
    · next distance caller hc => exact absurd hc (hclient distance caller)
    · rfl
  | _ => rfl

/-! ## Simulation -/

/-- Between two calls the log holds the bytes of the ideal one; the client has closed it exactly if
the ideal one is closed. -/
def Idle (B : ℕ) (s : State) (t : Ideal) : Prop :=
  Holds B s t.log ∧ if t.isOpen = true then ∃ ret, s.client = .idle ret else s.client = .closed

/-- During a call the log holds the bytes of the ideal one with those of the call, up to the bytes
still to append. -/
def Busy (B : ℕ) (s : State) (t : Ideal) (i : Call) : Prop :=
  Holds B s (t.log ++ i.bytes) ∧ Serves i s.client ∧ ideal.Admits t i

/-- A step of a thread, with a successful device access, keeps the log. -/
lemma Holds.internal {bytes : List UInt8} {l : Thread} (h : Holds B s bytes)
    (hs : server.internal s l = some s') : Holds B s' bytes := by
  cases l with
  | client => exact h.clientStep hs
  | worker => exact h.workerStep hs

/-- A client that is idle or has closed the log does not step. -/
lemma Idle.clientStep_eq_none (h : Idle B s t) : Logfs.clientStep s .ok = none := by
  obtain ⟨-, h⟩ := h
  split at h
  · obtain ⟨ret, hret⟩ := h
    rw [Logfs.clientStep, hret]
  · rw [Logfs.clientStep, h]

lemma Idle.internal {l : Thread} (h : Idle B s t) (hs : server.internal s l = some s') :
    Idle B s' t := by
  refine ⟨h.1.internal hs, ?_⟩
  cases l with
  | client =>
    have hs : Logfs.clientStep s .ok = some s' := hs
    rw [h.clientStep_eq_none] at hs
    exact absurd hs (by simp)
  | worker =>
    obtain ⟨-, hclient⟩ := h
    rw [client_eq_of_workerStep hs]
    · exact hclient
    · intro distance caller hwait
      rw [hwait] at hclient
      simp at hclient

lemma Busy.internal {l : Thread} (h : Busy B s t i) (hs : server.internal s l = some s') :
    Busy B s' t i := by
  obtain ⟨hholds, hserves, hadmits⟩ := h
  refine ⟨hholds.internal hs, ?_, hadmits⟩
  cases l with
  | client => exact hserves.clientStep hs
  | worker => exact hserves.workerStep hs

/-- A call begins. -/
lemma Idle.begin (h : Idle B s t) (hadmits : ideal.Admits t i)
    (hs : Logfs.step s i.action = some s') : Busy B s' t i := by
  have hreliable : i.action.Reliable := by cases i <;> trivial
  have hbytes : i.action.bytes = i.bytes := by cases i <;> rfl
  have hholds := h.1.step hreliable hs
  rw [hbytes] at hholds
  refine ⟨hholds, ?_, hadmits⟩
  cases i with
  | append buf =>
    obtain ⟨-, rfl⟩ := call_eq_some_iff.mp hs
    exact .appendLock
  | read off len =>
    obtain ⟨-, rfl⟩ := call_eq_some_iff.mp hs
    exact .readLock
  | close =>
    obtain ⟨-, rfl⟩ := call_eq_some_iff.mp hs
    exact .closeFlush

/-- A log in which nothing is left to append holds exactly its bytes. -/
lemma Holds.exact {bytes : List UInt8} (h : Holds B s bytes) (hrest : s.client.rest = []) :
    ∃ f d, Inv B s bytes f d := by
  obtain ⟨log, f, d, hinv, rfl⟩ := h
  rw [hrest, List.append_nil]
  exact ⟨f, d, hinv⟩

/-- **A call returns** what it returns on the ideal log.

**Proof sketch.** The client is idle behind the call, or has closed the log. What an append or a
close returns is fixed; what a read returns is a part of the log, since it was inside. -/
lemma Busy.returned {o : Answer} (h : Busy B s t i) (hs : server.returned s = some o) :
    o = ideal.answer t i ∧ Idle B s (ideal.next t i) := by
  obtain ⟨hholds, hserves, hopen, hinside⟩ := h
  rw [← log_next] at hholds
  obtain ⟨logfs, mutex, client, worker⟩ := s
  cases hserves with
  | appended =>
    obtain rfl := Option.some.inj hs
    exact ⟨rfl, hholds, by simp [ideal, hopen]⟩
  | @returned off len code buf =>
    obtain rfl := Option.some.inj hs
    refine ⟨?_, hholds, by simp [ideal, hopen]⟩
    obtain ⟨f, d, -, -, hclient⟩ := hholds.exact rfl
    obtain ⟨hcode, hbuf⟩ := hclient.2
    have hbuf : buf = (t.log.drop off).take len := hbuf hinside
    rw [hcode, hbuf]
    rfl
  | closed =>
    obtain rfl := Option.some.inj hs
    exact ⟨rfl, hholds, by simp [ideal]⟩
  | _ => simp [server] at hs

/-- **The log implements the ideal one**, beside its worker. -/
theorem implements_ideal (B : ℕ) : Implements server ideal (Idle B) (Busy B) where
  begin := Idle.begin
  idle := Idle.internal
  busy := Busy.internal
  returned := Busy.returned

/-! ## Termination -/

/-- How many steps the client has still to take at most, with those after its next wait. -/
def stepsLeft : ClientPc → ℕ
  | .idle _ | .closed | .appendWait _ => 0
  | .appendLock buf => buf.length + 2
  | .append rest => rest.length + 1
  | .appendWoken rest => rest.length + 2
  | .flushLock (.read _ len) => len + 4
  | .flushWait _ (.read _ len) => len + 3
  | .flushWoken _ (.read _ len) => len + 2
  | .read r => r.len - r.readTillNow + 1
  | .flushLock .close => 6
  | .flushWait _ .close => 5
  | .flushWoken _ .close => 4
  | .closeLock => 3
  | .closeSignal => 2
  | .closeJoin => 1

/-- What the client and then what the worker has still to do. -/
def rank (s : State) : ℕ × ℕ := (stepsLeft s.client, s.workLeft)

/-- The next bytes are some, in the loop of `logfs_read`. -/
lemma ReadProgress.lenToRead_pos {logfs : Logfs} {r : Reading} (h : ReadProgress B logfs r)
    (hlt : r.readTillNow < r.len) : 0 < r.lenToRead := by
  have hstart := h.start_lt
  have hlen := h.lenToRead
  omega

/-- **A step of the client** leaves it less to do. -/
lemma stepsLeft_clientStep {bytes : List UInt8} (h : Holds B s bytes)
    (hs : Logfs.clientStep s .ok = some s') : stepsLeft s'.client < stepsLeft s.client := by
  obtain ⟨log, f, d, ⟨hlayout, -, hclient⟩, -⟩ := h
  have hreading {r : Reading} (logfs : Logfs) (block : List UInt8) (hr : ReadProgress B logfs r)
      (hlt : r.readTillNow < r.len) (B' : ℕ) :
      stepsLeft (.read (r.next B' block)) < stepsLeft (.read r) := by
    have hpos := hr.lenToRead_pos hlt
    show r.len - (r.readTillNow + r.lenToRead) + 1 < r.len - r.readTillNow + 1
    omega
  cases clientStep_eq_some_iff.mp hs with
  | appendByte logfs mutex worker b rest hroom =>
    rw [signalItemAvail_client]
    exact Nat.lt_succ_self _
  | flushLock logfs worker caller =>
    rw [signalItemAvail_client]
    cases caller <;> exact Nat.lt_succ_self _
  | flushWoken logfs worker distance caller =>
    cases caller with
    | read off len => exact Nat.lt_succ_self _
    | close => exact Nat.lt_succ_self _
  | readCached logfs mutex worker r hlt hcached => exact hreading logfs _ hclient.2.2 hlt _
  | readBlock logfs mutex worker r hlt huncached => exact hreading logfs _ hclient.2.2 hlt _
  | readDone logfs mutex worker r hdone => exact Nat.succ_pos _
  | closeSignal logfs mutex worker =>
    rw [signalItemAvail_client]
    exact Nat.lt_succ_self _
  | appendFull logfs mutex worker b rest hfull => exact Nat.succ_pos _
  | _ => exact Nat.lt_succ_self _

/-- A step of the worker leaves the client no more to do. -/
lemma stepsLeft_workerStep (hs : Logfs.workerStep s true = some s') :
    stepsLeft s'.client ≤ stepsLeft s.client := by
  cases workerStep_eq_some_iff.mp hs with
  | drain logfs mutex client hfull hdrained =>
    unfold State.signalFlush
    split
    · next distance caller hc =>
      obtain rfl : client = .flushWait distance caller := hc
      cases caller <;> exact Nat.le_succ _
    · exact Nat.le_refl _
  | _ => exact Nat.le_refl _

/-- **Every step of a thread** makes the rank smaller. -/
lemma rank_internal {bytes : List UInt8} {l : Thread} (h : Holds B s bytes)
    (hs : server.internal s l = some s') :
    Prod.Lex (· < ·) (· < ·) (rank s') (rank s) := by
  cases l with
  | client => exact .left _ _ (stepsLeft_clientStep h hs)
  | worker =>
    obtain ⟨log, f, d, ⟨hlayout, -, -⟩, -⟩ := h
    have hpos : 0 < s.logfs.blockSize := by
      rw [hlayout.blockSize]
      exact hlayout.pos
    have hwork := (workerStep_eq_some_iff.mp hs).workLeft_lt hpos
    have hsteps := stepsLeft_workerStep hs
    exact Prod.lex_def.mpr (hsteps.lt_or_eq.imp id fun heq => ⟨heq, hwork⟩)

/-- **The steps of the log come to an end**, between the calls and during each of them. -/
theorem terminates_server (B : ℕ) :
    Terminates server (Idle B) (Busy B) rank (Prod.Lex (· < ·) (· < ·)) where
  wf := WellFounded.prod_lex wellFounded_lt wellFounded_lt
  idle h hs := rank_internal h.1 hs
  busy h hs := rank_internal h.1 hs

/-! ## Progress -/

/-- The client waits for space in the write buffer. -/
def WaitsForSpace (s : State) : Prop := ∃ rest, s.client = .appendWait rest

/-- Whether the client can step does not depend on its next device access. -/
lemma clientStep_ok_of_some {outcome : ReadOutcome} (h : Logfs.clientStep s outcome = some s') :
    ∃ s'', Logfs.clientStep s .ok = some s'' := by
  cases clientStep_eq_some_iff.mp h with
  | readFailed logfs mutex worker r bytes hlt huncached =>
    exact ⟨_, clientStep_eq_some_iff.mpr (.readBlock logfs mutex worker r hlt huncached)⟩
  | readDone logfs mutex worker r hdone =>
    exact ⟨_, clientStep_eq_some_iff.mpr (.readDone logfs mutex worker r hdone)⟩
  | readCached logfs mutex worker r hlt hcached =>
    exact ⟨_, clientStep_eq_some_iff.mpr (.readCached logfs mutex worker r hlt hcached)⟩
  | readBlock => exact ⟨_, h⟩
  | _ => exact ⟨_, h⟩

/-- Whether the worker can step does not depend on its next device access. -/
lemma workerStep_true_of_some {ok : Bool} (h : Logfs.workerStep s ok = some s') :
    ∃ s'', Logfs.workerStep s true = some s'' := by
  cases workerStep_eq_some_iff.mp h with
  | fail logfs mutex client hfull =>
    by_cases hdrained : logfs.writeBlock.Drained
    · exact ⟨_, workerStep_eq_some_iff.mpr (.drain logfs mutex client hfull hdrained)⟩
    · exact ⟨_, workerStep_eq_some_iff.mpr (.write logfs mutex client hfull hdrained)⟩
  | exit logfs mutex client hless hexit =>
    exact ⟨_, workerStep_eq_some_iff.mpr (.exit logfs mutex client hless hexit)⟩
  | sleep logfs mutex client hless hrun =>
    exact ⟨_, workerStep_eq_some_iff.mpr (.sleep logfs mutex client hless hrun)⟩
  | _ => exact ⟨_, h⟩

/-- A client inside a call that is not stuck, or the worker beside it, can step. -/
lemma exists_internal_of_not_stuck (hcall : s.client.InCall) (h : ¬ Stuck s) :
    ∃ l s', server.internal s l = some s' := by
  by_contra hnone
  refine h ⟨hcall, fun outcome => ?_, fun ok => ?_⟩
  · by_contra hsome
    obtain ⟨s', hs⟩ := Option.ne_none_iff_exists'.mp hsome
    obtain ⟨s'', hs'⟩ := clientStep_ok_of_some hs
    exact hnone ⟨.client, s'', hs'⟩
  · by_contra hsome
    obtain ⟨s', hs⟩ := Option.ne_none_iff_exists'.mp hsome
    obtain ⟨s'', hs'⟩ := workerStep_true_of_some hs
    exact hnone ⟨.worker, s'', hs'⟩

/-- **A call makes progress** unless it waits for space. -/
lemma Busy.answers (h : Busy B s t i) :
    (∃ o, server.returned s = some o) ∨ (∃ l s', server.internal s l = some s') ∨
      WaitsForSpace s := by
  obtain ⟨hholds, hserves, -⟩ := h
  have hgoes (hcall : s.client.InCall) (hfits : Fits s) :=
    exists_internal_of_not_stuck hcall (hholds.not_stuck hfits)
  obtain ⟨logfs, mutex, client, worker⟩ := s
  cases hserves with
  | appended | returned | closed => exact .inl ⟨_, rfl⟩
  | appendWait => exact .inr (.inr ⟨_, rfl⟩)
  | @append buf rest =>
    refine .inr (.inl ⟨.client, ?_⟩)
    show ∃ s', Logfs.clientStep ⟨logfs, mutex, .append rest, worker⟩ .ok = some s'
    cases rest with
    | nil => exact ⟨_, rfl⟩
    | cons b rest =>
      by_cases hfull : (logfs.writeBufferSize : ℤ) ≤ logfs.writeBufferFilled
      · exact ⟨_, clientStep_eq_some_iff.mpr (.appendFull logfs mutex worker b rest hfull)⟩
      · exact ⟨_, clientStep_eq_some_iff.mpr (.appendByte logfs mutex worker b rest hfull)⟩
  | _ => exact .inr (.inl (hgoes trivial trivial))

/-- **Calls can begin and make progress** unless the client waits for space. -/
theorem responsive_server (B : ℕ) :
    Responsive server ideal (Idle B) (Busy B) WaitsForSpace where
  begin := by
    rintro s t i ⟨-, hidle⟩ ⟨hopen, -⟩
    rw [if_pos hopen] at hidle
    obtain ⟨ret, hret⟩ := hidle
    cases i <;> exact ⟨_, call_eq_some_iff.mpr ⟨⟨ret, hret⟩, rfl⟩⟩
  answers := Busy.answers

/-! ## Programs -/

/-- The log after `logfs_open` is an empty ideal one. -/
lemma idle_start (hB : 0 < B) (device : ℤ → UInt8) : Idle B (State.start B device) ⟨[], true⟩ :=
  ⟨holds_start hB device, .opened, rfl⟩

/-- What a program leaves: the condition holds of an ideal log that the log holds, and the bytes of
a closed log are at the beginning of the device. -/
def Leaves {α : Type*} (Q : α → Ideal → Prop) (B : ℕ) (a : α) (s : State) : Prop :=
  ∃ t, Idle B s t ∧ Q a t ∧
    (t.isOpen = false → ∀ j (hj : j < t.log.length), s.logfs.device j = t.log[j])

/-- A closed log is on the device. -/
lemma Idle.stored (h : Idle B s t) (hclosed : t.isOpen = false) :
    ∀ j (hj : j < t.log.length), s.logfs.device j = t.log[j] := by
  obtain ⟨hholds, hclient⟩ := h
  rw [if_neg (by simp [hclosed])] at hclient
  obtain ⟨f, d, -, -, hinv⟩ := hholds.exact (by simp [hclient, ClientPc.rest])
  rw [ClientInv, hclient] at hinv
  intro j hj
  exact hinv.2.1.1 j _ (List.getElem?_eq_getElem hj) hj

/-- **Every program over the log is correct in every interleaving**: if it makes only reads inside
the ideal log and ends on it with a condition, then no run of it beside the worker is infinite, each
ends with that condition or waits for space, and once it has closed the log, the bytes are on the
device.

**Proof sketch.** The log implements the ideal one. Each step of the threads leaves the client less
to do, or the worker. As long as the client does not wait for space, one of the threads can go
on. -/
theorem program_total {α : Type*} (hB : 0 < B) (device : ℤ → UInt8)
    (p : Program Call Answer α) (Q : α → Ideal → Prop) (hp : p.wp ideal Q ⟨[], true⟩) :
    Ends server WaitsForSpace (Leaves Q B) ⟨.ready p, State.start B device⟩ := by
  refine wp_total (implements_ideal B) (terminates_server B) (responsive_server B)
    (idle_start hB device) hp ?_
  rintro a s t hidle hQ
  exact ⟨t, hidle, hQ, hidle.stored⟩

/-- A program that appends three bytes, reads two of them back and closes the log. -/
theorem program_total_read :
    ∃ p : Program Call Answer (List UInt8),
      p = .call (.append [7, 8, 9]) (fun _ => .call (.read 1 2) fun o =>
        .call .close fun _ => .ret o.2) ∧
      Ends server WaitsForSpace (Leaves (fun a t => a = [8, 9] ∧ t.log = [7, 8, 9]) 2)
        ⟨.ready p, State.start 2 fun _ => 0⟩ := by
  refine ⟨_, rfl, program_total (by decide) _ _ _ ?_⟩
  simp [Program.wp, ideal, Call.Inside, logfsRead]

end Cs238p.P4.Logfs
