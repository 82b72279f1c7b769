import Cs238p.P4.LogfsCalls

set_option relaxedAutoImplicit false
set_option autoImplicit false

/-!
# Programs that never wait for space

Nothing wakes a client that waits for space in the write buffer. Whether it has to wait depends on
how far the worker has got; but a flush empties the write buffer up to a part of a block. So a
program whose appends between two flushes fit into the write buffer behind that part never waits,
whatever the worker does.

## Main definitions

* `Bounded`, `roomy` — the ideal log with a bound on the bytes in the write buffer, which admits an
  append only if it fits behind them.
* `RoomFor` — the write buffer respects the bound.
* `Call.Flushes` — a call that flushes.

## Main results

* `implements_roomy` — the log implements it, without waiting for space.
* `wp_roomy`, `wp_roomy_of_first` — what a program achieves on the ideal log it achieves with the
  bound, given room for all that it appends.
* `roomy_total` — every program whose appends fit ends in every interleaving.
-/

namespace Cs238p.P4.Logfs

open CallProgram RingLog

/-- The ideal log, with a bound on the bytes in the write buffer. -/
structure Bounded where
  ideal : Ideal
  fill : ℕ
  deriving DecidableEq, Repr

/-- The bound after a call: a flush leaves a part of a block. -/
def Bounded.fillAfter (B : ℕ) (t : Bounded) : Call → ℕ
  | .append buf => t.fill + buf.length
  | _ => t.ideal.log.length % B

/-- The ideal log with blocks of `B` bytes that admits an append only if it fits behind the bytes in
the write buffer. -/
def roomy (B : ℕ) : Object Call Answer Bounded where
  Admits t i := ideal.Admits t.ideal i ∧ t.fillAfter B i ≤ ringSize B
  answer t i := ideal.answer t.ideal i
  next t i := ⟨ideal.next t.ideal i, t.fillAfter B i⟩

/-- The bytes in the write buffer, with those still to append, are at most `n`; during a flush they
need not be. -/
def RoomFor (n : ℕ) (s : State) : Prop :=
  match s.client with
  | .appendLock rest | .append rest => s.logfs.writeBufferFilled + rest.length ≤ n
  | .appendWait _ | .appendWoken _ => False
  | .flushLock _ | .flushWait _ _ | .flushWoken _ _ => True
  | _ => s.logfs.writeBufferFilled ≤ n

variable {B n : ℕ} {s s' : State} {t : Bounded} {i : Call} {bytes : List UInt8}

/-- Taking bytes out of the write buffer leaves room. -/
lemma RoomFor.mono (h : RoomFor n s) (hclient : s'.client = s.client)
    (hle : s'.logfs.writeBufferFilled ≤ s.logfs.writeBufferFilled) : RoomFor n s' := by
  unfold RoomFor at h ⊢
  rw [hclient]
  split at h <;> first | trivial | omega

/-- **A step of the worker** leaves room. -/
lemma RoomFor.workerStep (h : RoomFor n s) (hs : Logfs.workerStep s true = some s') :
    RoomFor n s' := by
  cases workerStep_eq_some_iff.mp hs with
  | write logfs mutex client hfull hdrained =>
    refine h.mono rfl ?_
    simp only [writeBufferFilled_writeBlock]
    omega
  | drain logfs mutex client hfull hdrained =>
    unfold State.signalFlush
    split
    · trivial
    · refine h.mono rfl ?_
      simp only [writeBufferFilled_writeBlock]
      omega
  | _ => exact h.mono rfl (Int.le_refl _)

/-- Behind a flush there is only a part of a block in the write buffer. -/
lemma Holds.filled_le (h : Holds B s bytes)
    (hclient : (∃ r, s.client = .read r) ∨ s.client = .closeLock) :
    s.logfs.writeBufferFilled ≤ (bytes.length % B : ℕ) := by
  obtain ⟨f, d, hlayout, -, hinv⟩ := h.exact (by
    rcases hclient with ⟨r, hr⟩ | hr <;> rw [hr] <;> rfl)
  obtain ⟨rfl, hsynced⟩ : d = 0 ∧ Synced B s.logfs bytes f := by
    rcases hclient with ⟨r, hr⟩ | hr
    · rw [ClientInv, hr] at hinv
      exact ⟨hinv.1, hinv.2.1⟩
    · rw [ClientInv, hr] at hinv
      exact hinv
  have hle := hlayout.le
  have hlt := hsynced.2
  have hfilled := hlayout.filled
  obtain ⟨k, hk⟩ : ∃ k, bytes.length = B * f + k := ⟨bytes.length - B * f, by omega⟩
  have hmod : bytes.length % B = k := by
    rw [hk, Nat.mul_add_mod, Nat.mod_eq_of_lt (by omega)]
  omega

/-- **A step of the client** leaves room: it does not find the write buffer full.

**Proof sketch.** A byte moves from those still to append to those in the write buffer. After a
flush the bound holds anew. -/
lemma RoomFor.clientStep (h : RoomFor n s) (hsize : n ≤ s.logfs.writeBufferSize)
    (hflushed : ∀ distance caller, s.client = .flushWoken distance caller →
      s'.logfs.writeBufferFilled ≤ n)
    (hs : Logfs.clientStep s .ok = some s') : RoomFor n s' := by
  cases clientStep_eq_some_iff.mp hs with
  | appendLock logfs worker buf => exact h
  | appendDone logfs mutex worker =>
    have hle : logfs.writeBufferFilled + (0 : ℕ) ≤ n := h
    show logfs.writeBufferFilled ≤ n
    omega
  | appendFull logfs mutex worker b rest hfull =>
    have hle : logfs.writeBufferFilled + ((b :: rest).length : ℕ) ≤ n := h
    have hsize : n ≤ logfs.writeBufferSize := hsize
    rw [List.length_cons] at hle
    omega
  | appendByte logfs mutex worker b rest hroom =>
    have hle : logfs.writeBufferFilled + ((b :: rest).length : ℕ) ≤ n := h
    rw [List.length_cons] at hle
    rw [RoomFor, signalItemAvail_client, signalItemAvail_logfs]
    show logfs.writeBufferFilled + 1 + (rest.length : ℕ) ≤ n
    omega
  | appendWoken logfs worker rest => exact absurd h id
  | flushLock logfs worker caller =>
    rw [RoomFor, signalItemAvail_client]
    trivial
  | flushWoken logfs worker distance caller =>
    have hle := hflushed distance caller rfl
    cases caller with
    | read off len => exact hle
    | close => exact hle
  | closeSignal logfs mutex worker =>
    rw [RoomFor, signalItemAvail_client, signalItemAvail_logfs]
    exact h
  | readDone | readCached | readBlock | closeLock | closeJoin => exact h

/-! ## Simulation -/

/-- Between two calls the write buffer respects the bound. -/
def RoomyIdle (B : ℕ) (s : State) (t : Bounded) : Prop := Idle B s t.ideal ∧ RoomFor t.fill s

/-- During a call it respects the bound of the call. -/
def RoomyBusy (B : ℕ) (s : State) (t : Bounded) (i : Call) : Prop :=
  Busy B s t.ideal i ∧ RoomFor (t.fillAfter B i) s ∧ t.fillAfter B i ≤ ringSize B

/-- The size of the write buffer. -/
lemma Holds.writeBufferSize_eq (h : Holds B s bytes) : s.logfs.writeBufferSize = ringSize B := by
  obtain ⟨log, f, d, hinv, -⟩ := h
  rw [writeBufferSize, hinv.layout.blockSize]

lemma RoomyBusy.internal {l : Thread} (h : RoomyBusy B s t i)
    (hs : server.internal s l = some s') : RoomyBusy B s' t i := by
  obtain ⟨hbusy, hroom, hle⟩ := h
  have hbusy' := hbusy.internal hs
  refine ⟨hbusy', ?_, hle⟩
  cases l with
  | client =>
    refine hroom.clientStep (by rwa [hbusy.1.writeBufferSize_eq]) ?_ hs
    intro distance caller hwoken
    have hs : Logfs.clientStep s .ok = some s' := hs
    have hserves := hbusy.2.1
    have hholds := hbusy'.1
    obtain ⟨logfs, mutex, client, worker⟩ := s
    obtain rfl : client = .flushWoken distance caller := hwoken
    cases clientStep_eq_some_iff.mp hs
    cases hserves with
    | @readWoken off len distance =>
      have hfilled := hholds.filled_le (.inl ⟨_, rfl⟩)
      rwa [show (Call.read off len).bytes = [] from rfl, List.append_nil] at hfilled
    | closeWoken =>
      have hfilled := hholds.filled_le (.inr rfl)
      rwa [show Call.close.bytes = [] from rfl, List.append_nil] at hfilled
  | worker => exact hroom.workerStep hs

/-- A call begins with room. -/
lemma RoomyIdle.begin (h : RoomyIdle B s t) (hadmits : (roomy B).Admits t i)
    (hs : Logfs.step s i.action = some s') : RoomyBusy B s' t i := by
  refine ⟨h.1.begin hadmits.1 hs, ?_, hadmits.2⟩
  obtain ⟨⟨-, hclient⟩, hroom⟩ := h
  rw [if_pos hadmits.1.1] at hclient
  obtain ⟨ret, hret⟩ := hclient
  rw [RoomFor, hret] at hroom
  cases i with
  | append buf =>
    obtain ⟨-, rfl⟩ := call_eq_some_iff.mp hs
    show s.logfs.writeBufferFilled + (buf.length : ℕ) ≤ (t.fill + buf.length : ℕ)
    simp only at hroom
    omega
  | read off len =>
    obtain ⟨-, rfl⟩ := call_eq_some_iff.mp hs
    trivial
  | close =>
    obtain ⟨-, rfl⟩ := call_eq_some_iff.mp hs
    trivial

/-- **The log implements the ideal one with room**, beside its worker. -/
theorem implements_roomy (B : ℕ) :
    Implements server (roomy B) (RoomyIdle B) (RoomyBusy B) where
  begin := RoomyIdle.begin
  idle := by
    rintro s s' t l ⟨hidle, hroom⟩ hs
    refine ⟨hidle.internal hs, ?_⟩
    cases l with
    | client =>
      have hs : Logfs.clientStep s .ok = some s' := hs
      rw [hidle.clientStep_eq_none] at hs
      exact absurd hs (by simp)
    | worker => exact hroom.workerStep hs
  busy := RoomyBusy.internal
  returned := by
    rintro s t i o ⟨hbusy, hroom, -⟩ hs
    obtain ⟨ho, hidle⟩ := hbusy.returned hs
    exact ⟨ho, hidle, hroom⟩

/-- Its steps come to an end. -/
theorem terminates_roomy (B : ℕ) :
    Terminates server (RoomyIdle B) (RoomyBusy B) rank (Prod.Lex (· < ·) (· < ·)) where
  wf := WellFounded.prod_lex wellFounded_lt wellFounded_lt
  idle h hs := rank_internal h.1.1 hs
  busy h hs := rank_internal h.1.1 hs

/-- Nothing blocks it. -/
theorem responsive_roomy (B : ℕ) :
    Responsive server (roomy B) (RoomyIdle B) (RoomyBusy B) fun _ => False where
  begin h hadmits := (responsive_server B).begin h.1 hadmits.1
  answers := by
    rintro s t i ⟨hbusy, hroom, -⟩
    refine hbusy.answers.imp id (Or.imp id ?_)
    rintro ⟨rest, hrest⟩
    rw [RoomFor, hrest] at hroom
    exact hroom

/-! ## From the ideal log -/

section FromIdeal

variable {α : Type*} {p : Program Call Answer α} {Q : α → Ideal → Prop} {o : Ideal} {fill F L : ℕ}

/-- The log does not become shorter. -/
lemma length_le_of_wp (h : p.wp ideal Q o) (hQ : ∀ a o', Q a o' → o'.log.length ≤ L) :
    o.log.length ≤ L := by
  induction p generalizing o with
  | ret a => exact hQ a o h
  | call i k ih =>
    have hle := ih _ h.2
    rw [log_next, List.length_append] at hle
    omega

/-- The bytes in the write buffer after a call. -/
lemma fillAfter_le (hB : 0 < B) (hblock : B ≤ F + 1) {base : ℕ} (hbase : base ≤ t.ideal.log.length)
    (hfill : t.fill + base ≤ F + t.ideal.log.length) (i : Call) :
    t.fillAfter B i + base ≤ F + (ideal.next t.ideal i).log.length := by
  have hmod := Nat.mod_lt t.ideal.log.length hB
  rw [log_next, List.length_append]
  cases i with
  | append buf =>
    show t.fill + buf.length + base ≤ F + (t.ideal.log.length + buf.length)
    omega
  | read off len =>
    show t.ideal.log.length % B + base ≤ _
    omega
  | close =>
    show t.ideal.log.length % B + base ≤ _
    omega

/-- **A program has room for what it appends**, if these are at most `L` bytes and the write buffer
holds at most `F` bytes at the beginning.

**Proof sketch.** The bytes in the write buffer are at most `F` and those appended since, also after
a flush, which leaves a part of a block. -/
theorem wp_roomy (hB : 0 < B) (h : p.wp ideal Q o)
    (hQ : ∀ a o', Q a o' → o'.log.length ≤ o.log.length + L) (hblock : B ≤ F + 1)
    (hroom : F + L ≤ ringSize B) (hfill : fill ≤ F) :
    p.wp (roomy B) (fun a t => Q a t.ideal ∧ t.fill ≤ F + L) ⟨o, fill⟩ := by
  obtain ⟨base, hbase⟩ : ∃ base, base = o.log.length := ⟨_, rfl⟩
  rw [← hbase] at hQ
  have hle : base ≤ o.log.length := hbase.le
  have hfill' : fill + base ≤ F + o.log.length := by omega
  clear hbase hfill
  induction p generalizing o fill with
  | ret a =>
    have hlen := hQ a o h
    exact ⟨h, show fill ≤ F + L by omega⟩
  | call i k ih =>
    obtain ⟨hadmits, hk⟩ := h
    have hlen := length_le_of_wp hk hQ
    have hnext := fillAfter_le (t := ⟨o, fill⟩) hB hblock hle hfill' i
    have hgrows : o.log.length ≤ (ideal.next o i).log.length := by
      rw [log_next, List.length_append]
      exact Nat.le_add_right _ _
    refine ⟨⟨hadmits, ?_⟩, ih _ hk (hle.trans hgrows) hnext⟩
    simp only at hnext
    omega

/-- A call that flushes. -/
def Call.Flushes (i : Call) : Prop := ∀ buf, i ≠ .append buf

/-- A flush leaves a part of a block in the write buffer. -/
lemma fillAfter_lt (hB : 0 < B) {i : Call} (hi : i.Flushes) : t.fillAfter B i < B := by
  cases i with
  | append buf => exact absurd rfl (hi buf)
  | read off len => exact Nat.mod_lt _ hB
  | close => exact Nat.mod_lt _ hB

/-- **A program that flushes first** has the whole write buffer for what it appends then, but for a
part of a block. -/
theorem wp_roomy_of_first (hB : 0 < B) (h : p.wp ideal Q o) (hfirst : p.First Call.Flushes)
    (hQ : ∀ a o', Q a o' → o'.log.length ≤ o.log.length + L) (hroom : B - 1 + L ≤ ringSize B) :
    p.wp (roomy B) (fun a t => Q a t.ideal ∧ t.fill ≤ B - 1 + L) ⟨o, fill⟩ := by
  cases p with
  | ret a => exact hfirst.elim
  | call i k =>
    have hlt := fillAfter_lt (t := ⟨o, fill⟩) hB hfirst
    have hgrows : o.log.length ≤ (ideal.next o i).log.length := by
      rw [log_next, List.length_append]
      exact Nat.le_add_right _ _
    refine ⟨⟨h.1, by omega⟩, wp_roomy hB h.2 (fun a o' hend => ?_) (by omega) hroom (by omega)⟩
    exact (hQ a o' hend).trans (Nat.add_le_add_right hgrows L)

end FromIdeal

/-- The log begins between two calls, with room. -/
lemma roomyIdle_start (hB : 0 < B) (device : ℤ → UInt8) :
    RoomyIdle B (State.start B device) ⟨⟨[], true⟩, 0⟩ :=
  ⟨idle_start hB device, Int.le_refl 0⟩

/-- A program that has room from a state between two calls ends from there. -/
lemma RoomyIdle.ends {α : Type*} {p : Program Call Answer α} {Q : α → Ideal → Prop}
    (h : RoomyIdle B s t) (hp : p.wp (roomy B) (fun a t => Q a t.ideal) t) :
    Ends server (fun _ => False) (Leaves Q B) ⟨.ready p, s⟩ := by
  refine wp_total (implements_roomy B) (terminates_roomy B) (responsive_roomy B) h hp ?_
  rintro a s t ⟨hidle, -⟩ hQ
  exact ⟨t.ideal, hidle, hQ, hidle.stored⟩

/-- **A program whose appends fit ends in every interleaving**: if between two flushes it appends no
more bytes than the write buffer has room for behind the part of a block that a flush leaves, then
no interleaving with the worker is infinite, none gets stuck before the end of the program, and each
ends with what the program achieves on the ideal log.

**Proof sketch.** The bytes in the write buffer are at most those that the last flush left and those
that were appended since, since the worker only takes bytes out of it. So no append finds it full,
and only a full write buffer blocks the client. -/
theorem roomy_total {α : Type*} (hB : 0 < B) (device : ℤ → UInt8) (p : Program Call Answer α)
    (Q : α → Ideal → Prop)
    (hp : p.wp (roomy B) (fun a t => Q a t.ideal) ⟨⟨[], true⟩, 0⟩) :
    Ends server (fun _ => False) (Leaves Q B) ⟨.ready p, State.start B device⟩ :=
  (roomyIdle_start hB device).ends hp

/-- Two appends that do not fit into the write buffer together, with a read between them. -/
theorem roomy_total_twice :
    ∃ p : Program Call Answer ℤ,
      p = .call (.append (List.replicate 20 7)) (fun _ => .call (.read 0 1) fun _ =>
        .call (.append (List.replicate 20 8)) fun o => .ret o.1) ∧
      Ends server (fun _ => False) (Leaves (fun a t => a = 0 ∧ t.log.length = 40) 1)
        ⟨.ready p, State.start 1 fun _ => 0⟩ := by
  refine ⟨_, rfl, roomy_total (by decide) _ _ _ ?_⟩
  simp [Program.wp, roomy, ideal, Call.Inside, Bounded.fillAfter, ringSize, wcacheBlocks]

end Cs238p.P4.Logfs
