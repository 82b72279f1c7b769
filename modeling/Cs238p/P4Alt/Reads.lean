import Cs238p.Lib.Transition
import Cs238p.P4Alt.Append
import Mathlib.Data.List.GetD

set_option relaxedAutoImplicit false
set_option autoImplicit false

/-!
# Reads of `p4_alt` and the worker

A read takes one block of the device, whatever the worker has written to it so far, and waits only
for bytes that were never appended. It is right where the worker has counted the bytes, and where
the range does not go beyond the block.

## Main definitions

* `State.Faithful` — what a read returned is what the write cache holds.
* `Covered` — a read is within a device block, and within the bytes that the worker has counted.

## Main results

* `device_writeBlocks` — what the worker leaves on the device.
* `Inv.step` — every step keeps the counted bytes on the device.
* `reads_faithful` — reads that are covered return what the write cache holds.
-/

namespace Cs238p.P4Alt

open Pieces Transition

/-! ## What a read returned -/

/-- The bytes that the write cache holds. -/
def Logfs.contents (logfs : Logfs) : List UInt8 :=
  logfs.wcache.flatMap fun block => block.data.take block.size

/-- What a read within the log returned is what the write cache holds. -/
def State.Faithful (s : State) : Prop :=
  ∀ off len buf, s.client = .idle (.read off len buf) → off + len ≤ s.logfs.size →
    buf = (s.logfs.contents.drop off).take len

/-- A read within the log is within a block of the device, and within the bytes that the worker has
counted. -/
def ClientPc.Covered (deviceBlock size counted : ℕ) : ClientPc → Prop
  | .read off len =>
    off + len ≤ size → off % deviceBlock + len ≤ deviceBlock ∧ off + len ≤ counted
  | _ => True

instance (deviceBlock size counted : ℕ) : ∀ client : ClientPc,
    Decidable (client.Covered deviceBlock size counted)
  | .read _ _ => inferInstanceAs (Decidable (_ → _))
  | .idle _ => .isTrue trivial
  | .append _ => .isTrue trivial
  | .readWait _ _ => .isTrue trivial
  | .readWoken _ _ => .isTrue trivial

/-- Whatever the client reads next is covered. -/
def Covered (s : State) (a : Action) : Prop :=
  a = .client → s.client.Covered s.logfs.deviceBlock s.logfs.size s.counted

instance (s : State) (a : Action) : Decidable (Covered s a) := inferInstanceAs (Decidable (_ → _))

/-- The client is behind its appends, and the worker is anywhere. The bytes that it has counted are
on the device. -/
structure AfterAppends (s : State) : Prop where
  blocks : ∃ bytes, Holds s.logfs bytes
  client : s.client = .idle .opened ∨ s.client = .idle .append
  counted : s.counted ≤ s.logfs.size
  device : ∀ j < s.counted, s.logfs.contents[j]? = some (s.logfs.device j)

variable {logfs : Logfs} {bytes : List UInt8}

lemma Holds.contents (h : Holds logfs bytes) : logfs.contents = bytes := by
  rw [Logfs.contents, h.wcache, flatMap_blocksOf]

/-- An opened log is behind no appends. -/
lemma afterAppends_start (deviceBlock : ℕ) (device : ℕ → UInt8) :
    AfterAppends (State.start deviceBlock device) :=
  ⟨⟨[], holds_logfsOpen deviceBlock device⟩, .inl rfl, le_rfl,
    fun j hj => absurd hj (Nat.not_lt_zero j)⟩

/-! ## The worker -/

/-- The worker changes the device and the size. -/
lemma foldl_writeNext_eq (blocks : List LogfsBlock) (logfs : Logfs) :
    blocks.foldl Logfs.writeNext logfs =
      { logfs with
        device := (blocks.foldl Logfs.writeNext logfs).device
        size := (blocks.foldl Logfs.writeNext logfs).size } := by
  induction blocks generalizing logfs with
  | nil => rfl
  | cons block blocks ih =>
    rw [List.foldl_cons, ih]
    rfl

/-- A block is written at its place. -/
lemma device_writeNext {p : List UInt8} (k : ℕ) (logfs : Logfs) {i : ℕ} (hi : i < blockSize) :
    (logfs.writeNext (blockOf k p)).device (k * blockSize + i) = p.getD i 0 := by
  have hplace :
      k * blockSize ≤ k * blockSize + i ∧ k * blockSize + i < k * blockSize + blockSize := by
    omega
  have hdevice : (logfs.writeNext (blockOf k p)).device (k * blockSize + i) =
      (blockOf k p).data.getD (k * blockSize + i - k * blockSize) 0 := if_pos hplace
  rw [hdevice, Nat.add_sub_cancel_left, blockOf]
  by_cases hlt : i < p.length
  · simp [List.getElem?_append_left hlt]
  · have hzero : i - p.length < blockSize - p.length := by omega
    simp [List.getElem?_append_right (Nat.not_lt.mp hlt),
      List.getElem?_eq_none (Nat.not_lt.mp hlt), hzero]

/-- Other places are left. -/
lemma device_writeNext_of_lt {p : List UInt8} {k j : ℕ} (logfs : Logfs) (hj : j < k * blockSize) :
    (logfs.writeNext (blockOf k p)).device j = logfs.device j :=
  if_neg fun h => absurd hj (Nat.not_lt.mpr h.1)

/-- Pieces are written from the block `k` on. -/
lemma foldl_writeNext {ps : List (List UInt8)} (k : ℕ) (logfs : Logfs)
    (hlast : ∀ p ∈ ps, p.length ≤ blockSize) (hfull : ∀ p ∈ ps.dropLast, p.length = blockSize) :
    ((ps.mapIdx fun i p => blockOf (k + i) p).foldl Logfs.writeNext logfs).size =
        logfs.size + ps.flatten.length ∧
      (∀ j < k * blockSize, ((ps.mapIdx fun i p => blockOf (k + i) p).foldl
        Logfs.writeNext logfs).device j = logfs.device j) ∧
      ∀ i < ps.flatten.length, ((ps.mapIdx fun i p => blockOf (k + i) p).foldl
        Logfs.writeNext logfs).device (k * blockSize + i) = ps.flatten.getD i 0 := by
  induction ps generalizing k logfs with
  | nil => simp
  | cons p ps ih =>
    have hp := hlast p List.mem_cons_self
    have hshift : (fun i q => blockOf (k + (i + 1)) q) = fun i q => blockOf (k + 1 + i) q :=
      funext fun i => by rw [Nat.add_assoc, Nat.add_comm 1]
    obtain ⟨hsize, hbefore, hbehind⟩ := ih (k + 1) (logfs.writeNext (blockOf k p))
      (fun q hq => hlast q (List.mem_cons_of_mem p hq)) fun q hq => hfull q (by
        cases ps with
        | nil => cases hq
        | cons q' ps => exact List.mem_cons_of_mem p hq)
    rw [List.mapIdx_cons, List.foldl_cons, hshift, Nat.add_zero, List.flatten_cons,
      List.length_append]
    refine ⟨?_, fun j hj => ?_, fun i hi => ?_⟩
    · rw [hsize]
      exact Nat.add_assoc _ _ _
    · rw [hbefore j (by rw [Nat.succ_mul]; omega)]
      exact device_writeNext_of_lt logfs hj
    · by_cases hlt : i < p.length
      · rw [hbefore _ (by rw [Nat.succ_mul]; omega)]
        rw [device_writeNext k logfs (by omega), List.getD_append _ _ _ _ hlt]
      · have hne : ps ≠ [] := by
          rintro rfl
          rw [List.flatten_nil, List.length_nil] at hi
          omega
        have hp := hfull p (by rw [List.dropLast_cons_of_ne_nil hne]; exact List.mem_cons_self)
        have hplace : k * blockSize + i = (k + 1) * blockSize + (i - p.length) := by
          rw [Nat.succ_mul]
          omega
        rw [List.getD_append_right _ _ _ _ (Nat.not_lt.mp hlt), hplace,
          hbehind (i - p.length) (by omega)]

/-- **What the worker leaves on the device** are the bytes of the write cache, and their number is
counted again. -/
lemma Holds.writeBlocks (h : Holds logfs bytes) :
    Holds logfs.writeBlocks bytes ∧ logfs.writeBlocks.deviceBlock = logfs.deviceBlock ∧
      ∀ j < bytes.length, logfs.writeBlocks.device j = bytes.getD j 0 := by
  have hfull : ∀ p ∈ (pieces blockSize bytes).dropLast, p.length = blockSize :=
    fun p hp => length_of_mem_dropLast blockSize_pos hp
  have hlast : ∀ p ∈ pieces blockSize bytes, p.length ≤ blockSize :=
    fun p hp => length_le_of_mem blockSize_pos hp
  obtain ⟨hsize, -, hdevice⟩ := foldl_writeNext 0 { logfs with size := 0 } hlast hfull
  simp only [Nat.zero_add, Nat.zero_mul, flatten_pieces blockSize_pos] at hsize hdevice
  have hblocks : (pieces blockSize bytes).mapIdx (fun i p => blockOf i p) = logfs.wcache :=
    h.wcache.symm
  rw [hblocks] at hsize hdevice
  have hframe := foldl_writeNext_eq logfs.wcache { logfs with size := 0 }
  rw [← Logfs.writeBlocks] at hsize hdevice hframe
  refine ⟨⟨hsize, ?_, ?_⟩, ?_, hdevice⟩
  · rw [hframe]
    exact h.wcache
  · rw [hframe]
    exact h.wcacheBlocks
  · rw [hframe]

/-! ## Reads -/

/-- A block that is read again, or a new one, has the bytes of the device. -/
lemma readBlock_snd (logfs : Logfs) (off len : ℕ) : ∃ data,
    (logfs.readBlock off len).2 =
      ((logfs.readFromDevice off data).drop (off % logfs.deviceBlock)).take len := by
  have hrefresh : ∀ (f : List UInt8 → List UInt8) blocks r,
      Logfs.refresh (off / logfs.deviceBlock) f blocks = some r → ∃ data, r.2 = f data := by
    intro f blocks
    induction blocks with
    | nil => exact fun r hr => by cases hr
    | cons block blocks ih =>
      intro r hr
      rw [Logfs.refresh] at hr
      split at hr
      · obtain rfl := Option.some.inj hr
        exact ⟨block.data, rfl⟩
      · obtain ⟨r', hr', rfl⟩ := Option.map_eq_some_iff.mp hr
        exact ih r' hr'
  rw [Logfs.readBlock]
  split
  · next rcache data hr =>
    obtain ⟨data', rfl⟩ := hrefresh _ _ _ hr
    exact ⟨data', rfl⟩
  · exact ⟨_, rfl⟩

/-- A read changes the read cache only. -/
lemma readBlock_fst (logfs : Logfs) (off len : ℕ) :
    (logfs.readBlock off len).1 =
      { logfs with rcache := (logfs.readBlock off len).1.rcache } := by
  rw [Logfs.readBlock]
  split <;> rfl

/-- **A read within a block of the device returns the bytes of the device.** -/
lemma readBlock_eq {off len : ℕ} (hblock : off % logfs.deviceBlock + len ≤ logfs.deviceBlock) :
    (logfs.readBlock off len).2 = (List.range len).map fun j => logfs.device (off + j) := by
  obtain ⟨data, hdata⟩ := readBlock_snd logfs off len
  have hoff := Nat.div_add_mod off logfs.deviceBlock
  rw [hdata]
  refine List.ext_getElem ?_ fun j hj hj' => ?_
  · simp only [Logfs.readFromDevice, memcpy, List.length_take, List.length_drop,
      List.length_append, List.length_map, List.length_range]
    omega
  · rw [List.length_map, List.length_range] at hj'
    have hplace : off % logfs.deviceBlock + j < logfs.deviceBlock := by omega
    simp [Logfs.readFromDevice, memcpy, hplace]
    rw [← Nat.add_assoc, hoff]

/-! ## The invariant -/

/-- The write cache is a sequence of bytes, and those that the worker has counted are on the device.
A client that waits has asked for more than was appended. -/
structure Inv (s : State) : Prop where
  blocks : ∃ bytes, Holds s.logfs bytes
  counted : s.counted ≤ s.logfs.size
  device : ∀ j < s.counted, s.logfs.contents[j]? = some (s.logfs.device j)
  wait : ∀ off len, s.client = .readWait off len → s.logfs.size < off + len
  woken : ∀ off len, s.client = .readWoken off len → s.logfs.size < off + len
  faithful : s.Faithful

lemma AfterAppends.inv {s : State} (h : AfterAppends s) : Inv s := by
  have hidle : ∀ pc, s.client = pc → pc = .idle .opened ∨ pc = .idle .append :=
    fun pc hpc => hpc ▸ h.client
  refine ⟨h.blocks, h.counted, h.device, fun off len hpc => ?_, fun off len hpc => ?_,
    fun off len buf hpc => ?_⟩
  · rcases hidle _ hpc with h | h <;> cases h
  · rcases hidle _ hpc with h | h <;> cases h
  · rcases hidle _ hpc with h | h <;> cases h

namespace Inv

variable {s s' : State}

/-- The point at which the worker is makes no difference. -/
lemma of_worker (h : Inv s) (worker : WorkerPc) : Inv { s with worker := worker } :=
  ⟨h.blocks, h.counted, h.device, h.wait, h.woken, h.faithful⟩

lemma signalWcache (h : Inv s) : Inv s.signalWcache := by
  rw [State.signalWcache]
  split
  · exact h.of_worker .woken
  · exact h

/-- The client goes to a point at which it has not read, and does not wait. -/
lemma of_call (h : Inv s) {client : ClientPc} (hidle : ∀ ret, client ≠ .idle ret)
    (hwait : ∀ off len, client ≠ .readWait off len)
    (hwoken : ∀ off len, client ≠ .readWoken off len) : Inv { s with client := client } :=
  ⟨h.blocks, h.counted, h.device, fun off len hpc => absurd hpc (hwait off len),
    fun off len hpc => absurd hpc (hwoken off len), fun _ _ _ hpc => absurd hpc (hidle _)⟩

/-- Appended bytes are behind those that the worker has counted. -/
lemma append (h : Inv s) (buf : List UInt8) :
    Inv { s with logfs := s.logfs.append buf, client := .idle .append } := by
  obtain ⟨bytes, hbytes⟩ := h.blocks
  have happend := hbytes.appendLoop (@le_rfl _ _ buf.length)
  have hsize := happend.size
  rw [List.length_append, ← hbytes.size] at hsize
  refine ⟨⟨_, happend⟩, ?_, fun j hj => ?_, nofun, nofun, nofun⟩
  · exact h.counted.trans (by rw [Logfs.append, hsize]; exact Nat.le_add_right _ _)
  · have hdevice := h.device j hj
    rw [hbytes.contents] at hdevice
    have hlt := (List.getElem?_eq_some_iff.mp hdevice).1
    change (s.logfs.append buf).contents[j]? = some ((s.logfs.append buf).device j)
    rw [Logfs.append, device_appendLoop, happend.contents, List.getElem?_append_left hlt, hdevice]

/-- **A read that is covered returns what the write cache holds.** -/
lemma readEnd (h : Inv s) {off len : ℕ}
    (hcovered : off + len ≤ s.logfs.size →
      off % s.logfs.deviceBlock + len ≤ s.logfs.deviceBlock ∧ off + len ≤ s.counted) :
    Inv (s.readEnd off len) := by
  obtain ⟨bytes, hbytes⟩ := h.blocks
  have hlogfs := readBlock_fst s.logfs off len
  refine ⟨⟨bytes, ?_⟩, ?_, ?_, nofun, nofun, ?_⟩
  · rw [State.readEnd, hlogfs]
    exact ⟨hbytes.size, hbytes.wcache, hbytes.wcacheBlocks⟩
  · rw [State.readEnd, hlogfs]
    exact h.counted
  · rw [State.readEnd, hlogfs]
    exact h.device
  · intro off' len' buf hpc hrange
    obtain ⟨rfl, rfl, rfl⟩ : off = off' ∧ len = len' ∧ (s.logfs.readBlock off len).2 = buf := by
      simpa [State.readEnd] using hpc
    rw [State.readEnd, hlogfs] at hrange ⊢
    obtain ⟨hblock, hcounted⟩ := hcovered hrange
    rw [readBlock_eq hblock]
    refine List.ext_getElem? fun j => ?_
    change _ = ((s.logfs.contents.drop off).take len)[j]?
    by_cases hj : j < len
    · rw [List.getElem?_take_of_lt hj, List.getElem?_drop, h.device (off + j) (by omega)]
      simp [hj]
    · rw [List.getElem?_eq_none (by simpa using hj), List.getElem?_eq_none]
      rw [List.length_take]
      omega

/-- A step of the client. -/
lemma clientStep (h : Inv s) (hcovered : Covered s .client) (hstep : clientStep s = some s') :
    Inv s' := by
  have hread := hcovered rfl
  rw [Cs238p.P4Alt.clientStep] at hstep
  split at hstep
  · cases hstep
  · split at hstep
    · cases hstep
    · next buf _ _ =>
      obtain rfl := Option.some.inj hstep
      exact (h.append buf).signalWcache
  · next off len hpc =>
    rw [hpc] at hread
    split at hstep
    · cases hstep
    · split at hstep
      · next hrange =>
        obtain rfl := Option.some.inj hstep
        refine Inv.signalWcache ⟨h.blocks, h.counted, h.device, fun off' len' hwait => ?_, nofun,
          nofun⟩
        obtain ⟨rfl, rfl⟩ : off = off' ∧ len = len' := by simpa using hwait
        exact hrange
      · obtain rfl := Option.some.inj hstep
        exact h.readEnd hread
  · cases hstep
  · next off len hpc =>
    split at hstep
    · cases hstep
    · obtain rfl := Option.some.inj hstep
      exact h.readEnd fun hrange => absurd hrange (Nat.not_le.mpr (h.woken off len hpc))

/-- The worker has written the write cache. -/
lemma writeBlocks (h : Inv s) :
    Inv { s with
      logfs := s.logfs.writeBlocks
      counted := s.logfs.writeBlocks.size
      worker := .lockWcache } := by
  obtain ⟨bytes, hbytes⟩ := h.blocks
  obtain ⟨hwritten, -, hdevice⟩ := hbytes.writeBlocks
  have hsize : s.logfs.writeBlocks.size = s.logfs.size := hwritten.size.trans hbytes.size.symm
  refine ⟨⟨bytes, hwritten⟩, le_rfl, fun j hj => ?_, fun off len hpc => ?_, fun off len hpc => ?_,
    fun off len buf hpc hrange => ?_⟩
  · change s.logfs.writeBlocks.contents[j]? = some (s.logfs.writeBlocks.device j)
    change j < s.logfs.writeBlocks.size at hj
    rw [hwritten.size] at hj
    rw [hwritten.contents, hdevice j hj, List.getElem?_eq_getElem hj, List.getD_eq_getElem _ _ hj]
  · exact hsize.trans_lt (h.wait off len hpc)
  · exact hsize.trans_lt (h.woken off len hpc)
  · have := h.faithful off len buf hpc (hrange.trans hsize.le)
    rw [hbytes.contents] at this
    change buf = (s.logfs.writeBlocks.contents.drop off).take len
    rw [hwritten.contents]
    exact this

lemma signalRcache (h : Inv s) : Inv s.signalRcache := by
  rw [State.signalRcache]
  split
  · next off len hpc =>
    refine ⟨h.blocks, h.counted, h.device, nofun, fun off' len' hwoken => ?_, nofun⟩
    obtain ⟨rfl, rfl⟩ : off = off' ∧ len = len' := by simpa using hwoken
    exact h.wait off len hpc
  · exact h

/-- A step of the worker. -/
lemma workerStep (h : Inv s) (hstep : workerStep s = some s') : Inv s' := by
  rw [Cs238p.P4Alt.workerStep] at hstep
  split at hstep
  · obtain rfl := Option.some.inj hstep
    exact h.of_worker _
  · obtain rfl := Option.some.inj hstep
    exact h.of_worker _
  · obtain rfl := Option.some.inj hstep
    exact h.of_worker _
  · cases hstep
  · obtain rfl := Option.some.inj hstep
    exact h.of_worker _
  · obtain rfl := Option.some.inj hstep
    exact h.writeBlocks.signalRcache

/-- A spurious wake-up. -/
lemma wakeUpStep (h : Inv s) {wakeUp : WakeUp} (hstep : wakeUpStep s wakeUp = some s') :
    Inv s' := by
  cases wakeUp with
  | client =>
    rw [Cs238p.P4Alt.wakeUpStep] at hstep
    split at hstep
    · next off len hpc =>
      obtain rfl := Option.some.inj hstep
      have hsignal := h.signalRcache
      rw [State.signalRcache, hpc] at hsignal
      exact hsignal
    · cases hstep
  | worker =>
    rw [Cs238p.P4Alt.wakeUpStep] at hstep
    split at hstep
    · obtain rfl := Option.some.inj hstep
      exact h.of_worker _
    · cases hstep

/-- A call begins. -/
lemma call (h : Inv s) {client : ClientPc} (hstep : s.call client = some s')
    (hidle : ∀ ret, client ≠ .idle ret) (hwait : ∀ off len, client ≠ .readWait off len)
    (hwoken : ∀ off len, client ≠ .readWoken off len) : Inv s' := by
  rw [State.call] at hstep
  split at hstep
  · obtain rfl := Option.some.inj hstep
    exact h.of_call hidle hwait hwoken
  · cases hstep

/-- **Every step keeps the invariant**, if what is read is covered. -/
theorem step {a : Action} (h : Inv s) (hcovered : Covered s a)
    (hstep : Cs238p.P4Alt.step s a = some s') : Inv s' := by
  cases a with
  | append buf => exact h.call hstep nofun nofun nofun
  | read off len => exact h.call hstep nofun nofun nofun
  | client => exact h.clientStep hcovered hstep
  | worker => exact h.workerStep hstep
  | spurious wakeUp => exact h.wakeUpStep hstep

end Inv

/-- **Reads that are covered return what the write cache holds**, whatever it holds, in every
interleaving of the client and the worker.

**Proof sketch.** The bytes that the worker has counted are on the device, and later appends are
behind them. A read that is covered takes such bytes from one block of the device. -/
theorem reads_faithful {s t : State} {actions : List Action} (hs : AfterAppends s)
    (hcovered : Always step Covered s actions) (hrun : run step s actions = some t) : t.Faithful :=
  (invariant_run_of_always (fun _ _ _ h hC hstep => Inv.step h hC hstep) hs.inv hcovered
    hrun).faithful

/-- The client appends two bytes, the worker writes them, and the client reads them. -/
def servedRun : List Action :=
  [.worker, .worker, .worker, .append [7, 8], .client, .worker, .worker, .read 0 2, .client]

/-- Witness: bytes that the worker has written are read. -/
theorem reads_faithful_served : ∃ t,
    run step (State.start 512 fun _ => 0) servedRun = some t ∧ t.Faithful := by
  have hrun : (run step (State.start 512 fun _ => 0) servedRun).isSome = true := by decide +kernel
  obtain ⟨t, ht⟩ := Option.isSome_iff_exists.mp hrun
  exact ⟨t, ht, reads_faithful (afterAppends_start 512 _) (by decide +kernel) ht⟩

/-- The client appends a byte before the worker waits for a signal, and reads it. -/
def missedRun : List Action := [.worker, .worker, .append [7], .client, .read 0 1, .client]

/-- A byte that is read before the worker has written it is that of the device. -/
theorem missedRun_not_faithful :
    ∃ t, run step (State.start 512 fun _ => 0) missedRun = some t ∧ ¬ t.Faithful := by
  have hrun : (run step (State.start 512 fun _ => 0) missedRun).map
      (fun t => (t.client, t.logfs.size, t.logfs.contents)) =
      some (.idle (.read 0 1 [0]), 1, [7]) := by decide +kernel
  obtain ⟨t, ht, hend⟩ := Option.map_eq_some_iff.mp hrun
  obtain ⟨hclient, hsize, hcontents⟩ : t.client = .idle (.read 0 1 [0]) ∧ t.logfs.size = 1 ∧
      t.logfs.contents = [7] := by simpa using hend
  refine ⟨t, ht, fun hfaithful => ?_⟩
  have hread := hfaithful 0 1 [0] hclient hsize.ge
  rw [hcontents] at hread
  revert hread
  decide

end Cs238p.P4Alt
