import Cs238p.Lib.Stdio
import Cs238p.P5.CpuUtil

set_option relaxedAutoImplicit false
set_option autoImplicit false

/-!
# The statistics of `p5/main.c`

Besides the CPU utilisation, `p5/main.c` reports the utilisation of the memory, the packets and
bytes of a network interface, and the accesses to a disk. It reads them from files of `/proc`, line
by line. This module determines what is reported for every file that has the form of these files.

## Main definitions

* `memoryUtil`, `networkPacketUtil`, `diskUtil` — the functions of the source.
* `MemLine`, `NetLine`, `DiskLine` — the lines of the files.

## Main results

* `memoryUtil_file` — the memory that is not free, as a percentage exactly if no more is free than
  there is.
* `networkPacketUtil_file` — what is reported as sent was received, and the other way around.
* `diskUtil_file` — the sectors that were read, but the writes that were completed.

## Implementation notes

Quotients are exact, where the source computes them in `double`. A variable that is not initialised
has an arbitrary value; the name of a disk fits into its buffer. The file of the disks can be
opened.
-/

namespace Cs238p.P5

open CNumeral Stdio WhiteSpace

/-! ## The source -/

/-- The body of the loop of `memory_util`, on `mem_total` and `mem_free`. -/
def memoryLine (m : ℕ × ℕ) (line : List Char) : ℕ × ℕ :=
  match sscanf (format "MemTotal: %lu kB".toList) line with
  | [.unsigned value] => (value, m.2)
  | _ =>
    match sscanf (format "MemFree: %lu kB".toList) line with
    | [.unsigned value] => (m.1, value)
    | _ => m

/-- `memory_util`, for what is in `/proc/meminfo`, if it can be opened. -/
def memoryUtil : Option (List Char) → ℚ
  | none => 0
  | some file =>
    let (memTotal, memFree) := (fgetsFrom 1024 [] file).foldl memoryLine (0, 0)
    if 0 < memTotal then ((memTotal + 2 ^ 64 - memFree) % 2 ^ 64 : ℕ) / (memTotal : ℚ) * 100 else 0

/-- What `network_packet_util` prints. -/
structure NetworkReport where
  packetsSent : ℕ
  packetsReceived : ℕ
  bytesSent : ℕ
  bytesReceived : ℕ
  deriving DecidableEq, Repr

/-- The numbers are assigned to the elements of a vector. -/
def assign : List ℕ → List Value → List ℕ → List ℕ
  | i :: places, .unsigned n :: values, vector => assign places values (vector.set i n)
  | _, _, vector => vector

/-- The line has the text in it. -/
def strstr (line text : List Char) : Bool := decide (text <:+: line)

/-- `network_packet_util`, for the elements of `vector` and for what is in `/proc/net/dev`, if it
can be opened. -/
def networkPacketUtil (vector : List ℕ) : Option (List Char) → Option NetworkReport
  | none => none
  | some file =>
    ((fgetsFrom 1024 [] file).find? fun line => strstr line "eth0".toList).map fun line =>
      let vector := assign [2, 0, 3, 1]
        (sscanf (format "%u %u %*u %*u %*u %*u %*u %*u %u %u".toList)
          ((line.dropWhile (· ≠ ':')).drop 1)) vector
      ⟨vector.getD 0 0, vector.getD 1 0, vector.getD 2 0, vector.getD 3 0⟩

/-- The variables of `disk_util`. -/
structure DiskVars where
  devName : List Char
  reads : ℕ
  writes : ℕ

/-- The values are assigned to the variables. -/
def DiskVars.assign (v : DiskVars) : List Value → DiskVars
  | [] => v
  | .string s :: values =>
    match values with
    | .unsigned reads :: .unsigned writes :: _ => ⟨s, reads, writes⟩
    | .unsigned reads :: _ => ⟨s, reads, v.writes⟩
    | _ => { v with devName := s }
  | .unsigned _ :: _ => v

/-- The loop of `disk_util`: the reads and writes that are printed, `none` if no device is found. -/
def diskLoop : DiskVars → List (List Char) → Option (ℕ × ℕ)
  | _, [] => none
  | v, line :: lines =>
    let v := v.assign
      (sscanf (format "%*u %*u %s %*u %*u %u %*u %u %*u %*u %*u".toList) line)
    if v.devName = "loop0".toList then some (v.reads, v.writes) else diskLoop v lines

/-- `disk_util`, for what is in `/proc/diskstats`. -/
def diskUtil (v : DiskVars) (file : List Char) : Option (ℕ × ℕ) :=
  diskLoop v (fgetsFrom 1024 [] file)

/-! ## The files -/

/-- A line of `/proc/meminfo`. -/
def MemLine (name : List Char) (value : ℕ) (line : List Char) : Prop :=
  FitsLine 1024 line ∧ ':' ∉ name ∧ ∃ s rest, line = name ++ ':' :: s ∧ Numbers [value] s rest

/-- The counters of an interface in `/proc/net/dev`. -/
structure NetCounters where
  rxBytes : ℕ
  rxPackets : ℕ
  rxErrs : ℕ
  rxDrop : ℕ
  rxFifo : ℕ
  rxFrame : ℕ
  rxCompressed : ℕ
  rxMulticast : ℕ
  txBytes : ℕ
  txPackets : ℕ
  txErrs : ℕ
  txDrop : ℕ
  txFifo : ℕ
  txColls : ℕ
  txCarrier : ℕ
  txCompressed : ℕ

/-- The counters in the order in which they are printed. -/
def NetCounters.toList (c : NetCounters) : List ℕ :=
  [c.rxBytes, c.rxPackets, c.rxErrs, c.rxDrop, c.rxFifo, c.rxFrame, c.rxCompressed, c.rxMulticast,
    c.txBytes, c.txPackets, c.txErrs, c.txDrop, c.txFifo, c.txColls, c.txCarrier, c.txCompressed]

/-- The line of an interface. -/
def NetLine (name : List Char) (counters : NetCounters) (line : List Char) : Prop :=
  FitsLine 1024 line ∧ ':' ∉ name ∧
    ∃ pad s, line = pad ++ (name ++ ':' :: s) ∧ (∀ c ∈ pad, isspace c.toNat = true) ∧
      Numbers counters.toList s []

/-- The counters of a disk in `/proc/diskstats`. -/
structure DiskCounters where
  reads : ℕ
  readMerges : ℕ
  readSectors : ℕ
  readTicks : ℕ
  writes : ℕ
  writeMerges : ℕ
  writeSectors : ℕ
  writeTicks : ℕ
  inFlight : ℕ
  ioTicks : ℕ
  queueTicks : ℕ

/-- The counters in the order in which they are printed. -/
def DiskCounters.toList (c : DiskCounters) : List ℕ :=
  [c.reads, c.readMerges, c.readSectors, c.readTicks, c.writes, c.writeMerges, c.writeSectors,
    c.writeTicks, c.inFlight, c.ioTicks, c.queueTicks]

/-- The line of a disk, with its device numbers, its name and its counters. -/
def DiskLine (name : List Char) (counters : DiskCounters) (line : List Char) : Prop :=
  FitsLine 1024 line ∧ name ≠ [] ∧ name.length < 20 ∧ (∀ c ∈ name, isspace c.toNat = false) ∧
    ∃ major minor ws s rest, Numbers [major, minor] line (ws ++ (name ++ s)) ∧
      (∀ c ∈ ws, isspace c.toNat = true) ∧ (∀ c ∈ s.head?, isspace c.toNat = true) ∧
      Numbers counters.toList s rest

/-- A line with a name and data, of a given form. -/
structure Entry {γ : Type} (IsLine : List Char → γ → List Char → Prop) where
  name : List Char
  data : γ
  line : List Char
  isLine : IsLine name data line

/-- The last value with the given name, `0` if there is none. -/
def lastValue (w : List Char) (entries : List (Entry MemLine)) : ℕ :=
  entries.foldl (fun v e => if e.name = w then e.data else v) 0

/-- A file of such lines is read line by line. -/
lemma fgetsFrom_entries {γ : Type} {IsLine : List Char → γ → List Char → Prop}
    (hfits : ∀ e : Entry IsLine, FitsLine 1024 e.line) (entries : List (Entry IsLine)) :
    fgetsFrom 1024 [] (textOf (entries.map Entry.line)) =
      entries.map fun e => e.line ++ ['\n'] := by
  rw [fgetsFrom_lines, List.map_map]
  · rfl
  · intro l hl
    obtain ⟨e, -, rfl⟩ := List.mem_map.mp hl
    exact hfits e

/-! ## The memory -/

/-- The directives for a name. -/
def memFormat (w : List Char) : List Directive :=
  (w ++ [':']).map .char ++ [.space, .unsigned 64 true, .space, .char 'k', .char 'B']

/-- What follows the number is not stored. -/
lemma sscanf_kB (s : List Char) : sscanf [.space, .char 'k', .char 'B'] s = [] := by
  rw [sscanf]
  rcases skip s with _ | ⟨c, s'⟩
  · rfl
  · rw [sscanf]
    split
    · rcases s' with _ | ⟨c', s''⟩
      · rfl
      · rw [sscanf]
        split <;> rfl
    · rfl

/-- The text in front of the first colon. -/
lemma eq_of_prefix_colon {w name s : List Char} (hw : ':' ∉ w) (hname : ':' ∉ name)
    (h : w ++ [':'] <+: name ++ ':' :: s) : w = name := by
  have hspan : ∀ (l t : List Char), ':' ∉ l → (l ++ ':' :: t).takeWhile (· ≠ ':') = l := by
    intro l t hl
    rw [List.takeWhile_append_of_pos fun c hc => by
      simp only [ne_eq, decide_eq_true_eq]
      rintro rfl
      exact hl hc]
    simp
  obtain ⟨t, ht⟩ := h
  have hw' := hspan w t hw
  rwa [show w ++ ':' :: t = name ++ ':' :: s by rw [← ht]; simp, hspan name s hname, eq_comm] at hw'

/-- **A value is read from the line with its name**, and from no other line. -/
lemma sscanf_memLine {name w line : List Char} {value : ℕ} (h : MemLine name value line)
    (hw : ':' ∉ w) :
    sscanf (memFormat w) (line ++ ['\n']) = if name = w then [.unsigned value] else [] := by
  obtain ⟨-, hname, s, rest, rfl, hs⟩ := h
  have hvalue := hs.lt value (List.mem_singleton_self value)
  split
  · next heq =>
    subst heq
    have hline : name ++ ':' :: s ++ ['\n'] = name ++ [':'] ++ (s ++ ['\n']) := by simp
    have hs' := hs.append (t := ['\n']) (avoids_cons _ rfl)
    rw [memFormat, hline, sscanf_chars, sscanf_space_unsigned, sscanf]
    generalize s ++ ['\n'] = text at hs' ⊢
    cases hs' with
    | cons hws hds hne hlt havoids hs' =>
      rw [scanNumber_digits hws hds hne hlt havoids]
      simp only [if_true, sscanf_kB, Nat.mod_eq_of_lt hvalue]
  · next hne =>
    by_contra hread
    have hprefix : w ++ [':'] <+: name ++ ':' :: (s ++ ['\n']) := by
      simpa using isPrefix_of_sscanf_chars hread
    exact hne (eq_of_prefix_colon hw hname hprefix).symm

/-- A line of the file assigns the value with its name. -/
lemma memoryLine_of_memLine {name line : List Char} {value : ℕ} (h : MemLine name value line)
    (m : ℕ × ℕ) : memoryLine m (line ++ ['\n']) =
      (if name = "MemTotal".toList then value else m.1,
        if name = "MemFree".toList then value else m.2) := by
  have htotal := sscanf_memLine h (w := "MemTotal".toList) (by decide)
  have hfree := sscanf_memLine h (w := "MemFree".toList) (by decide)
  rw [memoryLine, show format "MemTotal: %lu kB".toList = memFormat "MemTotal".toList from rfl,
    show format "MemFree: %lu kB".toList = memFormat "MemFree".toList from rfl, htotal, hfree]
  by_cases hname : name = "MemTotal".toList
  · have hname' : name ≠ "MemFree".toList := by
      rw [hname]
      decide
    rw [if_pos hname, if_pos hname, if_neg hname', if_neg hname']
  · rw [if_neg hname, if_neg hname]
    by_cases hname' : name = "MemFree".toList
    · rw [if_pos hname', if_pos hname']
    · rw [if_neg hname', if_neg hname']

/-- The lines one after another. -/
lemma foldl_memoryLine (entries : List (Entry MemLine)) (m : ℕ × ℕ) :
    (entries.map fun e => e.line ++ ['\n']).foldl memoryLine m =
      (entries.foldl (fun v e => if e.name = "MemTotal".toList then e.data else v) m.1,
        entries.foldl (fun v e => if e.name = "MemFree".toList then e.data else v) m.2) := by
  induction entries generalizing m with
  | nil => rfl
  | cons e entries ih =>
    rw [List.map_cons, List.foldl_cons, memoryLine_of_memLine e.isLine, ih, List.foldl_cons,
      List.foldl_cons]

/-- A value is one of the file, or zero. -/
lemma lastValue_lt (w : List Char) (entries : List (Entry MemLine)) :
    lastValue w entries < 2 ^ 64 := by
  have hfold : ∀ v < 2 ^ 64,
      entries.foldl (fun v e => if e.name = w then e.data else v) v < 2 ^ 64 := by
    induction entries with
    | nil => exact fun v hv => hv
    | cons e entries ih =>
      intro v hv
      rw [List.foldl_cons]
      refine ih _ ?_
      split
      · obtain ⟨-, -, s, rest, -, hs⟩ := e.isLine
        exact hs.lt e.data (List.mem_singleton_self e.data)
      · exact hv
  exact hfold 0 (by decide)

/-- **`memory_util` reports the memory that is not free**, in relation to the memory that there is,
if no more of it is free than there is; otherwise it does not report a percentage.

**Proof sketch.** Of all lines only those with the two names match a format, and the last ones of
them remain. A difference below zero is one of almost `2 ^ 64`, and the total is less. -/
theorem memoryUtil_file (entries : List (Entry MemLine)) :
    let total := lastValue "MemTotal".toList entries
    let free := lastValue "MemFree".toList entries
    let util := memoryUtil (some (textOf (entries.map Entry.line)))
    (free ≤ total → util = ((total : ℚ) - free) / total * 100) ∧
      (0 ≤ util ∧ util ≤ 100 ↔ free ≤ total ∨ total = 0) := by
  intro total free util
  have htotal : total < 2 ^ 64 := lastValue_lt _ entries
  have hfree : free < 2 ^ 64 := lastValue_lt _ entries
  have hlines := fgetsFrom_entries (fun e => e.isLine.1) entries
  have hutil : util = if 0 < total then
      ((total + 2 ^ 64 - free) % 2 ^ 64 : ℕ) / (total : ℚ) * 100 else 0 := by
    show memoryUtil (some (textOf (entries.map Entry.line))) = _
    rw [memoryUtil, hlines, foldl_memoryLine]
    rfl
  clear_value total free util
  subst hutil
  rcases Nat.eq_zero_or_pos total with rfl | hpos
  · simp
  rw [if_pos hpos]
  have hpos' : (0 : ℚ) < total := by exact_mod_cast hpos
  by_cases hle : free ≤ total
  · have hmod : (total + 2 ^ 64 - free) % 2 ^ 64 = total - free := by omega
    have hshare : ((total - free : ℕ) : ℚ) / total ≤ 1 :=
      (div_le_one hpos').mpr (by exact_mod_cast Nat.sub_le total free)
    have hnonneg : (0 : ℚ) ≤ ((total - free : ℕ) : ℚ) / total := by positivity
    rw [hmod]
    refine ⟨fun _ => by rw [Nat.cast_sub hle], ?_⟩
    simp only [hle, true_or, iff_true]
    constructor <;> linarith
  · have hmod : (total + 2 ^ 64 - free) % 2 ^ 64 = total + 2 ^ 64 - free := by omega
    have hshare : 1 < ((total + 2 ^ 64 - free : ℕ) : ℚ) / total :=
      (one_lt_div hpos').mpr (by exact_mod_cast (show total < total + 2 ^ 64 - free by omega))
    rw [hmod]
    refine ⟨fun h => absurd h hle, ?_⟩
    simp only [hle, hpos.ne', or_self, iff_false, not_and, not_le]
    intro _
    linarith

/-! ## The network -/

variable {name line : List Char} {counters : NetCounters}

/-- The text is in the line of an interface if it is in its name. -/
lemma strstr_netLine (h : NetLine name counters line) :
    strstr (line ++ ['\n']) "eth0".toList = strstr name "eth0".toList := by
  obtain ⟨-, -, pad, s, rfl, hpad, hs⟩ := h
  have hblank : ∀ c ∈ pad, c ∉ "eth0".toList := by
    intro c hc hmem
    have hspace := hpad c hc
    have hmem : c = 'e' ∨ c = 't' ∨ c = 'h' ∨ c = '0' := by simpa using hmem
    rcases hmem with rfl | rfl | rfl | rfl <;> revert hspace <;> decide
  have hdigits : ¬ "eth0".toList <:+: s ++ ['\n'] := by
    intro hinfix
    have he : 'e' ∈ s ++ ['\n'] := hinfix.subset (by decide)
    rcases List.mem_append.mp he with he | he
    · rcases hs.mem he with he | he | he <;> revert he <;> decide
    · revert he
      decide
  have hline : pad ++ (name ++ ':' :: s) ++ ['\n'] = pad ++ (name ++ ':' :: (s ++ ['\n'])) := by
    simp
  have hiff : "eth0".toList <:+: pad ++ (name ++ ':' :: (s ++ ['\n'])) ↔
      "eth0".toList <:+: name := by
    rw [infix_append_iff hblank (by decide), infix_append_cons_iff (by decide),
      or_iff_left hdigits]
  rw [strstr, strstr, hline]
  exact decide_eq_decide.mpr hiff

/-- **The numbers that are read from the line of an interface.** -/
lemma sscanf_netLine (h : NetLine name counters line) :
    sscanf (format "%u %u %*u %*u %*u %*u %*u %*u %u %u".toList)
        (((line ++ ['\n']).dropWhile (· ≠ ':')).drop 1) =
      [.unsigned (counters.rxBytes % 2 ^ 32), .unsigned (counters.rxPackets % 2 ^ 32),
        .unsigned (counters.txBytes % 2 ^ 32), .unsigned (counters.txPackets % 2 ^ 32)] := by
  obtain ⟨-, hname, pad, s, rfl, hpad, hs⟩ := h
  have hfront : ∀ c ∈ pad ++ name, decide (c ≠ ':') = true := by
    intro c hc
    simp only [ne_eq, decide_eq_true_eq]
    rintro rfl
    rcases List.mem_append.mp hc with hc | hc
    · exact absurd (hpad _ hc) (by decide)
    · exact hname hc
  have hline : pad ++ (name ++ ':' :: s) ++ ['\n'] = pad ++ name ++ ':' :: (s ++ ['\n']) := by simp
  obtain ⟨rest, hnumbers⟩ := (hs.append (t := ['\n']) (avoids_cons _ rfl)).take 10
  have hread := sscanf_numbers hnumbers
    [true, true, false, false, false, false, false, false, true, true] [] rfl
  rw [hline, List.dropWhile_append_of_pos hfront]
  exact sscanf_space_unsigned.symm.trans hread

/-- **`network_packet_util` reports as sent what was received**, and as received what was sent:
these are the counters of the first interface with `eth0` in its name, modulo `2 ^ 32`.

**Proof sketch.** In the line of an interface there is `eth0` only in the name, and the format
stores the first and second counter and the ninth and tenth. -/
theorem networkPacketUtil_file (vector : List ℕ) (hvector : vector.length = 4)
    (header : List (List Char))
    (hheader : ∀ l ∈ header, FitsLine 1024 l ∧ ¬ "eth0".toList <:+: l ++ ['\n'])
    (interfaces : List (Entry NetLine)) :
    networkPacketUtil vector (some (textOf (header ++ interfaces.map Entry.line))) =
      (interfaces.find? fun i => strstr i.name "eth0".toList).map fun i =>
        { packetsSent := i.data.rxPackets % 2 ^ 32
          packetsReceived := i.data.txPackets % 2 ^ 32
          bytesSent := i.data.rxBytes % 2 ^ 32
          bytesReceived := i.data.txBytes % 2 ^ 32 } := by
  have hlines : fgetsFrom 1024 [] (textOf (header ++ interfaces.map Entry.line)) =
      (header ++ interfaces.map Entry.line).map fun l => l ++ ['\n'] := by
    refine fgetsFrom_lines fun l hl => ?_
    rcases List.mem_append.mp hl with hl | hl
    · exact (hheader l hl).1
    · obtain ⟨i, -, rfl⟩ := List.mem_map.mp hl
      exact i.isLine.1
  have hnone :
      (header.map fun l => l ++ ['\n']).find? (fun l => strstr l "eth0".toList) = none := by
    refine List.find?_eq_none.mpr fun l hl => ?_
    obtain ⟨l', hl', rfl⟩ := List.mem_map.mp hl
    simpa [strstr] using (hheader l' hl').2
  have hname : ((fun l => strstr l "eth0".toList) ∘ (fun l => l ++ ['\n']) ∘ Entry.line) =
      fun i : Entry NetLine => strstr i.name "eth0".toList :=
    funext fun i => strstr_netLine i.isLine
  rw [networkPacketUtil, hlines, List.map_append, List.find?_append, hnone, Option.none_or,
    List.map_map, List.find?_map, hname, Option.map_map]
  refine Option.map_congr fun i _ => ?_
  obtain ⟨v₀, v₁, v₂, v₃, rfl⟩ : ∃ v₀ v₁ v₂ v₃, vector = [v₀, v₁, v₂, v₃] := by
    match vector, hvector with
    | [v₀, v₁, v₂, v₃], _ => exact ⟨v₀, v₁, v₂, v₃, rfl⟩
  simp only [Function.comp_apply, sscanf_netLine i.isLine]
  rfl

/-- Numbers as the kernel prints them. -/
lemma numbers_printCounters {ns : List ℕ} (h : ∀ n ∈ ns, n < 2 ^ 64) :
    Numbers ns (printCounters ns) [] := by
  induction ns with
  | nil => exact .nil []
  | cons n ns ih =>
    obtain ⟨hn, hns⟩ := List.forall_mem_cons.mp h
    have hvalue : decimal.value (Nat.toDigits 10 n) = n := by
      rw [value_decimal, Nat.ofDigitChars_ten_toDigits]
    have havoids : Avoids Char.isDigit (printCounters ns) := by
      cases ns with
      | nil => exact avoids_nil _
      | cons n' ns => exact avoids_cons _ rfl
    have hnumbers := @Numbers.cons [' '] _ _ _ _ (List.forall_mem_singleton.mpr (by decide))
      (fun d hd => Nat.isDigit_of_mem_toDigits (by decide) (by decide) hd)
      (@Nat.toDigits_ne_nil n 10) (by rwa [hvalue]) havoids (ih hns)
    rwa [hvalue] at hnumbers

/-- The line of an interface as the kernel prints it. -/
def Entry.printNet (name : List Char) (counters : NetCounters) (hname : ':' ∉ name)
    (hlt : ∀ n ∈ counters.toList, n < 2 ^ 64)
    (hfits : FitsLine 1024 (name ++ ':' :: printCounters counters.toList)) : Entry NetLine where
  name := name
  data := counters
  line := name ++ ':' :: printCounters counters.toList
  isLine := ⟨hfits, hname, [], _, rfl, by simp, numbers_printCounters hlt⟩

/-- Witness: the second one of two interfaces, whose name only ends with the text. -/
theorem networkPacketUtil_file_second :
    networkPacketUtil [0, 0, 0, 0] (some (textOf (["face |bytes packets".toList] ++
      [Entry.printNet "lo".toList ⟨5, 6, 0, 0, 0, 0, 0, 0, 7, 8, 0, 0, 0, 0, 0, 0⟩ (by decide)
          (by decide) (by decide +kernel),
        Entry.printNet "veth0".toList ⟨1, 2, 0, 0, 0, 0, 0, 0, 2 ^ 32 + 3, 4, 0, 0, 0, 0, 0, 0⟩
          (by decide) (by decide) (by decide +kernel)].map Entry.line))) =
      some { packetsSent := 2, packetsReceived := 4, bytesSent := 1, bytesReceived := 3 } := by
  rw [networkPacketUtil_file [0, 0, 0, 0] rfl ["face |bytes packets".toList] (by decide)]
  rfl

/-! ## The disk -/

/-- **The values that are read from the line of a disk.** -/
lemma sscanf_diskLine {name line : List Char} {counters : DiskCounters}
    (h : DiskLine name counters line) :
    sscanf (format "%*u %*u %s %*u %*u %u %*u %u %*u %*u %*u".toList) (line ++ ['\n']) =
      [.string name, .unsigned (counters.readSectors % 2 ^ 32),
        .unsigned (counters.writes % 2 ^ 32)] := by
  obtain ⟨-, hne, -, hname, major, minor, ws, s, rest, hnumbers, hws, hspace, hs⟩ := h
  have hdevice := hnumbers.append (t := ['\n']) (avoids_cons _ rfl)
  obtain ⟨rest', hcounters⟩ := (hs.append (t := ['\n']) (avoids_cons _ rfl)).take 8
  have htail : ws ++ (name ++ s) ++ ['\n'] = ws ++ (name ++ (s ++ ['\n'])) := by simp
  have hspace' : ∀ c ∈ (s ++ ['\n']).head?, isspace c.toNat = true := by
    cases s with
    | nil =>
      rintro c ⟨⟩
      decide
    | cons c s => exact hspace
  have hread := sscanf_numbers hcounters
    [false, false, true, false, true, false, false, false] [] rfl
  rw [htail] at hdevice
  let fmt := numbersFormat [false, false, true, false, true, false, false, false]
  have hformat : Directive.space :: format "%*u %*u %s %*u %*u %u %*u %u %*u %*u %*u".toList =
      numbersFormat [false, false] ++ .space :: .string :: (fmt ++ []) := rfl
  calc sscanf (format "%*u %*u %s %*u %*u %u %*u %u %*u %*u %*u".toList) (line ++ ['\n'])
    _ = sscanf (.space :: format "%*u %*u %s %*u %*u %u %*u %u %*u %*u %*u".toList)
        (line ++ ['\n']) := sscanf_space_unsigned.symm
    _ = sscanf (.string :: (fmt ++ [])) (ws ++ (name ++ (s ++ ['\n']))) := by
      rw [hformat, sscanf_numbers hdevice _ _ rfl]
      exact sscanf_space_string
    _ = .string name :: sscanf (fmt ++ []) (s ++ ['\n']) := sscanf_string hws hname hne hspace'
    _ = _ := by
      rw [hread]
      rfl

/-- **`disk_util` reports the sectors read and the writes completed** of the first disk with the
name `loop0`, modulo `2 ^ 32`.

**Proof sketch.** Behind the name the format stores the third counter and the fifth. As long as
there was no such disk, the name of the last one is in the buffer. -/
theorem diskUtil_file (v : DiskVars) (disks : List (Entry DiskLine)) :
    diskUtil v (textOf (disks.map Entry.line)) =
      (disks.find? fun d => d.name = "loop0".toList).map fun d =>
        (d.data.readSectors % 2 ^ 32, d.data.writes % 2 ^ 32) := by
  rw [diskUtil, fgetsFrom_entries fun d => d.isLine.1]
  induction disks generalizing v with
  | nil => rfl
  | cons d disks ih =>
    rw [List.map_cons, diskLoop, sscanf_diskLine d.isLine, List.find?_cons]
    show (if d.name = "loop0".toList then some _ else diskLoop ⟨d.name, _, _⟩ _) = _
    by_cases hname : d.name = "loop0".toList
    · rw [if_pos hname, decide_eq_true hname]
      rfl
    · rw [if_neg hname, decide_eq_false hname]
      exact ih _

end Cs238p.P5
