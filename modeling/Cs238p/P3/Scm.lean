import Cs238p.Lib.CString
import Cs238p.Lib.Memory

set_option relaxedAutoImplicit false
set_option autoImplicit false

/-!
# The storage class memory allocator of `p3/scm.c`

A region is a file mapped at a fixed address. Its first word holds the number of utilized bytes;
blocks follow, each with a two-byte flag and an eight-byte size in front of its payload.

## Main definitions

* `Scm` — an open handle: the counters and the mapped memory.
* `scmOpen`, `scmClose`, `scmMalloc`, `scmStrdup`, `scmFree`, `scmMbase` — as in the source.
* `Scm.place` — the bytes that a block of the next `scmMalloc` occupies.

## Main results

* `scmMalloc_of_fits`, `scmMalloc_of_not_fits`, `scmStrdup_of_fits` — what the calls do.
* `scmMalloc_frame`, `scmStrdup_frame`, `scmFree_frame` — the bytes that the calls leave alone.

## Implementation notes

Addresses are natural numbers and the memory is total: whether an access stays within the mapping
is a statement about the model, not a condition of it. Numbers of type `size_t` are taken modulo
`2 ^ 64`. System calls succeed.
-/

namespace Cs238p.P3

/-- `VIRT_ADDR`. -/
def virtAddr : ℕ := 0x600000000000

/-- The address `scm->addr`, behind the first word of the mapping. -/
def addr : ℕ := virtAddr + 8

/-- Arithmetic of type `size_t`. -/
def sizeT (n : ℕ) : ℕ := n % 2 ^ 64

/-- `struct scm`, with the memory that is mapped. -/
structure Scm where
  utilized : ℕ
  capacity : ℕ
  mem : Mem

/-- The first word of the mapping. -/
def counterSpan : Span := ⟨virtAddr, 8⟩

/-- The bytes that are mapped to the file. -/
def mappedSpan (capacity : ℕ) : Span := ⟨virtAddr, capacity⟩

/-- `scm_open` on a file with the given bytes and size. Truncating the file to its own size keeps
its bytes. What is mapped behind the end of the file reads as zero. -/
def scmOpen (file : Mem) (capacity : ℕ) (truncate : Bool) : Scm :=
  let mem : Mem := fun x => if x ∈ mappedSpan capacity then file x else 0
  if truncate then ⟨0, capacity, mem⟩ else ⟨mem.word virtAddr 8, capacity, mem⟩

/-- `scm_close`: the file keeps what was mapped. -/
def scmClose (scm : Scm) : Mem := scm.mem

/-- `scm_malloc`. -/
def scmMalloc (scm : Scm) (n : ℕ) : Option ℕ × Scm :=
  let p := addr + scm.utilized
  let size := sizeT (2 + 8 + n)
  if sizeT (scm.utilized + size) > scm.capacity then (none, scm)
  else
    let mem := (scm.mem.setWord p 2 1).setWord (p + 2) 8 size
    let utilized := sizeT (scm.utilized + size)
    (some (p + 2 + 8), ⟨utilized, scm.capacity, mem.setWord (addr - 8) 8 utilized⟩)

/-- `scm_strdup`. -/
def scmStrdup (scm : Scm) (s : CString) : Option ℕ × Scm :=
  match scmMalloc scm (s.strlen + 1) with
  | (none, scm) => (none, scm)
  | (some p, scm) => (some p, { scm with mem := scm.mem.write p (s.bytes ++ [0]) })

/-- `scm_free`. -/
def scmFree (scm : Scm) (p : ℕ) : Scm :=
  let utilized := sizeT (scm.utilized + 2 ^ 64 - scm.mem.word (p - 8) 8)
  let mem := scm.mem.setWord (p - 2 - 8) 2 0
  ⟨utilized, scm.capacity, mem.setWord (addr - 8) 8 utilized⟩

/-- `scm_utilized`. -/
def scmUtilized (scm : Scm) : ℕ := scm.utilized

/-- `scm_mbase`. -/
def scmMbase : ℕ := addr + 2 + 8

/-! ## What the calls do -/

/-- The test of `scm_malloc` passes. -/
def Scm.Fits (scm : Scm) (n : ℕ) : Prop :=
  sizeT (scm.utilized + sizeT (2 + 8 + n)) ≤ scm.capacity

instance (scm : Scm) (n : ℕ) : Decidable (scm.Fits n) :=
  inferInstanceAs (Decidable (_ ≤ _))

/-- The bytes of the next block with a payload of `n` bytes: flag, size and payload. -/
def Scm.place (scm : Scm) (n : ℕ) : Span := ⟨addr + scm.utilized, 2 + 8 + n⟩

/-- The handle after a successful `scm_malloc`. -/
def Scm.grow (scm : Scm) (n : ℕ) : Scm :=
  let p := addr + scm.utilized
  let utilized := sizeT (scm.utilized + sizeT (2 + 8 + n))
  ⟨utilized, scm.capacity,
    ((scm.mem.setWord p 2 1).setWord (p + 2) 8 (sizeT (2 + 8 + n))).setWord (addr - 8) 8 utilized⟩

variable {scm : Scm} {n x : ℕ}

lemma scmMalloc_of_fits (h : scm.Fits n) :
    scmMalloc scm n = (some (addr + scm.utilized + 2 + 8), scm.grow n) :=
  if_neg (Nat.not_lt.mpr h)

lemma scmMalloc_of_not_fits (h : ¬ scm.Fits n) : scmMalloc scm n = (none, scm) :=
  if_pos (Nat.lt_of_not_le h)

/-- `scm_malloc` writes the header of its block and the first word. -/
lemma grow_frame (hplace : x ∉ scm.place n) (hcounter : x ∉ counterSpan) :
    (scm.grow n).mem x = scm.mem x := by
  simp only [Scm.place, counterSpan, addr, Span.mem_mk] at hplace hcounter
  simp only [Scm.grow, addr]
  rw [Mem.setWord_of_not_mem, Mem.setWord_of_not_mem, Mem.setWord_of_not_mem] <;>
    (rw [Span.mem_mk]; omega)

/-- The handle after a successful `scm_strdup`. -/
def Scm.growString (scm : Scm) (s : CString) : Scm :=
  { scm.grow (s.strlen + 1) with
    mem := (scm.grow (s.strlen + 1)).mem.write (addr + scm.utilized + 2 + 8) (s.bytes ++ [0]) }

lemma scmStrdup_of_fits {s : CString} (h : scm.Fits (s.strlen + 1)) :
    scmStrdup scm s = (some (addr + scm.utilized + 2 + 8), scm.growString s) := by
  rw [scmStrdup, scmMalloc_of_fits h]
  rfl

lemma scmStrdup_of_not_fits {s : CString} (h : ¬ scm.Fits (s.strlen + 1)) :
    scmStrdup scm s = (none, scm) := by
  rw [scmStrdup, scmMalloc_of_not_fits h]

/-- `scm_strdup` writes its block and the first word. -/
lemma growString_frame {s : CString} (hplace : x ∉ scm.place (s.strlen + 1))
    (hcounter : x ∉ counterSpan) : (scm.growString s).mem x = scm.mem x := by
  have hpayload : x ∉ Span.mk (addr + scm.utilized + 2 + 8) (s.bytes ++ [0]).length := by
    simp only [Scm.place, CString.strlen, Span.mem_mk] at hplace
    rw [Span.mem_mk, List.length_append, List.length_singleton]
    omega
  rw [Scm.growString]
  simp only
  rw [Mem.write_of_not_mem hpayload, grow_frame hplace hcounter]

/-- `scm_free` writes the flag of the block and the first word. -/
lemma scmFree_frame {p : ℕ} (hflag : x ∉ Span.mk (p - 2 - 8) 2) (hcounter : x ∉ counterSpan) :
    (scmFree scm p).mem x = scm.mem x := by
  have hword : x ∉ Span.mk (addr - 8) 8 := by simpa [addr, counterSpan] using hcounter
  rw [scmFree]
  simp only
  rw [Mem.setWord_of_not_mem hword, Mem.setWord_of_not_mem hflag]

@[simp] lemma capacity_grow : (scm.grow n).capacity = scm.capacity := rfl

@[simp] lemma capacity_scmFree {p : ℕ} : (scmFree scm p).capacity = scm.capacity := by
  unfold scmFree
  rfl

end Cs238p.P3
