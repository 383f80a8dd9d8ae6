import Mathlib.Data.List.Basic

/-!
# Checks of user pointers

`user_readable` and `user_writeable` of `kernel/syscall.c`, by which the system
calls decide whether they may touch a range of memory that a process names.
-/

namespace OSLab.Kernel

abbrev UserWord := BitVec 64

def kspaceMask : UserWord := 0xffff000000000000#64

structure SectionWords where
 flags : UserWord
 start : UserWord
 stop : UserWord
deriving DecidableEq

namespace SectionWords

def stRo : UserWord := 0x4#64

def readOnly (st : SectionWords) : Bool := (st.flags &&& stRo) != 0#64

def admits (st : SectionWords) (start size : UserWord) : Bool :=
 decide (st.start ≤ start) && decide (start + size < st.stop)

end SectionWords

variable (skip : SectionWords -> Bool)
variable (sections : List SectionWords)

def userCheck (start size : UserWord) : Bool :=
 if kspaceMask ≤ start then
  true
 else
  sections.any (fun st => !skip st && st.admits start size)

def userReadable (start size : UserWord) : Bool :=
 userCheck (fun _ => false) sections start size

def userWriteable (start size : UserWord) : Bool :=
 userCheck SectionWords.readOnly sections start size

/-!
# What the checks are for
-/

def SectionWords.Holds (st : SectionWords) (start size : UserWord) : Prop :=
 st.start.toNat ≤ start.toNat ∧ start.toNat + size.toNat ≤ st.stop.toNat

def InOneSection (start size : UserWord) : Prop :=
 exists st, st ∈ sections ∧ skip st = false ∧ st.Holds start size

/--
The inputs on which the check is right.  For an address of kernel space this is
luck.  Below, a sum that wraps around has to miss every section that begins low
enough, and a range that ends where a section ends needs another section.
-/
def CheckExact (start size : UserWord) : Prop :=
 if kspaceMask ≤ start then
  InOneSection skip sections start size
 else if 18446744073709551616 ≤ start.toNat + size.toNat then
  forall st, st ∈ sections -> skip st = false -> st.start.toNat ≤ start.toNat ->
   st.stop.toNat ≤ start.toNat + size.toNat - 18446744073709551616
 else
  forall st, st ∈ sections -> skip st = false -> st.start.toNat ≤ start.toNat ->
   st.stop.toNat = start.toNat + size.toNat ->
   exists other, other ∈ sections ∧ skip other = false ∧
    other.start.toNat ≤ start.toNat ∧ start.toNat + size.toNat < other.stop.toNat

/-!
# The check in numbers
-/

variable {skip : SectionWords -> Bool} {sections : List SectionWords}
 {start size : UserWord}

theorem userCheck_kernel (h : kspaceMask ≤ start) : userCheck skip sections start size := if_pos h

theorem userCheck_user (h : ¬ kspaceMask ≤ start) : userCheck skip sections start size ↔
    exists st, st ∈ sections ∧ skip st = false ∧
      st.start.toNat ≤ start.toNat ∧ (start + size).toNat < st.stop.toNat := by
 unfold userCheck
 rw [if_neg h, List.any_eq_true]
 constructor
 · rintro ⟨st, hmem, hst⟩
   rw [Bool.and_eq_true, Bool.not_eq_true'] at hst
   have hadmits := hst.right
   unfold SectionWords.admits at hadmits
   rw [Bool.and_eq_true, decide_eq_true_iff, decide_eq_true_iff, BitVec.le_def,
    BitVec.lt_def] at hadmits
   exact ⟨st, hmem, hst.left, hadmits.left, hadmits.right⟩
 rintro ⟨st, hmem, hskip, hstart, hstop⟩
 refine ⟨st, hmem, ?_⟩
 rw [Bool.and_eq_true, Bool.not_eq_true']
 refine ⟨hskip, ?_⟩
 unfold SectionWords.admits
 rw [Bool.and_eq_true, decide_eq_true_iff, decide_eq_true_iff, BitVec.le_def, BitVec.lt_def]
 exact ⟨hstart, hstop⟩

theorem sum_wraps (h : 18446744073709551616 ≤ start.toNat + size.toNat) :
  (start + size).toNat = start.toNat + size.toNat - 18446744073709551616 := by
 rw [BitVec.toNat_add]
 omega

theorem sum_fits (h : ¬ 18446744073709551616 ≤ start.toNat + size.toNat) :
  (start + size).toNat = start.toNat + size.toNat := by
 rw [BitVec.toNat_add]
 omega

theorem not_inOneSection_of_wraps (h : 18446744073709551616 ≤ start.toNat + size.toNat) :
  ¬ InOneSection skip sections start size := by
 rintro ⟨st, _, _, _, hstop⟩
 omega

theorem userCheck_exact_iff :
  (userCheck skip sections start size ↔ InOneSection skip sections start size) ↔
    CheckExact skip sections start size := by
 unfold CheckExact
 by_cases hkernel : kspaceMask ≤ start
 · rw [if_pos hkernel]
   constructor
   · intro h
     exact h.mp (userCheck_kernel hkernel)
   · intro h
     exact ⟨fun _ => h, fun _ => userCheck_kernel hkernel⟩
 rw [if_neg hkernel, userCheck_user hkernel]
 by_cases hwraps : 18446744073709551616 ≤ start.toNat + size.toNat
 · rw [if_pos hwraps, sum_wraps hwraps]
   constructor
   · intro h st hmem hskip hstart
     by_contra hstop
     exact not_inOneSection_of_wraps hwraps (h.mp ⟨st, hmem, hskip, hstart, by omega⟩)
   intro h
   constructor
   · rintro ⟨st, hmem, hskip, hstart, hstop⟩
     have hle := h st hmem hskip hstart
     omega
   · intro hinside
     exact absurd hinside (not_inOneSection_of_wraps hwraps)
 rw [if_neg hwraps, sum_fits hwraps]
 constructor
 · intro h st hmem hskip hstart hstop
   apply h.mpr
   exact ⟨st, hmem, hskip, hstart, by omega⟩
 intro h
 constructor
 · rintro ⟨st, hmem, hskip, hstart, hstop⟩
   exact ⟨st, hmem, hskip, hstart, by omega⟩
 rintro ⟨st, hmem, hskip, hstart, hstop⟩
 by_cases hend : st.stop.toNat = start.toNat + size.toNat
 · exact h st hmem hskip hstart hend
 · exact ⟨st, hmem, hskip, hstart, by omega⟩

/-- Both functions are right on exactly these inputs. -/
theorem user_pointer_checks_exact_iff (sections : List SectionWords) (start size : UserWord) :
  ((userReadable sections start size = true ↔ exists st, st ∈ sections ∧ st.Holds start size) ↔
    CheckExact (fun _ => false) sections start size) ∧
  ((userWriteable sections start size = true ↔
      exists st, st ∈ sections ∧ st.readOnly = false ∧ st.Holds start size) ↔
    CheckExact SectionWords.readOnly sections start size) := by
 constructor
 · have hall : (exists st, st ∈ sections ∧ st.Holds start size) ↔
    InOneSection (fun _ => false) sections start size := by
    constructor
    · rintro ⟨st, hmem, hst⟩
      exact ⟨st, hmem, rfl, hst⟩
    · rintro ⟨st, hmem, _, hst⟩
      exact ⟨st, hmem, hst⟩
   rw [hall]
   exact userCheck_exact_iff
 · exact userCheck_exact_iff

def dataSection : SectionWords where
 flags := 0#64
 start := 4096#64
 stop := 8192#64

/--
Without any section a kernel address is accepted; a size that wraps around is
accepted for a section; and the whole of a section is rejected.
-/
theorem user_pointer_checks_wrong :
  (userReadable [] kspaceMask 8#64 = true ∧ userWriteable [] kspaceMask 8#64 = true ∧
    ¬ exists st, st ∈ ([] : List SectionWords) ∧ st.Holds kspaceMask 8#64) ∧
  (userReadable [dataSection] 4096#64 0xffffffffffffffff#64 = true ∧
    userWriteable [dataSection] 4096#64 0xffffffffffffffff#64 = true ∧
    ¬ exists st, st ∈ [dataSection] ∧ st.Holds 4096#64 0xffffffffffffffff#64) ∧
  (userReadable [dataSection] 4096#64 4096#64 = false ∧
    userWriteable [dataSection] 4096#64 4096#64 = false ∧
    dataSection.readOnly = false ∧ dataSection.Holds 4096#64 4096#64) := by
 refine ⟨⟨by decide, by decide, ?_⟩, ⟨by decide, by decide, ?_⟩,
  ⟨by decide, by decide, by decide, ?_⟩⟩
 · rintro ⟨st, hmem, _⟩
   cases hmem
 · rintro ⟨st, hmem, hst⟩
   rw [List.mem_singleton] at hmem
   rw [hmem] at hst
   exact absurd hst.right (by decide)
 · constructor
   · decide
   · decide

end OSLab.Kernel
