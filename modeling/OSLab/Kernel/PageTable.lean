import Mathlib.Data.BitVec

/-!
# Page table entries

The entries of `aarch64/mmu.h`: the number of a physical page in the middle and
flags around it.
-/

namespace OSLab.Kernel
open BitVec

abbrev Frame := BitVec 36

abbrev Vpn := BitVec 36

abbrev PTEntry := BitVec 64

def pageSize : Nat := 4096

def pteFlagMask : BitVec 64 := 0xFFFF000000000FFF#64

def pteValid : BitVec 64 := 0x1#64

def pteUser : BitVec 64 := 0x40#64

def pteRO : BitVec 64 := 0x80#64

/-- `PTE_USER_DATA`, which is `PTE_USER | PTE_NORMAL | PTE_PAGE`. -/
def pteUserData : BitVec 64 := 0x647#64

variable (pte : PTEntry)

def pteAddress : BitVec 64 := pte &&& ~~~pteFlagMask

def pteFlags : BitVec 64 := pte &&& pteFlagMask

def pteFrame : Frame := (pteAddress pte >>> 12).setWidth 36

variable (f : Frame)

/-- The entry that `vmmap` writes: the address of the page with the flags. -/
def mkPte (flags : BitVec 64) : PTEntry := (f.setWidth 64 <<< 12) ||| flags

def isValid : Bool := pte &&& pteValid != 0#64

def isRO : Bool := pteFlags pte &&& pteRO != 0#64

def isUser : Bool := pteFlags pte &&& pteUser != 0#64

/-!
# Reading back what was written
-/

variable {i : Nat}

theorem pteFlagMask_getLsbD (hi : i < 64) :
  pteFlagMask.getLsbD i = (decide (i < 12) || decide (48 ≤ i)) := by
 revert i
 decide

theorem pteFlags_getLsbD (hi : i < 64) : (pteFlags pte).getLsbD i =
    (pte.getLsbD i && (decide (i < 12) || decide (48 ≤ i))) := by
 unfold pteFlags
 rw [getLsbD_and, pteFlagMask_getLsbD hi]

theorem mkPte_getLsbD (flags : BitVec 64) (hi : i < 64) : (mkPte f flags).getLsbD i =
    ((decide (12 ≤ i) && f.getLsbD (i - 12)) || flags.getLsbD i) := by
 have hlow : (!decide (i < 12)) = decide (12 ≤ i) := by
  by_cases hlt : i < 12
  · simp [hlt]
  have hle : 12 ≤ i := by omega
  simp [hlt, hle]
 simp [mkPte, hi, hlow]

theorem pteFrame_getLsbD (hi : i < 36) : (pteFrame pte).getLsbD i = pte.getLsbD (12 + i) := by
 have hword : 12 + i < 64 := by omega
 have hhigh : ¬ 48 ≤ 12 + i := by omega
 unfold pteFrame pteAddress
 rw [getLsbD_setWidth, getLsbD_ushiftRight, getLsbD_and,
  getLsbD_not, pteFlagMask_getLsbD hword]
 simp [hi, hword, hhigh]

def FlagsOnly (flags : BitVec 64) : Prop := pteFlags flags = flags

instance (flags : BitVec 64) : Decidable (FlagsOnly flags) := inferInstanceAs (Decidable (_ = _))

theorem flagsOnly_pteFlags : FlagsOnly (pteFlags pte) := by
 unfold FlagsOnly pteFlags
 rw [BitVec.and_assoc, BitVec.and_self]

theorem flagsOnly_or {flags more : BitVec 64} (h : FlagsOnly flags)
  (hmore : FlagsOnly more) : FlagsOnly (flags ||| more) := by
 apply eq_of_getLsbD_eq
 intro i hi
 have hone := congrArg (fun x => x.getLsbD i) h
 have htwo := congrArg (fun x => x.getLsbD i) hmore
 simp only [pteFlags_getLsbD _ hi] at hone htwo
 rw [pteFlags_getLsbD _ hi, getLsbD_or, Bool.and_or_distrib_right, hone, htwo]

theorem flagsOnly_ro : FlagsOnly pteRO := by
 decide

theorem flagsOnly_userData : FlagsOnly pteUserData := by
 decide

variable {flags : BitVec 64}

section
variable (h : FlagsOnly flags)
include h

theorem flags_middle (hlow : 12 ≤ i) (hhigh : i < 48) : flags.getLsbD i = false := by
 have hbit := congrArg (fun x => x.getLsbD i) h
 simp only [pteFlags_getLsbD flags (by omega : i < 64)] at hbit
 rw [← hbit]
 have hnot : ¬ i < 12 := by omega
 have hnot' : ¬ 48 ≤ i := by omega
 simp [hnot, hnot']

theorem pteFrame_mkPte : pteFrame (mkPte f flags) = f := by
 apply eq_of_getLsbD_eq
 intro i hi
 rw [pteFrame_getLsbD _ hi, mkPte_getLsbD _ _ (by omega), flags_middle h (by omega) (by omega)]
 simp

theorem pteFlags_mkPte : pteFlags (mkPte f flags) = flags := by
 apply eq_of_getLsbD_eq
 intro i hi
 rw [pteFlags_getLsbD _ hi, mkPte_getLsbD _ _ hi]
 by_cases hlow : i < 12
 · have hnot : ¬ 12 ≤ i := by omega
   simp [hlow, hnot]
 by_cases hhigh : 48 ≤ i
 · have hzero : f.getLsbD (i - 12) = false := getLsbD_of_ge f (i - 12) (by omega)
   simp [hhigh, hzero]
 rw [flags_middle h (by omega) (by omega)]
 simp [hlow, hhigh]
end

theorem isValid_flags : isValid pte = isValid (pteFlags pte) := by
 unfold isValid pteFlags
 rw [BitVec.and_assoc]
 rfl

theorem isValid_mkPte (h : FlagsOnly flags) : isValid (mkPte f flags) = isValid flags := by
 rw [isValid_flags, pteFlags_mkPte f h]

theorem isValid_or (more : BitVec 64) (h : isValid flags) : isValid (flags ||| more) := by
 unfold isValid at h ⊢
 rw [bne_iff_ne] at h ⊢
 intro hzero
 apply h
 apply eq_of_getLsbD_eq
 intro i hi
 have hbit := congrArg (fun x => x.getLsbD i) hzero
 simp only [getLsbD_and, getLsbD_or, getLsbD_zero] at hbit ⊢
 cases hvalid : pteValid.getLsbD i with
 | false => simp
 | true =>
  rw [hvalid, Bool.and_true, Bool.or_eq_false_iff] at hbit
  rw [hbit.left]
  rfl

theorem not_valid_zero : isValid 0#64 = false := by
 decide

end OSLab.Kernel
