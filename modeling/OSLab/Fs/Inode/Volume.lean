import OSLab.Foundation.Ownership
import OSLab.Fs.Inode.Format

/-!
# Volumes

What the blocks of a disk mean: a bit for every block, an entry for every inode,
and the contents of the data blocks.  The layout keeps the three apart, so writing
one block changes one of them.
-/

namespace OSLab.Fs
open Foundation Function SuperBlock

/--
The layout of `fs/defines.h`: inode blocks, then bitmap blocks, then the data
blocks from `dataStart` on, the last of which are for swapping.
-/
structure DiskLayout extends SuperBlock where
 dataStart : Nat
 inode_area : inodeStart.toNat + (numInodes.toNat + (inodePerBlock - 1)) / inodePerBlock ≤
  bitmapStart.toNat
 bitmap_area : bitmapStart.toNat + (numBlocks.toNat + (bitPerBlock - 1)) / bitPerBlock ≤ dataStart
 data_area : dataStart ≤ numBlocks.toNat
 swap_area : swapSize ≤ numBlocks.toNat

instance : Coe DiskLayout SuperBlock := ⟨DiskLayout.toSuperBlock⟩

namespace DiskLayout
variable (sb : DiskLayout)

theorem dataLimit_le : sb.dataLimit ≤ sb.numBlocks.toNat := by
 have hswap := sb.swap_area
 unfold dataLimit
 rw [UInt32.toNat_sub_of_le]
 · omega
 rw [UInt32.le_iff_toNat_le]
 exact hswap

theorem bitmapBlock_lt {no : Nat} (h : no < sb.numBlocks.toNat) :
  sb.bitmapBlock no < sb.dataStart := by
 have harea := sb.bitmap_area
 unfold bitmapBlock bitPerBlock blockSize at *
 omega

theorem toBlockNo_lt {i : Nat} (h : i < sb.numInodes.toNat) (no : Nat) :
  sb.toBlockNo i < sb.bitmapBlock no := by
 have harea := sb.inode_area
 have hnat := Nat.zero_le (no / bitPerBlock)
 unfold toBlockNo bitmapBlock inodePerBlock blockSize at *
 omega

theorem numBlocks_pos : 0 < sb.numBlocks.toNat := Nat.lt_of_lt_of_le (by decide) sb.swap_area

theorem toBlockNo_lt_dataStart {i : Nat} (h : i < sb.numInodes.toNat) :
  sb.toBlockNo i < sb.dataStart :=
 Nat.lt_trans (sb.toBlockNo_lt h 0) (sb.bitmapBlock_lt sb.numBlocks_pos)

theorem dataStart_pos : 0 < sb.dataStart :=
 Nat.lt_of_le_of_lt (Nat.zero_le _) (sb.bitmapBlock_lt sb.numBlocks_pos)

end DiskLayout

/-!
# Slots

An inode has a slot for every block of its file and one for its table of indirect
addresses.
-/

inductive Slot where
 | block (k : Nat)
 | table
deriving DecidableEq

abbrev Owner := Nat × Slot

namespace InodeEntry

def blockAddr (e : InodeEntry) (data : Blocks) (k : Nat) : Nat :=
 if h : k < inodeNumDirect then
  (e.addrs ⟨k, h⟩).toNat
 else if e.indirect ≠ 0 ∧ k < inodeMaxBlocks then
  (getAddr (data e.indirect.toNat) (k - inodeNumDirect)).toNat
 else
  0

def slotAddr (e : InodeEntry) (data : Blocks) : Slot -> Nat
 | .block k => e.blockAddr data k
 | .table => e.indirect.toNat

variable {e : InodeEntry} {data : Blocks} {k : Nat}

theorem blockAddr_direct (h : k < inodeNumDirect) : e.blockAddr data k = (e.addrs ⟨k, h⟩).toNat :=
 dif_pos h

theorem blockAddr_indirect (hlow : ¬ k < inodeNumDirect) (hk : k < inodeMaxBlocks)
  (htable : e.indirect ≠ 0) :
  e.blockAddr data k = (getAddr (data e.indirect.toNat) (k - inodeNumDirect)).toNat := by
 unfold blockAddr
 rw [dif_neg hlow, if_pos ⟨htable, hk⟩]

theorem blockAddr_noTable (hlow : ¬ k < inodeNumDirect) (htable : e.indirect = 0) :
  e.blockAddr data k = 0 := by
 unfold blockAddr
 rw [dif_neg hlow, if_neg]
 intro h
 exact h.left htable

theorem blockAddr_beyond (hk : ¬ k < inodeMaxBlocks) : e.blockAddr data k = 0 := by
 have hlow : ¬ k < inodeNumDirect := by
  unfold inodeMaxBlocks at hk
  omega
 unfold blockAddr
 rw [dif_neg hlow, if_neg]
 intro h
 exact hk h.right

theorem slotAddr_congr {other : Blocks}
  (h : e.indirect ≠ 0 -> data e.indirect.toNat = other e.indirect.toNat)
  (slot : Slot) : e.slotAddr data slot = e.slotAddr other slot := by
 cases slot with
 | block k =>
  unfold slotAddr blockAddr
  by_cases htable : e.indirect = 0
  · simp [htable]
  · rw [h htable]
 | table => rfl

theorem slotAddr_none (haddrs : forall k, e.addrs k = 0) (htable : e.indirect = 0)
  (slot : Slot) : e.slotAddr data slot = 0 := by
 cases slot with
 | block k =>
  change e.blockAddr data k = 0
  by_cases hk : k < inodeNumDirect
  · rw [blockAddr_direct hk, haddrs]
    rfl
  · exact blockAddr_noTable hk htable
 | table =>
  change e.indirect.toNat = 0
  rw [htable]
  rfl

end InodeEntry

@[ext]
structure Volume where
 bit : Nat -> Bool
 entry : Nat -> InodeEntry
 data : Blocks

def volumeOf (sb : SuperBlock) (blocks : Blocks) : Volume where
 bit := fun no => Common.bitmapGet (blocks (sb.bitmapBlock no)) (no % bitPerBlock)
 entry := fun i => getEntry (blocks (sb.toBlockNo i)) i
 data := blocks

namespace Volume
variable (sb : SuperBlock)

def Active (v : Volume) (i : Nat) : Prop :=
 i < sb.numInodes.toNat ∧ (v.entry i).type ≠ inodeInvalid

instance (sb : SuperBlock) (v : Volume) (i : Nat) : Decidable (v.Active sb i) :=
 inferInstanceAs (Decidable (_ ∧ _))

def addr (v : Volume) (x : Owner) : Nat :=
 if v.Active sb x.1 then (v.entry x.1).slotAddr v.data x.2 else 0

def fileBlock (v : Volume) (i k : Nat) : BlockData :=
 if v.addr sb (i, .block k) = 0 then
  zeroBlock
 else
  v.data (v.addr sb (i, .block k))

/--
Block ownership: every address stored for an allocated inode is stored once and
its bit is set, and every data block below the swap area whose bit is set is
stored for one.
-/
def Fsck (sb : DiskLayout) (v : Volume) : Prop :=
 Owns (v.addr sb) v.bit sb.dataStart sb.dataLimit

variable (v : Volume)

def setEntry (i : Nat) (e : InodeEntry) : Volume :=
 { v with entry := update v.entry i e }

def setData (no : Nat) (data : BlockData) : Volume :=
 { v with data := update v.data no data }

def take (no : Nat) : Volume :=
 { v with
   bit := update v.bit no true
   data := update v.data no zeroBlock }

def free (no : Nat) : Volume := { v with bit := update v.bit no false }

end Volume

/-!
# Blocks and volumes
-/

structure Represents (sb : DiskLayout) (blocks : Blocks) (v : Volume) : Prop where
 bit : forall no, no < sb.numBlocks.toNat -> (volumeOf sb blocks).bit no = v.bit no
 entry : forall i, i < sb.numInodes.toNat -> (volumeOf sb blocks).entry i = v.entry i
 data : forall no, sb.dataStart ≤ no -> blocks no = v.data no

variable {sb : DiskLayout} {blocks : Blocks} {v : Volume}

theorem represents_volumeOf (sb : DiskLayout) (blocks : Blocks) :
  Represents sb blocks (volumeOf sb blocks) where
 bit := fun _ _ => rfl
 entry := fun _ _ => rfl
 data := fun _ _ => rfl

section
variable (h : Represents sb blocks v)
include h

variable {no : Nat}

section
variable (hno : no < sb.numBlocks.toNat)
include hno

theorem represents_bit {x : Bool} {bitmap : BlockData}
  (hbitmap : forall j, Common.bitmapGet bitmap j = if j = no % bitPerBlock then x
    else Common.bitmapGet (blocks (sb.bitmapBlock no)) j) :
  Represents sb (update blocks (sb.bitmapBlock no) bitmap) { v with bit := update v.bit no x } where
 bit := by
  intro other hother
  have hold := h.bit other hother
  unfold volumeOf at hold ⊢
  simp only at hold ⊢
  by_cases hblock : sb.bitmapBlock other = sb.bitmapBlock no
  · rw [hblock, update_self, hbitmap]
    by_cases heq : other = no
    · rw [heq, if_pos rfl, update_self]
    have hmod : other % bitPerBlock ≠ no % bitPerBlock := by
     intro hmod
     apply heq
     unfold bitmapBlock bitPerBlock blockSize at *
     omega
    rw [if_neg hmod, update_of_ne heq, ← hblock]
    exact hold
  have hne : other ≠ no := by
   rintro rfl
   exact hblock rfl
  rw [update_of_ne hblock, update_of_ne hne]
  exact hold
 entry := by
  intro i hi
  have hold := h.entry i hi
  unfold volumeOf at hold ⊢
  simp only at hold ⊢
  rw [update_of_ne (Nat.ne_of_lt (sb.toBlockNo_lt hi no))]
  exact hold
 data := by
  intro other hother
  have hlt := sb.bitmapBlock_lt hno
  rw [update_of_ne (by omega)]
  exact h.data other hother

theorem represents_bitmapSet : Represents sb (update blocks (sb.bitmapBlock no)
      (Common.bitmapSet (blocks (sb.bitmapBlock no)) (no % bitPerBlock)))
    { v with bit := update v.bit no true } := by
 apply represents_bit h hno
 intro j
 rw [Common.bitmapGet_set]
 · by_cases heq : j = no % bitPerBlock
   · simp [heq]
   · simp [heq]
 unfold Common.InBitmap Common.bitsPerCell bitPerBlock blockSize
 omega

theorem represents_bitmapClear : Represents sb (update blocks (sb.bitmapBlock no)
      (Common.bitmapClear (blocks (sb.bitmapBlock no)) (no % bitPerBlock)))
    (v.free no) := by
 apply represents_bit h hno
 intro j
 rw [Common.bitmapGet_clear]
 · by_cases heq : j = no % bitPerBlock
   · simp [heq]
   · simp [heq]
 unfold Common.InBitmap Common.bitsPerCell bitPerBlock blockSize
 omega
end

theorem represents_putEntry {i : Nat} (hi : i < sb.numInodes.toNat) (e : InodeEntry) :
  Represents sb (update blocks (sb.toBlockNo i) (putEntry (blocks (sb.toBlockNo i)) i e))
    (v.setEntry i e) where
 bit := by
  intro no hno
  have hold := h.bit no hno
  unfold volumeOf at hold ⊢
  simp only at hold ⊢
  rw [update_of_ne (Nat.ne_of_gt (sb.toBlockNo_lt hi no))]
  exact hold
 entry := by
  intro j hj
  have hold := h.entry j hj
  unfold volumeOf Volume.setEntry at *
  simp only at hold ⊢
  by_cases heq : j = i
  · rw [heq, update_self, update_self, getEntry_putEntry_same]
  rw [update_of_ne heq, ← hold]
  by_cases hblock : sb.toBlockNo j = sb.toBlockNo i
  · rw [hblock, update_self, getEntry_putEntry_other]
    intro hmod
    apply heq
    unfold toBlockNo inodePerBlock blockSize at *
    omega
  · rw [update_of_ne hblock]
 data := by
  intro no hno
  have hlow := sb.toBlockNo_lt_dataStart hi
  rw [update_of_ne (by omega)]
  exact h.data no hno

theorem represents_setData (hno : sb.dataStart ≤ no) (data : BlockData) :
  Represents sb (update blocks no data) (v.setData no data) where
 bit := by
  intro other hother
  have hold := h.bit other hother
  have hlt := sb.bitmapBlock_lt hother
  unfold volumeOf at hold ⊢
  simp only at hold ⊢
  rw [update_of_ne (by omega)]
  exact hold
 entry := by
  intro i hi
  have hold := h.entry i hi
  have hlow := sb.toBlockNo_lt_dataStart hi
  unfold volumeOf at hold ⊢
  simp only at hold ⊢
  rw [update_of_ne (by omega)]
  exact hold
 data := by
  intro other hother
  unfold Volume.setData
  simp only
  by_cases heq : other = no
  · rw [heq, update_self, update_self]
  rw [update_of_ne heq, update_of_ne heq]
  exact h.data other hother
end

end OSLab.Fs
