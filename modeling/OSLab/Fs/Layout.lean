import OSLab.Foundation.LittleEndian

/-!
# On-disk layout

The constants and the on-disk structures of `fs/defines.h` that the block cache
and its log use: blocks, the super block's description of the log area, and the
log header, which occupies exactly one block.
-/

namespace OSLab.Fs
open Foundation UInt64 Bytes

/-!
# Blocks and devices
-/

def blockSize : Nat := 512

abbrev BlockData := Bytes blockSize

abbrev BlockNo := UInt64

abbrev Device := BlockNo -> BlockData

def Device.write (dev : Device) (no : BlockNo) (data : BlockData) : Device :=
 fun other => if other = no then data else dev other

@[simp] theorem Device.write_same (dev : Device) (no : BlockNo)
  (data : BlockData) : dev.write no data no = data := by
 simp [Device.write]

theorem Device.write_other (dev : Device) {no other : BlockNo}
  (data : BlockData) (h : other ≠ no) : dev.write no data other = dev other := by
 simp [Device.write, h]

/-!
# Super block
-/

structure SuperBlock where
 numBlocks : UInt32
 numInodes : UInt32
 numLogBlocks : UInt32
 logStart : UInt32
 inodeStart : UInt32
 bitmapStart : UInt32

structure LogLayout extends SuperBlock where
 log_nonempty : 0 < numLogBlocks.toNat
 log_on_disk : logStart.toNat + numLogBlocks.toNat ≤ numBlocks.toNat

instance : Coe LogLayout SuperBlock := ⟨LogLayout.toSuperBlock⟩

def mkfsLayout : LogLayout where
 numBlocks := 1000
 numInodes := 200
 numLogBlocks := 63
 logStart := 2
 inodeStart := 65
 bitmapStart := 91
 log_nonempty := by decide
 log_on_disk := by decide

/-- `LOG_MAX_SIZE`: the number of block numbers that fit in the log header. -/
def logMaxSize : Nat := (blockSize - 8) / 8

def opMaxNumBlocks : Nat := 10

def evictionThreshold : Nat := 20

variable (sb : SuperBlock)

/-- The value `init_bcache` gives to `log.max_size`; the difference is a `u32`. -/
def SuperBlock.maxLogSize : Nat := min (sb.numLogBlocks - 1).toNat logMaxSize

def SuperBlock.headerBlock : BlockNo := ofNat sb.logStart.toNat

/-- `log_start + 1 + i`, whose first sum is taken in `u32`. -/
def SuperBlock.logSlot (i : Nat) : BlockNo := ofNat ((sb.logStart + 1).toNat + i)

/-- `log_start + i + 1`, as `recover_from_log` writes it. -/
def SuperBlock.recoverySlot (i : Nat) : BlockNo :=
 ofNat (sb.logStart.toNat + i + 1)

def SuperBlock.InLog (no : BlockNo) : Prop :=
 sb.logStart.toNat ≤ no.toNat ∧ no.toNat < sb.logStart.toNat + sb.numLogBlocks.toNat

instance (sb : SuperBlock) (no : BlockNo) : Decidable (sb.InLog no) := by
 unfold SuperBlock.InLog
 infer_instance

theorem SuperBlock.maxLogSize_le : sb.maxLogSize ≤ logMaxSize :=
 Nat.min_le_right _ _

namespace LogLayout
variable (sb : LogLayout)

theorem maxLogSize_lt_numLogBlocks : sb.maxLogSize < sb.numLogBlocks.toNat := by
 have hle : sb.maxLogSize ≤ (sb.numLogBlocks - 1).toNat := Nat.min_le_left _ _
 have hsub : (sb.numLogBlocks - 1).toNat = sb.numLogBlocks.toNat - 1 := by
  apply UInt32.toNat_sub_of_le
  rw [UInt32.le_iff_toNat_le]
  exact sb.log_nonempty
 have hpos := sb.log_nonempty
 omega

theorem headerBlock_toNat : sb.headerBlock.toNat = sb.logStart.toNat := by
 have hlt : sb.logStart.toNat < 2 ^ 32 := UInt32.toNat_lt _
 unfold SuperBlock.headerBlock
 rw [toNat_ofNat_of_lt']
 exact Nat.lt_trans hlt (by decide)

theorem headerBlock_inLog : sb.InLog sb.headerBlock := by
 have hpos := sb.log_nonempty
 unfold SuperBlock.InLog
 rw [sb.headerBlock_toNat]
 omega

variable {i : Nat}

section
variable (hi : i < sb.maxLogSize)
include hi

theorem recoverySlot_toNat : (sb.recoverySlot i).toNat = sb.logStart.toNat + 1 + i := by
 have hroom := sb.maxLogSize_lt_numLogBlocks
 have hdisk := sb.log_on_disk
 have hlt : sb.numBlocks.toNat < 2 ^ 32 := UInt32.toNat_lt _
 unfold SuperBlock.recoverySlot
 rw [toNat_ofNat_of_lt']
 · omega
 have hbig : (2 : Nat) ^ 32 < size := by decide
 omega

theorem recoverySlot_eq_logSlot : sb.recoverySlot i = sb.logSlot i := by
 have hroom := sb.maxLogSize_lt_numLogBlocks
 have hdisk := sb.log_on_disk
 have hlt : sb.numBlocks.toNat < 2 ^ 32 := UInt32.toNat_lt _
 have hstart : (sb.logStart + 1).toNat = sb.logStart.toNat + 1 := by
  rw [UInt32.toNat_add]
  exact Nat.mod_eq_of_lt (by
   change sb.logStart.toNat + 1 < 2 ^ 32
   omega)
 unfold SuperBlock.recoverySlot SuperBlock.logSlot
 rw [hstart]
 congr 1
 omega

theorem logSlot_toNat : (sb.logSlot i).toNat = sb.logStart.toNat + 1 + i := by
 rw [← sb.recoverySlot_eq_logSlot hi, sb.recoverySlot_toNat hi]

theorem logSlot_inLog : sb.InLog (sb.logSlot i) := by
 have hroom := sb.maxLogSize_lt_numLogBlocks
 unfold SuperBlock.InLog
 rw [sb.logSlot_toNat hi]
 omega

theorem logSlot_ne_headerBlock : sb.logSlot i ≠ sb.headerBlock := by
 intro heq
 have hnat := congrArg toNat heq
 rw [sb.logSlot_toNat hi, sb.headerBlock_toNat] at hnat
 omega
end

theorem logSlot_injective {i j : Nat} (hi : i < sb.maxLogSize)
  (hj : j < sb.maxLogSize) (h : sb.logSlot i = sb.logSlot j) : i = j := by
 have hnat := congrArg toNat h
 rw [sb.logSlot_toNat hi, sb.logSlot_toNat hj] at hnat
 omega

end LogLayout

/-!
# Log header

`LogHeader` is a count followed by `LOG_MAX_SIZE` block numbers, each a
little-endian `usize`.  It is written by copying the struct to a block.
-/

structure LogHeader where
 numBlocks : Nat
 blockNo : Nat -> BlockNo

namespace LogHeader
variable (header : LogHeader)

def word (k : Nat) : Nat :=
 if k = 0 then header.numBlocks else (header.blockNo (k - 1)).toNat

def encode : BlockData := fun i => leByte (header.word (i.val / 8)) (i.val % 8)

def decode (data : BlockData) : LogHeader where
 numBlocks := readLE (byteAt data) 0 8
 blockNo := fun i =>
  ofNat (readLE (byteAt data) (8 * (i + 1)) 8)

theorem readLE_encode {k : Nat} (hk : k ≤ logMaxSize) :
  readLE (byteAt header.encode) (8 * k) 8 = header.word k % 2 ^ 64 := by
 have hpow : (256 : Nat) ^ 8 = 2 ^ 64 := by norm_num
 rw [← hpow]
 apply readLE_of_leByte
 intro j hj
 have hsize : 8 * k + j < blockSize := by
  have hmax : logMaxSize = 63 := rfl
  have hblock : blockSize = 512 := rfl
  omega
 rw [byteAt_lt _ hsize]
 unfold encode
 rw [show (8 * k + j) / 8 = k by omega, show (8 * k + j) % 8 = j by omega]

theorem decode_encode_numBlocks (h : header.numBlocks ≤ logMaxSize) :
  (decode header.encode).numBlocks = header.numBlocks := by
 have hread := readLE_encode header (Nat.zero_le logMaxSize)
 unfold decode
 rw [Nat.mul_zero] at hread
 rw [hread]
 have hmax : logMaxSize = 63 := rfl
 have hword : header.word 0 = header.numBlocks := by simp [word]
 rw [hword, Nat.mod_eq_of_lt (by omega)]

theorem decode_encode_blockNo {i : Nat} (hi : i < logMaxSize) :
  (decode header.encode).blockNo i = header.blockNo i := by
 have hread := readLE_encode header (k := i + 1) hi
 unfold decode
 simp only
 rw [hread]
 have hword : header.word (i + 1) = (header.blockNo i).toNat := by simp [word]
 rw [hword, Nat.mod_eq_of_lt (toNat_lt _)]
 simp

end OSLab.Fs.LogHeader
