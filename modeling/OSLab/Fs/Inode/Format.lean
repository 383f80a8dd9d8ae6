import OSLab.Common.Bitmap
import OSLab.Fs.Layout

/-!
# Inodes on disk

`InodeEntry` and `IndirectBlock` of `fs/defines.h`, which the code overlays on the
bytes of a block, and the layout of the disk around them.
-/

namespace OSLab.Fs
open Foundation Bytes UInt32 UInt16

def swapSize : Nat := 200

def inodeNumDirect : Nat := 12

def inodeNumIndirect : Nat := blockSize / 4

def inodePerBlock : Nat := blockSize / 64

def inodeMaxBlocks : Nat := inodeNumDirect + inodeNumIndirect

def inodeMaxBytes : Nat := inodeMaxBlocks * blockSize

def bitPerBlock : Nat := blockSize * 8

abbrev InodeType := UInt16

def inodeInvalid : InodeType := 0

def inodeRegular : InodeType := 2

def inodeDevice : InodeType := 3

abbrev Blocks := Nat -> BlockData

def zeroBlock : BlockData := fun _ => 0

namespace SuperBlock
variable (sb : SuperBlock)

def dataLimit : Nat := (sb.numBlocks - UInt32.ofNat swapSize).toNat

def toBlockNo (inodeNo : Nat) : Nat :=
 sb.inodeStart.toNat + inodeNo / inodePerBlock

def bitmapBlock (no : Nat) : Nat := no / bitPerBlock + sb.bitmapStart.toNat

end SuperBlock

/-!
# Entries
-/

@[ext]
structure InodeEntry where
 type : InodeType
 major : UInt16
 minor : UInt16
 numLinks : UInt16
 numBytes : UInt32
 addrs : Fin inodeNumDirect -> UInt32
 indirect : UInt32

namespace InodeEntry

def fresh (type : InodeType) : InodeEntry where
 type := type
 major := 0
 minor := 0
 numLinks := 0
 numBytes := 0
 addrs := fun _ => 0
 indirect := 0

variable (e : InodeEntry)

def setDirect (k : Fin inodeNumDirect) (bno : Nat) : InodeEntry :=
 { e with addrs := Function.update e.addrs k (ofNat bno) }

def setTable (bno : Nat) : InodeEntry := { e with indirect := ofNat bno }

def encode (k : Nat) : UInt8 :=
 if k < 2 then leByte e.type.toNat k
 else if k < 4 then leByte e.major.toNat (k - 2)
 else if k < 6 then leByte e.minor.toNat (k - 4)
 else if k < 8 then leByte e.numLinks.toNat (k - 6)
 else if k < 12 then leByte e.numBytes.toNat (k - 8)
 else if h : (k - 12) / 4 < inodeNumDirect then
  leByte (e.addrs ⟨(k - 12) / 4, h⟩).toNat ((k - 12) % 4)
 else leByte e.indirect.toNat (k - 60)

variable (data : BlockData)

def decode (base : Nat) : InodeEntry :=
 let field := fun off width => readLE (byteAt data) (base + off) width
 { type := ofNat (field 0 2)
   major := ofNat (field 2 2)
   minor := ofNat (field 4 2)
   numLinks := ofNat (field 6 2)
   numBytes := ofNat (field 8 4)
   addrs := fun i => ofNat (field (12 + 4 * i.val) 4)
   indirect := ofNat (field 60 4) }

theorem field_encode (e : InodeEntry) (value : Nat)
  {base off width : Nat} (hbase : base + 64 ≤ blockSize) (hoff : off + width ≤ 64)
  (h : forall k, k < width -> e.encode (off + k) = leByte value k) :
  readLE (byteAt (splice data base 64 e.encode)) (base + off)
    width = value % 256 ^ width := by
 apply readLE_of_leByte
 intro k hk
 rw [← h k hk, Nat.add_assoc]
 exact byteAt_splice_inside data _ (by omega) (by omega)

theorem decode_splice_same (e : InodeEntry) {base : Nat} (hbase : base + 64 ≤ blockSize) :
  decode (splice data base 64 e.encode) base = e := by
 have hshort : forall x : UInt16, UInt16.ofNat (x.toNat % 256 ^ 2) = x := by
  intro x
  have hlt : x.toNat < 256 ^ 2 := x.toNat_lt
  rw [Nat.mod_eq_of_lt hlt]
  simp
 have hword : forall x : UInt32, UInt32.ofNat (x.toNat % 256 ^ 4) = x := by
  intro x
  have hlt : x.toNat < 256 ^ 4 := x.toNat_lt
  rw [Nat.mod_eq_of_lt hlt]
  simp
 apply InodeEntry.ext
 · change UInt16.ofNat (readLE _ (base + 0) 2) = e.type
   rw [field_encode data e e.type.toNat hbase (by omega)]
   · exact hshort e.type
   intro k hk
   unfold encode
   simp [hk]
 · change UInt16.ofNat (readLE _ (base + 2) 2) = e.major
   rw [field_encode data e e.major.toNat hbase (by omega)]
   · exact hshort e.major
   intro k hk
   unfold encode
   simp [show 2 + k < 4 by omega, show ¬ 2 + k < 2 by omega]
 · change UInt16.ofNat (readLE _ (base + 4) 2) = e.minor
   rw [field_encode data e e.minor.toNat hbase (by omega)]
   · exact hshort e.minor
   intro k hk
   unfold encode
   simp [show 4 + k < 6 by omega, show ¬ 4 + k < 2 by omega]
 · change UInt16.ofNat (readLE _ (base + 6) 2) = e.numLinks
   rw [field_encode data e e.numLinks.toNat hbase (by omega)]
   · exact hshort e.numLinks
   intro k hk
   unfold encode
   simp [show 6 + k < 8 by omega, show ¬ 6 + k < 2 by omega, show ¬ 6 + k < 4 by omega]
 · change UInt32.ofNat (readLE _ (base + 8) 4) = e.numBytes
   rw [field_encode data e e.numBytes.toNat hbase (by omega)]
   · exact hword e.numBytes
   intro k hk
   unfold encode
   simp [show 8 + k < 12 by omega, show ¬ 8 + k < 2 by omega,
    show ¬ 8 + k < 4 by omega, show ¬ 8 + k < 6 by omega]
 · funext i
   have hi : i.val < 12 := i.isLt
   change UInt32.ofNat (readLE _ (base + (12 + 4 * i.val)) 4) = e.addrs i
   rw [field_encode data e (e.addrs i).toNat hbase (by omega)]
   · exact hword (e.addrs i)
   intro k hk
   have hdiv : (12 + 4 * i.val + k - 12) / 4 = i.val := by omega
   have hmod : (12 + 4 * i.val + k - 12) % 4 = k := by omega
   unfold encode
   simp only [hdiv, hmod]
   simp [show ¬ 12 + 4 * i.val + k < 2 by omega, show ¬ 12 + 4 * i.val + k < 4 by omega,
    show ¬ 12 + 4 * i.val + k < 6 by omega,
    show ¬ 12 + 4 * i.val + k < 8 by omega,
    show ¬ 12 + 4 * i.val + k < 12 by omega]
 change UInt32.ofNat (readLE _ (base + 60) 4) = e.indirect
 rw [field_encode data e e.indirect.toNat hbase (by omega)]
 · exact hword e.indirect
 intro k hk
 unfold encode
 simp [show ¬ 60 + k < 2 by omega, show ¬ 60 + k < 4 by omega,
  show ¬ 60 + k < 6 by omega, show ¬ 60 + k < 8 by omega,
  show ¬ 60 + k < 12 by omega, inodeNumDirect,
  show ¬ (60 + k - 12) / 4 < 12 by omega]

theorem decode_splice_other (e : InodeEntry) {base other : Nat}
  (h : other + 64 ≤ base ∨ base + 64 ≤ other) :
  decode (splice data base 64 e.encode) other = decode data other := by
 have hfield : forall off width, off + width ≤ 64 ->
  readLE (byteAt (splice data base 64 e.encode)) (other + off)
   width = readLE (byteAt data) (other + off) width := by
  intro off width hoff
  apply readLE_splice_outside
  omega
 apply InodeEntry.ext
 · exact congrArg UInt16.ofNat (hfield 0 2 (by omega))
 · exact congrArg UInt16.ofNat (hfield 2 2 (by omega))
 · exact congrArg UInt16.ofNat (hfield 4 2 (by omega))
 · exact congrArg UInt16.ofNat (hfield 6 2 (by omega))
 · exact congrArg UInt32.ofNat (hfield 8 4 (by omega))
 · funext i
   have hi : i.val < 12 := i.isLt
   exact congrArg UInt32.ofNat (hfield (12 + 4 * i.val) 4 (by omega))
 · exact congrArg UInt32.ofNat (hfield 60 4 (by omega))

end InodeEntry

variable (data : BlockData)

def getEntry (inodeNo : Nat) : InodeEntry :=
 InodeEntry.decode data (64 * (inodeNo % inodePerBlock))

def putEntry (inodeNo : Nat) (e : InodeEntry) : BlockData :=
 splice data (64 * (inodeNo % inodePerBlock)) 64 e.encode

theorem getEntry_putEntry_same (inodeNo : Nat) (e : InodeEntry) :
  getEntry (putEntry data inodeNo e) inodeNo = e := by
 apply InodeEntry.decode_splice_same
 unfold inodePerBlock blockSize
 omega

theorem getEntry_putEntry_other {inodeNo other : Nat}
  (e : InodeEntry) (h : other % inodePerBlock ≠ inodeNo % inodePerBlock) :
  getEntry (putEntry data inodeNo e) other = getEntry data other := by
 apply InodeEntry.decode_splice_other
 omega

/-!
# Indirect blocks
-/

def getAddr (k : Nat) : UInt32 := ofNat (readLE (byteAt data) (4 * k) 4)

def setAddr (k : Nat) (addr : UInt32) : BlockData :=
 splice data (4 * k) 4 (leByte addr.toNat)

theorem getAddr_setAddr_same {k : Nat} (addr : UInt32)
  (hk : k < inodeNumIndirect) : getAddr (setAddr data k addr) k = addr := by
 have hlt : addr.toNat < 256 ^ 4 := addr.toNat_lt
 unfold getAddr setAddr
 rw [readLE_splice_leByte, Nat.mod_eq_of_lt hlt]
 · simp
 unfold inodeNumIndirect blockSize at *
 omega

theorem getAddr_setAddr_other {k other : Nat} (addr : UInt32)
  (h : other ≠ k) : getAddr (setAddr data k addr) other = getAddr data other := by
 unfold getAddr setAddr
 rw [readLE_splice_outside]
 omega

theorem readLE_zero (off width : Nat) : readLE (byteAt zeroBlock) off width = 0 := by
 have hbytes : forall k, k < width -> byteAt zeroBlock (off + k) = leByte 0 k := by
  intro k _
  unfold byteAt zeroBlock leByte
  rw [Nat.zero_div]
  split
  · rfl
  · rfl
 rw [readLE_of_leByte hbytes, Nat.zero_mod]

theorem getAddr_zeroBlock (k : Nat) : getAddr zeroBlock k = 0 := by
 unfold getAddr
 rw [readLE_zero]
 rfl

end OSLab.Fs
