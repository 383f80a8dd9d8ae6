import OSLab.Foundation.LittleEndian
import Mathlib.Data.BitVec

/-!
# Bitmaps

The bitmaps of `common/bitmap.h`: a buffer is read as an array of 64-bit cells.
-/

namespace OSLab.Common
open Foundation BitVec

abbrev BitmapCell := BitVec 64

def bitsPerCell : Nat := 64

variable {size : Nat}
variable (buf : Bytes size)

def cellAt (idx : Nat) : BitmapCell :=
 BitVec.ofNat 64 (Bytes.readLE (Bytes.byteAt buf) (8 * idx) 8)

def setCell (idx : Nat) (cell : BitmapCell) : Bytes size :=
 Bytes.splice buf (8 * idx) 8 (Bytes.leByte cell.toNat)

def bit (offset : Nat) : BitmapCell := 1#64 <<< offset

variable (bitmap : Bytes size)

def bitmapGet (index : Nat) : Bool :=
 (cellAt bitmap (index / bitsPerCell) >>> (index % bitsPerCell)) &&& 1#64 != 0#64

def bitmapSet (index : Nat) : Bytes size :=
 setCell bitmap (index / bitsPerCell)
  (cellAt bitmap (index / bitsPerCell) ||| bit (index % bitsPerCell))

def bitmapClear (index : Nat) : Bytes size :=
 setCell bitmap (index / bitsPerCell)
  (cellAt bitmap (index / bitsPerCell) &&& ~~~(bit (index % bitsPerCell)))

/-!
# Cells
-/

def InBitmap (size index : Nat) : Prop := 8 * (index / bitsPerCell) + 8 ≤ size

theorem cellAt_setCell_same {idx : Nat} (cell : BitmapCell)
  (h : 8 * idx + 8 ≤ size) : cellAt (setCell buf idx cell) idx = cell := by
 unfold cellAt setCell
 rw [Bytes.readLE_splice_leByte buf h]
 have hcell : cell.toNat < 256 ^ 8 := by
  have hlt := cell.isLt
  norm_num at hlt ⊢
  exact hlt
 rw [Nat.mod_eq_of_lt hcell, ofNat_toNat, setWidth_eq]

theorem cellAt_setCell_other {idx other : Nat} (cell : BitmapCell) (h : other ≠ idx) :
  cellAt (setCell buf idx cell) other = cellAt buf other := by
 unfold cellAt setCell
 rw [Bytes.readLE_splice_outside]
 omega

variable {i : Nat}

theorem bit_getLsbD (offset : Nat) (hi : i < 64) :
  (bit offset).getLsbD i = decide (i = offset) := by
 unfold bit
 rw [getLsbD_shiftLeft, getLsbD_one]
 by_cases heq : i = offset
 · rw [heq] at hi
   simp [hi, heq]
 by_cases hlt : i < offset
 · simp [hlt, heq]
 have hne : i - offset ≠ 0 := by omega
 simp [hne, heq]

theorem bitmapGet_eq (index : Nat) : bitmapGet bitmap index =
    (cellAt bitmap (index / bitsPerCell)).getLsbD (index % bitsPerCell) := by
 unfold bitmapGet
 rw [and_one_eq_setWidth_ofBool_getLsbD, getLsbD_ushiftRight, Nat.add_zero]
 cases (cellAt bitmap (index / bitsPerCell)).getLsbD (index % bitsPerCell) with
 | false | true => rfl

theorem index_eq_iff {i j : Nat} (hcell : i / bitsPerCell = j / bitsPerCell) :
  i % bitsPerCell = j % bitsPerCell ↔ i = j := by
 unfold bitsPerCell at *
 omega

/-!
# Bits
-/

theorem bitmapGet_set (j : Nat) (h : InBitmap size i) :
  bitmapGet (bitmapSet bitmap i) j = (decide (j = i) || bitmapGet bitmap j) := by
 rw [bitmapGet_eq, bitmapGet_eq]
 unfold bitmapSet
 by_cases hcell : j / bitsPerCell = i / bitsPerCell
 · have hlt : j % bitsPerCell < 64 := Nat.mod_lt _ (by decide)
   rw [hcell, cellAt_setCell_same _ _ h, getLsbD_or, bit_getLsbD _ hlt]
   simp only [index_eq_iff hcell]
   exact Bool.or_comm _ _
 have hne : j ≠ i := by
  rintro rfl
  exact hcell rfl
 rw [cellAt_setCell_other _ _ hcell]
 simp [hne]

theorem bitmapGet_clear (j : Nat) (h : InBitmap size i) :
  bitmapGet (bitmapClear bitmap i) j = (!decide (j = i) && bitmapGet bitmap j) := by
 rw [bitmapGet_eq, bitmapGet_eq]
 unfold bitmapClear
 by_cases hcell : j / bitsPerCell = i / bitsPerCell
 · have hlt : j % bitsPerCell < 64 := Nat.mod_lt _ (by decide)
   rw [hcell, cellAt_setCell_same _ _ h, getLsbD_and, getLsbD_not, bit_getLsbD _ hlt]
   simp only [hlt, decide_true, Bool.true_and, index_eq_iff hcell]
   exact Bool.and_comm _ _
 have hne : j ≠ i := by
  rintro rfl
  exact hcell rfl
 rw [cellAt_setCell_other _ _ hcell]
 simp [hne]

end OSLab.Common
