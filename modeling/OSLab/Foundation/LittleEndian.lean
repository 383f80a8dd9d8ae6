import Mathlib.Tactic.Common
import Mathlib.Tactic.Ring
import Mathlib.Data.Nat.ModEq

/-!
# Byte buffers and little-endian fields

On-disk structures are read and written by overlaying C structs on byte
buffers.  A buffer is a function on its finite index type.  This module
describes copying a range of bytes into a buffer and reading a little-endian
number out of it, with the two facts a field needs: reading back what was
written, and not seeing what was written elsewhere.
-/

namespace OSLab.Foundation

abbrev Bytes (size : Nat) := Fin size -> UInt8

namespace Bytes
variable {size : Nat}
variable (buf : Bytes size)

def byteAt (off : Nat) : UInt8 := if h : off < size then buf ⟨off, h⟩ else 0

def splice (off len : Nat) (src : Nat -> UInt8) : Bytes size :=
 fun i => if off ≤ i.val ∧ i.val < off + len then src (i.val - off) else buf i

theorem byteAt_lt {off : Nat} (h : off < size) :
  byteAt buf off = buf ⟨off, h⟩ := by
 rw [byteAt, dif_pos h]

theorem byteAt_splice_inside {off len k : Nat}
  (src : Nat -> UInt8) (hk : k < len) (hsize : off + k < size) :
  byteAt (splice buf off len src) (off + k) = src k := by
 rw [byteAt_lt _ hsize]
 unfold splice
 rw [if_pos ⟨by simp, by simp; omega⟩]
 simp

theorem byteAt_splice_outside {off len k : Nat}
  (src : Nat -> UInt8) (hk : k < off ∨ off + len ≤ k) :
  byteAt (splice buf off len src) k = byteAt buf k := by
 unfold byteAt
 by_cases h : k < size
 · rw [dif_pos h, dif_pos h]
   unfold splice
   rw [if_neg]
   intro hin
   simp only at hin
   omega
 · rw [dif_neg h, dif_neg h]

/-!
# Little-endian numbers
-/

def readLE (bytes : Nat -> UInt8) (off : Nat) : Nat -> Nat
 | 0 => 0
 | width + 1 => (bytes off).toNat + 256 * readLE bytes (off + 1) width

def leByte (value k : Nat) : UInt8 := UInt8.ofNat (value / 256 ^ k)

theorem readLE_congr {bytes other : Nat -> UInt8} {off width : Nat}
  (h : forall k, k < width -> bytes (off + k) = other (off + k)) :
  readLE bytes off width = readLE other off width := by
 induction width generalizing off with
 | zero => rfl
 | succ width ih =>
  have hhead := h 0 (by omega)
  have htail : readLE bytes (off + 1) width = readLE other (off + 1) width := by
   apply ih
   intro k hk
   have hk' := h (k + 1) (by omega)
   rwa [show off + (k + 1) = off + 1 + k by omega] at hk'
  rw [readLE, readLE, htail]
  rw [Nat.add_zero] at hhead
  rw [hhead]

theorem leByte_toNat (value k : Nat) : (leByte value k).toNat = value / 256 ^ k % 256 := by
 simp [leByte]

variable {off width value : Nat}

theorem readLE_of_leByte {bytes : Nat -> UInt8}
  (h : forall k, k < width -> bytes (off + k) = leByte value k) :
  readLE bytes off width = value % 256 ^ width := by
 induction width generalizing off value with
 | zero => simp [readLE, Nat.mod_one]
 | succ width ih =>
  have hhead : (bytes off).toNat = value % 256 := by
   have h0 := h 0 (by omega)
   rw [Nat.add_zero] at h0
   rw [h0, leByte_toNat]
   simp
  have htail : readLE bytes (off + 1) width = value / 256 % 256 ^ width := by
   apply ih
   intro k hk
   have hk' := h (k + 1) (by omega)
   rw [show off + (k + 1) = off + 1 + k by omega] at hk'
   rw [hk']
   simp only [leByte, pow_succ]
   rw [Nat.mul_comm, Nat.div_div_eq_div_mul]
  rw [readLE, hhead, htail, pow_succ, Nat.mul_comm (256 ^ width) 256, Nat.mod_mul]

theorem readLE_splice_outside {off len at' width : Nat}
  (src : Nat -> UInt8) (h : at' + width ≤ off ∨ off + len ≤ at') :
  readLE (byteAt (splice buf off len src)) at' width = readLE (byteAt buf) at' width := by
 apply readLE_congr
 intro k hk
 apply byteAt_splice_outside
 omega

theorem readLE_splice_leByte (hsize : off + width ≤ size) :
  readLE (byteAt (splice buf off width (leByte value))) off width = value % 256 ^ width := by
 apply readLE_of_leByte
 intro k hk
 exact byteAt_splice_inside buf _ hk (by omega)

end OSLab.Foundation.Bytes
