import Mathlib.Logic.Function.Basic

/-!
# `memmove`

The two loops run on the memory that they change.  Each of them is right if none of its
stores hits a source byte that it still has to read, and the test in front of them chooses
one for which this holds.
-/

namespace OSLab.Common
open Function

abbrev ByteMem := BitVec 64 -> UInt8

namespace ByteMem

def copyUp (m : ByteMem) (d s : BitVec 64) : Nat -> ByteMem
 | 0 => m
 | n + 1 => copyUp (update m d (m s)) (d + 1) (s + 1) n

def copyDown (m : ByteMem) (d s : BitVec 64) : Nat -> ByteMem
 | 0 => m
 | n + 1 => copyDown (update m (d - 1) (m (s - 1))) (d - 1) (s - 1) n

def memmove (m : ByteMem) (dest src n : BitVec 64) : BitVec 64 × ByteMem :=
 (dest, if src < dest ∧ dest - src < n then m.copyDown (dest + n) (src + n) n.toNat
  else m.copyUp dest src n.toNat)

variable {m : ByteMem} {d s a : BitVec 64} {n : Nat}

theorem sub_ne (hfar : d = s ∨ n ≤ (d - s).toNat) (ha : a ≠ 0) (hin : a.toNat < n) :
  d - s ≠ a := by
 rintro rfl
 rcases hfar with heq | hfar
 · rw [heq, BitVec.sub_self] at ha
   exact ha rfl
 · omega

theorem copyUp_apply (hn : n ≤ 0x10000000000000000) (hfar : d = s ∨ n ≤ (d - s).toNat) :
  m.copyUp d s n a = if (a - d).toNat < n then m (a + (s - d)) else m a := by
 induction n generalizing m d s with
 | zero => rw [if_neg (Nat.not_lt_zero _), copyUp]
 | succ n ih =>
  rw [copyUp, ih (by omega) (by bv_omega), show s + 1 - (d + 1) = s - d by bv_omega]
  by_cases ha : a = d
  · have hs : d + (s - d) = s := by bv_omega
    rw [ha, if_neg (by bv_omega), if_pos (by bv_omega), update_self, hs]
  by_cases hin : (a - d).toNat < n + 1
  · rw [if_pos (by bv_omega), if_pos hin, update_of_ne]
    have hne := sub_ne hfar (a := a - d) (by bv_omega) hin
    bv_omega
  · rw [if_neg (by bv_omega), if_neg hin, update_of_ne ha]

theorem copyDown_apply (hn : n ≤ 0x10000000000000000) (hfar : s = d ∨ n ≤ (s - d).toNat) :
  m.copyDown d s n a = if (d - 1 - a).toNat < n then m (a + (s - d)) else m a := by
 induction n generalizing m d s with
 | zero => rw [if_neg (Nat.not_lt_zero _), copyDown]
 | succ n ih =>
  rw [copyDown, ih (by omega) (by bv_omega), show s - 1 - (d - 1) = s - d by bv_omega]
  by_cases ha : a = d - 1
  · have hs : d - 1 + (s - d) = s - 1 := by bv_omega
    rw [ha, if_neg (by bv_omega), if_pos (by bv_omega), update_self, hs]
  by_cases hin : (d - 1 - a).toNat < n + 1
  · rw [if_pos (by bv_omega), if_pos hin, update_of_ne]
    have hne := sub_ne hfar (a := d - 1 - a) (by bv_omega) hin
    bv_omega
  · rw [if_neg (by bv_omega), if_neg hin, update_of_ne ha]

theorem memmove_apply {dest src n : BitVec 64}
  (hdest : dest.toNat + n.toNat ≤ 0x10000000000000000)
  (hsrc : src.toNat + n.toNat ≤ 0x10000000000000000) : (m.memmove dest src n).2 a =
   if (a - dest).toNat < n.toNat then m (a + (src - dest)) else m a := by
 unfold memmove
 dsimp only
 split
 · rw [copyDown_apply (by omega) (by bv_omega), show src + n - (dest + n) = src - dest by bv_omega]
   exact if_congr (by bv_omega) rfl rfl
 · exact copyUp_apply (by omega) (by bv_omega)

end ByteMem

/-- The target has the bytes that the source had, and no other byte changes. -/
theorem memmove_moves (m : ByteMem) (dest src n : BitVec 64)
  (hdest : dest.toNat + n.toNat ≤ 0x10000000000000000)
  (hsrc : src.toNat + n.toNat ≤ 0x10000000000000000) : (m.memmove dest src n).1 = dest ∧
   (forall i, i < n -> (m.memmove dest src n).2 (dest + i) = m (src + i)) ∧
   forall a, a < dest ∨ dest.toNat + n.toNat ≤ a.toNat -> (m.memmove dest src n).2 a = m a := by
 refine ⟨rfl, ?_, ?_⟩
 · intro i hi
   rw [ByteMem.memmove_apply hdest hsrc, if_pos (by bv_omega)]
   rw [show dest + i + (src - dest) = src + i by bv_omega]
 intro a ha
 rw [ByteMem.memmove_apply hdest hsrc, if_neg (by bv_omega)]

/-- Source and target overlap, and the target ends with the address space. -/
theorem memmove_moves_overlapping :
  (ByteMem.memmove (fun a => .ofNat a.toNat) (-3) (-4) 3).2 (-2) = 0xfd :=
 (memmove_moves _ (-3) (-4) 3 (by decide) (by decide)).right.left 1 (by decide)

end OSLab.Common
