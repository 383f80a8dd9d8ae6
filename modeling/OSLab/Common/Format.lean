import Mathlib.Data.Nat.Init

/-!
# Printing integers

`_print_int` of `common/format.c`.  The digits are stored last one first and emitted from the
end of `buf`; no result stands for a store behind its 64 bytes.
-/

namespace OSLab.Common
open Nat List

def digit : List Char := "0123456789abcdef".toList

/-- The first loop, with the room that is left in `buf`. -/
def storeDigits (base : BitVec 64) : Nat -> BitVec 64 -> Option (List Char)
 | 0, _ => none
 | room + 1, v =>
  (if v / base = 0 then some [] else storeDigits base room (v / base)).map
   fun buf => digit.getD (v % base).toNat '0' :: buf

def printInt (u base : BitVec 64) (isSigned : Bool) : Option (List Char) :=
 if isSigned ∧ u.toInt < 0 then
  (storeDigits base 64 (-u)).map fun buf => '-' :: buf.reverse
 else
  (storeDigits base 64 u).map reverse

def readDigits (base : Nat) (s : List Char) : Nat :=
 s.foldl (fun n c => base * n + digit.idxOf c) 0

def readInt (base : Nat) : List Char -> Int
 | '-' :: s => -readDigits base s
 | s => readDigits base s

section
variable {b : Nat} (hlow : 2 ≤ b) (hhigh : b ≤ 16) (n : Nat)
include hlow hhigh

theorem digit_mod : digit.getD (n % b) '0' = digitChar (n % b) ∧
  digit.idxOf (digitChar (n % b)) = n % b ∧ '-' ≠ digitChar (n % b) := by
 have htable : forall d, d < 16 -> digit.getD d '0' = digitChar d ∧
  digit.idxOf (digitChar d) = d ∧ '-' ≠ digitChar d := by decide
 exact htable _ (Nat.lt_of_lt_of_le (mod_lt _ (by omega)) hhigh)

theorem readDigits_toDigits : '-' ∉ toDigits b n ∧ readDigits b (toDigits b n) = n := by
 induction n using Nat.strongRecOn with
 | ind n ih =>
  rcases digit_mod hlow hhigh n with ⟨_, hvalue, hsign⟩
  by_cases hlast : n < b
  · rw [mod_eq_of_lt hlast] at hvalue hsign
    rw [toDigits_of_lt_base hlast]
    refine ⟨mt mem_singleton.mp hsign, ?_⟩
    change b * 0 + digit.idxOf (digitChar n) = n
    rw [hvalue, Nat.mul_zero, Nat.zero_add]
  rcases ih (n / b) (Nat.div_lt_self (by omega) hlow) with ⟨hdigits, hrest⟩
  rw [toDigits_of_base_le hlow (Nat.not_lt.mp hlast)]
  constructor
  · intro hmem
    rcases mem_append.mp hmem with hmem | hmem
    · exact hdigits hmem
    · exact hsign (mem_singleton.mp hmem)
  unfold readDigits at hrest ⊢
  rw [foldl_append, hrest]
  change b * (n / b) + digit.idxOf _ = n
  rw [hvalue]
  exact Nat.div_add_mod n b
end

theorem storeDigits_eq {base v : BitVec 64} {room : Nat} (hlow : 2 ≤ base.toNat)
  (hhigh : base.toNat ≤ 16) (hfits : (toDigits base.toNat v.toNat).length ≤ room) :
  storeDigits base room v = some (toDigits base.toNat v.toNat).reverse := by
 induction room generalizing v with
 | zero => exact absurd hfits (Nat.not_le.mpr length_toDigits_pos)
 | succ room ih =>
  have hnext : v / base = 0 ↔ v.toNat < base.toNat := by
   rw [← BitVec.toNat_inj, BitVec.toNat_udiv]
   exact Nat.div_eq_zero_iff_lt (by omega)
  unfold storeDigits
  rw [BitVec.toNat_umod, (digit_mod hlow hhigh _).left]
  by_cases hlast : v.toNat < base.toNat
  · rw [if_pos (hnext.mpr hlast), toDigits_of_lt_base hlast, mod_eq_of_lt hlast]
    rfl
  rw [toDigits_of_base_le hlow (Nat.not_lt.mp hlast), ← BitVec.toNat_udiv] at hfits ⊢
  rw [length_append] at hfits
  rw [if_neg (mt hnext.mp hlast), ih (Nat.le_of_succ_le_succ hfits), reverse_append]
  rfl

/-- The digits have no leading zero, and reading them back gives the number. -/
theorem print_int_reads_back (u base : BitVec 64) (isSigned : Bool) (hlow : 2 ≤ base.toNat)
  (hhigh : base.toNat ≤ 16) : exists s, printInt u base isSigned = some s ∧
   s = (if isSigned ∧ u.toInt < 0 then ['-'] else []) ++
    toDigits base.toNat (if isSigned then u.toInt.natAbs else u.toNat) ∧
   readInt base.toNat s = if isSigned then u.toInt else u.toNat := by
 have hstore : forall v, storeDigits base 64 v = some (toDigits base.toNat v.toNat).reverse := by
  intro v
  apply storeDigits_eq hlow hhigh
  rw [length_toDigits_le_iff hlow (by decide)]
  exact Nat.lt_of_lt_of_le v.isLt (Nat.pow_le_pow_left hlow 64)
 have hread := readDigits_toDigits hlow hhigh
 have hint := u.toInt_eq_toNat_cond
 unfold printInt
 rw [hstore, hstore]
 by_cases hneg : isSigned ∧ u.toInt < 0
 · have habs : (-u).toNat = u.toInt.natAbs := by
    rw [BitVec.toNat_neg]
    split at hint <;> omega
   rw [if_pos hneg, if_pos hneg, if_pos hneg.left, if_pos hneg.left, ← habs]
   refine ⟨_, congrArg (fun s => some ('-' :: s)) (reverse_reverse _), rfl, ?_⟩
   change -(readDigits _ _ : Int) = _
   rw [(hread _).right]
   omega
 have habs : (if isSigned then u.toInt.natAbs else u.toNat) = u.toNat ∧
  (if isSigned then u.toInt else u.toNat) = u.toNat := by
  cases isSigned with
  | false => exact ⟨rfl, rfl⟩
  | true =>
   have hpos : ¬ u.toInt < 0 := fun h => hneg ⟨rfl, h⟩
   simp only [if_true]
   split at hint <;> omega
 rw [if_neg hneg, if_neg hneg, habs.left, habs.right]
 refine ⟨_, congrArg some (reverse_reverse _), rfl, ?_⟩
 unfold readInt
 split
 · rename_i heq
   exact absurd (heq ▸ mem_cons_self) (hread _).left
 · exact congrArg _ (hread _).right

theorem print_int_least : printInt (.intMin 64) 2 true = some ('-' :: '1' :: replicate 63 '0') := by
 rcases print_int_reads_back (.intMin 64) 2 true (by decide) (by decide) with ⟨s, hprint, hs, _⟩
 rw [hprint, hs]
 decide

end OSLab.Common
