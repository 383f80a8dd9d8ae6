import Mathlib.Algebra.BigOperators.Group.Finset.Basic
import Mathlib.Algebra.Order.BigOperators.Group.Finset

/-!
# Ledgers of reservations

Concurrent holders of a shared resource each have an account while they are
active.  A ledger keeps the number of the open accounts and the sum of what they
reserve.  The lemmas say how the two figures have to follow when an account is
opened, closed or adjusted.
-/

namespace OSLab.Foundation
open Function Finset

def Ledger {holder : Type _} (account : holder -> Option Nat) (count total : Int) : Prop :=
 exists active : Finset holder, (forall h, h ∈ active ↔ (account h).isSome = true) ∧
   count = active.card ∧
   total = ((∑ h ∈ active, (account h).getD 0 : Nat) : Int)

namespace Ledger
variable {holder : Type _} {account : holder -> Option Nat} {count total : Int}

theorem empty (h : forall k, account k = none) : Ledger account 0 0 :=
 ⟨∅, by simp [h], by simp, by simp⟩

theorem total_nonneg (h : Ledger account count total) : 0 ≤ total := by
 rcases h with ⟨active, _, _, htotal⟩
 rw [htotal]
 exact Int.natCast_nonneg _

variable {k : holder} {n : Nat}

theorem count_pos (h : Ledger account count total) (hk : account k = some n) : 0 < count := by
 rcases h with ⟨active, hmem, hcount, _⟩
 have hactive : k ∈ active := (hmem k).mpr (by simp [hk])
 have hpos : 0 < active.card := card_pos.mpr ⟨k, hactive⟩
 omega

theorem none_of_count_zero (h : Ledger account 0 total) (k : holder) : account k = none := by
 cases hk : account k with
 | none => rfl
 | some n =>
  have hpos := h.count_pos hk
  omega

theorem le_total (h : Ledger account count total)
  (hk : account k = some n) : (n : Int) ≤ total := by
 rcases h with ⟨active, hmem, _, htotal⟩
 have hactive : k ∈ active := (hmem k).mpr (by simp [hk])
 have hle := single_le_sum (fun i _ => Nat.zero_le ((account i).getD 0)) hactive
 rw [hk] at hle
 rw [htotal]
 simpa using Int.ofNat_le.mpr hle

variable [DecidableEq holder]

theorem sum_update_of_notMem {active : Finset holder} (hk : k ∉ active) (v : Option Nat) :
  (∑ h ∈ active, (update account k v h).getD 0) = ∑ h ∈ active, (account h).getD 0 := by
 apply sum_congr rfl
 intro h hmem
 have hne : h ≠ k := by
  rintro rfl
  exact hk hmem
 rw [update_of_ne hne]

variable (h : Ledger account count total)
include h

theorem open_account (hk : account k = none) (n : Nat) :
  Ledger (update account k (some n)) (count + 1) (total + n) := by
 rcases h with ⟨active, hmem, hcount, htotal⟩
 have hnew : k ∉ active := by
  rw [hmem, hk]
  simp
 refine ⟨insert k active, ?_, ?_, ?_⟩
 · intro i
   by_cases hi : i = k
   · subst hi
     simp
   · simp [hi, hmem]
 · rw [card_insert_of_notMem hnew]
   omega
 rw [sum_insert hnew, sum_update_of_notMem hnew]
 simp only [update_self, Option.getD_some]
 push_cast at htotal ⊢
 omega

theorem close_account (hk : account k = some n) :
  Ledger (update account k none) (count - 1) (total - n) := by
 rcases h with ⟨active, hmem, hcount, htotal⟩
 have hactive : k ∈ active := (hmem k).mpr (by simp [hk])
 have hcard := card_erase_add_one hactive
 have hsum := add_sum_erase active (fun i => (account i).getD 0) hactive
 simp only [hk, Option.getD_some] at hsum
 refine ⟨active.erase k, ?_, ?_, ?_⟩
 · intro i
   by_cases hi : i = k
   · subst hi
     simp
   · simp [hi, hmem]
 · omega
 rw [sum_update_of_notMem (notMem_erase k active)]
 rw [htotal]
 omega

theorem adjust_account (hk : account k = some n) (m : Nat) :
  Ledger (update account k (some m)) count (total - n + m) := by
 have hclosed := h.close_account hk
 have hopen := hclosed.open_account (k := k) (by simp) m
 rw [update_idem, Int.sub_add_cancel] at hopen
 exact hopen

end OSLab.Foundation.Ledger
