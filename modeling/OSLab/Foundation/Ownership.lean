import Mathlib.Logic.Function.Basic

/-!
# Owners of numbered resources

Each owner holds at most one resource, whose number is never zero, and a table
marks the resources in use.  In the range that the table accounts for, the marked
resources are those that have an owner, and no resource has two.
-/

namespace OSLab.Foundation
open Function
variable {owner : Type}

structure Owns (addr : owner -> Nat) (used : Nat -> Bool) (lo hi : Nat) : Prop where
 positive : 0 < lo
 unique : forall x y, addr x ≠ 0 -> addr x = addr y -> x = y
 marked : forall x, addr x ≠ 0 -> used (addr x) = true
 claimed : forall b, lo ≤ b -> b < hi -> used b = true -> exists x, addr x = b

namespace Owns
variable {addr : owner -> Nat} {used : Nat -> Bool} {lo hi : Nat}

theorem addr_ne_of_free (h : Owns addr used lo hi) {b : Nat} (hfree : used b = false)
  (hb : b ≠ 0) (y : owner) : addr y ≠ b := by
 intro heq
 have hmarked := h.marked y (by
  rw [heq]
  exact hb)
 rw [heq, hfree] at hmarked
 cases hmarked

variable [DecidableEq owner] {x : owner}

theorem assign (h : Owns addr used lo hi) {b : Nat} (hx : addr x = 0) (hb : b ≠ 0)
  (hfree : used b = false) :
  Owns (update addr x b) (update used b true) lo hi where
 positive := h.positive
 unique := by
  intro y z hy heq
  by_cases hyx : y = x
  · by_cases hzx : z = x
    · rw [hyx, hzx]
    rw [hyx, update_self, update_of_ne hzx] at heq
    exact absurd heq.symm (h.addr_ne_of_free hfree hb z)
  rw [update_of_ne hyx] at hy heq
  by_cases hzx : z = x
  · rw [hzx, update_self] at heq
    exact absurd heq (h.addr_ne_of_free hfree hb y)
  rw [update_of_ne hzx] at heq
  exact h.unique y z hy heq
 marked := by
  intro y hy
  by_cases hyx : y = x
  · rw [hyx, update_self, update_self]
  rw [update_of_ne hyx] at hy ⊢
  rw [update_of_ne (h.addr_ne_of_free hfree hb y)]
  exact h.marked y hy
 claimed := by
  intro c hlo hhi hused
  by_cases hcb : c = b
  · exact ⟨x, by rw [hcb, update_self]⟩
  rw [update_of_ne hcb] at hused
  rcases h.claimed c hlo hhi hused with ⟨y, hy⟩
  have hyx : y ≠ x := by
   intro heq
   have hpos := h.positive
   rw [heq, hx] at hy
   omega
  exact ⟨y, by rw [update_of_ne hyx, hy]⟩

theorem drop (h : Owns addr used lo hi) (x : owner) :
  Owns (update addr x 0) (update used (addr x) false) lo hi where
 positive := h.positive
 unique := by
  intro y z hy heq
  have hyx : y ≠ x := by
   intro hyx
   rw [hyx, update_self] at hy
   exact hy rfl
  rw [update_of_ne hyx] at hy heq
  by_cases hzx : z = x
  · rw [hzx, update_self] at heq
    exact absurd heq hy
  rw [update_of_ne hzx] at heq
  exact h.unique y z hy heq
 marked := by
  intro y hy
  have hyx : y ≠ x := by
   intro hyx
   rw [hyx, update_self] at hy
   exact hy rfl
  rw [update_of_ne hyx] at hy ⊢
  have hne : addr y ≠ addr x := by
   intro heq
   exact hyx (h.unique y x hy heq)
  rw [update_of_ne hne]
  exact h.marked y hy
 claimed := by
  intro c hlo hhi hused
  by_cases hcx : c = addr x
  · rw [hcx, update_self] at hused
    cases hused
  rw [update_of_ne hcx] at hused
  rcases h.claimed c hlo hhi hused with ⟨y, hy⟩
  have hyx : y ≠ x := by
   rintro rfl
   exact hcx hy.symm
  exact ⟨y, by rw [update_of_ne hyx, hy]⟩

end OSLab.Foundation.Owns
