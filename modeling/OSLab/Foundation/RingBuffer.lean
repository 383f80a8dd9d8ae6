import Mathlib.Data.Nat.ModEq
import Mathlib.Logic.Function.Basic

/-!
# Ring buffers with free-running counters

A ring of `size` slots and two counters of `w` bits that are never reduced: the
slot of a counter is its value modulo `size`, and the number of items in the ring
is the difference of the counters.  The counters wrap, which does no harm as long
as `size` divides `2 ^ w` and is smaller.

The abstract side is the list of all items that were ever put into the ring and
the number of items that were taken out of it again.
-/

namespace OSLab.Foundation.Ring
open BitVec
variable {item : Type _} {w : Nat}

structure Holds (size : Nat) (data : Nat -> item) (taken put : BitVec w)
  (items : List item) (removed : Nat) : Prop where
 taken_eq : taken.toNat = removed % 2 ^ w
 put_eq : put.toNat = items.length % 2 ^ w
 order : removed ≤ items.length
 bound : items.length ≤ removed + size
 slots : forall k, removed ≤ k -> k < items.length -> items[k]? = some (data (k % size))

structure Fits (w size : Nat) : Prop where
 pos : 0 < size
 small : size < 2 ^ w
 divides : size ∣ 2 ^ w

theorem mod_ne_of_near {k n size : Nat} (hlt : k < n) (hnear : n < k + size) :
  k % size ≠ n % size := by
 intro heq
 have hzero : (n - k) % size = 0 := Nat.sub_mod_eq_zero_of_mod_eq heq.symm
 have hsmall : (n - k) % size = n - k := Nat.mod_eq_of_lt (by omega)
 omega

theorem distance_mod {n d m : Nat} (hd : d < m) : (m - n % m + (n + d) % m) % m = d := by
 have hn : n % m < m := Nat.mod_lt _ (by omega)
 rw [Nat.add_mod n d m, Nat.mod_eq_of_lt hd]
 by_cases hwrap : n % m + d < m
 · rw [Nat.mod_eq_of_lt hwrap]
   have hsum : m - n % m + (n % m + d) = m + d := by omega
   rw [hsum, Nat.add_mod_left, Nat.mod_eq_of_lt hd]
 have hmod : (n % m + d) % m = n % m + d - m := by
  rw [Nat.mod_eq_sub_mod (by omega), Nat.mod_eq_of_lt (by omega)]
 have hsum : m - n % m + (n % m + d - m) = d := by omega
 rw [hmod, hsum, Nat.mod_eq_of_lt hd]

namespace Holds
variable {size : Nat} {data : Nat -> item} {taken put : BitVec w}
 {items : List item} {removed : Nat}

theorem start (data : Nat -> item) : Holds size data 0#w 0#w [] 0 where
 taken_eq := by simp
 put_eq := by simp
 order := Nat.le_refl 0
 bound := Nat.zero_le _
 slots := by nofun

variable (hfits : Fits w size)
 (h : Holds size data taken put items removed)

include hfits h

/-!
# What the tests on the counters say
-/

theorem used_eq : (put - taken).toNat = items.length - removed := by
 have horder := h.order
 have hbound := h.bound
 have hsmall := hfits.small
 rw [toNat_sub, h.taken_eq, h.put_eq]
 have hlength : items.length = removed + (items.length - removed) := by omega
 rw [hlength, distance_mod (by omega)]
 omega

theorem item_iff : 0#w < put - taken ↔ removed < items.length := by
 rw [lt_def, h.used_eq hfits, toNat_zero]
 exact Nat.sub_pos_iff_lt

theorem room_iff : 0#w < BitVec.ofNat w size - (put - taken) ↔ items.length < removed + size := by
 have horder := h.order
 have hbound := h.bound
 have hsmall := hfits.small
 have hroom : (BitVec.ofNat w size - (put - taken)).toNat = removed + size - items.length := by
  rw [toNat_sub, h.used_eq hfits, toNat_ofNat, Nat.mod_eq_of_lt hsmall]
  have hsum : 2 ^ w - (items.length - removed) + size =
   2 ^ w + (removed + size - items.length) := by omega
  rw [hsum, Nat.add_mod_left]
  apply Nat.mod_eq_of_lt
  omega
 rw [lt_def, hroom, toNat_zero]
 exact Nat.sub_pos_iff_lt

theorem put_slot : put.toNat % size = items.length % size := by
 rw [h.put_eq, Nat.mod_mod_of_dvd _ hfits.divides]

theorem taken_slot : taken.toNat % size = removed % size := by
 rw [h.taken_eq, Nat.mod_mod_of_dvd _ hfits.divides]

/-!
# Putting an item in

The item goes into its slot first and is counted afterwards; in between the ring
still holds what it held before.
-/

theorem store (hroom : items.length < removed + size) (x : item) :
    Holds size (Function.update data (put.toNat % size) x) taken put items
      removed := { h with
 slots := by
  intro k hk hlt
  have hne : k % size ≠ put.toNat % size := by
   rw [h.put_slot hfits]
   exact mod_ne_of_near hlt (by omega)
  rw [Function.update_of_ne hne]
  exact h.slots k hk hlt }

theorem stored (x : item) :
  Function.update data (put.toNat % size) x (items.length % size) = x := by
 rw [h.put_slot hfits, Function.update_self]

omit hfits in
theorem push {x : item} (hroom : items.length < removed + size)
  (hx : data (items.length % size) = x) :
  Holds size data taken (put + 1) (items ++ [x]) removed where
 taken_eq := h.taken_eq
 put_eq := by
  rw [toNat_add, h.put_eq, List.length_append, Nat.add_mod items.length]
  simp
 order := by
  rw [List.length_append]
  exact Nat.le_add_right_of_le h.order
 bound := by
  rw [List.length_append]
  exact hroom
 slots := by
  intro k hk hlt
  rw [List.length_append, List.length_singleton] at hlt
  by_cases hlast : k < items.length
  · rw [List.getElem?_append_left hlast]
    exact h.slots k hk hlast
  have heq : k = items.length := by omega
  rw [heq, hx]
  simp

/-!
# Taking an item out
-/

theorem front (hitem : removed < items.length) :
  items[removed]? = some (data (taken.toNat % size)) := by
 rw [h.taken_slot hfits]
 exact h.slots removed (Nat.le_refl _) hitem

omit hfits in
theorem pop (hitem : removed < items.length) :
  Holds size data (taken + 1) put items (removed + 1) where
 taken_eq := by
  rw [toNat_add, h.taken_eq, Nat.add_mod removed]
  simp
 put_eq := h.put_eq
 order := hitem
 bound := by
  have hbound := h.bound
  omega
 slots := by
  intro k hk hlt
  exact h.slots k (by omega) hlt

end Holds

end OSLab.Foundation.Ring
