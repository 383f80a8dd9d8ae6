import Mathlib.Data.List.Nodup
import Mathlib.Data.List.Pairwise

/-!
# Regions of memory

Regions of bytes, and lists of regions that tile other regions: they have the same
bytes, each as often.  Regions that tile separate regions are separate.
-/

namespace OSLab.Foundation

structure Region where
 start : Nat
 size : Nat
deriving DecidableEq

namespace Region

def bytes (r : Region) : List Nat := List.range' r.start r.size

@[simp] theorem mem_bytes {r : Region} {b : Nat} :
  b ∈ r.bytes ↔ r.start ≤ b ∧ b < r.start + r.size :=
 List.mem_range'_1

def Apart (r q : Region) : Prop := forall b, b ∈ r.bytes -> b ∉ q.bytes

instance : Std.Symm Apart := ⟨fun _ _ h b hq hr => h b hr hq⟩

def Inside (r whole : Region) : Prop :=
 whole.start ≤ r.start ∧ r.start + r.size ≤ whole.start + whole.size

theorem start_mem {r : Region} (h : 0 < r.size) : r.start ∈ r.bytes :=
 mem_bytes.mpr ⟨Nat.le_refl _, by omega⟩

theorem Inside.mem {r whole : Region} {b : Nat} (h : r.Inside whole) (hb : b ∈ r.bytes) :
  b ∈ whole.bytes := by
 rcases h with ⟨hlow, hhigh⟩
 rw [mem_bytes] at hb ⊢
 exact ⟨Nat.le_trans hlow hb.left, Nat.lt_of_lt_of_le hb.right hhigh⟩

theorem bytes_cut (start m n : Nat) :
  bytes ⟨start, m + n⟩ = bytes ⟨start, m⟩ ++ bytes ⟨start + m, n⟩ :=
 List.range'_append_1.symm

end Region

open Region

def Separate (regions : List Region) : Prop := (regions.flatMap bytes).Nodup

def Tiles (parts wholes : List Region) : Prop := (parts.flatMap bytes).Perm (wholes.flatMap bytes)

variable {parts parts' wholes wholes' : List Region} {r q : Region}

theorem separate_iff : Separate parts ↔ parts.Pairwise Apart := by
 unfold Separate
 rw [List.nodup_flatMap]
 constructor
 · intro h
   exact h.right
 · intro h
   exact ⟨fun r _ => List.nodup_range', h⟩

theorem Separate.apart (h : Separate (r :: parts)) (hq : q ∈ parts) : r.Apart q :=
 List.rel_of_pairwise_cons (separate_iff.mp h) hq

theorem Separate.apart_of_ne (h : Separate parts) (hr : r ∈ parts) (hq : q ∈ parts)
  (hne : r ≠ q) : r.Apart q :=
 (separate_iff.mp h).forall hr hq hne

/-!
# Tilings
-/

section
variable (h : Tiles parts wholes)
include h

theorem Tiles.separate (hwholes : Separate wholes) : Separate parts := h.nodup_iff.mpr hwholes

theorem Tiles.perm (hparts : parts.Perm parts')
  (hwholes : wholes.Perm wholes') : Tiles parts' wholes' := by
 have hleft := (hparts.flatMap_right bytes).symm
 exact hleft.trans (h.trans (hwholes.flatMap_right bytes))

theorem Tiles.cons (r : Region) : Tiles (r :: parts) (r :: wholes) := h.append_left r.bytes
end

theorem Tiles.of_cons (h : Tiles (r :: parts) (r :: wholes)) : Tiles parts wholes :=
 (List.perm_append_left_iff r.bytes).mp h

theorem Tiles.cut {start m n : Nat} (h : Tiles (⟨start, m + n⟩ :: parts) wholes) :
  Tiles (⟨start, m⟩ :: ⟨start + m, n⟩ :: parts) wholes := by
 unfold Tiles at h ⊢
 rw [List.flatMap_cons, bytes_cut, List.append_assoc] at h
 exact h

end OSLab.Foundation
