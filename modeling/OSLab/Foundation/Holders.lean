import Mathlib.Data.Finset.Card

/-!
# Counting the holders of a resource

A reference count bounds the number of holders from above.  That much is enough
to know that nobody holds a resource whose count has dropped to zero, and that
the holder of a resource with count one is alone.
-/

namespace OSLab.Foundation
open Finset
variable {key : Type _}

def AtMost (holds : key -> Prop) (count : Int) : Prop :=
 exists holders : Finset key, (forall k, holds k -> k ∈ holders) ∧ (holders.card : Int) ≤ count

namespace AtMost
variable {holds after : key -> Prop} {count : Int}

theorem mono (h : AtMost holds count) (himp : forall k, after k -> holds k) :
  AtMost after count := by
 rcases h with ⟨holders, hall, hcard⟩
 exact ⟨holders, fun k hk => hall k (himp k hk), hcard⟩

theorem empty (hnone : forall k, ¬ holds k) (hcount : 0 ≤ count) : AtMost holds count := by
 refine ⟨∅, fun k hk => absurd hk (hnone k), ?_⟩
 simpa using hcount

theorem acquire [DecidableEq key] (h : AtMost holds count) (x : key)
  (himp : forall k, after k -> k = x ∨ holds k) : AtMost after (count + 1) := by
 rcases h with ⟨holders, hall, hcard⟩
 refine ⟨insert x holders, ?_, ?_⟩
 · intro k hk
   rcases himp k hk with heq | hold
   · exact mem_insert.mpr (.inl heq)
   · exact mem_insert_of_mem (hall k hold)
 have hinsert := card_insert_le x holders
 omega

theorem release [DecidableEq key] (h : AtMost holds count) {x : key} (hx : holds x)
  (himp : forall k, after k -> k ≠ x ∧ holds k) : AtMost after (count - 1) := by
 rcases h with ⟨holders, hall, hcard⟩
 refine ⟨holders.erase x, ?_, ?_⟩
 · intro k hk
   rcases himp k hk with ⟨hne, hold⟩
   exact mem_erase.mpr ⟨hne, hall k hold⟩
 have hmem := hall x hx
 have herase := card_erase_of_mem hmem
 have hpos := card_pos.mpr ⟨x, hmem⟩
 omega

theorem none_of_nonpos (h : AtMost holds count) (hcount : count ≤ 0) (k : key) : ¬ holds k := by
 intro hk
 rcases h with ⟨holders, hall, hcard⟩
 have hpos := card_pos.mpr ⟨k, hall k hk⟩
 omega

theorem eq_of_le_one (h : AtMost holds count) (hcount : count ≤ 1) {x y : key}
  (hx : holds x) (hy : holds y) : x = y := by
 rcases h with ⟨holders, hall, hcard⟩
 apply card_le_one.mp _ x (hall x hx) y (hall y hy)
 omega

end OSLab.Foundation.AtMost
