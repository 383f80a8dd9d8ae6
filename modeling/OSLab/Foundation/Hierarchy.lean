import OSLab.Foundation.Loop
import Mathlib.Algebra.BigOperators.Group.Finset.Basic

/-!
# Hierarchies

A finite set of members in which every member but the root has a parent, and following
the parents ends at the root.  Loops that climb to the parents or descend to the children
end after as many rounds as there are members.
-/

namespace OSLab.Foundation
open Function Finset
variable {member state result : Type}

def Hierarchy (parent : member -> member) (root : member) (members : Finset member) : Prop :=
 root ∈ members ∧ exists rank : member -> Nat, (forall c, c ∈ members -> rank c < members.card) ∧
  forall c, c ∈ members -> c ≠ root -> parent c ∈ members ∧ rank (parent c) < rank c

namespace Hierarchy
variable {parent : member -> member} {root : member} {members : Finset member} {c : member}

section
variable (h : Hierarchy parent root members)
include h

theorem parent_mem (hc : c ∈ members) (hroot : c ≠ root) : parent c ∈ members := by
 rcases h with ⟨_, rank, _, hparent⟩
 exact (hparent c hc hroot).left

theorem parent_ne (hc : c ∈ members) (hroot : c ≠ root) : parent c ≠ c := by
 rcases h with ⟨_, rank, _, hparent⟩
 intro hsame
 have hlt := (hparent c hc hroot).right
 rw [hsame] at hlt
 exact Nat.lt_irrefl _ hlt

theorem induction_from_root {P : member -> Prop}
  (hroot : P root) (hchild : forall c, c ∈ members -> c ≠ root -> P (parent c) -> P c)
  (hc : c ∈ members) : P c := by
 rcases h with ⟨_, rank, _, hparent⟩
 have hall : forall n c, c ∈ members -> rank c < n -> P c := by
  intro n
  induction n with
  | zero =>
   intro c _ hlt
   exact absurd hlt (Nat.not_lt_zero _)
  | succ n ih =>
   intro c hc hlt
   by_cases hsame : c = root
   · rw [hsame]
     exact hroot
   rcases hparent c hc hsame with ⟨hmem, hrank⟩
   exact hchild c hc hsame (ih (parent c) hmem (Nat.lt_of_lt_of_le hrank (Nat.le_of_lt_succ hlt)))
 exact hall (rank c + 1) c hc (Nat.lt_succ_self _)

theorem insert [DecidableEq member] {c above : member}
  (hnew : c ∉ members) (habove : above ∈ members) :
  Hierarchy (update parent c above) root (Insert.insert c members) := by
 rcases h with ⟨hroot, rank, hbound, hparent⟩
 have hother : forall d, d ∈ members -> d ≠ c := by
  intro d hd hsame
  rw [hsame] at hd
  exact hnew hd
 refine ⟨mem_insert_of_mem hroot, update rank c members.card, ?_, ?_⟩
 · intro d hd
   rw [card_insert_of_notMem hnew]
   rcases mem_insert.mp hd with rfl | hd
   · rw [update_self]
     exact Nat.lt_succ_self _
   rw [update_of_ne (hother d hd)]
   exact Nat.lt_succ_of_lt (hbound d hd)
 intro d hd hne
 rcases mem_insert.mp hd with rfl | hd
 · rw [update_self, update_self, update_of_ne (hother above habove)]
   exact ⟨mem_insert_of_mem habove, hbound above habove⟩
 rcases hparent d hd hne with ⟨hmem, hrank⟩
 rw [update_of_ne (hother d hd), update_of_ne (hother d hd), update_of_ne (hother _ hmem)]
 exact ⟨mem_insert_of_mem hmem, hrank⟩

/-!
# Loops over a hierarchy
-/

theorem loop_climb {round : member × state -> Option (Round (member × state) result)}
  (Inv : member -> state -> Prop) (Post : result -> Prop)
  (hround : forall c s, c ∈ members -> Inv c s ->
    (exists r, round (c, s) = some (.done r) ∧ Post r) ∨
    (c ≠ root ∧ exists next, round (c, s) = some (.again (parent c, next)) ∧
      Inv (parent c) next)) {s : state} (hc : c ∈ members) (hinv : Inv c s) :
  exists r, loop round members.card (c, s) = some r ∧ Post r := by
 rcases h with ⟨_, rank, hbound, hparent⟩
 have hall : forall fuel c s, c ∈ members -> rank c < fuel -> Inv c s ->
  exists r, loop round fuel (c, s) = some r ∧ Post r := by
  intro fuel
  induction fuel with
  | zero =>
   intro c s _ hlt
   exact absurd hlt (Nat.not_lt_zero _)
  | succ fuel ih =>
   intro c s hc hlt hinv
   rcases hround c s hc hinv with ⟨r, hdone, hpost⟩ | ⟨hne, next, hagain, hnext⟩
   · exact ⟨r, loop_done hdone, hpost⟩
   rcases hparent c hc hne with ⟨hmem, hrank⟩
   rw [loop_again hagain]
   exact ih (parent c) next hmem (Nat.lt_of_lt_of_le hrank (Nat.le_of_lt_succ hlt)) hnext
 exact hall members.card c s hc (hbound c hc) hinv

theorem loop_descend
  {round : member -> Option (Round member result)} (Inv : member -> Prop) (Post : result -> Prop)
  (hround : forall c, c ∈ members -> Inv c -> (exists r, round c = some (.done r) ∧ Post r) ∨
    (exists d, round c = some (.again d) ∧ d ∈ members ∧ d ≠ root ∧ parent d = c ∧
      Inv d)) (hc : c ∈ members) (hinv : Inv c) :
  exists r, loop round members.card c = some r ∧ Post r := by
 rcases h with ⟨_, rank, hbound, hparent⟩
 have hall : forall fuel c, c ∈ members -> members.card ≤ fuel + rank c -> Inv c ->
  exists r, loop round fuel c = some r ∧ Post r := by
  intro fuel
  induction fuel with
  | zero =>
   intro c hc hle
   have hlt := hbound c hc
   rw [Nat.zero_add] at hle
   exact absurd hlt (Nat.not_lt_of_le hle)
  | succ fuel ih =>
   intro c hc hle hinv
   rcases hround c hc hinv with ⟨r, hdone, hpost⟩ | ⟨d, hagain, hd, hne, hup, hnext⟩
   · exact ⟨r, loop_done hdone, hpost⟩
   have hrank := (hparent d hd hne).right
   rw [hup] at hrank
   rw [loop_again hagain]
   exact ih d hd (by omega) hnext
 exact hall members.card c hc (Nat.le_add_right _ _) hinv
end

end Hierarchy

/-!
# Members by their home

The elements of a set that belong to one place.
-/

section Tally
variable {item place : Type} [DecidableEq place]

def tally (home : item -> place) (A : Finset item) (c : place) : Finset item :=
 A.filter (fun a => home a = c)

variable {home : item -> place} {A : Finset item} {a : item} {c : place}

theorem mem_tally : a ∈ tally home A c ↔ a ∈ A ∧ home a = c := mem_filter

theorem tally_congr {home' : item -> place} (h : forall a, a ∈ A -> home' a = home a) (c : place) :
  tally home' A c = tally home A c := by
 apply filter_congr
 intro a ha
 rw [h a ha]

variable [DecidableEq item]

theorem tally_insert_self :
  tally home (insert a A) (home a) = insert a (tally home A (home a)) := by
 unfold tally
 rw [filter_insert, if_pos rfl]

theorem tally_insert_of_ne (h : home a ≠ c) : tally home (insert a A) c = tally home A c := by
 unfold tally
 rw [filter_insert, if_neg h]

theorem tally_erase_self : tally home (A.erase a) (home a) = (tally home A (home a)).erase a := by
 unfold tally
 rw [filter_erase]

theorem tally_erase_of_ne (h : home a ≠ c) : tally home (A.erase a) c = tally home A c := by
 unfold tally
 rw [filter_erase, erase_eq_of_notMem]
 intro hmem
 exact h (mem_filter.mp hmem).right

end Tally

/-!
# Settled sets

A set of items, the members of a hierarchy among them, is settled if it has just those
members in which it has an item.  A change of one item unsettles at most its home, and
the change is passed on from there to the parents.
-/

section Settled
variable [DecidableEq member] {home : member -> member} {root : member}
 {members : Finset member} {A : Finset member} {a c : member}

def Settled (home : member -> member) (root : member) (members A : Finset member) : Prop :=
 forall d, d ∈ members -> d ≠ root -> (d ∈ A ↔ (tally home A d).Nonempty)

def SettledOff (home : member -> member) (root : member) (members A : Finset member)
  (c : member) : Prop :=
 forall d, d ∈ members -> d ≠ root -> d ≠ c -> (d ∈ A ↔ (tally home A d).Nonempty)

theorem SettledOff.settled (h : SettledOff home root members A c)
  (hc : c ≠ root -> (c ∈ A ↔ (tally home A c).Nonempty)) : Settled home root members A := by
 intro d hd hroot
 by_cases hsame : d = c
 · rw [hsame] at hroot ⊢
   exact hc hroot
 · exact h d hd hroot hsame

section
variable (h : Settled home root members A) (ha : a ∉ members)
include h ha

theorem Settled.insert : SettledOff home root members (insert a A) (home a) := by
 intro d hd hroot hne
 rw [tally_insert_of_ne (Ne.symm hne), mem_insert, ← h d hd hroot]
 constructor
 · rintro (rfl | hmem)
   · exact absurd hd ha
   · exact hmem
 · intro hmem
   exact .inr hmem

theorem Settled.erase : SettledOff home root members (A.erase a) (home a) := by
 intro d hd hroot hne
 rw [tally_erase_of_ne (Ne.symm hne), mem_erase, ← h d hd hroot]
 constructor
 · intro hmem
   exact hmem.right
 intro hmem
 refine ⟨?_, hmem⟩
 rintro rfl
 exact ha hd
end

theorem SettledOff.insert (h : SettledOff home root members A c)
  (hsome : (tally home A c).Nonempty) :
  SettledOff home root members (insert c A) (home c) := by
 intro d hd hroot hne
 rw [tally_insert_of_ne (Ne.symm hne), mem_insert]
 by_cases hsame : d = c
 · rw [hsame]
   exact ⟨fun _ => hsome, fun _ => .inl rfl⟩
 rw [← h d hd hroot hsame]
 exact ⟨fun hmem => hmem.resolve_left hsame, .inr⟩

theorem SettledOff.erase (h : SettledOff home root members A c)
  (hnone : tally home A c = ∅) : SettledOff home root members (A.erase c) (home c) := by
 intro d hd hroot hne
 rw [tally_erase_of_ne (Ne.symm hne), mem_erase]
 by_cases hsame : d = c
 · rw [hsame, hnone]
   exact ⟨fun hmem => absurd rfl hmem.left, fun hmem => absurd hmem not_nonempty_empty⟩
 rw [← h d hd hroot hsame]
 exact ⟨fun hmem => hmem.right, fun hmem => ⟨hsame, hmem⟩⟩

theorem Hierarchy.tally_root {parent : member -> member} (h : Hierarchy parent root members)
  (hparent : forall c, c ∈ members -> home c = parent c)
  (hup : forall a, a ∈ A -> home a ∈ members -> home a ≠ root -> home a ∈ A)
  (ha : a ∈ A) (hhome : home a ∈ members) : (tally home A root).Nonempty := by
 have hall : forall c, c ∈ members -> forall a, a ∈ A -> home a = c ->
  (tally home A root).Nonempty := by
  intro c hc
  apply h.induction_from_root (P := fun c => forall a, a ∈ A -> home a = c ->
   (tally home A root).Nonempty) _ _ hc
  · intro a ha hat
    exact ⟨a, mem_tally.mpr ⟨ha, hat⟩⟩
  · intro c hc hroot ih a ha hat
    have hmem : c ∈ A := by
     rw [← hat] at hc hroot ⊢
     exact hup a ha hc hroot
    exact ih c hmem (hparent c hc)
 exact hall (home a) hhome a ha rfl

end OSLab.Foundation.Settled
