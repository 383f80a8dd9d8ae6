import Mathlib.Data.List.Basic

/-!
# Delivery in order

Items of several kinds are placed on a queue and taken from it.  Among the items of one
kind the order is kept, and no item is lost or taken twice.
-/

namespace OSLab.Foundation
open List
variable {item key : Type} [DecidableEq key] (kind : item -> key)

def ofKind (k : key) (items : List item) : List item := items.filter (fun x => decide (kind x = k))

structure Delivery (placed taken queue : List item) : Prop where
 order : forall k, ofKind kind k taken ++ ofKind kind k queue = ofKind kind k placed
 perm : (taken ++ queue).Perm placed

variable {kind} {x : item} {k : key} {items placed taken queue before after : List item}

theorem ofKind_append (k : key) (xs ys : List item) :
  ofKind kind k (xs ++ ys) = ofKind kind k xs ++ ofKind kind k ys :=
 filter_append _ _

theorem ofKind_singleton_of_ne (h : kind x ≠ k) : ofKind kind k [x] = [] :=
 filter_cons_of_neg fun hfalse => h (of_decide_eq_true hfalse)

theorem ofKind_eq_nil (h : forall x, x ∈ items -> kind x ≠ k) : ofKind kind k items = [] := by
 apply filter_eq_nil_iff.mpr
 intro x hx hfalse
 exact h x hx (of_decide_eq_true hfalse)

namespace Delivery

theorem empty : Delivery kind [] [] [] where
 order := fun _ => rfl
 perm := Perm.nil

theorem push (h : Delivery kind placed taken queue) (x : item) :
  Delivery kind (placed ++ [x]) taken (queue ++ [x]) := by
 constructor
 · intro k
   rw [ofKind_append, ofKind_append, ← append_assoc, h.order]
 · rw [← append_assoc]
   exact h.perm.append_right [x]

theorem pass (h : Delivery kind placed taken queue)
  (hnone : forall y, y ∈ queue -> kind y ≠ kind x) :
  Delivery kind (placed ++ [x]) (taken ++ [x]) queue := by
 constructor
 · intro k
   rw [ofKind_append, ofKind_append, ← h.order]
   by_cases hkind : kind x = k
   · rw [← hkind, ofKind_eq_nil hnone, append_nil, append_nil]
   · rw [ofKind_singleton_of_ne hkind, append_nil, append_nil]
 have hmiddle : (taken ++ [x] ++ queue).Perm (x :: (taken ++ queue)) := by
  rw [← append_cons]
  exact perm_middle
 have hend : (x :: placed).Perm (placed ++ [x]) := (perm_append_singleton x placed).symm
 exact hmiddle.trans ((h.perm.cons x).trans hend)

theorem take (h : Delivery kind placed taken (before ++ x :: after))
  (hfirst : forall y, y ∈ before -> kind y ≠ kind x) :
  Delivery kind placed (taken ++ [x]) (before ++ after) := by
 constructor
 · intro k
   have horder := h.order k
   rw [append_cons, ofKind_append, ofKind_append] at horder
   rw [ofKind_append, ofKind_append, ← horder]
   by_cases hkind : kind x = k
   · rw [← hkind, ofKind_eq_nil hfirst, nil_append, nil_append, append_assoc]
   · rw [ofKind_singleton_of_ne hkind, append_nil, append_nil]
 have hmove : (taken ++ x :: (before ++ after)).Perm (taken ++ (before ++ x :: after)) :=
  Perm.append_left taken perm_middle.symm
 rw [← append_cons]
 exact hmove.trans h.perm

end OSLab.Foundation.Delivery
