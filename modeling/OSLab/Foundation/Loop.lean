import Mathlib.Logic.Basic

/-!
# Loops

A loop whose rounds may fail, with a bound on the number of rounds, and what loops over
lists preserve.
-/

namespace OSLab.Foundation
variable {state result : Type}

inductive Round (state result : Type) where
 | again (s : state)
 | done (r : result)

def loop (round : state -> Option (Round state result)) : Nat -> state -> Option result
 | 0, _ => none
 | fuel + 1, s =>
  match round s with
  | none => none
  | some (.again next) => loop round fuel next
  | some (.done r) => some r

section Rounds
variable {round : state -> Option (Round state result)} {s next : state} {r : result}
 {fuel : Nat}

theorem loop_again (h : round s = some (.again next)) :
  loop round (fuel + 1) s = loop round fuel next := by
 rw [loop, h]

theorem loop_done (h : round s = some (.done r)) : loop round (fuel + 1) s = some r := by
 rw [loop, h]

end Rounds

/-!
# Loops over lists
-/

theorem foldlM_invariant {item : Type} {body : state -> item -> Option state}
  {items : List item} (Inv : state -> Prop)
  (hbody : forall s x next, x ∈ items -> Inv s -> body s x = some next -> Inv next)
  {s next : state} (hs : Inv s) (h : items.foldlM body s = some next) : Inv next := by
 induction items generalizing s with
 | nil =>
  rw [← Option.some.inj h]
  exact hs
 | cons x rest ih =>
  rw [List.foldlM_cons] at h
  rcases Option.bind_eq_some_iff.mp h with ⟨mid, hhere, hrest⟩
  have hmid := hbody s x mid List.mem_cons_self hs hhere
  exact ih (fun s y next hy => hbody s y next (List.mem_cons_of_mem x hy)) hmid hrest

theorem foldl_invariant {item : Type} {body : state -> item -> state} {items : List item}
  (Inv : state -> Prop) (hbody : forall s x, x ∈ items -> Inv s -> Inv (body s x))
  {s : state} (hs : Inv s) : Inv (items.foldl body s) := by
 induction items generalizing s with
 | nil => exact hs
 | cons x rest ih =>
  exact ih (fun s y hy => hbody s y (List.mem_cons_of_mem x hy)) (hbody s x List.mem_cons_self hs)

end OSLab.Foundation
