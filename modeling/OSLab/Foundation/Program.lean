import Mathlib.Logic.Basic

/-!
# Programs that return or stop

Sequential code is a function from a state to a result and a new state.  Code that
panics, or that waits for something that never comes, stops for a reason.

`Meets` is the weakest precondition with one more parameter, the reasons for which
the program may stop.  With all of them it is partial correctness, with none it says
that the program returns.  A specification that is proved for every set of reasons
serves both.
-/

namespace OSLab.Foundation

def Program (state reason result : Type) : Type := state -> Except reason (result × state)

namespace Program
variable {state reason result : Type}

instance : Monad (Program state reason) where
 pure x := fun s => .ok (x, s)
 bind prog rest := fun s =>
  match prog s with
  | .error why => .error why
  | .ok (x, next) => rest x next

def stop (why : reason) : Program state reason result := fun _ => .error why

def read (f : state -> result) : Program state reason result := fun s => .ok (f s, s)

def change (f : state -> state) : Program state reason Unit := fun s => .ok ((), f s)

def require (why : reason) (test : state -> Prop) [DecidablePred test] :
  Program state reason Unit :=
 fun s => if test s then .ok ((), s) else .error why

def forEach {item : Type} (body : item -> Program state reason Unit) :
  List item -> Program state reason Unit
 | [] => pure ()
 | x :: rest => do
  body x
  forEach body rest

instance [DecidableEq reason] (prog : Program state reason result) (s : state) (why : reason) :
  Decidable (prog s = .error why) :=
 match prog s with
 | .ok _ => isFalse nofun
 | .error other => decidable_of_iff (other = why) ⟨congrArg _, Except.error.inj⟩

/-!
# Specifications
-/

def Meets (prog : Program state reason result) (s : state) (stops : reason -> Prop)
  (post : result -> state -> Prop) : Prop :=
 match prog s with
 | .error why => stops why
 | .ok (x, next) => post x next

abbrev always (_ : reason) : Prop := True

abbrev never (_ : reason) : Prop := False

variable {other : Type} {prog : Program state reason result} {s next : state}
 {stops : reason -> Prop} {post : result -> state -> Prop} {x : result} {why : reason}

theorem meets_run (h : prog.Meets s stops post) (hrun : prog s = .ok (x, next)) : post x next := by
 unfold Meets at h
 rw [hrun] at h
 exact h

theorem meets_returns (h : prog.Meets s never post) :
  exists x next, prog s = .ok (x, next) ∧ post x next := by
 cases hrun : prog s with
 | error why =>
  unfold Meets at h
  rw [hrun] at h
  exact h.elim
 | ok result => exact ⟨result.1, result.2, rfl, meets_run h hrun⟩

theorem meets_returns_of_not (h : prog.Meets s stops post) (hnot : forall why, ¬ stops why) :
  exists x next, prog s = .ok (x, next) ∧ post x next := by
 have hnever : stops = never := funext fun why => eq_false (hnot why)
 rw [hnever] at h
 exact meets_returns h

theorem meets_imp {weaker : result -> state -> Prop} (h : prog.Meets s stops post)
  (himp : forall x next, post x next -> weaker x next) : prog.Meets s stops weaker := by
 unfold Meets at h ⊢
 cases hrun : prog s with
 | error why =>
  rw [hrun] at h
  exact h
 | ok result =>
  rw [hrun] at h
  exact himp _ _ h

theorem meets_and {also : result -> state -> Prop} (h : prog.Meets s stops post)
  (halso : prog.Meets s always also) :
  prog.Meets s stops (fun x next => post x next ∧ also x next) := by
 unfold Meets at h halso ⊢
 cases hrun : prog s with
 | error why =>
  rw [hrun] at h
  exact h
 | ok result =>
  rw [hrun] at h halso
  exact ⟨h, halso⟩

theorem meets_pure (h : post x s) : (pure x : Program state reason result).Meets s stops post := h

theorem meets_stop (h : stops why) :
  (stop why : Program state reason result).Meets s stops post := h

theorem meets_read (f : state -> result) :
  (read f).Meets s stops (fun x next => f s = x ∧ s = next) :=
 ⟨rfl, rfl⟩

theorem meets_change (f : state -> state) : (change f).Meets s stops (fun _ next => f s = next) :=
 rfl

theorem meets_require (test : state -> Prop) [DecidablePred test]
  (hstop : ¬ test s -> stops why) :
  (require why test).Meets s stops (fun _ next => s = next ∧ test s) := by
 unfold Meets require
 by_cases htest : test s
 · rw [if_pos htest]
   exact ⟨rfl, htest⟩
 rw [if_neg htest]
 exact hstop htest

theorem meets_require_of (test : state -> Prop) [DecidablePred test] {allowed : Prop}
  (hallowed : stops why ∨ allowed) (h : allowed -> test s) :
  (require why test).Meets s stops (fun _ next => s = next ∧ test s) :=
 meets_require test (fun hnot => hallowed.resolve_right (fun hp => hnot (h hp)))

variable {rest : result -> Program state reason other} {post : other -> state -> Prop}

theorem bind_ok (hrun : prog s = .ok (x, next)) : (prog >>= rest) s = rest x next := by
 simp only [bind, hrun]

theorem bind_error (hrun : prog s = .error why) : (prog >>= rest) s = .error why := by
 simp only [bind, hrun]

theorem bind_eq_ok {y : other} (h : (prog >>= rest) s = .ok (y, next)) :
  exists x mid, prog s = .ok (x, mid) ∧ rest x mid = .ok (y, next) := by
 cases hrun : prog s with
 | error why =>
  rw [bind_error hrun] at h
  cases h
 | ok result =>
  rw [bind_ok hrun] at h
  exact ⟨result.1, result.2, rfl, h⟩

theorem meets_bind {mid : result -> state -> Prop} (hfirst : prog.Meets s stops mid)
  (hrest : forall x next, mid x next -> (rest x).Meets next stops post) :
  (prog >>= rest).Meets s stops post := by
 unfold Meets at hfirst ⊢
 cases hrun : prog s with
 | error why =>
  rw [hrun] at hfirst
  rw [bind_error hrun]
  exact hfirst
 | ok result =>
  rw [hrun] at hfirst
  rw [bind_ok hrun]
  exact hrest _ _ hfirst

theorem meets_pure_bind (h : (rest x).Meets s stops post) : (pure x >>= rest).Meets s stops post :=
 h

end OSLab.Foundation.Program
