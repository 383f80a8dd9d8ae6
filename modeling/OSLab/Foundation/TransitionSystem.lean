import Mathlib.Logic.Function.Basic

/-!
# Guarded transition systems

A concurrent component is described by the states it may start in and by a
step function whose labels resolve every scheduling choice.  A guard restricts
the labels a run may take; it is used both for the discipline that clients of a
component promise and for conditions under which a property is claimed.
-/

namespace OSLab.Foundation

section
variable {key value : Type _} [DecidableEq key] {table : key -> value} {k x : key} {v y : value}

theorem update_eq_iff :
  Function.update table k v x = y ↔ (x = k ∧ v = y) ∨ (x ≠ k ∧ table x = y) := by
 by_cases hx : x = k
 · rw [hx, Function.update_self]
   simp
 rw [Function.update_of_ne hx]
 simp [hx]

theorem of_update (h : Function.update table k v x = y) : (x = k ∧ v = y) ∨ (x ≠ k ∧ table x = y) :=
 update_eq_iff.mp h
end

variable {α : Type _} {p : Prop} [Decidable p] {a b : α}

theorem of_guard (h : (if p then some a else none) = some b) : p ∧ a = b := by
 rcases Option.ite_none_right_eq_some.mp h with ⟨hp, heq⟩
 exact ⟨hp, Option.some.inj heq⟩

instance decidableExistsSome {o : Option α} {P : α -> Prop} [DecidablePred P] :
  Decidable (exists x, o = some x ∧ P x) :=
 inferInstanceAs (Decidable (exists x, x ∈ o ∧ P x))

structure TransitionSystem (state label : Type _) where
 initial : state -> Prop
 step : state -> label -> Option state

namespace TransitionSystem
variable {state label : Type _}

def unguarded : state -> label -> Prop := fun _ _ => True

instance (s : state) (l : label) : Decidable (unguarded s l) := isTrue trivial

/-!
# Guarded runs

Runs grow at their end, so that an invariant proof sees the last step.
-/

inductive Reaches (M : TransitionSystem state label)
  (guard : state -> label -> Prop) : state -> state -> Prop where
 | refl (s : state) : Reaches M guard s s
 | tail {s mid next : state} {l : label} :
  Reaches M guard s mid ->
  guard mid l ->
  M.step mid l = some next ->
  Reaches M guard s next

def Reachable (M : TransitionSystem state label)
  (guard : state -> label -> Prop) (s : state) : Prop :=
 exists start, M.initial start ∧ Reaches M guard start s

variable {M : TransitionSystem state label} {guard : state -> label -> Prop}

theorem reaches_trans {s mid next : state}
  (hfirst : Reaches M guard s mid) (hsecond : Reaches M guard mid next) :
  Reaches M guard s next := by
 induction hsecond with
 | refl => exact hfirst
 | tail _ hguard hstep ih => exact .tail ih hguard hstep

variable {guard weaker : state -> label -> Prop} {s next : state}

theorem reaches_mono (himp : forall s l, guard s l -> weaker s l)
  (hrun : Reaches M guard s next) : Reaches M weaker s next := by
 induction hrun with
 | refl => exact .refl _
 | tail _ hguard hstep ih => exact .tail ih (himp _ _ hguard) hstep

variable {s : state}

theorem reachable_mono (himp : forall s l, guard s l -> weaker s l)
  (hreach : Reachable M guard s) : Reachable M weaker s := by
 rcases hreach with ⟨start, hinitial, hrun⟩
 exact ⟨start, hinitial, reaches_mono himp hrun⟩

theorem reachable_step {l : label} (hreach : Reachable M guard s) (hguard : guard s l)
  (hstep : M.step s l = some next) : Reachable M guard next := by
 rcases hreach with ⟨start, hinitial, hrun⟩
 exact ⟨start, hinitial, .tail hrun hguard hstep⟩

theorem reachable_reaches (hreach : Reachable M guard s) (hrun : Reaches M guard s next) :
  Reachable M guard next := by
 rcases hreach with ⟨start, hinitial, hprefix⟩
 exact ⟨start, hinitial, reaches_trans hprefix hrun⟩

/-!
# Invariants

The step premise may use that the source state is itself reachable, so that an
invariant proved earlier is available in the proof of the next one.
-/

theorem reachable_invariant (Inv : state -> Prop) (hinitial : forall s, M.initial s -> Inv s)
  (hpreserve : forall s l next, Reachable M guard s -> Inv s -> guard s l ->
    M.step s l = some next -> Inv next) (hreach : Reachable M guard s) : Inv s := by
 rcases hreach with ⟨start, hstart, hrun⟩
 induction hrun with
 | refl => exact hinitial _ hstart
 | tail hprefix hguard hstep ih => exact hpreserve _ _ _ ⟨_, hstart, hprefix⟩ ih hguard hstep

theorem reaches_invariant (Inv : state -> Prop)
  (hpreserve : forall mid l after, Reaches M guard s mid -> Inv mid ->
    guard mid l -> M.step mid l = some after -> Inv after)
  (hrun : Reaches M guard s next) (hstart : Inv s) : Inv next := by
 induction hrun with
 | refl => exact hstart
 | tail hprefix hguard hstep ih => exact hpreserve _ _ _ hprefix ih hguard hstep

theorem reachable_weaken (Inv : state -> Prop) (hinitial : forall s, M.initial s -> Inv s)
  (hpreserve : forall s l next, Inv s -> weaker s l ->
    M.step s l = some next -> Inv next) (himp : forall s l, Inv s -> guard s l -> weaker s l)
  (hreach : Reachable M guard s) : Reachable M weaker s := by
 rcases hreach with ⟨start, hstart, hrun⟩
 have hboth : Reachable M weaker s ∧ Inv s := by
  induction hrun with
  | refl => exact ⟨⟨_, hstart, .refl _⟩, hinitial _ hstart⟩
  | tail _ hguard hstep ih =>
   have hweaker := himp _ _ ih.right hguard
   exact ⟨reachable_step ih.left hweaker hstep, hpreserve _ _ _ ih.right hweaker hstep⟩
 exact hboth.left

/-!
# Projection onto a component

A system built from components steps each of them or leaves it alone.  Every
fact about the reachable states of the component then holds of the projection
of every reachable state of the whole.
-/

theorem reachable_project {part partLabel : Type _} {N : TransitionSystem part partLabel}
  {partGuard : part -> partLabel -> Prop} (project : state -> part)
  (hinitial : forall s, M.initial s -> N.initial (project s))
  (hproject : forall s l next, guard s l -> M.step s l = some next -> project next = project s ∨
      exists k, partGuard (project s) k ∧ N.step (project s) k = some (project next))
  (hreach : Reachable M guard s) : Reachable N partGuard (project s) := by
 rcases hreach with ⟨start, hstart, hrun⟩
 induction hrun with
 | refl => exact ⟨_, hinitial _ hstart, .refl _⟩
 | tail _ hguard hstep ih =>
  rcases hproject _ _ _ hguard hstep with heq | ⟨k, hk, hpart⟩
  · rw [heq]
    exact ih
  · exact reachable_step ih hk hpart

/-!
# Schedules

A schedule is a list of labels, executed as far as its steps are enabled.  A
property of steps holds along a schedule if every executed step has it.
-/

def Along (M : TransitionSystem state label) (P : state -> label -> Prop) :
  state -> List label -> Prop
 | _, [] => True
 | s, l :: rest =>
  P s l ∧ match M.step s l with
   | none => True
   | some next => Along M P next rest

section
variable {P Q : state -> label -> Prop} {start : state}

theorem along_mono (h : forall s l, Reaches M unguarded start s -> P s l -> Q s l)
  {schedule : List label} (hall : Along M P start schedule) : Along M Q start schedule := by
 induction schedule generalizing start with
 | nil => trivial
 | cons l rest ih =>
  unfold Along at hall ⊢
  refine ⟨h start l (.refl start) hall.left, ?_⟩
  cases hstep : M.step start l with
  | none => trivial
  | some next =>
   rw [hstep] at hall
   apply ih _ hall.right
   intro s l hs
   exact h s l (reaches_trans (.tail (.refl start) trivial hstep) hs)

theorem along_congr (h : forall s l, Reaches M unguarded start s -> (P s l ↔ Q s l))
  (schedule : List label) : Along M P start schedule ↔ Along M Q start schedule :=
 ⟨along_mono fun s l hs => (h s l hs).mp, along_mono fun s l hs => (h s l hs).mpr⟩

instance decidableAlong [forall s l, Decidable (P s l)] (s : state) :
  (schedule : List label) -> Decidable (Along M P s schedule)
 | [] => isTrue trivial
 | l :: rest =>
  have : Decidable (match M.step s l with | none => True | some next => Along M P next rest) :=
   match M.step s l with
   | none => isTrue trivial
   | some next => decidableAlong next rest
  inferInstanceAs (Decidable (_ ∧ _))
end

/-!
# Executing a schedule

Running a schedule checks the guard at every step, so a concrete schedule that
runs to its end is a concrete guarded run.
-/

def execute (M : TransitionSystem state label)
  (guard : state -> label -> Prop) [forall s l, Decidable (guard s l)] :
  state -> List label -> Option state
 | s, [] => some s
 | s, l :: rest =>
  if guard s l then
   match M.step s l with
   | none => none
   | some next => execute M guard next rest
  else
   none

theorem execute_reaches [forall s l, Decidable (guard s l)] {schedule : List label}
  (h : execute M guard s schedule = some next) : Reaches M guard s next := by
 induction schedule generalizing s with
 | nil =>
  have heq : s = next := by simpa [execute] using h
  rw [heq]
  exact .refl _
 | cons l rest ih =>
  unfold execute at h
  by_cases hguard : guard s l
  · rw [if_pos hguard] at h
    cases hstep : M.step s l with
    | none =>
     rw [hstep] at h
     cases h
    | some mid =>
     rw [hstep] at h
     exact reaches_trans (.tail (.refl s) hguard hstep) (ih h)
  rw [if_neg hguard] at h
  cases h

theorem exists_reaches_of_execute (M : TransitionSystem state label)
  (guard : state -> label -> Prop) [forall s l, Decidable (guard s l)]
  (start : state) (schedule : List label) (P : state -> Prop) [DecidablePred P]
  (h : (execute M guard start schedule).any (fun s => decide (P s))) :
  exists s, Reaches M guard start s ∧ P s := by
 cases hrun : execute M guard start schedule with
 | none =>
  rw [hrun] at h
  cases h
 | some s =>
  rw [hrun] at h
  exact ⟨s, execute_reaches hrun, by simpa using h⟩

theorem exists_reachable_of_execute (M : TransitionSystem state label)
  (guard : state -> label -> Prop) [forall s l, Decidable (guard s l)]
  {start : state} (hstart : M.initial start) (schedule : List label)
  (P : state -> Prop) [DecidablePred P]
  (h : (execute M guard start schedule).any (fun s => decide (P s))) :
  exists s, Reachable M guard s ∧ P s := by
 rcases exists_reaches_of_execute M guard start schedule P h with ⟨s, hrun, hP⟩
 exact ⟨s, ⟨start, hstart, hrun⟩, hP⟩

section
variable [forall s l, Decidable (guard s l)] {start : state} (hstart : M.initial start)
 (schedule : List label) {P Q : state -> Prop} [DecidablePred P]
 (h : (execute M guard start schedule).any (fun s => decide (P s)) = true)
include hstart h

theorem exists_reachable_with : exists s, Reachable M guard s ∧ P s :=
 exists_reachable_of_execute M guard hstart schedule P h

theorem exists_reachable_also (hall : forall s, Reachable M guard s -> Q s) :
  exists s, Reachable M guard s ∧ Q s ∧ P s := by
 rcases exists_reachable_with hstart schedule h with ⟨s, hreach, hP⟩
 exact ⟨s, hreach, hall s hreach, hP⟩
end

end OSLab.Foundation.TransitionSystem
