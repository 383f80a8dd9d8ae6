import OSLab.Common.RawSemaphore
import OSLab.Foundation.TransitionSystem
import OSLab.Kernel.ProcState

/-!
# Unalertable waits

Processes that wait on semaphores, and `kill`.  `_wait_sem` queues the process,
calls `sched` and looks afterwards whether a post has come; `unalertable_wait_sem`
asserts that one has.

The parts of `_wait_sem` are separate steps, so that `kill` may come between any
two of them.  The process holds the lock of the scheduler from before it gives up
the lock of the semaphore until it has switched away, so a post that finds it in
between sets `wait->up` at once and activates it later.
-/

namespace OSLab.Kernel
open Foundation Function TransitionSystem Common RawSemaphore List

abbrev SemId := Nat

inductive WaitPhase where
 | outside
 | queued (sem : SemId) (alertable : Bool)
 | switched (sem : SemId) (alertable : Bool)
 | back (sem : SemId) (alertable : Bool)
deriving DecidableEq

def WaitPhase.on : WaitPhase -> Option SemId
 | outside => none
 | queued sem _ | switched sem _ | back sem _ => some sem

/--
For every process its state, the flag `killed`, its place in `_wait_sem`, the
field `up` of its `WaitData`, and whether a post has set the field and still has to
activate it.  An assertion on the result of an unalertable wait that fails sets
`panicked`.
-/
structure WaitState where
 state : Nat -> ProcState
 killed : Nat -> Bool
 phase : Nat -> WaitPhase
 up : Nat -> Bool
 activating : Nat -> Bool
 sems : SemId -> RawSemaphore Nat
 panicked : Bool

inductive WaitLabel where
 | wait (p : Nat) (sem : SemId) (alertable : Bool)
 | sched (p : Nat)
 | finish (p : Nat)
 | post (sem : SemId)
 | activate (p : Nat)
 | run (p : Nat)
 | preempt (p : Nat)
 | kill (p : Nat)
 | alert (p : Nat)

namespace WaitState
variable (s : WaitState)

/-- `_wait_sem` up to the call of `sched`; a wait that finds a token returns true. -/
def wait (p : Nat) (sem : SemId) (alertable : Bool) : Option WaitState :=
 if s.state p = .running ∧ s.phase p = .outside then
  if ((s.sems sem).waitSem p).1 then
   some { s with sems := update s.sems sem ((s.sems sem).waitSem p).2 }
  else
   some { s with
    sems := update s.sems sem ((s.sems sem).waitSem p).2
    phase := update s.phase p (.queued sem alertable)
    up := update s.up p false }
 else
  none

/-- `simple_sched`, which returns at once if the process is killed. -/
def sched (p : Nat) : Option WaitState :=
 match s.phase p with
 | .queued sem alertable =>
  if s.state p ≠ .running then
   none
  else if s.killed p then
   some { s with phase := update s.phase p (.back sem alertable) }
  else
   some { s with
    state := update s.state p (if alertable then .sleeping else .deepSleeping)
    phase := update s.phase p (.switched sem alertable) }
 | _ => none

/-- The part of `_wait_sem` after `sched`; the poster has given the lock back. -/
def finish (p : Nat) : Option WaitState :=
 match s.phase p with
 | .back sem alertable =>
  if s.state p ≠ .running ∨ s.activating p then
   none
  else if s.up p then
   some { s with phase := update s.phase p .outside }
  else
   match (s.sems sem).cancelWait p with
   | none => none
   | some next =>
    some { s with
     sems := update s.sems sem next
     phase := update s.phase p .outside
     panicked := s.panicked || !alertable }
 | _ => none

def post (sem : SemId) : Option WaitState :=
 match (s.sems sem).postSem with
 | none => none
 | some (none, next) => some { s with sems := update s.sems sem next }
 | some (some p, next) =>
  some { s with
   sems := update s.sems sem next
   up := update s.up p true
   activating := update s.activating p true }

def activate (s : WaitState) (p : Nat) : Option WaitState :=
 match s.activating p, s.phase p with
 | false, _ | true, .queued _ _ => none
 | true, _ =>
  some { s with
   state := update s.state p ((s.state p).activate false)
   activating := update s.activating p false }

def run (p : Nat) : Option WaitState :=
 if s.state p = .runnable then
  some { s with
   state := update s.state p .running
   phase := update s.phase p (match s.phase p with
    | .switched sem alertable => .back sem alertable
    | phase => phase) }
 else
  none

def preempt (p : Nat) : Option WaitState :=
 match s.phase p with
 | .queued _ _ => none
 | _ =>
  if s.state p = .running ∧ s.killed p = false then
   some { s with state := update s.state p .runnable }
  else
   none

def kill (p : Nat) : WaitState := { s with killed := update s.killed p true }

def alert (p : Nat) : WaitState :=
 { s with state := update s.state p ((s.state p).activate true) }

def step : WaitLabel -> Option WaitState
 | .wait p sem alertable => s.wait p sem alertable
 | .sched p => s.sched p
 | .finish p => s.finish p
 | .post sem => s.post sem
 | .activate p => s.activate p
 | .run p => s.run p
 | .preempt p => s.preempt p
 | .kill p => some (s.kill p)
 | .alert p => some (s.alert p)

structure Start (s : WaitState) : Prop where
 outside : forall p, s.phase p = .outside
 idle : forall p, s.activating p = false
 empty : forall sem, (s.sems sem).sleeplist = []
 running : s.panicked = false

def SleepsAlive : WaitLabel -> Prop
 | .sched p =>
  match s.phase p with
  | .queued _ false => s.killed p = false
  | _ => True
 | _ => True

end WaitState

def waitSystem : TransitionSystem WaitState WaitLabel where
 initial := WaitState.Start
 step := WaitState.step

/-!
# The invariant
-/

namespace WaitState

/--
A process in a list waits there and has not been posted to; a post that is to
activate a process has set `up`; and a process in an unalertable wait leaves its
deep sleep only if `up` is set.
-/
structure Waiting (s : WaitState) : Prop where
 listed : forall sem p, p ∈ (s.sems sem).sleeplist -> (s.phase p).on = some sem ∧ s.up p = false
 nodup : forall sem, (s.sems sem).sleeplist.Nodup
 posted : forall p, s.activating p = true -> s.up p = true ∧ s.phase p ≠ .outside
 asleep : forall p sem, s.phase p = .switched sem false -> s.state p = .deepSleeping ∨ s.up p = true
 back : forall p sem, s.phase p = .back sem false -> s.up p = true
 calm : s.panicked = false

theorem waiting_start {s : WaitState} (h : s.Start) : s.Waiting where
 listed := by
  intro sem p hp
  rw [h.empty] at hp
  cases hp
 nodup := by
  intro sem
  rw [h.empty]
  exact nodup_nil
 posted := by
  intro p hp
  rw [h.idle] at hp
  cases hp
 asleep := by
  intro p sem hp
  rw [h.outside] at hp
  cases hp
 back := by
  intro p sem hp
  rw [h.outside] at hp
  cases hp
 calm := h.running

variable {s next : WaitState} {p : Nat} {sem : SemId} {alertable : Bool}

section
variable (h : s.Waiting)
include h

theorem Waiting.notListed (hp : s.phase p = .outside)
  (sem : SemId) : p ∉ (s.sems sem).sleeplist := by
 intro hmem
 have hon := (h.listed sem p hmem).left
 rw [hp] at hon
 cases hon

theorem Waiting.setState (state : Nat -> ProcState)
    (hstate : forall p sem, s.phase p = .switched sem false ->
      s.state p = .deepSleeping -> s.up p = false ->
      state p = .deepSleeping) :
    Waiting { s with state := state } := { h with
 asleep := by
  intro p sem hp
  rcases h.asleep p sem hp with hdeep | hup
  · by_cases hup : s.up p = true
    · exact .inr hup
    · exact .inl (hstate p sem hp hdeep (Bool.not_eq_true _ ▸ hup))
  · exact .inr hup }

theorem Waiting.setPhase (phase : WaitPhase) (hon : phase.on = (s.phase p).on)
    (hasleep : forall sem, phase = .switched sem false -> s.state p = .deepSleeping ∨ s.up p)
    (hback : forall sem, phase = .back sem false -> s.up p) :
    Waiting { s with phase := update s.phase p phase } := { h with
 listed := by
  intro sem q hq
  have hlisted := h.listed sem q hq
  refine ⟨?_, hlisted.right⟩
  change (update s.phase p phase q).on = some sem
  by_cases hqp : q = p
  · rw [hqp, update_self, hon, ← hqp]
    exact hlisted.left
  rw [update_of_ne hqp]
  exact hlisted.left
 posted := by
  intro q hq
  have hposted := h.posted q hq
  refine ⟨hposted.left, ?_⟩
  change update s.phase p phase q ≠ .outside
  by_cases hqp : q = p
  · rw [hqp, update_self]
    intro houtside
    apply hposted.right
    rw [houtside, ← hqp] at hon
    cases hphase : s.phase q with
    | outside => rfl
    | _ =>
     rw [hphase] at hon
     cases hon
  rw [update_of_ne hqp]
  exact hposted.right
 asleep := by
  intro q sem hq
  rcases of_update hq with ⟨hqp, hq⟩ | ⟨_, hq⟩
  · rw [hqp]
    exact hasleep sem hq
  · exact h.asleep q sem hq
 back := by
  intro q sem hq
  rcases of_update hq with ⟨hqp, hq⟩ | ⟨_, hq⟩
  · rw [hqp]
    exact hback sem hq
  · exact h.back q sem hq }

theorem Waiting.setSem {next : RawSemaphore Nat}
    (hsub : Sublist next.sleeplist (s.sems sem).sleeplist) :
    Waiting { s with sems := update s.sems sem next } := { h with
 listed := by
  intro other q hq
  change q ∈ (update s.sems sem next other).sleeplist at hq
  by_cases hother : other = sem
  · rw [hother, update_self] at hq
    rw [hother]
    exact h.listed sem q (hsub.subset hq)
  rw [update_of_ne hother] at hq
  exact h.listed other q hq
 nodup := by
  intro other
  change (update s.sems sem next other).sleeplist.Nodup
  by_cases hother : other = sem
  · rw [hother, update_self]
    exact (h.nodup sem).sublist hsub
  rw [update_of_ne hother]
  exact h.nodup other }

theorem Waiting.leave
    (hlists : forall sem, p ∉ (s.sems sem).sleeplist) (hidle : s.activating p = false) :
    Waiting { s with phase := update s.phase p .outside } := { h with
 listed := by
  intro sem q hq
  have hqp : q ≠ p := by
   rintro rfl
   exact hlists sem hq
  change (update s.phase p .outside q).on = _ ∧ _
  rw [update_of_ne hqp]
  exact h.listed sem q hq
 posted := by
  intro q hq
  have hqp : q ≠ p := by
   rintro rfl
   rw [hidle] at hq
   cases hq
  change _ ∧ update s.phase p .outside q ≠ _
  rw [update_of_ne hqp]
  exact h.posted q hq
 asleep := by
  intro q sem hq
  rcases of_update hq with ⟨_, hq⟩ | ⟨_, hq⟩
  · cases hq
  · exact h.asleep q sem hq
 back := by
  intro q sem hq
  rcases of_update hq with ⟨_, hq⟩ | ⟨_, hq⟩
  · cases hq
  · exact h.back q sem hq }

/-!
# Steps
-/

theorem Waiting.queue (hp : s.phase p = .outside) (val : Int) : Waiting { s with
 sems := update s.sems sem { val := val, sleeplist := p :: (s.sems sem).sleeplist }
 phase := update s.phase p (.queued sem alertable)
 up := update s.up p false } where
 listed := by
  intro other q hq
  change q ∈ (update s.sems sem _ other).sleeplist at hq
  change (update s.phase p _ q).on = some other ∧ update s.up p false q = false
  by_cases hqp : q = p
  · rw [hqp, update_self, update_self]
    refine ⟨?_, rfl⟩
    by_cases hother : other = sem
    · rw [hother]
      rfl
    rw [update_of_ne hother, hqp] at hq
    exact absurd hq (h.notListed hp other)
  rw [update_of_ne hqp, update_of_ne hqp]
  by_cases hother : other = sem
  · rw [hother, update_self] at hq
    rw [hother]
    rcases mem_cons.mp hq with heq | hmem
    · exact absurd heq hqp
    · exact h.listed sem q hmem
  rw [update_of_ne hother] at hq
  exact h.listed other q hq
 nodup := by
  intro other
  change (update s.sems sem _ other).sleeplist.Nodup
  by_cases hother : other = sem
  · rw [hother, update_self, nodup_cons]
    exact ⟨h.notListed hp sem, h.nodup sem⟩
  rw [update_of_ne hother]
  exact h.nodup other
 posted := by
  intro q hq
  have hposted := h.posted q hq
  have hqp : q ≠ p := by
   rintro rfl
   exact hposted.right hp
  change update s.up p false q = true ∧ update s.phase p _ q ≠ _
  rw [update_of_ne hqp, update_of_ne hqp]
  exact hposted
 asleep := by
  intro q other hq
  change _ ∨ update s.up p false q = true
  rcases of_update hq with ⟨_, hq⟩ | ⟨hqp, hq⟩
  · cases hq
  rw [update_of_ne hqp]
  exact h.asleep q other hq
 back := by
  intro q other hq
  change update s.up p false q = true
  rcases of_update hq with ⟨_, hq⟩ | ⟨hqp, hq⟩
  · cases hq
  rw [update_of_ne hqp]
  exact h.back q other hq
 calm := h.calm

theorem Waiting.wait (hstep : s.wait p sem alertable = some next) : next.Waiting := by
 unfold WaitState.wait at hstep
 rcases Option.ite_none_right_eq_some.mp hstep with ⟨hcan, hstep⟩
 split at hstep
 · rename_i htoken
   cases hstep
   have hlist := waitSem_true htoken
   exact h.setSem (hlist ▸ Sublist.refl _)
 rename_i htoken
 rw [waitSem_false (Bool.not_eq_true _ ▸ htoken)] at hstep
 cases hstep
 exact h.queue hcan.right _

theorem Waiting.sched (hguard : s.SleepsAlive (.sched p))
  (hstep : s.sched p = some next) : next.Waiting := by
 unfold WaitState.sched at hstep
 unfold SleepsAlive at hguard
 cases hphase : s.phase p with
 | queued sem alertable =>
  simp only [hphase] at hstep hguard
  split at hstep
  · cases hstep
  split at hstep
  · rename_i hkilled
    cases hstep
    apply h.setPhase
    · rw [hphase]
      rfl
    · nofun
    intro other hother
    cases hother
    rw [hkilled] at hguard
    cases hguard
  cases hstep
  have hstate := h.setState (update s.state p
   (if alertable then .sleeping else .deepSleeping)) (by
    intro q other hq hdeep _
    have hqp : q ≠ p := by
     rintro rfl
     rw [hphase] at hq
     cases hq
    rw [update_of_ne hqp]
    exact hdeep)
  apply hstate.setPhase
  · rw [hphase]
    rfl
  · intro other hother
    cases hother
    left
    change update s.state p _ p = _
    rw [update_self]
    rfl
  · nofun
 | _ =>
  rw [hphase] at hstep
  cases hstep

theorem Waiting.finish (hstep : s.finish p = some next) : next.Waiting := by
 unfold WaitState.finish at hstep
 cases hphase : s.phase p with
 | back sem alertable =>
  simp only [hphase] at hstep
  split at hstep
  · cases hstep
  rename_i hready
  have hidle : s.activating p = false := by
   cases hactivating : s.activating p with
   | false => rfl
   | true => exact absurd (.inr hactivating) hready
  split at hstep
  · rename_i hup
    cases hstep
    apply h.leave _ hidle
    intro other hmem
    have hdown := (h.listed other p hmem).right
    rw [hup] at hdown
    cases hdown
  rename_i hup
  have halertable : alertable := by
   cases alertable with
   | true => rfl
   | false => exact absurd (h.back p sem hphase) hup
  cases hcancel : (s.sems sem).cancelWait p with
  | none =>
   rw [hcancel] at hstep
   cases hstep
  | some cancelled =>
   rw [hcancel] at hstep
   cases hstep
   have hlist := cancelWait_some hcancel
   have hset : Waiting { s with sems := update s.sems sem cancelled } := by
    apply h.setSem
    rw [hlist]
    exact erase_sublist
   rw [halertable, Bool.not_true, Bool.or_false]
   apply hset.leave _ hidle
   intro other hmem
   change p ∈ (update s.sems sem cancelled other).sleeplist at hmem
   by_cases hother : other = sem
   · rw [hother, update_self, hlist] at hmem
     exact (h.nodup sem).not_mem_erase hmem
   rw [update_of_ne hother] at hmem
   have hon := (h.listed other p hmem).left
   rw [hphase] at hon
   cases hon
   exact hother rfl
 | _ =>
  rw [hphase] at hstep
  cases hstep

theorem Waiting.wake {after : RawSemaphore Nat}
    (hlist : (s.sems sem).sleeplist = after.sleeplist ++ [p]) :
    Waiting { s with
 sems := update s.sems sem after
 up := update s.up p true
 activating := update s.activating p true } := by
 have hmem : p ∈ (s.sems sem).sleeplist := by
  rw [hlist]
  exact mem_append_right _ (mem_singleton_self p)
 have hon := (h.listed sem p hmem).left
 have hnodup := h.nodup sem
 rw [hlist, nodup_append] at hnodup
 have hset : Waiting { s with sems := update s.sems sem after } := by
  apply h.setSem
  rw [hlist]
  exact sublist_append_left _ _
 have hnot : forall other, p ∉ (update s.sems sem after other).sleeplist := by
  intro other hother
  by_cases heq : other = sem
  · rw [heq, update_self] at hother
    exact hnodup.right.right p hother p (mem_singleton_self p) rfl
  rw [update_of_ne heq] at hother
  have hon' := (h.listed other p hother).left
  rw [hon] at hon'
  cases hon'
  exact heq rfl
 have hup : forall q, s.up q -> update s.up p true q := by
  intro q hq
  by_cases hqp : q = p
  · rw [hqp, update_self]
  rw [update_of_ne hqp]
  exact hq
 exact {
  listed := by
   intro other q hq
   have hqp : q ≠ p := by
    rintro rfl
    exact hnot other hq
   change _ ∧ update s.up p true q = false
   rw [update_of_ne hqp]
   exact hset.listed other q hq
  nodup := hset.nodup
  posted := by
   intro q hq
   change update s.activating p true q = true at hq
   change update s.up p true q = true ∧ s.phase q ≠ .outside
   by_cases hqp : q = p
   · rw [hqp, update_self]
     refine ⟨rfl, ?_⟩
     intro houtside
     rw [houtside] at hon
     cases hon
   rw [update_of_ne hqp] at hq ⊢
   exact h.posted q hq
  asleep := by
   intro q other hq
   rcases h.asleep q other hq with hdeep | hq
   · exact .inl hdeep
   · exact .inr (hup q hq)
  back := by
   intro q other hq
   exact hup q (h.back q other hq)
  calm := h.calm }

theorem Waiting.post (hstep : s.post sem = some next) : next.Waiting := by
 unfold WaitState.post at hstep
 cases hpost : (s.sems sem).postSem with
 | none =>
  rw [hpost] at hstep
  cases hstep
 | some result =>
  rcases result with ⟨woken, after⟩
  rw [hpost] at hstep
  cases woken with
  | none =>
   cases hstep
   have hlist := postSem_none hpost
   exact h.setSem (hlist ▸ Sublist.refl _)
  | some p =>
   cases hstep
   exact h.wake (postSem_some hpost)

theorem Waiting.activate (hstep : s.activate p = some next) : next.Waiting := by
 unfold WaitState.activate at hstep
 split at hstep
 · cases hstep
 · cases hstep
 rename_i hactivating _
 cases hstep
 have hposted := h.posted p hactivating
 have hstate := h.setState (update s.state p ((s.state p).activate false)) (by
  intro q other _ hdeep hdown
  have hqp : q ≠ p := by
   rintro rfl
   rw [hposted.left] at hdown
   cases hdown
  rw [update_of_ne hqp]
  exact hdeep)
 exact { hstate with
  posted := by
   intro q hq
   rcases of_update hq with ⟨_, hq⟩ | ⟨_, hq⟩
   · cases hq
   · exact h.posted q hq }

theorem Waiting.run (hstep : s.run p = some next) : next.Waiting := by
 unfold WaitState.run at hstep
 rcases of_guard hstep with ⟨hrunnable, rfl⟩
 have hstate := h.setState (update s.state p .running) (by
  intro q other _ hdeep _
  have hqp : q ≠ p := by
   rintro rfl
   rw [hrunnable] at hdeep
   cases hdeep
  rw [update_of_ne hqp]
  exact hdeep)
 cases hphase : s.phase p with
 | switched sem alertable =>
  apply hstate.setPhase
  · rw [hphase]
    rfl
  · nofun
  intro other hother
  cases hother
  rcases h.asleep p sem hphase with hdeep | hup
  · rw [hrunnable] at hdeep
    cases hdeep
  · exact hup
 | _ =>
  simp only
  rw [← hphase, update_eq_self]
  exact hstate

theorem Waiting.preempt (hstep : s.preempt p = some next) : next.Waiting := by
 unfold WaitState.preempt at hstep
 split at hstep
 · cases hstep
 rcases of_guard hstep with ⟨hrunning, rfl⟩
 apply h.setState
 intro q other _ hdeep _
 have hqp : q ≠ p := by
  rintro rfl
  rw [hrunning.left] at hdeep
  cases hdeep
 rw [update_of_ne hqp]
 exact hdeep

theorem Waiting.alert (p : Nat) : (s.alert p).Waiting := by
 apply h.setState
 intro q other _ hdeep _
 by_cases hqp : q = p
 · rw [hqp, update_self, ← hqp, hdeep]
   exact ProcState.alert_deepSleeping
 rw [update_of_ne hqp]
 exact hdeep

theorem waiting_step {l : WaitLabel} (hguard : s.SleepsAlive l)
  (hstep : s.step l = some next) : next.Waiting := by
 cases l with
 | wait p sem alertable => exact h.wait hstep
 | sched p => exact h.sched hguard hstep
 | finish p => exact h.finish hstep
 | post sem => exact h.post hstep
 | activate p => exact h.activate hstep
 | run p => exact h.run hstep
 | preempt p => exact h.preempt hstep
 | kill p =>
  cases hstep
  exact { h with }
 | alert p =>
  cases hstep
  exact h.alert p
end

end WaitState

/--
No assertion on an unalertable wait fails: none has failed, and a process that is
about to return from `_wait_sem(sem, false)` returns true.
-/
theorem unalertable_wait_of_reachable {s : WaitState}
  (hreach : Reachable waitSystem WaitState.SleepsAlive s) :
  s.panicked = false ∧ forall p sem, s.phase p = WaitPhase.back sem false -> s.up p = true := by
 have hwaiting : s.Waiting := by
  apply reachable_invariant WaitState.Waiting _ _ hreach
  · intro s h
    exact WaitState.waiting_start h
  intro s l next _ h hguard hstep
  exact WaitState.waiting_step h hguard hstep
 exact ⟨hwaiting.calm, hwaiting.back⟩

/-!
# Two processes and a lock
-/

instance (s : WaitState) : (l : WaitLabel) -> Decidable (s.SleepsAlive l)
 | .sched p =>
  show Decidable (match s.phase p with
   | .queued _ false => s.killed p = false
   | _ => True) from
  match s.phase p with
  | .queued _ false => instDecidableEqBool _ _
  | .queued _ true | .outside | .switched _ _ | .back _ _ => isTrue trivial
 | .wait _ _ _ | .finish _ | .post _ | .activate _ | .run _ | .preempt _ | .kill _ | .alert _ =>
  isTrue trivial

def oneLock : WaitState where
 state := fun _ => .running
 killed := fun _ => false
 phase := fun _ => .outside
 up := fun _ => false
 activating := fun _ => false
 sems := fun _ => initSem 1
 panicked := false

theorem oneLock_start : waitSystem.initial oneLock where
 outside := fun _ => rfl
 idle := fun _ => rfl
 empty := fun _ => rfl
 running := rfl

open WaitLabel in
/-- A process that is killed in its sleep gets the lock when it is posted. -/
theorem unalertable_wait_killed_asleep :
  exists s, Reachable waitSystem WaitState.SleepsAlive s ∧ s.killed 1 = true ∧
    s.phase 1 = WaitPhase.back 0 false ∧ s.up 1 = true := by
 rcases exists_reachable_of_execute waitSystem WaitState.SleepsAlive oneLock_start
  [wait 2 0 false, wait 1 0 false, sched 1, kill 1, alert 1, post 0, activate 1, run 1]
  (fun s => s.killed 1 = true ∧ s.phase 1 = .back 0 false) (by decide +kernel) with
  ⟨s, hreach, hkilled, hphase⟩
 exact ⟨s, hreach, hkilled, hphase, (unalertable_wait_of_reachable hreach).right 1 0 hphase⟩

open WaitLabel in
/-- A process that is killed before it waits for a lock that another one holds. -/
theorem unalertable_wait_killed_panics :
  exists s, Reachable waitSystem unguarded s ∧ s.panicked = true :=
 exists_reachable_with oneLock_start
  [wait 2 0 false, kill 1, alert 1, wait 1 0 false, sched 1, finish 1] (by decide +kernel)

end OSLab.Kernel
