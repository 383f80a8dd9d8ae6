import OSLab.Kernel.PidMap
import OSLab.Kernel.SchedRuns
import Mathlib.Algebra.Order.BigOperators.Group.Finset

/-!
# What the scheduler guarantees

Membership in the run queues, the choice of the next process, and the order and the
weights of the queues.
-/

namespace OSLab.Kernel
open Foundation TransitionSystem ColorTree Finset Sched
variable {tidy : Prop} {s mid next : Sched} {A Q : Finset Addr} {a c d p n : Addr} {cpu : Cpu}
 {new : ProcState}

namespace Sched

def activeProcs (s : Sched) (c : Addr) : Finset Addr :=
 s.procs.filter (fun p => s.container p = c ∧ (s.state p = .runnable ∨ s.state p = .running))

def activeConts (s : Sched) (c : Addr) : Finset Addr :=
 s.conts.filter (fun d => d ≠ s.rootContainer ∧ s.parent d = c ∧ 0 < (s.rq d).nrRunning)

theorem counted_iff_nrRunning (hacc : Accounts tidy s A Q) (hd : d ∈ s.conts)
  (hroot : d ≠ s.rootContainer) : d ∈ A ↔ 0 < (s.rq d).nrRunning := by
 rw [hacc.settled d hd hroot, hacc.queues.counts d hd, card_pos]

theorem root_notMem (hl : s.Layout) (hacc : Accounts tidy s A Q) : s.rootContainer ∉ A := by
 intro hmem
 rcases hacc.members _ hmem with hp | hc
 · exact hl.single_notMem hp hl.hierarchy.left
 · exact hc.right rfl

theorem tally_eq_active (hl : s.Layout) (hacc : Accounts tidy s A Q) (hstates : s.States A Q)
  (c : Addr) : tally s.home A c = s.activeProcs c ∪ s.activeConts c := by
 apply ext
 intro a
 unfold activeProcs activeConts
 rw [mem_tally, mem_union, mem_filter, mem_filter]
 constructor
 · rintro ⟨ha, hat⟩
   rcases hacc.members a ha with hp | ⟨hc, hroot⟩
   · rw [hl.home_single hp] at hat
     exact .inl ⟨hp, hat, (hstates.counted a hp).mp ha⟩
   rw [hl.home_group hc] at hat
   exact .inr ⟨hc, hroot, hat, (counted_iff_nrRunning hacc hc hroot).mp ha⟩
 rintro (⟨hp, hat, hstate⟩ | ⟨hc, hroot, hat, hsome⟩)
 · rw [hl.home_single hp]
   exact ⟨(hstates.counted a hp).mpr hstate, hat⟩
 · rw [hl.home_group hc]
   exact ⟨(counted_iff_nrRunning hacc hc hroot).mpr hsome, hat⟩

theorem active_disjoint (hl : s.Layout) (c : Addr) :
  Disjoint (s.activeProcs c) (s.activeConts c) := by
 rw [disjoint_left]
 intro a hp hc
 exact hl.single_notMem (mem_filter.mp hp).left (mem_filter.mp hc).left

/-!
# Membership
-/

structure Membership (s : Sched) : Prop where
 processes : forall p c, p ∈ s.procs -> c ∈ s.conts ->
  (p ∈ (s.rq c).root.toList ↔ s.container p = c ∧ s.state p = .runnable)
 current : forall p, p ∈ s.procs -> ((exists cpu, s.curProc cpu = p) ↔ s.state p = .running)
 once : forall i j, s.curProc i = s.curProc j -> i = j
 counts : forall c, c ∈ s.conts ->
  (s.rq c).nrRunning = (s.activeProcs c).card + (s.activeConts c).card
 containers : forall d c, d ∈ s.conts -> d ≠ s.rootContainer -> c ∈ s.conts ->
  (d ∈ (s.rq c).root.toList ↔ s.parent d = c ∧ 0 < (s.rq d).nrRunning)
 schedules : forall cpu new now later, s.Proper (.sched cpu new now later) ->
  (s.simpleSched cpu new now later).isSome
 activates : forall cpu p onalert, p ∈ s.procs -> (s.activateProc cpu p onalert).isSome
 kills : forall cpu p, p ∈ s.procs -> (s.kill cpu p).isSome

theorem Sound.membership (h : s.Sound False) : s.Membership := by
 have hl := h.layout
 rcases h.booked with ⟨A, Q, hacc, hstates⟩
 constructor
 · intro p c hp hc
   rw [hacc.queues.nodes c hc, mem_tally, hstates.queued p hp, hl.home_single hp]
   exact And.comm
 · intro p hp
   constructor
   · rintro ⟨cpu, hcur⟩
     rw [← hcur]
     exact h.cpus.running cpu
   · intro hrun
     exact h.cpus.placed p hp hrun
 · exact h.cpus.distinct
 · intro c hc
   rw [hacc.queues.counts c hc, tally_eq_active hl hacc hstates,
    card_union_of_disjoint (active_disjoint hl c)]
 · intro d c hd hroot hc
   rw [hacc.queues.nodes c hc, mem_tally, hl.home_group hd, ← counted_iff_nrRunning hacc hd hroot]
   constructor
   · rintro ⟨hin, hat⟩
     exact ⟨hat, hacc.subset hin⟩
   · rintro ⟨hat, hin⟩
     exact ⟨hacc.groups d hd hin, hat⟩
 · intro cpu new now later hproper
   rcases h.simpleSched now later hproper with ⟨next, hcall, _⟩
   rw [hcall]
   rfl
 · intro cpu p onalert hp
   rcases h.activateProc hp cpu onalert with ⟨r, next, hcall, _⟩
   rw [hcall]
   rfl
 · intro cpu p hp
   rcases h.kill hp cpu False.elim with ⟨next, hcall, _⟩
   rw [hcall]
   rfl

end Sched

theorem run_queue_membership_of_reachable {s : Sched}
  (hreach : Reachable schedSystem Sched.Proper s) : s.Membership := by
 apply Sound.membership
 exact sound_of_reachable (fun _ _ h => h) False.elim hreach

/-- Memory at the start: the root container is at 1, and the idle processes are from 100 on. -/
def bootSched : Sched where
 vruntime := fun _ => 0
 starttime := fun _ => 0
 prio := fun a => if 100 ≤ a then 39 else 21
 weight := fun a => if 100 ≤ a then 15 else initWeight
 isContainer := fun a => decide (a = 1)
 state := fun a => if 100 ≤ a then .running else .unused
 killed := fun _ => false
 idle := fun a => decide (100 ≤ a)
 container := fun _ => 1
 parent := fun _ => 0
 rq := fun _ => CfsRq.init
 idleProc := fun cpu => 100 + cpu
 curProc := fun cpu => 100 + cpu
 elapse := fun _ => 0
 panicFlag := false
 rootContainer := 1
 procs := ∅
 conts := {1}

theorem bootSched_start : schedSystem.initial bootSched where
 procs := rfl
 conts := rfl
 group := rfl
 weight := rfl
 rq := rfl
 current := fun _ => rfl
 idle := by
  intro cpu
  have hle : 100 ≤ 100 + cpu := Nat.le_add_right 100 cpu
  have hone : 1 < 100 + cpu := Nat.lt_of_lt_of_le (by decide) hle
  exact ⟨decide_eq_true hle, if_pos hle, Nat.ne_of_gt hone⟩
 injective := fun _ _ h => Nat.add_left_cancel h

open SchedLabel in
/-- A process of the container 2 runs on CPU 0, and one of the root waits. -/
theorem run_queue_membership_nested :
  exists s, Reachable schedSystem Sched.Proper s ∧ s.Membership ∧
    s.curProc 0 = 10 ∧ (s.rq 2).nrRunning = 1 ∧ (s.rq 2).root.toList = [] ∧
    (s.rq 1).nrRunning = 2 ∧ (s.rq 1).root.toList = [2, 11] := by
 exact exists_reachable_also bootSched_start
  [initContainer 2 1, createProc 10 2, activate 0 10 false, activateGroup 0 2,
   sched 0 .runnable 5 5, createProc 11 1, activate 1 11 false] (by decide +kernel)
  (fun _ => run_queue_membership_of_reachable)

open SchedLabel in
/--
`simple_sched(RUNNING)`: the process is `RUNNING`, on no CPU and not counted.  An idle
process that goes to sleep is chosen again and fails the second `ASSERT`.
-/
theorem sched_running_loses_process :
  (exists s, Reachable schedSystem unguarded s ∧ 10 ∈ s.procs ∧ s.container 10 = 1 ∧
    s.state 10 = ProcState.running ∧ s.curProc 0 = 100 ∧ s.curProc 1 = 101 ∧
    (s.rq 1).nrRunning = 0) ∧
  schedSystem.initial bootSched ∧ bootSched.state (bootSched.curProc 0) = .running ∧
   bootSched.simpleSched 0 .sleeping 5 5 = none := by
 refine ⟨?_, bootSched_start, rfl, rfl⟩
 exact exists_reachable_with bootSched_start
  [createProc 10 1, activate 0 10 false, sched 0 .runnable 5 5,
   sched 0 .running 6 6] (by decide +kernel)

/-!
# The choice of the next process
-/

namespace Sched

def Filled (s : Sched) : Prop :=
 forall c, c ∈ s.conts -> c ≠ s.rootContainer -> 0 < (s.rq c).nrRunning -> (s.rq c).root ≠ leaf

instance (s : Sched) : Decidable s.Filled :=
 inferInstanceAs (Decidable (forall c, c ∈ s.conts -> _))

theorem root_queue_of_runnable (hl : s.Layout) (hacc : Accounts tidy s A Q)
  (hstates : s.States A Q) (hp : p ∈ s.procs) (hrunnable : s.state p = .runnable) :
  (s.rq s.rootContainer).root ≠ leaf := by
 have hin : p ∈ Q := (hstates.queued p hp).mpr hrunnable
 have hup : forall a, a ∈ Q -> s.home a ∈ s.conts -> s.home a ≠ s.rootContainer ->
  s.home a ∈ Q := by
  intro a ha hmem hroot
  exact hacc.groups _ hmem (hacc.home_counted (hacc.subset ha) hmem hroot)
 rcases hl.hierarchy.tally_root (fun c hc => hl.home_group hc) hup hin
  (hacc.home_mem hl (hacc.subset hin)) with ⟨a, ha⟩
 rw [← hacc.queues.nodes _ hl.hierarchy.left] at ha
 intro hleaf
 rw [hleaf] at ha
 exact absurd ha List.not_mem_nil

theorem pickNext_of_filled (hl : s.Layout) (hbooked : s.Booked tidy)
  (hpanic : s.panicFlag = false) (hfilled : s.Filled) :
  exists n next, s.pickNext cpu = some (n, next) ∧
    (n = s.idleProc cpu -> forall p, p ∈ s.procs -> s.state p ≠ .runnable) := by
 rcases hbooked with ⟨A, Q, hacc, hstates⟩
 rcases recurGetProc_spec hl hacc with ⟨⟨found, next⟩, hfound, hspec⟩
 unfold pickNext
 rw [if_neg (Bool.eq_false_iff.mp hpanic), hfound]
 cases found with
 | some n =>
  refine ⟨n, next, rfl, ?_⟩
  intro hidle
  exact absurd hidle (hl.idle_ne (hspec.some n rfl).left cpu)
 | none =>
  refine ⟨s.idleProc cpu, next, rfl, ?_⟩
  intro _ p hp hrunnable
  rcases (hspec.none rfl).right with ⟨c, hc, hleaf, hroot | hqueued⟩
  · rw [hroot] at hleaf
    exact root_queue_of_runnable hl hacc hstates hp hrunnable hleaf
  have hin := hacc.subset hqueued
  have hroot : c ≠ s.rootContainer := by
   rintro rfl
   exact root_notMem hl hacc hin
  exact hfilled c hc hroot ((counted_iff_nrRunning hacc hc hroot).mp hin) hleaf

end Sched

/-- `mid` is the state in which `simple_sched` calls `pick_next`. -/
theorem pick_next_idle_only_without_work {s mid : Sched} {cpu : Cpu} {new : ProcState}
  {now later : Nat} (hreach : Reachable schedSystem Sched.Proper s)
  (hproper : s.Proper (SchedLabel.sched cpu new now later))
  (hmid : s.updateThisState cpu new now = some mid) (hpanic : mid.panicFlag = false)
  (hfilled : mid.Filled) :
  exists n next, mid.pickNext cpu = some (n, next) ∧
    (n = mid.idleProc cpu -> forall p, p ∈ mid.procs -> mid.state p ≠ ProcState.runnable) := by
 have hsound : s.Sound False := sound_of_reachable (fun _ _ h => h) False.elim hreach
 rcases hsound.updateThisState cpu hproper.left now with ⟨after, hafter, _, hl, hbooked⟩
 rw [hmid] at hafter
 cases hafter
 exact pickNext_of_filled hl hbooked hpanic hfilled

open SchedLabel in
/-- CPU 1 finds the second process of the container 2 while the first one runs. -/
theorem pick_next_finds_second : exists s mid, Reachable schedSystem Sched.Proper s ∧
    s.updateThisState 1 ProcState.runnable 6 = some mid ∧
    (exists n next, mid.pickNext 1 = some (n, next) ∧
      (n = mid.idleProc 1 -> forall p, p ∈ mid.procs -> mid.state p ≠ ProcState.runnable)) ∧
    mid.curProc 0 = 10 ∧ mid.state 11 = ProcState.runnable := by
 rcases exists_reachable_of_execute schedSystem Proper bootSched_start
  [initContainer 2 1, createProc 10 2, activate 0 10 false,
   sched 0 .runnable 5 5, createProc 11 2, activate 1 11 false]
  (fun s => s.Proper (sched 1 .runnable 6 6) ∧
   exists mid, mid ∈ s.updateThisState 1 .runnable 6 ∧ mid.panicFlag = false ∧
    mid.Filled ∧ mid.curProc 0 = 10 ∧ mid.state 11 = .runnable)
  (by decide +kernel) with ⟨s, hreach, hproper, mid, hmid, hpanic, hfilled, hafter⟩
 exact ⟨s, mid, hreach, hmid, pick_next_idle_only_without_work hreach hproper hmid hpanic
  hfilled, hafter⟩

open SchedLabel in
/--
The only process of the container 2 runs on CPU 0, and the container is the first in the
queue of the root: CPU 1 takes its idle process although the process 11 is runnable.
-/
theorem pick_next_idles_with_work : exists s mid next, Reachable schedSystem Sched.Proper s ∧
    s.updateThisState 1 ProcState.runnable 6 = some mid ∧ mid.panicFlag = false ∧
    mid.pickNext 1 = some (mid.idleProc 1, next) ∧ 11 ∈ mid.procs ∧
    mid.state 11 = ProcState.runnable := by
 rcases exists_reachable_of_execute schedSystem Proper bootSched_start
  [initContainer 2 1, createProc 10 2, activate 0 10 false,
   sched 0 .runnable 5 5, createProc 11 1, activate 1 11 false]
  (fun s => exists mid, mid ∈ s.updateThisState 1 .runnable 6 ∧
   (exists picked, picked ∈ mid.pickNext 1 ∧ picked.1 = mid.idleProc 1) ∧ mid.panicFlag = false ∧
    11 ∈ mid.procs ∧ mid.state 11 = .runnable)
  (by decide +kernel) with ⟨s, hreach, mid, hmid, ⟨⟨n, next⟩, hpick, hidle⟩, hpanic, hafter⟩
 rw [show n = mid.idleProc 1 from hidle] at hpick
 exact ⟨s, mid, next, hreach, hmid, hpanic, hpick, hafter⟩

/-!
# Order and weights
-/

namespace Sched

def Limited (s : Sched) : SchedLabel -> Prop
 | .createProc _ _ => s.procs.card ≤ pidMaxDefault
 | .initContainer _ _ => s.conts.card ≤ pidMaxDefault
 | _ => True

/-- `kill` finds the process neither runnable nor running, or killed before. -/
def Tidy (s : Sched) (l : SchedLabel) : Prop := s.Proper l ∧ s.Gentle l ∧ s.Limited l

instance (s : Sched) : (l : SchedLabel) -> Decidable (s.Gentle l)
 | .kill _ _ => instDecidableOr
 | .activate _ _ _ | .sched _ _ _ _ | .createProc _ _ | .initContainer _ _
 | .activateGroup _ _ | .reap _ | .panic => isTrue trivial

instance (s : Sched) : (l : SchedLabel) -> Decidable (s.Limited l)
 | .createProc _ _ | .initContainer _ _ => Nat.decLe _ _
 | .activate _ _ _ | .sched _ _ _ _ | .kill _ _ | .activateGroup _ _ | .reap _
 | .panic => isTrue trivial

instance (s : Sched) (l : SchedLabel) : Decidable (s.Tidy l) := inferInstanceAs (Decidable (_ ∧ _))

def Small (s : Sched) : Prop := s.procs.card ≤ pidMaxDefault + 1 ∧ s.conts.card ≤ pidMaxDefault + 1

theorem Small.step (h : s.Small) (hsound : s.Sound True) {l : SchedLabel} (htidy : s.Tidy l)
  (hstep : s.step l = some next) : next.Small := by
 rcases htidy with ⟨hproper, hgentle, hlimited⟩
 have hgrows := (hsound.step hproper (fun _ => hgentle) hstep).right
 unfold Small
 cases l with
 | createProc p c =>
  rw [hgrows.left, hgrows.right]
  exact ⟨(card_insert_le p s.procs).trans (Nat.succ_le_succ hlimited), h.right⟩
 | initContainer c above =>
  rw [hgrows.left, hgrows.right]
  exact ⟨h.left, (card_insert_le c s.conts).trans (Nat.succ_le_succ hlimited)⟩
 | _ =>
  rw [hgrows.right]
  exact ⟨(card_le_card hgrows.left).trans h.left, h.right⟩

theorem tidy_of_reachable (hreach : Reachable schedSystem Tidy s) : s.Sound True ∧ s.Small := by
 have hsound : forall s, Reachable schedSystem Tidy s -> s.Sound True :=
  fun s hreach => sound_of_reachable (fun _ _ h => h.left) (fun _ _ _ h => h.right.left) hreach
 refine ⟨hsound s hreach, ?_⟩
 apply reachable_invariant Small _ _ hreach
 · intro s hstart
   unfold Small
   rw [hstart.procs, hstart.conts]
   exact ⟨Nat.zero_le _, Nat.succ_le_succ (Nat.zero_le _)⟩
 intro s l next hreach h htidy hstep
 exact h.step (hsound s hreach) htidy hstep

theorem weights_lt (hw : s.Weighed) (hsmall : s.Small) (c : Addr) :
  ∑ a ∈ s.activeProcs c, s.weight a + ∑ a ∈ s.activeConts c, s.weight a < 4294967296 := by
 have hinit : initWeight = 820 := rfl
 have hpid : pidMaxDefault = 32768 := rfl
 have hprocs : ∑ a ∈ s.activeProcs c, s.weight a ≤ (s.activeProcs c).card * 88761 := by
  apply sum_le_card_nsmul
  intro a ha
  rcases hw.procs a (mem_filter.mp ha).left with hweight | hweight
  · omega
  · exact Nat.le_of_eq hweight
 have hconts : ∑ a ∈ s.activeConts c, s.weight a ≤ (s.activeConts c).card * 820 := by
  apply sum_le_card_nsmul
  intro a ha
  exact Nat.le_of_eq (hw.conts a (mem_filter.mp ha).left)
 have hfewProcs : (s.activeProcs c).card ≤ s.procs.card := card_filter_le _ _
 have hfewConts : (s.activeConts c).card ≤ s.conts.card := card_filter_le _ _
 rcases hsmall with ⟨hsmall, hsmall'⟩
 omega

section
variable (hl : s.Layout) (hbooked : s.Booked True) (hw : s.Weighed) (hsmall : s.Small)
include hl hbooked hw hsmall

theorem weightSum_eq (hc : c ∈ s.conts) :
  (s.rq c).weightSum = ∑ a ∈ s.activeProcs c, s.weight a + ∑ a ∈ s.activeConts c, s.weight a := by
 rcases hbooked with ⟨A, Q, hacc, hstates⟩
 rw [hacc.queues.weights trivial c hc, tally_eq_active hl hacc hstates,
  sum_union (active_disjoint hl c)]
 exact Nat.mod_eq_of_lt (weights_lt hw hsmall c)

theorem weightSum_ne_zero (hp : p ∈ s.procs) (hrun : s.state p = .running) :
  (s.rq (s.container p)).weightSum ≠ 0 := by
 rw [weightSum_eq hl hbooked hw hsmall (hl.containers p hp)]
 have hin : p ∈ s.activeProcs (s.container p) := mem_filter.mpr ⟨hp, rfl, .inr hrun⟩
 have hle := single_le_sum (f := s.weight) (fun _ _ => Nat.zero_le _) hin
 have hinit : initWeight = 820 := rfl
 rcases hw.procs p hp with hweight | hweight
 · omega
 · omega
end

structure Orderly (s : Sched) : Prop where
 sorted : forall c, c ∈ s.conts -> (s.rq c).root.toList.Pairwise (fun a b => s.cfsCmp a b = true)
 weights : forall c, c ∈ s.conts -> (s.rq c).weightSum =
  ∑ a ∈ s.activeProcs c, s.weight a + ∑ a ∈ s.activeConts c, s.weight a
 divides : forall cpu new now later mid n after,
  s.Proper (.sched cpu new now later) -> s.updateThisState cpu new now = some mid ->
  mid.pickNext cpu = some (n, after) -> n ∈ s.procs ->
  (after.rq (after.container n)).weightSum ≠ 0

end Sched

theorem run_queue_orderly_of_reachable {s : Sched}
  (hreach : Reachable schedSystem Sched.Tidy s) : s.Orderly := by
 rcases tidy_of_reachable hreach with ⟨hsound, hsmall⟩
 constructor
 · intro c hc
   rcases hsound.booked with ⟨A, Q, hacc, _⟩
   exact hacc.queues.sorted trivial c hc
 · intro c hc
   exact weightSum_eq hsound.layout hsound.booked hsound.weighed hsmall hc
 · intro cpu new now later mid n after hproper hmid hpick hn
   rcases hsound.updateThisState cpu hproper.left now with ⟨mid', hmid', hmoves, hl, hbooked⟩
   rw [hmid] at hmid'
   cases hmid'
   rcases pickNext_spec hl hbooked cpu with ⟨n', after', hpick', hmoves', hcase⟩
   rw [hpick] at hpick'
   cases hpick'
   have hall := hmoves.trans hmoves'
   have hidle : mid.idleProc = s.idleProc := by
    rcases hmoves with ⟨v, r, rfl⟩
    rfl
   rcases hcase with ⟨hn', _⟩ | ⟨_, _, hran⟩
   · rw [hidle] at hn'
     exact absurd hn' (hsound.layout.idle_ne hn cpu)
   have hl' := (hsound.layout.setState (s.curProc cpu) new).moves hall
   rcases hall with ⟨v, r, rfl⟩
   have hne := weightSum_ne_zero (hl'.setState n .running) hran
    ⟨hsound.weighed.procs, hsound.weighed.conts⟩ hsmall hn
    (state_setState_self _ n .running)
   exact hne

open SchedLabel in
/-- A process is killed in its sleep and comes back with its new weight. -/
theorem run_queue_orderly_after_kill : exists s, Reachable schedSystem Sched.Tidy s ∧ s.Orderly ∧
    (s.rq 1).root.toList = [10, 11] ∧ (s.rq 1).weightSum = 89581 := by
 exact exists_reachable_also bootSched_start
  [createProc 10 1, activate 0 10 false, sched 0 .runnable 5 5,
   sched 0 .sleeping 6 6, createProc 11 1, activate 0 11 false, kill 0 10]
  (by decide +kernel)
  (fun _ => run_queue_orderly_of_reachable)

open SchedLabel in
/-- The process 11 is killed while it is queued behind the process 10. -/
theorem kill_runnable_breaks_queue : exists s, Reachable schedSystem Sched.Proper s ∧ 1 ∈ s.conts ∧
    (s.rq 1).root.toList = [10, 11] ∧ s.cfsCmp 10 11 = false ∧ s.cfsCmp 11 10 = true ∧
    (s.rq 1).weightSum = 1640 ∧
    ∑ a ∈ s.activeProcs 1, s.weight a + ∑ a ∈ s.activeConts 1, s.weight a = 89581 := by
 exact exists_reachable_with bootSched_start
  [createProc 10 1, activate 0 10 false, createProc 11 1, activate 0 11 false, kill 0 11]
  (by decide +kernel)

end OSLab.Kernel
