import OSLab.Foundation.TransitionSystem
import OSLab.Kernel.SchedCalls

/-!
# Runs of the scheduler

Calls on any number of CPUs, each under the lock of the scheduler and so one after the
other.  `create_container` is the creation of a container and of a process in it, the
activation of the process and `activate_group`, with any other calls in between.
-/

namespace OSLab.Kernel
open Foundation Function TransitionSystem Finset

inductive SchedLabel where
 | activate (cpu : Cpu) (p : Addr) (onalert : Bool)
 | sched (cpu : Cpu) (new : ProcState) (now later : Nat)
 | kill (cpu : Cpu) (p : Addr)
 | createProc (p c : Addr)
 | initContainer (c above : Addr)
 | activateGroup (cpu : Cpu) (group : Addr)
 | reap (p : Addr)
 | panic

namespace Sched

def Vacant (s : Sched) (a : Addr) : Prop := a ∉ s.procs ∧ a ∉ s.conts ∧ s.idle a = false

instance (s : Sched) (a : Addr) : Decidable (s.Vacant a) := inferInstanceAs (Decidable (_ ∧ _))

def step (s : Sched) : SchedLabel -> Option Sched
 | .activate cpu p onalert =>
  if p ∈ s.procs then (s.activateProc cpu p onalert).map Prod.snd else none
 | .sched cpu new now later => s.simpleSched cpu new now later
 | .kill cpu p => if p ∈ s.procs then s.kill cpu p else none
 | .createProc p c => if s.Vacant p ∧ c ∈ s.conts then some (s.createProc p c) else none
 | .initContainer c above =>
  if s.Vacant c ∧ above ∈ s.conts then some (s.initContainer c above) else none
 | .activateGroup cpu group =>
  if group ∈ s.conts ∧ group ≠ s.rootContainer then
   some (s.activateGroup cpu group)
  else
   none
 | .reap p => if p ∈ s.procs ∧ s.state p = .zombie then some (s.reap p) else none
 | .panic => some { s with panicFlag := true }

structure Start (s : Sched) : Prop where
 procs : s.procs = ∅
 conts : s.conts = {s.rootContainer}
 group : s.isContainer s.rootContainer = true
 weight : s.weight s.rootContainer = initWeight
 rq : s.rq s.rootContainer = CfsRq.init
 current : forall cpu, s.curProc cpu = s.idleProc cpu
 idle : forall cpu, s.idle (s.idleProc cpu) = true ∧
  s.state (s.idleProc cpu) = .running ∧ s.idleProc cpu ≠ s.rootContainer
 injective : forall i j, s.idleProc i = s.idleProc j -> i = j

def Proper (s : Sched) : SchedLabel -> Prop
 | .sched cpu new _ _ => new ≠ .running ∧ (s.idle (s.curProc cpu) = true -> new = .runnable)
 | _ => True

instance (s : Sched) (l : SchedLabel) : Decidable (s.Proper l) := by
 cases l <;> first | exact instDecidableTrue | exact instDecidableAnd

end Sched

def schedSystem : TransitionSystem Sched SchedLabel where
 initial := Sched.Start
 step := Sched.step

/-!
# The invariant
-/

namespace Sched

structure OnCpus (s : Sched) : Prop where
 current : forall cpu, s.curProc cpu = s.idleProc cpu ∨ s.curProc cpu ∈ s.procs
 running : forall cpu, s.state (s.curProc cpu) = .running
 waiting : forall cpu, s.curProc cpu ≠ s.idleProc cpu -> s.state (s.idleProc cpu) = .runnable
 distinct : forall i j, s.curProc i = s.curProc j -> i = j
 placed : forall p, p ∈ s.procs -> s.state p = .running -> exists cpu, s.curProc cpu = p

structure Weighed (s : Sched) : Prop where
 procs : forall p, p ∈ s.procs -> s.weight p = initWeight ∨ s.weight p = 88761
 conts : forall c, c ∈ s.conts -> s.weight c = initWeight

structure Sound (tidy : Prop) (s : Sched) : Prop where
 layout : s.Layout
 cpus : s.OnCpus
 booked : s.Booked tidy
 weighed : s.Weighed

variable {tidy : Prop} {s t mid next : Sched} {a c p q n : Addr} {cpu : Cpu} {new : ProcState}

theorem sound_start (h : s.Start) : s.Sound tidy := by
 have hroot : s.rootContainer ∈ s.conts := by
  rw [h.conts]
  exact mem_singleton_self _
 have honly : forall c, c ∈ s.conts -> c = s.rootContainer := by
  intro c hc
  rw [h.conts] at hc
  exact mem_singleton.mp hc
 have hnone : forall p, p ∉ s.procs := by
  intro p hp
  rw [h.procs] at hp
  exact notMem_empty p hp
 have hempty : forall c, c ∈ s.conts -> s.rq c = CfsRq.init := by
  intro c hc
  rw [honly c hc]
  exact h.rq
 constructor
 · constructor
   · refine ⟨hroot, fun _ => 0, ?_, ?_⟩
     · intro c _
       rw [h.conts]
       exact Nat.zero_lt_one
     intro c hc hne
     exact absurd (honly c hc) hne
   · intro c hc
     rw [honly c hc]
     exact h.group
   · intro p hp
     exact absurd hp (hnone p)
   · intro p hp
     exact absurd hp (hnone p)
   · intro p hp
     exact absurd hp (hnone p)
   · intro cpu
     rcases h.idle cpu with ⟨hidle, _, hne⟩
     refine ⟨hnone _, ?_, hidle⟩
     intro hc
     exact hne (honly _ hc)
   · exact h.injective
 · constructor
   · intro cpu
     exact .inl (h.current cpu)
   · intro cpu
     rw [h.current cpu]
     exact (h.idle cpu).right.left
   · intro cpu hne
     exact absurd (h.current cpu) hne
   · intro i j hsame
     rw [h.current i, h.current j] at hsame
     exact h.injective i j hsame
   · intro p hp
     exact absurd hp (hnone p)
 · refine ⟨∅, ∅, ?_, ?_⟩
   · constructor
     · constructor
       · intro c hc
         rw [hempty c hc]
         exact ⟨0, .leaf⟩
       · intro c hc
         rw [hempty c hc]
         exact List.nodup_nil
       · intro c hc a
         rw [hempty c hc]
         exact ⟨fun hmem => absurd hmem List.not_mem_nil,
          fun hmem => absurd (mem_tally.mp hmem).left (notMem_empty a)⟩
       · intro c hc
         rw [hempty c hc]
         rfl
       · intro _ c hc
         rw [hempty c hc]
         exact List.Pairwise.nil
       · intro _ c hc
         rw [hempty c hc]
         rfl
     · intro a ha
       exact absurd ha (notMem_empty a)
     · exact Subset.refl _
     · intro d _ hd
       exact absurd hd (notMem_empty d)
     · intro d hd hne
       exact absurd (honly d hd) hne
   constructor
   all_goals
    intro p hp
    exact absurd hp (hnone p)
 · constructor
   · intro p hp
     exact absurd hp (hnone p)
   intro c hc
   rw [honly c hc]
   exact h.weight

theorem Weighed.moves (h : s.Weighed) (hmoves : s.Moves next) : next.Weighed := by
 rcases hmoves with ⟨v, r, rfl⟩
 exact ⟨h.procs, h.conts⟩

theorem Layout.idle_ne (h : s.Layout) (hp : p ∈ s.procs) (cpu : Cpu) : p ≠ s.idleProc cpu := by
 rintro rfl
 exact (h.spare cpu).left hp

/-!
# Activations
-/

theorem OnCpus.activate (h : s.OnCpus) (hl : s.Layout) (hp : p ∈ s.procs)
  (hrunning : s.state p ≠ .running)
  (hmoves : (s.setState p .runnable).Moves next) : next.OnCpus := by
 have hne : forall cpu, s.curProc cpu ≠ p := by
  intro cpu hsame
  have hrun := h.running cpu
  rw [hsame] at hrun
  exact hrunning hrun
 have hidle : forall cpu, s.idleProc cpu ≠ p := fun cpu => (hl.idle_ne hp cpu).symm
 rcases hmoves with ⟨v, r, rfl⟩
 constructor
 · exact h.current
 · intro cpu
   change (s.setState p _).state (s.curProc cpu) = _
   rw [state_setState_of_ne _ _ (hne cpu)]
   exact h.running cpu
 · intro cpu hcur
   change (s.setState p _).state (s.idleProc cpu) = _
   rw [state_setState_of_ne _ _ (hidle cpu)]
   exact h.waiting cpu hcur
 · exact h.distinct
 · intro q hq hrun
   by_cases hqp : q = p
   · rw [hqp, state_setState_self] at hrun
     cases hrun
   rw [state_setState_of_ne _ _ hqp] at hrun
   exact h.placed q hq hrun

theorem Sound.activateProc (h : s.Sound tidy) (hp : p ∈ s.procs) (cpu : Cpu) (onalert : Bool) :
  exists r next, s.activateProc cpu p onalert = some (r, next) ∧ next.Sound tidy ∧
    next.procs = s.procs ∧ next.conts = s.conts := by
 rcases activateProc_spec h.layout h.booked hp cpu onalert with
  ⟨r, next, hcall, hbooked, rfl | ⟨_, hrunning, hmoves⟩⟩
 · exact ⟨r, _, hcall, h, rfl, rfl⟩
 · have hl := h.layout.setState p .runnable
   have hcpus := h.cpus.activate h.layout hp hrunning hmoves
   have hweighed : (s.setState p .runnable).Weighed := ⟨h.weighed.procs, h.weighed.conts⟩
   refine ⟨r, next, hcall, ⟨hl.moves hmoves, hcpus, hbooked, hweighed.moves hmoves⟩, ?_⟩
   rcases hmoves with ⟨v, r, rfl⟩
   exact ⟨rfl, rfl⟩

def doom (s : Sched) (p : Addr) : Sched :=
 { s with
   killed := update s.killed p true
   prio := update s.prio p 0
   weight := update s.weight p 88761 }

theorem Booked.doom (h : s.Booked tidy) (hp : p ∈ s.procs)
  (htidy : tidy -> (s.state p ≠ .runnable ∧ s.state p ≠ .running) ∨
    (s.prio p = 0 ∧ s.weight p = 88761)) : (s.doom p).Booked tidy := by
 rcases h with ⟨A, Q, hacc, hstates⟩
 refine ⟨A, Q, ?_, hstates.counted, hstates.queued⟩
 have hkept : tidy -> (forall a, a ∈ A -> (s.doom p).prio a = s.prio a ∧
  (s.doom p).weight a = s.weight a) := by
  intro hgood a ha
  rcases htidy hgood with hstate | ⟨hprio, hweight⟩
  · have hne : a ≠ p := by
     intro hsame
     rw [hsame, hstates.counted p hp] at ha
     rcases ha with ha | ha
     · exact hstate.left ha
     · exact hstate.right ha
    exact ⟨update_of_ne hne _ _, update_of_ne hne _ _⟩
  unfold Sched.doom
  constructor
  · rw [← hprio, update_eq_self]
  · rw [← hweight, update_eq_self]
 apply hacc.congr (t := s.doom p) _ rfl rfl rfl (fun _ _ => rfl)
 apply hacc.queues.congr (t := s.doom p) rfl rfl (fun _ _ => rfl)
 · intro hgood a ha
   exact ⟨rfl, (hkept hgood a (hacc.subset ha)).left⟩
 intro hgood a ha
 exact (hkept hgood a ha).right

theorem Weighed.doom (h : s.Weighed) (hl : s.Layout) (hp : p ∈ s.procs) : (s.doom p).Weighed := by
 constructor
 · intro q hq
   by_cases hqp : q = p
   · right
     rw [hqp]
     exact update_self ..
   have hsame : (s.doom p).weight q = s.weight q := update_of_ne hqp _ _
   rw [hsame]
   exact h.procs q hq
 intro c hc
 have hne : c ≠ p := by
  rintro rfl
  exact hl.single_notMem hp hc
 have hsame : (s.doom p).weight c = s.weight c := update_of_ne hne _ _
 rw [hsame]
 exact h.conts c hc

theorem Sound.kill (h : s.Sound tidy) (hp : p ∈ s.procs) (cpu : Cpu)
  (htidy : tidy -> (s.state p ≠ .runnable ∧ s.state p ≠ .running) ∨
    (s.prio p = 0 ∧ s.weight p = 88761)) :
  exists next, s.kill cpu p = some next ∧ next.Sound tidy ∧
    next.procs = s.procs ∧ next.conts = s.conts := by
 unfold Sched.kill
 split
 · exact ⟨s, rfl, h, rfl, rfl⟩
 have hl : (s.doom p).Layout :=
  ⟨h.layout.hierarchy, h.layout.groups, h.layout.singles, h.layout.containers,
   h.layout.busy, h.layout.spare, h.layout.injective⟩
 have hcpus : (s.doom p).OnCpus :=
  ⟨h.cpus.current, h.cpus.running, h.cpus.waiting, h.cpus.distinct, h.cpus.placed⟩
 have hdoomed : (s.doom p).Sound tidy :=
  ⟨hl, hcpus, h.booked.doom hp htidy, h.weighed.doom h.layout hp⟩
 rcases hdoomed.activateProc hp cpu true with ⟨r, next, hcall, hnext, hprocs, hconts⟩
 refine ⟨next, ?_, hnext, hprocs, hconts⟩
 unfold Sched.doom at hcall
 dsimp only
 rw [hcall]
 rfl

/-!
# Switches
-/

theorem OnCpus.switch (h : s.OnCpus) (hl : s.Layout) (hnew : new ≠ .running)
  (hyield : s.curProc cpu = s.idleProc cpu -> new = .runnable)
  (hn : n = s.idleProc cpu ∨ (n ∈ s.procs ∧ (s.setState (s.curProc cpu) new).state n = .runnable))
  (hstate : next.state = update (s.setState (s.curProc cpu) new).state n
    .running) (hcur : next.curProc = update s.curProc cpu n)
  (hidle : next.idleProc = s.idleProc) (hprocs : next.procs = s.procs) : next.OnCpus := by
 -- On another CPU the process is neither the one that stops nor the next one.
 have hstopped : forall i, i ≠ cpu -> s.curProc i ≠ s.curProc cpu :=
  fun i hi hsame => hi (h.distinct i cpu hsame)
 have hnext : forall i, i ≠ cpu -> s.curProc i ≠ n := by
  intro i hi hsame
  rcases hn with hn | ⟨_, hn⟩
  · rw [hn] at hsame
    rcases h.current i with hcur | hcur
    · exact hi (hl.injective i cpu (hcur.symm.trans hsame))
    · exact hl.idle_ne hcur cpu hsame
  rw [← hsame, state_setState_of_ne _ _ (hstopped i hi), h.running i] at hn
  cases hn
 have hidleNext : forall i, i ≠ cpu -> s.idleProc i ≠ n := by
  intro i hi hsame
  rcases hn with hn | ⟨hn, _⟩
  · rw [hn] at hsame
    exact hi (hl.injective i cpu hsame)
  rw [← hsame] at hn
  exact hl.idle_ne hn i rfl
 have hidleStopped : forall i, i ≠ cpu -> s.idleProc i ≠ s.curProc cpu := by
  intro i hi hsame
  rcases h.current cpu with hcur | hcur
  · rw [hcur] at hsame
    exact hi (hl.injective i cpu hsame)
  rw [← hsame] at hcur
  exact hl.idle_ne hcur i rfl
 constructor
 · intro i
   rw [hcur, hidle, hprocs]
   by_cases hi : i = cpu
   · rw [hi, update_self]
     rcases hn with hn | hn
     · exact .inl hn
     · exact .inr hn.left
   rw [update_of_ne hi]
   exact h.current i
 · intro i
   rw [hcur, hstate]
   by_cases hi : i = cpu
   · rw [hi, update_self, update_self]
   rw [update_of_ne hi, update_of_ne (hnext i hi), state_setState_of_ne _ _ (hstopped i hi)]
   exact h.running i
 · intro i
   rw [hcur, hidle, hstate]
   by_cases hi : i = cpu
   · rw [hi, update_self]
     intro hne
     rw [update_of_ne (Ne.symm hne)]
     by_cases hcp : s.curProc cpu = s.idleProc cpu
     · rw [← hcp, state_setState_self]
       exact hyield hcp
     rw [state_setState_of_ne _ _ (Ne.symm hcp)]
     exact h.waiting cpu hcp
   rw [update_of_ne hi, update_of_ne (hidleNext i hi),
    state_setState_of_ne _ _ (hidleStopped i hi)]
   exact h.waiting i
 · intro i j
   rw [hcur]
   by_cases hi : i = cpu
   · by_cases hj : j = cpu
     · intro _
       rw [hi, hj]
     rw [hi, update_self, update_of_ne hj]
     intro hsame
     exact absurd hsame.symm (hnext j hj)
   by_cases hj : j = cpu
   · rw [hj, update_self, update_of_ne hi]
     intro hsame
     exact absurd hsame (hnext i hi)
   rw [update_of_ne hi, update_of_ne hj]
   exact h.distinct i j
 · intro q hq
   rw [hstate, hcur]
   rw [hprocs] at hq
   intro hrun
   by_cases hqn : q = n
   · refine ⟨cpu, ?_⟩
     rw [update_self, hqn]
   rw [update_of_ne hqn] at hrun
   by_cases hqp : q = s.curProc cpu
   · rw [hqp, state_setState_self] at hrun
     exact absurd hrun hnew
   rw [state_setState_of_ne _ _ hqp] at hrun
   rcases h.placed q hq hrun with ⟨i, hi⟩
   refine ⟨i, ?_⟩
   rw [update_of_ne, hi]
   rintro rfl
   exact hqp hi.symm

theorem Sound.updateThisState (h : s.Sound tidy) (cpu : Cpu) (hnew : new ≠ .running) (now : Nat) :
  exists mid, s.updateThisState cpu new now = some mid ∧
    (s.setState (s.curProc cpu) new).Moves mid ∧ mid.Layout ∧ mid.Booked tidy := by
 have hstep : exists mid, s.updateThisState cpu new now = some mid ∧
  (s.setState (s.curProc cpu) new).Moves mid ∧ mid.Booked tidy := by
  rcases h.cpus.current cpu with hidle | hproc
  · exact updateThisState_idle h.layout h.booked hidle
  · exact updateThisState_process h.layout h.booked hproc (h.cpus.running cpu) hnew
 rcases hstep with ⟨mid, hmid, hmoves, hbooked⟩
 exact ⟨mid, hmid, hmoves, (h.layout.setState _ _).moves hmoves, hbooked⟩

theorem Sound.simpleSched (h : s.Sound tidy) (now later : Nat)
  (hproper : s.Proper (.sched cpu new now later)) :
  exists next, s.simpleSched cpu new now later = some next ∧ next.Sound tidy ∧
    next.procs = s.procs ∧ next.conts = s.conts := by
 rcases hproper with ⟨hnew, hyield⟩
 have hyield' : s.curProc cpu = s.idleProc cpu -> new = .runnable := by
  intro hidle
  apply hyield
  rw [hidle]
  exact (h.layout.spare cpu).right.right
 unfold Sched.simpleSched
 dsimp only
 split
 · exact ⟨s, rfl, h, rfl, rfl⟩
 rw [if_neg (fun hne => hne (h.cpus.running cpu))]
 rcases h.updateThisState cpu hnew now with ⟨mid, hmid, hmoves, hl, hbooked⟩
 rcases pickNext_spec hl hbooked cpu with ⟨n, after, hpick, hafter, hcase⟩
 have hall := hmoves.trans hafter
 have hn : n = s.idleProc cpu ∨ (n ∈ s.procs ∧
  (s.setState (s.curProc cpu) new).state n = .runnable) := by
  rcases hmoves with ⟨v, r, rfl⟩
  rcases hcase with ⟨hn, _⟩ | ⟨hn, hstate, _⟩
  · exact .inl hn
  · exact .inr ⟨hn, hstate⟩
 have hrunnable : (s.setState (s.curProc cpu) new).state n = .runnable := by
  rcases hn with hn | hn
  · rw [hn]
    by_cases hcp : s.curProc cpu = s.idleProc cpu
    · rw [← hcp, state_setState_self]
      exact hyield' hcp
    rw [state_setState_of_ne _ _ (Ne.symm hcp)]
    exact h.cpus.waiting cpu hcp
  · exact hn.right
 have hran : (after.setState n .running).Booked tidy := by
  rcases hcase with ⟨hn, hsame⟩ | ⟨_, _, hran⟩
  · rw [hsame]
    apply hbooked.setState_other
    rw [hn]
    exact (hl.spare cpu).left
  · exact hran
 rw [hmid, Option.bind_some, hpick, Option.bind_some]
 rcases hall with ⟨v, r, rfl⟩
 unfold switchTo
 rw [if_neg (fun hne => hne hrunnable)]
 refine ⟨_, rfl, ⟨?_, ?_, ?_, ?_⟩, rfl, rfl⟩
 · have hl' := h.layout
   exact ⟨hl'.hierarchy, hl'.groups, hl'.singles, hl'.containers, hl'.busy, hl'.spare,
    hl'.injective⟩
 · exact h.cpus.switch h.layout hnew hyield' hn rfl rfl rfl rfl
 · exact hran.dispatch _ _ _
 · exact ⟨h.weighed.procs, h.weighed.conts⟩

/-!
# Creation and the end of processes
-/

variable {A Q : Finset Addr}

theorem Accounts.home_mem (h : Accounts tidy s A Q) (hl : s.Layout)
  (ha : a ∈ A) : s.home a ∈ s.conts := by
 rcases h.members a ha with hp | ⟨hc, hroot⟩
 · rw [hl.home_single hp]
   exact hl.containers a hp
 rw [hl.home_group hc]
 exact hl.hierarchy.parent_mem hc hroot

section
variable (h : s.Vacant a)
include h

theorem Vacant.ne_member (hacc : Accounts tidy s A Q) {b : Addr} (hb : b ∈ A) : b ≠ a := by
 intro hsame
 rw [hsame] at hb
 rcases hacc.members a hb with hin | hin
 · exact h.left hin
 · exact h.right.left hin.left

theorem Vacant.ne_proc (hq : q ∈ s.procs) : q ≠ a := by
 rintro rfl
 exact h.left hq

theorem Vacant.ne_cont (hc : c ∈ s.conts) : c ≠ a := by
 rintro rfl
 exact h.right.left hc

theorem Vacant.ne_idle (hl : s.Layout) (cpu : Cpu) : s.idleProc cpu ≠ a := by
 intro hsame
 have hidle := (hl.spare cpu).right.right
 rw [hsame, h.right.right] at hidle
 cases hidle

theorem Vacant.ne_current (hl : s.Layout) (hcpus : s.OnCpus) (cpu : Cpu) : s.curProc cpu ≠ a := by
 rcases hcpus.current cpu with hidle | hproc
 · rw [hidle]
   exact h.ne_idle hl cpu
 · exact h.ne_proc hproc
end

theorem Layout.createProc (h : s.Layout) (hp : s.Vacant p) (hc : c ∈ s.conts) :
  (s.createProc p c).Layout := by
 constructor
 · exact h.hierarchy
 · intro d hd
   exact (update_of_ne (hp.ne_cont hd) _ _).trans (h.groups d hd)
 · intro q hq
   rcases mem_insert.mp hq with rfl | hq
   · exact update_self ..
   · exact (update_of_ne (hp.ne_proc hq) _ _).trans (h.singles q hq)
 · intro q hq
   rcases mem_insert.mp hq with rfl | hq
   · change update s.container q c q ∈ s.conts
     rw [update_self]
     exact hc
   change update s.container p c q ∈ s.conts
   rw [update_of_ne (hp.ne_proc hq)]
   exact h.containers q hq
 · intro q hq
   rcases mem_insert.mp hq with rfl | hq
   · exact update_self ..
   · exact (update_of_ne (hp.ne_proc hq) _ _).trans (h.busy q hq)
 · intro cpu
   rcases h.spare cpu with ⟨hproc, hcont, hidle⟩
   have hne := hp.ne_idle h cpu
   refine ⟨?_, hcont, (update_of_ne hne _ _).trans hidle⟩
   intro hmem
   rcases mem_insert.mp hmem with hmem | hmem
   · exact hne hmem
   · exact hproc hmem
 · exact h.injective

theorem Booked.createProc (h : s.Booked tidy) (hp : s.Vacant p) (c : Addr) :
  (s.createProc p c).Booked tidy := by
 rcases h with ⟨A, Q, hacc, hstates⟩
 have hne : forall a, a ∈ A -> a ≠ p := fun a ha => hp.ne_member hacc ha
 have hneQ : forall a, a ∈ Q -> a ≠ p := fun a ha => hne a (hacc.subset ha)
 have hhome : forall a, a ∈ A -> (s.createProc p c).home a = s.home a := by
  intro a ha
  exact home_congr (update_of_ne (hne a ha) _ _) rfl (update_of_ne (hne a ha) _ _)
 refine ⟨A, Q, ⟨?_, ?_, hacc.subset, hacc.groups, ?_⟩, ?_⟩
 · apply hacc.queues.congr (t := s.createProc p c) rfl rfl
   · intro a ha
     rcases ha with ha | ha
     · exact hhome a ha
     · exact hhome a (hacc.subset ha)
   · intro _ a ha
     exact ⟨update_of_ne (hneQ a ha) _ _, update_of_ne (hneQ a ha) _ _⟩
   intro _ a ha
   exact update_of_ne (hne a ha) _ _
 · intro a ha
   rcases hacc.members a ha with hin | hin
   · exact .inl (mem_insert_of_mem hin)
   · exact .inr hin
 · intro d hd hroot
   rw [tally_congr hhome]
   exact hacc.settled d hd hroot
 have hself : (s.createProc p c).state p = .unused := update_self ..
 have hother : forall q, q ∈ s.procs -> (s.createProc p c).state q = s.state q :=
  fun q hq => update_of_ne (hp.ne_proc hq) _ _
 constructor
 · intro q hq
   rcases mem_insert.mp hq with rfl | hq
   · rw [hself]
     refine ⟨fun hmem => absurd rfl (hne q hmem), fun hor => ?_⟩
     rcases hor with hor | hor
     · cases hor
     · cases hor
   rw [hother q hq]
   exact hstates.counted q hq
 intro q hq
 rcases mem_insert.mp hq with rfl | hq
 · rw [hself]
   refine ⟨fun hmem => absurd rfl (hneQ q hmem), fun hsame => ?_⟩
   cases hsame
 rw [hother q hq]
 exact hstates.queued q hq

theorem Sound.createProc (h : s.Sound tidy) (hp : s.Vacant p) (hc : c ∈ s.conts) :
  (s.createProc p c).Sound tidy := by
 refine ⟨h.layout.createProc hp hc, ?_, h.booked.createProc hp c, ?_⟩
 · have hother : forall q, q ≠ p -> (s.createProc p c).state q = s.state q :=
    fun q hq => update_of_ne hq _ _
   constructor
   · intro cpu
     rcases h.cpus.current cpu with hidle | hproc
     · exact .inl hidle
     · exact .inr (mem_insert_of_mem hproc)
   · intro cpu
     exact (hother _ (hp.ne_current h.layout h.cpus cpu)).trans (h.cpus.running cpu)
   · intro cpu hne
     exact (hother _ (hp.ne_idle h.layout cpu)).trans (h.cpus.waiting cpu hne)
   · exact h.cpus.distinct
   · intro q hq hrun
     rcases mem_insert.mp hq with rfl | hq
     · have hself : (s.createProc q c).state q = .unused := update_self ..
       rw [hself] at hrun
       cases hrun
     rw [hother q (hp.ne_proc hq)] at hrun
     exact h.cpus.placed q hq hrun
 constructor
 · intro q hq
   rcases mem_insert.mp hq with rfl | hq
   · exact .inl (update_self ..)
   have hsame : (s.createProc p c).weight q = s.weight q := update_of_ne (hp.ne_proc hq) _ _
   rw [hsame]
   exact h.weighed.procs q hq
 · intro d hd
   exact (update_of_ne (hp.ne_cont hd) _ _).trans (h.weighed.conts d hd)

variable {above : Addr}

theorem Layout.initContainer (h : s.Layout) (hc : s.Vacant c)
  (habove : above ∈ s.conts) : (s.initContainer c above).Layout := by
 constructor
 · exact h.hierarchy.insert hc.right.left habove
 · intro d hd
   rcases mem_insert.mp hd with rfl | hd
   · exact update_self ..
   · exact (update_of_ne (hc.ne_cont hd) _ _).trans (h.groups d hd)
 · intro q hq
   exact (update_of_ne (hc.ne_proc hq) _ _).trans (h.singles q hq)
 · intro q hq
   exact mem_insert_of_mem (h.containers q hq)
 · exact h.busy
 · intro cpu
   rcases h.spare cpu with ⟨hproc, hcont, hidle⟩
   refine ⟨hproc, ?_, hidle⟩
   intro hmem
   rcases mem_insert.mp hmem with hmem | hmem
   · exact hc.ne_idle h cpu hmem
   · exact hcont hmem
 · exact h.injective

theorem Booked.initContainer (h : s.Booked tidy) (hl : s.Layout)
  (hc : s.Vacant c) : (s.initContainer c above).Booked tidy := by
 rcases h with ⟨A, Q, hacc, hstates⟩
 have hne : forall a, a ∈ A -> a ≠ c := fun a ha => hc.ne_member hacc ha
 have hhome : forall a, a ∈ A -> (s.initContainer c above).home a = s.home a := by
  intro a ha
  exact home_congr (update_of_ne (hne a ha) _ _) (update_of_ne (hne a ha) _ _) rfl
 have hA : forall d, tally (s.initContainer c above).home A d = tally s.home A d :=
  tally_congr hhome
 have hQ : forall d, tally (s.initContainer c above).home Q d = tally s.home Q d :=
  tally_congr (fun a ha => hhome a (hacc.subset ha))
 have hnobody : tally s.home A c = ∅ := by
  rw [eq_empty_iff_forall_notMem]
  intro a ha
  rcases mem_tally.mp ha with ⟨ha, hat⟩
  have hmem := hacc.home_mem hl ha
  rw [hat] at hmem
  exact hc.right.left hmem
 have hnone : tally s.home Q c = ∅ := by
  rw [eq_empty_iff_forall_notMem] at hnobody ⊢
  intro a ha
  rcases mem_tally.mp ha with ⟨ha, hat⟩
  exact hnobody a (mem_tally.mpr ⟨hacc.subset ha, hat⟩)
 have hself : (s.initContainer c above).rq c = CfsRq.init := update_self ..
 have hother : forall d, d ∈ s.conts -> (s.initContainer c above).rq d = s.rq d :=
  fun d hd => update_of_ne (hc.ne_cont hd) _ _
 refine ⟨A, Q, ⟨?_, ?_, hacc.subset, ?_, ?_⟩, hstates.counted, hstates.queued⟩
 · constructor
   · intro d hd
     rcases mem_insert.mp hd with rfl | hd
     · rw [hself]
       exact ⟨0, .leaf⟩
     rw [hother d hd]
     exact hacc.queues.balanced d hd
   · intro d hd
     rcases mem_insert.mp hd with rfl | hd
     · rw [hself]
       exact List.nodup_nil
     rw [hother d hd]
     exact hacc.queues.nodup d hd
   · intro d hd a
     rw [hQ]
     rcases mem_insert.mp hd with rfl | hd
     · rw [hself, hnone]
       exact ⟨fun hmem => absurd hmem List.not_mem_nil,
        fun hmem => absurd hmem (notMem_empty a)⟩
     rw [hother d hd]
     exact hacc.queues.nodes d hd a
   · intro d hd
     rw [hA]
     rcases mem_insert.mp hd with rfl | hd
     · rw [hself, hnobody]
       rfl
     rw [hother d hd]
     exact hacc.queues.counts d hd
   · intro htidy d hd
     rcases mem_insert.mp hd with rfl | hd
     · rw [hself]
       exact List.Pairwise.nil
     rw [hother d hd]
     have hqueued : forall a, a ∈ (s.rq d).root.toList -> a ≠ c := by
      intro a ha
      exact hne a (hacc.subset (mem_tally.mp ((hacc.queues.nodes d hd a).mp ha)).left)
     apply Queues.sorted_congr (hacc.queues.sorted htidy d hd)
     all_goals
      intro a ha
      exact update_of_ne (hqueued a ha) _ _
   · intro htidy d hd
     rw [hA]
     rcases mem_insert.mp hd with rfl | hd
     · rw [hself, hnobody]
       rfl
     rw [hother d hd, hacc.queues.weights htidy d hd]
     congr 1
     apply sum_congr rfl
     intro a ha
     exact (update_of_ne (hne a (mem_tally.mp ha).left) _ _).symm
 · intro a ha
   rcases hacc.members a ha with hin | ⟨hin, hroot⟩
   · exact .inl hin
   · exact .inr ⟨mem_insert_of_mem hin, hroot⟩
 · intro d hd hmem
   rcases mem_insert.mp hd with rfl | hd
   · exact absurd rfl (hne d hmem)
   · exact hacc.groups d hd hmem
 intro d hd hroot
 rw [hA]
 rcases mem_insert.mp hd with rfl | hd
 · rw [hnobody]
   exact ⟨fun hmem => absurd rfl (hne d hmem),
    fun hsome => absurd hsome not_nonempty_empty⟩
 · exact hacc.settled d hd hroot

section
variable (h : s.Sound tidy)
include h

theorem Sound.initContainer (hc : s.Vacant c)
  (habove : above ∈ s.conts) : (s.initContainer c above).Sound tidy := by
 refine ⟨h.layout.initContainer hc habove, ?_, h.booked.initContainer h.layout hc, ?_⟩
 · exact ⟨h.cpus.current, h.cpus.running, h.cpus.waiting, h.cpus.distinct, h.cpus.placed⟩
 constructor
 · intro q hq
   have hsame : (s.initContainer c above).weight q = s.weight q :=
    update_of_ne (hc.ne_proc hq) _ _
   rw [hsame]
   exact h.weighed.procs q hq
 intro d hd
 rcases mem_insert.mp hd with rfl | hd
 · exact update_self ..
 · exact (update_of_ne (hc.ne_cont hd) _ _).trans (h.weighed.conts d hd)

theorem Sound.reap (hp : p ∈ s.procs) (hzombie : s.state p = .zombie) : (s.reap p).Sound tidy := by
 have hl := h.layout
 have hsub : forall q, q ∈ s.procs.erase p -> q ∈ s.procs := fun q hq => mem_of_mem_erase hq
 have hother : forall q, q ≠ p -> (s.reap p).state q = s.state q := fun q hq => update_of_ne hq _ _
 have hcur : forall cpu, s.curProc cpu ≠ p := by
  intro cpu hsame
  have hrun := h.cpus.running cpu
  rw [hsame, hzombie] at hrun
  cases hrun
 refine ⟨?_, ?_, ?_, ?_⟩
 · refine ⟨hl.hierarchy, hl.groups, fun q hq => hl.singles q (hsub q hq),
    fun q hq => hl.containers q (hsub q hq), fun q hq => hl.busy q (hsub q hq), ?_,
    hl.injective⟩
   intro cpu
   rcases hl.spare cpu with ⟨hproc, hcont, hidle⟩
   exact ⟨fun hmem => hproc (hsub _ hmem), hcont, hidle⟩
 · constructor
   · intro cpu
     rcases h.cpus.current cpu with hidle | hproc
     · exact .inl hidle
     · exact .inr (mem_erase.mpr ⟨hcur cpu, hproc⟩)
   · intro cpu
     exact (hother _ (hcur cpu)).trans (h.cpus.running cpu)
   · intro cpu hne
     exact (hother _ (hl.idle_ne hp cpu).symm).trans (h.cpus.waiting cpu hne)
   · exact h.cpus.distinct
   · intro q hq hrun
     rw [hother q (mem_erase.mp hq).left] at hrun
     exact h.cpus.placed q (hsub q hq) hrun
 · rcases h.booked with ⟨A, Q, hacc, hstates⟩
   have hout : p ∉ A := by
    rw [hstates.counted p hp, hzombie]
    rintro (hor | hor)
    · cases hor
    · cases hor
   refine ⟨A, Q, ⟨?_, ?_, hacc.subset, hacc.groups, hacc.settled⟩, ?_⟩
   · exact hacc.queues.congr (t := s.reap p) rfl rfl (fun _ _ => rfl)
      (fun _ _ _ => ⟨rfl, rfl⟩) (fun _ _ _ => rfl)
   · intro a ha
     rcases hacc.members a ha with hin | hin
     · refine .inl (mem_erase.mpr ⟨?_, hin⟩)
       rintro rfl
       exact hout ha
     · exact .inr hin
   constructor
   · intro q hq
     rw [hother q (mem_erase.mp hq).left]
     exact hstates.counted q (hsub q hq)
   intro q hq
   rw [hother q (mem_erase.mp hq).left]
   exact hstates.queued q (hsub q hq)
 · exact ⟨fun q hq => h.weighed.procs q (hsub q hq), h.weighed.conts⟩

theorem Sound.activateGroup (hc : c ∈ s.conts) (hroot : c ≠ s.rootContainer)
  (cpu : Cpu) : (s.activateGroup cpu c).Sound tidy := by
 rcases activateGroup_spec h.layout h.booked hc hroot cpu with ⟨hmoves, hbooked⟩
 refine ⟨h.layout.moves hmoves, ?_, hbooked, h.weighed.moves hmoves⟩
 exact ⟨h.cpus.current, h.cpus.running, h.cpus.waiting, h.cpus.distinct, h.cpus.placed⟩

theorem Sound.panic : ({ s with panicFlag := true } : Sched).Sound tidy := by
 rcases h.booked with ⟨A, Q, hacc, hstates⟩
 have hl := h.layout
 refine ⟨?_, ?_, ⟨A, Q, ?_, hstates.counted, hstates.queued⟩, h.weighed.procs, h.weighed.conts⟩
 · exact { hl with }
 · exact ⟨h.cpus.current, h.cpus.running, h.cpus.waiting, h.cpus.distinct, h.cpus.placed⟩
 exact hacc.congr (hacc.queues.congr rfl rfl (fun _ _ => rfl) (fun _ _ _ => ⟨rfl, rfl⟩)
  (fun _ _ _ => rfl)) rfl rfl rfl (fun _ _ => rfl)
end

/-!
# Steps and runs
-/

def Gentle (s : Sched) : SchedLabel -> Prop
 | .kill _ p => (s.state p ≠ .runnable ∧ s.state p ≠ .running) ∨ (s.prio p = 0 ∧ s.weight p = 88761)
 | _ => True

def Grows (s next : Sched) : SchedLabel -> Prop
 | .createProc p _ => next.procs = Insert.insert p s.procs ∧ next.conts = s.conts
 | .initContainer c _ => next.procs = s.procs ∧ next.conts = Insert.insert c s.conts
 | _ => next.procs ⊆ s.procs ∧ next.conts = s.conts

theorem Sound.step (h : s.Sound tidy) {l : SchedLabel} (hproper : s.Proper l)
  (hgentle : tidy -> s.Gentle l) (hstep : s.step l = some next) :
  next.Sound tidy ∧ s.Grows next l := by
 cases l with
 | activate cpu p onalert =>
  rcases Option.ite_none_right_eq_some.mp hstep with ⟨hp, hstep⟩
  rcases h.activateProc hp cpu onalert with ⟨r, after, hcall, hafter, hprocs, hconts⟩
  rw [hcall] at hstep
  cases hstep
  exact ⟨hafter, hprocs.subset, hconts⟩
 | sched cpu new now later =>
  rcases h.simpleSched now later hproper with ⟨after, hcall, hafter, hprocs, hconts⟩
  change s.simpleSched cpu new now later = _ at hstep
  rw [hcall] at hstep
  cases hstep
  exact ⟨hafter, hprocs.subset, hconts⟩
 | kill cpu p =>
  rcases Option.ite_none_right_eq_some.mp hstep with ⟨hp, hstep⟩
  rcases h.kill hp cpu hgentle with ⟨after, hcall, hafter, hprocs, hconts⟩
  rw [hcall] at hstep
  cases hstep
  exact ⟨hafter, hprocs.subset, hconts⟩
 | createProc p c =>
  rcases of_guard hstep with ⟨⟨hp, hc⟩, rfl⟩
  exact ⟨h.createProc hp hc, rfl, rfl⟩
 | initContainer c above =>
  rcases of_guard hstep with ⟨⟨hc, habove⟩, rfl⟩
  exact ⟨h.initContainer hc habove, rfl, rfl⟩
 | activateGroup cpu group =>
  rcases of_guard hstep with ⟨⟨hgroup, hroot⟩, rfl⟩
  exact ⟨h.activateGroup hgroup hroot cpu, Subset.rfl, rfl⟩
 | reap p =>
  rcases of_guard hstep with ⟨⟨hp, hstate⟩, rfl⟩
  exact ⟨h.reap hp hstate, erase_subset _ _, rfl⟩
 | panic =>
  cases hstep
  exact ⟨h.panic, Subset.rfl, rfl⟩

theorem sound_of_reachable {guard : Sched -> SchedLabel -> Prop}
  (hproper : forall s l, guard s l -> s.Proper l)
  (hgentle : tidy -> forall s l, guard s l -> s.Gentle l)
  (hreach : Reachable schedSystem guard s) : s.Sound tidy := by
 apply reachable_invariant (Sound tidy) _ _ hreach
 · intro s hstart
   exact sound_start hstart
 intro s l next _ h hguard hstep
 exact (h.step (hproper s l hguard) (fun htidy => hgentle htidy s l hguard) hstep).left

end Sched
end OSLab.Kernel
