import OSLab.Foundation.TransitionSystem
import OSLab.Kernel.ProcCalls

/-!
# Runs of the tree of processes

The calls on processes as a transition system, and what holds in every state that it
reaches.
-/

namespace OSLab.Kernel
open Common Foundation Function ProcTree TransitionSystem
namespace ProcTree

structure Start (s : ProcTree) : Prop where
 procs : s.procs = {s.rootProc}
 conts : s.conts = {s.rootContainer}
 state : s.state s.rootProc = .runnable
 parent : s.parent s.rootProc = some s.rootProc
 children : forall q, s.children q = []
 childexit : s.childexit s.rootProc = RawSemaphore.initSem 0
 place : s.place s.rootProc = .outside
 container : s.container s.rootProc = s.rootContainer
 rootproc : s.rootproc s.rootContainer = s.rootProc
 pid : s.pid s.rootProc = 0
 pidProcMap : s.pidProcMap = update (fun _ => none) 0 (some s.rootProc)
 globalPids : s.globalPids = PidMap.take ⟨-1, pidMaxDefault, pidMaxDefault, fun _ => false⟩ 0
 localPids : (s.localPids s.rootContainer).size = localPidMaxDefault
 localpid : s.localpid s.rootProc < localPidMaxDefault

end ProcTree

def procSystem : TransitionSystem ProcTree ProcLabel where
 initial := Start
 step := step

namespace ProcTree
variable {s next : ProcTree}

theorem sound_start (h : s.Start) : s.Sound (fun _ => False) := by
 have hprocs : forall x, x ∈ s.procs ↔ x = s.rootProc := by
  intro x
  rw [h.procs, Finset.mem_singleton]
 have hconts : forall d, d ∈ s.conts ↔ d = s.rootContainer := by
  intro d
  rw [h.conts, Finset.mem_singleton]
 have halive := ne_zombie_of_runnable h.state
 constructor
 · constructor
   · exact ⟨(hprocs _).mpr rfl, h.parent⟩
   · intro x q
     rw [h.children, hprocs]
     constructor
     · nofun
     · rintro ⟨hx, hne, _⟩
       exact absurd hx hne
   · intro q
     rw [h.children]
     exact List.nodup_nil
   · intro x q hx hq
     rw [(hprocs x).mp hx, h.parent] at hq
     cases hq
     exact ⟨(hprocs _).mpr rfl, halive⟩
   · intro x hx _
     rw [(hprocs x).mp hx, h.parent]
     exact Option.some_ne_none _
   · intro d hd
     rw [(hconts d).mp hd, h.rootproc]
     exact ⟨(hprocs _).mpr rfl, h.container, halive⟩
   · intro x hx
     rw [(hprocs x).mp hx, h.container]
     exact (hconts _).mpr rfl
   · exact ⟨(hconts _).mpr rfl, h.rootproc⟩
 · intro x hx _ _
   rw [(hprocs x).mp hx, well_iff_of_free (not_waiting_of_outside h.place) h.state, h.childexit]
   unfold zombies
   rw [h.children]
   exact ⟨rfl, rfl⟩
 · constructor
   · intro k x
     rw [h.pidProcMap, hprocs]
     by_cases hk : k = 0
     · rw [hk, update_self]
       constructor
       · intro heq
         cases heq
         exact ⟨rfl, h.pid⟩
       · rintro ⟨rfl, _⟩
         rfl
     rw [update_of_ne hk]
     constructor
     · nofun
     · rintro ⟨rfl, heq⟩
       exact absurd (heq.symm.trans h.pid) hk
   · rw [h.globalPids]
     rfl
   · intro k _
     rw [h.globalPids]
     change update (fun _ => false) 0 true k = true ↔ _
     by_cases hk : k = 0
     · rw [hk, update_self]
       exact ⟨fun _ => ⟨_, (hprocs _).mpr rfl, h.pid⟩, fun _ => rfl⟩
     rw [update_of_ne hk]
     constructor
     · nofun
     rintro ⟨x, hx, heq⟩
     rw [(hprocs x).mp hx, h.pid] at heq
     exact absurd (Int.ofNat_inj.mp heq).symm hk
   · intro x hx
     rw [(hprocs x).mp hx]
     exact ⟨0, by decide, h.pid⟩
   · rw [h.globalPids]
     apply PidMap.take_counted
     · unfold PidMap.Counted PidMap.clear
       rw [Finset.filter_true_of_mem (fun _ _ => rfl), Finset.card_range]
     · decide
     · rfl
   · rw [h.globalPids, h.procs, Finset.card_singleton]
     rfl
   · intro d hd
     rw [(hconts d).mp hd]
     exact h.localPids
   · intro x hx _
     rw [(hprocs x).mp hx]
     exact h.localpid

theorem sound_of_reachable (hreach : Reachable procSystem unguarded s) :
  s.Sound (fun _ => False) := by
 apply reachable_invariant (Sound · (fun _ => False)) _ _ hreach
 · intro s hstart
   exact sound_start hstart
 intro s l next _ h _ hstep
 exact (h.step hstep).left

/-!
# `exit` and `wait`
-/

structure Cared (s : ProcTree) : Prop where
 listed : forall p, p ∈ s.procs -> s.state p ≠ .unused -> p ≠ s.rootProc ->
  exists q, s.parent p = some q ∧ (s.children q).count p = 1 ∧ forall r, r ≠ q -> p ∉ s.children r
 tokens : forall p, p ∈ s.procs -> s.state p ≠ .zombie ->
  (s.childexit p).val + (if s.Waiting p then 1 else 0) = s.zombies p
 checks : forall cp, (s.waitCheck cp).1 = some (-1) ↔ s.children cp = []
 returns : forall cp, s.At cp .asleep -> exists result next, s.waitBack cp = some (result, next) ∧
   (result = none ∧ next.place cp = .granted ∨ result = some (-1) ∧ s.killed cp = true)
 reaps : forall cp, s.At cp .granted ->
  exists c next, s.waitReap cp = some ((s.localpid c, s.exitcode c, s.pid c), next) ∧
   s.parent c = some cp ∧ c ∈ s.children cp ∧ s.state c = .zombie ∧
   next.procs = s.procs.erase c ∧ (forall q, c ∉ next.children q) ∧
   next.zombies cp + 1 = s.zombies cp
 exits : forall cp code, s.At cp .outside -> cp ≠ s.rootproc (s.container cp) ->
  exists next, s.exit cp code = some next ∧ next.state cp = .zombie
 creates : forall p, p ∉ s.procs -> s.procs.card < pidMaxDefault ->
  exists next, s.createProc p = some next

end ProcTree

theorem exit_wait_of_reachable {s : ProcTree} (hreach : Reachable procSystem unguarded s) :
  s.Cared := by
 have h := sound_of_reachable hreach
 constructor
 · intro p hp hused hroot
   cases hparent : s.parent p with
   | none => exact absurd hparent (h.family.started p hp hused)
   | some q =>
    have hin : p ∈ s.children q := (h.family.member p q).mpr ⟨hp, hroot, hparent⟩
    refine ⟨q, rfl, List.count_eq_one_of_mem (h.family.nodup q) hin, ?_⟩
    intro r hr
    apply h.family.not_child_of_parent
    rw [hparent]
    exact fun heq => hr (Option.some.inj heq).symm
 · intro p hp hlive
   exact (h.tokens p hp hlive id).tokens
 · intro cp
   unfold waitCheck
   split
   · rename_i hempty
     exact ⟨fun _ => hempty, fun _ => rfl⟩
   rename_i hsome
   constructor
   · nofun
   · exact fun hempty => absurd hempty hsome
 · rintro cp ⟨hcp, hrun, hplace⟩
   rcases waitBack_spec h hcp hrun hplace with ⟨result, next, hback, _, hcase⟩
   exact ⟨result, next, hback, hcase⟩
 · rintro cp ⟨hcp, hrun, hplace⟩
   rcases waitReap_spec h hcp hrun hplace with ⟨c, next, hreap, hsound, hc, hzombie, hprocs, hcount⟩
   refine ⟨c, next, hreap, ((h.family.member c cp).mp hc).right.right, hc, hzombie, hprocs, ?_,
    hcount⟩
   intro q hin
   have hmem := ((hsound.family.member c q).mp hin).left
   rw [hprocs] at hmem
   exact Finset.notMem_erase c s.procs hmem
 · rintro cp code ⟨hcp, hrun, _⟩ hroot
   rcases exit_spec h hcp hrun hroot code with ⟨next, hexit, _, _, hzombie⟩
   exact ⟨next, hexit, hzombie⟩
 · intro p hp hroom
   rcases createProc_spec h hp hroom with ⟨next, hcreate, _⟩
   exact ⟨next, hcreate⟩

def bootTree : ProcTree where
 procs := {1}
 conts := {0}
 state := fun _ => .runnable
 killed := fun _ => false
 parent := fun _ => some 1
 children := fun _ => []
 childexit := fun _ => RawSemaphore.initSem 0
 up := fun _ => false
 place := fun _ => .outside
 container := fun _ => 0
 rootproc := fun _ => 1
 pid := fun _ => 0
 localpid := fun _ => 1
 exitcode := fun _ => 0
 pidProcMap := update (fun _ => none) 0 (some 1)
 globalPids := PidMap.take ⟨-1, pidMaxDefault, pidMaxDefault, fun _ => false⟩ 0
 localPids := fun _ => PidMap.take (PidMap.init localPidMaxDefault fun _ => false) 1
 rootProc := 1
 rootContainer := 0

theorem bootTree_start : procSystem.initial bootTree where
 procs := rfl
 conts := rfl
 state := rfl
 parent := rfl
 children := fun _ => rfl
 childexit := rfl
 place := rfl
 container := rfl
 rootproc := rfl
 pid := rfl
 pidProcMap := rfl
 globalPids := rfl
 localPids := rfl
 localpid := by decide

open ProcLabel in
/-- `root_proc` waits for two processes; one has exited, and its token is taken. -/
theorem exit_wait_with_two_children :
  exists s, Reachable procSystem unguarded s ∧ s.Cared ∧ s.At 1 WaitPlace.granted ∧
    s.children 1 = [11, 10] ∧ s.state 10 = ProcState.zombie ∧
    s.state 11 = ProcState.runnable ∧ (s.childexit 1).val = 0 := by
 exact exists_reachable_also bootTree_start
  [createProc 10, setParentToThis 1 10, startAttach 10, startActivate 10, createProc 11,
   startAttach 11, startActivate 11, waitCheck 1, waitSem 1, exit 10 3, waitBack 1]
  (by decide +kernel)
  (fun _ => exit_wait_of_reachable)

open ProcLabel in
/--
The process 10 exits after its child 11: its own token stays, and the child is on the
list of `root_proc`.
-/
theorem exited_process_keeps_token : exists s, Reachable procSystem unguarded s ∧ 10 ∈ s.procs ∧
    s.state 10 = ProcState.zombie ∧ s.place 10 = WaitPlace.outside ∧
    (s.childexit 10).val = 1 ∧ s.zombies 10 = 0 ∧ s.children 1 = [11, 10] ∧
    s.zombies 1 = 2 := by
 exact exists_reachable_with bootTree_start
  [createProc 10, setParentToThis 1 10, startActivate 10, createProc 11,
   setParentToThis 10 11, startActivate 11, exit 11 0, exit 10 0] (by decide +kernel)

end OSLab.Kernel
