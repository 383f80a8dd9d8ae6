import OSLab.Kernel.ProcTreeRuns

/-!
# Containers and local pids

What a run of the calls on processes does to the container of a process and to the pid
that it has there.  `start_proc` stores what `get_next_pid` returns, so a process may
have the local pid -1, and `wait` gives that back like any other.  `fork` does not set
the container of the child.
-/

namespace OSLab.Kernel
open Foundation Function ProcTree TransitionSystem
variable {s next : ProcTree} {p q c cp : Nat}

namespace ProcTree

theorem firstZombie_spec (h : s.Family) (hfirst : s.firstZombie cp = some c) :
  c ∈ s.procs ∧ s.state c = .zombie := by
 have hfound := List.find?_some (l := s.children cp) hfirst
 have hmem := List.mem_of_find?_eq_some (l := s.children cp) hfirst
 exact ⟨((h.member c cp).mp hmem).left, of_decide_eq_true hfound⟩

/-!
# Local pids
-/

structure Named (s : ProcTree) : Prop where
 own : forall x, s.Started x -> exists k : Nat, k < localPidMaxDefault ∧ s.localpid x = k ∧
  (s.localPids (s.container x)).page k = true
 unique : forall x y, s.Started x -> s.Started y -> s.container x = s.container y ->
  s.localpid x = s.localpid y -> x = y

section
variable (h : s.Named)
include h

theorem Named.keep (hkeep : forall x, next.Started x -> s.Started x ∧
  next.container x = s.container x ∧ next.localpid x = s.localpid x ∧
  forall k : Nat, s.localpid x = k -> (s.localPids (s.container x)).page k ->
    (next.localPids (s.container x)).page k) : next.Named := by
 constructor
 · intro x hx
   rcases hkeep x hx with ⟨hx', hcont, hpid, hbit⟩
   rcases h.own x hx' with ⟨k, hk, heq, hset⟩
   rw [hcont, hpid]
   exact ⟨k, hk, heq, hbit k heq hset⟩
 intro x y hx hy hconts hpids
 rcases hkeep x hx with ⟨hx', hcont, hpid, _⟩
 rcases hkeep y hy with ⟨hy', hcont', hpid', _⟩
 rw [hcont, hcont'] at hconts
 rw [hpid, hpid'] at hpids
 exact h.unique x y hx' hy' hconts hpids

theorem Named.still {parents : Nat -> Option Nat} (hstill : s.Still next parents) : next.Named := by
 apply h.keep
 rintro x ⟨hx, hused⟩
 rw [hstill.procs] at hx
 rw [Ne, hstill.unused] at hused
 rw [hstill.container, hstill.localpid, hstill.localPids]
 exact ⟨⟨hx, hused⟩, rfl, rfl, fun _ _ => id⟩

theorem Named.prepares (hfamily : s.Family) (hprepares : s.Prepares next p) : next.Named := by
 apply h.keep
 rintro x ⟨hx, hused⟩
 have hxp : x ≠ p := by
  rintro rfl
  exact hused hprepares.unused
 rcases hprepares.others x hxp with ⟨hmem, hstate, hcont, hpid, _⟩
 rw [hmem] at hx
 rw [hstate] at hused
 rw [hprepares.localPids _ (hfamily.containers x hx)]
 exact ⟨⟨hx, hused⟩, hcont, hpid, fun _ _ => id⟩

theorem Named.starts (hs : s.Pids) (hc : s.container p ∈ s.conts)
  (hroom : (s.localPids (s.container p)).HasRoom) : (s.startActivate p).Named := by
 have hsize := hs.locals _ hc
 have hpos : 0 < (s.localPids (s.container p)).size := by
  rw [hsize]
  decide
 rcases PidMap.getNextPid_of_room hpos hroom with ⟨hfirst, hsome⟩
 rcases PidMap.mem_clear.mp hfirst.left with ⟨hk, hclear⟩
 generalize (s.localPids (s.container p)).search = k at hk hclear hsome
 rw [hsize] at hk
 have hself : (s.startActivate p).localpid p = k := by
  change update s.localpid p _ p = _
  rw [update_self, hsome]
 have hpids : forall x, x ≠ p -> (s.startActivate p).localpid x = s.localpid x :=
  fun x hx => update_of_ne hx _ _
 have hstarted : forall x, x ≠ p -> (s.startActivate p).Started x -> s.Started x := by
  rintro x hx ⟨hmem, hused⟩
  change update s.state p _ x ≠ _ at hused
  rw [update_of_ne hx] at hused
  exact ⟨hmem, hused⟩
 have hbits : forall d j, (s.localPids d).page j ∨ d = s.container p ∧ j = k ->
  ((s.startActivate p).localPids d).page j := by
  intro d j hset
  change (update s.localPids (s.container p) _ d).page j = true
  by_cases hd : d = s.container p
  · rw [hd, update_self, hsome]
    change update (s.localPids (s.container p)).page k true j = true
    by_cases hj : j = k
    · rw [hj, update_self]
    rw [update_of_ne hj, ← hd]
    exact hset.resolve_right fun heq => hj heq.right
  rw [update_of_ne hd]
  exact hset.resolve_right fun heq => hd heq.left
 -- The bit of `p` was clear, so no other process of the container has it.
 have hother : forall x, x ≠ p -> s.Started x -> s.container x = s.container p ->
  s.localpid x ≠ k := by
  intro x _ hx hcont heq
  rcases h.own x hx with ⟨j, _, hj, hset⟩
  have hjk : j = k := Int.ofNat_inj.mp (hj.symm.trans heq)
  rw [hcont, hjk, hclear] at hset
  cases hset
 constructor
 · intro x hx
   by_cases hxp : x = p
   · rw [hxp]
     exact ⟨k, hk, hself, hbits _ _ (.inr ⟨rfl, rfl⟩)⟩
   rcases h.own x (hstarted x hxp hx) with ⟨j, hj, heq, hset⟩
   exact ⟨j, hj, (hpids x hxp).trans heq, hbits _ _ (.inl hset)⟩
 intro x y hx hy hconts heq
 by_cases hxp : x = p
 · by_cases hyp : y = p
   · rw [hxp, hyp]
   rw [hxp, hself, hpids y hyp] at heq
   rw [hxp] at hconts
   exact absurd heq.symm (hother y hyp (hstarted y hyp hy) hconts.symm)
 by_cases hyp : y = p
 · rw [hyp, hself, hpids x hxp] at heq
   rw [hyp] at hconts
   exact absurd heq (hother x hxp (hstarted x hxp hx) hconts)
 rw [hpids x hxp, hpids y hyp] at heq
 exact h.unique x y (hstarted x hxp hx) (hstarted y hyp hy) hconts heq

theorem Named.freePid_page (hs : s.Sound (fun _ => False)) (hc : s.Started c)
  {m : PidMap} (hm : (s.localPids (s.container c)).freePid (s.localpid c) = some m) (k : Nat) :
  m.page k = if (k : Int) = s.localpid c then false else (s.localPids (s.container c)).page k := by
 rcases h.own c hc with ⟨j, hj, heq, _⟩
 have hsize := hs.pids.locals _ (hs.family.containers c hc.left)
 rw [heq, PidMap.freePid_eq (hsize ▸ hj)] at hm
 rw [heq, ← Option.some.inj hm]
 change update (s.localPids (s.container c)).page j false k = _
 by_cases hk : k = j
 · rw [hk, update_self, if_pos rfl]
 · rw [update_of_ne hk, if_neg (fun hfalse => hk (Int.ofNat_inj.mp hfalse))]
end

theorem firstZombie_started (h : s.Family) (hfirst : s.firstZombie cp = some c) : s.Started c := by
 rcases firstZombie_spec h hfirst with ⟨hc, hzombie⟩
 refine ⟨hc, ?_⟩
 rw [hzombie]
 exact nofun

theorem Named.change (h : s.Named) (hs : s.Sound (fun _ => False)) {l : ProcLabel}
  (hchange : s.Change next l) (hroom : forall p, l = .startActivate p ->
    (s.localPids (s.container p)).HasRoom) : next.Named := by
 cases hchange with
 | still hstill | exits cp code _ hstill => exact h.still hstill
 | prepares p _ hprepares => exact h.prepares hs.family hprepares
 | starts p hp _ heq =>
  rw [heq]
  exact h.starts hs.pids (hs.family.containers p hp) (hroom p rfl)
 | reaps cp c m _ _ _ _ hfirst hm heq =>
  have hc := firstZombie_started hs.family hfirst
  apply h.keep
  rintro x ⟨hx, hused⟩
  rw [heq] at hx hused ⊢
  rcases Finset.mem_erase.mp hx with ⟨hxc, hx'⟩
  change update s.state c _ x ≠ _ at hused
  rw [update_of_ne hxc] at hused
  refine ⟨⟨hx', hused⟩, rfl, rfl, ?_⟩
  intro k hk hset
  change (update s.localPids (s.container c) m _).page k = true
  by_cases hcont : s.container x = s.container c
  · rw [hcont, update_self, h.freePid_page hs hc hm, if_neg, ← hcont]
    · exact hset
    · exact fun hsame => hxc (h.unique x c ⟨hx', hused⟩ hc hcont (hk.trans hsame))
  rw [update_of_ne hcont]
  exact hset

/-- `root_proc` has got the first local pid of `root_container`. -/
structure LocalStart (s : ProcTree) : Prop extends s.Start where
 own : s.localpid s.rootProc = 1
 fresh : s.localPids s.rootContainer =
  PidMap.take ⟨0, localPidMaxDefault, localPidMaxDefault, fun _ => false⟩ 1

/-- `start_proc` is called while the container has a local pid left. -/
def Roomy (s : ProcTree) : ProcLabel -> Prop
 | .startActivate p => (s.localPids (s.container p)).HasRoom
 | _ => True

instance (s : ProcTree) : (l : ProcLabel) -> Decidable (s.Roomy l)
 | .startActivate _ => inferInstanceAs (Decidable (PidMap.HasRoom _))
 | .createProc _ | .setParentToThis _ _ | .setContainer _ _ | .initContainer _ _ _
 | .startAttach _ | .exit _ _ | .waitCheck _ | .waitSem _ | .waitBack _ | .waitReap _
 | .kill _ => isTrue trivial

structure Distinct (s : ProcTree) : Prop where
 distinct : forall p q, s.Started p -> s.Started q -> p ≠ q ->
  s.container p = s.container q -> 0 ≤ s.localpid p -> s.localpid p ≠ s.localpid q
 reaps : forall cp value next, s.waitReap cp = some (value, next) ->
  exists c, s.firstZombie cp = some c ∧ forall d k, (next.localPids d).page k =
   if d = s.container c ∧ (k : Int) = s.localpid c then false else (s.localPids d).page k

end ProcTree

def localSystem : TransitionSystem ProcTree ProcLabel where
 initial := LocalStart
 step := step

namespace ProcTree
variable {guard : ProcTree -> ProcLabel -> Prop}

theorem sound_of_local (hreach : Reachable localSystem guard s) : s.Sound (fun _ => False) := by
 have hproc : Reachable procSystem unguarded s := by
  apply reachable_project id _ _ hreach
  · exact fun _ hstart => LocalStart.toStart hstart
  · exact fun _ l _ _ hstep => .inr ⟨l, trivial, hstep⟩
 exact sound_of_reachable hproc

theorem named_start (h : s.LocalStart) : s.Named := by
 have honly : forall x, s.Started x -> x = s.rootProc := by
  intro x hx
  have hmem := hx.left
  rw [h.procs, Finset.mem_singleton] at hmem
  exact hmem
 constructor
 · intro x hx
   rw [honly x hx, h.container, h.fresh]
   exact ⟨1, by decide, h.own, rfl⟩
 · intro x y hx hy _ _
   rw [honly x hx, honly y hy]

theorem named_of_reachable (hreach : Reachable localSystem Roomy s) : s.Named := by
 apply reachable_invariant Named _ _ hreach
 · exact fun s => named_start
 intro s l next hreach h hguard hstep
 have hs := sound_of_local hreach
 apply h.change hs (hs.step hstep).right
 rintro p rfl
 exact hguard

end ProcTree

theorem local_pids_distinct_of_reachable {s : ProcTree}
  (hreach : Reachable localSystem ProcTree.Roomy s) : s.Distinct := by
 have h := named_of_reachable hreach
 have hs := sound_of_local hreach
 constructor
 · intro p q hp hq hne hcont _ heq
   exact hne (h.unique p q hp hq hcont heq)
 intro cp value next hreap
 rcases waitReap_some hreap with ⟨c, m, _, _, _, _, hfirst, hm, hnext⟩
 have hc := firstZombie_started hs.family hfirst
 refine ⟨c, hfirst, ?_⟩
 intro d k
 rw [hnext]
 change (update s.localPids (s.container c) m d).page k = _
 by_cases hd : d = s.container c
 · rw [hd, update_self, h.freePid_page hs hc hm]
   simp only [true_and]
 · rw [update_of_ne hd, if_neg fun hfalse => hd hfalse.left]

theorem bootTree_local : localSystem.initial bootTree where
 toStart := bootTree_start
 own := rfl
 fresh := by
  change PidMap.take (PidMap.init localPidMaxDefault fun _ => false) 1 = _
  unfold PidMap.init
  simp only [ite_self]

def spawned (p : Nat) : List ProcLabel := [.createProc p, .startAttach p, .startActivate p]

open ProcLabel in
/-- Two processes, one of them started after another one has been freed. -/
theorem local_pids_distinct_after_wait :
  exists s, Reachable localSystem ProcTree.Roomy s ∧ s.Distinct ∧
    s.Started 3 ∧ s.Started 4 ∧ s.localpid 3 = 3 ∧ s.localpid 4 = 4 := by
 exact exists_reachable_also bootTree_local (spawned 2 ++ spawned 3 ++
   [exit 2 0, waitCheck 1, waitSem 1, waitReap 1] ++ spawned 4) (by decide +kernel)
  (fun _ => local_pids_distinct_of_reachable)

open ProcLabel in
/--
After 257 processes have been started, the last with the local pid -1, that one is
freed, and the next one gets the local pid 255, which the process 255 has.
-/
theorem local_pids_collide :
  exists s, Reachable localSystem unguarded s ∧ s.Started 255 ∧ s.Started 258 ∧
    s.container 255 = s.container 258 ∧ s.localpid 255 = 255 ∧ s.localpid 258 = 255 := by
 exact exists_reachable_with bootTree_local ((List.range 256).flatMap (fun i => spawned (i + 2)) ++
   [exit 257 0, waitCheck 1, waitSem 1, waitReap 1] ++ spawned 258) (by decide +kernel)

/-!
# Containers
-/

namespace ProcTree

structure Housed (s : ProcTree) : Prop where
 parents : forall x q, x ∈ s.procs -> s.parent x = some q -> s.Settled q
 same : forall x q, s.Started x -> ¬ s.RootOf x -> s.parent x = some q ->
  s.container x = s.container q

variable {parents : Nat -> Option Nat}

theorem Still.settled (hstill : s.Still next parents) (hq : s.Settled q) : next.Settled q := by
 unfold Settled RootOf at hq ⊢
 rw [hstill.procs, hstill.conts, hstill.rootproc, Ne, hstill.unused]
 exact hq

theorem Housed.still (h : s.Housed) (hstill : s.Still next parents)
  (hparents : forall x q, x ∈ s.procs -> parents x = some q -> s.parent x = some q ∨
    s.Settled q ∧ exists r, s.parent x = some r ∧ s.container r = s.container q) :
  next.Housed := by
 constructor
 · intro x q hx hq
   rw [hstill.procs] at hx
   rw [hstill.parent] at hq
   apply hstill.settled
   rcases hparents x q hx hq with hold | ⟨hsettled, _⟩
   · exact h.parents x q hx hold
   · exact hsettled
 rintro x q ⟨hx, hused⟩ hroot hq
 unfold RootOf at hroot
 rw [hstill.procs] at hx
 rw [Ne, hstill.unused] at hused
 rw [hstill.conts, hstill.rootproc] at hroot
 rw [hstill.parent] at hq
 rw [hstill.container]
 rcases hparents x q hx hq with hold | ⟨_, r, hold, hsame⟩
 · exact h.same x q ⟨hx, hused⟩ hroot hold
 · exact (h.same x r ⟨hx, hused⟩ hroot hold).trans hsame

theorem Prepares.settled (hprepares : s.Prepares next p) (hq : s.Settled q) :
  next.Settled q ∧ next.container q = s.container q := by
 rcases hq with ⟨hmem, hcase⟩
 by_cases hqp : q = p
 · rw [hqp] at hmem hcase ⊢
   have hroot : s.RootOf p := hcase.resolve_left fun hused => hprepares.before ⟨hmem, hused⟩
   exact ⟨⟨hprepares.created, .inr (hprepares.roots p hroot)⟩, hprepares.container hroot⟩
 rcases hprepares.others q hqp with ⟨hmem', hstate, hcont, _⟩
 refine ⟨⟨hmem'.mpr hmem, ?_⟩, hcont⟩
 rw [hstate]
 exact hcase.imp_right (hprepares.roots q)

theorem Housed.prepares (h : s.Housed) (hprepares : s.Prepares next p) : next.Housed := by
 have hparents : forall x q, x ∈ next.procs -> next.parent x = some q -> s.Settled q := by
  intro x q hx hq
  by_cases hxp : x = p
  · rw [hxp] at hq
    rcases hprepares.parent q hq with ⟨hp, hold⟩ | hsettled
    · exact h.parents p q hp hold
    · exact hsettled
  rcases hprepares.others x hxp with ⟨hmem, _, _, _, hparent⟩
  exact h.parents x q (hmem.mp hx) (hparent.symm.trans hq)
 constructor
 · exact fun x q hx hq => (hprepares.settled (hparents x q hx hq)).left
 rintro x q ⟨hx, hused⟩ hroot hq
 have hxp : x ≠ p := by
  rintro rfl
  exact hused hprepares.unused
 rw [(hprepares.settled (hparents x q hx hq)).right]
 rcases hprepares.others x hxp with ⟨hmem, hstate, hcont, _, hparent⟩
 rw [hcont]
 rw [hstate] at hused
 rw [hparent] at hq
 exact h.same x q ⟨hmem.mp hx, hused⟩ (fun hold => hroot (hprepares.roots x hold)) hq

theorem Housed.starts (h : s.Housed)
  (hsame : s.RootOf p ∨ (s.parent p).map s.container = some (s.container p)) :
  (s.startActivate p).Housed := by
 have hstate : forall x, x ≠ p -> (s.startActivate p).state x = s.state x :=
  fun x hx => update_of_ne hx _ _
 constructor
 · intro x q hx hq
   rcases h.parents x q hx hq with ⟨hmem, hcase⟩
   refine ⟨hmem, hcase.imp_left fun hused => ?_⟩
   by_cases hqp : q = p
   · rw [hqp] at hused ⊢
     change update s.state p _ p ≠ _
     rw [update_self]
     exact fun hfalse => hused ((activate_unused_iff hused false).mp hfalse)
   rw [hstate q hqp]
   exact hused
 rintro x q ⟨hx, hused⟩ hroot hq
 by_cases hxp : x = p
 · rw [hxp] at hroot hq ⊢
   have hcont := hsame.resolve_left hroot
   rw [show s.parent p = some q from hq] at hcont
   exact (Option.some.inj hcont).symm
 rw [hstate x hxp] at hused
 exact h.same x q ⟨hx, hused⟩ hroot hq

theorem Housed.reaped (h : s.Housed) (hfamily : s.Family) (hzombie : s.state c = .zombie)
  (m globalPids : PidMap) (children : Nat -> List Nat) (pidProcMap : Int -> Option Nat)
  (place : Nat -> WaitPlace) :
  (s.reaped c m globalPids children pidProcMap place).Housed := by
 constructor
 · intro x q hx hq
   have hx' := (Finset.mem_erase.mp hx).right
   have hqc : q ≠ c := by
    rintro rfl
    exact (hfamily.parents x q hx' hq).right hzombie
   rcases h.parents x q hx' hq with ⟨hmem, hcase⟩
   refine ⟨Finset.mem_erase.mpr ⟨hqc, hmem⟩, hcase.imp_left fun hused => ?_⟩
   change update s.state c _ q ≠ _
   rw [update_of_ne hqc]
   exact hused
 rintro x q ⟨hx, hused⟩ hroot hq
 rcases Finset.mem_erase.mp hx with ⟨hxc, hx'⟩
 change update s.state c _ x ≠ _ at hused
 rw [update_of_ne hxc] at hused
 exact h.same x q ⟨hx', hused⟩ hroot hq

theorem Family.handed_cases (hfamily : s.Family) (hcp : cp ∈ s.procs) {x : Nat}
  (hq : s.handed (s.rootproc (s.container cp)) (s.children cp) x = some q) :
  s.parent x = some q ∨
    s.Settled q ∧ exists r, s.parent x = some r ∧ s.container r = s.container q := by
 have hcont := hfamily.containers cp hcp
 unfold handed at hq
 split at hq
 · rename_i hchild
   cases hq
   exact .inr ⟨Settled.of_root hfamily hcont, cp, ((hfamily.member x cp).mp hchild).right.right,
    (hfamily.roots _ hcont).right.left.symm⟩
 · exact .inl hq

theorem Housed.change (h : s.Housed) (hs : s.Sound (fun _ => False)) {l : ProcLabel}
  (hchange : s.Change next l) (hsame : forall p, l = .startActivate p ->
    s.RootOf p ∨ (s.parent p).map s.container = some (s.container p)) : next.Housed := by
 cases hchange with
 | still hstill => exact h.still hstill fun _ _ _ => .inl
 | prepares p _ hprepares => exact h.prepares hprepares
 | starts p _ _ heq =>
  rw [heq]
  exact h.starts (hsame p rfl)
 | exits cp code hcp hstill => exact h.still hstill fun _ _ _ => hs.family.handed_cases hcp
 | reaps cp c m _ _ _ _ hfirst _ heq =>
  rw [heq]
  exact h.reaped hs.family (firstZombie_spec hs.family hfirst).right _ _ _ _ _

structure Inherited (s : ProcTree) : Prop where
 same : forall p, s.Started p -> ¬ s.RootOf p ->
  exists q, s.parent p = some q ∧ s.container p = s.container q
 handed : forall cp code next, s.At cp .outside -> s.exit cp code = some next ->
  s.container (s.rootproc (s.container cp)) = s.container cp ∧ forall x, x ∈ s.children cp ->
    next.parent x = some (s.rootproc (s.container cp)) ∧
     x ∈ next.children (s.rootproc (s.container cp))

theorem housed_start (h : s.Start) : s.Housed := by
 have honly : forall x, x ∈ s.procs -> x = s.rootProc := by
  intro x hx
  rw [h.procs, Finset.mem_singleton] at hx
  exact hx
 have hroot : s.RootOf s.rootProc :=
  ⟨s.rootContainer, h.conts ▸ Finset.mem_singleton_self _, h.rootproc⟩
 constructor
 · intro x q hx hq
   rw [honly x hx, h.parent] at hq
   cases hq
   exact ⟨honly x hx ▸ hx, .inr hroot⟩
 · intro x q hx hnot
   exact absurd (honly x hx.left ▸ hroot) hnot

theorem createProc_fields (hcreate : s.createProc p = some next) :
  next.parent p = none ∧ next.container p = s.rootContainer := by
 unfold createProc insertPidProcMap at hcreate
 dsimp only at hcreate
 split at hcreate
 · cases hcreate
   exact ⟨update_self .., update_self ..⟩
 · cases hcreate

end ProcTree

/-!
# Who makes a process

For a process that has not been started: who has called `set_parent_to_this` and
`set_container_to_this` for it, each with the container that it was in.  `fork` is
`create_proc` and `set_parent_to_this`, and `start_proc` at its end; the child is known
to nobody else in between.
-/

structure CallTree where
 tree : ProcTree
 parentBy : Nat -> Option (Nat × Nat)
 containerBy : Nat -> Option (Nat × Nat)

inductive CallLabel where
 | proc (l : ProcLabel)
 | setContainerToThis (cp p : Nat)
 | fork (cp child : Nat)

namespace CallTree

def createProc (s : CallTree) (p : Nat) : Option CallTree :=
 (s.tree.step (.createProc p)).map fun tree =>
  ⟨tree, update s.parentBy p none, update s.containerBy p none⟩

def setParentToThis (s : CallTree) (cp p : Nat) : Option CallTree :=
 (s.tree.step (.setParentToThis cp p)).map fun tree =>
  { s with tree := tree, parentBy := update s.parentBy p (some (cp, s.tree.container cp)) }

def setContainerToThis (s : CallTree) (cp p : Nat) : Option CallTree :=
 (s.tree.step (.setContainer p (s.tree.container cp))).map fun tree =>
  { s with tree := tree, containerBy := update s.containerBy p (some (cp, s.tree.container cp)) }

def step (s : CallTree) : CallLabel -> Option CallTree
 | .proc (.createProc p) => s.createProc p
 | .proc (.setParentToThis cp p) => s.setParentToThis cp p
 | .proc (.setContainer _ _) => none
 | .proc l => (s.tree.step l).map fun tree => { s with tree := tree }
 | .setContainerToThis cp p => if s.tree.At cp .outside then s.setContainerToThis cp p else none
 | .fork cp child => (s.createProc child).bind fun s => s.setParentToThis cp child

/--
A process that is started is the root of a container, or its parent and its container
were set by the same caller, or by none, or its parent was set by a process in
`root_container` and its container was not set.
-/
def Proper (s : CallTree) : CallLabel -> Prop
 | .proc (.startActivate p) => s.tree.RootOf p ∨ s.containerBy p = s.parentBy p ∨
  s.containerBy p = none ∧ (s.parentBy p).map Prod.snd = some s.tree.rootContainer
 | _ => True

instance (s : CallTree) (l : CallLabel) : Decidable (s.Proper l) := by
 unfold Proper
 split <;> infer_instance

/-- The container of the caller; without a call the process is like one that `root_proc` makes. -/
def home (s : CallTree) (caller : Option (Nat × Nat)) : Nat :=
 (caller.map Prod.snd).getD (s.tree.container s.tree.rootProc)

structure MadeAt (s : CallTree) (x : Nat) : Prop where
 container : s.tree.container x = s.home (s.containerBy x)
 parent : forall r, s.tree.parent x = some r -> s.tree.container r = s.home (s.parentBy x)
 attached : s.tree.parent x = none -> s.parentBy x = none

structure Made (s : CallTree) : Prop where
 sound : s.tree.Sound (fun _ => False)
 housed : s.tree.Housed
 made : forall x, s.tree.Fresh x -> ¬ s.tree.RootOf x -> s.MadeAt x

variable {s next : CallTree}

theorem MadeAt.congr {x : Nat} (h : s.MadeAt x) (hparentBy : next.parentBy x = s.parentBy x)
  (hcontainerBy : next.containerBy x = s.containerBy x)
  (hcontainer : next.tree.container x = s.tree.container x)
  (hparent : forall r, next.tree.parent x = some r -> exists r', s.tree.parent x = some r' ∧
   s.tree.container r' = next.tree.container r)
  (hattached : next.tree.parent x = none -> s.tree.parent x = none)
  (hhome : next.home = s.home) : next.MadeAt x := by
 constructor
 · rw [hcontainer, hhome, hcontainerBy]
   exact h.container
 · intro r hr
   rcases hparent r hr with ⟨r', hr', hsame⟩
   rw [← hsame, hhome, hparentBy]
   exact h.parent r' hr'
 · intro hr
   rw [hparentBy]
   exact h.attached (hattached hr)

section
variable (h : s.Made)
include h

theorem Made.root :
  s.tree.Settled s.tree.rootProc ∧ s.tree.container s.tree.rootProc = s.tree.rootContainer := by
 rcases h.sound.family.first with ⟨hmem, heq⟩
 rw [← heq]
 exact ⟨Settled.of_root h.sound.family hmem, (h.sound.family.roots _ hmem).right.left⟩

theorem Made.starts (hp : s.tree.Fresh p) (hparent : s.tree.parent p ≠ none)
  (hproper : s.Proper (.proc (.startActivate p))) :
  s.tree.RootOf p ∨ (s.tree.parent p).map s.tree.container = some (s.tree.container p) := by
 refine or_iff_not_imp_left.mpr fun hroot => ?_
 rcases Option.ne_none_iff_exists'.mp hparent with ⟨r, hr⟩
 have hmade := h.made p hp hroot
 rw [hr, Option.map_some, hmade.parent r hr, hmade.container]
 rcases hproper.resolve_left hroot with hsame | ⟨hnone, hplace⟩
 · rw [hsame]
 · unfold home
   rw [hnone, hplace, h.root.right]
   rfl

theorem Made.prepares {l : ProcLabel} (hstep : s.tree.step l = some next.tree)
  (hprepares : s.tree.Prepares next.tree p) (hothers : forall x, x ≠ p ->
   next.parentBy x = s.parentBy x ∧ next.containerBy x = s.containerBy x)
  (hp : next.home = s.home -> ¬ next.tree.RootOf p -> next.MadeAt p) : next.Made := by
 have hhome : next.home = s.home := by
  unfold home
  rw [hprepares.rootProc, (hprepares.settled h.root.left).right]
 refine ⟨(h.sound.step hstep).left, h.housed.prepares hprepares, ?_⟩
 intro x hx hroot
 by_cases hxp : x = p
 · rw [hxp] at hroot ⊢
   exact hp hhome hroot
 rcases hprepares.others x hxp with ⟨hmem, hstate, hcontainer, _, hparent⟩
 have hfresh : s.tree.Fresh x := ⟨hmem.mp hx.left, hstate.symm.trans hx.right⟩
 refine (h.made x hfresh fun hold => hroot (hprepares.roots x hold)).congr
  (hothers x hxp).left (hothers x hxp).right hcontainer ?_ (fun hr => hparent.symm.trans hr) hhome
 intro r hr
 have hr' := hparent.symm.trans hr
 exact ⟨r, hr', (hprepares.settled (h.housed.parents x r hfresh.left hr')).right.symm⟩

theorem Made.createProc (hstep : s.createProc p = some next) : next.Made := by
 rcases Option.map_eq_some_iff.mp hstep with ⟨tree, htree, rfl⟩
 rcases of_step htree with ⟨henabled, hcall⟩
 rcases createProc_fields hcall with ⟨hparent, hcontainer⟩
 refine h.prepares htree (prepares_created h.sound henabled.left hcall) ?_
  fun hhome _ => ⟨?_, ?_, ?_⟩
 · exact fun x hx => ⟨update_of_ne hx _ _, update_of_ne hx _ _⟩
 · dsimp only at hhome ⊢
   rw [hhome, update_self]
   exact hcontainer.trans h.root.right.symm
 · intro r hr
   rw [hparent] at hr
   cases hr
 · exact fun _ => update_self ..

theorem Made.setParentToThis (hstep : s.setParentToThis cp p = some next) : next.Made := by
 rcases Option.map_eq_some_iff.mp hstep with ⟨tree, htree, rfl⟩
 rcases of_step htree with ⟨⟨⟨hcp, hrun, _⟩, hp⟩, hcall⟩
 rcases of_guard hcall with ⟨_, rfl⟩
 have hsettled : s.tree.Settled cp := ⟨hcp, .inl (ne_unused_of_runnable hrun)⟩
 have hattach : (s.tree.attach cp p).parent p = some cp := update_self ..
 refine h.prepares htree (prepares_attach hp hsettled) ?_ fun _ hroot => ⟨?_, ?_, ?_⟩
 · exact fun x hx => ⟨update_of_ne hx _ _, rfl⟩
 · exact (h.made p hp hroot).container
 · intro r hr
   rw [hattach] at hr
   cases hr
   dsimp only
   rw [update_self]
   rfl
 · intro hr
   rw [hattach] at hr
   cases hr

theorem Made.setContainerToThis (hstep : s.setContainerToThis cp p = some next) : next.Made := by
 rcases Option.map_eq_some_iff.mp hstep with ⟨tree, htree, rfl⟩
 rcases of_step htree with ⟨⟨hp, hroot, _⟩, hcall⟩
 cases hcall
 have hprepares := prepares_contain hp hroot (s.tree.container cp)
 have hmade := h.made p hp hroot
 refine h.prepares htree hprepares ?_ fun hhome _ => ⟨?_, ?_, hmade.attached⟩
 · exact fun x hx => ⟨rfl, update_of_ne hx _ _⟩
 · dsimp only
   rw [update_self]
   exact update_self ..
 · intro r hr
   rw [hhome]
   exact (hprepares.settled (h.housed.parents p r hp.left hr)).right.trans (hmade.parent r hr)

theorem Made.initContainer {former : Nat -> Bool} {tree : ProcTree}
  (hstep : s.tree.step (.initContainer c p former) = some tree) :
  ({ s with tree := tree } : CallTree).Made := by
 rcases of_step hstep with ⟨⟨hp, hroot, hc⟩, hcall⟩
 cases hcall
 refine h.prepares hstep (prepares_initContainer hp hroot hc former)
  (fun _ _ => ⟨rfl, rfl⟩) (fun _ hnot => absurd ?_ hnot)
 exact ⟨c, Finset.mem_insert_self c _, update_self ..⟩

theorem Made.startAttach {tree : ProcTree} (hstep : s.tree.step (.startAttach p) = some tree) :
  ({ s with tree := tree } : CallTree).Made := by
 rcases of_step hstep with ⟨hp, hcall⟩
 cases hcall
 unfold ProcTree.startAttach at hstep ⊢
 split
 · rename_i hnone
   rw [if_pos hnone] at hstep
   have hattach : (s.tree.attach s.tree.rootProc p).parent p = some s.tree.rootProc :=
    update_self ..
   refine h.prepares hstep (prepares_attach hp h.root.left) (fun _ _ => ⟨rfl, rfl⟩)
    fun _ hroot => ⟨(h.made p hp hroot).container, ?_, ?_⟩
   · intro r hr
     rw [hattach] at hr
     cases hr
     rw [show s.parentBy p = none from (h.made p hp hroot).attached hnone]
     rfl
   · intro hr
     rw [hattach] at hr
     cases hr
 · exact h

theorem Made.change {l : ProcLabel} {tree : ProcTree} (hstep : s.tree.step l = some tree)
  (hl : l.prepares = false) (hsame : forall p, l = .startActivate p ->
    s.tree.RootOf p ∨ (s.tree.parent p).map s.tree.container = some (s.tree.container p)) :
  ({ s with tree := tree } : CallTree).Made := by
 rcases h.sound.step hstep with ⟨hsound, hchange⟩
 refine ⟨hsound, h.housed.change h.sound hchange hsame, ?_⟩
 intro x hx hroot
 have hkept : forall {parents}, s.tree.Still tree parents ->
  (forall q, x ∈ s.tree.procs -> parents x = some q -> s.tree.parent x = some q ∨
   s.tree.Settled q ∧ exists r, s.tree.parent x = some r ∧
    s.tree.container r = s.tree.container q) ->
  (parents x = none -> s.tree.parent x = none) ->
  ({ s with tree := tree } : CallTree).MadeAt x := by
  intro parents hstill hparents hnone
  have hfresh : s.tree.Fresh x := ⟨hstill.procs ▸ hx.left, (hstill.unused x).mp hx.right⟩
  have hnot : ¬ s.tree.RootOf x := by
   unfold RootOf at hroot ⊢
   rw [← hstill.conts, ← hstill.rootproc]
   exact hroot
  refine (h.made x hfresh hnot).congr rfl rfl (congrFun hstill.container x) ?_ ?_ ?_
  · intro q hq
    dsimp only at hq ⊢
    rw [hstill.parent] at hq
    rw [hstill.container]
    rcases hparents q hfresh.left hq with hold | ⟨_, r, hr, hsame⟩
    · exact ⟨q, hold, rfl⟩
    · exact ⟨r, hr, hsame⟩
  · intro hr
    exact hnone (hstill.parent ▸ hr)
  · unfold home
    rw [hstill.container, hstill.rootProc]
 cases hchange with
 | still hstill => exact hkept hstill (fun _ _ => .inl) id
 | prepares p hprepares _ =>
  rw [hl] at hprepares
  cases hprepares
 | starts p hp hunused heq =>
  rw [heq] at hx hroot ⊢
  have hstate := hx.right
  change update s.tree.state p _ x = _ at hstate
  have hxp : x ≠ p := by
   rintro rfl
   rw [update_self, hunused] at hstate
   cases hstate
  rw [update_of_ne hxp] at hstate
  exact (h.made x ⟨hx.left, hstate⟩ hroot).congr rfl rfl rfl (fun r hr => ⟨r, hr, rfl⟩) id rfl
 | exits cp code hcp hstill =>
  refine hkept hstill (fun _ _ => h.sound.family.handed_cases hcp) fun hnone => ?_
  unfold handed at hnone
  split at hnone
  · cases hnone
  · exact hnone
 | reaps cp c m _ _ _ _ hfirst _ heq =>
  rw [heq] at hx hroot ⊢
  rcases Finset.mem_erase.mp hx.left with ⟨hxc, hmem⟩
  have hstate := hx.right
  change update s.tree.state c _ x = _ at hstate
  rw [update_of_ne hxc] at hstate
  exact (h.made x ⟨hmem, hstate⟩ hroot).congr rfl rfl rfl (fun r hr => ⟨r, hr, rfl⟩) id rfl
end

theorem Made.step {l : CallLabel} (h : s.Made) (hproper : s.Proper l)
  (hstep : s.step l = some next) : next.Made := by
 cases l with
 | proc l =>
  cases l with
  | createProc p => exact h.createProc hstep
  | setParentToThis cp p => exact h.setParentToThis hstep
  | setContainer p c => cases hstep
  | initContainer c p former =>
   rcases Option.map_eq_some_iff.mp hstep with ⟨tree, htree, rfl⟩
   exact h.initContainer htree
  | startAttach p =>
   rcases Option.map_eq_some_iff.mp hstep with ⟨tree, htree, rfl⟩
   exact h.startAttach htree
  | startActivate p =>
   rcases Option.map_eq_some_iff.mp hstep with ⟨tree, htree, rfl⟩
   refine h.change htree rfl ?_
   rintro q ⟨⟩
   exact h.starts (of_step htree).left.left (of_step htree).left.right hproper
  | exit | waitCheck | waitSem | waitBack | waitReap =>
   rcases Option.map_eq_some_iff.mp hstep with ⟨tree, htree, rfl⟩
   exact h.change htree rfl nofun
  | kill pid =>
   change ((s.tree.step (.kill pid)).map fun tree => { s with tree := tree }) = _ at hstep
   rcases Option.map_eq_some_iff.mp hstep with ⟨tree, htree, rfl⟩
   exact h.change htree rfl nofun
 | setContainerToThis cp p =>
  rcases Option.ite_none_right_eq_some.mp hstep with ⟨_, hset⟩
  exact h.setContainerToThis hset
 | fork cp child =>
  rcases Option.bind_eq_some_iff.mp hstep with ⟨made, hcreate, hset⟩
  exact (h.createProc hcreate).setParentToThis hset

structure Start (s : CallTree) : Prop where
 tree : s.tree.Start
 made : forall x, s.parentBy x = none ∧ s.containerBy x = none

theorem made_start (h : s.Start) : s.Made := by
 refine ⟨sound_start h.tree, housed_start h.tree, ?_⟩
 intro x hx
 have hmem := hx.left
 rw [h.tree.procs, Finset.mem_singleton] at hmem
 have hstate := hx.right
 rw [hmem, h.tree.state] at hstate
 cases hstate

end CallTree

def callSystem : TransitionSystem CallTree CallLabel where
 initial := CallTree.Start
 step := CallTree.step

theorem CallTree.made_of_reachable {s : CallTree}
  (hreach : Reachable callSystem CallTree.Proper s) : s.Made :=
 reachable_invariant CallTree.Made (fun _ => CallTree.made_start)
  (fun _ _ _ _ h hproper hstep => h.step hproper hstep) hreach

theorem containers_inherited_of_reachable {s : CallTree}
  (hreach : Reachable callSystem CallTree.Proper s) : s.tree.Inherited := by
 rcases CallTree.made_of_reachable hreach with ⟨hs, h, _⟩
 constructor
 · intro p hp hroot
   cases hparent : s.tree.parent p with
   | none => exact absurd hparent (hs.family.started p hp.left hp.right)
   | some q => exact ⟨q, rfl, h.same p q hp hroot hparent⟩
 rintro cp code next ⟨hcp, hrun, _⟩ hexit
 refine ⟨(hs.family.roots _ (hs.family.containers cp hcp)).right.left, ?_⟩
 intro x hx
 by_cases hroot : cp = s.tree.rootproc (s.tree.container cp)
 · rw [show s.tree.exit cp code = none from if_pos hroot] at hexit
   cases hexit
 rcases exit_spec hs hcp hrun hroot code with ⟨after, hafter, hsound, hstill, _⟩
 rw [hafter] at hexit
 cases hexit
 rcases (hs.family.member x cp).mp hx with ⟨hmem, hne, _⟩
 have hparent : next.parent x = some (s.tree.rootproc (s.tree.container cp)) := by
  rw [hstill.parent]
  exact if_pos hx
 refine ⟨hparent, (hsound.family.member x _).mpr ⟨hstill.procs.symm ▸ hmem, ?_, hparent⟩⟩
 rw [hstill.rootProc]
 exact hne

def bootCalls : CallTree := ⟨bootTree, fun _ => none, fun _ => none⟩

theorem bootCalls_start : callSystem.initial bootCalls := ⟨bootTree_start, fun _ => ⟨rfl, rfl⟩⟩

open ProcLabel in
/-- The calls of `create_container` by `cp`, for the container `c` with the root `p`. -/
def containerCalls (cp c p : Nat) : List CallLabel :=
 [createProc p, setParentToThis cp p, initContainer c p (fun _ => false), startAttach p,
  startActivate p].map .proc

open ProcLabel in
/-- A process that `cp` makes and takes into its container. -/
def memberCalls (cp p : Nat) : List CallLabel :=
 [.proc (createProc p), .proc (setParentToThis cp p), .setContainerToThis cp p,
  .proc (startActivate p)]

open ProcLabel in
/--
`root_proc` forks, and in the container 5 the process 11 has exited and its child belongs
to the root 10.
-/
theorem containers_inherited_after_exit :
  exists s, Reachable callSystem CallTree.Proper s ∧ s.tree.Inherited ∧
    s.tree.Started 12 ∧ s.tree.parent 12 = some 10 ∧ s.tree.container 12 = 5 ∧
    s.tree.container 10 = 5 ∧ s.tree.Started 13 ∧ s.tree.parent 13 = some 1 := by
 exact exists_reachable_also bootCalls_start (containerCalls 1 5 10 ++ memberCalls 10 11 ++
   memberCalls 11 12 ++ [.fork 1 13, .proc (startAttach 13), .proc (startActivate 13),
    .proc (exit 11 0)]) (by decide +kernel)
  (fun _ => containers_inherited_of_reachable)

open ProcLabel in
/-- The root 10 of the container 5 forks, and the child 11 is in `root_container`. -/
theorem forked_child_leaves_container :
  exists s, Reachable callSystem unguarded s ∧ s.tree.Started 11 ∧ ¬ s.tree.RootOf 11 ∧
    s.tree.parent 11 = some 10 ∧ s.tree.container 10 = 5 ∧ s.tree.container 11 = 0 := by
 exact exists_reachable_with bootCalls_start (containerCalls 1 5 10 ++
   [.fork 10 11, .proc (startAttach 11), .proc (startActivate 11)]) (by decide +kernel)

end OSLab.Kernel
