import OSLab.Fs.Commit.Freshness

/-!
# Durability of ended operations

When `cache_end_op` returns, everything that the operation synced is at home,
with the contents of that sync or later ones.  This rests on the return being
caused by the right commit, which holds as long as no operation ends between the
end of a commit and the post of `log_commit_sem`.
-/

namespace OSLab.Fs
open Common Foundation Function TransitionSystem LogState CommitState
namespace CommitState

def undisturbed (s : CommitState) : CommitLabel -> Bool
 | .endOp _ => decide (s.log.posting = [])
 | _ => true

def ClientUndisturbed (sb : SuperBlock) (s : CommitState) (l : CommitLabel) : Prop :=
 s.Client sb l ∧ s.undisturbed l = true

instance (sb : SuperBlock) (s : CommitState) (l : CommitLabel) :
  Decidable (s.ClientUndisturbed sb l) :=
 inferInstanceAs (Decidable (_ ∧ _))

variable {sb : LogLayout} {s next : CommitState} {l : CommitLabel}

theorem undisturbed_log {k : LogLabel}
  (h : s.undisturbed l) (hk : s.logLabel l = some k) : s.log.Undisturbed k := by
 cases l with
 | endOp t =>
  cases hk
  simpa [undisturbed, Undisturbed] using h
 | acquire t no fresh | wait t | back t fresh | release t a | modify t a data => cases hk
 | _ =>
  cases hk
  trivial

section
variable (h : Reachable (commitSystem sb) (ClientUndisturbed sb) s)
include h

theorem client_of_undisturbed : Reachable (commitSystem sb) (Client sb) s :=
 reachable_mono (fun _ _ hboth => hboth.left) h

theorem release_of_reachable : ReleaseInv s.log := by
 apply reachable_invariant (fun s => ReleaseInv s.log) _ _ h
 · intro start hinitial
   exact releaseInv_initial hinitial.log
 intro mid l next hreach hinv hguard hstep
 rcases step_log hstep with heq | ⟨k, hk, hlog⟩
 · rw [heq]
   exact hinv
 exact releaseInv_step (log_of_reachable (client_of_undisturbed hreach)) hinv
  (withinBudget_of_client hguard.left hk)
  (undisturbed_log hguard.right hk) hlog

/--
One thread commits at a time.  Nobody is in an operation then, and whoever sleeps in
`cache_end_op` waits for this very commit.
-/
theorem group_commit {t : Tid} (ht : (s.log.op t).commits) :
  (forall u, (s.log.op u).commits -> u = t) ∧ (forall u, (s.log.op u).ctx? = none) ∧
   forall u, s.log.op u = .endAsleep -> s.log.batchOf u = s.log.batchOf t := by
 have hinv := log_of_reachable (client_of_undisturbed h)
 have hrel := release_of_reachable h
 rcases hrel.committer t ht with ⟨hbatch, hposting⟩
 refine ⟨fun u hu => hinv.oneCommitter u t hu ht, hinv.drained (hinv.committer t ht), ?_⟩
 intro u hu
 have hwaits := hrel.asleep u hu
 rw [if_pos hposting] at hwaits
 rw [hwaits, hbatch]
end

theorem group_commit_of_two : exists s : CommitState, (s.log.op 3).commits ∧
  s.log.op 2 = .endAsleep ∧ s.log.batchOf 2 = s.log.batchOf 3 := by
 rcases exists_reachable_of_execute (commitSystem mkfsLayout)
  (ClientUndisturbed mkfsLayout) (boot_initial zeroDevice_log_empty)
  [.beginOp 2, .beginOp 3, .endOp 2, .endOp 3]
  (fun s => (s.log.op 3).commits ∧ s.log.op 2 = .endAsleep) (by decide +kernel) with
  ⟨s, hreach, hcommits, hasleep⟩
 exact ⟨s, hcommits, hasleep, (group_commit hreach hcommits).right.right 2 hasleep⟩

/-!
# Records of syncs
-/

/--
A record is never ahead of the last contents of its block, and the records of an
operation whose commit is over are installed.
-/
def RecordInv (sb : SuperBlock) (s : CommitState) : Prop :=
 forall t no k, (no, k) ∈ s.syncs t -> ¬ sb.InLog no ∧ k ≤ s.disk.ver no ∧
  ((s.log.op t).ctx? = none -> s.log.batchOf t < s.log.batch -> k ≤ s.disk.home no)

theorem recordInv_same (hrec : RecordInv sb s)
  (hsyncs : forall t, next.syncs t = s.syncs t ∨ next.syncs t = [])
  (hver : next.disk.ver = s.disk.ver) (hhome : forall no, s.disk.home no ≤ next.disk.home no)
  (hctx : forall t, next.syncs t ≠ [] -> (next.log.op t).ctx? = none ->
    next.log.batchOf t < next.log.batch -> (s.log.op t).ctx? = none ∧
      s.log.batchOf t < s.log.batch) :
  RecordInv sb next := by
 intro t no k hmem
 rcases hsyncs t with hsame | hnil
 · have hne : next.syncs t ≠ [] := List.ne_nil_of_mem hmem
   rw [hsame] at hmem
   rcases hrec t no k hmem with ⟨hout, hle, hinstalled⟩
   rw [hver]
   refine ⟨hout, hle, ?_⟩
   intro hnone hbatch
   rcases hctx t hne hnone hbatch with ⟨hnone', hbatch'⟩
   exact Nat.le_trans (hinstalled hnone' hbatch') (hhome no)
 rw [hnil] at hmem
 cases hmem

variable {t : Tid}

theorem recordInv_sync (hlog : Inv sb s.log) (hrec : RecordInv sb s) {a : Addr}
  (hclient : s.Client sb (.sync t a)) (h : s.Syncs t a next) : RecordInv sb next := by
 rcases client_sync hclient with ⟨hout, hbudget⟩
 rcases sync_within_budget hlog hbudget h.log with ⟨ctx, hop, hcases⟩
 have hnext : (exists ctx', next.log.op t = .running ctx') ∧
  (forall u, u ≠ t -> next.log.op u = s.log.op u) ∧
  next.log.batch = s.log.batch ∧ next.log.batchOf = s.log.batchOf := by
  rcases hcases with ⟨_, heq⟩ | hadds
  · rw [heq]
    exact ⟨⟨ctx, hop⟩, fun _ _ => rfl, rfl, rfl⟩
  rw [hadds.eq]
  exact ⟨⟨_, update_self ..⟩, fun u hu => by simp [hu], rfl, rfl⟩
 rcases hnext with ⟨⟨ctx', hrunning⟩, hother, hbatch, hbatchOf⟩
 have hver : forall no, s.disk.ver no ≤ next.disk.ver no := by
  intro no
  rw [h.disk]
  by_cases hno : no = (s.cache.heap a).blockNo
  · subst hno
    simp [Disk.record]
  · simp [Disk.record, hno]
 have hhome : next.disk.home = s.disk.home := by
  rw [h.disk]
  rfl
 intro u no k hmem
 rw [h.syncs] at hmem
 by_cases hut : u = t
 · subst hut
   rw [update_self] at hmem
   refine ⟨?_, ?_, ?_⟩
   · rcases List.mem_cons.mp hmem with heq | hold
     · cases heq
       exact hout
     · exact (hrec u no k hold).left
   · rcases List.mem_cons.mp hmem with heq | hold
     · cases heq
       rw [h.disk]
       simp [Disk.record]
     · exact Nat.le_trans (hrec u no k hold).right.left (hver no)
   intro hnone
   rw [hrunning] at hnone
   cases hnone
 rw [update_of_ne hut] at hmem
 rcases hrec u no k hmem with ⟨hout, hle, hinstalled⟩
 rw [hother u hut, hbatch, hbatchOf, hhome]
 exact ⟨hout, Nat.le_trans hle (hver no), hinstalled⟩

variable {log : LogState} {stage : Stage}

theorem recordInv_clearCommitting (hinv : CommitInv sb s)
  (hrec : RecordInv sb s) (hstage : s.stage = .done) :
  RecordInv sb { s with log := log, stage := stage } := by
 have hempty := hinv.emptied (by rw [hstage]; rfl)
 intro u no k hmem
 rcases hrec u no k hmem with ⟨hout, hle, _⟩
 refine ⟨hout, hle, ?_⟩
 intro _ _
 have hcurrent := hinv.disk.current no hout (by
  intro i _ hi
  omega)
 rw [hcurrent]
 exact hle

theorem recordInv_frame (hrec : RecordInv sb s)
    {cache : CacheState} {dirty : Addr -> Bool} {dev : Device}
    (hlog : forall t, (log.op t).ctx? = none -> log.batchOf t < log.batch ->
      (s.log.op t).ctx? = none ∧ s.log.batchOf t < s.log.batch) :
    RecordInv sb { s with
 log := log
 cache := cache
 stage := stage
 dirty := dirty
 disk := { s.disk with dev := dev } } :=
 recordInv_same hrec (fun _ => .inl rfl) rfl (fun _ => Nat.le_refl _)
  (fun t _ hnone hbatch => hlog t hnone hbatch)

theorem recordInv_reset (hrec : RecordInv sb s) (ht : (s.log.op t).commits)
  (hstep : s.log.step (.resetHeader t) = some log) :
  RecordInv sb { s with log := log, stage := stage } := by
 rcases step_resetHeader hstep with ⟨_, rfl⟩
 apply recordInv_frame hrec
 intro u hnone hbatch
 refine ⟨?_, hbatch⟩
 by_cases hut : u = t
 · rw [hut]
   exact ctx?_none_of_commits ht
 · simpa [hut] using hnone

theorem recordInv_checkpoint (hinv : CommitInv sb s) (hrec : RecordInv sb s)
  (ht : (s.log.op t).commits) (h : Statement sb s t next) :
  RecordInv sb next := by
 cases h with
 | emptyLog hstage hempty hstep | reset hstage hall hstep => exact recordInv_reset hrec ht hstep
 | @homeWrite i a hstage =>
  refine recordInv_same hrec (fun _ => .inl rfl) rfl ?_ (fun _ _ hnone hbatch => ⟨hnone, hbatch⟩)
  intro no
  by_cases hno : no = (s.cache.heap a).blockNo
  · simp only [Disk.install, hno, update_self]
    exact hinv.disk.homeLe _
  · simp [Disk.install, hno]
 | _ => exact recordInv_frame hrec (fun _ hnone hbatch => ⟨hnone, hbatch⟩)

theorem recordInv_beginOp (hrec : RecordInv sb s) (hstep : s.log.step (.beginOp t) = some log) :
  RecordInv sb { s with log := log, syncs := update s.syncs t [] } := by
 refine recordInv_same hrec ?_ rfl (fun _ => Nat.le_refl _) ?_
 · intro u
   by_cases hut : u = t
   · rw [hut]
     exact .inr (update_self ..)
   · exact .inl (update_of_ne hut _ _)
 intro u hne hnone hbatch
 have hut : u ≠ t := by
  rintro rfl
  exact hne (update_self ..)
 rcases step_beginOp hstep with hquiet | hbegins
 · simp only [hquiet.ctx, hquiet.batch, hquiet.batchOf] at hnone hbatch
   exact ⟨hnone, hbatch⟩
 simp only [hbegins.eq, update_of_ne hut] at hnone hbatch
 exact ⟨hnone, hbatch⟩

theorem recordInv_step (hlog : Inv sb s.log)
  (hinv : CommitInv sb s) (hrec : RecordInv sb s) (hclient : s.Client sb l)
  (h : s.step sb l = some next) : RecordInv sb next := by
 cases step_moves h with
 | beginOp hstep => exact recordInv_beginOp hrec hstep
 | sync hsyncs => exact recordInv_sync hlog hrec hclient hsyncs
 | @endOp t log hpc hstep =>
  rcases step_endOp hstep with ⟨ctx, hends⟩
  apply recordInv_frame hrec
  intro u hnone hbatch
  simp only [hends.batch, hends.batchOf] at hbatch
  by_cases hut : u = t
  · rw [hut, update_self] at hbatch
    omega
  rw [update_of_ne hut] at hbatch
  rw [hends.ctx u hut] at hnone
  exact ⟨hnone, hbatch⟩
 | checkpoint ht hstatement => exact recordInv_checkpoint hinv hrec ht hstatement
 | clearCommitting hstage hstep => exact recordInv_clearCommitting hinv hrec hstage
 | quiet hl hstep =>
  have hquiet := step_quiet (quietLabel_quiet hl) hstep
  apply recordInv_frame hrec
  intro t hnone hbatch
  simp only [hquiet.ctx, hquiet.batch, hquiet.batchOf] at hnone hbatch
  exact ⟨hnone, hbatch⟩
 | _ => exact recordInv_frame hrec (fun _ hnone hbatch => ⟨hnone, hbatch⟩)

theorem recordInv_reachable (h : Reachable (commitSystem sb) (Client sb) s) : RecordInv sb s := by
 apply reachable_invariant (RecordInv sb) _ _ h
 · intro start hinitial t no k hmem
   rw [hinitial.syncs] at hmem
   cases hmem
 intro mid l next hreach hrec hclient hstep
 exact recordInv_step (log_of_reachable hreach) (commitInv_reachable hreach) hrec hclient hstep

/-!
# Return from `cache_end_op`
-/

/-- `checkpoint` has written contents at least as recent as number `k` home. -/
structure Durable (s : CommitState) (no : BlockNo) (k : Nat) : Prop where
 recent : k ≤ s.disk.home no
 home : s.disk.dev no = s.disk.cont no (s.disk.home no)

def ReturnsFromEndOp (l : CommitLabel) (t : Tid) : Prop := l = .endReturn t ∨ l = .postLog t

/--
When `cache_end_op` returns, what the operation has synced is durable, and a
thread that sleeps on `log_commit_sem` is woken only by its own commit.
-/
structure EndOpDurable (sb : SuperBlock) (s : CommitState) : Prop where
 returned : forall l next t, s.step sb l = some next -> ReturnsFromEndOp l t ->
  forall no k, (no, k) ∈ s.syncs t -> next.Durable no k
 released : forall t u next, s.step sb (.postCommit t) = some next ->
  u ∈ s.log.logCommitSem.sleeplist -> s.log.batchOf u = s.log.batchOf t

theorem step_postCommit {log next : LogState} (h : log.step (.postCommit t) = some next) :
  log.op t = .postCommit := by
 have hrun : log.postCommit t = some next := step_run h
 exact (of_guard hrun).left

theorem step_endReturn {log next : LogState} (h : log.step (.endReturn t) = some next) :
  log.op t = .endWoken := by
 have hrun : log.endReturn t = some next := step_run h
 exact (of_guard hrun).left

theorem step_postLog {log next : LogState} (h : log.step (.postLog t) = some next) :
  log.op t = .postLog := by
 have hrun : log.postLog t = some next := step_run h
 exact (of_guard hrun).left

theorem returning (hrel : ReleaseInv s.log)
  (h : s.step sb l = some next) (hl : ReturnsFromEndOp l t) :
  (s.log.op t).ctx? = none ∧ s.log.batchOf t < s.log.batch ∧ next.disk = s.disk := by
 rcases hl with hl | hl
 · subst hl
   rcases withLog_some h with ⟨log, hstep, heq⟩
   have hpc := step_endReturn hstep
   rw [← heq]
   exact ⟨by rw [hpc]; rfl, hrel.released t (.inl hpc), rfl⟩
 subst hl
 rcases withLog_some h with ⟨log, hstep, heq⟩
 have hpc := step_postLog hstep
 rw [← heq]
 exact ⟨by rw [hpc]; rfl, hrel.released t (.inr hpc), rfl⟩

end CommitState

theorem endOp_durable_of_reachable {sb : LogLayout} {s : CommitState}
  (h : Reachable (commitSystem sb) (CommitState.ClientUndisturbed sb) s) :
  CommitState.EndOpDurable sb s := by
 have hclient := client_of_undisturbed h
 have hinv := commitInv_reachable hclient
 have hrec := recordInv_reachable hclient
 have hrel := release_of_reachable h
 exact {
  returned := by
   intro l next t hstep hl no k hmem
   rcases returning hrel hstep hl with ⟨hnone, hbatch, hdisk⟩
   rcases hrec t no k hmem with ⟨hout, _, hinstalled⟩
   refine ⟨?_, ?_⟩
   · rw [hdisk]
     exact hinstalled hnone hbatch
   rw [hdisk]
   exact hinv.disk.homeData no hout
  released := by
   intro t u next hstep hu
   rcases withLog_some hstep with ⟨log, hlog, _⟩
   exact sleepers_of_batch hrel (step_postCommit hlog) ((hrel.sleepers.commitSem u).mp hu) }

/-- A thread that slept in `cache_end_op` is about to return. -/
theorem endOp_durable_sleeper : exists s, s.log.op 2 = OpPc.endWoken ∧ s.syncs 2 = [(500, 1)] ∧
    CommitState.EndOpDurable mkfsLayout s := by
 rcases exists_reachable_of_execute (commitSystem mkfsLayout)
  (ClientUndisturbed mkfsLayout)
  (boot_initial zeroDevice_log_empty)
  ([.beginOp 2, .beginOp 3, .acquire 2 500 0,
   .modify 2 0 (fun _ => 1), .sync 2 0,
   .release 2 0, .endOp 2, .endOp 3] ++
   List.replicate 13 (.checkpoint 3 0) ++
   [.clearCommitting 3, .postCommit 3])
  (fun s => s.log.op 2 = .endWoken ∧ s.syncs 2 = [(500, 1)]) (by decide +kernel) with
  ⟨s, hreach, hop, hsyncs⟩
 exact ⟨s, hop, hsyncs, endOp_durable_of_reachable hreach⟩

/-!
# An operation that returns uncommitted

Thread 1 commits an empty batch and clears `log.committing`.  Before it posts
`log_commit_sem`, threads 2 and 3 begin operations, and thread 2 syncs block 500
and ends its operation.  The post of thread 1 wakes thread 2, whose operation no
commit contains yet.
-/

theorem endOp_returns_uncommitted : exists s next, Reachable (commitSystem mkfsLayout)
      (CommitState.Client mkfsLayout) s ∧
    s.step mkfsLayout (CommitLabel.endReturn 2) = some next ∧
    s.syncs 2 = [(500, 1)] ∧ next.disk.home 500 = 0 ∧
    next.disk.dev 500 ≠ next.disk.cont 500 1 ∧ ¬ next.Durable 500 1 := by
 rcases exists_reachable_of_execute (commitSystem mkfsLayout)
  (Client mkfsLayout)
  (boot_initial zeroDevice_log_empty)
  [.beginOp 1, .endOp 1, .checkpoint 1 0,
   .clearCommitting 1, .beginOp 2,
   .beginOp 3, .acquire 2 500 0,
   .modify 2 0 (fun _ => 1), .sync 2 0,
   .release 2 0, .endOp 2, .postCommit 1]
  (fun s => s.syncs 2 = [(500, 1)] ∧
   exists next, next ∈ s.step mkfsLayout (.endReturn 2) ∧
    next.disk.home 500 = 0 ∧ next.disk.dev 500 ≠ next.disk.cont 500 1)
  (by decide +kernel) with ⟨s, hreach, hsyncs, next, hstep, hhome, hdev⟩
 refine ⟨s, next, hreach, hstep, hsyncs, hhome, hdev, ?_⟩
 intro hdurable
 have hrecent := hdurable.recent
 rw [hhome] at hrecent
 omega

end OSLab.Fs
