import OSLab.Fs.Log.Reservation

/-!
# Release of the threads of a batch

An operation that is not the last one of its batch sleeps on `log_commit_sem`
until the commit is over.  The committing thread clears `log.committing` before
it posts that semaphore.  As long as no operation ends between these two steps,
every sleeper is woken by the commit that contains its own operation.
-/

namespace OSLab.Fs.LogState
open Common Foundation Function Semaphore

/--
No operation ends while a thread stands between `log.committing = false` and
`post_all_sem(&log.log_commit_sem)`.
-/
def Undisturbed (s : LogState) : LogLabel -> Prop
 | .endOp _ => s.posting = []
 | _ => True

/-!
# Sleepers

The sleepers of the two semaphores are told apart by where they stand, and no
token is ever left on `log_commit_sem`.
-/

structure Sleepers (s : LogState) : Prop where
 logSem : forall t, t ∈ s.logSem.sleeplist -> s.op t = .beginAsleep
 commitSem : forall t, t ∈ s.logCommitSem.sleeplist ↔ s.op t = .endAsleep
 noToken : s.logCommitSem.val ≤ 0

variable {s : LogState}

theorem wakeAll_logSem (h : Sleepers s) (t : Tid) : wakeAll s.op s.logSem.postAllSem.1 t =
    if t ∈ s.logSem.sleeplist then .beginWoken else s.op t := by
 unfold wakeAll
 rw [postAllSem_woken]
 simp only [List.mem_reverse]
 by_cases ht : t ∈ s.logSem.sleeplist
 · rw [if_pos ht, if_pos ht, h.logSem t ht]
   rfl
 · rw [if_neg ht, if_neg ht]

theorem wakeAll_logCommitSem (h : Sleepers s) (t : Tid) :
  wakeAll s.op s.logCommitSem.postAllSem.1 t =
    if s.op t = .endAsleep then .endWoken else s.op t := by
 unfold wakeAll
 rw [postAllSem_woken]
 simp only [List.mem_reverse, h.commitSem]
 by_cases ht : s.op t = .endAsleep
 · rw [if_pos ht, if_pos ht, ht]
   rfl
 · rw [if_neg ht, if_neg ht]

theorem waitSem_of_noToken {sem : Semaphore Tid} (h : sem.val ≤ 0) (t : Tid) :
  (sem.waitSem t).1 = false ∧ (sem.waitSem t).2.sleeplist = t :: sem.sleeplist ∧
    (sem.waitSem t).2.val = sem.val - 1 := by
 unfold waitSem
 rw [dif_neg (by omega)]
 exact ⟨rfl, rfl, rfl⟩

structure ReleaseInv (s : LogState) : Prop where
 sleepers : Sleepers s
 poster : forall t, t ∈ s.posting ↔ s.op t = .postCommit
 onePoster : s.posting.length ≤ 1
 committer : forall t, (s.op t).commits = true -> s.batchOf t = s.batch ∧ s.posting = []
 posting : forall t, s.op t = .postCommit -> s.batchOf t + 1 = s.batch
 asleep : forall t, s.op t = .endAsleep ->
  if s.posting = [] then s.batchOf t = s.batch else s.batchOf t + 1 = s.batch
 released : forall t, s.op t = .endWoken ∨ s.op t = .postLog -> s.batchOf t < s.batch

variable {sb : SuperBlock}

theorem releaseInv_initial (h : s.Initial sb) : ReleaseInv s := by
 refine ⟨⟨?_, ?_, ?_⟩, ?_, ?_, ?_, ?_, ?_, ?_⟩ <;>
  simp [h.op, h.posting, h.logSem, h.logCommitSem, initSem, OpPc.commits]

/-!
# Steps

Most steps move threads to places that the invariant does not look at, from
such places or from the end of `cache_end_op`.
-/

def plain : OpPc -> Bool
 | .outside | .beginWaiting | .beginAsleep | .beginWoken | .running _ => true
 | _ => false

def finished (pc : OpPc) : Bool := plain pc || pc == .endWoken || pc == .postLog

variable {s next : LogState}

theorem releaseInv_plain (hinv : ReleaseInv s) (hsleepers : Sleepers next)
  (hop : forall t, next.op t = s.op t ∨ (finished (s.op t) ∧ plain (next.op t)))
  (hposting : next.posting = s.posting) (hbatch : next.batch = s.batch)
  (hbatchOf : next.batchOf = s.batchOf) : ReleaseInv next := by
 have hback : forall t, plain (next.op t) = false -> next.op t = s.op t := by
  intro t hpc
  rcases hop t with heq | ⟨_, hafter⟩
  · exact heq
  rw [hpc] at hafter
  cases hafter
 have hplace : forall t pc, plain pc = false -> next.op t = pc -> s.op t = pc := by
  intro t pc hpc ht
  rw [← hback t (by rw [ht]; exact hpc)]
  exact ht
 exact {
  sleepers := hsleepers
  poster := by
   intro t
   rw [hposting, hinv.poster t]
   constructor
   · intro ht
     rcases hop t with heq | ⟨hbefore, _⟩
     · rw [heq]
       exact ht
     rw [ht] at hbefore
     cases hbefore
   · exact hplace t _ rfl
  onePoster := by
   rw [hposting]
   exact hinv.onePoster
  committer := by
   intro t ht
   rw [hbatchOf, hbatch, hposting]
   apply hinv.committer t
   rw [← hback t]
   · exact ht
   · cases hpc : next.op t <;> rw [hpc] at ht <;> first | rfl | cases ht
  posting := by
   intro t ht
   rw [hbatchOf, hbatch]
   exact hinv.posting t (hplace t _ rfl ht)
  asleep := by
   intro t ht
   rw [hbatchOf, hbatch, hposting]
   exact hinv.asleep t (hplace t _ rfl ht)
  released := by
   intro t ht
   rw [hbatchOf, hbatch]
   apply hinv.released t
   rcases ht with ht | ht
   · exact .inl (hplace t _ rfl ht)
   · exact .inr (hplace t _ rfl ht) }

variable {t : Tid}

theorem sleepers_update {pc : OpPc} (hinv : Sleepers s) (hop : next.op = update s.op t pc)
  (hlogSem : next.logSem = s.logSem) (hcommitSem : next.logCommitSem = s.logCommitSem)
  (hbegin : s.op t ≠ .beginAsleep) (hend : s.op t ≠ .endAsleep)
  (hafter : pc ≠ .endAsleep) : Sleepers next := by
 refine ⟨?_, ?_, ?_⟩
 · intro u hu
   rw [hlogSem] at hu
   have hasleep := hinv.logSem u hu
   have hut : u ≠ t := by
    rintro rfl
    exact hbegin hasleep
   rw [hop, update_of_ne hut]
   exact hasleep
 · intro u
   rw [hcommitSem, hinv.commitSem u, hop]
   by_cases hut : u = t
   · subst hut
     rw [update_self]
     exact iff_of_false hend hafter
   · rw [update_of_ne hut]
 rw [hcommitSem]
 exact hinv.noToken

section
variable (hinv : ReleaseInv s)
include hinv

theorem releaseInv_update {pc : OpPc}
  (hop : next.op = update s.op t pc) (hlogSem : next.logSem = s.logSem)
  (hcommitSem : next.logCommitSem = s.logCommitSem) (hbegin : s.op t ≠ .beginAsleep)
  (hbefore : finished (s.op t)) (hafter : plain pc)
  (hposting : next.posting = s.posting) (hbatch : next.batch = s.batch)
  (hbatchOf : next.batchOf = s.batchOf) : ReleaseInv next := by
 apply releaseInv_plain hinv _ _ hposting hbatch hbatchOf
 · apply sleepers_update hinv.sleepers hop hlogSem hcommitSem hbegin
   · intro heq
     rw [heq] at hbefore
     cases hbefore
   rintro rfl
   cases hafter
 intro u
 rw [hop]
 by_cases hut : u = t
 · subst hut
   rw [update_self]
   exact .inr ⟨hbefore, hafter⟩
 rw [update_of_ne hut]
 exact .inl rfl

theorem releaseInv_beginOp (h : s.cacheBeginOp t = some next) : ReleaseInv next := by
 have hround : s.op t ≠ .beginAsleep -> finished (s.op t) ->
  ReleaseInv (s.beginRound t) := by
  intro hbegin hbefore
  unfold beginRound
  split
  all_goals
   exact releaseInv_update hinv rfl rfl rfl hbegin hbefore rfl rfl rfl rfl
 unfold cacheBeginOp at h
 cases hpc : s.op t with
 | outside | beginWoken =>
  simp only [hpc, Option.some.injEq] at h
  subst h
  exact hround (by simp [hpc]) (by rw [hpc]; rfl)
 | _ => simp [hpc] at h

theorem releaseInv_beginWait (h : s.beginWait t = some next) : ReleaseInv next := by
 unfold beginWait at h
 rcases of_guard h with ⟨hpc, rfl⟩
 refine releaseInv_plain hinv ?_ ?_ rfl rfl rfl
 · refine ⟨?_, ?_, hinv.sleepers.noToken⟩
   · intro u hu
     by_cases hut : u = t
     · subst hut
       rcases waitSem_sleeplist_mem hu with hold | ⟨_, hslept⟩
       · have hasleep := hinv.sleepers.logSem u hold
         rw [hpc] at hasleep
         cases hasleep
       · simp [hslept]
     rcases waitSem_sleeplist_mem hu with hold | ⟨heq, _⟩
     · simp only [update_of_ne hut]
       exact hinv.sleepers.logSem u hold
     · exact absurd heq hut
   intro u
   simp only [hinv.sleepers.commitSem u]
   by_cases hut : u = t
   · subst hut
     rw [update_self, hpc]
     split <;> simp
   · rw [update_of_ne hut]
 intro u
 by_cases hut : u = t
 · subst hut
   refine .inr ⟨by rw [hpc]; rfl, ?_⟩
   simp only [update_self]
   split <;> rfl
 · exact .inl (by simp [hut])

theorem releaseInv_sync {no : BlockNo} {ctx : OpContext} (h : s.Adds t no ctx next) :
  ReleaseInv next := by
 rcases h with ⟨hop, _, _, rfl⟩
 exact releaseInv_update hinv rfl rfl rfl (by simp [hop]) (by rw [hop]; rfl) rfl rfl rfl rfl

theorem releaseInv_endReturn (h : s.endReturn t = some next) : ReleaseInv next := by
 unfold endReturn at h
 rcases of_guard h with ⟨hpc, rfl⟩
 exact releaseInv_update hinv rfl rfl rfl (by simp [hpc]) (by rw [hpc]; rfl) rfl rfl rfl rfl

theorem releaseInv_postLog (h : s.postLog t = some next) : ReleaseInv next := by
 unfold postLog at h
 rcases of_guard h with ⟨hpc, rfl⟩
 have hwoken := wakeAll_logSem hinv.sleepers
 have hasleep := hinv.sleepers.logSem
 refine releaseInv_plain hinv ?_ ?_ rfl rfl rfl
 · refine ⟨by simp, ?_, hinv.sleepers.noToken⟩
   intro u
   simp only [hinv.sleepers.commitSem u]
   grind
 intro u
 grind [plain, finished]
end

/-!
The other steps are those of a commit: an operation ends, the committing thread
empties the header, opens the log again, and wakes the sleepers.
-/

theorem commits_of_ne (hlog : Inv sb s) {t u : Tid} (ht : (s.op t).commits) (hu : u ≠ t) :
  (s.op u).commits = false := by
 cases hcommits : (s.op u).commits with
 | false => rfl
 | true => exact absurd (hlog.oneCommitter u t hcommits ht) hu

section
variable (hinv : ReleaseInv s)
include hinv

theorem releaseInv_endOp_last {ctx : OpContext} (hpc : s.op t = .running ctx)
  (hquiet : s.posting = []) : ReleaseInv { s with
 outstanding := s.outstanding - 1
 logUsed := s.logUsed - ctx.rm
 committing := true
 batchOf := update s.batchOf t s.batch
 op := update s.op t .checkpoint } := by
 refine ⟨sleepers_update hinv.sleepers rfl rfl rfl (by simp [hpc]) (by simp [hpc]) (by simp),
  ?_, hinv.onePoster, ?_, ?_, ?_, ?_⟩
 all_goals
  intro u
  grind [ReleaseInv]

theorem releaseInv_endOp
  (hquiet : s.posting = []) (h : s.cacheEndOp t = some next) : ReleaseInv next := by
 unfold cacheEndOp at h
 split at h
 · rename_i ctx hpc
   split at h
   · cases h
     exact releaseInv_endOp_last hinv hpc hquiet
   cases h
   have hwoken := wakeAll_logSem hinv.sleepers
   have hasleep := hinv.sleepers.logSem
   rcases waitSem_of_noToken hinv.sleepers.noToken t with ⟨hslept, hlist, hval⟩
   have hcommitSem := hinv.sleepers.commitSem
   refine ⟨⟨by simp, ?_, ?_⟩, ?_, hinv.onePoster, ?_, ?_, ?_, ?_⟩
   · intro u
     grind
   · have hnone := hinv.sleepers.noToken
     simp only [hval]
     omega
   all_goals
    intro u
    grind [ReleaseInv, OpPc.commits]
 · cases h

theorem releaseInv_resets (h : s.Resets t next) : ReleaseInv next := by
 rcases h with ⟨hop, rfl⟩
 have hself := hinv.committer t (by rw [hop]; rfl)
 refine ⟨sleepers_update hinv.sleepers rfl rfl rfl (by simp [hop]) (by simp [hop]) (by simp),
  ?_, hinv.onePoster, ?_, ?_, ?_, ?_⟩
 all_goals
  intro u
  grind [ReleaseInv]
end

theorem releaseInv_clears (hlog : Inv sb s) (hinv : ReleaseInv s) (h : s.Clears t next) :
  ReleaseInv next := by
 rcases h with ⟨hop, rfl⟩
 have hcommits : (s.op t).commits := by
  rw [hop]
  rfl
 have hself := hinv.committer t hcommits
 have hother : forall u, u ≠ t -> (s.op u).commits = false :=
  fun u hu => commits_of_ne hlog hcommits hu
 refine ⟨sleepers_update hinv.sleepers rfl rfl rfl (by simp [hop]) (by simp [hop]) (by simp),
  ?_, by simp [hself.right], ?_, ?_, ?_, ?_⟩
 all_goals
  intro u
  grind [ReleaseInv, OpPc.commits]

section
variable (hinv : ReleaseInv s)
include hinv

theorem posting_singleton (h : s.op t = .postCommit) : s.posting = [t] := by
 have hmem := (hinv.poster t).mpr h
 have hone := hinv.onePoster
 rcases hlist : s.posting with _ | ⟨u, rest⟩
 · rw [hlist] at hmem
   cases hmem
 rw [hlist] at hmem hone
 have hrest : rest = [] := by
  apply List.eq_nil_of_length_eq_zero
  simpa using hone
 subst hrest
 rw [List.mem_singleton.mp hmem]

theorem sleepers_of_batch {t u : Tid} (ht : s.op t = .postCommit) (hu : s.op u = .endAsleep) :
  s.batchOf u = s.batchOf t := by
 have hposting := hinv.posting t ht
 have hasleep := hinv.asleep u hu
 rw [posting_singleton hinv ht, if_neg (by simp)] at hasleep
 omega

theorem releaseInv_postCommit (h : s.postCommit t = some next) : ReleaseInv next := by
 unfold postCommit at h
 rcases of_guard h with ⟨hpc, rfl⟩
 have hwoken := wakeAll_logCommitSem hinv.sleepers
 have hsingle := posting_singleton hinv hpc
 have hasleep := hinv.sleepers.logSem
 have hnone := hinv.sleepers.noToken
 refine ⟨⟨?_, ?_, ?_⟩, ?_, by simp [hsingle], ?_, ?_, ?_, ?_⟩
 · intro u
   grind
 · intro u
   simp only [postAllSem_sleeplist]
   grind
 · simp only [postAllSem_val]
   omega
 all_goals
  intro u
  grind [ReleaseInv, OpPc.commits]
end

theorem releaseInv_step {l : LogLabel}
  (hlog : Inv sb s) (hinv : ReleaseInv s) (hbudget : s.WithinBudget l)
  (hquiet : s.Undisturbed l) (h : s.step l = some next) : ReleaseInv next := by
 have hrun := step_run h
 cases l with
 | beginOp t => exact releaseInv_beginOp hinv (locked_some hrun).right
 | beginWait t => exact releaseInv_beginWait hinv hrun
 | sync t no =>
  rcases sync_within_budget hlog hbudget h with ⟨ctx, _, ⟨_, heq⟩ | hadds⟩
  · rw [heq]
    exact hinv
  · exact releaseInv_sync hinv hadds
 | endOp t => exact releaseInv_endOp hinv hquiet (locked_some hrun).right
 | endReturn t => exact releaseInv_endReturn hinv hrun
 | resetHeader t => exact releaseInv_resets hinv (step_resetHeader h)
 | clearCommitting t => exact releaseInv_clears hlog hinv (step_clearCommitting h)
 | postCommit t => exact releaseInv_postCommit hinv hrun
 | postLog t => exact releaseInv_postLog hinv hrun

end OSLab.Fs.LogState
