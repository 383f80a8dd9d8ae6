import OSLab.Fs.Commit.System

/-!
# What a step can do

The steps of the cache with its log, taken apart once: one constructor for each
kind of step and one for each statement of `checkpoint`, with everything that
the step checks and everything that it changes.
-/

namespace OSLab.Fs.CommitState
open Common Foundation TransitionSystem Option

structure Syncs (s : CommitState) (t : Tid) (a : Addr) (next : CommitState) :
  Prop where
 held : a ∈ s.cache.held t
 log : s.log.step (.sync t (s.cache.heap a).blockNo) = some next.log
 cache : (s.log.header.logged (s.cache.heap a).blockNo = true ∧ next.cache = s.cache) ∨
  (s.log.header.logged (s.cache.heap a).blockNo = false ∧
   s.cache.step (.setPinned t a true) = some next.cache)
 disk : next.disk = s.disk.record (s.cache.heap a).blockNo (s.cache.heap a).data
 stage : next.stage = s.stage
 dirty : next.dirty = Function.update s.dirty a false
 syncs : next.syncs = Function.update s.syncs t
  (((s.cache.heap a).blockNo, s.disk.ver (s.cache.heap a).blockNo + 1) :: s.syncs t)

inductive Statement (sb : SuperBlock) (s : CommitState) (t : Tid) :
  CommitState -> Prop where
 | emptyLog {log : LogState} (hstage : s.stage = .start)
  (hempty : s.log.header.numBlocks = 0)
  (hstep : s.log.step (.resetHeader t) = some log) :
  Statement sb s t { s with log := log, stage := .done }
 | enter (hstage : s.stage = .start) :
  Statement sb s t { s with stage := .toLog 0 }
 | logAcquire {i : Nat} {fresh : Addr} {c : CacheState}
  (hstage : s.stage = .toLog i) (hi : i < s.log.header.numBlocks)
  (hstep : s.cache.step (.acquire t (s.log.header.blockNo i) fresh
   (s.disk.dev (s.log.header.blockNo i))) = some c) :
  Statement sb s t { s with cache := c, stage := (Stage.toLogAcquiring i).got c t }
 | writeHeader {i : Nat} (hstage : s.stage = Stage.toLog i)
  (hall : ¬ i < s.log.header.numBlocks) :
  Statement sb s t { s with
   disk := s.disk.writeLog sb.headerBlock s.log.header.encode
   stage := .persist 0 }
 | logWrite {i : Nat} {a : Addr} (hstage : s.stage = .toLogHave i a) :
  Statement sb s t { s with
   disk := s.disk.writeLog (sb.logSlot i) (s.cache.heap a).data
   stage := .toLogWritten i a }
 | unpin {i : Nat} {a : Addr} {c : CacheState}
  (hstage : s.stage = .toLogWritten i a)
  (hstep : s.cache.step (.setPinned t a false) = some c) :
  Statement sb s t { s with cache := c, stage := .toLogUnpinned i a }
 | logRelease {i : Nat} {a : Addr} {c : CacheState}
  (hstage : s.stage = .toLogUnpinned i a)
  (hstep : s.cache.step (.release t a) = some c) :
  Statement sb s t { s with cache := c, stage := .toLog (i + 1) }
 | logRead {i : Nat} (hstage : s.stage = .persist i)
  (hi : i < s.log.header.numBlocks) :
  Statement sb s t { s with
   stage := .persistRead i (s.disk.dev (sb.logSlot i)) }
 | reset {i : Nat} {log : LogState} (hstage : s.stage = .persist i)
  (hall : ¬ i < s.log.header.numBlocks)
  (hstep : s.log.step (.resetHeader t) = some log) :
  Statement sb s t { s with log := log, stage := .clear }
 | homeAcquire {i : Nat} {data : BlockData} {fresh : Addr} {c : CacheState}
  (hstage : s.stage = .persistRead i data)
  (hstep : s.cache.step (.acquire t (s.log.header.blockNo i) fresh
   (s.disk.dev (s.log.header.blockNo i))) = some c) :
  Statement sb s t { s with cache := c, stage := (Stage.persistAcquiring i data).got c t }
 | copy {i : Nat} {data : BlockData} {a : Addr} {c : CacheState}
  (hstage : s.stage = .persistHave i data a)
  (hstep : s.cache.step (.setData t a data) = some c) :
  Statement sb s t { s with cache := c, stage := .persistCopied i a }
 | homeWrite {i : Nat} {a : Addr} (hstage : s.stage = .persistCopied i a) :
  Statement sb s t { s with
   disk := s.disk.install (s.cache.heap a).blockNo (s.cache.heap a).data
   stage := .persistWritten i a }
 | homeRelease {i : Nat} {a : Addr} {c : CacheState}
  (hstage : s.stage = .persistWritten i a)
  (hstep : s.cache.step (.release t a) = some c) :
  Statement sb s t { s with cache := c, stage := .persist (i + 1) }
 | clearHeader (hstage : s.stage = .clear) :
  Statement sb s t { s with
   disk := s.disk.writeLog sb.headerBlock s.log.header.encode
   stage := .done }

def quietLabel : CommitLabel -> Option LogLabel
 | .beginWait t => some (.beginWait t)
 | .endReturn t => some (.endReturn t)
 | .postCommit t => some (.postCommit t)
 | .postLog t => some (.postLog t)
 | _ => none

inductive Moves (sb : SuperBlock) (s : CommitState) :
  CommitLabel -> CommitState -> Prop where
 | acquire {t : Tid} {no : BlockNo} {fresh : Addr} {c : CacheState}
  (huser : s.userCode t = true)
  (hstep : s.cache.step (.acquire t no fresh (s.disk.dev no)) = some c) :
  Moves sb s (.acquire t no fresh) { s with cache := c }
 | wait {t : Tid} {c : CacheState}
  (hstep : s.cache.step (.wait t) = some c) :
  Moves sb s (.wait t) { s with cache := c }
 | back {t : Tid} {no : BlockNo} {fresh : Addr} {c : CacheState}
  (htarget : CacheState.backTarget (s.cache.pc t) = some no)
  (hstep : s.cache.step (.back t fresh (s.disk.dev no)) = some c) :
  Moves sb s (.back t fresh) { s with
   cache := c
   stage := if (s.log.op t).commits then s.stage.got c t else s.stage }
 | release {t : Tid} {a : Addr} {c : CacheState} (huser : s.userCode t = true)
  (hstep : s.cache.step (.release t a) = some c) :
  Moves sb s (.release t a) { s with cache := c }
 | modify {t : Tid} {a : Addr} {data : BlockData} {c : CacheState}
  (huser : s.userCode t = true)
  (hstep : s.cache.step (.setData t a data) = some c) :
  Moves sb s (.modify t a data) { s with cache := c, dirty := Function.update s.dirty a true }
 | beginOp {t : Tid} {log : LogState}
  (hstep : s.log.step (.beginOp t) = some log) :
  Moves sb s (.beginOp t) { s with log := log, syncs := Function.update s.syncs t [] }
 | sync {t : Tid} {a : Addr} {next : CommitState} (hsyncs : s.Syncs t a next) :
  Moves sb s (.sync t a) next
 | endOp {t : Tid} {log : LogState} (hpc : s.cache.pc t = .idle)
  (hstep : s.log.step (.endOp t) = some log) :
  Moves sb s (.endOp t) { s with
   log := log
   stage := if log.op t = .checkpoint then .start else s.stage }
 | checkpoint {t : Tid} {fresh : Addr} {next : CommitState}
  (ht : (s.log.op t).commits = true) (hstatement : Statement sb s t next) :
  Moves sb s (.checkpoint t fresh) next
 | clearCommitting {t : Tid} {log : LogState} (hstage : s.stage = .done)
  (hstep : s.log.step (.clearCommitting t) = some log) :
  Moves sb s (.clearCommitting t) { s with log := log, stage := .idle }
 | quiet {l : CommitLabel} {k : LogLabel} {log : LogState}
  (hl : quietLabel l = some k) (hstep : s.log.step k = some log) :
  Moves sb s l { s with log := log }

/-!
# Taking a step apart
-/

variable {sb : SuperBlock} {s next : CommitState}

theorem withCache_some {l : CacheLabel} (h : s.withCache l = some next) :
  exists c, s.cache.step l = some c ∧ { s with cache := c } = next :=
 map_eq_some_iff.mp h

theorem withLog_some {l : LogLabel} (h : s.withLog l = some next) :
  exists log, s.log.step l = some log ∧ { s with log := log } = next :=
 map_eq_some_iff.mp h

variable {t : Tid}

theorem sync_syncs {a : Addr} (h : s.sync t a = some next) : s.Syncs t a next := by
 simp only [sync] at h
 rcases ite_none_right_eq_some.mp h with ⟨hheld, h⟩
 split at h
 · rename_i log cache hlog hcache
   cases h
   refine ⟨hheld.right, hlog, ?_, rfl, rfl, rfl, rfl⟩
   by_cases hlogged : s.log.header.logged (s.cache.heap a).blockNo = true
   · rw [if_pos hlogged] at hcache
     exact .inl ⟨hlogged, (some.inj hcache).symm⟩
   rw [if_neg hlogged] at hcache
   exact .inr ⟨by simpa using hlogged, hcache⟩
 · cases h

theorem checkpointStep_statement {fresh : Addr}
  (h : s.checkpointStep sb t fresh = some next) : Statement sb s t next := by
 unfold checkpointStep at h
 split at h
 · rename_i hstage
   split at h
   · rename_i hempty
     rcases map_eq_some_iff.mp h with ⟨log, hstep, rfl⟩
     exact .emptyLog hstage hempty hstep
   cases h
   exact .enter hstage
 · rename_i i hstage
   split at h
   · rename_i hi
     rcases map_eq_some_iff.mp h with ⟨c, hstep, rfl⟩
     exact .logAcquire hstage hi hstep
   rename_i hall
   cases h
   exact .writeHeader hstage hall
 · rename_i hstage
   cases h
   exact .logWrite hstage
 · rename_i hstage
   rcases map_eq_some_iff.mp h with ⟨c, hstep, rfl⟩
   exact .unpin hstage hstep
 · rename_i hstage
   rcases map_eq_some_iff.mp h with ⟨c, hstep, rfl⟩
   exact .logRelease hstage hstep
 · rename_i i hstage
   split at h
   · rename_i hi
     cases h
     exact .logRead hstage hi
   rename_i hall
   rcases map_eq_some_iff.mp h with ⟨log, hstep, rfl⟩
   exact .reset hstage hall hstep
 · rename_i hstage
   rcases map_eq_some_iff.mp h with ⟨c, hstep, rfl⟩
   exact .homeAcquire hstage hstep
 · rename_i hstage
   rcases map_eq_some_iff.mp h with ⟨c, hstep, rfl⟩
   exact .copy hstage hstep
 · rename_i hstage
   cases h
   exact .homeWrite hstage
 · rename_i hstage
   rcases map_eq_some_iff.mp h with ⟨c, hstep, rfl⟩
   exact .homeRelease hstage hstep
 · rename_i hstage
   cases h
   exact .clearHeader hstage
 · cases h

variable {l : CommitLabel}

theorem step_moves (h : s.step sb l = some next) : Moves sb s l next := by
 cases l with
 | acquire t no fresh =>
  simp only [step] at h
  split at h
  · rename_i huser
    rcases withCache_some h with ⟨c, hstep, rfl⟩
    exact .acquire huser hstep
  · cases h
 | wait t =>
  rcases withCache_some h with ⟨c, hstep, rfl⟩
  exact .wait hstep
 | back t fresh =>
  simp only [step, back] at h
  split at h
  · rename_i no htarget
    rcases map_eq_some_iff.mp h with ⟨c, hstep, rfl⟩
    exact .back htarget hstep
  · cases h
 | release t a =>
  simp only [step] at h
  split at h
  · rename_i huser
    rcases withCache_some h with ⟨c, hstep, rfl⟩
    exact .release huser hstep
  · cases h
 | modify t a data =>
  simp only [step] at h
  split at h
  · rename_i huser
    rcases map_eq_some_iff.mp h with ⟨mid, hmid, heq⟩
    rcases withCache_some hmid with ⟨c, hstep, hc⟩
    subst hc heq
    exact .modify huser hstep
  · cases h
 | beginOp t =>
  simp only [step] at h
  split at h
  · rcases map_eq_some_iff.mp h with ⟨mid, hmid, heq⟩
    rcases withLog_some hmid with ⟨log, hstep, hl⟩
    subst hl heq
    exact .beginOp hstep
  · cases h
 | sync t a => exact .sync (sync_syncs h)
 | endOp t =>
  simp only [step, endOp] at h
  split at h
  · rename_i hpc
    rcases map_eq_some_iff.mp h with ⟨log, hstep, rfl⟩
    exact .endOp hpc hstep
  · cases h
 | checkpoint t fresh =>
  simp only [step] at h
  split at h
  · rename_i ht
    exact .checkpoint ht (checkpointStep_statement h)
  · cases h
 | clearCommitting t =>
  simp only [step, clearCommitting] at h
  split at h
  · rename_i hstage
    rcases map_eq_some_iff.mp h with ⟨log, hstep, rfl⟩
    exact .clearCommitting hstage hstep
  · cases h
 | _ =>
  rcases withLog_some h with ⟨log, hstep, rfl⟩
  exact .quiet rfl hstep

theorem quietLabel_quiet {k : LogLabel} (h : quietLabel l = some k) : LogState.quietLabel k := by
 cases l <;> cases h <;> rfl

/-!
# Components

Every step of the whole is a step of the cache or leaves the cache alone, and
the same holds of the log.
-/

theorem step_cache (h : s.step sb l = some next) :
  next.cache = s.cache ∨ exists k, s.cache.step k = some next.cache := by
 cases step_moves h with
 | acquire _ hstep | wait hstep | back _ hstep | release _ hstep | modify _ hstep =>
  exact .inr ⟨_, hstep⟩
 | sync hsyncs =>
  rcases hsyncs.cache with ⟨_, heq⟩ | ⟨_, hstep⟩
  · exact .inl heq
  · exact .inr ⟨_, hstep⟩
 | checkpoint _ hstatement =>
  cases hstatement with
  | logAcquire _ _ hstep | unpin _ hstep | logRelease _ hstep | homeAcquire _ hstep
  | copy _ hstep | homeRelease _ hstep => exact .inr ⟨_, hstep⟩
  | _ => exact .inl rfl
 | _ => exact .inl rfl

def logLabel (s : CommitState) : CommitLabel -> Option LogLabel
 | .beginOp t => some (.beginOp t)
 | .sync t a => some (.sync t (s.cache.heap a).blockNo)
 | .endOp t => some (.endOp t)
 | .checkpoint t _ => some (.resetHeader t)
 | .clearCommitting t => some (.clearCommitting t)
 | other => quietLabel other

theorem step_log (h : s.step sb l = some next) : next.log = s.log ∨
    exists k, s.logLabel l = some k ∧ s.log.step k = some next.log := by
 cases step_moves h with
 | beginOp hstep | endOp _ hstep | clearCommitting _ hstep => exact .inr ⟨_, rfl, hstep⟩
 | sync hsyncs => exact .inr ⟨_, rfl, hsyncs.log⟩
 | checkpoint _ hstatement =>
  cases hstatement with
  | emptyLog _ _ hstep | reset _ _ hstep => exact .inr ⟨_, rfl, hstep⟩
  | _ => exact .inl rfl
 | quiet hl hstep =>
  refine .inr ⟨_, ?_, hstep⟩
  cases l <;> cases hl <;> rfl
 | _ => exact .inl rfl

theorem client_sync {a : Addr} (h : s.Client sb (.sync t a)) :
  ¬ sb.InLog (s.cache.heap a).blockNo ∧ s.log.WithinBudget (.sync t (s.cache.heap a).blockNo) := by
 have hboth : s.client sb (.sync t a) := h
 simp only [client, Bool.and_eq_true, Bool.not_eq_true', decide_eq_false_iff_not] at hboth
 exact hboth

theorem withinBudget_of_client {k : LogLabel}
  (h : s.Client sb l) (hk : s.logLabel l = some k) : s.log.WithinBudget k := by
 cases l with
 | sync t a =>
  cases hk
  exact (client_sync h).right
 | _ => cases hk <;> rfl

theorem list_of_reachable {guard : CommitState -> CommitLabel -> Prop}
  (h : Reachable (commitSystem sb) guard s) : CacheState.ListInv s.cache := by
 have hproject : Reachable cacheSystem unguarded s.cache := by
  apply reachable_project (fun s : CommitState => s.cache) _ _ h
  · intro start hstart
    exact hstart.cache
  intro mid l next _ hstep
  rcases step_cache hstep with heq | ⟨k, hk⟩
  · exact .inl heq
  · exact .inr ⟨k, trivial, hk⟩
 exact CacheState.listInv_reachable hproject

theorem log_of_reachable (h : Reachable (commitSystem sb) (Client sb) s) :
  LogState.Inv sb s.log := by
 have hproject : Reachable (logSystem sb) LogState.WithinBudget s.log := by
  apply reachable_project (fun s : CommitState => s.log) _ _ h
  · intro start hstart
    exact hstart.log
  intro mid l next hclient hstep
  rcases step_log hstep with heq | ⟨k, hk, hlog⟩
  · exact .inl heq
  · exact .inr ⟨k, withinBudget_of_client hclient hk, hlog⟩
 exact LogState.inv_reachable hproject

end OSLab.Fs.CommitState
