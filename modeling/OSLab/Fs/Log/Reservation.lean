import OSLab.Foundation.Ledger
import OSLab.Fs.Log.Operations

/-!
# Log space reservation

An operation reserves `OP_MAX_NUM_BLOCKS` entries of the log when it begins,
uses them up one by one, and returns the rest when it ends.  The counters of
`struct LOG` are a ledger of these reservations, and the ledger together with
the entries already in the header never exceeds the size of the log.
-/

namespace OSLab.Fs
open Common Foundation Function TransitionSystem LogState
namespace LogState

def account (s : LogState) (t : Tid) : Option Nat := (s.op t).ctx?.map OpContext.rm

/-!
# What a step can do

The counters, the header and the outstanding operations change in six ways.
-/

structure Quiet (s next : LogState) : Prop where
 maxSize : next.maxSize = s.maxSize
 outstanding : next.outstanding = s.outstanding
 logUsed : next.logUsed = s.logUsed
 committing : next.committing = s.committing
 header : next.header = s.header
 batch : next.batch = s.batch
 batchOf : next.batchOf = s.batchOf
 panicked : next.panicked = s.panicked
 ctx : forall t, (next.op t).ctx? = (s.op t).ctx?
 commits : forall t, (next.op t).commits = (s.op t).commits

structure Begins (s : LogState) (t : Tid) (next : LogState) : Prop where
 idle : s.committing = false
 space : s.logUsed + s.header.numBlocks + opMaxNumBlocks ≤ s.maxSize
 ctx : (s.op t).ctx? = none
 commits : (s.op t).commits = false
 eq : next = { s with
  outstanding := s.outstanding + 1
  logUsed := s.logUsed + opMaxNumBlocks
  op := update s.op t
   (.running { rm := opMaxNumBlocks, added := 0 }) }

structure Adds (s : LogState) (t : Tid) (no : BlockNo) (ctx : OpContext)
  (next : LogState) : Prop where
 op : s.op t = .running ctx
 new : s.header.logged no = false
 rm : 0 < ctx.rm
 eq : next = { s with
  header := s.header.push no
  logUsed := s.logUsed - 1
  op := update s.op t
   (.running { rm := ctx.rm - 1, added := ctx.added + 1 }) }

structure Overruns (s : LogState) (t : Tid) (no : BlockNo) (ctx : OpContext) :
  Prop where
 op : s.op t = .running ctx
 new : s.header.logged no = false
 rm : ctx.rm = 0

structure Ends (s : LogState) (t : Tid) (ctx : OpContext) (next : LogState) :
  Prop where
 op : s.op t = .running ctx
 maxSize : next.maxSize = s.maxSize
 outstanding : next.outstanding = s.outstanding - 1
 logUsed : next.logUsed = s.logUsed - ctx.rm
 header : next.header = s.header
 batch : next.batch = s.batch
 batchOf : next.batchOf = update s.batchOf t s.batch
 panicked : next.panicked = s.panicked
 ctx : forall u, u ≠ t -> (next.op u).ctx? = (s.op u).ctx?
 closed : (next.op t).ctx? = none
 commits : forall u, u ≠ t -> (next.op u).commits = (s.op u).commits
 last : (next.outstanding = 0 ∧ next.committing = true ∧ next.op t = .checkpoint) ∨
  (next.outstanding ≠ 0 ∧ next.committing = s.committing ∧ (next.op t).commits = false)

structure Resets (s : LogState) (t : Tid) (next : LogState) : Prop where
 op : s.op t = .checkpoint
 eq : next = { s with
  header := { s.header with numBlocks := 0 }
  op := update s.op t .reset }

structure Clears (s : LogState) (t : Tid) (next : LogState) : Prop where
 op : s.op t = .reset
 eq : next = { s with
  committing := false
  batch := s.batch + 1
  posting := t :: s.posting
  op := update s.op t .postCommit }

theorem ctx?_wakeAll (op : Tid -> OpPc) (woken : List Tid) (t : Tid) :
  (wakeAll op woken t).ctx? = (op t).ctx? := by
 unfold wakeAll
 split <;> simp

theorem commits_wakeAll (op : Tid -> OpPc) (woken : List Tid) (t : Tid) :
  (wakeAll op woken t).commits = (op t).commits := by
 unfold wakeAll
 split <;> simp

variable {t : Tid} {pc : OpPc} {op base : Tid -> OpPc}

theorem apply_update {α : Type} {f : OpPc -> α} (hbase : forall u, f (base u) = f (op u))
  (hpc : f pc = f (op t)) (u : Tid) : f (update base t pc u) = f (op u) := by
 by_cases hu : u = t
 · subst hu
   rw [update_self]
   exact hpc
 rw [update_of_ne hu]
 exact hbase u

variable {s : LogState}

theorem beginRound_cases (hctx : (s.op t).ctx? = none) (hcommits : (s.op t).commits = false) :
  s.Quiet (s.beginRound t) ∨ s.Begins t (s.beginRound t) := by
 unfold beginRound
 by_cases hwait : s.mustWait = true
 · rw [if_pos hwait]
   refine .inl ⟨rfl, rfl, rfl, rfl, rfl, rfl, rfl, rfl, ?_, ?_⟩
   · exact apply_update (fun _ => rfl) hctx.symm
   · exact apply_update (fun _ => rfl) hcommits.symm
 rw [if_neg hwait]
 have hgo : s.committing = false ∧
  s.logUsed + s.header.numBlocks + opMaxNumBlocks ≤ s.maxSize := by
  simpa [mustWait] using hwait
 exact .inr ⟨hgo.left, hgo.right, hctx, hcommits, rfl⟩

variable {s next : LogState}

theorem cacheBeginOp_cases (h : s.cacheBeginOp t = some next) : s.Quiet next ∨ s.Begins t next := by
 unfold cacheBeginOp at h
 cases hpc : s.op t with
 | outside | beginWoken =>
  simp only [hpc, Option.some.injEq] at h
  subst h
  exact beginRound_cases (by rw [hpc]; rfl) (by rw [hpc]; rfl)
 | _ => simp [hpc] at h

theorem beginWait_quiet (h : s.beginWait t = some next) : s.Quiet next := by
 unfold beginWait at h
 rcases of_guard h with ⟨hpc, rfl⟩
 refine ⟨rfl, rfl, rfl, rfl, rfl, rfl, rfl, rfl, ?_, ?_⟩
 · apply apply_update (fun _ => rfl)
   rw [hpc]
   split <;> rfl
 apply apply_update (fun _ => rfl)
 rw [hpc]
 split <;> rfl

variable {no : BlockNo}

theorem cacheSync_cases (h : s.cacheSync t no = some next) : exists ctx, s.op t = .running ctx ∧
    ((s.header.logged no ∧ next = s) ∨ s.Adds t no ctx next ∨ s.Overruns t no ctx) := by
 unfold cacheSync at h
 split at h
 · rename_i ctx hpc
   refine ⟨ctx, hpc, ?_⟩
   by_cases hlogged : s.header.logged no = true
   · rw [if_pos hlogged] at h
     cases h
     exact .inl ⟨hlogged, rfl⟩
   rw [if_neg hlogged] at h
   have hnew : s.header.logged no = false := by simpa using hlogged
   refine .inr ?_
   by_cases hrm : 0 < ctx.rm
   · rw [if_pos hrm] at h
     cases h
     exact .inl ⟨hpc, hnew, hrm, rfl⟩
   · exact .inr ⟨hpc, hnew, by omega⟩
 · cases h

theorem cacheEndOp_ends (h : s.cacheEndOp t = some next) : exists ctx, s.Ends t ctx next := by
 unfold cacheEndOp at h
 split at h
 · rename_i ctx hpc
   refine ⟨ctx, ?_⟩
   by_cases hlast : s.outstanding - 1 = 0
   · rw [if_pos hlast] at h
     cases h
     exact {
      op := hpc
      maxSize := rfl
      outstanding := rfl
      logUsed := rfl
      header := rfl
      batch := rfl
      batchOf := rfl
      panicked := rfl
      ctx := fun u hu => by simp [hu]
      closed := by simp [OpPc.ctx?]
      commits := fun u hu => by simp [hu]
      last := .inl ⟨hlast, rfl, by simp⟩ }
   rw [if_neg hlast] at h
   cases h
   exact {
    op := hpc
    maxSize := rfl
    outstanding := rfl
    logUsed := rfl
    header := rfl
    batch := rfl
    batchOf := rfl
    panicked := rfl
    ctx := fun u hu => by
     simp only [update_of_ne hu]
     exact ctx?_wakeAll _ _ _
    closed := by
     simp only [update_self]
     split <;> rfl
    commits := fun u hu => by
     simp only [update_of_ne hu]
     exact commits_wakeAll _ _ _
    last := .inr ⟨hlast, rfl, by
     simp only [update_self]
     split <;> rfl⟩ }
 · cases h

theorem endReturn_quiet (h : s.endReturn t = some next) : s.Quiet next := by
 unfold endReturn at h
 rcases of_guard h with ⟨hpc, rfl⟩
 refine ⟨rfl, rfl, rfl, rfl, rfl, rfl, rfl, rfl, ?_, ?_⟩
 · exact apply_update (fun _ => rfl) (by rw [hpc]; rfl)
 · exact apply_update (fun _ => rfl) (by rw [hpc]; rfl)

theorem resetHeader_resets (h : s.resetHeader t = some next) : s.Resets t next := by
 unfold resetHeader at h
 rcases of_guard h with ⟨hpc, rfl⟩
 exact ⟨hpc, rfl⟩

theorem clearCommitting_clears (h : s.clearCommitting t = some next) : s.Clears t next := by
 unfold clearCommitting at h
 rcases of_guard h with ⟨hpc, rfl⟩
 exact ⟨hpc, rfl⟩

theorem postCommit_quiet (h : s.postCommit t = some next) : s.Quiet next := by
 unfold postCommit at h
 rcases of_guard h with ⟨hpc, rfl⟩
 refine ⟨rfl, rfl, rfl, rfl, rfl, rfl, rfl, rfl, ?_, ?_⟩
 · exact apply_update (ctx?_wakeAll _ _) (by rw [hpc]; rfl)
 · exact apply_update (commits_wakeAll _ _) (by rw [hpc]; rfl)

theorem postLog_quiet (h : s.postLog t = some next) : s.Quiet next := by
 unfold postLog at h
 rcases of_guard h with ⟨hpc, rfl⟩
 refine ⟨rfl, rfl, rfl, rfl, rfl, rfl, rfl, rfl, ?_, ?_⟩
 · exact apply_update (ctx?_wakeAll _ _) (by rw [hpc]; rfl)
 · exact apply_update (commits_wakeAll _ _) (by rw [hpc]; rfl)

theorem quiet_self (s : LogState) : s.Quiet s :=
 ⟨rfl, rfl, rfl, rfl, rfl, rfl, rfl, rfl, fun _ => rfl, fun _ => rfl⟩

theorem locked_some {result : Option LogState} (h : s.locked result = some next) :
  s.logLock = none ∧ result = some next := by
 unfold locked at h
 split at h
 · rename_i hfree
   exact ⟨hfree, h⟩
 · cases h

variable {l : LogLabel}

theorem step_run (h : s.step l = some next) : s.run l = some next := by
 unfold step at h
 split at h
 · cases h
 · exact h

theorem step_beginOp (h : s.step (.beginOp t) = some next) : s.Quiet next ∨ s.Begins t next :=
 cacheBeginOp_cases (locked_some (step_run h)).right

theorem step_endOp (h : s.step (.endOp t) = some next) : exists ctx, s.Ends t ctx next :=
 cacheEndOp_ends (locked_some (step_run h)).right

theorem step_resetHeader (h : s.step (.resetHeader t) = some next) : s.Resets t next :=
 resetHeader_resets (step_run h)

theorem step_clearCommitting (h : s.step (.clearCommitting t) = some next) : s.Clears t next :=
 clearCommitting_clears (step_run h)

def quietLabel : LogLabel -> Bool
 | .beginWait _ | .endReturn _ | .postCommit _ | .postLog _ => true
 | _ => false

theorem step_quiet (hl : quietLabel l) (h : s.step l = some next) : s.Quiet next := by
 have hrun := step_run h
 cases l with
 | beginWait t => exact beginWait_quiet hrun
 | endReturn t => exact endReturn_quiet hrun
 | postCommit t => exact postCommit_quiet hrun
 | postLog t => exact postLog_quiet hrun
 | _ => cases hl

theorem step_cases (h : s.step l = some next) : s.Quiet next ∨ (exists t, s.Begins t next) ∨
    (exists t no ctx, l = .sync t no ∧ (s.Adds t no ctx next ∨ s.Overruns t no ctx)) ∨
    (exists t ctx, s.Ends t ctx next) ∨
    (exists t, s.Resets t next) ∨
    exists t, s.Clears t next := by
 cases l with
 | beginOp t =>
  rcases step_beginOp h with hquiet | hbegins
  · exact .inl hquiet
  · exact .inr (.inl ⟨t, hbegins⟩)
 | sync t no =>
  rcases cacheSync_cases (locked_some (step_run h)).right with ⟨ctx, _, ⟨_, heq⟩ | hcases⟩
  · rw [heq]
    exact .inl (quiet_self s)
  · exact .inr (.inr (.inl ⟨t, no, ctx, rfl, hcases⟩))
 | endOp t =>
  rcases step_endOp h with ⟨ctx, hends⟩
  exact .inr (.inr (.inr (.inl ⟨t, ctx, hends⟩)))
 | resetHeader t => exact .inr (.inr (.inr (.inr (.inl ⟨t, step_resetHeader h⟩))))
 | clearCommitting t => exact .inr (.inr (.inr (.inr (.inr ⟨t, step_clearCommitting h⟩))))
 | _ => exact .inl (step_quiet rfl h)

/-!
# The invariant
-/

structure Inv (sb : SuperBlock) (s : LogState) : Prop where
 size : s.maxSize = sb.maxLogSize
 ledger : Ledger s.account s.outstanding s.logUsed
 room : s.header.numBlocks + s.logUsed ≤ s.maxSize
 distinct : forall i j, i < j -> j < s.header.numBlocks -> s.header.blockNo i ≠ s.header.blockNo j
 budget : forall t ctx, s.op t = .running ctx -> ctx.rm + ctx.added = opMaxNumBlocks
 drained : s.committing = true -> forall t, (s.op t).ctx? = none
 committer : forall t, (s.op t).commits = true -> s.committing = true
 oneCommitter : forall t u, (s.op t).commits = true -> (s.op u).commits = true -> t = u
 live : s.panicked = false

def withinBudget (s : LogState) : LogLabel -> Bool
 | .sync t no =>
  s.header.logged no || match (s.op t).ctx? with
   | some ctx => decide (ctx.added < opMaxNumBlocks)
   | none => true
 | _ => true

def WithinBudget (s : LogState) (l : LogLabel) : Prop := s.withinBudget l = true

instance (s : LogState) (l : LogLabel) : Decidable (s.WithinBudget l) :=
 inferInstanceAs (Decidable (s.withinBudget l = true))

variable {ctx : OpContext}

theorem withinBudget_sync (h : s.WithinBudget (.sync t no))
  (hop : s.op t = .running ctx) (hnew : s.header.logged no = false) :
  ctx.added < opMaxNumBlocks := by
 simpa [WithinBudget, withinBudget, hop, hnew, OpPc.ctx?] using h

theorem ctx?_running : pc.ctx? = some ctx ↔ pc = .running ctx := by
 cases pc <;> simp [OpPc.ctx?]

theorem account_running (h : s.op t = .running ctx) : s.account t = some ctx.rm := by
 unfold account
 rw [h]
 rfl

theorem commits_of_running (h : s.op t = .running ctx) : (s.op t).commits = false := by
 rw [h]
 rfl

theorem account_update {v : Option Nat} (hself : next.account t = v)
  (hother : forall u, u ≠ t -> (next.op u).ctx? = (s.op u).ctx?) :
  next.account = update s.account t v := by
 funext u
 by_cases hu : u = t
 · subst hu
   rw [update_self]
   exact hself
 rw [update_of_ne hu]
 unfold account
 rw [hother u hu]

variable {sb : SuperBlock}

theorem inv_initial (h : s.Initial sb) : Inv sb s := by
 have hctx : forall t, (s.op t).ctx? = none := by
  intro t
  rw [h.op t]
  rfl
 have hcommits : forall t, (s.op t).commits = false := by
  intro t
  rw [h.op t]
  rfl
 exact {
  size := h.maxSize
  ledger := by
   rw [h.outstanding, h.logUsed]
   exact Ledger.empty (fun t => by simp [account, hctx])
  room := by
   rw [h.numBlocks, h.logUsed]
   simp
  distinct := by
   intro i j _ hj
   rw [h.numBlocks] at hj
   omega
  budget := by
   intro t ctx hop
   rw [h.op t] at hop
   cases hop
  drained := fun _ => hctx
  committer := by
   intro t ht
   rw [hcommits t] at ht
   cases ht
  oneCommitter := by
   intro t u ht _
   rw [hcommits t] at ht
   cases ht
  live := h.panicked }

theorem Inv.running_congr (hinv : Inv sb s) (hctx : forall u, (next.op u).ctx? = (s.op u).ctx?) :
  Ledger next.account s.outstanding s.logUsed ∧
    forall u ctx, next.op u = .running ctx -> ctx.rm + ctx.added = opMaxNumBlocks := by
 have haccount : next.account = s.account := by
  funext u
  unfold account
  rw [hctx]
 rw [haccount]
 refine ⟨hinv.ledger, ?_⟩
 intro u ctx hop
 apply hinv.budget u ctx
 rw [← ctx?_running, ← hctx, ctx?_running]
 exact hop

theorem inv_quiet (hinv : Inv sb s) (h : s.Quiet next) : Inv sb next := by
 have hrunning := hinv.running_congr h.ctx
 exact {
  size := by
   rw [h.maxSize]
   exact hinv.size
  ledger := by
   rw [h.outstanding, h.logUsed]
   exact hrunning.left
  room := by
   rw [h.header, h.logUsed, h.maxSize]
   exact hinv.room
  distinct := by
   rw [h.header]
   exact hinv.distinct
  budget := hrunning.right
  drained := by
   intro hcommitting t
   rw [h.committing] at hcommitting
   rw [h.ctx]
   exact hinv.drained hcommitting t
  committer := by
   intro t ht
   rw [h.commits] at ht
   rw [h.committing]
   exact hinv.committer t ht
  oneCommitter := by
   intro t u ht hu
   rw [h.commits] at ht hu
   exact hinv.oneCommitter t u ht hu
  live := by
   rw [h.panicked]
   exact hinv.live }

theorem inv_begins (hinv : Inv sb s) (h : s.Begins t next) : Inv sb next := by
 rcases h with ⟨hidle, hspace, hctx, hcommits, rfl⟩
 have hother : forall u, (s.op u).commits = false := by
  intro u
  cases hu : (s.op u).commits with
  | false => rfl
  | true =>
   have hbusy := hinv.committer u hu
   rw [hidle] at hbusy
   cases hbusy
 have hnone : forall u, (update s.op t
  (.running { rm := opMaxNumBlocks, added := 0 }) u).commits = false := by
  intro u
  by_cases hu : u = t
  · subst hu
    simp [OpPc.commits]
  · simp [hu, hother]
 exact { hinv with
  ledger := by
   rw [account_update (s := s) (t := t) (v := some opMaxNumBlocks)
    (by simp [account, OpPc.ctx?]) (fun u hu => by simp [hu])]
   exact hinv.ledger.open_account (by simp [account, hctx]) _
  room := by
   simp only
   omega
  budget := by
   intro u ctx hop
   by_cases hu : u = t
   · subst hu
     simp only [update_self, OpPc.running.injEq] at hop
     subst hop
     rfl
   simp only [update_of_ne hu] at hop
   exact hinv.budget u ctx hop
  drained := by
   intro hcommitting
   simp only [hidle] at hcommitting
   cases hcommitting
  committer := by
   intro u hu
   simp only [hnone] at hu
   cases hu
  oneCommitter := by
   intro u v hu _
   simp only [hnone] at hu
   cases hu }

theorem push_distinct {header : LogHeader} (hdistinct : forall i j, i < j -> j < header.numBlocks ->
    header.blockNo i ≠ header.blockNo j)
  (hnew : header.logged no = false) (i j : Nat) (hij : i < j)
  (hj : j < (header.push no).numBlocks) :
  (header.push no).blockNo i ≠ (header.push no).blockNo j := by
 unfold LogHeader.push at hj ⊢
 simp only at hj ⊢
 by_cases hlast : j = header.numBlocks
 · subst hlast
   rw [update_self, update_of_ne (by omega)]
   intro heq
   have hlogged := LogHeader.logged_iff.mpr ⟨i, hij, heq⟩
   rw [hnew] at hlogged
   cases hlogged
 rw [update_of_ne hlast, update_of_ne (by omega)]
 exact hdistinct i j hij (by omega)

theorem inv_adds (hinv : Inv sb s) (h : s.Adds t no ctx next) : Inv sb next := by
 rcases h with ⟨hop, hnew, hrm, rfl⟩
 have hcommits : forall u, (update s.op t (.running
  { rm := ctx.rm - 1, added := ctx.added + 1 }) u).commits =
  (s.op u).commits :=
  apply_update (fun _ => rfl) (commits_of_running hop).symm
 exact { hinv with
  ledger := by
   rw [account_update (s := s) (t := t) (v := some (ctx.rm - 1))
    (by simp [account, OpPc.ctx?]) (fun u hu => by simp [hu])]
   have hledger := hinv.ledger.adjust_account (account_running hop) (ctx.rm - 1)
   have htotal : s.logUsed - ctx.rm + ((ctx.rm - 1 : Nat) : Int) = s.logUsed - 1 := by omega
   rw [htotal] at hledger
   exact hledger
  room := by
   have hroom := hinv.room
   simp only [LogHeader.push]
   push_cast
   omega
  distinct := push_distinct hinv.distinct hnew
  budget := by
   intro u ctx' hop'
   by_cases hu : u = t
   · subst hu
     simp only [update_self, OpPc.running.injEq] at hop'
     subst hop'
     have hbudget := hinv.budget u ctx hop
     simp only
     omega
   simp only [update_of_ne hu] at hop'
   exact hinv.budget u ctx' hop'
  drained := by
   intro hcommitting
   have hnone := hinv.drained hcommitting t
   rw [hop] at hnone
   cases hnone
  committer := by
   intro u hu
   simp only [hcommits] at hu
   exact hinv.committer u hu
  oneCommitter := by
   intro u v hu hv
   simp only [hcommits] at hu hv
   exact hinv.oneCommitter u v hu hv }

theorem rm_pos (hinv : Inv sb s) (hbudget : s.WithinBudget (.sync t no))
  (hop : s.op t = .running ctx) (hnew : s.header.logged no = false) : 0 < ctx.rm := by
 have hadded := withinBudget_sync hbudget hop hnew
 have hsum := hinv.budget t ctx hop
 omega

theorem inv_ends (hinv : Inv sb s) (h : s.Ends t ctx next) : Inv sb next := by
 have hidle : s.committing = false := by
  cases hcommitting : s.committing with
  | false => rfl
  | true =>
   have hnone := hinv.drained hcommitting t
   rw [h.op] at hnone
   cases hnone
 have hnobody : forall u, u ≠ t -> (next.op u).commits = false := by
  intro u hu
  rw [h.commits u hu]
  cases hcommits : (s.op u).commits with
  | false => rfl
  | true =>
   have hbusy := hinv.committer u hcommits
   rw [hidle] at hbusy
   cases hbusy
 have hledger : Ledger next.account next.outstanding next.logUsed := by
  rw [account_update (s := s) (t := t) (v := none)
   (by simp [account, h.closed]) h.ctx, h.outstanding, h.logUsed]
  exact hinv.ledger.close_account (account_running h.op)
 have honly : forall u, (next.op u).commits -> u = t := by
  intro u hu
  by_cases hut : u = t
  · exact hut
  rw [hnobody u hut] at hu
  cases hu
 exact {
  size := by
   rw [h.maxSize]
   exact hinv.size
  ledger := hledger
  room := by
   have hroom := hinv.room
   rw [h.header, h.logUsed, h.maxSize]
   omega
  distinct := by
   rw [h.header]
   exact hinv.distinct
  budget := by
   intro u ctx' hop'
   by_cases hu : u = t
   · have hclosed := h.closed
     rw [← hu, hop'] at hclosed
     cases hclosed
   apply hinv.budget u ctx'
   rw [← ctx?_running, ← h.ctx u hu, ctx?_running]
   exact hop'
  drained := by
   intro hcommitting u
   rcases h.last with ⟨hzero, _, _⟩ | ⟨_, hsame, _⟩
   · rw [hzero] at hledger
     simpa [account] using hledger.none_of_count_zero u
   rw [hsame, hidle] at hcommitting
   cases hcommitting
  committer := by
   intro u hu
   have hut := honly u hu
   rcases h.last with ⟨_, hset, _⟩ | ⟨_, _, hnot⟩
   · exact hset
   rw [hut, hnot] at hu
   cases hu
  oneCommitter := by
   intro u v hu hv
   rw [honly u hu, honly v hv]
  live := by
   rw [h.panicked]
   exact hinv.live }

theorem ctx?_none_of_commits (h : pc.commits) : pc.ctx? = none := by
 cases pc with
 | running ctx => cases h
 | _ => rfl

section
variable (hinv : Inv sb s)
include hinv

theorem inv_resets (h : s.Resets t next) : Inv sb next := by
 rcases h with ⟨hop, rfl⟩
 have hctx : forall u, (update s.op t .reset u).ctx? = (s.op u).ctx? :=
  apply_update (fun _ => rfl) (by rw [hop]; rfl)
 have hcommits : forall u, (update s.op t .reset u).commits = (s.op u).commits :=
  apply_update (fun _ => rfl) (by rw [hop]; rfl)
 exact { hinv with
  ledger := (hinv.running_congr hctx).left
  room := by
   have hroom := hinv.room
   simp only
   omega
  distinct := by
   intro i j _ hj
   simp only at hj
   omega
  budget := (hinv.running_congr hctx).right
  drained := by
   intro hcommitting u
   simp only [hctx]
   exact hinv.drained hcommitting u
  committer := by
   intro u hu
   simp only [hcommits] at hu
   exact hinv.committer u hu
  oneCommitter := by
   intro u v hu hv
   simp only [hcommits] at hu hv
   exact hinv.oneCommitter u v hu hv }

theorem inv_clears (h : s.Clears t next) : Inv sb next := by
 rcases h with ⟨hop, rfl⟩
 have hctx : forall u, (update s.op t .postCommit u).ctx? = (s.op u).ctx? :=
  apply_update (fun _ => rfl) (by rw [hop]; rfl)
 have hnone : forall u, (update s.op t .postCommit u).commits = false := by
  intro u
  by_cases hu : u = t
  · subst hu
    simp [OpPc.commits]
  rw [update_of_ne hu]
  cases hcommits : (s.op u).commits with
  | false => rfl
  | true => exact absurd (hinv.oneCommitter u t hcommits (by rw [hop]; rfl)) hu
 exact { hinv with
  ledger := (hinv.running_congr hctx).left
  budget := (hinv.running_congr hctx).right
  drained := by nofun
  committer := by
   intro u hu
   simp only [hnone] at hu
   cases hu
  oneCommitter := by
   intro u v hu _
   simp only [hnone] at hu
   cases hu }

theorem inv_step (hbudget : s.WithinBudget l) (h : s.step l = some next) : Inv sb next := by
 rcases step_cases h with hquiet | ⟨t, hbegins⟩ |
  ⟨t, no, ctx, hl, hadds | hover⟩ | ⟨t, ctx, hends⟩ | ⟨t, hresets⟩ |
  ⟨t, hclears⟩
 · exact inv_quiet hinv hquiet
 · exact inv_begins hinv hbegins
 · exact inv_adds hinv hadds
 · rw [hl] at hbudget
   have hpos := rm_pos hinv hbudget hover.op hover.new
   have hzero := hover.rm
   omega
 · exact inv_ends hinv hends
 · exact inv_resets hinv hresets
 · exact inv_clears hinv hclears

theorem sync_within_budget (hbudget : s.WithinBudget (.sync t no))
  (h : s.step (.sync t no) = some next) :
  exists ctx, s.op t = .running ctx ∧
    ((s.header.logged no ∧ next = s) ∨ s.Adds t no ctx next) := by
 rcases cacheSync_cases (locked_some (step_run h)).right with ⟨ctx, hop, hsame | hadds | hover⟩
 · exact ⟨ctx, hop, .inl hsame⟩
 · exact ⟨ctx, hop, .inr hadds⟩
 have hpos := rm_pos hinv hbudget hover.op hover.new
 have hzero := hover.rm
 omega
end

theorem inv_reachable (h : Reachable (logSystem sb) WithinBudget s) : Inv sb s := by
 apply reachable_invariant (Inv sb) _ _ h
 · intro start hinitial
   exact inv_initial hinitial
 intro mid l next _ hinv hbudget hstep
 exact inv_step hinv hbudget hstep

end LogState

/-!
# Log space
-/

/--
The log is never overcommitted: the counters are those of the outstanding
operations, reservations and entries fit in the log, no entry is double, nobody
is outstanding during a commit, and `cache_sync` finds room for a new entry.
-/
structure LogSpace (s : LogState) : Prop where
 ledger : Ledger s.account s.outstanding s.logUsed
 room : s.header.numBlocks + s.logUsed ≤ s.maxSize
 size : s.maxSize ≤ logMaxSize
 distinct : forall i j, i < j -> j < s.header.numBlocks -> s.header.blockNo i ≠ s.header.blockNo j
 drained : s.committing = true -> forall t ctx, s.op t ≠ .running ctx
 inBounds : forall t no ctx, s.op t = .running ctx ->
  s.header.logged no = false -> s.WithinBudget (.sync t no) ->
  s.header.numBlocks < logMaxSize ∧ 0 < ctx.rm
 live : s.panicked = false

theorem logSpace_of_reachable {sb : SuperBlock} {s : LogState}
  (h : Reachable (logSystem sb) LogState.WithinBudget s) : LogSpace s := by
 have hinv := inv_reachable h
 have hsize : s.maxSize ≤ logMaxSize := by
  rw [hinv.size]
  exact sb.maxLogSize_le
 exact { hinv with
  size := hsize
  drained := by
   intro hcommitting t ctx hop
   have hnone := hinv.drained hcommitting t
   rw [hop] at hnone
   cases hnone
  inBounds := by
   intro t no ctx hop hnew hbudget
   have hpos := rm_pos hinv hbudget hop hnew
   have hle := hinv.ledger.le_total (account_running hop)
   have hroom := hinv.room
   exact ⟨by omega, hpos⟩ }

/-- Two operations are outstanding and one of them has added a block. -/
theorem logSpace_two_operations :
  exists s, s.outstanding = 2 ∧ s.logUsed = 19 ∧ s.header.numBlocks = 1 ∧ LogSpace s := by
 rcases exists_reachable_of_execute (logSystem mkfsLayout) WithinBudget
  (start_initial mkfsLayout)
  [.beginOp 0, .beginOp 1, .sync 0 500, .sync 1 500]
  (fun s => s.outstanding = 2 ∧ s.logUsed = 19 ∧ s.header.numBlocks = 1) (by decide +kernel)
  with ⟨s, hreach, hout, hused, hblocks⟩
 exact ⟨s, hout, hused, hblocks, logSpace_of_reachable hreach⟩

end OSLab.Fs
