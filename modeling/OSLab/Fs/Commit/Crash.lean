import OSLab.Fs.Commit.Invariant

/-!
# Crashes and recovery

A crash keeps the device and nothing else.  `recover_from_log` then replays the
log if the header on the disk says so.  It may itself be interrupted by a crash
and start again; each replay writes the same contents to the same homes, so the
number of attempts does not matter.
-/

namespace OSLab.Fs
open Common Foundation TransitionSystem CommitState LogState

/-!
# `recover_from_log`
-/

def readHeader (sb : SuperBlock) (dev : Device) : LogHeader := LogHeader.decode (dev sb.headerBlock)

def replay (sb : SuperBlock) (header : LogHeader) : Nat -> Device -> Device
 | 0, dev => dev
 | k + 1, dev =>
  let before := replay sb header k dev
  before.write (header.blockNo k) (before (sb.recoverySlot k))

def recoverFromLog (sb : SuperBlock) (dev : Device) : Device :=
 let header := readHeader sb dev
 (replay sb header header.numBlocks dev).write sb.headerBlock { header with numBlocks := 0 }.encode

inductive Recovering (sb : SuperBlock) (crashed : Device) : Device -> Prop where
 | crash : Recovering sb crashed crashed
 | interrupted {dev : Device} (k : Nat) :
  Recovering sb crashed dev ->
  k ≤ (readHeader sb dev).numBlocks ->
  Recovering sb crashed (replay sb (readHeader sb dev) k dev)
 | finished {dev : Device} :
  Recovering sb crashed dev ->
  Recovering sb crashed (recoverFromLog sb dev)

/--
Recovery leads to `target`: what the log will not write is there already, and
what it will write is in the log area.
-/
structure RecoversTo (sb : SuperBlock) (target : BlockNo -> BlockData)
  (dev : Device) : Prop where
 size : (readHeader sb dev).numBlocks ≤ sb.maxLogSize
 outside : forall i, i < (readHeader sb dev).numBlocks -> ¬ sb.InLog ((readHeader sb dev).blockNo i)
 slots : forall i, i < (readHeader sb dev).numBlocks ->
  dev (sb.logSlot i) = target ((readHeader sb dev).blockNo i)
 rest : forall no, ¬ sb.InLog no -> (forall i, i < (readHeader sb dev).numBlocks ->
   (readHeader sb dev).blockNo i ≠ no) ->
  dev no = target no

namespace RecoversTo
variable {sb : LogLayout} {target : BlockNo -> BlockData} {dev : Device} {k : Nat} {no : BlockNo}

theorem replay_inLog (h : RecoversTo sb target dev)
  (hk : k ≤ (readHeader sb dev).numBlocks) (hno : sb.InLog no) :
  replay sb (readHeader sb dev) k dev no = dev no := by
 induction k with
 | zero => rfl
 | succ k ih =>
  have hne : no ≠ (readHeader sb dev).blockNo k := by
   rintro rfl
   exact h.outside k hk hno
  simp only [replay]
  rw [Device.write_other _ _ hne]
  exact ih (by omega)

theorem replay_other {header : LogHeader} (hno : forall i, i < k -> header.blockNo i ≠ no) :
  replay sb header k dev no = dev no := by
 induction k with
 | zero => rfl
 | succ k ih =>
  simp only [replay]
  rw [Device.write_other _ _ (Ne.symm (hno k (Nat.lt_succ_self k)))]
  exact ih (fun i hi => hno i (by omega))

section
variable (h : RecoversTo sb target dev)
include h

section
variable (hk : k ≤ (readHeader sb dev).numBlocks)
include hk

theorem replay_named (hno : exists i, i < k ∧ (readHeader sb dev).blockNo i = no) :
  replay sb (readHeader sb dev) k dev no = target no := by
 induction k with
 | zero =>
  rcases hno with ⟨i, hi, _⟩
  omega
 | succ k ih =>
  have hsize := h.size
  have hslot : k < sb.maxLogSize := by omega
  simp only [replay]
  by_cases hlast : (readHeader sb dev).blockNo k = no
  · rw [hlast, Device.write_same, sb.recoverySlot_eq_logSlot hslot,
     h.replay_inLog (by omega) (sb.logSlot_inLog hslot), h.slots k hk, hlast]
  rw [Device.write_other _ _ (Ne.symm hlast)]
  apply ih (by omega)
  rcases hno with ⟨i, hi, heq⟩
  have hik : i ≠ k := by
   rintro rfl
   exact hlast heq
  exact ⟨i, by omega, heq⟩

theorem readHeader_replay : readHeader sb (replay sb (readHeader sb dev) k dev) =
    readHeader sb dev := by
 have hsame := h.replay_inLog hk sb.headerBlock_inLog
 change LogHeader.decode (replay _ _ _ _ _) = _
 rw [hsame]
 rfl

theorem interrupted : RecoversTo sb target (replay sb (readHeader sb dev) k dev) := by
 have hheader := h.readHeader_replay hk
 exact {
  size := by
   rw [hheader]
   exact h.size
  outside := by
   rw [hheader]
   exact h.outside
  slots := by
   intro i hi
   rw [hheader] at hi ⊢
   have hsize := h.size
   rw [h.replay_inLog hk (sb.logSlot_inLog (by omega))]
   exact h.slots i hi
  rest := by
   intro no hno hother
   rw [hheader] at hother
   rw [replay_other (fun i hi => hother i (by omega))]
   exact h.rest no hno hother }
end

theorem recovered : (readHeader sb (recoverFromLog sb dev)).numBlocks = 0 ∧
    forall no, ¬ sb.InLog no -> recoverFromLog sb dev no = target no := by
 constructor
 · unfold readHeader recoverFromLog
   rw [Device.write_same]
   exact LogHeader.decode_encode_numBlocks _ (Nat.zero_le _)
 intro no hno
 unfold recoverFromLog
 rw [Device.write_other _ _ (DiskInv.header_ne_of_outside hno)]
 by_cases hnamed : exists i, i < (readHeader sb dev).numBlocks ∧
  (readHeader sb dev).blockNo i = no
 · exact h.replay_named (Nat.le_refl _) hnamed
 · have hother : forall i, i < (readHeader sb dev).numBlocks ->
    (readHeader sb dev).blockNo i ≠ no := by
    intro i hi heq
    exact hnamed ⟨i, hi, heq⟩
   rw [replay_other hother]
   exact h.rest no hno hother

theorem finished : RecoversTo sb target (recoverFromLog sb dev) := by
 rcases h.recovered with ⟨hempty, htarget⟩
 exact {
  size := by
   rw [hempty]
   exact Nat.zero_le _
  outside := by
   intro i hi
   rw [hempty] at hi
   omega
  slots := by
   intro i hi
   rw [hempty] at hi
   omega
  rest := fun no hno _ => htarget no hno }
end

theorem of_recovering {crashed : Device} (h : RecoversTo sb target crashed)
  (hrecovering : Recovering sb crashed dev) : RecoversTo sb target dev := by
 induction hrecovering with
 | crash => exact h
 | interrupted k _ hk ih => exact ih.interrupted hk
 | finished _ ih => exact ih.finished

end RecoversTo

namespace CommitState
variable {sb : LogLayout} {s next : CommitState}

def contents (s : CommitState) (no : BlockNo) : BlockData :=
 match s.cache.search no with
 | some a => (s.cache.heap a).data
 | none => s.disk.dev no

/-!
# Crashes during a commit
-/

theorem contents_eq_latest (hlog : Inv sb s.log)
  (hinv : CommitInv sb s) {t : Tid} (ht : (s.log.op t).commits)
  (hstage : s.stage = .start) {no : BlockNo} (hno : ¬ sb.InLog no) :
  s.contents no = s.disk.latest no := by
 have hexposed : forall i, s.stage.installed s.log.header.numBlocks ≤ i ->
  i < s.stage.unpinned s.log.header.numBlocks ->
  s.log.header.blockNo i ≠ no := by
  intro i _ hi
  rw [hstage] at hi
  exact absurd hi (Nat.not_lt_zero i)
 unfold contents
 cases hsearch : s.cache.search no with
 | some a =>
  rcases CacheState.search_some hsearch with ⟨ha, hano⟩
  have hclean := hinv.contents.clean a ha (clean_of_committing hlog hinv ht a)
  rw [hano] at hclean
  exact hclean hno hexposed
 | none =>
  exact dev_eq_latest_of_miss hinv (fun x hx => CacheState.search_none hsearch hx) hno hexposed

theorem recoversTo_latest (hinv : CommitInv sb s) (hstage : s.stage.beforeCommit = false) :
  RecoversTo sb s.disk.latest s.disk.dev where
 size := hinv.disk.size
 outside := fun i hi => (hinv.disk.entries i hi).left
 slots := fun i hi => (hinv.disk.entries i hi).right
 rest := by
  intro no hno hother
  apply hinv.disk.dev_eq_latest hno
  intro i _ hi
  cases hinstalling : s.stage.installing with
  | true =>
   rcases hinv.disk.written hinstalling with ⟨hnum, hsame⟩
   rw [← hsame i hi]
   exact hother i (by rw [← hnum] at hi; exact hi)
  | false =>
   have hleaving : s.stage.leaving := by
    cases hcases : s.stage <;> simp_all [Stage.beforeCommit, Stage.installing, Stage.leaving]
   have hempty := hinv.emptied hleaving
   omega

theorem recoversTo_dev (hinv : CommitInv sb s) (hstage : s.stage.beforeCommit) :
  RecoversTo sb s.disk.dev s.disk.dev := by
 have hempty : (readHeader sb s.disk.dev).numBlocks = 0 := by
  apply hinv.disk.empty
  cases hcases : s.stage <;> simp_all [Stage.beforeCommit, Stage.committed, Stage.installing]
 exact {
  size := hinv.disk.size
  outside := fun i hi => (hinv.disk.entries i hi).left
  slots := fun i hi => absurd hi (by rw [hempty]; exact Nat.not_lt_zero i)
  rest := fun _ _ _ => rfl }

theorem batch_step (hlog : Inv sb s.log)
  (hidle : s.log.committing = false) {l : CommitLabel} (h : s.step sb l = some next) :
  next.disk.dev = s.disk.dev := by
 cases step_moves h with
 | sync hsyncs =>
  rw [hsyncs.disk]
  rfl
 | checkpoint ht hstatement =>
  have hbusy := hlog.committer _ ht
  rw [hidle] at hbusy
  cases hbusy
 | _ => rfl

theorem got_beforeCommit (stage : Stage) (c : CacheState) (t : Tid) :
  (stage.got c t).beforeCommit = stage.beforeCommit := by
 unfold Stage.got
 split
 · split <;> rfl
 · rfl

/--
What a commit keeps: the last contents, and, as long as the first `write_header`
is to come, the device outside the log area.
-/
structure Keeps (sb : SuperBlock) (s next : CommitState) : Prop where
 latest : next.disk.latest = s.disk.latest
 dev : next.stage.beforeCommit = true -> s.stage.beforeCommit = true ∧
  forall no, ¬ sb.InLog no -> next.disk.dev no = s.disk.dev no

namespace Keeps

theorem refl (sb : SuperBlock) (s : CommitState) : Keeps sb s s where
 latest := rfl
 dev := fun hstage => ⟨hstage, fun _ _ => rfl⟩

variable {sb : SuperBlock}

theorem trans {s mid next : CommitState} (hfirst : Keeps sb s mid) (hsecond : Keeps sb mid next) :
  Keeps sb s next where
 latest := by rw [hsecond.latest, hfirst.latest]
 dev := by
  intro hstage
  rcases hsecond.dev hstage with ⟨hmid, hdev⟩
  rcases hfirst.dev hmid with ⟨hstart, hdev'⟩
  refine ⟨hstart, ?_⟩
  intro no hno
  rw [hdev no hno, hdev' no hno]

variable {s next : CommitState}

theorem same_disk (hdisk : next.disk = s.disk)
  (hstage : next.stage.beforeCommit -> s.stage.beforeCommit) :
  Keeps sb s next where
 latest := by rw [hdisk]
 dev := by
  intro hbefore
  refine ⟨hstage hbefore, ?_⟩
  intro no _
  rw [hdisk]

theorem past (hlatest : next.disk.latest = s.disk.latest)
  (hstage : next.stage.beforeCommit = false) : Keeps sb s next where
 latest := hlatest
 dev := by
  intro hbefore
  rw [hstage] at hbefore
  cases hbefore

end Keeps

theorem keeps_checkpoint (hlog : Inv sb s.log) (hinv : CommitInv sb s) {t : Tid}
  (h : Statement sb s t next) : Keeps sb s next := by
 cases h with
 | enter hstage | logAcquire hstage hi hstep | unpin hstage hstep | logRelease hstage hstep =>
  exact Keeps.same_disk rfl (fun _ => by rw [hstage]; rfl)
 | @logWrite i a hstage =>
  have hi : i < s.log.header.numBlocks := by
   have hwithin := hinv.disk.within
   rw [hstage] at hwithin
   exact hwithin
  have hsize := size_le_maxLogSize hlog
  refine ⟨rfl, fun _ => ⟨by rw [hstage]; rfl, ?_⟩⟩
  intro no hno
  exact Device.write_other _ _ (DiskInv.slot_ne_of_outside (Nat.lt_of_lt_of_le hi hsize) hno)
 | homeAcquire hstage hstep =>
  refine Keeps.past rfl ?_
  rw [got_beforeCommit]
  rfl
 | _ => exact Keeps.past rfl rfl

theorem keeps_step (hlog : Inv sb s.log) (hinv : CommitInv sb s) (hbusy : s.log.committing)
  (hbusy' : next.log.committing) {l : CommitLabel} (hclient : s.Client sb l)
  (h : s.step sb l = some next) : Keeps sb s next := by
 have hnotrunning : forall t ctx, s.log.op t ≠ .running ctx := by
  intro t ctx hop
  rw [(stage_of_running hlog hinv hop).left] at hbusy
  cases hbusy
 cases step_moves h with
 | @back t no fresh c htarget hstep =>
  refine Keeps.same_disk rfl ?_
  intro hbefore
  cases ht : (s.log.op t).commits with
  | true => simpa [ht, got_beforeCommit] using hbefore
  | false => simpa [ht] using hbefore
 | sync hsyncs =>
  rcases sync_within_budget hlog (client_sync hclient).right hsyncs.log with ⟨ctx, hop, _⟩
  exact absurd hop (hnotrunning _ _)
 | endOp hpc hstep =>
  rcases step_endOp hstep with ⟨ctx, hends⟩
  exact absurd hends.op (hnotrunning _ _)
 | checkpoint ht hstatement => exact keeps_checkpoint hlog hinv hstatement
 | clearCommitting hstage hstep =>
  rcases step_clearCommitting hstep with ⟨_, heq⟩
  rw [heq] at hbusy'
  cases hbusy'
 | _ => exact Keeps.same_disk rfl id

/-!
# Batches

A batch begins with an empty log.  Operations begin, sync and end until the last
one of them ends, which is where the commit starts.
-/

def ClientOpen (sb : SuperBlock) (s : CommitState) (l : CommitLabel) : Prop :=
 s.Client sb l ∧ s.log.committing = false

instance (sb : SuperBlock) (s : CommitState) (l : CommitLabel) : Decidable (s.ClientOpen sb l) :=
 inferInstanceAs (Decidable (_ ∧ _))

def ClientCommitting (sb : SuperBlock) (s : CommitState) (l : CommitLabel) : Prop :=
 s.Client sb l ∧ s.log.committing = true

instance (sb : SuperBlock) (s : CommitState) (l : CommitLabel) :
  Decidable (s.ClientCommitting sb l) :=
 inferInstanceAs (Decidable (_ ∧ _))

structure Batch (sb : SuperBlock) (before commit : CommitState) : Prop where
 reachable : Reachable (commitSystem sb) (Client sb) before
 empty : before.log.header.numBlocks = 0
 operations : exists last t, Reaches (commitSystem sb) (ClientOpen sb) before last ∧
   ClientOpen sb last (.endOp t) ∧
   last.step sb (.endOp t) = some commit
 committing : commit.log.committing = true

namespace Batch
variable {before commit crashed : CommitState}

section
variable (h : Batch sb before commit)
include h

theorem commit_reachable : Reachable (commitSystem sb) (Client sb) commit := by
 rcases h.operations with ⟨last, t, hrun, hguard, hstep⟩
 exact reachable_step (reachable_reaches h.reachable
  (reaches_mono (fun _ _ hboth => hboth.left) hrun)) hguard.left hstep

theorem start : commit.stage = .start ∧ exists t, (commit.log.op t).commits := by
 rcases h.operations with ⟨last, t, _, hguard, hstep⟩
 have hcommitting := h.committing
 cases step_moves hstep with
 | @endOp _ log hpc hlog =>
  rcases step_endOp hlog with ⟨ctx, hends⟩
  rcases hends.last with ⟨_, _, hlast⟩ | ⟨_, hsame, _⟩
  · exact ⟨if_pos hlast, t, by change (log.op t).commits = true; rw [hlast]; rfl⟩
  rw [hsame, hguard.right] at hcommitting
  cases hcommitting
 | quiet hl hlog => cases hl

theorem dev_eq : commit.disk.dev = before.disk.dev := by
 rcases h.operations with ⟨last, t, hrun, hguard, hstep⟩
 have hreachable : forall mid, Reaches (commitSystem sb) (ClientOpen sb) before
   mid -> Inv sb mid.log := by
  intro mid hmid
  exact log_of_reachable (reachable_reaches h.reachable
   (reaches_mono (fun _ _ hboth => hboth.left) hmid))
 have hlast : last.disk.dev = before.disk.dev := by
  apply reaches_invariant (fun s => s.disk.dev = before.disk.dev) _ hrun rfl
  intro mid l after hmid hsame hopen hafter
  rw [batch_step (hreachable mid hmid) hopen.right hafter]
  exact hsame
 rw [batch_step (hreachable last hrun) hguard.right hstep]
 exact hlast

variable (hrun : Reaches (commitSystem sb) (ClientCommitting sb) commit crashed)
include hrun

theorem crash_reachable : Reachable (commitSystem sb) (Client sb) crashed :=
 reachable_reaches h.commit_reachable (reaches_mono (fun _ _ hboth => hboth.left) hrun)

theorem keeps (hbusy : crashed.log.committing) : Keeps sb commit crashed := by
 have hkeeps : crashed.log.committing -> Keeps sb commit crashed := by
  apply reaches_invariant (fun s => s.log.committing = true -> Keeps sb commit s) _ hrun
  · intro _
    exact Keeps.refl _ _
  intro mid l after hmid hinv hguard hstep hafter
  have hreach := h.crash_reachable hmid
  exact (hinv hguard.right).trans (keeps_step (log_of_reachable hreach)
   (commitInv_reachable hreach) hguard.right hafter hguard.left hstep)
 exact hkeeps hbusy
end

end Batch

end CommitState

/--
A crash during the commit of a batch, followed by a recovery that may be
interrupted any number of times, leaves the whole batch or nothing of it.
-/
theorem crash_atomic {sb : LogLayout} {before commit crashed : CommitState}
  {dev : Device} (hbatch : CommitState.Batch sb before commit)
  (hrun : Reaches (commitSystem sb)
    (CommitState.ClientCommitting sb) commit crashed)
  (hbusy : crashed.log.committing = true)
  (hrecovering : Recovering sb crashed.disk.dev dev) :
  (readHeader sb (recoverFromLog sb dev)).numBlocks = 0 ∧
    ((forall no, ¬ sb.InLog no -> recoverFromLog sb dev no = before.disk.dev no) ∨
      (forall no, ¬ sb.InLog no ->
        recoverFromLog sb dev no = commit.contents no)) := by
 have hinv := commitInv_reachable (hbatch.crash_reachable hrun)
 have hkeeps := hbatch.keeps hrun hbusy
 cases hstage : crashed.stage.beforeCommit with
 | true =>
  have hrecovered := (recoversTo_dev hinv hstage).of_recovering hrecovering |>.recovered
  refine ⟨hrecovered.left, .inl ?_⟩
  intro no hno
  rw [hrecovered.right no hno, (hkeeps.dev hstage).right no hno, hbatch.dev_eq]
 | false =>
  have hrecovered := (recoversTo_latest hinv hstage).of_recovering
   hrecovering |>.recovered
  have hcommit := hbatch.commit_reachable
  rcases hbatch.start with ⟨hstart, t, ht⟩
  refine ⟨hrecovered.left, .inr ?_⟩
  intro no hno
  rw [hrecovered.right no hno, hkeeps.latest,
   contents_eq_latest (log_of_reachable hcommit)
    (commitInv_reachable hcommit) ht hstart hno]

/-- A crash right after the first `write_header`, and one during the recovery. -/
theorem crash_atomic_header_written : exists (before commit crashed : CommitState) (dev : Device),
    (readHeader mkfsLayout crashed.disk.dev).numBlocks = 1 ∧
    commit.contents 500 ≠ before.disk.dev 500 ∧
    dev = replay mkfsLayout (readHeader mkfsLayout crashed.disk.dev) 1
      crashed.disk.dev ∧
    (readHeader mkfsLayout
      (recoverFromLog mkfsLayout dev)).numBlocks = 0 ∧
    ((forall no, ¬ mkfsLayout.InLog no ->
        recoverFromLog mkfsLayout dev no = before.disk.dev no) ∨
      (forall no, ¬ mkfsLayout.InLog no -> recoverFromLog mkfsLayout dev no =
          commit.contents no)) := by
 have hinitial : (commitSystem mkfsLayout).initial
  (boot mkfsLayout zeroDevice) :=
  boot_initial zeroDevice_log_empty
 rcases exists_reaches_of_execute (commitSystem mkfsLayout)
  (ClientOpen mkfsLayout)
  (boot mkfsLayout zeroDevice)
  [.beginOp 0, .acquire 0 500 0,
   .modify 0 0 (fun _ => 1), .sync 0 0,
   .release 0 0]
  (fun last => last.ClientOpen mkfsLayout (.endOp 0) ∧
   exists commit, commit ∈ last.step mkfsLayout (.endOp 0) ∧
    commit.log.committing = true ∧ commit.contents 500 ≠ zeroDevice 500 ∧
    (execute (commitSystem mkfsLayout)
     (ClientCommitting mkfsLayout) commit
     (List.replicate 6 (.checkpoint 0 0))).any (fun crashed =>
      decide (crashed.log.committing = true ∧ (readHeader mkfsLayout
       crashed.disk.dev).numBlocks = 1)) = true)
  (by decide +kernel) with ⟨last, hlast, hguard, commit, hstep, hcommitting, hchanged, htest⟩
 rcases exists_reaches_of_execute _ _ _ _ _ htest with ⟨crashed, hcrashed, hbusy, hheader⟩
 refine ⟨boot mkfsLayout zeroDevice, commit, crashed, _,
  hheader, hchanged, rfl, ?_⟩
 apply crash_atomic _ hcrashed hbusy
 · exact .interrupted 1 .crash (by rw [hheader])
 · exact ⟨⟨_, hinitial, .refl _⟩, rfl, ⟨last, 0, hlast, hguard, hstep⟩, hcommitting⟩

end OSLab.Fs
