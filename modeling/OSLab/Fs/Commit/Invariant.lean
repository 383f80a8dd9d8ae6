import OSLab.Fs.Commit.Coherence
import OSLab.Fs.Commit.Moves

/-!
# The commit invariant

The invariants of the block list, the log bookkeeping, the disk and the cached
contents hold together along every run of disciplined clients.
-/

namespace OSLab.Fs.CommitState
open Common Foundation Function TransitionSystem CacheState LogState

def running (s : CommitState) (t : Tid) : Bool := (s.log.op t).ctx?.isSome

/-!
# The invariant
-/

structure CommitInv (sb : LogLayout) (s : CommitState) : Prop where
 idle : s.log.committing = false -> s.stage = .idle
 emptied : s.stage.leaving = true -> s.log.header.numBlocks = 0
 disk : DiskInv sb s.log.header s.stage s.disk
 contents : ContentsInv sb s.log.header (s.stage.installed s.log.header.numBlocks)
  (s.stage.unpinned s.log.header.numBlocks)
  s.disk.latest s.running s.dirty s.cache
 hand : forall t, (s.log.op t).commits = true ->
  HandInv s.log.header s.stage s.disk.latest s.cache t

variable {sb : LogLayout} {s next : CommitState}

theorem commitInv_initial (h : s.Initial sb) : CommitInv sb s := by
 have hnum := h.log.numBlocks
 have hop : forall t, s.log.op t = .outside := h.log.op
 exact {
  idle := fun _ => h.stage
  emptied := fun _ => hnum
  disk := by
   rw [h.stage]
   exact {
    within := trivial
    outside := by
     intro i hi
     omega
    homeData := by
     intro no _
     rw [h.home, h.cont]
    homeLe := by
     intro no
     rw [h.home]
     exact Nat.zero_le _
    current := by
     intro no _ _
     rw [h.home, h.ver]
    slots := fun i hi => absurd hi (Nat.not_lt_zero i)
    buffer := by nofun
    empty := fun _ => h.header
    size := by
     rw [h.header]
     exact Nat.zero_le _
    entries := by
     intro i hi
     rw [h.header] at hi
     omega
    written := by
     intro hinstalling
     cases hinstalling }
  contents := {
   pinned := by
    intro i _ hi
    omega
   clean := by
    intro a ha
    rw [h.cache.left] at ha
    cases ha
   dirtyHeld := by
    intro a ha
    rw [h.dirty] at ha
    cases ha }
  hand := by
   intro t ht
   rw [hop t] at ht
   cases ht }

variable {t : Tid}

theorem commits_of_userCode (h : s.userCode t) : (s.log.op t).commits = false := by
 unfold userCode at h
 cases hpc : s.log.op t <;> simp_all [OpPc.commits]

theorem stage_of_running (hlog : Inv sb s.log)
  (hinv : CommitInv sb s) {ctx : OpContext} (h : s.log.op t = .running ctx) :
  s.log.committing = false ∧ s.stage = .idle := by
 have hcommitting : s.log.committing = false := by
  cases hbusy : s.log.committing with
  | false => rfl
  | true =>
   have hnone := hlog.drained hbusy t
   rw [h] at hnone
   cases hnone
 exact ⟨hcommitting, hinv.idle hcommitting⟩

/-!
# Cache steps

A miss reads the last contents of a block unless the block is exposed: a block
of the open batch that is not exposed and not installed has its pin, so it
cannot be missing.
-/

variable {no : BlockNo}

theorem dev_eq_latest_of_miss (hinv : CommitInv sb s)
  (hmiss : forall x, x ∈ s.cache.head -> (s.cache.view x).blockNo ≠ no) (hno : ¬ sb.InLog no)
  (hexposed : forall i, s.stage.installed s.log.header.numBlocks ≤ i ->
    i < s.stage.unpinned s.log.header.numBlocks ->
    s.log.header.blockNo i ≠ no) :
  s.disk.dev no = s.disk.latest no := by
 apply hinv.disk.dev_eq_latest hno
 intro i hi hin
 by_cases hpinned : i < s.stage.unpinned s.log.header.numBlocks
 · exact hexposed i hi hpinned
 rcases hinv.contents.pinned i (by omega) hin with ⟨x, hx, hxno, _⟩
 rw [← hxno]
 exact hmiss x hx

variable {c : CacheState} {fresh : Addr} {ifBack : Bool}

theorem contents_acquireSection (hinv : CommitInv sb s)
  (h : s.cache.acquireSection t no ifBack fresh (s.disk.dev no) = some c) :
  ContentsInv sb s.log.header (s.stage.installed s.log.header.numBlocks)
    (s.stage.unpinned s.log.header.numBlocks)
    s.disk.latest s.running s.dirty c := by
 rcases acquireSection_cases h with ⟨a, hquiet, _⟩ | ⟨_, ⟨a, _, htakes⟩ | hloads⟩
 · exact hinv.contents.quiet hquiet
 · exact hinv.contents.takes htakes
 exact hinv.contents.loads hloads
  (fun hno hexposed => dev_eq_latest_of_miss hinv hloads.missed hno hexposed)

theorem commitInv_user (hlist : ListInv s.cache) (hinv : CommitInv sb s) {l : CacheLabel}
    {dirty : Addr -> Bool} (hstep : s.cache.step l = some c)
    (huser : (s.log.op l.actor).commits = false) (hcontents : ContentsInv sb s.log.header
      (s.stage.installed s.log.header.numBlocks) (s.stage.unpinned s.log.header.numBlocks)
      s.disk.latest s.running dirty c) :
    CommitInv sb { s with cache := c, dirty := dirty } := { hinv with
 contents := hcontents
 hand := by
  intro t ht
  apply (hinv.hand t ht).untouched
  apply step_untouched hlist hstep
  intro heq
  rw [← heq] at huser
  rw [huser] at ht
  cases ht }

variable {cache c : CacheState} {device : BlockData}

theorem step_acquire (h : cache.step (.acquire t no fresh device) = some c) :
  cache.acquireSection t no false fresh device = some c := by
 simp only [CacheState.step] at h
 split at h
 · exact h
 · cases h

theorem step_back (htarget : backTarget (cache.pc t) = some no)
  (h : cache.step (.back t fresh device) = some c) :
  cache.acquireSection t no true fresh device = some c := by
 simp only [CacheState.step, htarget] at h
 exact h

/-!
# The committing thread gets a block
-/

def Acquiring (stage : Stage) (i : Nat) : Prop :=
 stage = .toLogAcquiring i ∨ exists data, stage = .persistAcquiring i data

variable {stage : Stage} {i : Nat}

theorem acquiring_fields (h : Acquiring stage i) :
  stage.block? = none ∧ stage.copied? = none ∧ stage.wants? = some i := by
 rcases h with h | ⟨data, h⟩ <;> rw [h] <;> exact ⟨rfl, rfl, rfl⟩

theorem acquiring_of_wants (h : stage.wants? = some i) : Acquiring stage i := by
 cases stage with
 | toLogAcquiring j =>
  cases h
  exact .inl rfl
 | persistAcquiring j data =>
  cases h
  exact .inr ⟨data, rfl⟩
 | _ => cases h

variable {header : LogHeader}

theorem diskInv_got {disk : Disk} (h : DiskInv sb header stage disk) (c : CacheState) (t : Tid) :
  DiskInv sb header (stage.got c t) disk := by
 have hwithin := h.within
 have hbuffer := h.buffer
 unfold Stage.got
 split
 · split
   · exact h.move_stage hwithin (Nat.le_refl _) rfl id id (fun i data hnone => by cases hnone)
   · exact h.move_stage hwithin (Nat.le_refl _) rfl id id hbuffer
   · exact h
 · exact h

theorem got_progress (stage : Stage) (c : CacheState) (t : Tid) (n : Nat) :
  (stage.got c t).installed n = stage.installed n ∧ (stage.got c t).unpinned n = stage.unpinned n ∧
    (stage.got c t).leaving = stage.leaving := by
 unfold Stage.got
 split
 · split <;> exact ⟨rfl, rfl, rfl⟩
 · exact ⟨rfl, rfl, rfl⟩

theorem hand_got {latest : BlockNo -> BlockData} (hstage : Acquiring stage i)
  (h : cache.acquireSection t (header.blockNo i) ifBack fresh device = some c) :
  HandInv header (stage.got c t) latest c t := by
 have hgiven : forall a, c.pc t = .idle -> c.held t = a :: cache.held t ->
  (c.view a).blockNo = header.blockNo i ->
  HandInv header (stage.got c t) latest c t := by
  intro a hpc hheld hno
  have hgot : (stage.got c t).block? = some (i, a) ∧
   (stage.got c t).copied? = none ∧ (stage.got c t).wants? = none := by
   unfold Stage.got
   rw [hpc, hheld]
   rcases hstage with hstage | ⟨data, hstage⟩ <;> rw [hstage] <;>
    exact ⟨rfl, rfl, rfl⟩
  exact {
   block := by
    intro j b hblock
    rw [hgot.left] at hblock
    cases hblock
    rw [hheld]
    exact ⟨List.mem_cons_self, hno⟩
   copied := by
    intro j b hcopied
    rw [hgot.right.left] at hcopied
    cases hcopied
   acquiring := by
    rw [hpc, hgot.right.right]
    rfl }
 rcases acquireSection_cases h with ⟨a, hquiet, hpc⟩ | ⟨hpc, ⟨a, hno, htakes⟩ | hloads⟩
 · have hwaits : c.pc t = .waiting (header.blockNo i) a := by rw [hpc, update_self]
   have hgot : stage.got c t = stage := by
    unfold Stage.got
    rw [hwaits]
   rcases acquiring_fields hstage with ⟨hblock, hcopied, hwants⟩
   rw [hgot]
   exact {
    block := by
     intro j b hb
     rw [hblock] at hb
     cases hb
    copied := by
     intro j b hb
     rw [hcopied] at hb
     cases hb
    acquiring := by
     rw [hwaits, hwants]
     rfl }
 · apply hgiven a
   · rw [hpc, update_self]
   · rw [htakes.held, update_self]
   rw [htakes.view, update_self]
   exact hno
 apply hgiven fresh
 · rw [hpc, update_self]
 · rw [hloads.held, update_self]
 · rw [hloads.view, update_self]

theorem commitInv_own (hlog : Inv sb s.log)
  (ht : (s.log.op t).commits) (hleaving : stage.leaving = false)
  (hdisk : DiskInv sb s.log.header stage s.disk) (hcontents : ContentsInv sb s.log.header
    (stage.installed s.log.header.numBlocks) (stage.unpinned s.log.header.numBlocks)
    s.disk.latest s.running s.dirty c) (hhand : HandInv s.log.header stage s.disk.latest c t) :
  CommitInv sb { s with cache := c, stage := stage } where
 idle := by
  intro hidle
  have hbusy := hlog.committer t ht
  rw [hidle] at hbusy
  cases hbusy
 emptied := by
  intro hleaves
  rw [hleaving] at hleaves
  cases hleaves
 disk := hdisk
 contents := hcontents
 hand := by
  intro u hu
  have hut : u = t := hlog.oneCommitter u t hu ht
  rw [hut]
  exact hhand

theorem commitInv_got (hlog : Inv sb s.log) (hinv : CommitInv sb s)
  {acquiring : Stage} (ht : (s.log.op t).commits)
  (hstage : Acquiring acquiring i) (hdisk : DiskInv sb s.log.header acquiring s.disk)
  (hsame : acquiring.installed s.log.header.numBlocks = s.stage.installed s.log.header.numBlocks ∧
    acquiring.unpinned s.log.header.numBlocks = s.stage.unpinned s.log.header.numBlocks)
  (h : s.cache.acquireSection t (s.log.header.blockNo i) ifBack fresh
    (s.disk.dev (s.log.header.blockNo i)) = some c) :
  CommitInv sb { s with cache := c, stage := acquiring.got c t } := by
 have hprogress := got_progress acquiring c t s.log.header.numBlocks
 have hcontents := contents_acquireSection hinv h
 rw [← hsame.left, ← hsame.right, ← hprogress.left, ← hprogress.right.left] at hcontents
 have hleaving : acquiring.leaving = false := by
  rcases hstage with hstage | ⟨data, hstage⟩ <;> rw [hstage] <;> rfl
 apply commitInv_own hlog ht
 · rw [hprogress.right.right]
   exact hleaving
 · exact diskInv_got hdisk c t
 · exact hcontents
 · exact hand_got hstage h

/-!
# Log steps
-/

variable {log : LogState} {syncs : Tid -> List (BlockNo × Nat)}

section
variable (hinv : CommitInv sb s)
include hinv

theorem commitInv_log (hheader : log.header = s.log.header)
  (hcommitting : log.committing = s.log.committing)
  (hcommits : forall t, (log.op t).commits = (s.log.op t).commits)
  (hrunning : forall t a, s.running t -> a ∈ s.cache.held t ->
    s.dirty a -> (log.op t).ctx?.isSome) :
  CommitInv sb { s with log := log, syncs := syncs } where
 idle := by
  intro hidle
  apply hinv.idle
  rw [← hcommitting]
  exact hidle
 emptied := by
  simp only [hheader]
  exact hinv.emptied
 disk := by
  simp only [hheader]
  exact hinv.disk
 contents := by
  simp only [hheader]
  exact hinv.contents.change_running hrunning
 hand := by
  intro t ht
  simp only [hheader]
  apply hinv.hand t
  rw [← hcommits t]
  exact ht

theorem commitInv_log_quiet (h : s.log.Quiet log) :
  CommitInv sb { s with log := log, syncs := syncs } := by
 apply commitInv_log hinv h.header h.committing h.commits
 intro t a hrun _ _
 rw [h.ctx]
 exact hrun

theorem commitInv_begins (h : s.log.Begins t log) :
  CommitInv sb { s with log := log, syncs := syncs } := by
 rcases h with ⟨_, _, _, hcommits, rfl⟩
 refine commitInv_log hinv rfl rfl ?_ ?_
 · exact apply_update (fun _ => rfl) hcommits.symm
 intro u a hrun _ _
 by_cases hu : u = t
 · subst hu
   simp [OpPc.ctx?]
 simp only [update_of_ne hu]
 exact hrun
end

section
variable (hlog : Inv sb s.log)
include hlog

variable {a : Addr}

theorem commitInv_sync (hlist : ListInv s.cache) (hinv : CommitInv sb s)
  (hclient : s.Client sb (.sync t a)) (h : s.Syncs t a next) : CommitInv sb next := by
 have hbudget := (client_sync hclient).right
 have hout : ¬ sb.InLog (s.cache.view a).blockNo := (client_sync hclient).left
 rcases sync_within_budget hlog hbudget h.log with ⟨ctx, hop, hcases⟩
 rcases stage_of_running hlog hinv hop with ⟨hidle, hstage⟩
 have hheader : s.log.header.Extends next.log.header (s.cache.view a).blockNo ∧
  next.log.committing = false ∧
  (forall u, (next.log.op u).commits = (s.log.op u).commits) ∧
  (forall u, (next.log.op u).ctx?.isSome = (s.log.op u).ctx?.isSome) ∧
  (s.log.header.logged (s.cache.view a).blockNo -> next.log.header = s.log.header) := by
  rcases hcases with ⟨hlogged, heq⟩ | hadds
  · rw [heq]
    exact ⟨LogHeader.extends_logged hlogged, hidle, fun _ => rfl, fun _ => rfl, fun _ => rfl⟩
  rcases hadds with ⟨_, hnew, _, heq⟩
  rw [heq]
  refine ⟨LogHeader.extends_push _ _, hidle, ?_, ?_, ?_⟩
  · exact apply_update (fun _ => rfl) (commits_of_running hop).symm
  · intro u
    by_cases hu : u = t
    · subst hu
      simp [hop, OpPc.ctx?]
    · simp [hu]
  intro hlogged
  have hfalse : s.log.header.logged (s.cache.view a).blockNo = false := hnew
  rw [hlogged] at hfalse
  cases hfalse
 rcases hheader with ⟨hextends, hcommitting, hcommits, hrunning, hsame⟩
 have hcache : next.cache.head = s.cache.head ∧ next.cache.held = s.cache.held ∧
  (forall x, x ≠ a -> next.cache.view x = s.cache.view x) ∧
  (next.cache.view a).blockNo = (s.cache.view a).blockNo ∧
  (next.cache.view a).data = (s.cache.view a).data ∧
  ((s.cache.view a).pinned -> (next.cache.view a).pinned) ∧
  (s.log.header.logged (s.cache.view a).blockNo ∨ (next.cache.view a).pinned) := by
  rcases h.cache with ⟨hlogged, heq⟩ | ⟨_, hstep⟩
  · rw [heq]
    exact ⟨rfl, rfl, fun _ _ => rfl, rfl, rfl, id, .inl hlogged⟩
  have hchanges := (modifyHeld_cases hstep rfl rfl).right
  refine ⟨hchanges.head, hchanges.held, ?_, ?_, ?_, ?_, ?_⟩
  · intro x hx
    rw [hchanges.view, update_of_ne hx]
  all_goals rw [hchanges.view, update_self]
  · rfl
  · intro _
    rfl
  · exact .inr rfl
 rcases hcache with ⟨hhead, hheld, hother, hno, hdata, hpin, hpinned⟩
 have hlisted := hlist.heldListed t a h.held
 have hdisk := hinv.disk
 have hcontents := hinv.contents
 rw [hstage] at hdisk hcontents
 have hstage' : next.stage = .idle := by rw [h.stage, hstage]
 exact {
  idle := fun _ => hstage'
  emptied := by
   intro hleaving
   rw [hstage'] at hleaving
   cases hleaving
  disk := by
   rw [hstage', h.disk]
   exact hdisk.record _ hout hextends
  contents := by
   rw [hstage', h.disk, h.dirty]
   refine (hcontents.sync hlist hlisted hhead hheld hother hno hdata hpin ?_).change_running ?_
   · intro i hi
     rcases hpinned with hlogged | hpinned
     · rw [hsame hlogged] at hi ⊢
       exact .inl ⟨i, hi, rfl⟩
     rcases hextends.only i hi with hnew | hold
     · exact .inr ⟨hnew, hpinned⟩
     · exact .inl hold
   intro u x hrun _ _
   unfold running
   rw [hrunning u]
   exact hrun
  hand := by
   intro u hu
   rw [hcommits u] at hu
   have hbusy := hlog.committer u hu
   rw [hidle] at hbusy
   cases hbusy }

section
variable (hinv : CommitInv sb s)
include hinv

theorem commitInv_endOp (hclient : s.Client sb (.endOp t)) (hpc : s.cache.pc t = .idle)
    (hstep : s.log.step (.endOp t) = some log) :
    CommitInv sb { s with
 log := log
 stage := if log.op t = .checkpoint then .start else s.stage } := by
 rcases step_endOp hstep with ⟨ctx, hends⟩
 rcases stage_of_running hlog hinv hends.op with ⟨hidle, hstage⟩
 have hclean : forall a, a ∈ s.cache.held t -> s.dirty a = false := by
  have hall : s.client sb (.endOp t) := hclient
  simp only [client, List.all_eq_true, Bool.not_eq_true'] at hall
  exact hall
 have hrunning : forall u a, s.running u -> a ∈ s.cache.held u ->
  s.dirty a -> (log.op u).ctx?.isSome := by
  intro u a hrun ha hdirty
  have hut : u ≠ t := by
   rintro rfl
   rw [hclean a ha] at hdirty
   cases hdirty
  rw [hends.ctx u hut]
  exact hrun
 have hnobody : forall u, u ≠ t -> (log.op u).commits = false := by
  intro u hu
  rw [hends.commits u hu]
  cases hcommits : (s.log.op u).commits with
  | false => rfl
  | true =>
   have hbusy := hlog.committer u hcommits
   rw [hidle] at hbusy
   cases hbusy
 have hcontents := hinv.contents.change_running hrunning
 have hdisk := hinv.disk
 rw [hstage] at hcontents hdisk
 rw [← hends.header] at hcontents hdisk
 rcases hends.last with ⟨_, hcommitting, hlast⟩ | ⟨_, hcommitting, hnot⟩
 · rw [if_pos hlast]
   exact {
    idle := by
     intro hfalse
     rw [hcommitting] at hfalse
     cases hfalse
    emptied := by
     intro hleaving
     cases hleaving
    disk := hdisk.move_stage trivial (Nat.le_refl _) rfl id id (fun i data hnone => by cases hnone)
    contents := hcontents
    hand := by
     intro u hu
     have hut : u = t := by
      by_contra hne
      rw [hnobody u hne] at hu
      cases hu
     rw [hut]
     exact HandInv.empty hpc rfl rfl rfl }
 have hnotlast : log.op t ≠ .checkpoint := by
  intro heq
  rw [heq] at hnot
  cases hnot
 rw [if_neg hnotlast, hstage]
 exact {
  idle := fun _ => rfl
  emptied := by
   intro hleaving
   cases hleaving
  disk := hdisk
  contents := hcontents
  hand := by
   intro u hu
   by_cases hut : u = t
   · rw [hut, hnot] at hu
     cases hu
   rw [hnobody u hut] at hu
   cases hu }

theorem commitInv_clearCommitting
  (hstage : s.stage = .done) (hstep : s.log.step (.clearCommitting t) = some log) :
  CommitInv sb { s with log := log, stage := .idle } := by
 rcases step_clearCommitting hstep with ⟨hop, rfl⟩
 have hnum : s.log.header.numBlocks = 0 := hinv.emptied (by rw [hstage]; rfl)
 have hdisk := hinv.disk
 have hcontents := hinv.contents
 rw [hstage] at hdisk hcontents
 exact {
  idle := fun _ => rfl
  emptied := by nofun
  disk := hdisk.move_stage trivial (Nat.zero_le _) hnum.symm id (fun _ => rfl)
   (fun i data hnone => by cases hnone)
  contents := by
   have hempty := hcontents.emptied 0 (Nat.le_refl _) hnum
   apply hempty.change_running
   intro u a hrun _ _
   unfold running at hrun ⊢
   by_cases hu : u = t
   · rw [hu, hop] at hrun
     cases hrun
   · simpa [hu] using hrun
  hand := by
   intro u hu
   by_cases hut : u = t
   · subst hut
     simp [OpPc.commits] at hu
   simp only [update_of_ne hut] at hu
   exact absurd (hlog.oneCommitter u t hu (by rw [hop]; rfl)) hut }

/-!
# The statements of `checkpoint`
-/

variable (ht : (s.log.op t).commits)
include ht

theorem commitInv_statement {disk : Disk} (hleaving : stage.leaving -> s.log.header.numBlocks = 0)
  (hdisk : DiskInv sb s.log.header stage disk) (hlatest : disk.latest = s.disk.latest)
  (hcontents : ContentsInv sb s.log.header
    (stage.installed s.log.header.numBlocks) (stage.unpinned s.log.header.numBlocks)
    s.disk.latest s.running s.dirty s.cache) (hblock : forall i a, stage.block? = some (i, a) ->
    s.stage.block? = some (i, a)) (hcopied : forall i a, stage.copied? = some (i, a) ->
    s.stage.copied? = some (i, a)) (hwants : s.stage.wants? = none ∧ stage.wants? = none) :
  CommitInv sb { s with stage := stage, disk := disk } where
 idle := by
  intro hidle
  have hbusy := hlog.committer t ht
  rw [hidle] at hbusy
  cases hbusy
 emptied := hleaving
 disk := hdisk
 contents := by
  simp only [hlatest]
  exact hcontents
 hand := by
  intro u hu
  have hhand := hinv.hand u hu
  simp only [hlatest]
  exact {
   block := fun i a h => hhand.block i a (hblock i a h)
   copied := fun i a h => hhand.copied i a (hcopied i a h)
   acquiring := by
    rw [hhand.idle hwants.left, hwants.right]
    rfl }

theorem commitInv_reset (hstep : s.log.step (.resetHeader t) = some log)
  (hwants : s.stage.wants? = none) (hdone : s.stage.unpinned s.log.header.numBlocks ≤
    s.stage.installed s.log.header.numBlocks)
  (hstage : stage.installed 0 = 0 ∧ stage.unpinned 0 = 0 ∧
    stage.block? = none ∧ stage.copied? = none ∧ stage.wants? = none)
  (hdisk : DiskInv sb { s.log.header with numBlocks := 0 } stage s.disk) :
  CommitInv sb { s with log := log, stage := stage } := by
 rcases step_resetHeader hstep with ⟨hop, rfl⟩
 rcases hstage with ⟨hinstalled, hunpinned, hblock, hcopied, hwants'⟩
 exact {
  idle := by
   intro hidle
   have hbusy := hlog.committer t ht
   rw [hidle] at hbusy
   cases hbusy
  emptied := fun _ => rfl
  disk := hdisk
  contents := by
   simp only [hinstalled, hunpinned]
   apply (hinv.contents.emptied _ hdone rfl).change_running
   intro u a hrun _ _
   unfold running at hrun ⊢
   by_cases hu : u = t
   · rw [hu, hop] at hrun
     cases hrun
   · simpa [hu] using hrun
  hand := by
   intro u hu
   have hcommits : (s.log.op u).commits := by
    by_cases hut : u = t
    · rw [hut]
      exact ht
    · simpa [hut] using hu
   exact HandInv.empty ((hinv.hand u hcommits).idle hwants) hblock hcopied hwants' }

theorem clean_of_committing (a : Addr) : s.dirty a = false := by
 cases hdirty : s.dirty a with
 | false => rfl
 | true =>
  rcases hinv.contents.dirtyHeld a hdirty with ⟨u, _, hrun⟩
  have hnone := hlog.drained (hlog.committer t ht) u
  unfold running at hrun
  rw [hnone] at hrun
  cases hrun
end

theorem size_le_maxLogSize : s.log.header.numBlocks ≤ sb.maxLogSize := by
 have hroom := hlog.room
 have hused := hlog.ledger.total_nonneg
 have hsize := hlog.size
 omega

theorem data_of_block (hlist : ListInv s.cache) (hinv : CommitInv sb s)
  (ht : (s.log.op t).commits) (hblock : s.stage.block? = some (i, a))
  (hpinned : s.stage.unpinned s.log.header.numBlocks = i) (hi : i < s.log.header.numBlocks) :
  (s.cache.view a).data = s.disk.latest (s.log.header.blockNo i) := by
 rcases (hinv.hand t ht).block i a hblock with ⟨hheld, hno⟩
 have hclean := hinv.contents.clean a (hlist.heldListed t a hheld)
  (clean_of_committing hlog hinv ht a)
 rw [hno, hpinned] at hclean
 apply hclean (hinv.disk.outside i hi)
 intro j _ hji
 exact hlog.distinct j i hji hi

theorem commitInv_release (hinv : CommitInv sb s) (ht : (s.log.op t).commits)
  (hstep : s.cache.step (.release t a) = some c) (hdisk : DiskInv sb s.log.header stage s.disk)
  (hsame : stage.installed s.log.header.numBlocks = s.stage.installed s.log.header.numBlocks ∧
    stage.unpinned s.log.header.numBlocks = s.stage.unpinned s.log.header.numBlocks)
  (hstage : stage.leaving = false ∧ stage.block? = none ∧
    stage.copied? = none ∧ stage.wants? = none) :
  CommitInv sb { s with cache := c, stage := stage } := by
 rcases cacheRelease_cases hstep with ⟨hidle, hreleases, woken, hpc⟩
 rcases hstage with ⟨hleaving, hblock, hcopied, hwants'⟩
 apply commitInv_own hlog ht hleaving hdisk
 · rw [hsame.left, hsame.right]
   exact hinv.contents.releases hreleases (clean_of_committing hlog hinv ht a)
 refine HandInv.empty ?_ hblock hcopied hwants'
 rw [← target_eq_none, hpc, target_wakeOption, hidle]
 rfl
end

/-!
One lemma for each statement of `checkpoint` that does something to the cache,
the device or the header.
-/

section Statements
variable (hlog : Inv sb s.log)
 (hlist : ListInv s.cache) (hinv : CommitInv sb s)
 {t : Tid} (ht : (s.log.op t).commits = true)

include hlog hinv ht

theorem commitInv_emptyLog {log : LogState} (hstage : s.stage = .start)
  (hempty : s.log.header.numBlocks = 0) (hstep : s.log.step (.resetHeader t) = some log) :
  CommitInv sb { s with log := log, stage := .done } := by
 have hdisk := hinv.disk
 rw [hstage] at hdisk
 apply commitInv_reset hlog hinv ht hstep
 · rw [hstage]
   rfl
 · rw [hstage]
   exact Nat.le_refl _
 · exact ⟨rfl, rfl, rfl, rfl, rfl⟩
 have hheader : { s.log.header with numBlocks := 0 } = s.log.header := by rw [← hempty]
 rw [hheader]
 exact hdisk.move_stage trivial (by rw [hempty]; exact Nat.zero_le _) hempty (nofun) id
  (fun i data hnone => by cases hnone)

theorem commitInv_enter (hstage : s.stage = .start) :
  CommitInv sb { s with stage := .toLog 0 } := by
 have hdisk := hinv.disk
 have hcontents := hinv.contents
 rw [hstage] at hdisk hcontents
 refine commitInv_statement hlog hinv ht ?_ ?_ rfl hcontents ?_ ?_ ?_
 · nofun
 · exact hdisk.move_stage (Nat.zero_le _) (Nat.le_refl _) rfl id id
    (fun i data hnone => by cases hnone)
 · nofun
 · nofun
 rw [hstage]
 exact ⟨rfl, rfl⟩

variable {i : Nat}

theorem commitInv_writeHeader (hstage : s.stage = .toLog i) (hall : ¬ i < s.log.header.numBlocks) :
    CommitInv sb { s with
 disk := s.disk.writeLog sb.headerBlock s.log.header.encode
 stage := .persist 0 } := by
 have hdisk := hinv.disk
 have hcontents := hinv.contents
 rw [hstage] at hdisk hcontents
 have hlast : i = s.log.header.numBlocks := by
  have hle : i ≤ s.log.header.numBlocks := hdisk.within
  omega
 refine commitInv_statement hlog hinv ht ?_
  (hdisk.write_header (size_le_maxLogSize hlog) hall) rfl ?_ ?_ ?_ ?_
 · nofun
 · rw [hlast] at hcontents
   exact hcontents
 · nofun
 · nofun
 · rw [hstage]
   exact ⟨rfl, rfl⟩

include hlist in
theorem commitInv_logWrite {a : Addr} (hstage : s.stage = .toLogHave i a) : CommitInv sb { s with
 disk := s.disk.writeLog (sb.logSlot i) (s.cache.heap a).data
 stage := .toLogWritten i a } := by
 have hdisk := hinv.disk
 have hcontents := hinv.contents
 rw [hstage] at hdisk hcontents
 have hdata := data_of_block hlog hlist hinv ht (by rw [hstage]; rfl)
  (by rw [hstage]; rfl) hdisk.within
 refine commitInv_statement hlog hinv ht ?_
  (hdisk.write_slot (size_le_maxLogSize hlog) hdata) rfl hcontents ?_ ?_ ?_
 · nofun
 · intro j b hblock
   rw [hstage]
   exact hblock
 · nofun
 · rw [hstage]
   exact ⟨rfl, rfl⟩

theorem commitInv_unpin {a : Addr} {c : CacheState} (hstage : s.stage = .toLogWritten i a)
  (hstep : s.cache.step (.setPinned t a false) = some c) :
  CommitInv sb { s with cache := c, stage := .toLogUnpinned i a } := by
 have hdisk := hinv.disk
 have hcontents := hinv.contents
 have hhand := hinv.hand t ht
 rw [hstage] at hdisk hcontents hhand
 have hchanges := (modifyHeld_cases hstep rfl rfl).right
 rcases hhand.block i a rfl with ⟨hheld, hno⟩
 apply commitInv_own hlog ht rfl
 · exact hdisk.move_stage hdisk.within (Nat.le_refl _) rfl id id
    (fun i data hnone => by cases hnone)
 · exact hcontents.unpin hchanges hno (fun j hij hj => hlog.distinct i j hij hj)
 exact {
  block := by
   intro j b hblock
   cases hblock
   rw [hchanges.held, hchanges.view, update_self]
   exact ⟨hheld, hno⟩
  copied := by nofun
  acquiring := by
   rw [hchanges.pc, hhand.idle rfl]
   rfl }

theorem commitInv_logRead (hstage : s.stage = .persist i) (hi : i < s.log.header.numBlocks) :
    CommitInv sb { s with
 stage := .persistRead i (s.disk.dev (sb.logSlot i)) } := by
 have hdisk := hinv.disk
 have hcontents := hinv.contents
 rw [hstage] at hdisk hcontents
 refine commitInv_statement hlog hinv ht ?_ ?_ rfl hcontents ?_ ?_ ?_
 · nofun
 · refine hdisk.move_stage hi (Nat.le_refl _) rfl id id ?_
   intro j data hbuffer
   cases hbuffer
   exact hdisk.slots i hi
 · nofun
 · nofun
 rw [hstage]
 exact ⟨rfl, rfl⟩

theorem commitInv_copy {data : BlockData} {a : Addr} {c : CacheState}
  (hstage : s.stage = .persistHave i data a) (hstep : s.cache.step (.setData t a data) = some c) :
  CommitInv sb { s with cache := c, stage := .persistCopied i a } := by
 have hdisk := hinv.disk
 have hcontents := hinv.contents
 have hhand := hinv.hand t ht
 rw [hstage] at hdisk hcontents hhand
 have hchanges := (modifyHeld_cases hstep rfl rfl).right
 rcases hhand.block i a rfl with ⟨hheld, hno⟩
 apply commitInv_own hlog ht rfl
 · exact hdisk.move_stage hdisk.within (Nat.le_refl _) rfl id id
    (fun i data hnone => by cases hnone)
 · exact hcontents.copy hchanges rfl hno hdisk.within
 exact {
  block := by
   intro j b hblock
   cases hblock
   rw [hchanges.held, hchanges.view, update_self]
   exact ⟨hheld, hno⟩
  copied := by
   intro j b hcopied
   cases hcopied
   rw [hchanges.held, hchanges.view, update_self]
   exact ⟨hheld, hdisk.buffer i data rfl⟩
  acquiring := by
   rw [hchanges.pc, hhand.idle rfl]
   rfl }

include hlist in
theorem commitInv_homeWrite {a : Addr} (hstage : s.stage = .persistCopied i a) :
    CommitInv sb { s with
 disk := s.disk.install (s.cache.heap a).blockNo (s.cache.heap a).data
 stage := .persistWritten i a } := by
 have hdisk := hinv.disk
 have hcontents := hinv.contents
 have hhand := hinv.hand t ht
 rw [hstage] at hdisk hcontents hhand
 rcases hhand.block i a rfl with ⟨hheld, hno⟩
 rcases hhand.copied i a rfl with ⟨_, hdata⟩
 have hheap : (s.cache.heap a).blockNo = s.log.header.blockNo i ∧
  (s.cache.heap a).data = s.disk.latest (s.log.header.blockNo i) :=
  ⟨hno, hdata⟩
 rw [hheap.left, hheap.right]
 refine commitInv_statement hlog hinv ht ?_ hdisk.install rfl ?_ ?_ ?_ ?_
 · nofun
 · exact hcontents.installed_one hlist (hlist.heldListed t a hheld) hno hdata
 · intro j b hblock
   rw [hstage]
   exact hblock
 · intro j b hcopied
   rw [hstage]
   exact hcopied
 rw [hstage]
 exact ⟨rfl, rfl⟩

theorem commitInv_clearHeader (hstage : s.stage = .clear) : CommitInv sb { s with
 disk := s.disk.writeLog sb.headerBlock s.log.header.encode
 stage := .done } := by
 have hdisk := hinv.disk
 have hcontents := hinv.contents
 have hempty := hinv.emptied (by rw [hstage]; rfl)
 rw [hstage] at hdisk hcontents
 refine commitInv_statement hlog hinv ht (fun _ => hempty)
  (hdisk.clear_header hempty) rfl hcontents ?_ ?_ ?_
 · nofun
 · nofun
 · rw [hstage]
   exact ⟨rfl, rfl⟩

include hlist in
theorem commitInv_checkpoint (hstatement : Statement sb s t next) : CommitInv sb next := by
 have hdisk := hinv.disk
 cases hstatement with
 | emptyLog hstage hempty hstep => exact commitInv_emptyLog hlog hinv ht hstage hempty hstep
 | enter hstage => exact commitInv_enter hlog hinv ht hstage
 | logAcquire hstage hi hstep =>
  rw [hstage] at hdisk
  refine commitInv_got hlog hinv ht (.inl rfl) ?_ ?_ (step_acquire hstep)
  · exact hdisk.move_stage hi (Nat.le_refl _) rfl id id (fun i data hnone => by cases hnone)
  rw [hstage]
  exact ⟨rfl, rfl⟩
 | writeHeader hstage hall => exact commitInv_writeHeader hlog hinv ht hstage hall
 | logWrite hstage => exact commitInv_logWrite hlog hlist hinv ht hstage
 | unpin hstage hstep => exact commitInv_unpin hlog hinv ht hstage hstep
 | logRelease hstage hstep | homeRelease hstage hstep =>
  rw [hstage] at hdisk
  refine commitInv_release hlog hinv ht hstep ?_ ?_ ⟨rfl, rfl, rfl, rfl⟩
  · exact hdisk.move_stage (Nat.succ_le_of_lt hdisk.within) (Nat.le_refl _)
     rfl id id (fun i data hnone => by cases hnone)
  rw [hstage]
  exact ⟨rfl, rfl⟩
 | logRead hstage hi => exact commitInv_logRead hlog hinv ht hstage hi
 | reset hstage hall hstep =>
  rw [hstage] at hdisk
  refine commitInv_reset hlog hinv ht hstep ?_ ?_ ⟨rfl, rfl, rfl, rfl, rfl⟩ (hdisk.reset hall)
  · rw [hstage]
    rfl
  rw [hstage]
  simp only [Stage.unpinned, Stage.installed]
  omega
 | homeAcquire hstage hstep =>
  rw [hstage] at hdisk
  refine commitInv_got hlog hinv ht (.inr ⟨_, rfl⟩) ?_ ?_ (step_acquire hstep)
  · exact hdisk.move_stage hdisk.within (Nat.le_refl _) rfl id id hdisk.buffer
  rw [hstage]
  exact ⟨rfl, rfl⟩
 | copy hstage hstep => exact commitInv_copy hlog hinv ht hstage hstep
 | homeWrite hstage => exact commitInv_homeWrite hlog hlist hinv ht hstage
 | clearHeader hstage => exact commitInv_clearHeader hlog hinv ht hstage

end Statements

/-!
# Runs
-/

section
variable (hlog : Inv sb s.log) (hlist : ListInv s.cache) (hinv : CommitInv sb s)
include hlog hlist hinv

theorem commitInv_back (htarget : backTarget (s.cache.pc t) = some no)
    (hstep : s.cache.step (.back t fresh (s.disk.dev no)) = some c) :
    CommitInv sb { s with
 cache := c
 stage := if (s.log.op t).commits then s.stage.got c t else s.stage } := by
 have hsection := step_back htarget hstep
 cases ht : (s.log.op t).commits with
 | true =>
  have hwants := (hinv.hand t ht).acquiring
  rw [target_of_backTarget htarget] at hwants
  rcases Option.map_eq_some_iff.mp hwants.symm with ⟨i, hi, rfl⟩
  exact commitInv_got hlog hinv ht (acquiring_of_wants hi) hinv.disk ⟨rfl, rfl⟩ hsection
 | false => exact commitInv_user hlist hinv hstep ht (contents_acquireSection hinv hsection)

theorem commitInv_step {l : CommitLabel} (hclient : s.Client sb l)
  (h : s.step sb l = some next) : CommitInv sb next := by
 cases step_moves h with
 | acquire huser hstep =>
  exact commitInv_user hlist hinv hstep (commits_of_userCode huser)
   (contents_acquireSection hinv (step_acquire hstep))
 | wait hstep =>
  rcases waitBlock_cases hstep with ⟨_, _, _, hquiet, _⟩
  exact { hinv with
   contents := hinv.contents.quiet hquiet
   hand := fun u hu => (hinv.hand u hu).untouched (untouched_wait hstep u) }
 | back htarget hstep => exact commitInv_back hlog hlist hinv htarget hstep
 | release huser hstep =>
  exact commitInv_user hlist hinv hstep (commits_of_userCode huser) (hinv.contents.releases
    (cacheRelease_cases hstep).right.left
    (by simpa [Client, client] using hclient))
 | modify huser hstep =>
  exact commitInv_user hlist hinv hstep (commits_of_userCode huser) (hinv.contents.modify
    (modifyHeld_cases hstep rfl rfl).right rfl hclient)
 | beginOp hstep =>
  rcases step_beginOp hstep with hquiet | hbegins
  · exact commitInv_log_quiet hinv hquiet
  · exact commitInv_begins hinv hbegins
 | sync hsyncs => exact commitInv_sync hlog hlist hinv hclient hsyncs
 | endOp hpc hstep => exact commitInv_endOp hlog hinv hclient hpc hstep
 | checkpoint ht hstatement => exact commitInv_checkpoint hlog hlist hinv ht hstatement
 | clearCommitting hstage hstep => exact commitInv_clearCommitting hlog hinv hstage hstep
 | quiet hl hstep => exact commitInv_log_quiet hinv (step_quiet (quietLabel_quiet hl) hstep)
end

theorem commitInv_reachable (h : Reachable (commitSystem sb) (Client sb) s) : CommitInv sb s := by
 apply reachable_invariant (CommitInv sb) _ _ h
 · intro start hinitial
   exact commitInv_initial hinitial
 intro mid l next hreach hinv hclient hstep
 exact commitInv_step (log_of_reachable hreach) (list_of_reachable hreach) hinv hclient hstep

end OSLab.Fs.CommitState
