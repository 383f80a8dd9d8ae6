import OSLab.Fs.Cache.Eviction
import OSLab.Fs.Commit.Invariant

/-!
# What `cache_acquire` returns during a commit

Between the loss of its pin and its installation a block of the batch may be
evicted, and whoever reads it then gets the older contents of its home.  As long
as evictions spare the exposed blocks, every acquired block has its last
contents.
-/

namespace OSLab.Fs
open Common Foundation TransitionSystem CacheState CommitState List LogState

def ExposedFresh (header : LogHeader) (installed unpinned : Nat)
  (latest : BlockNo -> BlockData) (cache : CacheState) : Prop :=
 forall i, installed ≤ i -> i < unpinned ->
  exists a, a ∈ cache.head ∧ (cache.view a).blockNo = header.blockNo i ∧
   (cache.view a).data = latest (header.blockNo i)

namespace ExposedFresh
variable {header : LogHeader} {installed unpinned : Nat}
 {latest : BlockNo -> BlockData} {cache next : CacheState}

section
variable (h : ExposedFresh header installed unpinned latest cache)
include h

theorem same_blocks (hkept : forall a, a ∈ cache.head -> (exists i, installed ≤ i ∧ i < unpinned ∧
      header.blockNo i = (cache.view a).blockNo) -> a ∈ next.head ∧
    (next.view a).blockNo = (cache.view a).blockNo ∧
    (next.view a).data = (cache.view a).data) :
  ExposedFresh header installed unpinned latest next := by
 intro i hi hu
 rcases h i hi hu with ⟨a, ha, hno, hdata⟩
 rcases hkept a ha ⟨i, hi, hu, hno.symm⟩ with ⟨hstays, hno', hdata'⟩
 exact ⟨a, hstays, by rw [hno', hno], by rw [hdata', hdata]⟩

theorem acquireSection {t : Tid} {no : BlockNo} {ifBack : Bool} {fresh : Addr} {device : BlockData}
  (hspares : (forall x, x ∈ cache.head -> (cache.view x).blockNo ≠ no) ->
    forall a, a ∈ cache.head ->
    (exists i, installed ≤ i ∧ i < unpinned ∧
      header.blockNo i = (cache.view a).blockNo) -> a ∈ cache.makeRoom.head)
  (hstep : cache.acquireSection t no ifBack fresh device = some next) :
  ExposedFresh header installed unpinned latest next := by
 apply h.same_blocks
 intro a ha hexposed
 rcases acquireSection_cases hstep with ⟨b, hquiet, _⟩ | ⟨_, ⟨b, _, htakes⟩ | hloads⟩
 · rw [hquiet.head, hquiet.view]
   exact ⟨ha, rfl, rfl⟩
 · rw [htakes.head, htakes.view, (perm_cons_erase htakes.listed).symm.mem_iff]
   refine ⟨ha, ?_⟩
   by_cases hab : a = b
   · subst hab
     simp
   · simp [hab]
 have hstays := hspares hloads.missed a ha hexposed
 have hne : a ≠ fresh := by
  rintro rfl
  exact hloads.fresh hstays
 rw [hloads.head, hloads.view, Function.update_of_ne hne]
 exact ⟨mem_cons_of_mem _ hstays, rfl, rfl⟩

theorem releases {t : Tid} {a : Addr} (hmove : cache.Releases t a next) :
  ExposedFresh header installed unpinned latest next := by
 apply h.same_blocks
 intro x hx _
 rw [hmove.head, hmove.view]
 refine ⟨hx, ?_⟩
 by_cases hxa : x = a
 · subst hxa
   simp
 · simp [hxa]
end

theorem nothing_exposed (h : unpinned ≤ installed) :
  ExposedFresh header installed unpinned latest cache := by
 intro i hi hu
 omega

end ExposedFresh

namespace CommitState

def exposed (s : CommitState) (no : BlockNo) : Bool :=
 (range (s.stage.unpinned s.log.header.numBlocks)).any fun i =>
  decide (s.stage.installed s.log.header.numBlocks ≤ i) && s.log.header.blockNo i == no

def searches (s : CommitState) : CommitLabel -> Option BlockNo
 | .acquire _ no _ => some no
 | .back t _ => backTarget (s.cache.pc t)
 | .checkpoint _ _ =>
  match s.stage with
  | .toLog i | .persistRead i _ => some (s.log.header.blockNo i)
  | _ => none
 | _ => none

def sparesExposed (s : CommitState) (l : CommitLabel) : Bool :=
 match s.searches l with
 | some no =>
  (s.cache.search no).isSome || decide (s.cache.getNumCachedBlocks < evictionThreshold) ||
   s.cache.head.all fun a =>
    !s.exposed (s.cache.heap a).blockNo || decide (s.cache.OutOfReach a)
 | none => true

def ClientSparing (sb : SuperBlock) (s : CommitState) (l : CommitLabel) : Prop :=
 s.Client sb l ∧ s.sparesExposed l = true

instance (sb : SuperBlock) (s : CommitState) (l : CommitLabel) : Decidable (s.ClientSparing sb l) :=
 inferInstanceAs (Decidable (_ ∧ _))

variable {sb : LogLayout} {s next : CommitState} {no : BlockNo}

theorem exposed_iff : s.exposed no ↔ exists i, s.stage.installed s.log.header.numBlocks ≤ i ∧
      i < s.stage.unpinned s.log.header.numBlocks ∧
      s.log.header.blockNo i = no := by
 simp only [exposed, any_eq_true, mem_range, Bool.and_eq_true,
  decide_eq_true_eq, beq_iff_eq]
 constructor
 · rintro ⟨i, hu, hi, hno⟩
   exact ⟨i, hi, hu, hno⟩
 · rintro ⟨i, hi, hu, hno⟩
   exact ⟨i, hu, hi, hno⟩

theorem search_none_of_missed {cache : CacheState}
  (h : forall x, x ∈ cache.head -> (cache.view x).blockNo ≠ no) :
  cache.search no = none := by
 apply find?_eq_none.mpr
 intro x hx
 simpa [view, Block.view] using h x hx

variable {l : CommitLabel} {a : Addr}

theorem makeRoom_keeps_exposed (hlist : ListInv s.cache)
  (hspares : s.sparesExposed l) (hl : s.searches l = some no)
  (hmissed : forall x, x ∈ s.cache.head -> (s.cache.view x).blockNo ≠ no) (ha : a ∈ s.cache.head)
  (hexposed : exists i, s.stage.installed s.log.header.numBlocks ≤ i ∧
    i < s.stage.unpinned s.log.header.numBlocks ∧
    s.log.header.blockNo i = (s.cache.view a).blockNo) :
  a ∈ s.cache.makeRoom.head := by
 apply makeRoom_keeps_of_outOfReach hlist.nodup ha
 intro hfull
 unfold sparesExposed at hspares
 rw [hl] at hspares
 simp only [search_none_of_missed hmissed, Option.isSome_none, Bool.false_or,
  Bool.or_eq_true, decide_eq_true_eq, all_eq_true] at hspares
 rcases hspares with hfew | hall
 · omega
 rcases hall a ha with hnot | hout
 · have hyes : s.exposed (s.cache.heap a).blockNo := exposed_iff.mpr hexposed
   simp [hyes] at hnot
 · exact hout

def FreshInv (s : CommitState) : Prop :=
 ExposedFresh s.log.header (s.stage.installed s.log.header.numBlocks)
  (s.stage.unpinned s.log.header.numBlocks) s.disk.latest s.cache

theorem fresh_of_idle (h : s.stage = .idle) : FreshInv s := by
 unfold FreshInv
 rw [h]
 exact ExposedFresh.nothing_exposed (Nat.le_refl 0)

theorem fresh_log (hfresh : FreshInv s) {log : LogState}
  {syncs : Tid -> List (BlockNo × Nat)} (hheader : log.header = s.log.header) :
  FreshInv { s with log := log, syncs := syncs } := by
 unfold FreshInv
 simp only [hheader]
 exact hfresh

variable {t : Tid} {c : CacheState}

theorem fresh_got (hlist : ListInv s.cache) (hfresh : FreshInv s)
  (acquiring : Stage) {ifBack : Bool} {fresh : Addr}
  (hspares : s.sparesExposed l) (hl : s.searches l = some no)
  (hsame : acquiring.installed s.log.header.numBlocks = s.stage.installed s.log.header.numBlocks ∧
    acquiring.unpinned s.log.header.numBlocks = s.stage.unpinned s.log.header.numBlocks)
  (h : s.cache.acquireSection t no ifBack fresh (s.disk.dev no) = some c) :
  FreshInv { s with cache := c, stage := acquiring.got c t } := by
 have hprogress := got_progress acquiring c t s.log.header.numBlocks
 unfold FreshInv
 simp only [hprogress.left, hprogress.right.left, hsame.left, hsame.right]
 exact ExposedFresh.acquireSection hfresh (fun hmissed a ha hexposed =>
   makeRoom_keeps_exposed hlist hspares hl hmissed ha hexposed) h

theorem fresh_unpin (hlog : Inv sb s.log) (hlist : ListInv s.cache) (hinv : CommitInv sb s)
  (hfresh : FreshInv s) (ht : (s.log.op t).commits) {i : Nat}
  (hstage : s.stage = .toLogWritten i a) (hstep : s.cache.step (.setPinned t a false) = some c) :
  FreshInv { s with cache := c, stage := .toLogUnpinned i a } := by
 have hchanges := (modifyHeld_cases hstep rfl rfl).right
 have hwithin := hinv.disk.within
 rw [hstage] at hwithin
 have hdata := data_of_block hlog hlist hinv ht (i := i) (a := a)
  (by rw [hstage]; rfl) (by rw [hstage]; rfl) hwithin
 rcases (hinv.hand t ht).block i a (by rw [hstage]; rfl) with ⟨hheld, hno⟩
 have hview : forall x, (c.view x).blockNo = (s.cache.view x).blockNo ∧
  (c.view x).data = (s.cache.view x).data := by
  intro x
  rw [hchanges.view]
  by_cases hx : x = a
  · subst hx
    exact ⟨by simp, by simp [view, Block.view]⟩
  · simp [hx]
 unfold FreshInv at hfresh
 rw [hstage] at hfresh
 intro j hj hju
 change j < i + 1 at hju
 by_cases hji : j = i
 · subst hji
   refine ⟨a, ?_, ?_, ?_⟩
   · rw [hchanges.head]
     exact hlist.heldListed t a hheld
   · rw [(hview a).left]
     exact hno
   rw [(hview a).right]
   exact hdata
 rcases hfresh j hj (by change j < i; omega) with ⟨x, hx, hxno, hxdata⟩
 exact ⟨x, by rw [hchanges.head]; exact hx, by rw [(hview x).left]; exact hxno,
  by rw [(hview x).right]; exact hxdata⟩

theorem fresh_copy (hinv : CommitInv sb s) (hfresh : FreshInv s)
  (ht : (s.log.op t).commits) {i : Nat} {data : BlockData}
  (hstage : s.stage = .persistHave i data a) (hstep : s.cache.step (.setData t a data) = some c) :
  FreshInv { s with cache := c, stage := .persistCopied i a } := by
 have hchanges := (modifyHeld_cases hstep rfl rfl).right
 rcases (hinv.hand t ht).block i a (by rw [hstage]; rfl) with ⟨_, hno⟩
 have hbuffer := hinv.disk.buffer i data (by rw [hstage]; rfl)
 unfold FreshInv at hfresh
 rw [hstage] at hfresh
 intro j hj hju
 rcases hfresh j hj hju with ⟨x, hx, hxno, hxdata⟩
 refine ⟨x, by rw [hchanges.head]; exact hx, ?_, ?_⟩
 · rw [hchanges.view]
   by_cases hxa : x = a
   · subst hxa
     simpa using hxno
   · simpa [hxa] using hxno
 rw [hchanges.view]
 by_cases hxa : x = a
 · subst hxa
   rw [Function.update_self, ← hxno, hno]
   exact hbuffer
 · simpa [hxa] using hxdata

section
variable (hlog : Inv sb s.log) (hlist : ListInv s.cache) (hinv : CommitInv sb s)
 (hfresh : FreshInv s)
include hlog hlist hinv hfresh

theorem fresh_checkpoint {fresh : Addr} (ht : (s.log.op t).commits)
  (hspares : s.sparesExposed (.checkpoint t fresh))
  (h : Statement sb s t next) : FreshInv next := by
 have hbefore := hfresh
 unfold FreshInv at hbefore
 cases h with
 | emptyLog hstage hempty hstep | enter hstage | reset hstage hall hstep | clearHeader hstage =>
  exact ExposedFresh.nothing_exposed (Nat.le_refl _)
 | logAcquire hstage hi hstep | homeAcquire hstage hstep =>
  apply fresh_got hlist hfresh _ hspares _ _ (step_acquire hstep)
  · simp [searches, hstage]
  rw [hstage]
  exact ⟨rfl, rfl⟩
 | @writeHeader i hstage hall =>
  have hle : i ≤ s.log.header.numBlocks := by
   have hwithin := hinv.disk.within
   rw [hstage] at hwithin
   exact hwithin
  have hlast : i = s.log.header.numBlocks := by omega
  rw [hstage] at hbefore
  rw [hlast] at hbefore
  exact hbefore
 | logWrite hstage | logRead hstage hi =>
  rw [hstage] at hbefore
  exact hbefore
 | unpin hstage hstep => exact fresh_unpin hlog hlist hinv hfresh ht hstage hstep
 | logRelease hstage hstep | homeRelease hstage hstep =>
  rw [hstage] at hbefore
  exact hbefore.releases (cacheRelease_cases hstep).right.left
 | copy hstage hstep => exact fresh_copy hinv hfresh ht hstage hstep
 | @homeWrite i a hstage =>
  rw [hstage] at hbefore
  intro j hj hju
  change i + 1 ≤ j at hj
  exact hbefore j (by change i ≤ j; omega) hju

theorem fresh_step
  (hclient : s.ClientSparing sb l) (h : s.step sb l = some next) : FreshInv next := by
 rcases hclient with ⟨hclient, hspares⟩
 cases step_moves h with
 | acquire huser hstep =>
  exact ExposedFresh.acquireSection hfresh (fun hmissed a ha hexposed =>
    makeRoom_keeps_exposed hlist hspares rfl hmissed ha hexposed)
   (step_acquire hstep)
 | wait hstep =>
  rcases waitBlock_cases hstep with ⟨_, _, _, hquiet, _⟩
  apply ExposedFresh.same_blocks hfresh
  intro a ha _
  rw [hquiet.head, hquiet.view]
  exact ⟨ha, rfl, rfl⟩
 | @back t no fresh c htarget hstep =>
  have hkeeps := fresh_got hlist hfresh s.stage hspares htarget ⟨rfl, rfl⟩ (step_back htarget hstep)
  cases ht : (s.log.op t).commits with
  | true => exact hkeeps
  | false =>
   have hprogress := got_progress s.stage c t s.log.header.numBlocks
   unfold FreshInv at hkeeps ⊢
   simp only [hprogress.left, hprogress.right.left] at hkeeps
   exact hkeeps
 | release huser hstep => exact ExposedFresh.releases hfresh (cacheRelease_cases hstep).right.left
 | modify huser hstep =>
  rcases Option.isSome_iff_exists.mp hclient with ⟨ctx, hctx⟩
  exact fresh_of_idle (stage_of_running hlog hinv (ctx?_running.mp hctx)).right
 | beginOp hstep =>
  apply fresh_log hfresh
  rcases step_beginOp hstep with hquiet | hbegins
  · exact hquiet.header
  · rw [hbegins.eq]
 | sync hsyncs =>
  rcases sync_within_budget hlog (client_sync hclient).right hsyncs.log with ⟨ctx, hop, _⟩
  apply fresh_of_idle
  rw [hsyncs.stage]
  exact (stage_of_running hlog hinv hop).right
 | @endOp t log hpc hstep =>
  rcases step_endOp hstep with ⟨ctx, hends⟩
  have hstage := (stage_of_running hlog hinv hends.op).right
  by_cases hlast : log.op t = .checkpoint
  · rw [if_pos hlast]
    exact ExposedFresh.nothing_exposed (Nat.le_refl _)
  rw [if_neg hlast]
  exact fresh_of_idle hstage
 | checkpoint ht hstatement => exact fresh_checkpoint hlog hlist hinv hfresh ht hspares hstatement
 | clearCommitting hstage hstep => exact fresh_of_idle rfl
 | quiet hl hstep => exact fresh_log hfresh (step_quiet (quietLabel_quiet hl) hstep).header
end

theorem fresh_reachable (h : Reachable (commitSystem sb) (ClientSparing sb) s) : FreshInv s := by
 apply reachable_invariant FreshInv _ _ h
 · intro start hinitial
   exact fresh_of_idle hinitial.stage
 intro mid l next hreach hfresh hclient hstep
 have hmid : Reachable (commitSystem sb) (Client sb) mid :=
  reachable_mono (fun _ _ hboth => hboth.left) hreach
 exact fresh_step (log_of_reachable hmid) (list_of_reachable hmid)
  (commitInv_reachable hmid) hfresh hclient hstep

/-!
# Coherence
-/

theorem data_eq_latest (hlist : ListInv s.cache) (hinv : CommitInv sb s) (hfresh : FreshInv s)
  (ha : a ∈ s.cache.head) (hout : ¬ sb.InLog (s.cache.view a).blockNo)
  (hclean : s.dirty a = false) :
  (s.cache.view a).data = s.disk.latest (s.cache.view a).blockNo := by
 by_cases hexposed : exists i, s.stage.installed s.log.header.numBlocks ≤ i ∧
  i < s.stage.unpinned s.log.header.numBlocks ∧
  s.log.header.blockNo i = (s.cache.view a).blockNo
 · rcases hexposed with ⟨i, hi, hu, hno⟩
   rcases hfresh i hi hu with ⟨x, hx, hxno, hxdata⟩
   have hxa : x = a := hlist.unique x a hx ha (by rw [hxno, hno])
   rw [← hxa, hxdata, hxno]
 · apply hinv.contents.clean a ha hclean hout
   intro i hi hu hno
   exact hexposed ⟨i, hi, hu, hno⟩

theorem dirty_of_returned (h : s.step sb l = some next)
  (hheld : next.cache.held t = a :: s.cache.held t) : next.dirty = s.dirty := by
 have hgrows : next.cache.held ≠ s.cache.held := by
  intro heq
  rw [heq] at hheld
  exact cons_ne_self a (s.cache.held t) hheld.symm
 cases step_moves h with
 | modify huser hstep => exact absurd (modifyHeld_cases hstep rfl rfl).right.held hgrows
 | sync hsyncs =>
  rcases hsyncs.cache with ⟨_, heq⟩ | ⟨_, hstep⟩
  · exact absurd (by rw [heq]) hgrows
  · exact absurd (modifyHeld_cases hstep rfl rfl).right.held hgrows
 | checkpoint ht hstatement => cases hstatement <;> rfl
 | _ => rfl

theorem clean_of_returned (hlist : ListInv s.cache)
  (hafter : ListInv next.cache) (hinv : CommitInv sb s)
  (h : s.step sb l = some next) (hheld : next.cache.held t = a :: s.cache.held t) :
  next.dirty a = false := by
 rw [dirty_of_returned h hheld]
 cases hdirty : s.dirty a with
 | false => rfl
 | true =>
  rcases hinv.contents.dirtyHeld a hdirty with ⟨u, hu, _⟩
  have hmem : a ∈ next.cache.held t := by
   rw [hheld]
   exact mem_cons_self
  by_cases hut : u = t
  · have hnodup := hafter.heldNodup t
    rw [hheld, ← hut] at hnodup
    exact absurd hu (nodup_cons.mp hnodup).left
  rcases step_cache h with heq | ⟨k, hk⟩
  · rw [heq] at hheld
    exact absurd hheld.symm (cons_ne_self a (s.cache.held t))
  have hactor : t = k.actor := by
   by_contra hne
   rw [(step_untouched hlist hk hne).held] at hheld
   exact cons_ne_self a (s.cache.held t) hheld.symm
  rw [hactor] at hut
  have hkept := (step_untouched hlist hk hut).held
  rw [← hkept] at hu
  rw [← hactor] at hut
  exact absurd (hafter.heldOnce u t a hu hmem) hut

/--
Cached blocks that are not being changed have the contents of their last sync,
and so has every block that a call of `cache_acquire` returns.
-/
structure Coherent (sb : SuperBlock) (s : CommitState) : Prop where
 cached : forall a, a ∈ s.cache.head -> ¬ sb.InLog (s.cache.heap a).blockNo -> s.dirty a = false ->
  (s.cache.heap a).data = s.disk.latest (s.cache.heap a).blockNo
 returned : forall l next t a, s.ClientSparing sb l ->
  s.step sb l = some next -> next.cache.held t = a :: s.cache.held t ->
  ¬ sb.InLog (next.cache.heap a).blockNo ->
  (next.cache.heap a).data = next.disk.latest (next.cache.heap a).blockNo

end CommitState

theorem coherent_of_reachable {sb : LogLayout} {s : CommitState}
  (h : Reachable (commitSystem sb) (CommitState.ClientSparing sb) s) :
  CommitState.Coherent sb s := by
 have hcached : forall mid, Reachable (commitSystem sb)
  (ClientSparing sb) mid ->
  ListInv mid.cache ∧ CommitInv sb mid ∧ FreshInv mid := by
  intro mid hmid
  have hclient : Reachable (commitSystem sb) (Client sb) mid :=
   reachable_mono (fun _ _ hboth => hboth.left) hmid
  exact ⟨list_of_reachable hmid,
   commitInv_reachable hclient, fresh_reachable hmid⟩
 rcases hcached s h with ⟨hlist, hinv, hfresh⟩
 exact {
  cached := by
   intro a ha hout hclean
   exact data_eq_latest hlist hinv hfresh ha hout hclean
  returned := by
   intro l next t a hclient hstep hheld hout
   rcases hcached next (reachable_step h hclient hstep) with ⟨hlist', hinv', hfresh'⟩
   have hmem : a ∈ next.cache.held t := by
    rw [hheld]
    exact mem_cons_self
   exact data_eq_latest hlist' hinv' hfresh' (hlist'.heldListed t a hmem) hout
    (clean_of_returned hlist hlist' hinv hstep hheld) }

def commitUntilUnpinned : List CommitLabel :=
 [.beginOp 0, .acquire 0 500 0, .modify 0 0 (fun _ => 1), .sync 0 0, .release 0 0, .endOp 0] ++
 replicate 5 (.checkpoint 0 0)

/-- A reader gets the last contents of an exposed block. -/
theorem coherent_exposed : exists s, s.exposed 500 = true ∧ s.cache.held 1 = [0] ∧
    CommitState.Coherent mkfsLayout s := by
 rcases exists_reachable_of_execute (commitSystem mkfsLayout)
  (ClientSparing mkfsLayout)
  (boot_initial zeroDevice_log_empty)
  (commitUntilUnpinned ++ [.acquire 1 500 1])
  (fun s => s.exposed 500 = true ∧ s.cache.held 1 = [0]) (by decide +kernel) with
  ⟨s, hreach, hexposed, hheld⟩
 exact ⟨s, hexposed, hheld, coherent_of_reachable hreach⟩

/-!
# A stale read

The commit has unpinned block 500 and not yet installed it.  Thread 1 reads
twenty other blocks, the last of which evicts block 500, and then reads block 500
itself.
-/

def readBlocks (t : Tid) (blocks : List Nat) : List CommitLabel :=
 blocks.flatMap fun k =>
  [.acquire t (UInt64.ofNat k) k, .release t k]

theorem stale_read_during_commit : exists s next, Reachable (commitSystem mkfsLayout)
      (CommitState.Client mkfsLayout) s ∧
    s.Client mkfsLayout (CommitLabel.acquire 1 500 1000) ∧
    s.step mkfsLayout (CommitLabel.acquire 1 500 1000) = some next ∧
    next.cache.held 1 = 1000 :: s.cache.held 1 ∧
    (next.cache.heap 1000).blockNo = 500 ∧
    (next.cache.heap 1000).data = next.disk.dev 500 ∧
    (next.cache.heap 1000).data ≠ next.disk.latest 500 := by
 rcases exists_reachable_of_execute (commitSystem mkfsLayout)
  (Client mkfsLayout)
  (boot_initial zeroDevice_log_empty)
  (commitUntilUnpinned ++ readBlocks 1 (range' 600 20))
  (fun s => s.client mkfsLayout (.acquire 1 500 1000) = true ∧
   exists next, next ∈ s.step mkfsLayout (.acquire 1 500 1000) ∧
    next.cache.held 1 = 1000 :: s.cache.held 1 ∧ (next.cache.heap 1000).blockNo = 500 ∧
    (next.cache.heap 1000).data = next.disk.dev 500 ∧
    (next.cache.heap 1000).data ≠ next.disk.latest 500)
  (by decide +kernel) with ⟨s, hreach, hclient, next, hstep, hread⟩
 exact ⟨s, next, hreach, hclient, hstep, hread⟩

end OSLab.Fs
