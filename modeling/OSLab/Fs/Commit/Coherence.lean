import OSLab.Fs.Commit.Disk

/-!
# Cache and log during a commit

The invariant that relates the cached blocks to the log at every statement of
`checkpoint`.  An entry of the header keeps its block in the cache by the pin
until `write_block_to_log` has passed it.  From then on until it is installed
the block is exposed: its last contents are in the log area, but nothing keeps
the block in the cache, and its home still has older contents.
-/

namespace OSLab.Fs
open Common Foundation Function CacheState

/-!
# Contents of the cached blocks
-/

/--
Blocks whose entries still have their pin are cached, blocks that are neither
dirty nor exposed have their last contents, and dirty blocks are held by threads
with an open operation.
-/
structure ContentsInv (sb : SuperBlock) (header : LogHeader)
  (installed unpinned : Nat) (latest : BlockNo -> BlockData)
  (running : Tid -> Bool) (dirty : Addr -> Bool) (cache : CacheState) :
  Prop where
 pinned : forall i, unpinned ≤ i -> i < header.numBlocks ->
  exists a, a ∈ cache.head ∧ (cache.view a).blockNo = header.blockNo i ∧
   (cache.view a).pinned = true
 clean : forall a, a ∈ cache.head -> dirty a = false -> ¬ sb.InLog (cache.view a).blockNo ->
  (forall i, installed ≤ i -> i < unpinned -> header.blockNo i ≠ (cache.view a).blockNo) ->
  (cache.view a).data = latest (cache.view a).blockNo
 dirtyHeld : forall a, dirty a = true -> exists t, a ∈ cache.held t ∧ running t = true

namespace ContentsInv
variable {sb : SuperBlock} {header : LogHeader} {installed unpinned : Nat}
 {latest : BlockNo -> BlockData} {running : Tid -> Bool}
 {dirty : Addr -> Bool} {cache next : CacheState}
 {a : Addr} {t : Tid} {data : BlockData}

section
variable (h : ContentsInv sb header installed unpinned latest running dirty cache)
include h

theorem quiet (hmove : cache.Quiet next) :
  ContentsInv sb header installed unpinned latest running dirty next where
 pinned := by
  rw [hmove.head, hmove.view]
  exact h.pinned
 clean := by
  rw [hmove.head, hmove.view]
  exact h.clean
 dirtyHeld := by
  rw [hmove.held]
  exact h.dirtyHeld

theorem same_blocks (hhead : forall a, a ∈ next.head ↔ a ∈ cache.head)
  (hview : forall a, (next.view a).blockNo = (cache.view a).blockNo ∧
    (next.view a).pinned = (cache.view a).pinned ∧
    (next.view a).data = (cache.view a).data)
  (hheld : forall t a, dirty a -> a ∈ cache.held t -> a ∈ next.held t) :
  ContentsInv sb header installed unpinned latest running dirty next where
 pinned := by
  intro i hi hin
  rcases h.pinned i hi hin with ⟨a, ha, hno, hpin⟩
  exact ⟨a, (hhead a).mpr ha, by rw [(hview a).left]; exact hno,
   by rw [(hview a).right.left]; exact hpin⟩
 clean := by
  intro a ha
  rw [(hview a).left, (hview a).right.right]
  exact h.clean a ((hhead a).mp ha)
 dirtyHeld := by
  intro a ha
  rcases h.dirtyHeld a ha with ⟨t, ht, hrun⟩
  exact ⟨t, hheld t a ha ht, hrun⟩

theorem takes (hmove : cache.Takes t a next) :
  ContentsInv sb header installed unpinned latest running dirty next := by
 apply h.same_blocks
 · intro x
   rw [hmove.head]
   exact (List.perm_cons_erase hmove.listed).symm.mem_iff
 · intro x
   rw [hmove.view]
   by_cases hx : x = a
   · subst hx
     simp
   · simp [hx]
 intro u x _ hx
 rw [hmove.held]
 exact mem_update_give_of_mem hx

theorem releases (hmove : cache.Releases t a next) (hclean : dirty a = false) :
  ContentsInv sb header installed unpinned latest running dirty next := by
 apply h.same_blocks
 · intro x
   rw [hmove.head]
 · intro x
   rw [hmove.view]
   by_cases hx : x = a
   · subst hx
     simp
   · simp [hx]
 intro u x hdirty hx
 have hxa : x ≠ a := by
  intro heq
  rw [heq, hclean] at hdirty
  cases hdirty
 rw [hmove.held]
 by_cases hu : u = t
 · subst hu
   rw [update_self]
   exact (List.mem_erase_of_ne hxa).mpr hx
 rw [update_of_ne hu]
 exact hx

theorem loads {no : BlockNo} (hmove : cache.Loads t a no data next) (hdata : ¬ sb.InLog no ->
    (forall i, installed ≤ i -> i < unpinned -> header.blockNo i ≠ no) ->
    data = latest no) :
  ContentsInv sb header installed unpinned latest running dirty next := by
 have hother : forall x, x ∈ cache.makeRoom.head -> next.view x = cache.view x := by
  intro x hx
  rw [hmove.view, update_of_ne]
  rintro rfl
  exact hmove.fresh hx
 exact {
  pinned := by
   intro i hi hin
   rcases h.pinned i hi hin with ⟨x, hx, hno, hpin⟩
   have hstays := makeRoom_keeps hx (.inr hpin)
   refine ⟨x, ?_, ?_, ?_⟩
   · rw [hmove.head]
     exact List.mem_cons_of_mem _ hstays
   · rw [hother x hstays]
     exact hno
   rw [hother x hstays]
   exact hpin
  clean := by
   intro x hx hclean
   rw [hmove.head] at hx
   rcases List.mem_cons.mp hx with heq | hstays
   · subst heq
     rw [hmove.view, update_self]
     exact hdata
   rw [hother x hstays]
   exact h.clean x (cache.makeRoom_sublist.subset hstays) hclean
  dirtyHeld := by
   intro x hx
   rcases h.dirtyHeld x hx with ⟨u, hu, hrun⟩
   refine ⟨u, ?_, hrun⟩
   rw [hmove.held]
   exact mem_update_give_of_mem hu }

theorem modify {pinned : Bool} (hmove : cache.Changes t a pinned data next)
  (hpinned : pinned = (cache.view a).pinned) (hrun : running t) :
  ContentsInv sb header installed unpinned latest running (update dirty a true) next := by
 have hview : forall x, (next.view x).blockNo = (cache.view x).blockNo ∧
  (next.view x).pinned = (cache.view x).pinned := by
  intro x
  rw [hmove.view]
  by_cases hx : x = a
  · subst hx
    simp [hpinned]
  · simp [hx]
 exact {
  pinned := by
   intro i hi hin
   rcases h.pinned i hi hin with ⟨x, hx, hno, hpin⟩
   exact ⟨x, by rw [hmove.head]; exact hx,
    by rw [(hview x).left]; exact hno, by rw [(hview x).right]; exact hpin⟩
  clean := by
   intro x hx hclean
   have hxa : x ≠ a := by
    intro heq
    rw [heq, update_self] at hclean
    cases hclean
   rw [update_of_ne hxa] at hclean
   rw [hmove.view, update_of_ne hxa]
   rw [hmove.head] at hx
   exact h.clean x hx hclean
  dirtyHeld := by
   intro x hx
   rw [hmove.held]
   by_cases hxa : x = a
   · rw [hxa]
     exact ⟨t, hmove.owned, hrun⟩
   rw [update_of_ne hxa] at hx
   exact h.dirtyHeld x hx }
end

variable {after : LogHeader}

theorem sync {disk : Disk} (h : ContentsInv sb header 0 0 disk.latest running dirty cache)
  (hlist : ListInv cache) (ha : a ∈ cache.head)
  (hhead : next.head = cache.head) (hheld : next.held = cache.held)
  (hother : forall x, x ≠ a -> next.view x = cache.view x)
  (hno : (next.view a).blockNo = (cache.view a).blockNo)
  (hdata : (next.view a).data = (cache.view a).data)
  (hpin : (cache.view a).pinned -> (next.view a).pinned)
  (hentries : forall i, i < after.numBlocks ->
    (exists j, j < header.numBlocks ∧ header.blockNo j = after.blockNo i) ∨
      (after.blockNo i = (cache.view a).blockNo ∧ (next.view a).pinned)) :
  ContentsInv sb after 0 0 (disk.record (cache.view a).blockNo (cache.view a).data).latest running
    (update dirty a false) next where
 pinned := by
  intro i _ hi
  rcases hentries i hi with ⟨j, hj, hsame⟩ | ⟨hself, hpinned⟩
  · rcases h.pinned j (Nat.zero_le j) hj with ⟨x, hx, hxno, hxpin⟩
    refine ⟨x, by rw [hhead]; exact hx, ?_, ?_⟩
    · by_cases hxa : x = a
      · subst hxa
        rw [hno, hxno, hsame]
      · rw [hother x hxa, hxno, hsame]
    by_cases hxa : x = a
    · subst hxa
      exact hpin hxpin
    rw [hother x hxa]
    exact hxpin
  · exact ⟨a, by rw [hhead]; exact ha, by rw [hno, hself], hpinned⟩
 clean := by
  intro x hx hclean hout _
  rw [hhead] at hx
  by_cases hxa : x = a
  · subst hxa
    rw [hno, hdata, DiskInv.latest_record_same]
  have hne : (cache.view x).blockNo ≠ (cache.view a).blockNo := by
   intro heq
   exact hxa (hlist.unique x a hx ha heq)
  rw [update_of_ne hxa] at hclean
  rw [hother x hxa] at hout ⊢
  rw [DiskInv.latest_record_other _ _ hne]
  exact h.clean x hx hclean hout (fun i _ hi => absurd hi (Nat.not_lt_zero i))
 dirtyHeld := by
  intro x hx
  have hxa : x ≠ a := by
   intro heq
   rw [heq, update_self] at hx
   cases hx
  rw [update_of_ne hxa] at hx
  rw [hheld]
  exact h.dirtyHeld x hx

variable {i : Nat}

theorem unpin (h : ContentsInv sb header 0 i latest running dirty cache)
  (hmove : cache.Changes t a false data next) (hno : (cache.view a).blockNo = header.blockNo i)
  (hdistinct : forall j, i < j -> j < header.numBlocks -> header.blockNo i ≠ header.blockNo j) :
  ContentsInv sb header 0 (i + 1) latest running dirty next where
 pinned := by
  intro j hj hjn
  rcases h.pinned j (by omega) hjn with ⟨x, hx, hxno, hxpin⟩
  have hxa : x ≠ a := by
   intro heq
   rw [heq, hno] at hxno
   exact hdistinct j (by omega) hjn hxno
  refine ⟨x, by rw [hmove.head]; exact hx, ?_, ?_⟩ <;>
   rw [hmove.view, update_of_ne hxa]
  · exact hxno
  · exact hxpin
 clean := by
  intro x hx hclean hout hexposed
  by_cases hxa : x = a
  · subst hxa
    refine absurd ?_ (hexposed i (Nat.zero_le i) (Nat.lt_succ_self i))
    rw [hmove.view, update_self]
    exact hno.symm
  rw [hmove.view, update_of_ne hxa] at hout hexposed ⊢
  rw [hmove.head] at hx
  exact h.clean x hx hclean hout (fun j hj hji => hexposed j hj (by omega))
 dirtyHeld := by
  rw [hmove.held]
  exact h.dirtyHeld

section
variable (h : ContentsInv sb header i unpinned latest running dirty cache)
include h

theorem copy {pinned : Bool}
  (hmove : cache.Changes t a pinned data next) (hpinned : pinned = (cache.view a).pinned)
  (hno : (cache.view a).blockNo = header.blockNo i) (hi : i < unpinned) :
  ContentsInv sb header i unpinned latest running dirty next where
 pinned := by
  intro j hj hjn
  rcases h.pinned j hj hjn with ⟨x, hx, hxno, hxpin⟩
  refine ⟨x, by rw [hmove.head]; exact hx, ?_, ?_⟩
  · rw [hmove.view]
    by_cases hxa : x = a
    · subst hxa
      simpa using hxno
    · simpa [hxa] using hxno
  rw [hmove.view]
  by_cases hxa : x = a
  · subst hxa
    simpa [hpinned] using hxpin
  · simpa [hxa] using hxpin
 clean := by
  intro x hx hclean hout hexposed
  by_cases hxa : x = a
  · subst hxa
    refine absurd ?_ (hexposed i (Nat.le_refl i) hi)
    rw [hmove.view, update_self]
    exact hno.symm
  rw [hmove.view, update_of_ne hxa] at hout hexposed ⊢
  rw [hmove.head] at hx
  exact h.clean x hx hclean hout hexposed
 dirtyHeld := by
  rw [hmove.held]
  exact h.dirtyHeld

theorem installed_one (hlist : ListInv cache) (ha : a ∈ cache.head)
    (hno : (cache.view a).blockNo = header.blockNo i)
    (hdata : (cache.view a).data = latest (header.blockNo i)) :
    ContentsInv sb header (i + 1) unpinned latest running dirty cache := { h with
 clean := by
  intro x hx hclean hout hexposed
  by_cases hxi : (cache.view x).blockNo = header.blockNo i
  · have hxa : x = a := hlist.unique x a hx ha (by rw [hxi, hno])
    rw [hxa, hdata, hno]
  apply h.clean x hx hclean hout
  intro j hj hju
  by_cases hji : j = i
  · rw [hji]
    exact fun heq => hxi heq.symm
  · exact hexposed j (by omega) hju }
end

variable (h : ContentsInv sb header installed unpinned latest running dirty cache)
include h

theorem emptied (last : Nat) (hall : unpinned ≤ installed) (hempty : after.numBlocks = 0) :
  ContentsInv sb after last last latest running dirty cache where
 pinned := by
  intro i _ hi
  omega
 clean := by
  intro x hx hclean hout _
  apply h.clean x hx hclean hout
  intro j hj hju
  omega
 dirtyHeld := h.dirtyHeld

theorem change_running {after : Tid -> Bool} (hafter : forall t a, running t -> a ∈ cache.held t ->
      dirty a -> after t) :
    ContentsInv sb header installed unpinned latest after dirty cache := { h with
 dirtyHeld := by
  intro a ha
  rcases h.dirtyHeld a ha with ⟨t, ht, hrun⟩
  exact ⟨t, ht, hafter t a hrun ht ha⟩ }

end ContentsInv

/-!
# The hands of the committing thread
-/

/--
The committing thread holds the block of the entry that it works on, and inside
`cache_acquire` it is after the block of that entry.
-/
structure HandInv (header : LogHeader) (stage : Stage)
  (latest : BlockNo -> BlockData) (cache : CacheState) (t : Tid) : Prop where
 block : forall i a, stage.block? = some (i, a) ->
  a ∈ cache.held t ∧ (cache.view a).blockNo = header.blockNo i
 copied : forall i a, stage.copied? = some (i, a) ->
  a ∈ cache.held t ∧ (cache.view a).data = latest (header.blockNo i)
 acquiring : target (cache.pc t) = stage.wants?.map header.blockNo

namespace HandInv
variable {header : LogHeader} {stage : Stage} {latest : BlockNo -> BlockData}
 {cache next : CacheState} {t : Tid}

theorem untouched (h : HandInv header stage latest cache t)
  (hmove : cache.Untouched t next) : HandInv header stage latest next t where
 block := by
  intro i a hblock
  rcases h.block i a hblock with ⟨ha, hno⟩
  rw [hmove.held, hmove.view a ha]
  exact ⟨ha, hno⟩
 copied := by
  intro i a hcopied
  rcases h.copied i a hcopied with ⟨ha, hdata⟩
  rw [hmove.held, hmove.view a ha]
  exact ⟨ha, hdata⟩
 acquiring := by
  rw [hmove.target]
  exact h.acquiring

theorem empty (hpc : cache.pc t = .idle) (hblock : stage.block? = none)
  (hcopied : stage.copied? = none) (hwants : stage.wants? = none) :
  HandInv header stage latest cache t where
 block := by
  intro i a h
  rw [hblock] at h
  cases h
 copied := by
  intro i a h
  rw [hcopied] at h
  cases h
 acquiring := by
  rw [hpc, hwants]
  rfl

theorem idle (h : HandInv header stage latest cache t)
  (hwants : stage.wants? = none) : cache.pc t = .idle := by
 rw [← target_eq_none, h.acquiring, hwants]
 rfl

end OSLab.Fs.HandInv
