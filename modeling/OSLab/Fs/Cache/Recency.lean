import OSLab.Fs.Cache.Eviction

/-!
# The order of the list

Every `cache_acquire` that returns puts its block at the front, so the list runs from the
block acquired last to the one that nobody has acquired for the longest time.  A miss
evicts from the far end of that order, and no more than it has to.
-/

namespace OSLab.Fs
open Common Foundation Function TransitionSystem List CacheState
namespace CacheState

/-!
# What `LRU_shrink` removes
-/

theorem lruShrinkLoop_length (evict : Addr -> Bool) (list : List Addr) (cnt : Nat) :
  (lruShrinkLoop evict list cnt).1.length +
    min (list.countP evict) (cnt + 1 - evictionThreshold) = list.length := by
 induction list generalizing cnt with
 | nil => simp [lruShrinkLoop]
 | cons a rest ih =>
  have hthreshold : evictionThreshold = 20 := rfl
  unfold lruShrinkLoop
  rw [countP_cons, length_cons]
  split
  · rw [length_cons]
    omega
  cases hevict : evict a with
  | true =>
   have hrest := ih (cnt - 1)
   simp only [if_true]
   omega
  | false =>
   have hrest := ih cnt
   simp only [Bool.false_eq_true, if_false, length_cons]
   omega

theorem lruShrinkLoop_order {R : Addr -> Addr -> Prop} {evict : Addr -> Bool} {list : List Addr}
  {cnt : Nat} {x y : Addr} (h : list.Pairwise R) (hx : x ∈ list)
  (hgone : x ∉ (lruShrinkLoop evict list cnt).1) (hy : y ∈ (lruShrinkLoop evict list cnt).1)
  (hevict : evict y) : R x y := by
 induction list generalizing cnt with
 | nil => cases hx
 | cons b rest ih =>
  rcases pairwise_cons.mp h with ⟨hfirst, hrest⟩
  unfold lruShrinkLoop at hgone hy
  split at hgone
  · exact absurd hx hgone
  rename_i hfull
  rw [if_neg hfull] at hy
  split at hgone
  · rename_i hb
    rw [if_pos hb] at hy
    rcases mem_cons.mp hx with heq | hx
    · rw [heq]
      exact hfirst y ((lruShrinkLoop_sublist evict rest _).mem hy)
    · exact ih hrest hx hgone hy
  rename_i hb
  rw [if_neg hb] at hy
  rcases not_or.mp (fun hin => hgone (mem_cons.mpr hin)) with ⟨hne, hgone⟩
  rcases mem_cons.mp hy with heq | hy
  · rw [heq] at hevict
    exact absurd hevict hb
  · exact ih hrest ((mem_cons.mp hx).resolve_left hne) hgone hy

section
variable {s next : CacheState} {R : Addr -> Addr -> Prop} {x y : Addr}

theorem makeRoom_length (h : s.cacheCnt = s.head.length) :
  s.makeRoom.head.length + min (s.head.countP s.evictable)
    (s.getNumCachedBlocks + 1 - evictionThreshold) = s.getNumCachedBlocks := by
 have hloop := lruShrinkLoop_length s.evictable s.head.reverse s.cacheCnt
 rw [countP_reverse, length_reverse, ← h] at hloop
 unfold makeRoom getNumCachedBlocks
 split
 · unfold lruShrink
   rw [length_reverse]
   exact hloop
 · omega

theorem makeRoom_order (h : s.head.Pairwise (fun a b => R b a)) (hx : x ∈ s.head)
    (hgone : x ∉ s.makeRoom.head) (hy : y ∈ s.makeRoom.head) (hevict : s.evictable y) :
    R x y := by
 unfold makeRoom at hgone hy
 split at hgone
 · rename_i hfull
   rw [if_pos hfull] at hy
   unfold lruShrink at hgone hy
   simp only [mem_reverse] at hgone hy
   exact lruShrinkLoop_order (pairwise_reverse.mpr h) (mem_reverse.mpr hx) hgone hy hevict
 · exact absurd hx hgone

theorem evictable_of_gone (hx : x ∈ s.head) (hgone : x ∉ s.makeRoom.head) : s.evictable x := by
 by_contra hnot
 apply hgone (makeRoom_keeps hx _)
 unfold evictable at hnot
 change (s.heap x).acquired = true ∨ (s.heap x).pinned = true
 cases hacq : (s.heap x).acquired
 · exact .inr (by simpa [hacq] using hnot)
 · exact .inl rfl

/-!
# What a step does to the order
-/

structure Fronts (s next : CacheState) (no : BlockNo) (kept : List Addr) : Prop where
 head : exists a, next.head = a :: kept ∧ (next.view a).blockNo = no
 sublist : kept.Sublist s.head
 others : forall x, x ∈ kept ->
  (next.view x).blockNo = (s.view x).blockNo ∧ (s.view x).blockNo ≠ no

variable {t : Tid} {a : Addr} {no : BlockNo} {data : BlockData} {l : CacheLabel}

theorem Takes.fronts (h : s.Takes t a next) (hinv : ListInv s) (hno : (s.view a).blockNo = no) :
  s.Fronts next no (s.head.erase a) := by
 refine ⟨⟨a, h.head, ?_⟩, erase_sublist, ?_⟩
 · rw [h.view, update_self]
   exact hno
 intro x hx
 rcases (hinv.nodup.mem_erase_iff).mp hx with ⟨hne, hx⟩
 rw [h.view, update_of_ne hne, ← hno]
 exact ⟨rfl, fun heq => hne (hinv.unique x a hx h.listed heq)⟩

theorem Loads.fronts (h : s.Loads t a no data next) : s.Fronts next no s.makeRoom.head := by
 refine ⟨⟨a, h.head, ?_⟩, s.makeRoom_sublist, ?_⟩
 · rw [h.view, update_self]
 intro x hx
 have hne : x ≠ a := by
  rintro rfl
  exact h.fresh hx
 rw [h.view, update_of_ne hne]
 exact ⟨rfl, h.missed x (s.makeRoom_sublist.mem hx)⟩

theorem step_of_searched (hl : s.searched l = some no) (h : s.step l = some next) :
  exists ifBack fresh device,
    s.acquireSection l.actor no ifBack fresh device = some next := by
 cases l with
 | acquire t no' fresh device =>
  simp only [searched, Option.ite_none_right_eq_some, Option.some.injEq] at hl
  simp only [step, if_pos hl.left, hl.right] at h
  exact ⟨false, fresh, device, h⟩
 | back t fresh device =>
  change backTarget (s.pc t) = some no at hl
  simp only [step, hl] at h
  exact ⟨true, fresh, device, h⟩
 | _ => cases hl

theorem same_of_not_searched (hl : s.searched l = none) (h : s.step l = some next) :
  next.head = s.head ∧ forall x, (next.view x).blockNo = (s.view x).blockNo := by
 have hupdate : forall {a v}, next.view = update s.view a v -> v.blockNo = (s.view a).blockNo ->
  forall x, (next.view x).blockNo = (s.view x).blockNo := by
  intro a v hview hsame x
  rw [hview]
  by_cases hx : x = a
  · rw [hx, update_self]
    exact hsame
  · rw [update_of_ne hx]
 cases l with
 | acquire t no fresh device =>
  have hbusy : ¬ s.pc t = .idle := by simpa [searched] using hl
  simp [step, hbusy] at h
 | back t fresh device =>
  change backTarget (s.pc t) = none at hl
  simp [step, hl] at h
 | wait t =>
  rcases waitBlock_cases h with ⟨_, _, _, hquiet, _⟩
  rw [hquiet.view]
  exact ⟨hquiet.head, fun _ => rfl⟩
 | release t a =>
  have hmove := (cacheRelease_cases h).right.left
  exact ⟨hmove.head, hupdate hmove.view rfl⟩
 | _ =>
  have hmove := (modifyHeld_cases h rfl rfl).right
  exact ⟨hmove.head, hupdate hmove.view rfl⟩

theorem head_of_miss {ifBack : Bool} (hmiss : s.search no = none)
  (h : s.acquireSection t no ifBack a data = some next) :
  next.head = a :: s.makeRoom.head ∧ next.cacheCnt = s.makeRoom.cacheCnt + 1 := by
 unfold acquireSection at h
 rw [hmiss] at h
 dsimp only at h
 split at h
 · cases h
 rw [← Option.some.inj h]
 exact ⟨rfl, rfl⟩
end

end CacheState

/-!
# Times
-/

structure TimedCache where
 cache : CacheState
 now : Nat
 last : BlockNo -> Nat

namespace TimedCache
variable (s : TimedCache)

def acquires (l : CacheLabel) (c : CacheState) : Option BlockNo :=
 if c.pc l.actor = .idle then s.cache.searched l else none

def note (c : CacheState) : Option BlockNo -> TimedCache
 | some no => { cache := c, now := s.now + 1, last := update s.last no s.now }
 | none => { s with cache := c }

def step (s : TimedCache) (l : CacheLabel) : Option TimedCache :=
 (s.cache.step l).map fun c => s.note c (s.acquires l c)

def acquiredAt (a : Addr) : Nat := s.last (s.cache.view a).blockNo

structure Recent (s : TimedCache) : Prop where
 list : s.cache.ListInv
 order : s.cache.head.Pairwise (fun a b => s.acquiredAt b < s.acquiredAt a)
 past : forall a, a ∈ s.cache.head -> s.acquiredAt a < s.now

variable {s next : TimedCache} {c : CacheState} {l : CacheLabel} {no : BlockNo}

theorem Recent.same (h : s.Recent) (hlist : c.ListInv) (hhead : c.head = s.cache.head)
  (hno : forall x, (c.view x).blockNo = (s.cache.view x).blockNo) :
  (s.note c none).Recent := by
 have hat : (s.note c none).acquiredAt = s.acquiredAt := by
  funext x
  exact congrArg s.last (hno x)
 constructor
 · exact hlist
 · rw [hat]
   exact hhead ▸ h.order
 · rw [hat]
   exact hhead ▸ h.past

theorem Recent.front (h : s.Recent) (hlist : c.ListInv) {kept : List Addr}
  (hfronts : s.cache.Fronts c no kept) : (s.note c (some no)).Recent := by
 rcases hfronts.head with ⟨a, hhead, hno⟩
 have hfirst : (s.note c (some no)).acquiredAt a = s.now := by
  change update s.last no s.now (c.view a).blockNo = s.now
  rw [hno, update_self]
 have hothers : forall x, x ∈ kept -> (s.note c (some no)).acquiredAt x = s.acquiredAt x := by
  intro x hx
  rcases hfronts.others x hx with ⟨hsame, hne⟩
  change update s.last no s.now (c.view x).blockNo = _
  rw [hsame, update_of_ne hne]
  rfl
 have hpast : forall x, x ∈ kept -> s.acquiredAt x < s.now :=
  fun x hx => h.past x (hfronts.sublist.mem hx)
 constructor
 · exact hlist
 · change c.head.Pairwise _
   rw [hhead, pairwise_cons]
   constructor
   · intro x hx
     rw [hfirst, hothers x hx]
     exact hpast x hx
   apply (h.order.sublist hfronts.sublist).imp_of_mem
   intro x y hx hy hlt
   rw [hothers x hx, hothers y hy]
   exact hlt
 · intro x hx
   change x ∈ c.head at hx
   change _ < s.now + 1
   rw [hhead] at hx
   rcases mem_cons.mp hx with heq | hx
   · rw [heq, hfirst]
     exact Nat.lt_succ_self _
   rw [hothers x hx]
   exact Nat.lt_succ_of_lt (hpast x hx)

theorem Recent.step (h : s.Recent) (hstep : s.step l = some next) : next.Recent := by
 rcases Option.map_eq_some_iff.mp hstep with ⟨c, hc, heq⟩
 rw [← heq]
 have hlist := listInv_step h.list hc
 cases hl : s.cache.searched l with
 | none =>
  have hnone : s.acquires l c = none := by
   unfold acquires
   rw [hl, ite_self]
  rcases same_of_not_searched hl hc with ⟨hhead, hno⟩
  rw [hnone]
  exact h.same hlist hhead hno
 | some no =>
  rcases step_of_searched hl hc with ⟨ifBack, fresh, device, hsection⟩
  unfold acquires
  rw [hl]
  rcases acquireSection_cases hsection with ⟨a, hquiet, hpc⟩ | ⟨hpc, hgets⟩
  · rw [hpc, update_self, if_neg (nofun)]
    apply h.same hlist hquiet.head
    rw [hquiet.view]
    exact fun _ => rfl
  rw [hpc, update_self, if_pos rfl]
  rcases hgets with ⟨a, hno, htakes⟩ | hloads
  · exact h.front hlist (htakes.fronts h.list hno)
  · exact h.front hlist hloads.fronts

end TimedCache

def timedSystem : TransitionSystem TimedCache CacheLabel where
 initial := fun s => s.cache.Initial
 step := TimedCache.step

theorem recent_reachable {s : TimedCache} (h : Reachable timedSystem unguarded s) : s.Recent := by
 apply reachable_invariant TimedCache.Recent _ _ h
 · intro s hinitial
   have hempty : s.cache.head = [] := hinitial.left
   refine ⟨listInv_initial hinitial, ?_, ?_⟩
   · rw [hempty]
     exact Pairwise.nil
   rw [hempty]
   nofun
 intro s l next _ hrecent _ hstep
 exact hrecent.step hstep

/--
In every run the list is in the order of the last acquisitions.  A miss evicts the least
recently acquired of the blocks that are neither held nor pinned, as many as bring the
count below the threshold or all of them.
-/
theorem lru_of_reachable {s : TimedCache} (h : Reachable timedSystem unguarded s) :
    s.cache.head.Pairwise (fun a b => s.acquiredAt b < s.acquiredAt a) ∧
    forall l next no, s.step l = some next -> s.cache.searched l = some no ->
      s.cache.search no = none ->
      exists a kept, next.cache.head = a :: kept ∧ kept.Sublist s.cache.head ∧
        (forall x, x ∈ s.cache.head -> x ∉ kept -> s.cache.evictable x = true) ∧
        (forall x y, x ∈ s.cache.head -> x ∉ kept -> y ∈ kept -> s.cache.evictable y = true ->
          s.acquiredAt x < s.acquiredAt y) ∧
        kept.length + min (s.cache.head.countP s.cache.evictable)
          (s.cache.getNumCachedBlocks + 1 - evictionThreshold) = s.cache.getNumCachedBlocks ∧
        next.cache.getNumCachedBlocks ≤ max evictionThreshold
          (1 + s.cache.head.countP fun x => !s.cache.evictable x) := by
 have hrecent := recent_reachable h
 refine ⟨hrecent.order, ?_⟩
 intro l next no hstep hl hmiss
 rcases Option.map_eq_some_iff.mp hstep with ⟨c, hc, heq⟩
 rcases step_of_searched hl hc with ⟨ifBack, fresh, device, hsection⟩
 rcases head_of_miss hmiss hsection with ⟨hhead, hcount⟩
 have hcache : next.cache = c := by
  rw [← heq]
  unfold TimedCache.note
  split <;> rfl
 have hlength := makeRoom_length hrecent.list.count
 rw [hcache]
 refine ⟨fresh, s.cache.makeRoom.head, hhead, s.cache.makeRoom_sublist,
  fun x => evictable_of_gone,
  fun x y => makeRoom_order (R := fun x y => s.acquiredAt x < s.acquiredAt y)
   hrecent.order, hlength, ?_⟩
 -- either as many as needed have gone, or only those that must stay are left
 have hsplit := length_eq_countP_add_countP s.cache.evictable (l := s.cache.head)
 have hbefore := hrecent.list.count
 have hafter := makeRoom_count hbefore
 have hthreshold : evictionThreshold = 20 := rfl
 unfold getNumCachedBlocks at *
 simp only [Bool.not_eq_true, Bool.decide_eq_false] at hsplit
 omega

/-- Twenty blocks are cached and free, and a miss evicts the first of them. -/
theorem lru_full_cache : exists s next, Reachable timedSystem unguarded s ∧
    s.cache.getNumCachedBlocks = 20 ∧
    s.step (.acquire 3 100 100 (fun _ => 0)) = some next ∧
    s.cache.head.Pairwise (fun a b => s.acquiredAt b < s.acquiredAt a) ∧
    next.cache.getNumCachedBlocks ≤ 20 := by
 rcases exists_reachable_of_execute timedSystem unguarded
  (show timedSystem.initial ⟨.empty, 0, fun _ => 0⟩ from empty_initial)
  (fillCache 3 (range' 1 20))
  (fun s => s.cache.getNumCachedBlocks = 20 ∧ s.cache.pc 3 = .idle ∧ s.cache.search 100 = none ∧
   s.cache.head.countP (fun x => !s.cache.evictable x) = 0 ∧
   (s.step (.acquire 3 100 100 (fun _ => 0))).isSome = true)
  (by decide +kernel) with ⟨s, hreach, hcount, hidle, hmiss, hfree, hsome⟩
 rcases Option.isSome_iff_exists.mp hsome with ⟨next, hstep⟩
 have hl : s.cache.searched (.acquire 3 100 100 (fun _ => 0)) = some 100 := if_pos hidle
 rcases lru_of_reachable hreach with ⟨horder, hmisses⟩
 rcases hmisses _ next 100 hstep hl hmiss with ⟨_, _, _, _, _, _, _, hbound⟩
 rw [hfree] at hbound
 exact ⟨s, next, hreach, hcount, hstep, horder, hbound⟩

end OSLab.Fs
