import OSLab.Fs.Cache.Locking

/-!
# Eviction and waiting threads

`LRU_shrink` looks at `acquired` and `pinned` only.  A release clears `acquired`
and wakes one of the waiters, so a block may be free while threads are still
queued on its lock.  This module says exactly when such a block is evicted.
-/

namespace OSLab.Fs
open Common Foundation TransitionSystem CacheState List
namespace CacheState
variable (s : CacheState)

def Queued (a : Addr) : Prop :=
 exists t no, s.pc t = .asleep no a ∨ s.pc t = .woken no a

def searched : CacheLabel -> Option BlockNo
 | .acquire t no _ _ => if s.pc t = .idle then some no else none
 | .back t _ _ => backTarget (s.pc t)
 | _ => none

variable (l : CacheLabel)

def RunsShrink : Prop :=
 (s.step l).isSome = true ∧ evictionThreshold ≤ s.getNumCachedBlocks ∧
  exists no, s.searched l = some no ∧ s.search no = none

def Frees (a : Addr) : Prop :=
 s.RunsShrink l ∧ a ∈ s.head ∧ a ∉ s.lruShrink.head

def SparesWaiters : Prop := forall a, s.Frees l a -> ¬ s.Queued a

def evictableBehind (a : Addr) : Nat :=
 (s.head.reverse.takeWhile (fun x => x != a)).countP s.evictable

/--
The block is held, pinned, or preceded in the eviction order by as many
evictable blocks as have to go.
-/
def OutOfReach (a : Addr) : Prop :=
 (s.heap a).acquired = true ∨ (s.heap a).pinned = true ∨
  s.cacheCnt < evictionThreshold + s.evictableBehind a

instance (s : CacheState) (a : Addr) : Decidable (s.OutOfReach a) :=
 inferInstanceAs (Decidable (_ ∨ _ ∨ _))

def WaitersOutOfReach : Prop :=
 s.RunsShrink l -> forall a, a ∈ s.head -> s.Queued a -> s.OutOfReach a

/-!
# Which blocks are evicted
-/

variable {a : Addr}

theorem lruShrinkLoop_mem_iff (evict : Addr -> Bool) {list : List Addr} (cnt : Nat)
  (hnodup : list.Nodup) (ha : a ∈ list) :
  a ∈ (lruShrinkLoop evict list cnt).1 ↔ evict a = false ∨ cnt < evictionThreshold +
        (list.takeWhile (fun x => x != a)).countP evict := by
 induction list generalizing cnt with
 | nil => cases ha
 | cons b rest ih =>
  have hthreshold : evictionThreshold = 20 := rfl
  rcases nodup_cons.mp hnodup with ⟨hb, hrest⟩
  unfold lruShrinkLoop
  by_cases hfew : cnt < evictionThreshold
  · rw [if_pos hfew]
    constructor
    · intro _
      exact .inr (by omega)
    · intro _
      exact ha
  rw [if_neg hfew]
  by_cases hba : b = a
  · subst hba
    -- nothing stands before the node, so it goes exactly if it may
    have htake : (b :: rest).takeWhile (fun x => x != b) = [] := by simp
    rw [htake, countP_nil]
    cases hevict : evict b with
    | true =>
     have hgone : b ∉ (lruShrinkLoop evict rest (cnt - 1)).1 := by
      intro hmem
      exact hb ((lruShrinkLoop_sublist evict rest (cnt - 1)).subset hmem)
     simp only [if_true, hgone, false_iff, not_or]
     exact ⟨by simp, by omega⟩
    | false => simp
  have harest : a ∈ rest := by
   rcases mem_cons.mp ha with heq | hmem
   · exact absurd heq.symm hba
   · exact hmem
  have htake : (b :: rest).takeWhile (fun x => x != a) =
   b :: rest.takeWhile (fun x => x != a) := by
   rw [takeWhile_cons, if_pos (by simpa using hba)]
  rw [htake, countP_cons]
  cases hevict : evict b with
  | true =>
   simp only [if_true]
   rw [ih (cnt - 1) hrest harest]
   constructor
   all_goals
    rintro (hkeep | hlt)
    · exact .inl hkeep
    · exact .inr (by omega)
  | false =>
   have hab : a ≠ b := fun heq => hba heq.symm
   simp only [Bool.false_eq_true, if_false, mem_cons, hab, false_or, Nat.add_zero]
   exact ih cnt hrest harest

variable {s : CacheState}
variable (hnodup : s.head.Nodup)
include hnodup

theorem lruShrink_mem_iff (ha : a ∈ s.head) : a ∈ s.lruShrink.head ↔ s.OutOfReach a := by
 have hloop := lruShrinkLoop_mem_iff s.evictable s.cacheCnt
  ((reverse_perm s.head).nodup_iff.mpr hnodup) (mem_reverse.mpr ha)
 have hevict : s.evictable a = false ↔ (s.heap a).acquired ∨ (s.heap a).pinned := by
  unfold evictable
  cases (s.heap a).acquired <;> cases (s.heap a).pinned <;> simp
 unfold lruShrink
 simp only [mem_reverse]
 rw [hloop, hevict, or_assoc]
 rfl

theorem sparesWaiters_iff (l : CacheLabel) : s.SparesWaiters l ↔ s.WaitersOutOfReach l := by
 constructor
 · intro hspares hruns a ha hqueued
   by_cases hstays : a ∈ s.lruShrink.head
   · exact (lruShrink_mem_iff hnodup ha).mp hstays
   · exact absurd hqueued (hspares a ⟨hruns, ha, hstays⟩)
 intro hreach a hfrees hqueued
 rcases hfrees with ⟨hruns, ha, hgone⟩
 exact hgone ((lruShrink_mem_iff hnodup ha).mpr (hreach hruns a ha hqueued))

theorem makeRoom_keeps_of_outOfReach (ha : a ∈ s.head)
  (h : evictionThreshold ≤ s.getNumCachedBlocks -> s.OutOfReach a) :
  a ∈ s.makeRoom.head := by
 unfold makeRoom
 split
 · rename_i hfull
   exact (lruShrink_mem_iff hnodup ha).mpr (h hfull)
 · exact ha

end CacheState

/-!
# Runs
-/

/--
Along every run, no step frees a block with a queued thread exactly if every
step finds such blocks out of the reach of `LRU_shrink`.
-/
theorem eviction_spares_waiters_iff {start : CacheState}
  (hstart : start.Initial) (schedule : List CacheLabel) :
  Along cacheSystem SparesWaiters start schedule ↔
    Along cacheSystem WaitersOutOfReach start schedule := by
 apply along_congr
 intro s l hreach
 apply sparesWaiters_iff
 exact (listInv_reachable ⟨start, hstart, hreach⟩).nodup

/-- Twenty threads hold a block each; one waits for block 0, and another one needs room. -/
def heldSchedule : List CacheLabel :=
 ((range 20).map fun k => .acquire k (UInt64.ofNat k) k (fun _ => 0)) ++
  [.acquire 20 0 0 (fun _ => 0), .wait 20, .acquire 21 100 100 (fun _ => 0)]

/-- `LRU_shrink` runs in the last step and spares the block with the waiter. -/
theorem eviction_spares_waiters_contended : empty.Initial ∧
  Along cacheSystem SparesWaiters empty heldSchedule ∧
   exists s, execute cacheSystem unguarded empty (heldSchedule.take 22) = some s ∧
    s.pc 20 = .asleep 0 0 ∧ evictionThreshold ≤ s.getNumCachedBlocks ∧ s.search 100 = none := by
 refine ⟨empty_initial, ?_, by decide +kernel⟩
 rw [eviction_spares_waiters_iff empty_initial]
 have htest : Along cacheSystem (fun s _ => s.getNumCachedBlocks < evictionThreshold ∨
  forall a, a ∈ s.head -> s.OutOfReach a) empty heldSchedule := by decide +kernel
 refine along_mono (fun s l _ hroom hruns a ha _ => ?_) htest
 exact hroom.resolve_left (Nat.not_lt.mpr hruns.right.left) a ha

/-!
# A block freed under its waiters

Thread 0 holds block 0 while threads 1 and 2 sleep on its lock, and thread 3
fills the cache.  The release wakes thread 1 only; the next miss of thread 3
evicts block 0, with thread 1 on its way back and thread 2 still asleep.
-/

def fillCache (t : Tid) (blocks : List Nat) : List CacheLabel :=
 blocks.flatMap fun k =>
  [.acquire t (UInt64.ofNat k) k (fun _ => 0), .release t k]

def strandedSchedule : List CacheLabel :=
 [.acquire 0 0 0 (fun _ => 0), .acquire 1 0 0 (fun _ => 0), .wait 1,
  .acquire 2 0 0 (fun _ => 0), .wait 2] ++
 fillCache 3 (range' 1 19) ++ [.release 0 0]

theorem eviction_strands_waiters : exists s l a, Reachable cacheSystem unguarded s ∧ s.Frees l a ∧
    s.pc 1 = AcquirePc.woken 0 a ∧ s.pc 2 = AcquirePc.asleep 0 a ∧
    ¬ s.SparesWaiters l := by
 rcases exists_reachable_of_execute cacheSystem unguarded empty_initial strandedSchedule
  (fun s => s.pc 1 = .woken 0 0 ∧ s.pc 2 = .asleep 0 0 ∧
   s.pc 3 = .idle ∧ evictionThreshold ≤ s.cacheCnt ∧ 0 ∈ s.head ∧
   0 ∉ s.lruShrink.head ∧ s.search 100 = none ∧
   (s.step (.acquire 3 100 100 (fun _ => 0))).isSome = true)
  (by decide +kernel) with
  ⟨s, hreach, hone, htwo, hthree, hfull, hlisted, hgone, hmiss, hsome⟩
 have hfrees : s.Frees (.acquire 3 100 100 (fun _ => 0)) 0 := by
  refine ⟨⟨hsome, hfull, 100, ?_, hmiss⟩, hlisted, hgone⟩
  simp [searched, hthree]
 refine ⟨s, _, 0, hreach, hfrees, hone, htwo, ?_⟩
 intro hspares
 exact hspares 0 hfrees ⟨1, 0, .inr hone⟩

end OSLab.Fs
