import OSLab.Fs.Cache.BlockList

/-!
# Block locks and the cache list

Mutual exclusion on blocks rests on the flag `acquired` alone, which is only
read and written under the cache spinlock.  The semaphore of a block decides
who is woken when, but a woken thread searches the list again, so tokens that
are stolen, doubled or left over cannot break the invariant below.
-/

namespace OSLab.Fs
open Common Foundation Function TransitionSystem List
namespace CacheState

/-!
# Eviction
-/

variable (evict : Addr -> Bool)

theorem lruShrinkLoop_sublist (list : List Addr)
  (cnt : Nat) : (lruShrinkLoop evict list cnt).1.Sublist list := by
 induction list generalizing cnt with
 | nil => exact Sublist.refl _
 | cons a rest ih =>
  unfold lruShrinkLoop
  split
  · exact Sublist.refl _
  split
  · exact (ih (cnt - 1)).cons a
  · exact (ih cnt).cons_cons a

theorem lruShrinkLoop_count (list : List Addr) (cnt : Nat) :
  (lruShrinkLoop evict list cnt).2 + list.length =
    (lruShrinkLoop evict list cnt).1.length + cnt := by
 induction list generalizing cnt with
 | nil => simp [lruShrinkLoop]
 | cons a rest ih =>
  unfold lruShrinkLoop
  split
  · simp only [length_cons]
    omega
  rename_i hfull
  have hpos : 0 < cnt := by
   have hthreshold : evictionThreshold = 20 := rfl
   omega
  split
  · have hrec := ih (cnt - 1)
    simp only [length_cons]
    omega
  have hrec := ih cnt
  simp only [length_cons]
  omega

variable {a : Addr}

theorem lruShrinkLoop_keeps {list : List Addr}
  (cnt : Nat) (ha : a ∈ list) (hkeep : evict a = false) :
  a ∈ (lruShrinkLoop evict list cnt).1 := by
 induction list generalizing cnt with
 | nil => cases ha
 | cons b rest ih =>
  unfold lruShrinkLoop
  split
  · exact ha
  rcases mem_cons.mp ha with heq | hrest
  · subst b
    simp [hkeep]
  split
  · exact ih (cnt - 1) hrest
  · exact mem_cons_of_mem _ (ih cnt hrest)

theorem makeRoom_sublist (s : CacheState) : s.makeRoom.head.Sublist s.head := by
 unfold makeRoom
 split
 · have hsub := lruShrinkLoop_sublist s.evictable s.head.reverse s.cacheCnt
   simpa [lruShrink] using hsub.reverse
 · exact Sublist.refl _

variable {s : CacheState}

theorem makeRoom_count (h : s.cacheCnt = s.head.length) :
  s.makeRoom.cacheCnt = s.makeRoom.head.length := by
 unfold makeRoom
 split
 · have hcount := lruShrinkLoop_count s.evictable s.head.reverse s.cacheCnt
   simp only [length_reverse] at hcount
   simp only [lruShrink, length_reverse]
   omega
 · exact h

theorem makeRoom_keeps (ha : a ∈ s.head) (hkeep : (s.view a).acquired ∨ (s.view a).pinned) :
  a ∈ s.makeRoom.head := by
 unfold makeRoom
 split
 · have hevict : s.evictable a = false := by
    rcases hkeep with hacq | hpin
    · have hacq' : (s.heap a).acquired := hacq
      simp [evictable, hacq']
    have hpin' : (s.heap a).pinned := hpin
    simp [evictable, hpin']
   have hkept := lruShrinkLoop_keeps s.evictable s.cacheCnt (mem_reverse.mpr ha) hevict
   simpa [lruShrink] using hkept
 · exact ha

/-!
# The invariant
-/

structure ListInv (s : CacheState) : Prop where
 nodup : s.head.Nodup
 count : s.cacheCnt = s.head.length
 unique : forall a b, a ∈ s.head -> b ∈ s.head -> (s.view a).blockNo = (s.view b).blockNo -> a = b
 heldListed : forall t a, a ∈ s.held t -> a ∈ s.head
 heldAcquired : forall t a, a ∈ s.held t -> (s.view a).acquired = true
 owned : forall a, a ∈ s.head -> (s.view a).acquired = true -> exists t, a ∈ s.held t
 heldOnce : forall t u a, a ∈ s.held t -> a ∈ s.held u -> t = u
 heldNodup : forall t, (s.held t).Nodup

theorem listInv_initial (h : s.Initial) : ListInv s := by
 rcases h with ⟨hhead, hcount, _, hheld⟩
 exact {
  nodup := by simp [hhead]
  count := by simp [hhead, hcount]
  unique := by simp [hhead]
  heldListed := by simp [hheld]
  heldAcquired := by simp [hheld]
  owned := by simp [hhead]
  heldOnce := by simp [hheld]
  heldNodup := by simp [hheld] }

variable {s next : CacheState}

theorem ListInv.frame (hinv : ListInv s) (hhead : next.head = s.head)
  (hcount : next.cacheCnt = s.cacheCnt) (hheld : next.held = s.held)
  (hsame : forall x, (next.view x).blockNo = (s.view x).blockNo ∧
    (next.view x).acquired = (s.view x).acquired) : ListInv next := by
 exact {
  nodup := by
   rw [hhead]
   exact hinv.nodup
  count := by
   rw [hhead, hcount]
   exact hinv.count
  unique := by
   intro x y hx hy hxy
   rw [hhead] at hx hy
   rw [(hsame x).left, (hsame y).left] at hxy
   exact hinv.unique x y hx hy hxy
  heldListed := by
   rw [hhead, hheld]
   exact hinv.heldListed
  heldAcquired := by
   intro u x hx
   rw [hheld] at hx
   rw [(hsame x).right]
   exact hinv.heldAcquired u x hx
  owned := by
   intro x hx hacq
   rw [hhead] at hx
   rw [(hsame x).right] at hacq
   rw [hheld]
   exact hinv.owned x hx hacq
  heldOnce := by
   rw [hheld]
   exact hinv.heldOnce
  heldNodup := by
   rw [hheld]
   exact hinv.heldNodup }

theorem listInv_quiet (hinv : ListInv s) (h : s.Quiet next) : ListInv next := by
 apply hinv.frame h.head h.count h.held
 intro x
 rw [h.view]
 exact ⟨rfl, rfl⟩

/-!
Handing out a block, whether it was cached or not, gives a thread one more
block that nobody holds.  The three facts about ownership are the same in both
cases and are proved once.
-/

variable {held : Tid -> List Addr} {t : Tid}

theorem heldOnce_give (hfree : forall u, a ∉ held u)
  (honce : forall t u x, x ∈ held t -> x ∈ held u -> t = u) :
  forall u v x, x ∈ update held t (a :: held t) u ->
    x ∈ update held t (a :: held t) v -> u = v := by
 have hown : forall u x, x ∈ update held t (a :: held t) u -> (x = a ∧ u = t) ∨ x ∈ held u := by
  intro u x hx
  by_cases hu : u = t
  · subst hu
    rw [update_self] at hx
    rcases mem_cons.mp hx with heq | hmem
    · exact .inl ⟨heq, rfl⟩
    · exact .inr hmem
  rw [update_of_ne hu] at hx
  exact .inr hx
 intro u v x hu hv
 rcases hown u x hu with ⟨hxu, htu⟩ | hxu <;>
  rcases hown v x hv with ⟨hxv, htv⟩ | hxv
 · rw [htu, htv]
 · rw [hxu] at hxv
   exact absurd hxv (hfree v)
 · rw [hxv] at hxu
   exact absurd hxu (hfree u)
 · exact honce u v x hxu hxv

theorem heldNodup_give (hfree : forall u, a ∉ held u) (hnodup : forall t, (held t).Nodup) :
  forall u, (update held t (a :: held t) u).Nodup := by
 intro u
 by_cases hu : u = t
 · subst hu
   rw [update_self]
   exact nodup_cons.mpr ⟨hfree u, hnodup u⟩
 rw [update_of_ne hu]
 exact hnodup u

variable {t u : Tid} {a x : Addr}

theorem mem_update_give (h : x ∈ update held t (a :: held t) u) : x = a ∨ x ∈ held u := by
 by_cases hu : u = t
 · subst hu
   rw [update_self] at h
   exact mem_cons.mp h
 rw [update_of_ne hu] at h
 exact .inr h

theorem mem_update_give_of_mem (h : x ∈ held u) : x ∈ update held t (a :: held t) u := by
 by_cases hu : u = t
 · subst hu
   rw [update_self]
   exact mem_cons_of_mem _ h
 rw [update_of_ne hu]
 exact h

theorem listInv_takes (hinv : ListInv s) (h : s.Takes t a next) : ListInv next := by
 have hfree : forall u, a ∉ s.held u := by
  intro u hu
  have hacq := hinv.heldAcquired u a hu
  rw [h.free] at hacq
  cases hacq
 have hperm : (a :: s.head.erase a).Perm s.head := (perm_cons_erase h.listed).symm
 have hno : forall x, (next.view x).blockNo = (s.view x).blockNo := by
  intro x
  rw [h.view]
  by_cases hx : x = a
  · subst hx
    simp
  · simp [hx]
 exact {
  nodup := by
   rw [h.head]
   exact hperm.nodup_iff.mpr hinv.nodup
  count := by
   rw [h.head, h.count, hperm.length_eq]
   exact hinv.count
  unique := by
   intro x y hx hy hxy
   rw [h.head, hperm.mem_iff] at hx hy
   rw [hno, hno] at hxy
   exact hinv.unique x y hx hy hxy
  heldListed := by
   intro u x hx
   rw [h.head, hperm.mem_iff]
   rw [h.held] at hx
   rcases mem_update_give hx with heq | hmem
   · rw [heq]
     exact h.listed
   · exact hinv.heldListed u x hmem
  heldAcquired := by
   intro u x hx
   rw [h.held] at hx
   rw [h.view]
   by_cases hxa : x = a
   · subst hxa
     simp
   rw [update_of_ne hxa]
   rcases mem_update_give hx with heq | hmem
   · exact absurd heq hxa
   · exact hinv.heldAcquired u x hmem
  owned := by
   intro x hx hacq
   rw [h.head, hperm.mem_iff] at hx
   rw [h.held]
   by_cases hxa : x = a
   · subst hxa
     exact ⟨t, by simp⟩
   rw [h.view, update_of_ne hxa] at hacq
   rcases hinv.owned x hx hacq with ⟨u, hu⟩
   exact ⟨u, mem_update_give_of_mem hu⟩
  heldOnce := by
   rw [h.held]
   exact heldOnce_give hfree hinv.heldOnce
  heldNodup := by
   rw [h.held]
   exact heldNodup_give hfree hinv.heldNodup }

variable {data : BlockData} {no : BlockNo}

theorem listInv_loads (hinv : ListInv s) (h : s.Loads t a no data next) : ListInv next := by
 have hkept : forall u x, x ∈ s.held u -> x ∈ s.makeRoom.head := by
  intro u x hx
  exact makeRoom_keeps (hinv.heldListed u x hx) (.inl (hinv.heldAcquired u x hx))
 have hfree : forall u, a ∉ s.held u := by
  intro u hu
  exact h.fresh (hkept u a hu)
 have hsub := s.makeRoom_sublist
 have hother : forall x, x ∈ s.makeRoom.head -> next.view x = s.view x := by
  intro x hx
  rw [h.view, update_of_ne]
  rintro rfl
  exact h.fresh hx
 have hnew : (next.view a).blockNo = no := by
  rw [h.view]
  simp
 have hmiss : forall x, x ∈ s.makeRoom.head -> (s.view x).blockNo ≠ no :=
  fun x hx => h.missed x (hsub.subset hx)
 exact {
  nodup := by
   rw [h.head]
   exact nodup_cons.mpr ⟨h.fresh, hinv.nodup.sublist hsub⟩
  count := by rw [h.head, h.count, makeRoom_count hinv.count, length_cons]
  unique := by
   intro x y hx hy hxy
   rw [h.head] at hx hy
   rcases mem_cons.mp hx with hxa | hx <;>
    rcases mem_cons.mp hy with hya | hy
   · rw [hxa, hya]
   · rw [hxa, hnew, hother y hy] at hxy
     exact absurd hxy.symm (hmiss y hy)
   · rw [hya, hnew, hother x hx] at hxy
     exact absurd hxy (hmiss x hx)
   rw [hother x hx, hother y hy] at hxy
   exact hinv.unique x y (hsub.subset hx) (hsub.subset hy) hxy
  heldListed := by
   intro u x hx
   rw [h.held] at hx
   rw [h.head]
   rcases mem_update_give hx with heq | hmem
   · rw [heq]
     exact mem_cons_self
   · exact mem_cons_of_mem _ (hkept u x hmem)
  heldAcquired := by
   intro u x hx
   rw [h.held] at hx
   by_cases hxa : x = a
   · rw [h.view, hxa]
     simp
   rcases mem_update_give hx with heq | hmem
   · exact absurd heq hxa
   rw [hother x (hkept u x hmem)]
   exact hinv.heldAcquired u x hmem
  owned := by
   intro x hx hacq
   rw [h.head] at hx
   rw [h.held]
   rcases mem_cons.mp hx with hxa | hx
   · rw [hxa]
     exact ⟨t, by simp⟩
   rw [hother x hx] at hacq
   rcases hinv.owned x (hsub.subset hx) hacq with ⟨u, hu⟩
   exact ⟨u, mem_update_give_of_mem hu⟩
  heldOnce := by
   rw [h.held]
   exact heldOnce_give hfree hinv.heldOnce
  heldNodup := by
   rw [h.held]
   exact heldNodup_give hfree hinv.heldNodup }

theorem mem_update_erase (h : x ∈ update held t ((held t).erase a) u) : x ∈ held u := by
 by_cases hu : u = t
 · subst hu
   rw [update_self] at h
   exact mem_of_mem_erase h
 rw [update_of_ne hu] at h
 exact h

theorem listInv_releases (hinv : ListInv s) (h : s.Releases t a next) : ListInv next := by
 have hgone : forall u, a ∉ next.held u := by
  intro u hu
  rw [h.held] at hu
  by_cases hut : u = t
  · subst hut
    rw [update_self] at hu
    exact (Nodup.not_mem_erase (hinv.heldNodup u)) hu
  have hmem := mem_update_erase hu
  exact hut (hinv.heldOnce u t a hmem h.owned)
 have hstill : forall u x, x ∈ next.held u -> x ∈ s.held u := by
  intro u x hx
  rw [h.held] at hx
  exact mem_update_erase hx
 have hview : forall x, x ≠ a -> next.view x = s.view x := by
  intro x hx
  rw [h.view, update_of_ne hx]
 have hno : forall x, (next.view x).blockNo = (s.view x).blockNo := by
  intro x
  rw [h.view]
  by_cases hx : x = a
  · subst hx
    simp
  · simp [hx]
 exact {
  nodup := by
   rw [h.head]
   exact hinv.nodup
  count := by
   rw [h.head, h.count]
   exact hinv.count
  unique := by
   intro x y hx hy hxy
   rw [h.head] at hx hy
   rw [hno, hno] at hxy
   exact hinv.unique x y hx hy hxy
  heldListed := by
   intro u x hx
   rw [h.head]
   exact hinv.heldListed u x (hstill u x hx)
  heldAcquired := by
   intro u x hx
   by_cases hxa : x = a
   · rw [hxa] at hx
     exact absurd hx (hgone u)
   rw [hview x hxa]
   exact hinv.heldAcquired u x (hstill u x hx)
  owned := by
   intro x hx hacq
   rw [h.head] at hx
   by_cases hxa : x = a
   · rw [hxa, h.view, update_self] at hacq
     cases hacq
   rw [hview x hxa] at hacq
   rcases hinv.owned x hx hacq with ⟨u, hu⟩
   refine ⟨u, ?_⟩
   rw [h.held]
   by_cases hut : u = t
   · subst hut
     rw [update_self]
     exact (mem_erase_of_ne hxa).mpr hu
   rw [update_of_ne hut]
   exact hu
  heldOnce := by
   intro u v x hu hv
   exact hinv.heldOnce u v x (hstill u x hu) (hstill v x hv)
  heldNodup := by
   intro u
   rw [h.held]
   by_cases hut : u = t
   · subst hut
     rw [update_self]
     exact (hinv.heldNodup u).erase a
   rw [update_of_ne hut]
   exact hinv.heldNodup u }

theorem listInv_changes {pinned : Bool} (hinv : ListInv s)
  (h : s.Changes t a pinned data next) : ListInv next := by
 apply hinv.frame h.head h.count h.held
 intro x
 rw [h.view]
 by_cases hx : x = a
 · subst hx
   simp
 · simp [hx]

variable {l : CacheLabel}

theorem listInv_step (hinv : ListInv s) (h : s.step l = some next) : ListInv next := by
 rcases step_cases h with hquiet | ⟨t, a, htakes⟩ | ⟨t, a, no, data, hloads⟩ |
  ⟨t, a, hreleases⟩ | ⟨t, a, pinned, data, hchanges⟩
 · exact listInv_quiet hinv hquiet
 · exact listInv_takes hinv htakes
 · exact listInv_loads hinv hloads
 · exact listInv_releases hinv hreleases
 · exact listInv_changes hinv hchanges

theorem listInv_reachable {guard : CacheState -> CacheLabel -> Prop}
  (h : Reachable cacheSystem guard s) : ListInv s := by
 apply reachable_invariant ListInv _ _ h
 · intro start hinitial
   exact listInv_initial hinitial
 intro mid l next _ hinv _ hstep
 exact listInv_step hinv hstep

/-!
# Nodes that stay

Eviction only drops blocks that are neither held nor pinned, and no other step
drops a block at all.
-/

theorem step_keeps (hstep : s.step l = some next) (ha : a ∈ s.head)
  (hkeep : (s.view a).acquired ∨ (s.view a).pinned) :
  a ∈ next.head ∧ (next.view a).blockNo = (s.view a).blockNo := by
 rcases step_cases hstep with hquiet | ⟨t, b, htakes⟩ |
  ⟨t, b, no, data, hloads⟩ | ⟨t, b, hreleases⟩ |
  ⟨t, b, pinned, data, hchanges⟩
 · rw [hquiet.head, hquiet.view]
   exact ⟨ha, rfl⟩
 · have hperm : (b :: s.head.erase b).Perm s.head := (perm_cons_erase htakes.listed).symm
   rw [htakes.head, htakes.view, hperm.mem_iff]
   refine ⟨ha, ?_⟩
   by_cases hab : a = b
   · subst hab
     simp
   · simp [hab]
 · have hstays := makeRoom_keeps ha hkeep
   have hab : a ≠ b := by
    rintro rfl
    exact hloads.fresh hstays
   rw [hloads.head, hloads.view, update_of_ne hab]
   exact ⟨mem_cons_of_mem _ hstays, rfl⟩
 · rw [hreleases.head, hreleases.view]
   refine ⟨ha, ?_⟩
   by_cases hab : a = b
   · subst hab
     simp
   · simp [hab]
 · rw [hchanges.head, hchanges.view]
   refine ⟨ha, ?_⟩
   by_cases hab : a = b
   · subst hab
     simp
   · simp [hab]

/-!
# What other threads see

A step of one thread leaves alone which blocks another thread holds, what these
blocks contain, and which block number that thread is trying to acquire.
-/

theorem target_eq_none {pc : AcquirePc} : target pc = none ↔ pc = .idle := by
 cases pc <;> simp [target]

theorem target_of_backTarget {pc : AcquirePc}
  (h : backTarget pc = some no) : target pc = some no := by
 cases pc <;> simp_all [backTarget, target]

theorem target_wakeOption (pc : Tid -> AcquirePc) (woken : Option Tid)
  (t : Tid) : target (wakeOption pc woken t) = target (pc t) := by
 cases woken with
 | none => rfl
 | some u =>
  simp only [wakeOption, wake]
  cases hpc : pc u with
  | asleep no a =>
   by_cases htu : t = u
   · subst htu
     rw [hpc]
     simp [target]
   · simp [htu]
  | _ => rfl

structure Untouched (s : CacheState) (t : Tid) (next : CacheState) : Prop where
 held : next.held t = s.held t
 target : target (next.pc t) = target (s.pc t)
 view : forall x, x ∈ s.held t -> next.view x = s.view x

section
variable (hinv : ListInv s) (hut : t ≠ u)
include hinv hut

theorem untouched_takes (h : s.Takes u a next)
  (hpc : target (next.pc t) = target (s.pc t)) : s.Untouched t next := by
 refine ⟨?_, hpc, ?_⟩
 · rw [h.held, update_of_ne hut]
 intro x hx
 rw [h.view, update_of_ne]
 intro heq
 have hacq := hinv.heldAcquired t x hx
 rw [heq, h.free] at hacq
 cases hacq

theorem untouched_loads (h : s.Loads u a no data next)
  (hpc : target (next.pc t) = target (s.pc t)) : s.Untouched t next := by
 refine ⟨?_, hpc, ?_⟩
 · rw [h.held, update_of_ne hut]
 intro x hx
 rw [h.view, update_of_ne]
 intro heq
 apply h.fresh
 rw [← heq]
 exact makeRoom_keeps (hinv.heldListed t x hx) (.inl (hinv.heldAcquired t x hx))

theorem untouched_acquireSection {ifBack : Bool} {fresh : Addr} {device : BlockData}
  (h : s.acquireSection u no ifBack fresh device = some next) : s.Untouched t next := by
 rcases acquireSection_cases h with ⟨a, hquiet, hpc⟩ | ⟨hpc, ⟨a, _, htakes⟩ | hloads⟩
 · refine ⟨by rw [hquiet.held], ?_, fun x _ => by rw [hquiet.view]⟩
   rw [hpc, update_of_ne hut]
 · exact untouched_takes hinv hut htakes (by rw [hpc, update_of_ne hut])
 · exact untouched_loads hinv hut hloads (by rw [hpc, update_of_ne hut])

theorem untouched_changes {pinned : Bool}
  (h : s.Changes u a pinned data next) : s.Untouched t next := by
 refine ⟨by rw [h.held], by rw [h.pc], ?_⟩
 intro x hx
 rw [h.view, update_of_ne]
 intro heq
 rw [heq] at hx
 exact hut (hinv.heldOnce t u a hx h.owned)
end

theorem untouched_wait {u : Tid}
  (h : s.waitBlock u = some next) (t : Tid) : s.Untouched t next := by
 rcases waitBlock_cases h with ⟨no, a, hwaiting, hquiet, hpc⟩
 refine ⟨by rw [hquiet.held], ?_, fun x _ => by rw [hquiet.view]⟩
 by_cases ht : t = u
 · subst ht
   rw [hwaiting]
   rcases hpc with hpc | hpc <;> rw [hpc, update_self] <;> rfl
 · rcases hpc with hpc | hpc <;> rw [hpc, update_of_ne ht]

theorem step_untouched (hinv : ListInv s) (h : s.step l = some next) (ht : t ≠ l.actor) :
  s.Untouched t next := by
 cases l with
 | acquire u no fresh device | back u fresh device =>
  simp only [step] at h
  split at h
  · exact untouched_acquireSection hinv ht h
  · cases h
 | wait u => exact untouched_wait h t
 | release u a =>
  rcases cacheRelease_cases h with ⟨_, hreleases, woken, hpc⟩
  change t ≠ u at ht
  refine ⟨?_, ?_, ?_⟩
  · rw [hreleases.held, update_of_ne ht]
  · rw [hpc, target_wakeOption]
  intro x hx
  rw [hreleases.view, update_of_ne]
  intro heq
  rw [heq] at hx
  exact ht (hinv.heldOnce t u a hx hreleases.owned)
 | _ =>
  exact untouched_changes hinv ht (modifyHeld_cases h rfl rfl).right

end CacheState

/-!
# Block locks
-/

/--
What the locking of blocks guarantees in a state: a block number is held at most
once, it has at most one node, the counter counts the nodes, and no step removes
the node of a block that is held or pinned.
-/
structure BlockLocks (s : CacheState) : Prop where
 exclusive : forall t u a b, a ∈ s.held t -> b ∈ s.held u ->
  (s.heap a).blockNo = (s.heap b).blockNo -> t = u ∧ a = b
 heldOnce : forall t, (s.held t).Nodup
 nodup : s.head.Nodup
 oneNode : forall a b, a ∈ s.head -> b ∈ s.head -> (s.heap a).blockNo = (s.heap b).blockNo -> a = b
 counted : s.getNumCachedBlocks = s.head.length
 kept : forall l next a, s.step l = some next -> a ∈ s.head ->
  (exists t, a ∈ s.held t) ∨ (s.heap a).pinned = true ->
  a ∈ next.head ∧ (next.heap a).blockNo = (s.heap a).blockNo

theorem blockLocks_of_reachable {s : CacheState}
  (h : Reachable cacheSystem unguarded s) : BlockLocks s := by
 have hinv := CacheState.listInv_reachable h
 exact {
  exclusive := by
   intro t u a b ha hb hno
   have hab : a = b := hinv.unique a b (hinv.heldListed t a ha) (hinv.heldListed u b hb) hno
   subst hab
   exact ⟨hinv.heldOnce t u a ha hb, rfl⟩
  heldOnce := hinv.heldNodup
  nodup := hinv.nodup
  oneNode := hinv.unique
  counted := hinv.count
  kept := by
   intro l next a hstep ha hkeep
   apply CacheState.step_keeps hstep ha
   rcases hkeep with ⟨t, ht⟩ | hpinned
   · exact .inl (hinv.heldAcquired t a ht)
   · exact .inr hpinned }

/-- The invariant holds with one thread holding a block and another waiting. -/
theorem blockLocks_contended : exists s, s.held 0 = [100] ∧ s.pc 1 = AcquirePc.waiting 7 100 ∧
    BlockLocks s := by
 rcases exists_reachable_of_execute cacheSystem unguarded CacheState.empty_initial
  [.acquire 0 7 100 (fun _ => 1), .acquire 1 7 101 (fun _ => 1)]
  (fun s => s.held 0 = [100] ∧ s.pc 1 = .waiting 7 100) (by decide) with
  ⟨s, hreach, hheld, hpc⟩
 exact ⟨s, hheld, hpc, blockLocks_of_reachable hreach⟩

end OSLab.Fs
