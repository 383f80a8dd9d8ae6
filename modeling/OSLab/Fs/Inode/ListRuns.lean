import OSLab.Fs.Inode.Identity
import Mathlib.Data.Finset.Range
import Mathlib.Data.List.Nodup

/-!
# Runs of the inode list

First for threads that interleave, then for calls one after the other.  In both cases
`inode_get` must not come between the two halves of an `inode_put` that frees the inode;
for inodes with links or references this is certain.
-/

namespace OSLab.Fs
open Foundation Function InodeList InodeUse
variable {s next : InodeList} {a b k : Nat}

namespace InodeList

/-- `inode_get` is called for an inode that has links or references. -/
def Known (s : InodeList) : InodeListLabel -> Prop
 | .get _ inodeNo _ => (s.disk inodeNo).numLinks ≠ 0 ∨
  exists j a, s.counts j = some a ∧ (s.node a).inodeNo = inodeNo
 | _ => True

variable {inodeNo memory : Nat}

theorem Identified.calm_of_known (h : s.Identified)
  (hknown : s.Known (.get k inodeNo memory)) : s.Calm inodeNo := by
 intro j a hfreeing hno
 have hdetached := h.detached_of_freeing hfreeing
 rcases hknown with hlinked | ⟨i, b, hcounts, hsame⟩
 · apply hlinked
   rw [← hno]
   exact hdetached.disk
 · exact hdetached.other b (h.attached i b hcounts) (h.rc_pos hcounts) (hsame.trans hno.symm)

theorem identified_of_reachable (hreach : inodeListSystem.Reachable Known s) : s.Identified := by
 rcases hreach with ⟨start, hstart, hrun⟩
 refine TransitionSystem.reaches_invariant Identified ?_ hrun (Start.identified hstart)
 intro mid l after _ hmid hknown hstep
 apply hmid.moves _ (step_moves hstep)
 intro k inodeNo memory hl
 rw [hl] at hknown
 exact hmid.calm_of_known hknown

/-!
# What a step does to the nodes
-/

variable {l : InodeListLabel}

theorem Moves.inodeNo_eq (h : Moves s l next) (hs : s.Identified)
  (ha : a ∈ s.list) : (next.node a).inodeNo = (s.node a).inodeNo := by
 have hused := hs.inUse a ha
 cases h <;> simp only [setRef, setNode, inodeSync_eq, update_self, update_apply] <;>
  grind [created, update_apply]

theorem get_counts (h : Moves s (.get k inodeNo memory) next) :
  exists a, next.counts k = some a ∧ (next.node a).inodeNo = inodeNo := by
 cases h with
 | @found _ _ _ a hk _ ha hno hpos =>
  exact ⟨a, by simp [counts, setRef, counted], by simp [setRef, setNode, hno]⟩
 | create hk hrange hnone hfree =>
  exact ⟨memory, by simp [counts, setRef, counted], by simp [setRef, setNode, created]⟩

theorem Moves.detaches (h : Moves s l next) (ha : a ∈ s.list) (hgone : a ∉ next.list) :
  exists k, l = .put k ∧ s.ref k = .held a ∧ lastUnlinked (s.node a) := by
 cases h <;> simp only [setRef, setNode, inodeSync_eq] at hgone <;> grind

theorem Moves.releases (h : Moves s l next) (ha : s.used a)
  (hfree : next.used a = false) : exists k, l = .proceed k ∧ s.ref k = .ending a := by
 cases h <;> simp only [setRef, setNode, inodeSync_eq, update_apply] at hfree <;> grind

def remaining : InodeUse -> Nat
 | .creating _ => 2
 | .loaded _ | .checking _ => 1
 | .clearing _ => 3
 | .erasing _ => 2
 | .ending _ => 1
 | _ => 0

def owner : InodeListLabel -> Nat
 | .get k _ _ | .share _ k | .put k | .proceed k | .relink k _ => k

theorem Moves.ref_other (h : Moves s l next) {j : Nat}
  (hj : j ≠ owner l) : next.ref j = s.ref j := by
 cases h <;> simp only [owner] at hj <;>
  simp only [setRef, setNode, inodeSync_eq, update_of_ne hj]

theorem Moves.proceeds (h : Moves s (.proceed k) next) :
  next.list = s.list ∧ remaining (next.ref k) + 1 = remaining (s.ref k) ∧
    ((next.ref k).freeing = (s.ref k).freeing ∨ remaining (next.ref k) = 0 ∧
      forall a, (s.ref k).freeing = some a -> next.used a = false) := by
 cases h with
 | release hk => simp [hk, remaining, freeing, setRef, setNode]
 | _ hk => simp [hk, remaining, freeing, setRef, setNode, inodeSync_eq]

theorem Identified.only_ref (h : s.Identified) (hk : s.counts k = some a)
  (hone : (s.node a).rc = 1) {j : Nat} (hj : s.counts j = some a) : j = k := by
 by_contra hne
 have htwo := (h.counted a (h.attached k a hk)).two_le hj hk hne
 omega

end InodeList

/--
The references to an inode are all to one object, which counts them.  A reference that
`inode_get` has returned is to a loaded node; the object keeps its number, leaves the list
with the put of the last reference when there are no links, and only then is freed.
-/
theorem inode_identity_of_reachable {s : InodeList}
  (hreach : inodeListSystem.Reachable InodeList.Known s) :
  (forall j k a b, s.counts j = some a -> s.counts k = some b ->
    (s.node a).inodeNo = (s.node b).inodeNo -> a = b) ∧
  (forall k a, s.counts k = some a -> Exactly (fun j => s.counts j = some a) (s.node a).rc) ∧
  (forall k a, s.ref k = InodeUse.held a -> (s.node a).valid = true ∧
    (s.node a).entry = s.disk (s.node a).inodeNo) ∧
  forall l next, inodeListSystem.step s l = some next ->
    (forall k inodeNo memory, l = InodeListLabel.get k inodeNo memory ->
      exists a, next.counts k = some a ∧ (next.node a).inodeNo = inodeNo) ∧
    (forall k a, s.counts k = some a -> (next.node a).inodeNo = (s.node a).inodeNo) ∧
    (forall a, a ∈ s.list -> a ∉ next.list -> exists k, l = InodeListLabel.put k ∧
      s.ref k = InodeUse.held a ∧ (s.node a).entry.numLinks = 0 ∧
      forall j, s.counts j = some a -> j = k) ∧
    (forall a, s.used a = true -> next.used a = false ->
      exists k, l = InodeListLabel.proceed k ∧ s.ref k = InodeUse.ending a ∧ a ∉ s.list ∧
        (s.node a).entry.numLinks = 0 ∧ forall j, s.counts j ≠ some a) := by
 have h := identified_of_reachable hreach
 refine ⟨?_, ?_, ?_, ?_⟩
 · intro j k a b hj hk hno
   exact h.unique a b (h.attached j a hj) (h.attached k b hk) (h.rc_pos hj) (h.rc_pos hk) hno
 · intro k a hk
   exact h.counted a (h.attached k a hk)
 · intro k a hk
   have hcounts := counts_of hk
   have hvalid := h.fits k
   rw [hk] at hvalid
   exact ⟨hvalid, h.fresh a (h.attached k a hcounts) (h.rc_pos hcounts) hvalid⟩
 intro l next hstep
 refine ⟨?_, ?_, ?_, ?_⟩
 · intro k inodeNo memory hl
   rw [hl] at hstep
   exact get_counts (step_moves hstep)
 · intro k a hk
   exact (step_moves hstep).inodeNo_eq h (h.attached k a hk)
 · intro a ha hgone
   rcases (step_moves hstep).detaches ha hgone with ⟨k, hl, hk, hlast⟩
   unfold lastUnlinked at hlast
   rw [Bool.and_eq_true, Bool.and_eq_true] at hlast
   have hcounts := counts_of hk
   refine ⟨k, hl, hk, of_decide_eq_true hlast.left.right, ?_⟩
   intro j hj
   exact h.only_ref hcounts (of_decide_eq_true hlast.left.left) hj
 intro a ha hfree
 rcases (step_moves hstep).releases ha hfree with ⟨k, hl, hk⟩
 have hfreeing : (s.ref k).freeing = some a := by
  rw [hk]
  rfl
 have hdetached := h.detached_of_freeing hfreeing
 refine ⟨k, hl, hk, hdetached.outside, hdetached.entry, ?_⟩
 intro j hj
 exact hdetached.outside (h.attached j a hj)

def linkedList : InodeList where
 numInodes := 8
 list := []
 node := fun _ =>
  { inodeNo := 0, rc := 0, valid := false, locked := false,
    entry := InodeEntry.fresh inodeInvalid }
 used := fun _ => false
 disk := fun _ => { InodeEntry.fresh inodeRegular with numLinks := 1 }
 ref := fun _ => .unused

theorem linkedList_start : inodeListSystem.initial linkedList := ⟨rfl, fun _ => rfl, fun _ => rfl⟩

def InodeList.linked (s : InodeList) : InodeListLabel -> Bool
 | .get _ inodeNo _ => decide ((s.disk inodeNo).numLinks ≠ 0)
 | _ => true

theorem InodeList.known_of_linked {s : InodeList} {l : InodeListLabel} (h : s.linked l) :
  s.Known l := by
 cases l with
 | get k inodeNo memory => exact .inl (of_decide_eq_true h)
 | _ => trivial

/-- Two references to one inode, taken by calls that overlap. -/
theorem inode_identity_two_gets :
  exists s, inodeListSystem.Reachable InodeList.Known s ∧ s.ref 0 = InodeUse.held 7 ∧
    s.ref 1 = InodeUse.held 7 ∧ Exactly (fun j => s.counts j = some 7) (s.node 7).rc := by
 rcases TransitionSystem.exists_reachable_of_execute inodeListSystem
  (fun s l => s.linked l = true) linkedList_start
  [.get 0 1 7, .get 1 1 9, .proceed 0,
   .proceed 0, .proceed 1]
  (fun s => s.ref 0 = .held 7 ∧ s.ref 1 = .held 7) (by decide +kernel) with
  ⟨s, hreach, hzero, hone⟩
 have hknown : inodeListSystem.Reachable Known s :=
  TransitionSystem.reachable_mono (fun _ _ hlinked => known_of_linked hlinked) hreach
 exact ⟨s, hknown, hzero, hone,
  (inode_identity_of_reachable hknown).right.left 0 7 (counts_of hzero)⟩

/-!
# Calls one after the other
-/

namespace InodeList

def finish (k : Nat) : Nat -> InodeList -> Option InodeList
 | 0, s => some s
 | fuel + 1, s => if remaining (s.ref k) = 0 then some s else (s.proceed k).bind (finish k fuel)

variable (s : InodeList)

def call : InodeListLabel -> Option InodeList
 | .get k inodeNo memory => (s.get k inodeNo memory).bind (finish k 3)
 | .share j k => s.share j k
 | .put k => (s.put k).bind (finish k 3)
 | .proceed _ => none
 | .relink k links => s.relink k links

def AtRest : Prop := forall k, remaining (s.ref k) = 0

def InRange : Prop := forall a, a ∈ s.list -> (s.node a).inodeNo < s.numInodes

def Alive : Prop := forall a, a ∈ s.list -> 0 < (s.node a).rc

def FreesLast : InodeListLabel -> Prop
 | .put k => forall a, s.ref k = .held a -> (s.node a).rc = 1 ->
  (s.node a).entry.numLinks = 0
 | _ => True

end InodeList

def inodeCallSystem : TransitionSystem InodeList InodeListLabel where
 initial := Start
 step := call

namespace InodeList

structure Tidy (s : InodeList) : Prop where
 identified : s.Identified
 inRange : s.InRange
 alive : s.Alive

def Only (s : InodeList) (k : Nat) : Prop := forall j, j ≠ k -> remaining (s.ref j) = 0

theorem Tidy.moves {l : InodeListLabel} (h : s.Tidy)
  (hcalm : forall k inodeNo memory, l = .get k inodeNo memory -> s.Calm inodeNo)
  (hfrees : s.FreesLast l) (hmoves : Moves s l next) : next.Tidy := by
 have hrange := h.inRange
 have halive := h.alive
 refine ⟨h.identified.moves hcalm hmoves, ?_, ?_⟩
 · intro a ha
   cases hmoves <;>
    simp only [setRef, setNode, inodeSync_eq, update_apply] at ha ⊢ <;>
    grind [InRange, created, List.mem_of_mem_erase, update_apply]
 intro a ha
 cases hmoves with
 | @drop k b hk hlast =>
  -- the count was not one, or the node would have left the list
  have hpos := h.identified.rc_pos (counts_of hk)
  have hvalid := h.identified.fits k
  rw [hk] at hvalid
  have hmore : (s.node b).rc ≠ 1 := by
   intro hone
   unfold lastUnlinked at hlast
   rw [hvalid, hone, hfrees b hk hone] at hlast
   cases hlast
  simp only [setRef, setNode, update_apply] at ha ⊢
  grind [Alive]
 | _ =>
  simp only [setRef, setNode, inodeSync_eq, update_apply] at ha ⊢
  grind [Alive, created, List.mem_of_mem_erase, update_apply]

theorem remaining_of_opening (h : use.opening = some a) : remaining use ≠ 0 := by
 cases use with
 | creating b => exact Nat.succ_ne_zero 1
 | loaded b => exact Nat.succ_ne_zero 0
 | _ => cases h

theorem Tidy.proceed_returns (h : s.Tidy) (honly : s.Only k)
  (hmore : remaining (s.ref k) ≠ 0) : exists next, s.proceed k = some next := by
 unfold proceed
 cases huse : s.ref k with
 | creating a | clearing a | erasing a | ending a => exact ⟨_, rfl⟩
 | loaded a =>
  have hcounts : s.counts k = some a := by
   unfold counts
   rw [huse]
   rfl
  simp only
  rw [if_pos (h.identified.rc_pos hcounts)]
  exact ⟨_, rfl⟩
 | checking a =>
  have hcounts : s.counts k = some a := by
   unfold counts
   rw [huse]
   rfl
  have hfree : (s.node a).locked = false := by
   cases hlocked : (s.node a).locked with
   | false => rfl
   | true =>
    -- whoever has the lock is in a call, so it is this one
    rcases h.identified.locker a (h.identified.attached k a hcounts) hlocked with ⟨j, hj⟩
    by_cases hjk : j = k
    · rw [hjk, huse] at hj
      cases hj
    · exact absurd (honly j hjk) (remaining_of_opening hj)
  simp only
  rw [if_pos ⟨h.identified.rc_pos hcounts, hfree⟩]
  exact ⟨_, rfl⟩
 | unused | held a =>
  rw [huse] at hmore
  exact absurd rfl hmore

theorem remaining_of_freeing (h : use.freeing = some a) : remaining use ≠ 0 := by
 cases use with
 | clearing b => exact Nat.succ_ne_zero 2
 | erasing b => exact Nat.succ_ne_zero 1
 | ending b => exact Nat.succ_ne_zero 0
 | _ => cases h

theorem finish_of_rest (fuel : Nat) (h : remaining (s.ref k) = 0) : finish k fuel s = some s := by
 cases fuel with
 | zero => rfl
 | succ fuel =>
  unfold finish
  rw [if_pos h]

theorem Tidy.finish_rest {fuel : Nat} (h : s.Tidy) (honly : s.Only k)
  (hfuel : remaining (s.ref k) ≤ fuel) :
  exists next, finish k fuel s = some next ∧ next.Tidy ∧ next.AtRest ∧ next.list = s.list ∧
    (forall a, (s.ref k).freeing = some a -> next.used a = false) := by
 induction fuel generalizing s with
 | zero =>
  have hdone : remaining (s.ref k) = 0 := by omega
  refine ⟨s, rfl, h, ?_, rfl, fun a ha => absurd hdone (remaining_of_freeing ha)⟩
  intro j
  by_cases hj : j = k
  · rw [hj]
    exact hdone
  · exact honly j hj
 | succ fuel ih =>
  by_cases hdone : remaining (s.ref k) = 0
  · refine ⟨s, finish_of_rest _ hdone, h, ?_, rfl,
     fun a ha => absurd hdone (remaining_of_freeing ha)⟩
    intro j
    by_cases hj : j = k
    · rw [hj]
      exact hdone
    · exact honly j hj
  unfold finish
  rw [if_neg hdone]
  rcases h.proceed_returns honly hdone with ⟨mid, hmid⟩
  have hmoves := proceed_moves hmid
  rcases hmoves.proceeds with ⟨hmidlist, hless, hfreeing⟩
  have honly' : mid.Only k := by
   intro j hj
   rw [hmoves.ref_other hj]
   exact honly j hj
  have htidymid : mid.Tidy := by
   apply h.moves _ _ hmoves
   · nofun
   · trivial
  rcases ih htidymid honly' (by omega) with ⟨next, hfinish, htidy, hrest, hlist, hused⟩
  rw [hmid]
  refine ⟨next, hfinish, htidy, hrest, hlist.trans hmidlist, ?_⟩
  intro a ha
  rcases hfreeing with hsame | ⟨hend, hgone⟩
  · apply hused a
    rw [hsame]
    exact ha
  rw [finish_of_rest fuel hend] at hfinish
  rw [← Option.some.inj hfinish]
  exact hgone a ha

theorem AtRest.calm (h : s.AtRest) (inodeNo : Nat) : s.Calm inodeNo := by
 intro j a hfreeing
 exact absurd (h j) (remaining_of_freeing hfreeing)

theorem Tidy.begin {l : InodeListLabel} (h : s.Tidy) (hrest : s.AtRest) (hfrees : s.FreesLast l)
  (hmoves : Moves s l next) : next.Tidy ∧ next.Only (owner l) := by
 refine ⟨h.moves (fun _ inodeNo _ _ => hrest.calm inodeNo) hfrees hmoves, ?_⟩
 intro j hj
 rw [hmoves.ref_other hj]
 exact hrest j

theorem Identified.lastUnlinked_iff (h : s.Identified) (hk : s.ref k = .held a) :
  lastUnlinked (s.node a) ↔ (s.node a).rc = 1 ∧ (s.node a).entry.numLinks = 0 := by
 have hvalid := h.fits k
 rw [hk] at hvalid
 unfold lastUnlinked
 rw [hvalid, Bool.and_true, Bool.and_eq_true, decide_eq_true_eq, decide_eq_true_eq]

theorem remaining_le (use : InodeUse) : remaining use ≤ 3 := by
 unfold remaining
 split <;> omega

theorem Tidy.finish_call {l : InodeListLabel} (h : s.Tidy) (hrest : s.AtRest)
  (hfrees : s.FreesLast l) {mid : InodeList} (hmoves : Moves s l mid)
  (hfinish : finish (owner l) 3 mid = some next) : next.Tidy ∧ next.AtRest := by
 rcases h.begin hrest hfrees hmoves with ⟨htidy, honly⟩
 rcases htidy.finish_rest honly (remaining_le _) with ⟨next', hnext, htidy', hrest', _⟩
 rw [hfinish] at hnext
 rw [Option.some.inj hnext]
 exact ⟨htidy', hrest'⟩

theorem Tidy.call {l : InodeListLabel} (h : s.Tidy) (hrest : s.AtRest) (hfrees : s.FreesLast l)
  (hcall : s.call l = some next) : next.Tidy ∧ next.AtRest := by
 cases l with
 | get k inodeNo memory =>
  rcases Option.bind_eq_some_iff.mp hcall with ⟨mid, hmid, hfinish⟩
  exact h.finish_call hrest hfrees (get_moves hmid) hfinish
 | share j k =>
  have hmoves := step_moves (l := .share j k) hcall
  apply h.finish_call hrest hfrees hmoves
  apply finish_of_rest
  cases hmoves
  simp [owner, setRef, remaining]
 | put k =>
  rcases Option.bind_eq_some_iff.mp hcall with ⟨mid, hmid, hfinish⟩
  exact h.finish_call hrest hfrees (put_moves hmid) hfinish
 | proceed k => cases hcall
 | relink k links =>
  have hmoves := step_moves (l := .relink k links) hcall
  apply h.finish_call hrest hfrees hmoves
  apply finish_of_rest
  cases hmoves with
  | relink hk => simp [owner, inodeSync_eq, setNode, hk, remaining]

theorem tidy_of_reachable (hreach : inodeCallSystem.Reachable FreesLast s) : s.Tidy ∧ s.AtRest := by
 rcases hreach with ⟨start, hstart, hrun⟩
 refine TransitionSystem.reaches_invariant (fun s => s.Tidy ∧ s.AtRest) ?_ hrun ?_
 · intro mid l after _ hmid hfrees hstep
   exact hmid.left.call hmid.right hfrees hstep
 have hempty : forall a, a ∉ start.list := by
  intro a ha
  rw [hstart.list] at ha
  cases ha
 refine ⟨⟨Start.identified hstart, fun a ha => absurd ha (hempty a),
  fun a ha => absurd ha (hempty a)⟩, ?_⟩
 intro k
 rw [hstart.ref]
 rfl

theorem Tidy.numbers_nodup (h : s.Tidy) : (s.list.map fun a => (s.node a).inodeNo).Nodup := by
 apply h.identified.nodup.map_on
 intro a ha b hb hno
 exact h.identified.unique a b ha hb (h.alive a ha) (h.alive b hb) hno

theorem Tidy.length_le (h : s.Tidy) : s.list.length ≤ s.numInodes := by
 have hsubset : (s.list.map fun a => (s.node a).inodeNo).toFinset ⊆ Finset.range s.numInodes := by
  intro inodeNo hmem
  rw [List.mem_toFinset, List.mem_map] at hmem
  rcases hmem with ⟨a, ha, hno⟩
  rw [Finset.mem_range, ← hno]
  exact h.inRange a ha
 have hcard := Finset.card_le_card hsubset
 rw [List.toFinset_card_of_nodup h.numbers_nodup, List.length_map, Finset.card_range] at hcard
 exact hcard

theorem Tidy.put_releases (h : s.Tidy) (hrest : s.AtRest) (hk : s.ref k = .held a)
  (hone : (s.node a).rc = 1) (hlinks : (s.node a).entry.numLinks = 0) :
  exists next, s.call (.put k) = some next ∧ a ∉ next.list ∧ next.used a = false := by
 have hlast := (h.identified.lastUnlinked_iff hk).mpr ⟨hone, hlinks⟩
 have hfree : (s.node a).locked = false := by
  cases hlocked : (s.node a).locked with
  | false => rfl
  | true =>
   have ha := h.identified.attached k a (counts_of hk)
   rcases h.identified.locker a ha hlocked with ⟨j, hj⟩
   exact absurd (hrest j) (remaining_of_opening hj)
 have hput : s.put k = some { (s.setNode a { s.node a with locked := true }).setRef k
  (.clearing a) with list := s.list.erase a } := by
  unfold put
  rw [hk]
  simp only
  rw [if_pos hlast, hfree, if_neg nofun]
 have hfrees : s.FreesLast (.put k) := by
  intro b hb _
  rw [hk] at hb
  rw [← held.inj hb]
  exact hlinks
 rcases h.begin hrest hfrees (put_moves hput) with ⟨htidy, honly⟩
 rcases htidy.finish_rest honly (remaining_le _) with ⟨next, hfinish, _, _, hlist, hused⟩
 refine ⟨next, ?_, ?_, ?_⟩
 · change (s.put k).bind (finish k 3) = some next
   rw [hput]
   exact hfinish
 · rw [hlist]
   exact h.identified.nodup.not_mem_erase
 apply hused a
 change (update s.ref k (.clearing a) k).freeing = some a
 rw [update_self]
 rfl

end InodeList

/--
If the last reference of an inode is put only when it has no links, there is one node for
a number, there are not more nodes than inodes, and that put releases the node.
-/
theorem inode_list_bounded_of_reachable {s : InodeList}
  (hreach : inodeCallSystem.Reachable InodeList.FreesLast s) :
  (s.list.map fun a => (s.node a).inodeNo).Nodup ∧ s.list.length ≤ s.numInodes ∧
    forall k a, s.ref k = InodeUse.held a -> (s.node a).rc = 1 ->
      s.FreesLast (InodeListLabel.put k) ->
      exists next, inodeCallSystem.step s (InodeListLabel.put k) = some next ∧ a ∉ next.list ∧
        next.used a = false := by
 rcases tidy_of_reachable hreach with ⟨htidy, hrest⟩
 refine ⟨htidy.numbers_nodup, htidy.length_le, ?_⟩
 intro k a hk hone hfrees
 exact htidy.put_releases hrest hk hone (hfrees a hk hone)

theorem inode_list_bounded_two_gets :
  exists s, inodeCallSystem.Reachable InodeList.FreesLast s ∧ s.ref 1 = InodeUse.held 7 ∧
    (s.list.map fun a => (s.node a).inodeNo).Nodup := by
 have hget : exists mid, inodeCallSystem.step linkedList (.get 0 1 7) = some mid ∧
  exists s, inodeCallSystem.step mid (.get 1 1 9) = some s ∧ s.ref 1 = .held 7 := by
  decide +kernel
 rcases hget with ⟨mid, hmid, s, hs, hheld⟩
 have hreach : inodeCallSystem.Reachable FreesLast s :=
  ⟨linkedList, linkedList_start, TransitionSystem.Reaches.tail
   (TransitionSystem.Reaches.tail (TransitionSystem.Reaches.refl _)
    (show linkedList.FreesLast (.get 0 1 7) from trivial) hmid)
   (show mid.FreesLast (.get 1 1 9) from trivial) hs⟩
 exact ⟨s, hreach, hheld, (inode_list_bounded_of_reachable hreach).left⟩

/-- Getting and putting an inode with a link adds a node to the list each time. -/
theorem inode_list_grows :
  exists s, inodeCallSystem.Reachable TransitionSystem.unguarded s ∧ s.list = [9, 7] ∧
    (s.node 9).inodeNo = 1 ∧ (s.node 7).inodeNo = 1 ∧ (s.node 9).rc = 0 ∧
    (s.node 7).rc = 0 :=
 TransitionSystem.exists_reachable_with
  (show inodeCallSystem.initial linkedList from linkedList_start)
  [.get 0 1 7, .put 0, .get 0 1 9, .put 0]
  (by decide +kernel)

end OSLab.Fs
