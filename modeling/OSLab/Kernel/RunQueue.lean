import OSLab.Kernel.Sched

/-!
# Run queues

What the run queues hold, in terms of two sets: the items that are counted and those
that are queued, each at its home.  A process belongs to its container, and a container
to its parent.

The order of the trees and the sums of the weights are kept only in runs that are tidy;
the counts and the members do not depend on them.
-/

namespace OSLab.Kernel
open Foundation Finset
open ColorTree hiding insert
namespace Sched
variable (s : Sched)

def home (a : Addr) : Addr := if s.isContainer a then s.parent a else s.container a

theorem home_congr {s t : Sched} {a : Addr} (hgroup : t.isContainer a = s.isContainer a)
  (hparent : t.parent a = s.parent a) (hcontainer : t.container a = s.container a) :
  t.home a = s.home a := by
 unfold home
 rw [hgroup, hparent, hcontainer]

structure Queues (tidy : Prop) (s : Sched) (A Q : Finset Addr) : Prop where
 balanced : forall c, c ∈ s.conts -> exists k, RedBlack (s.rq c).root .black k
 nodup : forall c, c ∈ s.conts -> (s.rq c).root.toList.Nodup
 nodes : forall c, c ∈ s.conts -> forall a, a ∈ (s.rq c).root.toList ↔ a ∈ tally s.home Q c
 counts : forall c, c ∈ s.conts -> (s.rq c).nrRunning = (tally s.home A c).card
 sorted : tidy -> forall c, c ∈ s.conts -> (s.rq c).root.Sorted s.cfsCmp
 weights : tidy -> forall c, c ∈ s.conts ->
  (s.rq c).weightSum = (∑ a ∈ tally s.home A c, s.weight a) % 4294967296

def Moves (s next : Sched) : Prop := exists v r, next = { s with vruntime := v, rq := r }

theorem Moves.refl : s.Moves s := ⟨s.vruntime, s.rq, rfl⟩

theorem Moves.trans {s mid next : Sched} (hfirst : s.Moves mid) (hsecond : mid.Moves next) :
  s.Moves next := by
 rcases hfirst with ⟨v, r, rfl⟩
 rcases hsecond with ⟨v', r', rfl⟩
 exact ⟨v', r', rfl⟩

theorem moves_setRq (c : Addr) (rq : CfsRq) : s.Moves (s.setRq c rq) :=
 ⟨s.vruntime, _, rfl⟩

theorem moves_count (a c : Addr) : s.Moves (s.count a c) := moves_setRq s c _

theorem moves_discount (a c : Addr) : s.Moves (s.discount a c) := moves_setRq s c _

theorem moves_setVruntime (a : Addr) (time : Nat) : s.Moves (s.setVruntime a time) :=
 ⟨_, s.rq, rfl⟩

/-!
# The order
-/

theorem cfsCmp_strict : StrictOrder s.cfsCmp where
 irrefl := by
  intro a
  unfold cfsCmp
  rw [if_pos rfl, if_pos rfl]
  exact decide_eq_false (Nat.lt_irrefl a)
 trans := by
  intro a b c hab hbc
  unfold cfsCmp at hab hbc ⊢
  grind

variable {a b : Addr}

theorem cfsCmp_total (h : a ≠ b) : s.cfsCmp a b ∨ s.cfsCmp b a := by
 unfold cfsCmp
 grind

theorem vruntime_le_of_cfsCmp {s : Sched} (h : s.cfsCmp a b) : s.vruntime a ≤ s.vruntime b := by
 unfold cfsCmp at h
 grind

theorem cfsCmp_congr {s t : Sched} (hv : t.vruntime a = s.vruntime a ∧ t.vruntime b = s.vruntime b)
  (hp : t.prio a = s.prio a ∧ t.prio b = s.prio b) : t.cfsCmp a b = s.cfsCmp a b := by
 unfold cfsCmp
 rw [hv.left, hv.right, hp.left, hp.right]

namespace Queues
variable {tidy : Prop} {s t : Sched} {A Q : Finset Addr} {a c : Addr}

theorem mem_of_queued (h : Queues tidy s A Q) (hc : s.home a ∈ s.conts) (ha : a ∈ Q) :
  a ∈ (s.rq (s.home a)).root.toList :=
 (h.nodes _ hc a).mpr (mem_tally.mpr ⟨ha, rfl⟩)

variable {u : ColorTree Addr}

theorem sorted_congr (hsorted : u.Sorted s.cfsCmp)
  (hv : forall a, a ∈ u.toList -> t.vruntime a = s.vruntime a)
  (hp : forall a, a ∈ u.toList -> t.prio a = s.prio a) : u.Sorted t.cfsCmp := by
 apply List.Pairwise.imp_of_mem _ hsorted
 intro a b ha hb hlt
 rw [cfsCmp_congr ⟨hv a ha, hv b hb⟩ ⟨hp a ha, hp b hb⟩]
 exact hlt

section
variable (h : Queues tidy s A Q)
include h

theorem congr (hrq : t.rq = s.rq) (hconts : t.conts = s.conts)
  (hhome : forall a, a ∈ A ∨ a ∈ Q -> t.home a = s.home a)
  (hkeys : tidy -> forall a, a ∈ Q -> t.vruntime a = s.vruntime a ∧ t.prio a = s.prio a)
  (hweight : tidy -> forall a, a ∈ A -> t.weight a = s.weight a) : Queues tidy t A Q := by
 have hQ : forall c, tally t.home Q c = tally s.home Q c :=
  tally_congr (fun a ha => hhome a (.inr ha))
 have hA : forall c, tally t.home A c = tally s.home A c :=
  tally_congr (fun a ha => hhome a (.inl ha))
 constructor
 · rw [hrq, hconts]
   exact h.balanced
 · rw [hrq, hconts]
   exact h.nodup
 · intro c hc a
   rw [hconts] at hc
   rw [hrq, hQ]
   exact h.nodes c hc a
 · intro c hc
   rw [hconts] at hc
   rw [hrq, hA]
   exact h.counts c hc
 · intro htidy c hc
   rw [hconts] at hc
   rw [hrq]
   have hqueued : forall a, a ∈ (s.rq c).root.toList -> a ∈ Q := by
    intro a ha
    exact (mem_tally.mp ((h.nodes c hc a).mp ha)).left
   apply sorted_congr (h.sorted htidy c hc)
   · intro a ha
     exact (hkeys htidy a (hqueued a ha)).left
   intro a ha
   exact (hkeys htidy a (hqueued a ha)).right
 · intro htidy c hc
   rw [hconts] at hc
   rw [hrq, hA, h.weights htidy c hc]
   congr 1
   apply sum_congr rfl
   intro a ha
   rw [hweight htidy a (mem_tally.mp ha).left]

theorem setVruntime (ha : a ∉ Q) (time : Nat) : Queues tidy (s.setVruntime a time) A Q := by
 apply h.congr (t := s.setVruntime a time) rfl rfl (fun _ _ => rfl)
 · intro _ b hb
   refine ⟨?_, rfl⟩
   apply Function.update_of_ne
   rintro rfl
   exact ha hb
 intro _ _ _
 rfl

theorem setRq {A' Q' : Finset Addr} {rq : CfsRq}
  (hA : forall d, d ≠ c -> tally s.home A' d = tally s.home A d)
  (hQ : forall d, d ≠ c -> tally s.home Q' d = tally s.home Q d)
  (hbalanced : exists k, RedBlack rq.root .black k) (hnodup : rq.root.toList.Nodup)
  (hnodes : forall a, a ∈ rq.root.toList ↔ a ∈ tally s.home Q' c)
  (hcounts : rq.nrRunning = (tally s.home A' c).card) (hsorted : tidy -> rq.root.Sorted s.cfsCmp)
  (hweights : tidy -> rq.weightSum = (∑ a ∈ tally s.home A' c, s.weight a) % 4294967296) :
  Queues tidy (s.setRq c rq) A' Q' := by
 have hself : (s.setRq c rq).rq c = rq := Function.update_self ..
 have hother : forall d, d ≠ c -> (s.setRq c rq).rq d = s.rq d :=
  fun d hd => Function.update_of_ne hd _ _
 constructor
 · intro d hd
   by_cases hsame : d = c
   · rw [hsame, hself]
     exact hbalanced
   rw [hother d hsame]
   exact h.balanced d hd
 · intro d hd
   by_cases hsame : d = c
   · rw [hsame, hself]
     exact hnodup
   rw [hother d hsame]
   exact h.nodup d hd
 · intro d hd a
   by_cases hsame : d = c
   · rw [hsame, hself]
     exact hnodes a
   rw [hother d hsame]
   exact (h.nodes d hd a).trans (iff_of_eq (congrArg (a ∈ ·) (hQ d hsame).symm))
 · intro d hd
   by_cases hsame : d = c
   · rw [hsame, hself]
     exact hcounts
   rw [hother d hsame]
   exact (h.counts d hd).trans (congrArg card (hA d hsame).symm)
 · intro htidy d hd
   by_cases hsame : d = c
   · rw [hsame, hself]
     exact hsorted htidy
   rw [hother d hsame]
   exact h.sorted htidy d hd
 · intro htidy d hd
   by_cases hsame : d = c
   · rw [hsame, hself]
     exact hweights htidy
   rw [hother d hsame, h.weights htidy d hd, ← hA d hsame]
   rfl

/-!
# Insertion and removal
-/

theorem rbInsert (hhome : s.home a = c) (hc : c ∈ s.conts) (ha : a ∉ Q) :
  exists next, s.rbInsert a c = some next ∧ s.Moves next ∧ Queues tidy next A (insert a Q) := by
 rcases h.balanced c hc with ⟨k, hrb⟩
 have hout : a ∉ (s.rq c).root.toList := by
  rw [h.nodes c hc]
  intro hmem
  exact ha (mem_tally.mp hmem).left
 have hnew : forall b, b ∈ (s.rq c).root.toList -> s.cfsCmp a b ∨ s.cfsCmp b a := by
  intro b hb
  apply cfsCmp_total
  rintro rfl
  exact hout hb
 rcases insert_new hrb hnew with ⟨u, n, p, hinsert, hu, hplug, hzoomed, hlist, hperm⟩
 refine ⟨s.setRq c { s.rq c with root := u }, ?_, moves_setRq _ _ _, ?_⟩
 · unfold Sched.rbInsert
   rw [hinsert]
 apply h.setRq
 · intro d _
   rfl
 · intro d hd
   apply tally_insert_of_ne
   rw [hhome]
   exact Ne.symm hd
 · exact ⟨n, hu⟩
 · exact hperm.nodup_iff.mpr (List.nodup_cons.mpr ⟨hout, h.nodup c hc⟩)
 · intro b
   rw [hperm.mem_iff, List.mem_cons, h.nodes c hc, ← hhome, tally_insert_self, mem_insert]
 · exact h.counts c hc
 · intro htidy
   exact sorted_insert s.cfsCmp_strict (h.sorted htidy c hc) hplug hzoomed hlist
 intro htidy
 exact h.weights htidy c hc

theorem erase_root (hhome : s.home a = c) (hc : c ∈ s.conts) (ha : a ∈ Q) :
  exists u, (s.rq c).root.erase a = some u ∧
    Queues tidy (s.setRq c { s.rq c with root := u }) A (Q.erase a) := by
 rcases h.balanced c hc with ⟨k, hrb⟩
 have hin : a ∈ (s.rq c).root.toList := by
  rw [h.nodes c hc]
  exact mem_tally.mpr ⟨ha, hhome⟩
 rcases erase_balanced hrb (mem_toList.mp hin) with ⟨u, n, x, y, herase, hu, hold, hnew⟩
 have hnodup := h.nodup c hc
 rw [hold, List.nodup_middle, List.nodup_cons] at hnodup
 refine ⟨u, herase, ?_⟩
 apply h.setRq
 · intro d _
   rfl
 · intro d hd
   apply tally_erase_of_ne
   rw [hhome]
   exact Ne.symm hd
 · exact ⟨n, hu⟩
 · rw [hnew]
   exact hnodup.right
 · intro b
   have hmem : b ∈ (s.rq c).root.toList ↔ b = a ∨ b ∈ x ++ y := by
    rw [hold, List.mem_append, List.mem_cons, List.mem_append]
    exact or_left_comm
   rw [hnew, ← hhome, tally_erase_self, mem_erase, hhome, ← h.nodes c hc, hmem]
   constructor
   · intro hb
     refine ⟨?_, .inr hb⟩
     rintro rfl
     exact hnodup.left hb
   · intro hb
     exact hb.right.resolve_left hb.left
 · exact h.counts c hc
 · intro htidy
   exact sorted_erase (h.sorted htidy c hc) hold hnew
 intro htidy
 exact h.weights htidy c hc
end

theorem rbErase_root (h : (s.rq c).root.erase a = some u) :
  s.rbErase a c = some (s.setRq c { s.rq c with root := u }) := by
 unfold Sched.rbErase
 rw [h]
 rfl

variable (h : Queues tidy s A Q) (hhome : s.home a = c) (hc : c ∈ s.conts)
include h hhome hc

theorem rbErase (ha : a ∈ Q) :
  exists next, s.rbErase a c = some next ∧ s.Moves next ∧ Queues tidy next A (Q.erase a) := by
 rcases h.erase_root hhome hc ha with ⟨u, hu, hnext⟩
 exact ⟨_, rbErase_root hu, moves_setRq _ _ _, hnext⟩

theorem rbErase_setVruntime (ha : a ∈ Q) (time : Nat) :
  exists next, (s.setVruntime a time).rbErase a c = some next ∧ s.Moves next ∧
    Queues tidy next A (Q.erase a) := by
 rcases h.erase_root hhome hc ha with ⟨u, hu, hnext⟩
 have hmoves := (s.moves_setVruntime a time).trans
  ((s.setVruntime a time).moves_setRq c { s.rq c with root := u })
 exact ⟨_, rbErase_root hu, hmoves, hnext.setVruntime (notMem_erase a Q) time⟩

/-!
# Counting
-/

theorem count (ha : a ∉ A) : Queues tidy (s.count a c) (insert a A) Q := by
 have hout : a ∉ tally s.home A c := fun hmem => ha (mem_tally.mp hmem).left
 have htally : tally s.home (insert a A) c = insert a (tally s.home A c) := by
  rw [← hhome]
  exact tally_insert_self
 apply h.setRq
 · intro d hd
   apply tally_insert_of_ne
   rw [hhome]
   exact Ne.symm hd
 · intro d _
   rfl
 · exact h.balanced c hc
 · exact h.nodup c hc
 · exact h.nodes c hc
 · rw [htally, card_insert_of_notMem hout, h.counts c hc]
 · intro htidy
   exact h.sorted htidy c hc
 intro htidy
 rw [htally, sum_insert hout, h.weights htidy c hc, Nat.mod_add_mod, Nat.add_comm]

theorem discount (ha : a ∈ A) : Queues tidy (s.discount a c) (A.erase a) Q := by
 have hin : a ∈ tally s.home A c := mem_tally.mpr ⟨ha, hhome⟩
 have htally : tally s.home (A.erase a) c = (tally s.home A c).erase a := by
  rw [← hhome]
  exact tally_erase_self
 apply h.setRq
 · intro d hd
   apply tally_erase_of_ne
   rw [hhome]
   exact Ne.symm hd
 · intro d _
   rfl
 · exact h.balanced c hc
 · exact h.nodup c hc
 · exact h.nodes c hc
 · rw [htally, card_erase_of_mem hin, h.counts c hc]
 · intro htidy
   exact h.sorted htidy c hc
 intro htidy
 have hsum := add_sum_erase (tally s.home A c) s.weight hin
 dsimp only
 rw [htally, h.weights htidy c hc, ← hsum]
 omega

end Queues
end Sched
end OSLab.Kernel
