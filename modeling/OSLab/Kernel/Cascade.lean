import OSLab.Kernel.RunQueue

/-!
# Cascades through the containers

A process that becomes runnable or stops may be the first or the last one of its
container; the container then enters or leaves the queue of its parent, and so on up to
the root.  The search for the next process goes down the same tree.
-/

namespace OSLab.Kernel
open Foundation Finset
open ColorTree hiding insert
namespace Sched

structure Layout (s : Sched) : Prop where
 hierarchy : Hierarchy s.parent s.rootContainer s.conts
 groups : forall c, c ∈ s.conts -> s.isContainer c = true
 singles : forall p, p ∈ s.procs -> s.isContainer p = false
 containers : forall p, p ∈ s.procs -> s.container p ∈ s.conts
 busy : forall p, p ∈ s.procs -> s.idle p = false
 spare : forall cpu, s.idleProc cpu ∉ s.procs ∧ s.idleProc cpu ∉ s.conts ∧
  s.idle (s.idleProc cpu) = true
 injective : forall i j, s.idleProc i = s.idleProc j -> i = j

namespace Layout
variable {s next : Sched} {p c : Addr} (h : s.Layout)
include h

theorem moves (hmoves : s.Moves next) : next.Layout := by
 rcases hmoves with ⟨v, r, rfl⟩
 exact { h with }

theorem setState (p : Addr) (state : ProcState) : (s.setState p state).Layout := { h with }

theorem home_group (hc : c ∈ s.conts) : s.home c = s.parent c := by
 unfold home
 rw [h.groups c hc]
 rfl

theorem home_single (hp : p ∈ s.procs) : s.home p = s.container p := by
 unfold home
 rw [h.singles p hp]
 rfl

theorem single_notMem (hp : p ∈ s.procs) : p ∉ s.conts := by
 intro hc
 have hsingle := h.singles p hp
 rw [h.groups p hc] at hsingle
 cases hsingle

end Layout

/-!
# Accounts
-/

structure Passing (s : Sched) (A Q : Finset Addr) (c : Addr) : Prop where
 members : forall a, a ∈ A -> a ∈ s.procs ∨ (a ∈ s.conts ∧ a ≠ s.rootContainer)
 subset : Q ⊆ A
 groups : forall d, d ∈ s.conts -> d ∈ A -> d ∈ Q
 off : SettledOff s.home s.rootContainer s.conts A c

/-- The sets are those of the queues, and the containers in them are those not empty. -/
structure Accounts (tidy : Prop) (s : Sched) (A Q : Finset Addr) : Prop where
 queues : Queues tidy s A Q
 members : forall a, a ∈ A -> a ∈ s.procs ∨ (a ∈ s.conts ∧ a ≠ s.rootContainer)
 subset : Q ⊆ A
 groups : forall d, d ∈ s.conts -> d ∈ A -> d ∈ Q
 settled : Settled s.home s.rootContainer s.conts A

def SameSingles (s : Sched) (A Q A' Q' : Finset Addr) : Prop :=
 forall a, a ∉ s.conts -> (a ∈ A' ↔ a ∈ A) ∧ (a ∈ Q' ↔ a ∈ Q)

variable {tidy : Prop} {s t next : Sched} {A Q A' Q' : Finset Addr} {a c p : Addr}

theorem SameSingles.refl (s : Sched) (A Q : Finset Addr) : s.SameSingles A Q A Q :=
 fun _ _ => ⟨Iff.rfl, Iff.rfl⟩

section
variable (h : s.SameSingles A Q A' Q') (hc : c ∈ s.conts)
include h hc

theorem SameSingles.insert : s.SameSingles A Q (insert c A') (insert c Q') := by
 intro a ha
 have hne : a ≠ c := by
  rintro rfl
  exact ha hc
 rw [mem_insert, mem_insert, or_iff_right hne, or_iff_right hne]
 exact h a ha

theorem SameSingles.erase : s.SameSingles A Q (A'.erase c) (Q'.erase c) := by
 intro a ha
 have hne : a ≠ c := by
  rintro rfl
  exact ha hc
 rw [mem_erase, mem_erase, and_iff_right hne, and_iff_right hne]
 exact h a ha
end

section
variable (h : s.Passing A Q c)
include h

theorem Passing.accounts (hqueues : Queues tidy s A Q)
  (hc : c ≠ s.rootContainer -> (c ∈ A ↔ (tally s.home A c).Nonempty)) :
  Accounts tidy s A Q :=
 ⟨hqueues, h.members, h.subset, h.groups, h.off.settled hc⟩

theorem Passing.insert (hl : s.Layout) (hc : c ∈ s.conts)
  (hroot : c ≠ s.rootContainer) (hsome : (tally s.home A c).Nonempty) :
  s.Passing (insert c A) (insert c Q) (s.parent c) := by
 constructor
 · intro a ha
   rcases mem_insert.mp ha with rfl | ha
   · exact .inr ⟨hc, hroot⟩
   · exact h.members a ha
 · exact insert_subset_insert c h.subset
 · intro d hd hmem
   rcases mem_insert.mp hmem with rfl | hmem
   · exact mem_insert_self _ _
   · exact mem_insert_of_mem (h.groups d hd hmem)
 · rw [← hl.home_group hc]
   exact h.off.insert hsome

theorem Passing.erase (hl : s.Layout) (hc : c ∈ s.conts)
  (hnone : tally s.home A c = ∅) : s.Passing (A.erase c) (Q.erase c) (s.parent c) := by
 constructor
 · intro a ha
   exact h.members a (mem_of_mem_erase ha)
 · exact erase_subset_erase c h.subset
 · intro d hd hmem
   rcases mem_erase.mp hmem with ⟨hne, hmem⟩
   exact mem_erase.mpr ⟨hne, h.groups d hd hmem⟩
 · rw [← hl.home_group hc]
   exact h.off.erase hnone
end

/-!
# Up to the root
-/

def Rising (s : Sched) (A : Finset Addr) (c : Addr) : Prop :=
 0 < (tally s.home A c).card ∧ (c ≠ s.rootContainer -> (c ∈ A ↔ 1 < (tally s.home A c).card))

theorem rising_insert (hroot : a ∉ A) (hhome : s.home a = c)
  (hc : c ≠ s.rootContainer -> (c ∈ A ↔ (tally s.home A c).Nonempty)) (hne : c ≠ a) :
  s.Rising (insert a A) c := by
 have htally : tally s.home (insert a A) c = insert a (tally s.home A c) := by
  rw [← hhome]
  exact tally_insert_self
 have hout : a ∉ tally s.home A c := fun hmem => hroot (mem_tally.mp hmem).left
 unfold Rising
 rw [htally, card_insert_of_notMem hout]
 refine ⟨Nat.succ_pos _, ?_⟩
 intro hcr
 rw [mem_insert, or_iff_right hne, hc hcr, ← card_pos]
 exact Nat.succ_lt_succ_iff.symm

theorem activateRound_spec (hl : s.Layout) (cpu : Cpu) (hc : c ∈ s.conts)
  (hqueues : Queues tidy s A Q) (hpass : s.Passing A Q c) (hrise : s.Rising A c) :
  (activateRound cpu (c, s) = some (.done s) ∧ Accounts tidy s A Q) ∨
  (c ≠ s.rootContainer ∧ exists next,
    activateRound cpu (c, s) = some (.again (s.parent c, next)) ∧ s.Moves next ∧
    Queues tidy next (insert c A) (insert c Q) ∧
    s.Passing (insert c A) (insert c Q) (s.parent c) ∧ s.Rising (insert c A) (s.parent c)) := by
 by_cases hstop : c = s.rootContainer ∨ (s.rq c).nrRunning ≠ 1
 · left
   refine ⟨if_pos hstop, hpass.accounts hqueues ?_⟩
   intro hroot
   have hcard := hstop.resolve_left hroot
   rw [hqueues.counts c hc] at hcard
   rw [hrise.right hroot, ← card_pos]
   omega
 right
 have hroot : c ≠ s.rootContainer := fun h => hstop (.inl h)
 have hone : (tally s.home A c).card = 1 := by
  rw [← hqueues.counts c hc]
  exact Decidable.not_not.mp (fun h => hstop (.inr h))
 have hout : c ∉ A := by
  rw [hrise.right hroot, hone]
  exact Nat.lt_irrefl 1
 have hout' : c ∉ Q := fun h => hout (hpass.subset h)
 have hpar := hl.hierarchy.parent_mem hc hroot
 have hhome := hl.home_group hc
 have hset := hqueues.setVruntime hout' (max (s.vruntime c) (s.getMinvruntime cpu (s.parent c)))
 rcases hset.rbInsert hhome hpar hout' with ⟨mid, hinsert, hmoves, hmid⟩
 have hmoves' := (moves_setVruntime s c _).trans hmoves
 refine ⟨hroot, mid.count c (s.parent c), ?_, hmoves'.trans (moves_count _ _ _), ?_, ?_, ?_⟩
 · unfold activateRound
   dsimp only
   rw [if_neg hstop, hinsert]
   rfl
 · rcases hmoves' with ⟨v, r, rfl⟩
   exact hmid.count hhome hpar hout
 · apply hpass.insert hl hc hroot
   rw [← card_pos, hone]
   exact Nat.zero_lt_one
 apply rising_insert hout hhome _ (hl.hierarchy.parent_ne hc hroot)
 intro hpr
 exact hpass.off (s.parent c) hpar hpr (hl.hierarchy.parent_ne hc hroot)

theorem activate_loop (hl : s.Layout) (cpu : Cpu) (hc : c ∈ s.conts)
  (hqueues : Queues tidy s A Q) (hpass : s.Passing A Q c) (hrise : s.Rising A c) :
  exists next, loop (activateRound cpu) s.conts.card (c, s) = some next ∧ s.Moves next ∧
    exists A' Q', Accounts tidy next A' Q' ∧ s.SameSingles A Q A' Q' := by
 apply hl.hierarchy.loop_climb
  (fun c t => s.Moves t ∧ exists A' Q', Queues tidy t A' Q' ∧ s.Passing A' Q' c ∧
   s.Rising A' c ∧ s.SameSingles A Q A' Q')
  (fun next => s.Moves next ∧ exists A' Q', Accounts tidy next A' Q' ∧ s.SameSingles A Q A' Q') _ hc
 · exact ⟨.refl s, A, Q, hqueues, hpass, hrise, SameSingles.refl s A Q⟩
 · rintro c t hc ⟨hmoves, A', Q', hq, hp, hr, hsame⟩
   rcases hmoves with ⟨v, r, rfl⟩
   have hl' := hl.moves ⟨v, r, rfl⟩
   rcases activateRound_spec hl' cpu hc hq { hp with } hr with
    ⟨hdone, hacc⟩ | ⟨hroot, next, hagain, hmoves, hq', hp', hr'⟩
   · exact .inl ⟨_, hdone, ⟨v, r, rfl⟩, A', Q', hacc, hsame⟩
   · refine .inr ⟨hroot, next, hagain, Moves.trans ⟨v, r, rfl⟩ hmoves, _, _, hq', ?_, hr', ?_⟩
     · exact ⟨hp'.members, hp'.subset, hp'.groups, hp'.off⟩
     · exact hsame.insert hc

theorem Accounts.home_counted (h : Accounts tidy s A Q) (ha : a ∈ A) (hc : s.home a ∈ s.conts)
  (hroot : s.home a ≠ s.rootContainer) : s.home a ∈ A :=
 (h.settled _ hc hroot).mpr ⟨a, mem_tally.mpr ⟨ha, rfl⟩⟩

section
variable (hl : s.Layout)
include hl

theorem requeueRound_spec (delta : Nat) (hc : c ∈ s.conts)
  (hacc : Accounts tidy s A Q) (hcounted : c ≠ s.rootContainer -> c ∈ A) :
  requeueRound delta (c, s) = some (.done s) ∨
  (c ≠ s.rootContainer ∧ exists next,
    requeueRound delta (c, s) = some (.again (s.parent c, next)) ∧ s.Moves next ∧
    Queues tidy next A Q ∧ (s.parent c ≠ s.rootContainer -> s.parent c ∈ A)) := by
 by_cases hstop : c = s.rootContainer
 · exact .inl (if_pos hstop)
 right
 have hpar := hl.hierarchy.parent_mem hc hstop
 have hhome := hl.home_group hc
 have hqueued : c ∈ Q := hacc.groups c hc (hcounted hstop)
 rcases hacc.queues.rbErase_setVruntime hhome hpar hqueued (timeAdd (s.vruntime c) delta) with
  ⟨mid, herase, hmoves, hmid⟩
 have hout : c ∉ Q.erase c := notMem_erase c Q
 have hins : exists next, mid.rbInsert c (s.parent c) = some next ∧ mid.Moves next ∧
  Queues tidy next A (insert c (Q.erase c)) := by
  rcases hmoves with ⟨v, r, rfl⟩
  exact hmid.rbInsert hhome hpar hout
 rcases hins with ⟨next, hinsert, hmoves', hnext⟩
 rw [insert_erase hqueued] at hnext
 refine ⟨hstop, next, ?_, hmoves.trans hmoves', hnext, ?_⟩
 · unfold requeueRound
   dsimp only
   rw [if_neg hstop, herase, Option.bind_some, hinsert]
   rfl
 rw [← hhome]
 exact hacc.home_counted (hcounted hstop) (hhome ▸ hpar)

theorem requeue_loop (delta : Nat) (hc : c ∈ s.conts)
  (hacc : Accounts tidy s A Q) (hcounted : c ≠ s.rootContainer -> c ∈ A) :
  exists next, loop (requeueRound delta) s.conts.card (c, s) = some next ∧ s.Moves next ∧
    Accounts tidy next A Q := by
 apply hl.hierarchy.loop_climb
  (fun c t => s.Moves t ∧ Accounts tidy t A Q ∧ (c ≠ s.rootContainer -> c ∈ A))
  (fun next => s.Moves next ∧ Accounts tidy next A Q) _ hc
 · exact ⟨.refl s, hacc, hcounted⟩
 · rintro c t hc ⟨hmoves, hacc, hcounted⟩
   rcases hmoves with ⟨v, r, rfl⟩
   have hl' := hl.moves ⟨v, r, rfl⟩
   rcases requeueRound_spec hl' delta hc hacc hcounted with
    hdone | ⟨hroot, next, hagain, hmoves, hnext, habove⟩
   · exact .inl ⟨_, hdone, ⟨v, r, rfl⟩, hacc⟩
   · refine .inr ⟨hroot, next, hagain, Moves.trans ⟨v, r, rfl⟩ hmoves, ?_, habove⟩
     rcases hmoves with ⟨v', r', rfl⟩
     exact ⟨hnext, hacc.members, hacc.subset, hacc.groups, hacc.settled⟩

variable (hc : c ∈ s.conts) (hqueues : Queues tidy s A Q) (hpass : s.Passing A Q c)
 (hcounted : c ≠ s.rootContainer -> c ∈ A)
include hc hqueues hpass hcounted

theorem emptyRound_spec : (emptyRound (c, s) = some (.done s) ∧ Accounts tidy s A Q) ∨
  (c ≠ s.rootContainer ∧ exists next,
    emptyRound (c, s) = some (.again (s.parent c, next)) ∧ s.Moves next ∧
    Queues tidy next (A.erase c) (Q.erase c) ∧
    s.Passing (A.erase c) (Q.erase c) (s.parent c) ∧
    (s.parent c ≠ s.rootContainer -> s.parent c ∈ A.erase c)) := by
 by_cases hstop : c = s.rootContainer ∨ (s.rq c).nrRunning ≠ 0
 · left
   refine ⟨if_pos hstop, hpass.accounts hqueues ?_⟩
   intro hroot
   have hcard := hstop.resolve_left hroot
   rw [hqueues.counts c hc] at hcard
   exact ⟨fun _ => card_pos.mp (Nat.pos_of_ne_zero hcard), fun _ => hcounted hroot⟩
 right
 have hroot : c ≠ s.rootContainer := fun h => hstop (.inl h)
 have hnone : tally s.home A c = ∅ := by
  rw [← card_eq_zero, ← hqueues.counts c hc]
  exact Decidable.not_not.mp (fun h => hstop (.inr h))
 have hin : c ∈ A := hcounted hroot
 have hpar := hl.hierarchy.parent_mem hc hroot
 have hhome := hl.home_group hc
 rcases hqueues.rbErase hhome hpar (hpass.groups c hc hin) with ⟨mid, herase, hmoves, hmid⟩
 refine ⟨hroot, mid.discount c (s.parent c), ?_, hmoves.trans (moves_discount _ _ _), ?_, ?_, ?_⟩
 · unfold emptyRound
   dsimp only
   rw [if_neg hstop, herase]
   rfl
 · rcases hmoves with ⟨v, r, rfl⟩
   exact hmid.discount hhome hpar hin
 · exact hpass.erase hl hc hnone
 intro hpr
 have hne := hl.hierarchy.parent_ne hc hroot
 refine mem_erase.mpr ⟨hne, ?_⟩
 exact (hpass.off _ hpar hpr hne).mpr ⟨c, mem_tally.mpr ⟨hin, hhome⟩⟩

theorem empty_loop : exists next, loop emptyRound s.conts.card (c, s) = some next ∧ s.Moves next ∧
    exists A' Q', Accounts tidy next A' Q' ∧ s.SameSingles A Q A' Q' := by
 apply hl.hierarchy.loop_climb
  (fun c t => s.Moves t ∧ exists A' Q', Queues tidy t A' Q' ∧ s.Passing A' Q' c ∧
   (c ≠ s.rootContainer -> c ∈ A') ∧ s.SameSingles A Q A' Q')
  (fun next => s.Moves next ∧ exists A' Q', Accounts tidy next A' Q' ∧ s.SameSingles A Q A' Q') _ hc
 · exact ⟨.refl s, A, Q, hqueues, hpass, hcounted, SameSingles.refl s A Q⟩
 · rintro c t hc ⟨hmoves, A', Q', hq, hp, hin, hsame⟩
   rcases hmoves with ⟨v, r, rfl⟩
   have hl' := hl.moves ⟨v, r, rfl⟩
   rcases emptyRound_spec hl' hc hq { hp with } hin with
    ⟨hdone, hacc⟩ | ⟨hroot, next, hagain, hmoves, hq', hp', hin'⟩
   · exact .inl ⟨_, hdone, ⟨v, r, rfl⟩, A', Q', hacc, hsame⟩
   · refine .inr ⟨hroot, next, hagain, Moves.trans ⟨v, r, rfl⟩ hmoves, _, _, hq', ?_, hin', ?_⟩
     · exact ⟨hp'.members, hp'.subset, hp'.groups, hp'.off⟩
     · exact hsame.erase hc
end

/-!
# Down to a process
-/

/-- `recur_get_proc` ends at a process, which it takes out, or at an empty queue. -/
structure Found (tidy : Prop) (s : Sched) (A Q : Finset Addr)
  (result : Option Addr × Sched) : Prop where
 none : result.1 = none -> result.2 = s ∧ exists c, c ∈ s.conts ∧ (s.rq c).root = leaf ∧
  (c = s.rootContainer ∨ c ∈ Q)
 some : forall p, result.1 = some p -> p ∈ s.procs ∧ p ∈ Q ∧ s.Moves result.2 ∧
  Queues tidy result.2 A (Q.erase p)

theorem toList_eq_nil {t : ColorTree Addr} (h : t.toList = []) : t = leaf := by
 cases t with
 | leaf => rfl
 | node color left x right =>
  exact absurd h (List.append_ne_nil_of_right_ne_nil _ (List.cons_ne_nil _ _))

theorem recurRound_spec (hl : s.Layout) (hacc : Accounts tidy s A Q) (hc : c ∈ s.conts)
  (hqueued : c = s.rootContainer ∨ c ∈ Q) :
  (exists result, s.recurRound c = some (.done result) ∧ Found tidy s A Q result) ∨
  (exists d, s.recurRound c = some (.again d) ∧ d ∈ s.conts ∧ d ≠ s.rootContainer ∧
    s.parent d = c ∧ (d = s.rootContainer ∨ d ∈ Q)) := by
 unfold recurRound
 cases hlist : (s.rq c).root.toList with
 | nil =>
  left
  refine ⟨(none, s), rfl, ?_, ?_⟩
  · intro _
    exact ⟨rfl, c, hc, toList_eq_nil hlist, hqueued⟩
  · nofun
 | cons a rest =>
  have hmem : a ∈ (s.rq c).root.toList := by
   rw [hlist]
   exact List.mem_cons_self
  rw [hacc.queues.nodes c hc, mem_tally] at hmem
  rcases hmem with ⟨haQ, hhome⟩
  rw [List.head?_cons]
  dsimp only
  rcases hacc.members a (hacc.subset haQ) with ha | ⟨ha, hroot⟩
  · left
    rw [hl.singles a ha]
    rcases hacc.queues.rbErase hhome hc haQ with ⟨next, herase, hmoves, hnext⟩
    refine ⟨(some a, next), ?_, ?_, ?_⟩
    · rw [herase]
      rfl
    · nofun
    intro p hp
    cases hp
    exact ⟨ha, haQ, hmoves, hnext⟩
  right
  rw [hl.groups a ha]
  refine ⟨a, rfl, ha, hroot, ?_, .inr haQ⟩
  rw [← hl.home_group ha]
  exact hhome

theorem recurGetProc_spec (hl : s.Layout) (hacc : Accounts tidy s A Q) :
  exists result, s.recurGetProc s.rootContainer = some result ∧ Found tidy s A Q result :=
 hl.hierarchy.loop_descend (fun c => c = s.rootContainer ∨ c ∈ Q) (Found tidy s A Q)
  (fun _ hc hqueued => recurRound_spec hl hacc hc hqueued) hl.hierarchy.left (.inl rfl)

end Sched
end OSLab.Kernel
