import OSLab.Kernel.Cascade

/-!
# Calls of the scheduler

What each function does to the queues and to the states of the processes.  The queued
processes are those that are runnable; those that run are counted and not queued.
-/

namespace OSLab.Kernel
open Foundation Finset
namespace Sched

structure States (s : Sched) (A Q : Finset Addr) : Prop where
 counted : forall p, p ∈ s.procs -> (p ∈ A ↔ s.state p = .runnable ∨ s.state p = .running)
 queued : forall p, p ∈ s.procs -> (p ∈ Q ↔ s.state p = .runnable)

def Booked (tidy : Prop) (s : Sched) : Prop := exists A Q, Accounts tidy s A Q ∧ s.States A Q

variable {tidy : Prop} {s t mid next : Sched} {A Q A' Q' : Finset Addr} {a c p q n : Addr}
 {cpu : Cpu} {new : ProcState}

theorem state_setState_self (s : Sched) (p : Addr) (state : ProcState) :
  (s.setState p state).state p = state :=
 Function.update_self ..

theorem state_setState_of_ne (s : Sched) {p q : Addr} (state : ProcState) (h : q ≠ p) :
  (s.setState p state).state q = s.state q :=
 Function.update_of_ne h _ _

section
variable (h : Accounts tidy s A Q)
include h

theorem Accounts.congr (hqueues : Queues tidy t A Q)
  (hprocs : t.procs = s.procs) (hconts : t.conts = s.conts)
  (hroot : t.rootContainer = s.rootContainer)
  (hhome : forall a, a ∈ A -> t.home a = s.home a) : Accounts tidy t A Q := by
 constructor
 · exact hqueues
 · rw [hprocs, hconts, hroot]
   exact h.members
 · exact h.subset
 · rw [hconts]
   exact h.groups
 · intro d hd hne
   rw [hconts] at hd
   rw [hroot] at hne
   rw [tally_congr hhome]
   exact h.settled d hd hne

theorem Accounts.setState (p : Addr) (state : ProcState) : Accounts tidy (s.setState p state) A Q :=
 h.congr (h.queues.congr (t := s.setState p state) rfl rfl (fun _ _ => rfl)
  (fun _ _ _ => ⟨rfl, rfl⟩) (fun _ _ _ => rfl)) rfl rfl rfl (fun _ _ => rfl)

theorem Accounts.setVruntime (ha : a ∉ Q) (time : Nat) : Accounts tidy (s.setVruntime a time) A Q :=
 h.congr (h.queues.setVruntime ha time) rfl rfl rfl (fun _ _ => rfl)
end

theorem States.setState_other (h : s.States A Q) (hp : p ∉ s.procs) (state : ProcState) :
  (s.setState p state).States A Q := by
 have hne : forall q, q ∈ s.procs -> q ≠ p := by
  intro q hq hsame
  rw [hsame] at hq
  exact hp hq
 constructor
 · intro q hq
   rw [state_setState_of_ne _ _ (hne q hq)]
   exact h.counted q hq
 intro q hq
 rw [state_setState_of_ne _ _ (hne q hq)]
 exact h.queued q hq

theorem Booked.setState_other (h : s.Booked tidy) (hp : p ∉ s.procs) (state : ProcState) :
  (s.setState p state).Booked tidy := by
 rcases h with ⟨A, Q, hacc, hstates⟩
 exact ⟨A, Q, hacc.setState p state, hstates.setState_other hp state⟩

theorem Booked.dispatch (h : s.Booked tidy) (starttime : Addr -> Nat) (curProc : Cpu -> Addr)
  (elapse : Cpu -> Nat) :
  ({ s with starttime := starttime, curProc := curProc, elapse := elapse } : Sched).Booked
    tidy := by
 rcases h with ⟨A, Q, hacc, hstates⟩
 refine ⟨A, Q, ?_, hstates.counted, hstates.queued⟩
 exact hacc.congr (hacc.queues.congr rfl rfl (fun _ _ => rfl) (fun _ _ _ => ⟨rfl, rfl⟩)
  (fun _ _ _ => rfl)) rfl rfl rfl (fun _ _ => rfl)

/-!
# Activation
-/

theorem enter_loop (hl : s.Layout) (hacc : Accounts tidy s A Q)
  (hqueues : Queues tidy t A (insert p Q)) (hmoves : s.Moves t) (hp : p ∈ s.procs)
  (hnew : p ∉ A) (cpu : Cpu) :
  exists next, loop (activateRound cpu) t.conts.card (s.container p, t.count p (s.container p)) =
      some next ∧ s.Moves next ∧
    exists A' Q', Accounts tidy next A' Q' ∧ s.SameSingles (insert p A) (insert p Q) A' Q' := by
 have hc := hl.containers p hp
 have hhome := hl.home_single hp
 have hpc := hl.single_notMem hp
 have hcounted : Queues tidy (t.count p (s.container p)) (insert p A) (insert p Q) := by
  rcases hmoves with ⟨v, r, rfl⟩
  exact hqueues.count hhome hc hnew
 have hmoves' := hmoves.trans (moves_count t p (s.container p))
 have hpass : s.Passing (insert p A) (insert p Q) (s.container p) := by
  constructor
  · intro a ha
    rcases mem_insert.mp ha with rfl | ha
    · exact .inl hp
    · exact hacc.members a ha
  · exact insert_subset_insert p hacc.subset
  · intro d hd hmem
    rcases mem_insert.mp hmem with rfl | hmem
    · exact absurd hd hpc
    · exact mem_insert_of_mem (hacc.groups d hd hmem)
  · have hoff := hacc.settled.insert hpc
    rw [hhome] at hoff
    exact hoff
 have hrise : s.Rising (insert p A) (s.container p) := by
  apply rising_insert hnew hhome
  · intro hroot
    exact hacc.settled _ hc hroot
  intro hsame
  rw [hsame] at hc
  exact hpc hc
 generalize hu : t.count p (s.container p) = u at hcounted hmoves'
 have hconts : t.conts.card = u.conts.card := by
  rw [← hu]
  rfl
 rw [hconts]
 rcases hmoves' with ⟨v, r, rfl⟩
 rcases activate_loop (hl.moves ⟨v, r, rfl⟩) cpu hc hcounted { hpass with } hrise with
  ⟨next, hloop, hnext, A', Q', hacc', hsame⟩
 exact ⟨next, hloop, Moves.trans ⟨v, r, rfl⟩ hnext, A', Q', hacc', hsame⟩

theorem States.enter (h : s.States A Q) (hl : s.Layout)
  (hsame : s.SameSingles (insert p A) (insert p Q) A' Q') :
  (s.setState p .runnable).States A' Q' := by
 constructor
 · intro q hq
   rw [(hsame q (hl.single_notMem hq)).left, mem_insert]
   by_cases hqp : q = p
   · rw [hqp, state_setState_self]
     exact ⟨fun _ => .inl rfl, fun _ => .inl rfl⟩
   rw [state_setState_of_ne _ _ hqp, or_iff_right hqp]
   exact h.counted q hq
 intro q hq
 rw [(hsame q (hl.single_notMem hq)).right, mem_insert]
 by_cases hqp : q = p
 · rw [hqp, state_setState_self]
   exact ⟨fun _ => rfl, fun _ => .inl rfl⟩
 rw [state_setState_of_ne _ _ hqp, or_iff_right hqp]
 exact h.queued q hq

theorem States.moves (h : s.States A Q) (hmoves : s.Moves next) : next.States A Q := by
 rcases hmoves with ⟨v, r, rfl⟩
 exact ⟨h.counted, h.queued⟩

section
variable (hl : s.Layout) (h : s.Booked tidy)
include hl h

theorem makeRunnable_spec (hp : p ∈ s.procs)
  (hrunnable : s.state p ≠ .runnable) (hrunning : s.state p ≠ .running) (cpu : Cpu) :
  exists next, s.makeRunnable cpu p = some next ∧
    (s.setState p .runnable).Moves next ∧ next.Booked tidy := by
 rcases h with ⟨A, Q, hacc, hstates⟩
 have hoA : p ∉ A := by
  rw [hstates.counted p hp]
  rintro (hor | hor)
  · exact hrunnable hor
  · exact hrunning hor
 have hoQ : p ∉ Q := fun hmem => hoA (hacc.subset hmem)
 unfold makeRunnable
 dsimp only
 generalize (s.setState p .runnable).vruntime p + _ = v
 have hl' := hl.setState p .runnable
 have hacc' := hacc.setState p .runnable
 have hset := hacc'.setVruntime hoQ v
 rcases hset.queues.rbInsert (hl.home_single hp) (hl.containers p hp) hoQ with
  ⟨mid, hinsert, hmoves, hmid⟩
 rw [hinsert, Option.bind_some]
 rcases enter_loop hl' hacc' hmid ((moves_setVruntime _ p v).trans hmoves) hp hoA cpu with
  ⟨next, hloop, hnext, A', Q', hbooked, hsame⟩
 exact ⟨next, hloop, hnext, A', Q', hbooked, (hstates.enter hl hsame).moves hnext⟩

theorem activateProc_spec (hp : p ∈ s.procs) (cpu : Cpu) (onalert : Bool) :
  exists r next, s.activateProc cpu p onalert = some (r, next) ∧ next.Booked tidy ∧
    (next = s ∨ (s.state p ≠ .runnable ∧ s.state p ≠ .running ∧
      (s.setState p .runnable).Moves next)) := by
 unfold activateProc
 split
 · rename_i hactivates
   have hrunnable : s.state p ≠ .runnable := by
    intro hstate
    rw [hstate] at hactivates
    cases hactivates
   have hrunning : s.state p ≠ .running := by
    intro hstate
    rw [hstate] at hactivates
    cases hactivates
   rcases makeRunnable_spec hl h hp hrunnable hrunning cpu with ⟨next, hmake, hmoves, hnext⟩
   refine ⟨true, next, ?_, hnext, .inr ⟨hrunnable, hrunning, hmoves⟩⟩
   rw [hmake]
   rfl
 · exact ⟨false, s, rfl, h, .inl rfl⟩

theorem activateGroup_spec (hc : c ∈ s.conts) (hroot : c ≠ s.rootContainer) (cpu : Cpu) :
  s.Moves (s.activateGroup cpu c) ∧ (s.activateGroup cpu c).Booked tidy := by
 refine ⟨moves_setVruntime _ _ _, ?_⟩
 rcases h with ⟨A, Q, hacc, hstates⟩
 have hpar := hl.hierarchy.parent_mem hc hroot
 have hhome := hl.home_group hc
 have hstates' := hstates.moves
  (moves_setVruntime s c (max (s.vruntime c) (s.getMinvruntime cpu (s.parent c))))
 refine ⟨A, Q, ?_, hstates'⟩
 by_cases hqueued : c ∈ Q
 · have hsame : tidy -> max (s.vruntime c) (s.getMinvruntime cpu (s.parent c)) = s.vruntime c := by
    intro htidy
    have hmem : c ∈ (s.rq (s.parent c)).root.toList := by
     rw [← hhome]
     exact hacc.queues.mem_of_queued (hhome ▸ hpar) hqueued
    have hsorted := hacc.queues.sorted htidy _ hpar
    apply Nat.max_eq_left
    unfold getMinvruntime
    cases hlist : (s.rq (s.parent c)).root.toList with
    | nil =>
     rw [hlist] at hmem
     cases hmem
    | cons a rest =>
     unfold ColorTree.Sorted at hsorted
     rw [hlist, List.pairwise_cons] at hsorted
     rw [hlist] at hmem
     rcases List.mem_cons.mp hmem with rfl | hmem
     · exact Nat.le_refl _
     · exact vruntime_le_of_cfsCmp (hsorted.left c hmem)
   apply hacc.congr (t := s.activateGroup cpu c) _ rfl rfl rfl (fun _ _ => rfl)
   apply hacc.queues.congr (t := s.activateGroup cpu c) rfl rfl (fun _ _ => rfl) _
    (fun _ _ _ => rfl)
   intro htidy a _
   refine ⟨?_, rfl⟩
   unfold activateGroup Sched.setVruntime
   rw [hsame htidy, Function.update_eq_self]
 · exact hacc.setVruntime hqueued _
end

/-!
# Leaving a CPU
-/

theorem States.leave (h : s.States A Q) (hl : s.Layout) (hnew : new ≠ .runnable)
  (hnew' : new ≠ .running) (hout : p ∉ Q)
  (hsame : s.SameSingles (A.erase p) Q A' Q') : (s.setState p new).States A' Q' := by
 constructor
 · intro q hq
   rw [(hsame q (hl.single_notMem hq)).left, mem_erase]
   by_cases hqp : q = p
   · rw [hqp, state_setState_self]
     constructor
     · intro hmem
       exact absurd rfl hmem.left
     rintro (hor | hor)
     · exact absurd hor hnew
     · exact absurd hor hnew'
   rw [state_setState_of_ne _ _ hqp, and_iff_right hqp]
   exact h.counted q hq
 intro q hq
 rw [(hsame q (hl.single_notMem hq)).right]
 by_cases hqp : q = p
 · rw [hqp, state_setState_self]
   exact ⟨fun hmem => absurd hmem hout, fun hsame => absurd hsame hnew⟩
 rw [state_setState_of_ne _ _ hqp]
 exact h.queued q hq

section
variable (hl : s.Layout) (hacc : Accounts tidy s A Q) (hp : p ∈ s.procs) (hin : p ∈ A)
 (hout : p ∉ Q)
include hl hacc hp hin hout

theorem leaveCpu_runnable : exists next, s.leaveCpu p .runnable = some next ∧ s.Moves next ∧
    Accounts tidy next A (insert p Q) := by
 rcases hacc.queues.rbInsert (hl.home_single hp) (hl.containers p hp) hout with
  ⟨next, hinsert, hmoves, hnext⟩
 refine ⟨next, hinsert, hmoves, ?_⟩
 rcases hmoves with ⟨v, r, rfl⟩
 refine ⟨hnext, hacc.members, insert_subset hin hacc.subset, ?_, hacc.settled⟩
 intro d hd hmem
 exact mem_insert_of_mem (hacc.groups d hd hmem)

theorem leaveCpu_stopped (hnew : new ≠ .runnable) :
  exists next, s.leaveCpu p new = some next ∧ s.Moves next ∧
    exists A' Q', Accounts tidy next A' Q' ∧ s.SameSingles (A.erase p) Q A' Q' := by
 have hc := hl.containers p hp
 have hhome := hl.home_single hp
 have hpc := hl.single_notMem hp
 have hqueues := hacc.queues.discount hhome hc hin
 have hpass : s.Passing (A.erase p) Q (s.container p) := by
  constructor
  · intro a ha
    exact hacc.members a (mem_of_mem_erase ha)
  · intro a ha
    refine mem_erase.mpr ⟨?_, hacc.subset ha⟩
    rintro rfl
    exact hout ha
  · intro d hd hmem
    exact hacc.groups d hd (mem_of_mem_erase hmem)
  · have hoff := hacc.settled.erase hpc
    rw [hhome] at hoff
    exact hoff
 have hcounted : s.container p ≠ s.rootContainer -> s.container p ∈ A.erase p := by
  intro hroot
  refine mem_erase.mpr ⟨?_, ?_⟩
  · intro hsame
    rw [hsame] at hc
    exact hpc hc
  rw [← hhome] at hc hroot ⊢
  exact hacc.home_counted hin hc hroot
 rcases empty_loop (hl.moves (moves_discount s p (s.container p))) hc hqueues
  { hpass with } hcounted with
  ⟨next, hloop, hmoves, A', Q', hacc', hsame⟩
 refine ⟨next, ?_, (moves_discount _ _ _).trans hmoves, A', Q', hacc', hsame⟩
 unfold leaveCpu
 rw [if_neg hnew]
 exact hloop
end

theorem updateThisState_process (hl : s.Layout) (h : s.Booked tidy) {now : Nat}
  (hp : s.curProc cpu ∈ s.procs) (hrunning : s.state (s.curProc cpu) = .running)
  (hnew : new ≠ .running) :
  exists next, s.updateThisState cpu new now = some next ∧
    (s.setState (s.curProc cpu) new).Moves next ∧ next.Booked tidy := by
 rcases h with ⟨A, Q, hacc, hstates⟩
 have hin : s.curProc cpu ∈ A := (hstates.counted _ hp).mpr (.inr hrunning)
 have hout : s.curProc cpu ∉ Q := by
  rw [hstates.queued _ hp, hrunning]
  nofun
 unfold updateThisState
 dsimp only
 have hidle : (s.setState (s.curProc cpu) new).idle (s.curProc cpu) = false := hl.busy _ hp
 rw [if_neg (Bool.eq_false_iff.mp hidle)]
 generalize runDelta _ _ _ = delta
 generalize timeAdd _ delta = v
 have hl' := hl.setState (s.curProc cpu) new
 have hset := (hacc.setState (s.curProc cpu) new).setVruntime hout v
 have hmoves := moves_setVruntime (s.setState (s.curProc cpu) new) (s.curProc cpu) v
 have hhome := hl.home_single hp
 have hc := hl.containers _ hp
 have hcounted : s.container (s.curProc cpu) ≠ s.rootContainer ->
  s.container (s.curProc cpu) ∈ A := by
  intro hroot
  rw [← hhome] at hc hroot ⊢
  exact hacc.home_counted hin hc hroot
 have hloop := requeue_loop (hl'.moves hmoves) delta hc hset hcounted
 change exists next, loop (requeueRound delta) _ (((s.setState (s.curProc cpu) new).setVruntime
  (s.curProc cpu) v).container (s.curProc cpu), _) = some next ∧ _ at hloop
 rcases hloop with ⟨mid, hloop, hmid, hacc'⟩
 have hmid' := hmoves.trans hmid
 have hp' : s.curProc cpu ∈ mid.procs := by
  rcases hmid' with ⟨v', r, rfl⟩
  exact hp
 rw [hloop, Option.bind_some]
 by_cases hrun : new = .runnable
 · rw [hrun]
   rw [hrun] at hmid' hl'
   rcases leaveCpu_runnable (hl'.moves hmid') hacc' hp' hin hout with ⟨next, hleave, hnext, haccN⟩
   have hall := hmid'.trans hnext
   refine ⟨next, hleave, hall, A, insert (s.curProc cpu) Q, haccN, ?_⟩
   apply (hstates.enter hl _).moves hall
   intro a _
   rw [insert_eq_self.mpr hin]
   exact ⟨Iff.rfl, Iff.rfl⟩
 rcases leaveCpu_stopped (hl'.moves hmid') hacc' hp' hin hout hrun with
  ⟨next, hleave, hnext, A', Q', haccN, hsame⟩
 have hall := hmid'.trans hnext
 refine ⟨next, hleave, hall, A', Q', haccN, ?_⟩
 apply (hstates.leave hl hrun hnew hout _).moves hall
 rcases hmid' with ⟨v', r, rfl⟩
 exact hsame

theorem updateThisState_idle (hl : s.Layout) (h : s.Booked tidy) {now : Nat}
  (hidle : s.curProc cpu = s.idleProc cpu) :
  exists next, s.updateThisState cpu new now = some next ∧
    (s.setState (s.curProc cpu) new).Moves next ∧ next.Booked tidy := by
 rcases h with ⟨A, Q, hacc, hstates⟩
 rcases hl.spare cpu with ⟨hproc, hcont, hflag⟩
 rw [← hidle] at hproc hcont hflag
 have hout : s.curProc cpu ∉ Q := by
  intro hmem
  rcases hacc.members _ (hacc.subset hmem) with hin | hin
  · exact hproc hin
  · exact hcont hin.left
 unfold updateThisState
 have hflag' : (s.setState (s.curProc cpu) new).idle (s.curProc cpu) := hflag
 rw [if_pos hflag']
 have hmoves := moves_setVruntime (s.setState (s.curProc cpu) new) (s.curProc cpu)
  (timeAdd (s.vruntime (s.curProc cpu)) schedMinGranularity)
 refine ⟨_, rfl, hmoves, A, Q, ?_, (hstates.setState_other hproc new).moves hmoves⟩
 exact (hacc.setState _ new).setVruntime hout _

/-!
# The next process
-/

theorem States.take (h : s.States A Q) (hp : p ∈ s.procs) (hin : p ∈ Q) :
  (s.setState p .running).States A (Q.erase p) := by
 constructor
 · intro q hq
   by_cases hqp : q = p
   · rw [hqp, state_setState_self]
     refine ⟨fun _ => .inr rfl, fun _ => ?_⟩
     exact (h.counted p hp).mpr (.inl ((h.queued p hp).mp hin))
   rw [state_setState_of_ne _ _ hqp]
   exact h.counted q hq
 intro q hq
 rw [mem_erase]
 by_cases hqp : q = p
 · rw [hqp, state_setState_self]
   refine ⟨fun hmem => absurd rfl hmem.left, fun hsame => ?_⟩
   cases hsame
 rw [state_setState_of_ne _ _ hqp, and_iff_right hqp]
 exact h.queued q hq

theorem pickNext_spec (hl : s.Layout) (h : s.Booked tidy) (cpu : Cpu) :
  exists n next, s.pickNext cpu = some (n, next) ∧ s.Moves next ∧ ((n = s.idleProc cpu ∧ next = s) ∨
      (n ∈ s.procs ∧ s.state n = .runnable ∧ (next.setState n .running).Booked tidy)) := by
 rcases h with ⟨A, Q, hacc, hstates⟩
 unfold pickNext
 split
 · exact ⟨_, _, rfl, .refl s, .inl ⟨rfl, rfl⟩⟩
 rcases recurGetProc_spec hl hacc with ⟨⟨found, next⟩, hfound, hspec⟩
 rw [hfound]
 cases found with
 | none =>
  rcases hspec.none rfl with ⟨hsame, _⟩
  change next = s at hsame
  rw [hsame]
  exact ⟨_, s, rfl, .refl s, .inl ⟨rfl, rfl⟩⟩
 | some p =>
  rcases hspec.some p rfl with ⟨hp, hin, hmoves, hqueues⟩
  refine ⟨p, next, rfl, hmoves, .inr ⟨hp, (hstates.queued p hp).mp hin, ?_⟩⟩
  rcases hmoves with ⟨v, r, rfl⟩
  have hstates' := hstates.moves ⟨v, r, rfl⟩
  refine ⟨A, Q.erase p, ?_, hstates'.take hp hin⟩
  apply Accounts.setState
  refine ⟨hqueues, hacc.members, (erase_subset p Q).trans hacc.subset, ?_, hacc.settled⟩
  intro d hd hmem
  refine mem_erase.mpr ⟨?_, hacc.groups d hd hmem⟩
  rintro rfl
  exact hl.single_notMem hp hd

end Sched
end OSLab.Kernel
