import OSLab.Kernel.ProcFamily

/-!
# Waiting for children

Every step of `wait` keeps the invariant of the tree, and a process that has got its
token finds a zombie to free.
-/

namespace OSLab.Kernel
open Common Function Finset


namespace ProcTree
variable {s t next : ProcTree} {p q c cp r n : Nat}

/-!
# Places in `wait`
-/

theorem ne_zombie_of_runnable (h : s.state p = .runnable) : s.state p ≠ .zombie := by
 rw [h]
 exact nofun

theorem ne_unused_of_runnable (h : s.state p = .runnable) : s.state p ≠ .unused := by
 rw [h]
 exact nofun

theorem not_waiting_of_outside (h : s.place p = .outside) : ¬ s.Waiting p := by
 unfold Waiting
 rw [h]
 rintro (hfalse | hfalse) <;> cases hfalse

theorem not_waiting_of_checked (h : s.place p = .checked) : ¬ s.Waiting p := by
 unfold Waiting
 rw [h]
 rintro (hfalse | hfalse) <;> cases hfalse

theorem not_slept_of_granted (h : s.place p = .granted) : ¬ s.Slept p := by
 unfold Slept
 rw [h]
 rintro ⟨hfalse, _⟩
 cases hfalse

theorem not_slept_of_up (h : s.up p) : ¬ s.Slept p := by
 unfold Slept
 rw [h]
 rintro ⟨_, hfalse⟩
 cases hfalse

theorem well_iff_of_awake (hslept : ¬ s.Slept p) (hstate : s.state p = .runnable) :
  s.Well p n ↔ (s.childexit p).val + (if s.Waiting p then 1 else 0) = n ∧
   (s.Waiting p -> 0 < n) ∧ (s.childexit p).sleeplist = [] := by
 constructor
 · intro h
   have hlist := h.list
   rw [if_neg hslept] at hlist
   exact ⟨h.tokens, fun hwaiting => h.granted hwaiting hslept, hlist⟩
 rintro ⟨hval, hpos, hlist⟩
 constructor
 · exact hval
 · rw [if_neg hslept]
   exact hlist
 · exact fun hfalse => absurd hfalse hslept
 · exact fun hwaiting _ => hpos hwaiting
 · rw [hstate]
   exact nofun
 · exact fun hfalse => absurd hfalse hslept
 · exact fun hfalse => absurd hfalse (ne_unused_of_runnable hstate)

theorem well_iff_of_free (hfree : ¬ s.Waiting p) (hstate : s.state p = .runnable) :
  s.Well p n ↔ (s.childexit p).val = n ∧ (s.childexit p).sleeplist = [] := by
 rw [well_iff_of_awake (fun hslept => hfree (.inl hslept.left)) hstate, if_neg hfree,
  Int.add_zero, and_iff_right (a := _ -> _) (fun hfalse => absurd hfalse hfree)]

theorem well_iff_of_granted (hwaiting : s.Waiting p) (hslept : ¬ s.Slept p)
  (hstate : s.state p = .runnable) :
  s.Well p n ↔ (s.childexit p).val + 1 = n ∧ 0 < n ∧ (s.childexit p).sleeplist = [] := by
 rw [well_iff_of_awake hslept hstate, if_pos hwaiting, forall_prop_of_true hwaiting]

theorem Well.of_slept (hslept : s.Slept p) (hsem : s.childexit p = ⟨-1, [p]⟩)
  (hstate : s.state p = .sleeping ∨ s.state p = .runnable ∧ s.killed p) : s.Well p 0 := by
 have hwaiting : s.Waiting p := .inl hslept.left
 constructor
 · rw [if_pos hwaiting, hsem]
   rfl
 · rw [if_pos hslept, hsem]
 · exact fun _ => rfl
 · exact fun _ hfalse => absurd hslept hfalse
 · exact fun _ => hslept
 · exact fun _ => hstate.imp_right And.right
 intro hunused
 rcases hstate with hstate | ⟨hstate, _⟩
 all_goals
  rw [hstate] at hunused
  cases hunused

theorem Local.setPlace (s : ProcTree) (cp : Nat) (sem : RawSemaphore Nat) (place : WaitPlace) :
  s.Local ((s.setSem cp sem).setPlace cp place) cp := by
 refine ⟨⟨_, _, _, _, _, rfl⟩, ?_, Iff.rfl, Iff.rfl⟩
 intro p hp
 exact ⟨update_of_ne hp _ _, rfl, rfl, rfl, update_of_ne hp _ _⟩

section Waits
variable (h : s.Sound (fun _ => False)) (hcp : cp ∈ s.procs)
 (hstate : s.state cp = .runnable)
include h hcp hstate

theorem Sound.well : s.Well cp (s.zombies cp) := h.tokens cp hcp (ne_zombie_of_runnable hstate) id

theorem waitCheck_sound (hplace : s.place cp = .outside) :
  (s.waitCheck cp).2.Sound (fun _ => False) ∧ s.Still (s.waitCheck cp).2 s.parent := by
 unfold waitCheck
 split
 · exact ⟨h, Still.refl s⟩
 have hlocal : s.Local (s.setPlace cp .checked) cp := by
  refine ⟨⟨_, _, _, _, _, rfl⟩, ?_, Iff.rfl, Iff.rfl⟩
  intro p hp
  exact ⟨rfl, rfl, rfl, rfl, update_of_ne hp _ _⟩
 have hplace' : (s.setPlace cp .checked).place cp = .checked := update_self ..
 apply hlocal.sound h
 intro _
 rw [well_iff_of_free (not_waiting_of_checked hplace')]
 · exact (well_iff_of_free (not_waiting_of_outside hplace) hstate).mp (h.well hcp hstate)
 · exact hstate

omit hcp in
theorem fallAsleep_sound (hzero : s.zombies cp = 0) :
   (s.fallAsleep cp ⟨-1, [cp]⟩).Sound (fun _ => False) ∧
  s.Still (s.fallAsleep cp ⟨-1, [cp]⟩) s.parent := by
 unfold fallAsleep
 split
 · rename_i hkilled
   apply Local.sound (r := cp) _ h
   · intro _
     rw [hzero]
     apply Well.of_slept
     · exact ⟨update_self .., update_self ..⟩
     · exact update_self ..
     · exact .inr ⟨hstate, hkilled⟩
   refine ⟨⟨_, _, _, _, _, rfl⟩, ?_, Iff.rfl, Iff.rfl⟩
   intro p hp
   exact ⟨update_of_ne hp _ _, update_of_ne hp _ _, rfl, rfl, update_of_ne hp _ _⟩
 apply Local.sound (r := cp) _ h
 · intro _
   rw [hzero]
   apply Well.of_slept
   · exact ⟨update_self .., update_self ..⟩
   · exact update_self ..
   · exact .inl (update_self ..)
 refine ⟨⟨_, _, _, _, _, rfl⟩, ?_, ?_, ?_⟩
 · intro p hp
   exact ⟨update_of_ne hp _ _, update_of_ne hp _ _,
    update_of_ne hp _ _, rfl, update_of_ne hp _ _⟩
 all_goals
  change update s.state cp .sleeping cp = _ ↔ _
  rw [update_self, hstate]
  decide

theorem waitSem_sound (hplace : s.place cp = .checked) :
  (s.waitSem cp).Sound (fun _ => False) ∧ s.Still (s.waitSem cp) s.parent := by
 have hwell := h.well hcp hstate
 rw [well_iff_of_free (not_waiting_of_checked hplace) hstate] at hwell
 rcases hwell with ⟨hval, hlist⟩
 have hbound : s.zombies cp ≤ 32768 := Nat.le_trans (zombies_le h.family cp) (procs_card_le h.pids)
 have hwrap : wrapInt ((s.childexit cp).val - 1) = s.zombies cp - 1 := by
  rw [hval]
  exact wrapInt_of_fits (by unfold intMin; omega) (by unfold intMax; omega)
 unfold waitSem
 by_cases hpos : 0 < s.zombies cp
 · -- A token is there.
   have hgot : (s.childexit cp).waitSem cp = (true, ⟨s.zombies cp - 1, []⟩) := by
    unfold RawSemaphore.waitSem
    rw [hwrap, hlist, if_pos (by omega)]
   rw [hgot]
   apply (Local.setPlace s cp _ .granted).sound h
   intro _
   rw [well_iff_of_granted]
   · have hsem : ((s.setSem cp ⟨s.zombies cp - 1, []⟩).setPlace cp
      .granted).childexit cp = ⟨s.zombies cp - 1, []⟩ := update_self ..
     rw [hsem]
     exact ⟨Int.sub_add_cancel _ _, hpos, rfl⟩
   · exact .inr (update_self ..)
   · exact not_slept_of_granted (update_self ..)
   · exact hstate
 have hzero : s.zombies cp = 0 := Nat.eq_zero_of_not_pos hpos
 have hslept : (s.childexit cp).waitSem cp = (false, ⟨-1, [cp]⟩) := by
  unfold RawSemaphore.waitSem
  rw [hwrap, hlist, hzero]
  rfl
 rw [hslept]
 exact fallAsleep_sound h hstate hzero

theorem waitBack_spec (hplace : s.place cp = .asleep) :
   exists result next, s.waitBack cp = some (result, next) ∧
  (next.Sound (fun _ => False) ∧ s.Still next s.parent) ∧
     (result = none ∧ next.place cp = .granted ∨ result = some (-1) ∧ s.killed cp) := by
 have hwell := h.well hcp hstate
 have hwaiting : s.Waiting cp := .inl hplace
 unfold waitBack
 by_cases hup : s.up cp = true
 · rw [if_pos hup]
   refine ⟨_, _, rfl, ?_, .inl ⟨rfl, update_self ..⟩⟩
   rw [well_iff_of_granted hwaiting (not_slept_of_up hup) hstate] at hwell
   apply Local.sound (r := cp) _ h
   · intro _
     rw [well_iff_of_granted]
     · exact hwell
     · exact .inr (update_self ..)
     · exact not_slept_of_up hup
     · exact hstate
   refine ⟨⟨_, _, _, _, _, rfl⟩, ?_, Iff.rfl, Iff.rfl⟩
   intro p hp
   exact ⟨rfl, rfl, rfl, rfl, update_of_ne hp _ _⟩
 rw [if_neg hup]
 have hslept : s.Slept cp := ⟨hplace, Bool.eq_false_iff.mpr hup⟩
 rcases hwell.val_eq hslept with ⟨hval, hlist⟩
 have hcancel : (s.childexit cp).cancelWait cp = some ⟨0, []⟩ := by
  unfold RawSemaphore.cancelWait
  rw [hval, hlist, List.erase_cons_head]
  rfl
 rw [hcancel]
 refine ⟨_, _, rfl, ?_, .inr ⟨rfl, ?_⟩⟩
 · apply (Local.setPlace s cp ⟨0, []⟩ .outside).sound h
   intro _
   rw [hwell.slept hslept]
   rw [well_iff_of_free]
   · have hsem : ((s.setSem cp ⟨0, []⟩).setPlace cp .outside).childexit cp =
      ⟨0, []⟩ := update_self ..
     rw [hsem]
     exact ⟨rfl, rfl⟩
   · exact not_waiting_of_outside (update_self ..)
   · exact hstate
 rcases hwell.interrupted hslept with hsleeping | hkilled
 · rw [hstate] at hsleeping
   cases hsleeping
 · exact hkilled

end Waits

/-!
# Freeing a child
-/

theorem Family.remove (h : s.Family) (hc : c ∈ s.children cp)
    (hzombie : s.state c = .zombie) (state : Nat -> ProcState) (place : Nat -> WaitPlace)
    (pidProcMap : Int -> Option Nat) (globalPids : PidMap) (localPids : Nat -> PidMap)
    (hstate : forall p, p ≠ c -> state p = s.state p) :
    Family { s with
 procs := s.procs.erase c, state := state, place := place, pidProcMap := pidProcMap
 children := update s.children cp ((s.children cp).erase c)
 globalPids := globalPids, localPids := localPids } := by
 rcases (h.member c cp).mp hc with ⟨hmem, hroot, hparent⟩
 have hne : forall {p}, p ∈ s.procs.erase c -> p ≠ c ∧ p ∈ s.procs := mem_erase.mp
 constructor
 · exact ⟨mem_erase.mpr ⟨hroot.symm, h.root.left⟩, h.root.right⟩
 · intro p q
   change p ∈ update s.children cp ((s.children cp).erase c) q ↔
    p ∈ s.procs.erase c ∧ p ≠ s.rootProc ∧ s.parent p = some q
   rw [mem_erase, and_assoc, ← h.member]
   by_cases hq : q = cp
   · rw [hq, update_self, (h.nodup cp).mem_erase_iff]
   rw [update_of_ne hq]
   refine (and_iff_right_of_imp fun hin => ?_).symm
   rintro rfl
   have hparent' := ((h.member p q).mp hin).right.right
   rw [hparent] at hparent'
   exact hq (Option.some.inj hparent').symm
 · intro q
   change (update s.children cp ((s.children cp).erase c) q).Nodup
   by_cases hq : q = cp
   · rw [hq, update_self]
     exact (h.nodup cp).erase c
   rw [update_of_ne hq]
   exact h.nodup q
 · intro p q hp hq
   rcases h.parents p q (hne hp).right hq with ⟨hqmem, halive⟩
   have hqc : q ≠ c := by
    rintro rfl
    exact halive hzombie
   refine ⟨mem_erase.mpr ⟨hqc, hqmem⟩, ?_⟩
   change state q ≠ _
   rw [hstate q hqc]
   exact halive
 · intro p hp hused
   change state p ≠ _ at hused
   rw [hstate p (hne hp).left] at hused
   exact h.started p (hne hp).right hused
 · intro d hd
   rcases h.roots d hd with ⟨hdmem, hcont, halive⟩
   have hdc : s.rootproc d ≠ c := by
    rintro rfl
    exact halive hzombie
   refine ⟨mem_erase.mpr ⟨hdc, hdmem⟩, hcont, ?_⟩
   change state (s.rootproc d) ≠ _
   rw [hstate _ hdc]
   exact halive
 · intro p hp
   exact h.containers p (hne hp).right
 · exact h.first

theorem Pids.inj (h : s.Pids) (hp : p ∈ s.procs) (hq : q ∈ s.procs) (heq : s.pid p = s.pid q) :
  p = q := by
 have hmap := (h.map (s.pid p) p).mpr ⟨hp, rfl⟩
 rw [(h.map (s.pid p) q).mpr ⟨hq, heq.symm⟩] at hmap
 exact (Option.some.inj hmap).symm

theorem Pids.remove (h : s.Pids) (hc : c ∈ s.procs) {k : Nat} (hk : k < pidMaxDefault)
    (hpid : s.pid c = k) (state : Nat -> ProcState) (place : Nat -> WaitPlace)
    (children : Nat -> List Nat) (localPids : Nat -> PidMap)
    (hstate : forall p, p ≠ c -> state p = s.state p)
    (hlocal : forall d, d ∈ s.conts -> (localPids d).size = localPidMaxDefault) :
    Pids { s with
 procs := s.procs.erase c, state := state, place := place, children := children
 pidProcMap := update s.pidProcMap (s.pid c) none
 globalPids := { s.globalPids with
  nrFree := s.globalPids.nrFree + 1, page := update s.globalPids.page k false }
 localPids := localPids } := by
 have hset : s.globalPids.page k := (h.bits k hk).mpr ⟨c, hc, hpid⟩
 constructor
 · intro j p
   change update s.pidProcMap (s.pid c) none j = some p ↔ p ∈ s.procs.erase c ∧ _
   rw [mem_erase, and_assoc, ← h.map]
   by_cases hj : j = s.pid c
   · rw [hj, update_self, h.map]
     constructor
     · nofun
     · rintro ⟨hne, hp, heq⟩
       exact absurd (h.inj hp hc heq) hne
   rw [update_of_ne hj, h.map]
   refine (and_iff_right_of_imp fun hp => ?_).symm
   rintro rfl
   exact hj hp.right.symm
 · exact h.size
 · intro j hj
   change update s.globalPids.page k false j = true ↔ exists p, p ∈ s.procs.erase c ∧ s.pid p = j
   by_cases hjk : j = k
   · rw [hjk, update_self]
     constructor
     · nofun
     rintro ⟨p, hp, heq⟩
     rcases mem_erase.mp hp with ⟨hne, hp'⟩
     exact absurd (h.inj hp' hc (heq.trans hpid.symm)) hne
   rw [update_of_ne hjk, h.bits j hj]
   constructor
   · rintro ⟨p, hp, heq⟩
     refine ⟨p, mem_erase.mpr ⟨?_, hp⟩, heq⟩
     rintro rfl
     rw [hpid] at heq
     exact hjk (Int.ofNat_inj.mp heq).symm
   · rintro ⟨p, hp, heq⟩
     exact ⟨p, (mem_erase.mp hp).right, heq⟩
 · intro p hp
   exact h.range p (mem_erase.mp hp).right
 · exact PidMap.free_counted h.counted (h.size ▸ hk) hset
 · have hpos : 0 < s.procs.card := card_pos.mpr ⟨c, hc⟩
   have hfree := h.free
   change s.globalPids.nrFree + 1 + (s.procs.erase c).card = _
   rw [card_erase_of_mem hc]
   omega
 · exact hlocal
 · intro p hp hused
   rcases mem_erase.mp hp with ⟨hne, hp'⟩
   change state p ≠ _ at hused
   rw [hstate p hne] at hused
   exact h.localRange p hp' hused

theorem firstZombie_some (hpos : 0 < s.zombies cp) :
  exists c, s.firstZombie cp = some c ∧ c ∈ s.children cp ∧ s.state c = .zombie := by
 rcases List.countP_pos_iff.mp hpos with ⟨d, hd, hzombie⟩
 have hsome : (s.firstZombie cp).isSome := List.find?_isSome.mpr ⟨d, hd, hzombie⟩
 rcases Option.isSome_iff_exists.mp hsome with ⟨c, hc⟩
 have hfound := List.find?_some (l := s.children cp) hc
 exact ⟨c, hc, List.mem_of_find?_eq_some hc, of_decide_eq_true hfound⟩

theorem zombies_erase (h : s.Family) (hc : c ∈ s.children cp)
  (hzombie : s.state c = .zombie) {t : ProcTree}
  (hchildren : t.children cp = (s.children cp).erase c)
  (hstate : forall p, p ≠ c -> t.state p = s.state p) :
  t.zombies cp + 1 = s.zombies cp := by
 have hsame : t.zombies cp =
  ((s.children cp).erase c).countP (fun p => decide (s.state p = .zombie)) := by
  unfold zombies
  rw [hchildren]
  apply List.countP_congr
  intro p hp
  rw [hstate p ((h.nodup cp).mem_erase_iff.mp hp).left]
 rw [hsame]
 unfold zombies
 rw [(List.perm_cons_erase hc).countP_eq, List.countP_cons_of_pos]
 exact decide_eq_true hzombie

theorem waitReap_spec (h : s.Sound (fun _ => False)) (hcp : cp ∈ s.procs)
  (hstate : s.state cp = .runnable) (hplace : s.place cp = .granted) :
  exists c next, s.waitReap cp = some ((s.localpid c, s.exitcode c, s.pid c), next) ∧
    next.Sound (fun _ => False) ∧ c ∈ s.children cp ∧ s.state c = .zombie ∧
    next.procs = s.procs.erase c ∧ next.zombies cp + 1 = s.zombies cp := by
 have hwell := h.well hcp hstate
 rw [well_iff_of_granted (.inr hplace) (not_slept_of_granted hplace) hstate] at hwell
 rcases hwell with ⟨hval, hpos, hlist⟩
 rcases firstZombie_some hpos with ⟨c, hfirst, hc, hzombie⟩
 rcases (h.family.member c cp).mp hc with ⟨hmem, _, hparent⟩
 rcases h.pids.range c hmem with ⟨k, hk, hpid⟩
 have hne : cp ≠ c := by
  rintro rfl
  exact ne_zombie_of_runnable hstate hzombie
 have hused : s.state c ≠ .unused := by
  rw [hzombie]
  exact nofun
 have hcont := h.family.containers c hmem
 have hglobal := PidMap.freePid_eq (m := s.globalPids) (k := k) (h.pids.size ▸ hk)
 have hlocal : exists m, (s.localPids (s.container c)).freePid (s.localpid c) = some m ∧
  m.size = localPidMaxDefault := by
  have hsize := h.pids.locals _ hcont
  refine ⟨_, if_pos ?_, hsize⟩
  rw [hsize]
  exact h.pids.localRange c hmem hused
 rcases hlocal with ⟨m, hfreed, hsize⟩
 have hmap : s.pidProcMap (s.pid c) ≠ none := by
  rw [(h.pids.map (s.pid c) c).mpr ⟨hmem, rfl⟩]
  exact Option.some_ne_none c
 let next := (s.release cp c { s.globalPids with
  nrFree := s.globalPids.nrFree + 1
  page := update s.globalPids.page k false } m).setPlace cp .outside
 have hstates : forall p, p ≠ c -> next.state p = s.state p := fun p hp => update_of_ne hp _ _
 have hchildren : next.children cp = (s.children cp).erase c := update_self ..
 have hcount := zombies_erase h.family hc hzombie hchildren hstates
 refine ⟨c, next, ?_, ⟨?_, ?_, ?_⟩, hc, hzombie, rfl, hcount⟩
 · unfold waitReap free
   rw [hfirst, Option.bind_some, if_pos ⟨hparent, hmap⟩, hpid, hglobal, Option.bind_some, hfreed]
   rfl
 · exact h.family.remove hc hzombie _ _ _ _ _ hstates
 · intro p hp hlive _
   rcases mem_erase.mp hp with ⟨hpc, hp'⟩
   rw [hstates p hpc] at hlive
   by_cases hpcp : p = cp
   · rw [hpcp, well_iff_of_free]
     · exact ⟨by change (s.childexit cp).val = _; omega, hlist⟩
     · exact not_waiting_of_outside (update_self ..)
     · exact (hstates cp hne).trans hstate
   have hsame : next.children p = s.children p := update_of_ne hpcp _ _
   have hcount : next.zombies p = s.zombies p := by
    apply zombies_congr hsame
    intro d hd
    rw [hstates d]
    rintro rfl
    have hparent' := ((h.family.member d p).mp hd).right.right
    rw [hparent] at hparent'
    exact hpcp (Option.some.inj hparent').symm
   rw [hcount]
   exact (h.tokens p hp' hlive id).congr (hstates p hpc) rfl rfl rfl (update_of_ne hpcp _ _)
 apply h.pids.remove hmem hk hpid _ _ _ _ hstates
 intro d hd
 change (update s.localPids (s.container c) m d).size = _
 by_cases hdc : d = s.container c
 · rw [hdc, update_self]
   exact hsize
 rw [update_of_ne hdc]
 exact h.pids.locals d hd

end OSLab.Kernel.ProcTree
