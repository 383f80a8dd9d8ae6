import OSLab.Kernel.ProcWait

/-!
# Calls on processes

Who may call what, what a call changes, and that every call keeps the invariant of the
tree of processes.
-/

namespace OSLab.Kernel
open Common Function Finset
namespace ProcTree
variable {s next : ProcTree} {p q c : Nat} {exempt : Nat -> Prop}

/-!
# Creating, starting and killing
-/

def created (s : ProcTree) (p k : Nat) : ProcTree :=
 { s with
   globalPids := s.globalPids.take k
   pidProcMap := update s.pidProcMap k (some p) }.initProc p k

theorem created_family (h : s.Family) (hp : p ∉ s.procs) (k : Nat) : (s.created p k).Family := by
 have hnew : forall x, x ∈ s.procs -> x ≠ p := by
  rintro x hx rfl
  exact hp hx
 have hcases : forall x, x ∈ insert p s.procs -> x = p ∨ x ∈ s.procs := fun x => mem_insert.mp
 have hparent : (s.created p k).parent p = none := update_self ..
 have hparents : forall x, x ∈ s.procs -> (s.created p k).parent x = s.parent x :=
  fun x hx => update_of_ne (hnew x hx) _ _
 have hstates : forall x, x ∈ s.procs -> (s.created p k).state x = s.state x :=
  fun x hx => update_of_ne (hnew x hx) _ _
 constructor
 · exact ⟨mem_insert_of_mem h.root.left, (hparents _ h.root.left).trans h.root.right⟩
 · intro x q
   have hright : x ∈ (s.created p k).procs ∧ x ≠ s.rootProc ∧ (s.created p k).parent x = some q ↔
     x ∈ s.procs ∧ x ≠ s.rootProc ∧ s.parent x = some q := by
    constructor
    · rintro ⟨hx, hne, hq⟩
      rcases hcases x hx with rfl | hx'
      · rw [hparent] at hq
        cases hq
      rw [hparents x hx'] at hq
      exact ⟨hx', hne, hq⟩
    · rintro ⟨hx, hne, hq⟩
      exact ⟨mem_insert_of_mem hx, hne, (hparents x hx).trans hq⟩
   change x ∈ update s.children p [] q ↔ x ∈ (s.created p k).procs ∧
    x ≠ s.rootProc ∧ (s.created p k).parent x = some q
   rw [hright]
   by_cases hq : q = p
   · rw [hq, update_self]
     constructor
     · nofun
     · rintro ⟨hx, _, hparent'⟩
       exact absurd (h.parents x p hx hparent').left hp
   rw [update_of_ne hq]
   exact h.member x q
 · intro q
   change (update s.children p [] q).Nodup
   by_cases hq : q = p
   · rw [hq, update_self]
     exact List.nodup_nil
   rw [update_of_ne hq]
   exact h.nodup q
 · intro x q hx hq
   rcases hcases x hx with rfl | hx'
   · rw [hparent] at hq
     cases hq
   rw [hparents x hx'] at hq
   rcases h.parents x q hx' hq with ⟨hqmem, halive⟩
   rw [hstates q hqmem]
   exact ⟨mem_insert_of_mem hqmem, halive⟩
 · intro x hx hused
   rcases hcases x hx with rfl | hx'
   · exact absurd (update_self ..) hused
   rw [hstates x hx'] at hused
   rw [hparents x hx']
   exact h.started x hx' hused
 · intro c hc
   rcases h.roots c hc with ⟨hmem, hcont, halive⟩
   refine ⟨mem_insert_of_mem hmem, ?_, ?_⟩
   · exact (update_of_ne (hnew _ hmem) _ _).trans hcont
   · exact fun hfalse => halive ((hstates _ hmem).symm.trans hfalse)
 · intro x hx
   change update s.container p s.rootContainer x ∈ s.conts
   rcases hcases x hx with rfl | hx'
   · rw [update_self]
     exact h.first.left
   rw [update_of_ne (hnew x hx')]
   exact h.containers x hx'
 · exact h.first

theorem created_pids (h : s.Pids) (hp : p ∉ s.procs) {k : Nat} (hk : k < pidMaxDefault)
  (hclear : s.globalPids.page k = false) : (s.created p k).Pids := by
 have hnew : forall x, x ∈ s.procs -> x ≠ p := by
  rintro x hx rfl
  exact hp hx
 have hunused : forall x, x ∈ s.procs -> s.pid x ≠ k := by
  intro x hx heq
  rw [(h.bits k hk).mpr ⟨x, hx, heq⟩] at hclear
  cases hclear
 have hpid : (s.created p k).pid p = k := update_self ..
 have hpids : forall x, x ∈ s.procs -> (s.created p k).pid x = s.pid x :=
  fun x hx => update_of_ne (hnew x hx) _ _
 have hcases : forall x, x ∈ (s.created p k).procs ↔ x = p ∨ x ∈ s.procs := fun x => mem_insert
 constructor
 · intro j x
   rw [hcases]
   change update s.pidProcMap (k : Int) (some p) j = some x ↔ _
   by_cases hj : j = k
   · rw [hj, update_self]
     constructor
     · intro heq
       cases heq
       exact ⟨.inl rfl, hpid⟩
     rintro ⟨rfl | hx, heq⟩
     · rfl
     · exact absurd ((hpids x hx).symm.trans heq) (hunused x hx)
   rw [update_of_ne hj, h.map]
   constructor
   · rintro ⟨hx, heq⟩
     exact ⟨.inr hx, (hpids x hx).trans heq⟩
   rintro ⟨rfl | hx, heq⟩
   · exact absurd (heq.symm.trans hpid) hj
   · exact ⟨hx, (hpids x hx).symm.trans heq⟩
 · exact h.size
 · intro j hj
   change update s.globalPids.page k true j = true ↔ _
   by_cases hjk : j = k
   · rw [hjk, update_self]
     exact ⟨fun _ => ⟨p, (hcases p).mpr (.inl rfl), hpid⟩, fun _ => rfl⟩
   rw [update_of_ne hjk, h.bits j hj]
   constructor
   · rintro ⟨x, hx, heq⟩
     exact ⟨x, (hcases x).mpr (.inr hx), (hpids x hx).trans heq⟩
   rintro ⟨x, hx, heq⟩
   rcases (hcases x).mp hx with rfl | hx'
   · rw [hpid] at heq
     exact absurd (Int.ofNat_inj.mp heq).symm hjk
   · exact ⟨x, hx', (hpids x hx').symm.trans heq⟩
 · intro x hx
   rcases (hcases x).mp hx with rfl | hx'
   · exact ⟨k, hk, hpid⟩
   rw [hpids x hx']
   exact h.range x hx'
 · exact PidMap.take_counted h.counted (h.size ▸ hk) hclear
 · have hfree := h.free
   have hcounted := h.counted
   have hpos : 0 < s.globalPids.nrFree := by
    rw [hcounted]
    exact card_pos.mpr ⟨k, PidMap.mem_clear.mpr ⟨h.size ▸ hk, hclear⟩⟩
   change s.globalPids.nrFree - 1 + (insert p s.procs).card = _
   rw [card_insert_of_notMem hp]
   omega
 · exact h.locals
 · intro x hx hused
   rcases (hcases x).mp hx with rfl | hx'
   · exact absurd (update_self ..) hused
   have hstate : (s.created p k).state x = s.state x := update_of_ne (hnew x hx') _ _
   rw [hstate] at hused
   exact h.localRange x hx' hused

theorem createProc_spec (h : s.Sound (fun _ => False)) (hp : p ∉ s.procs)
  (hroom : s.procs.card < pidMaxDefault) :
  exists next, s.createProc p = some next ∧ next.Sound (fun _ => False) := by
 have hsize : 0 < s.globalPids.size := by
  rw [h.pids.size]
  decide
 have hfree := h.pids.free
 rcases PidMap.getNextPid_of_free hsize h.pids.counted (by omega) with ⟨k, hk, hclear, hnext⟩
 rw [h.pids.size] at hk
 have hnone : s.pidProcMap k = none := by
  cases hmap : s.pidProcMap k with
  | none => rfl
  | some x =>
   have hset := (h.pids.bits k hk).mpr ⟨x, (h.pids.map k x).mp hmap⟩
   rw [hclear] at hset
   cases hset
 have hnew : forall x, x ∈ s.procs -> x ≠ p := by
  rintro x hx rfl
  exact hp hx
 refine ⟨s.created p k, ?_, created_family h.family hp k, ?_, created_pids h.pids hp hk hclear⟩
 · have hinsert : insertPidProcMap { s with globalPids := s.globalPids.take k } k p =
    some { s with
     globalPids := s.globalPids.take k
     pidProcMap := update s.pidProcMap k (some p) } := if_pos hnone
   unfold createProc
   rw [hnext]
   dsimp only
   rw [hinsert]
   rfl
 intro x hx hlive _
 rcases mem_insert.mp hx with rfl | hx'
 · have hplace : (s.created x k).place x = .outside := update_self ..
   have hsem : (s.created x k).childexit x = ⟨0, []⟩ := update_self ..
   have hstate : (s.created x k).state x = .unused := update_self ..
   have hzero : (s.created x k).zombies x = 0 := by
    change List.countP _ (update s.children x [] x) = 0
    rw [update_self]
    rfl
   have hfree := not_waiting_of_outside hplace
   have hslept : ¬ (s.created x k).Slept x := fun hslept => hfree (.inl hslept.left)
   rw [hzero]
   constructor
   · rw [if_neg hfree, hsem]
     rfl
   · rw [if_neg hslept, hsem]
   · exact fun hfalse => absurd hfalse hslept
   · exact fun hfalse => absurd hfalse hfree
   · rw [hstate]
     exact nofun
   · exact fun hfalse => absurd hfalse hslept
   · exact fun _ => hplace
 have hne := hnew x hx'
 have hstate : (s.created p k).state x = s.state x := update_of_ne hne _ _
 rw [hstate] at hlive
 have hcount : (s.created p k).zombies x = s.zombies x := by
  apply zombies_congr
  · exact update_of_ne hne _ _
  intro d hd
  have hd' : (s.created p k).state d = s.state d :=
   update_of_ne (hnew d ((h.family.member d x).mp hd).left) _ _
  rw [hd']
 rw [hcount]
 exact (h.tokens x hx' hlive id).congr hstate (update_of_ne hne _ _)
  (update_of_ne hne _ _) (update_of_ne hne _ _)
  (update_of_ne hne _ _)

theorem Sound.contain (h : s.Sound exempt)
  (hroot : forall d, d ∈ s.conts -> s.rootproc d ≠ p) (hc : c ∈ s.conts) :
  (s.setContainer p c).Sound exempt := by
 constructor
 · have hfamily := h.family
   exact { hfamily with
    roots := by
     intro d hd
     rcases hfamily.roots d hd with ⟨hmem, hcont, halive⟩
     exact ⟨hmem, (update_of_ne (hroot d hd) _ _).trans hcont, halive⟩
    containers := by
     intro x hx
     change update s.container p c x ∈ s.conts
     by_cases hxp : x = p
     · rw [hxp, update_self]
       exact hc
     rw [update_of_ne hxp]
     exact hfamily.containers x hx }
 · intro x hx hlive hout
   exact (h.tokens x hx hlive hout).congr rfl rfl rfl rfl rfl
 · have hpids := h.pids
   exact { hpids with }

section
variable (h : s.Sound exempt) (hp : p ∈ s.procs) (hunused : s.state p = .unused)
include h hp hunused

theorem Sound.initContainer (hroot : forall d, d ∈ s.conts -> s.rootproc d ≠ p) (hc : c ∉ s.conts)
  (former : Nat -> Bool) : (s.initContainer c p former).Sound exempt := by
 have hnew : forall d, d ∈ s.conts -> d ≠ c := by
  rintro d hd rfl
  exact hc hd
 constructor
 · have hfamily := h.family
   exact { hfamily with
    roots := by
     intro d hd
     change update s.rootproc c p d ∈ s.procs ∧
      update s.container p c (update s.rootproc c p d) = d ∧
      s.state (update s.rootproc c p d) ≠ _
     rcases mem_insert.mp hd with rfl | hd'
     · rw [update_self, update_self, hunused]
       exact ⟨hp, rfl, nofun⟩
     rw [update_of_ne (hnew d hd'), update_of_ne (hroot d hd')]
     exact hfamily.roots d hd'
    containers := by
     intro x hx
     change update s.container p c x ∈ insert c s.conts
     by_cases hxp : x = p
     · rw [hxp, update_self]
       exact mem_insert_self c s.conts
     rw [update_of_ne hxp]
     exact mem_insert_of_mem (hfamily.containers x hx)
    first := by
     exact ⟨mem_insert_of_mem hfamily.first.left,
      (update_of_ne (hnew _ hfamily.first.left) _ _).trans hfamily.first.right⟩ }
 · intro x hx hlive hout
   exact (h.tokens x hx hlive hout).congr rfl rfl rfl rfl rfl
 · have hpids := h.pids
   refine { hpids with locals := ?_ }
   intro d hd
   change (update s.localPids c _ d).size = _
   rcases mem_insert.mp hd with rfl | hd'
   · rw [update_self]
     rfl
   rw [update_of_ne (hnew d hd')]
   exact hpids.locals d hd'

theorem Sound.startActivate (hparent : s.parent p ≠ none) : (s.startActivate p).Sound exempt := by
 have hself : (s.startActivate p).state p = .runnable := by
  change update s.state p ((s.state p).activate false) p = _
  rw [update_self, hunused]
  rfl
 have hothers : forall x, x ≠ p -> (s.startActivate p).state x = s.state x :=
  fun x hx => update_of_ne hx _ _
 have hzombie : forall x, (s.startActivate p).state x = .zombie ↔ s.state x = .zombie := by
  intro x
  by_cases hx : x = p
  · rw [hx, hself, hunused]
    decide
  · rw [hothers x hx]
 have hsize := h.pids.locals _ (h.family.containers p hp)
 have hlocal : (s.localPids (s.container p)).getNextPid.1 < localPidMaxDefault ∧
  (s.localPids (s.container p)).getNextPid.2.size = localPidMaxDefault := by
  have hpos : 0 < (s.localPids (s.container p)).size := by
   rw [hsize]
   decide
  rcases PidMap.getNextPid_cases hpos with hnone | ⟨k, hk, _, hsome⟩
  · rw [hnone]
    refine ⟨?_, hsize⟩
    change (-1 : Int) < localPidMaxDefault
    decide
  rw [hsome]
  rw [hsize] at hk
  exact ⟨Int.ofNat_lt.mpr hk, hsize⟩
 constructor
 · have hfamily := h.family
   exact { hfamily with
    parents := by
     intro x q hx hq
     rcases hfamily.parents x q hx hq with ⟨hmem, halive⟩
     exact ⟨hmem, fun hfalse => halive ((hzombie q).mp hfalse)⟩
    started := by
     intro x hx hused
     by_cases hxp : x = p
     · rw [hxp]
       exact hparent
     rw [hothers x hxp] at hused
     exact hfamily.started x hx hused
    roots := by
     intro d hd
     rcases hfamily.roots d hd with ⟨hmem, hcont, halive⟩
     exact ⟨hmem, hcont, fun hfalse => halive ((hzombie _).mp hfalse)⟩ }
 · intro x hx hlive hout
   have hlive' : s.state x ≠ .zombie := fun hfalse => hlive ((hzombie x).mpr hfalse)
   have hcount : (s.startActivate p).zombies x = s.zombies x :=
    zombies_congr rfl (fun d _ => hzombie d)
   have hwell := h.tokens x hx hlive' hout
   rw [hcount]
   by_cases hxp : x = p
   · rw [hxp] at hwell ⊢
     have hplace := hwell.unused hunused
     have hfree := not_waiting_of_outside hplace
     have hslept : ¬ s.Slept p := fun hslept => hfree (.inl hslept.left)
     have htokens := hwell.tokens
     rw [if_neg hfree, Int.add_zero] at htokens
     rw [well_iff_of_free (s := s.startActivate p) (not_waiting_of_outside hplace) hself]
     exact ⟨htokens, (hwell.val_nonneg hslept).right.right⟩
   · exact hwell.congr (hothers x hxp) rfl rfl rfl rfl
 · have hpids := h.pids
   refine { hpids with locals := ?_, localRange := ?_ }
   · intro d hd
     change (update s.localPids (s.container p) _ d).size = _
     by_cases hdc : d = s.container p
     · rw [hdc, update_self]
       exact hlocal.right
     rw [update_of_ne hdc]
     exact hpids.locals d hd
   intro x hx hused
   change update s.localpid p _ x < _
   by_cases hxp : x = p
   · rw [hxp, update_self]
     exact hlocal.left
   rw [update_of_ne hxp]
   rw [hothers x hxp] at hused
   exact hpids.localRange x hx hused
end

theorem Sound.kill (h : s.Sound (fun _ => False)) (pid : Int) :
  (s.kill pid).2.Sound (fun _ => False) ∧ s.Still (s.kill pid).2 s.parent := by
 unfold ProcTree.kill
 split
 · exact ⟨h, Still.refl s⟩
 rename_i p hmap
 split
 · exact ⟨h, Still.refl s⟩
 rename_i hused
 have hself : update s.state p ((s.state p).activate true) p =
  (s.state p).activate true := update_self ..
 have hlocal : s.Local { s.setState p ((s.state p).activate true) with
  killed := update s.killed p true } p := by
  refine ⟨⟨_, _, _, _, _, rfl⟩, ?_, ?_, ?_⟩
  · intro x hx
    exact ⟨rfl, rfl, update_of_ne hx _ _, update_of_ne hx _ _, rfl⟩
  · change update s.state p _ p = _ ↔ _
    rw [hself]
    exact activate_zombie_iff _ _
  change update s.state p _ p = _ ↔ _
  rw [hself]
  exact activate_unused_iff hused _
 have hp := ((h.pids.map pid p).mp hmap).left
 apply hlocal.sound h
 intro hlive
 have hwell := h.tokens p hp hlive id
 exact { hwell with
  sleeping := by
   intro hsleeping
   exact absurd (hself.symm.trans hsleeping) (activate_ne_sleeping _ _)
  interrupted := fun _ => .inr (update_self ..)
  unused := by
   intro hunused
   exact absurd ((activate_unused_iff hused true).mp (hself.symm.trans hunused)) hused }

end ProcTree

/-!
# The calls
-/

inductive ProcLabel where
 | createProc (p : Nat)
 | setParentToThis (cp p : Nat)
 | setContainer (p c : Nat)
 | initContainer (c p : Nat) (former : Nat -> Bool)
 | startAttach (p : Nat)
 | startActivate (p : Nat)
 | exit (cp : Nat) (code : Int)
 | waitCheck (cp : Nat)
 | waitSem (cp : Nat)
 | waitBack (cp : Nat)
 | waitReap (cp : Nat)
 | kill (pid : Int)

def ProcLabel.prepares : ProcLabel -> Bool
 | createProc _ | setParentToThis _ _ | setContainer _ _ | initContainer _ _ _
 | startAttach _ => true
 | _ => false

namespace ProcTree
variable (s : ProcTree)

def Fresh (p : Nat) : Prop := p ∈ s.procs ∧ s.state p = .unused

instance (s : ProcTree) (p : Nat) : Decidable (s.Fresh p) := inferInstanceAs (Decidable (_ ∧ _))

def At (cp : Nat) (place : WaitPlace) : Prop :=
 cp ∈ s.procs ∧ s.state cp = .runnable ∧ s.place cp = place

instance (s : ProcTree) (cp : Nat) (place : WaitPlace) : Decidable (s.At cp place) :=
 inferInstanceAs (Decidable (_ ∧ _ ∧ _))

def RootOf (p : Nat) : Prop := exists d, d ∈ s.conts ∧ s.rootproc d = p

instance (s : ProcTree) (p : Nat) : Decidable (s.RootOf p) :=
 inferInstanceAs (Decidable (exists d, d ∈ s.conts ∧ s.rootproc d = p))

def Enabled : ProcLabel -> Prop
 | .createProc p => p ∉ s.procs ∧ s.procs.card < pidMaxDefault
 | .setParentToThis cp p => s.At cp .outside ∧ s.Fresh p
 | .setContainer p c => s.Fresh p ∧ ¬ s.RootOf p ∧ c ∈ s.conts
 | .initContainer c p _ => s.Fresh p ∧ ¬ s.RootOf p ∧ c ∉ s.conts
 | .startAttach p => s.Fresh p
 | .startActivate p => s.Fresh p ∧ s.parent p ≠ none
 | .exit cp _ | .waitCheck cp => s.At cp .outside
 | .waitSem cp => s.At cp .checked
 | .waitBack cp => s.At cp .asleep
 | .waitReap cp => s.At cp .granted
 | .kill _ => True

instance (s : ProcTree) (l : ProcLabel) : Decidable (s.Enabled l) := by
 cases l <;> first | exact instDecidableAnd | exact instDecidableTrue

def call : ProcLabel -> Option ProcTree
 | .createProc p => s.createProc p
 | .setParentToThis cp p => s.setParentToThis cp p
 | .setContainer p c => some (s.setContainer p c)
 | .initContainer c p former => some (s.initContainer c p former)
 | .startAttach p => some (s.startAttach p)
 | .startActivate p => some (s.startActivate p)
 | .exit cp code => s.exit cp code
 | .waitCheck cp => some (s.waitCheck cp).2
 | .waitSem cp => some (s.waitSem cp)
 | .waitBack cp => (s.waitBack cp).map Prod.snd
 | .waitReap cp => (s.waitReap cp).map Prod.snd
 | .kill pid => some (s.kill pid).2

def step (l : ProcLabel) : Option ProcTree := if s.Enabled l then s.call l else none

variable {s next : ProcTree} {p q c cp : Nat}

def Started (s : ProcTree) (p : Nat) : Prop := p ∈ s.procs ∧ s.state p ≠ .unused

instance (s : ProcTree) (p : Nat) : Decidable (s.Started p) := inferInstanceAs (Decidable (_ ∧ _))

def Settled (s : ProcTree) (q : Nat) : Prop := q ∈ s.procs ∧ (s.state q ≠ .unused ∨ s.RootOf q)

/-!
# What the calls change
-/

structure Prepares (s next : ProcTree) (p : Nat) : Prop where
 created : p ∈ next.procs
 before : ¬ s.Started p
 unused : next.state p = .unused
 others : forall x, x ≠ p -> (x ∈ next.procs ↔ x ∈ s.procs) ∧ next.state x = s.state x ∧
  next.container x = s.container x ∧ next.localpid x = s.localpid x ∧
  next.parent x = s.parent x
 parent : forall q, next.parent p = some q -> p ∈ s.procs ∧ s.parent p = some q ∨ s.Settled q
 container : s.RootOf p -> next.container p = s.container p
 roots : forall x, s.RootOf x -> next.RootOf x
 localPids : forall d, d ∈ s.conts -> next.localPids d = s.localPids d
 rootProc : next.rootProc = s.rootProc

/-- The state after the zombie `c` has been freed, with its map of local pids `m`. -/
def reaped (s : ProcTree) (c : Nat) (m globalPids : PidMap) (children : Nat -> List Nat)
  (pidProcMap : Int -> Option Nat) (place : Nat -> WaitPlace) : ProcTree :=
 { s with
   procs := s.procs.erase c, state := update s.state c .unused
   children := children, pidProcMap := pidProcMap, place := place
   globalPids := globalPids, localPids := update s.localPids (s.container c) m }

inductive Change (s next : ProcTree) : ProcLabel -> Prop where
 | still {l : ProcLabel} : s.Still next s.parent -> Change s next l
 | prepares {l : ProcLabel} (p : Nat) : l.prepares = true -> s.Prepares next p ->
  Change s next l
 | starts (p : Nat) : p ∈ s.procs -> s.state p = .unused ->
  next = s.startActivate p -> Change s next (.startActivate p)
 | exits (cp : Nat) (code : Int) : cp ∈ s.procs ->
  s.Still next (s.handed (s.rootproc (s.container cp)) (s.children cp)) ->
  Change s next (.exit cp code)
 | reaps (cp c : Nat) (m globalPids : PidMap) (children : Nat -> List Nat)
  (pidProcMap : Int -> Option Nat) (place : Nat -> WaitPlace) :
  s.firstZombie cp = some c ->
  (s.localPids (s.container c)).freePid (s.localpid c) = some m ->
  next = s.reaped c m globalPids children pidProcMap place ->
  Change s next (.waitReap cp)

theorem Settled.of_root (h : s.Family) (hc : c ∈ s.conts) : s.Settled (s.rootproc c) :=
 ⟨(h.roots c hc).left, .inr ⟨c, hc, rfl⟩⟩

theorem prepares_created (h : s.Sound (fun _ => False)) (hp : p ∉ s.procs)
  (hcreate : s.createProc p = some next) : s.Prepares next p := by
 have hroot : ¬ s.RootOf p := by
  rintro ⟨d, hd, heq⟩
  rw [← heq] at hp
  exact hp (h.family.roots d hd).left
 unfold createProc insertPidProcMap at hcreate
 dsimp only at hcreate
 split at hcreate
 · cases hcreate
   constructor
   · exact mem_insert_self p s.procs
   · exact fun hstarted => hp hstarted.left
   · exact update_self ..
   · intro x hx
     refine ⟨?_, update_of_ne hx _ _, update_of_ne hx _ _, rfl, update_of_ne hx _ _⟩
     change x ∈ insert p s.procs ↔ _
     rw [mem_insert, or_iff_right hx]
   · intro q hq
     change update s.parent p none p = some q at hq
     rw [update_self] at hq
     cases hq
   · exact fun hfalse => absurd hfalse hroot
   · exact fun _ => id
   · exact fun _ _ => rfl
   · rfl
 · cases hcreate

section
variable (hp : s.Fresh p)
include hp

theorem prepares_self : s.Prepares s p where
 created := hp.left
 before := fun hstarted => hstarted.right hp.right
 unused := hp.right
 others := fun _ _ => ⟨Iff.rfl, rfl, rfl, rfl, rfl⟩
 parent := fun _ hq => .inl ⟨hp.left, hq⟩
 container := fun _ => rfl
 roots := fun _ => id
 localPids := fun _ _ => rfl
 rootProc := rfl

theorem prepares_attach (hq : s.Settled q) : s.Prepares (s.attach q p) p := by
 refine { prepares_self hp with others := ?_, parent := ?_ }
 · exact fun x hx => ⟨Iff.rfl, rfl, rfl, rfl, update_of_ne hx _ _⟩
 intro r hr
 change update s.parent p (some q) p = some r at hr
 rw [update_self] at hr
 cases hr
 exact .inr hq

theorem prepares_contain (hroot : ¬ s.RootOf p) (c : Nat) : s.Prepares (s.setContainer p c) p :=
 { prepares_self hp with
   others := fun _ hx => ⟨Iff.rfl, rfl, update_of_ne hx _ _, rfl, rfl⟩
   container := fun hfalse => absurd hfalse hroot }

theorem prepares_initContainer (hroot : ¬ s.RootOf p) (hc : c ∉ s.conts)
  (former : Nat -> Bool) : s.Prepares (s.initContainer c p former) p := by
 have hnew : forall d, d ∈ s.conts -> d ≠ c := by
  rintro d hd rfl
  exact hc hd
 refine { prepares_contain hp hroot c with roots := ?_, localPids := ?_ }
 · rintro x ⟨d, hd, heq⟩
   exact ⟨d, mem_insert_of_mem hd, (update_of_ne (hnew d hd) _ _).trans heq⟩
 · exact fun d hd => update_of_ne (hnew d hd) _ _
end

theorem waitReap_some {value : Int × Int × Int} (hreap : s.waitReap cp = some (value, next)) :
  exists c m globalPids children pidProcMap place, s.firstZombie cp = some c ∧
    (s.localPids (s.container c)).freePid (s.localpid c) = some m ∧
    next = s.reaped c m globalPids children pidProcMap place := by
 unfold waitReap at hreap
 rcases Option.bind_eq_some_iff.mp hreap with ⟨c, hfirst, hfound⟩
 rcases Option.map_eq_some_iff.mp hfound with ⟨after, hfree, heq⟩
 unfold free at hfree
 split at hfree
 · rcases Option.bind_eq_some_iff.mp hfree with ⟨globalPids, _, hlocals⟩
   rcases Option.map_eq_some_iff.mp hlocals with ⟨m, hm, hafter⟩
   rw [← (Prod.mk.inj heq).right, ← hafter]
   exact ⟨c, m, globalPids, _, _, _, hfirst, hm, rfl⟩
 · cases hfree

theorem Sound.call (h : s.Sound (fun _ => False)) {l : ProcLabel} (henabled : s.Enabled l)
  (hcall : s.call l = some next) : next.Sound (fun _ => False) ∧ s.Change next l := by
 cases l with
 | createProc p =>
  have hprepares := prepares_created h henabled.left hcall
  rcases createProc_spec h henabled.left henabled.right with ⟨after, hafter, hsound⟩
  rw [show s.call (.createProc p) = s.createProc p from rfl, hafter] at hcall
  cases hcall
  exact ⟨hsound, .prepares p rfl hprepares⟩
 | setParentToThis cp p =>
  rcases henabled with ⟨⟨hcp, hrun, _⟩, hp⟩
  change (if s.parent p = none then _ else _) = _ at hcall
  split at hcall
  · rename_i hparent
    cases hcall
    exact ⟨h.attach hp.left hparent hp.right hcp (ne_zombie_of_runnable hrun),
     .prepares p rfl (prepares_attach hp ⟨hcp, .inl (ne_unused_of_runnable hrun)⟩)⟩
  · cases hcall
 | setContainer p c =>
  rcases henabled with ⟨hp, hroot, hc⟩
  cases hcall
  exact ⟨h.contain (fun d hd heq => hroot ⟨d, hd, heq⟩) hc,
   .prepares p rfl (prepares_contain hp hroot c)⟩
 | initContainer c p former =>
  rcases henabled with ⟨hp, hroot, hc⟩
  cases hcall
  exact ⟨h.initContainer hp.left hp.right (fun d hd heq => hroot ⟨d, hd, heq⟩) hc former,
   .prepares p rfl (prepares_initContainer hp hroot hc former)⟩
 | startAttach p =>
  cases hcall
  unfold startAttach
  split
  · rename_i hparent
    have hroots := h.family.roots _ h.family.first.left
    have hsettled := Settled.of_root h.family h.family.first.left
    rw [h.family.first.right] at hroots hsettled
    exact ⟨h.attach henabled.left hparent henabled.right hroots.left hroots.right.right,
     .prepares p rfl (prepares_attach henabled hsettled)⟩
  · exact ⟨h, .still (Still.refl s)⟩
 | startActivate p =>
  rcases henabled with ⟨⟨hp, hunused⟩, hparent⟩
  cases hcall
  exact ⟨h.startActivate hp hunused hparent, .starts p hp hunused rfl⟩
 | exit cp code =>
  rcases henabled with ⟨hcp, hrun, _⟩
  change s.exit cp code = some next at hcall
  by_cases hroot : cp = s.rootproc (s.container cp)
  · rw [show s.exit cp code = none from if_pos hroot] at hcall
    cases hcall
  rcases exit_spec h hcp hrun hroot code with ⟨after, hafter, hsound, hstill, _⟩
  rw [hafter] at hcall
  cases hcall
  exact ⟨hsound, .exits cp code hcp hstill⟩
 | waitCheck cp =>
  rcases henabled with ⟨hcp, hrun, hplace⟩
  cases hcall
  exact (waitCheck_sound h hcp hrun hplace).imp_right .still
 | waitSem cp =>
  rcases henabled with ⟨hcp, hrun, hplace⟩
  cases hcall
  exact (waitSem_sound h hcp hrun hplace).imp_right .still
 | waitBack cp =>
  rcases henabled with ⟨hcp, hrun, hplace⟩
  rcases waitBack_spec h hcp hrun hplace with ⟨result, after, hafter, hsound, _⟩
  change (s.waitBack cp).map Prod.snd = _ at hcall
  rw [hafter] at hcall
  cases hcall
  exact hsound.imp_right .still
 | waitReap cp =>
  rcases henabled with ⟨hcp, hrun, hplace⟩
  rcases waitReap_spec h hcp hrun hplace with ⟨_, after, hafter, hsound, _⟩
  rcases waitReap_some hafter with ⟨c, m, _, _, _, _, hfirst, hm, hnext⟩
  change (s.waitReap cp).map Prod.snd = _ at hcall
  rw [hafter] at hcall
  cases hcall
  exact ⟨hsound, .reaps cp c m _ _ _ _ hfirst hm hnext⟩
 | kill pid =>
  cases hcall
  exact (h.kill pid).imp_right .still

theorem of_step {l : ProcLabel} (hstep : s.step l = some next) :
  s.Enabled l ∧ s.call l = some next := Option.ite_none_right_eq_some.mp hstep

theorem Sound.step (h : s.Sound (fun _ => False)) {l : ProcLabel}
  (hstep : s.step l = some next) : next.Sound (fun _ => False) ∧ s.Change next l :=
 h.call (of_step hstep).left (of_step hstep).right

end ProcTree
end OSLab.Kernel
