import OSLab.Kernel.ProcTree
import Mathlib.Data.List.Nodup

/-!
# Families of processes

The invariant of the tree of processes: who is on whose list, the tokens of `childexit`,
and the pids.  A process that is in `exit` gives its children away one by one; meanwhile
its own tokens do not count.
-/

namespace OSLab.Kernel
open Common Function List


namespace ProcTree

def zombies (s : ProcTree) (q : Nat) : Nat :=
 (s.children q).countP (fun c => decide (s.state c = .zombie))

structure Family (s : ProcTree) : Prop where
 root : s.rootProc ∈ s.procs ∧ s.parent s.rootProc = some s.rootProc
 member : forall p q, p ∈ s.children q ↔ p ∈ s.procs ∧ p ≠ s.rootProc ∧ s.parent p = some q
 nodup : forall q, (s.children q).Nodup
 parents : forall p q, p ∈ s.procs -> s.parent p = some q -> q ∈ s.procs ∧ s.state q ≠ .zombie
 started : forall p, p ∈ s.procs -> s.state p ≠ .unused -> s.parent p ≠ none
 roots : forall c, c ∈ s.conts -> s.rootproc c ∈ s.procs ∧ s.container (s.rootproc c) = c ∧
  s.state (s.rootproc c) ≠ .zombie
 containers : forall p, p ∈ s.procs -> s.container p ∈ s.conts
 first : s.rootContainer ∈ s.conts ∧ s.rootproc s.rootContainer = s.rootProc

def Slept (s : ProcTree) (p : Nat) : Prop := s.place p = .asleep ∧ s.up p = false

instance (s : ProcTree) (p : Nat) : Decidable (s.Slept p) := inferInstanceAs (Decidable (_ ∧ _))

def Waiting (s : ProcTree) (p : Nat) : Prop := s.place p = .asleep ∨ s.place p = .granted

instance (s : ProcTree) (p : Nat) : Decidable (s.Waiting p) := inferInstanceAs (Decidable (_ ∨ _))

structure Well (s : ProcTree) (p n : Nat) : Prop where
 tokens : (s.childexit p).val + (if s.Waiting p then 1 else 0) = n
 list : (s.childexit p).sleeplist = if s.Slept p then [p] else []
 slept : s.Slept p -> n = 0
 granted : s.Waiting p -> ¬ s.Slept p -> 0 < n
 sleeping : s.state p = .sleeping -> s.Slept p
 interrupted : s.Slept p -> s.state p = .sleeping ∨ s.killed p = true
 unused : s.state p = .unused -> s.place p = .outside

def Tokens (s : ProcTree) (exempt : Nat -> Prop) : Prop :=
 forall p, p ∈ s.procs -> s.state p ≠ .zombie -> ¬ exempt p -> s.Well p (s.zombies p)

structure Pids (s : ProcTree) : Prop where
 map : forall k p, s.pidProcMap k = some p ↔ p ∈ s.procs ∧ s.pid p = k
 size : s.globalPids.size = pidMaxDefault
 bits : forall k : Nat, k < pidMaxDefault ->
  (s.globalPids.page k = true ↔ exists p, p ∈ s.procs ∧ s.pid p = k)
 range : forall p, p ∈ s.procs -> exists k : Nat, k < pidMaxDefault ∧ s.pid p = k
 counted : s.globalPids.Counted
 free : s.globalPids.nrFree + s.procs.card = pidMaxDefault
 locals : forall c, c ∈ s.conts -> (s.localPids c).size = localPidMaxDefault
 localRange : forall p, p ∈ s.procs -> s.state p ≠ .unused -> s.localpid p < localPidMaxDefault

structure Sound (s : ProcTree) (exempt : Nat -> Prop) : Prop where
 family : s.Family
 tokens : s.Tokens exempt
 pids : s.Pids

variable {s t next : ProcTree} {p q c cp r n : Nat} {exempt : Nat -> Prop}

/-!
# Counting zombies
-/

theorem zombies_congr (hchildren : t.children q = s.children q)
  (hstate : forall c, c ∈ s.children q -> (t.state c = .zombie ↔ s.state c = .zombie)) :
  t.zombies q = s.zombies q := by
 unfold zombies
 rw [hchildren]
 apply countP_congr
 intro c hc
 rw [decide_eq_true_iff, decide_eq_true_iff]
 exact hstate c hc

theorem zombies_le (h : s.Family) (q : Nat) : s.zombies q ≤ s.procs.card := by
 have hsub : (s.children q).toFinset ⊆ s.procs := by
  intro c hc
  exact ((h.member c q).mp (mem_toFinset.mp hc)).left
 calc s.zombies q ≤ (s.children q).length := countP_le_length
  _ = (s.children q).toFinset.card := (toFinset_card_of_nodup (h.nodup q)).symm
  _ ≤ s.procs.card := Finset.card_le_card hsub

theorem procs_card_le (h : s.Pids) : s.procs.card ≤ 32768 := by
 have hfree := h.free
 unfold pidMaxDefault at hfree
 omega

theorem Well.congr (h : s.Well p n) (hstate : t.state p = s.state p)
  (hkilled : t.killed p = s.killed p) (hsem : t.childexit p = s.childexit p)
  (hup : t.up p = s.up p) (hplace : t.place p = s.place p) : t.Well p n := by
 have hslept : t.Slept p ↔ s.Slept p := by
  unfold Slept
  rw [hup, hplace]
 have hwaiting : t.Waiting p ↔ s.Waiting p := by
  unfold Waiting
  rw [hplace]
 constructor
 · rw [hsem]
   simp only [hwaiting]
   exact h.tokens
 · rw [hsem]
   simp only [hslept]
   exact h.list
 · rw [hslept]
   exact h.slept
 · rw [hslept, hwaiting]
   exact h.granted
 · rw [hslept, hstate]
   exact h.sleeping
 · rw [hslept, hstate, hkilled]
   exact h.interrupted
 · rw [hstate, hplace]
   exact h.unused

/-!
# Posts
-/

structure Local (s next : ProcTree) (r : Nat) : Prop where
 rest : exists sem up state killed place, next = { s with
  childexit := sem, up := up, state := state, killed := killed, place := place }
 others : forall p, p ≠ r -> next.childexit p = s.childexit p ∧ next.up p = s.up p ∧
  next.state p = s.state p ∧ next.killed p = s.killed p ∧ next.place p = s.place p
 zombie : next.state r = .zombie ↔ s.state r = .zombie
 unused : next.state r = .unused ↔ s.state r = .unused

theorem activate_zombie_iff (x : ProcState) (onalert : Bool) :
  x.activate onalert = .zombie ↔ x = .zombie := by
 cases x <;> cases onalert <;> decide

theorem activate_unused_iff {x : ProcState} (h : x ≠ .unused) (onalert : Bool) :
  x.activate onalert = .unused ↔ x = .unused := by
 cases x <;> cases onalert <;> first | exact absurd rfl h | decide

theorem activate_ne_sleeping (x : ProcState) (onalert : Bool) : x.activate onalert ≠ .sleeping := by
 cases x <;> cases onalert <;> decide

theorem Well.val_eq (h : s.Well p n) (hslept : s.Slept p) :
  (s.childexit p).val = -1 ∧ (s.childexit p).sleeplist = [p] := by
 have htokens := h.tokens
 have hwaiting : s.Waiting p := .inl hslept.left
 rw [if_pos hwaiting, h.slept hslept] at htokens
 have hlist := h.list
 rw [if_pos hslept] at hlist
 exact ⟨by omega, hlist⟩

theorem Well.val_nonneg (h : s.Well p n) (hslept : ¬ s.Slept p) :
  0 ≤ (s.childexit p).val ∧ (s.childexit p).val ≤ n ∧ (s.childexit p).sleeplist = [] := by
 have htokens := h.tokens
 have hlist := h.list
 rw [if_neg hslept] at hlist
 split at htokens
 · rename_i hwaiting
   have hpos := h.granted hwaiting hslept
   exact ⟨by omega, by omega, hlist⟩
 · exact ⟨by omega, by omega, hlist⟩

theorem postChildexit_slept (h : s.Well r n) (hslept : s.Slept r) :
  exists next, s.postChildexit r = some next ∧ s.Local next r ∧ next.Well r (n + 1) := by
 rcases h.val_eq hslept with ⟨hval, hlist⟩
 have hpost : (s.childexit r).postSem = some (some r, ⟨0, []⟩) := by
  unfold RawSemaphore.postSem
  rw [hval, hlist]
  rfl
 have hused : s.state r ≠ .unused := by
  intro hunused
  have hout := h.unused hunused
  rw [hslept.left] at hout
  cases hout
 refine ⟨(s.setSem r ⟨0, []⟩).wake (some r), ?_, ⟨⟨_, _, _, _, _, rfl⟩, ?_, ?_, ?_⟩, ?_⟩
 · unfold postChildexit
   rw [hpost]
   rfl
 · intro p hp
   exact ⟨update_of_ne hp _ _, update_of_ne hp _ _, update_of_ne hp _ _, rfl, rfl⟩
 · change update s.state r _ r = _ ↔ _
   rw [update_self]
   exact activate_zombie_iff _ _
 · change update s.state r _ r = _ ↔ _
   rw [update_self]
   exact activate_unused_iff hused _
 generalize hnext : (s.setSem r ⟨0, []⟩).wake (some r) = next
 have hsem : next.childexit r = ⟨0, []⟩ := by
  rw [← hnext]
  exact update_self ..
 have hup : next.up r := by
  rw [← hnext]
  exact update_self ..
 have hstate : next.state r = (s.state r).activate false := by
  rw [← hnext]
  exact update_self ..
 have hplace : next.place r = .asleep := by
  rw [← hnext]
  exact hslept.left
 have hwaiting : next.Waiting r := .inl hplace
 have hawake : ¬ next.Slept r := by
  intro hfalse
  have hdown := hfalse.right
  rw [hup] at hdown
  cases hdown
 constructor
 · rw [if_pos hwaiting, hsem, h.slept hslept]
   rfl
 · rw [if_neg hawake, hsem]
 · exact fun hfalse => absurd hfalse hawake
 · exact fun _ _ => Nat.succ_pos n
 · intro hsleeping
   rw [hstate] at hsleeping
   exact absurd hsleeping (activate_ne_sleeping _ _)
 · exact fun hfalse => absurd hfalse hawake
 intro hunused
 rw [hstate, activate_unused_iff hused] at hunused
 exact absurd hunused hused

theorem postChildexit_awake (h : s.Well r n) (hn : n ≤ 32768) (hslept : ¬ s.Slept r) :
  exists next, s.postChildexit r = some next ∧ s.Local next r ∧ next.Well r (n + 1) := by
 rcases h.val_nonneg hslept with ⟨hlow, hhigh, hlist⟩
 have hwrap : wrapInt ((s.childexit r).val + 1) = (s.childexit r).val + 1 :=
  wrapInt_of_fits (by unfold intMin; omega) (by unfold intMax; omega)
 have hpost : (s.childexit r).postSem =
  some (none, { s.childexit r with val := (s.childexit r).val + 1 }) := by
  unfold RawSemaphore.postSem
  rw [hwrap, if_neg (by omega)]
 refine ⟨s.setSem r { s.childexit r with val := (s.childexit r).val + 1 }, ?_,
  ⟨⟨_, _, _, _, _, rfl⟩, ?_, Iff.rfl, Iff.rfl⟩, ?_⟩
 · unfold postChildexit
   rw [hpost]
   rfl
 · intro p hp
   exact ⟨update_of_ne hp _ _, rfl, rfl, rfl, rfl⟩
 · have hsem : (s.setSem r { s.childexit r with val := (s.childexit r).val + 1 }).childexit r =
    { s.childexit r with val := (s.childexit r).val + 1 } := update_self ..
   exact { h with
    tokens := by
     rw [hsem]
     have htokens := h.tokens
     change (s.childexit r).val + 1 + (if s.Waiting r then 1 else 0) = _
     rw [Int.natCast_add, ← htokens]
     omega
    list := by
     rw [hsem]
     exact h.list
    slept := fun hfalse => absurd hfalse hslept
    granted := fun _ _ => Nat.succ_pos n }

theorem postChildexit_spec (h : s.Well r n) (hn : n ≤ 32768) :
  exists next, s.postChildexit r = some next ∧ s.Local next r ∧ next.Well r (n + 1) := by
 by_cases hslept : s.Slept r
 · exact postChildexit_slept h hslept
 · exact postChildexit_awake h hn hslept

/-!
# What depends on what
-/

theorem Family.restate (h : s.Family) (state : Nat -> ProcState) (killed up : Nat -> Bool)
    (childexit : Nat -> RawSemaphore Nat) (place : Nat -> WaitPlace) (exitcode : Nat -> Int)
    (hzombie : forall p, state p = .zombie ↔ s.state p = .zombie)
    (hunused : forall p, state p = .unused ↔ s.state p = .unused) :
    Family { s with
 state := state, killed := killed, up := up, childexit := childexit, place := place
 exitcode := exitcode } := by
 exact { h with
  parents := by
   intro p q hp hq
   exact ⟨(h.parents p q hp hq).left,
    fun hfalse => (h.parents p q hp hq).right ((hzombie q).mp hfalse)⟩
  started := by
   intro p hp hused
   exact h.started p hp fun hfalse => hused ((hunused p).mpr hfalse)
  roots := by
   intro c hc
   rcases h.roots c hc with ⟨hmem, hcont, halive⟩
   exact ⟨hmem, hcont, fun hfalse => halive ((hzombie _).mp hfalse)⟩ }

theorem Pids.restate (h : s.Pids) (state : Nat -> ProcState) (killed up : Nat -> Bool)
    (childexit : Nat -> RawSemaphore Nat) (place : Nat -> WaitPlace) (exitcode : Nat -> Int)
    (parent : Nat -> Option Nat) (children : Nat -> List Nat)
    (hunused : forall p, s.state p = .unused -> state p = .unused) :
    Pids { s with
 state := state, killed := killed, up := up, childexit := childexit, place := place
 exitcode := exitcode, parent := parent, children := children } := by
 exact { h with
  localRange := by
   intro p hp hused
   exact h.localRange p hp fun hfalse => hused (hunused p hfalse) }

structure Still (s next : ProcTree) (parents : Nat -> Option Nat) : Prop where
 procs : next.procs = s.procs
 conts : next.conts = s.conts
 rootProc : next.rootProc = s.rootProc
 rootproc : next.rootproc = s.rootproc
 container : next.container = s.container
 localpid : next.localpid = s.localpid
 localPids : next.localPids = s.localPids
 unused : forall p, next.state p = .unused ↔ s.state p = .unused
 parent : next.parent = parents

theorem Still.refl (s : ProcTree) : s.Still s s.parent :=
 ⟨rfl, rfl, rfl, rfl, rfl, rfl, rfl, fun _ => Iff.rfl, rfl⟩

variable {between parents : Nat -> Option Nat}

theorem Still.trans {mid : ProcTree}
  (h : s.Still mid between) (h' : mid.Still next parents) : s.Still next parents where
 procs := h'.procs.trans h.procs
 conts := h'.conts.trans h.conts
 rootProc := h'.rootProc.trans h.rootProc
 rootproc := h'.rootproc.trans h.rootproc
 container := h'.container.trans h.container
 localpid := h'.localpid.trans h.localpid
 localPids := h'.localPids.trans h.localPids
 unused := fun p => (h'.unused p).trans (h.unused p)
 parent := h'.parent

namespace Local
variable (hpost : s.Local next r)
include hpost

theorem zombie_iff (p : Nat) : next.state p = .zombie ↔ s.state p = .zombie := by
 by_cases hp : p = r
 · rw [hp]
   exact hpost.zombie
 · rw [(hpost.others p hp).right.right.left]

theorem unused_iff (p : Nat) : next.state p = .unused ↔ s.state p = .unused := by
 by_cases hp : p = r
 · rw [hp]
   exact hpost.unused
 · rw [(hpost.others p hp).right.right.left]

theorem family (h : s.Family) : next.Family := by
 have hzombie := hpost.zombie_iff
 have hunused := hpost.unused_iff
 rcases hpost.rest with ⟨sem, up, state, killed, place, heq⟩
 rw [heq] at hzombie hunused ⊢
 exact h.restate state killed up sem place _ hzombie hunused

theorem pids (h : s.Pids) : next.Pids := by
 have hunused := hpost.unused_iff
 rcases hpost.rest with ⟨sem, up, state, killed, place, heq⟩
 rw [heq] at hunused ⊢
 exact h.restate state killed up sem place _ _ _ (fun p => (hunused p).mpr)

theorem zombies_eq (q : Nat) : next.zombies q = s.zombies q := by
 have hzombie := hpost.zombie_iff
 rcases hpost.rest with ⟨sem, up, state, killed, place, heq⟩
 rw [heq] at hzombie ⊢
 exact zombies_congr rfl (fun c _ => hzombie c)

theorem well (hp : p ≠ r) (h : s.Well p n) : next.Well p n := by
 rcases hpost.others p hp with ⟨hsem, hup, hstate, hkilled, hplace⟩
 rcases hpost.rest with ⟨sem, up, state, killed, place, heq⟩
 rw [heq] at hsem hup hstate hkilled hplace ⊢
 exact h.congr hstate hkilled hsem hup hplace

theorem still : s.Still next s.parent := by
 have hunused := hpost.unused_iff
 rcases hpost.rest with ⟨sem, up, state, killed, place, heq⟩
 rw [heq] at hunused ⊢
 exact ⟨rfl, rfl, rfl, rfl, rfl, rfl, rfl, hunused, rfl⟩

theorem sound (h : s.Sound exempt) (hwell : s.state r ≠ .zombie -> next.Well r (s.zombies r)) :
  next.Sound exempt ∧ s.Still next s.parent := by
 refine ⟨?_, hpost.still⟩
 constructor
 · exact hpost.family h.family
 · intro p hp hlive hout
   rw [Ne, hpost.zombie_iff] at hlive
   rw [hpost.zombies_eq]
   by_cases hpr : p = r
   · rw [hpr] at hlive ⊢
     exact hwell hlive
   apply hpost.well hpr
   apply h.tokens p _ hlive hout
   rcases hpost.rest with ⟨sem, up, state, killed, place, heq⟩
   rw [heq] at hp
   exact hp
 · exact hpost.pids h.pids

end Local

/-!
# Moving a process to another list
-/

theorem Family.move (h : s.Family) (hc : c ∈ s.procs) (hroot : c ≠ s.rootProc)
  (hr : r ∈ s.procs) (halive : s.state r ≠ .zombie) {children : Nat -> List Nat}
  (hmem : forall p q, p ∈ children q ↔ p ≠ c ∧ p ∈ s.children q ∨ p = c ∧ q = r)
  (hnodup : forall q, (children q).Nodup) :
  Family { s with parent := update s.parent c (some r), children := children } := by
 constructor
 · refine ⟨h.root.left, ?_⟩
   change update s.parent c (some r) s.rootProc = _
   rw [update_of_ne hroot.symm]
   exact h.root.right
 · intro p q
   change p ∈ children q ↔ p ∈ s.procs ∧ p ≠ s.rootProc ∧ update s.parent c (some r) p = some q
   rw [hmem]
   by_cases hp : p = c
   · rw [hp, update_self]
     constructor
     · rintro (⟨hne, _⟩ | ⟨_, rfl⟩)
       · exact absurd rfl hne
       · exact ⟨hc, hroot, rfl⟩
     rintro ⟨_, _, hq⟩
     cases hq
     exact .inr ⟨rfl, rfl⟩
   rw [update_of_ne hp, ← h.member]
   constructor
   · rintro (⟨_, hin⟩ | ⟨heq, _⟩)
     · exact hin
     · exact absurd heq hp
   · exact fun hin => .inl ⟨hp, hin⟩
 · exact hnodup
 · intro p q hp hq
   change update s.parent c (some r) p = some q at hq
   by_cases hpc : p = c
   · rw [hpc, update_self] at hq
     cases hq
     exact ⟨hr, halive⟩
   rw [update_of_ne hpc] at hq
   exact h.parents p q hp hq
 · intro p hp hused
   change update s.parent c (some r) p ≠ none
   by_cases hpc : p = c
   · rw [hpc, update_self]
     exact Option.some_ne_none r
   rw [update_of_ne hpc]
   exact h.started p hp hused
 · exact h.roots
 · exact h.containers
 · exact h.first

theorem Family.not_child_of_parent (h : s.Family) (hparent : s.parent c ≠ some q) :
  c ∉ s.children q := by
 intro hin
 exact hparent ((h.member c q).mp hin).right.right

theorem Family.attach (h : s.Family) (hc : c ∈ s.procs) (hparent : s.parent c = none)
  (hr : r ∈ s.procs) (halive : s.state r ≠ .zombie) : (s.attach r c).Family := by
 have hout : forall q, c ∉ s.children q := by
  intro q
  apply h.not_child_of_parent
  rw [hparent]
  exact (Option.some_ne_none q).symm
 have hroot : c ≠ s.rootProc := by
  rintro rfl
  rw [h.root.right] at hparent
  cases hparent
 apply h.move hc hroot hr halive
 · intro p q
   by_cases hq : q = r
   · rw [hq, update_self, mem_cons]
     constructor
     · rintro (rfl | hin)
       · exact .inr ⟨rfl, rfl⟩
       · exact .inl ⟨fun heq => hout r (heq ▸ hin), hin⟩
     rintro (⟨_, hin⟩ | ⟨heq, _⟩)
     · exact .inr hin
     · exact .inl heq
   rw [update_of_ne hq]
   constructor
   · exact fun hin => .inl ⟨fun heq => hout q (heq ▸ hin), hin⟩
   rintro (⟨_, hin⟩ | ⟨_, heq⟩)
   · exact hin
   · exact absurd heq hq
 intro q
 by_cases hq : q = r
 · rw [hq, update_self, nodup_cons]
   exact ⟨hout r, h.nodup r⟩
 rw [update_of_ne hq]
 exact h.nodup q

theorem zombies_attach (s : ProcTree) (r c q : Nat) (halive : s.state c ≠ .zombie) :
  (s.attach r c).zombies q = s.zombies q := by
 unfold zombies attach
 by_cases hq : q = r
 · rw [hq]
   change countP _ (update s.children r (c :: s.children r) r) = _
   rw [update_self, countP_cons_of_neg]
   rw [decide_eq_true_iff]
   exact halive
 change countP _ (update s.children r (c :: s.children r) q) = _
 rw [update_of_ne hq]

theorem Sound.attach (h : s.Sound exempt) (hc : c ∈ s.procs) (hparent : s.parent c = none)
  (hunused : s.state c = .unused) (hr : r ∈ s.procs) (halive : s.state r ≠ .zombie) :
  (s.attach r c).Sound exempt := by
 have hnot : s.state c ≠ .zombie := by
  rw [hunused]
  exact nofun
 constructor
 · exact h.family.attach hc hparent hr halive
 · intro p hp hlive hout
   rw [zombies_attach s r c p hnot]
   exact (h.tokens p hp hlive hout).congr rfl rfl rfl rfl rfl
 · exact h.pids.restate _ _ _ _ _ _ _ _ (fun _ => id)

/-!
# `exit`
-/

structure Kept (s next : ProcTree) (cp : Nat) (parents : Nat -> Option Nat) : Prop
  extends s.Still next parents where
 alive : forall p, next.state p = .zombie ↔ s.state p = .zombie
 state : next.state cp = s.state cp

theorem Kept.trans {mid : ProcTree}
  (h : s.Kept mid cp between) (h' : mid.Kept next cp parents) : s.Kept next cp parents where
 toStill := h.toStill.trans h'.toStill
 alive := fun p => (h'.alive p).trans (h.alive p)
 state := h'.state.trans h.state

theorem Local.kept (hpost : s.Local next r) (hne : cp ≠ r) : s.Kept next cp s.parent where
 toStill := hpost.still
 alive := hpost.zombie_iff
 state := (hpost.others cp hne).right.right.left

def handed (s : ProcTree) (r : Nat) (given : List Nat) : Nat -> Option Nat :=
 fun x => if x ∈ given then some r else s.parent x

theorem handed_nil (s : ProcTree) (r : Nat) : s.handed r [] = s.parent :=
 funext fun _ => if_neg not_mem_nil

theorem handed_cons (h : t.parent = update s.parent c (some r)) (rest : List Nat) :
  t.handed r rest = s.handed r (c :: rest) := by
 funext x
 unfold handed
 rw [h]
 by_cases hx : x = c
 · rw [hx, update_self, ite_self, if_pos mem_cons_self]
 rw [update_of_ne hx]
 simp only [mem_cons, hx, false_or]

def moved (s : ProcTree) (cp r c : Nat) : ProcTree :=
 { s with children := update s.children cp ((s.children cp).erase c) }.attach r c

section Adopt
variable (h : s.Sound (· = cp)) (hr : r ∈ s.procs) (halive : s.state r ≠ .zombie)
 (hne : r ≠ cp) (hc : c ∈ s.children cp)

include hne in
theorem moved_children_self : (s.moved cp r c).children r = c :: s.children r := by
 change update (update s.children cp _) r (c :: update s.children cp _ r) r = _
 rw [update_self, update_of_ne hne]

include hne in
theorem moved_children_cp : (s.moved cp r c).children cp = (s.children cp).erase c := by
 change update (update s.children cp _) r _ cp = _
 rw [update_of_ne hne.symm, update_self]

theorem moved_children_of_ne (hq : q ≠ r) (hq' : q ≠ cp) :
  (s.moved cp r c).children q = s.children q := by
 change update (update s.children cp _) r _ q = _
 rw [update_of_ne hq, update_of_ne hq']

include h hr halive hne hc

theorem moved_family : (s.moved cp r c).Family := by
 rcases (h.family.member c cp).mp hc with ⟨hmem, hroot, hparent⟩
 have hout : forall q, q ≠ cp -> c ∉ s.children q := by
  intro q hq
  apply h.family.not_child_of_parent
  rw [hparent]
  exact fun heq => hq (Option.some.inj heq).symm
 change Family { s with
  parent := update s.parent c (some r)
  children := (s.moved cp r c).children }
 apply h.family.move hmem hroot hr halive
 · intro p q
   by_cases hq : q = r
   · rw [hq, moved_children_self hne, mem_cons]
     constructor
     · rintro (rfl | hin)
       · exact .inr ⟨rfl, rfl⟩
       · exact .inl ⟨fun heq => hout r hne (heq ▸ hin), hin⟩
     rintro (⟨_, hin⟩ | ⟨heq, _⟩)
     · exact .inr hin
     · exact .inl heq
   have hdrop : p ≠ c ∧ p ∈ s.children q ∨ p = c ∧ q = r ↔ p ≠ c ∧ p ∈ s.children q :=
    or_iff_left fun heq => hq heq.right
   rw [hdrop]
   by_cases hq' : q = cp
   · rw [hq', moved_children_cp hne, (h.family.nodup cp).mem_erase_iff]
   rw [moved_children_of_ne hq hq']
   refine (and_iff_right_of_imp fun hin => ?_).symm
   rintro rfl
   exact hout q hq' hin
 intro q
 by_cases hq : q = r
 · rw [hq, moved_children_self hne, nodup_cons]
   exact ⟨hout r hne, h.family.nodup r⟩
 by_cases hq' : q = cp
 · rw [hq', moved_children_cp hne]
   exact (h.family.nodup cp).erase c
 rw [moved_children_of_ne hq hq']
 exact h.family.nodup q

theorem adopt_spec : exists next, s.adopt cp r c = some next ∧ next.Sound (· = cp) ∧
   s.Kept next cp (update s.parent c (some r)) ∧ next.children cp = (s.children cp).erase c := by
 have hfamily := moved_family h hr halive hne hc
 have hpids : (s.moved cp r c).Pids := h.pids.restate _ _ _ _ _ _ _ _ (fun _ => id)
 have hwell : forall p, p ∈ s.procs -> s.state p ≠ .zombie -> p ≠ cp ->
  (s.moved cp r c).Well p (s.zombies p) := fun p hp hlive hpcp =>
  (h.tokens p hp hlive hpcp).congr rfl rfl rfl rfl rfl
 have hothers : forall p, p ≠ r -> p ≠ cp -> (s.moved cp r c).zombies p = s.zombies p :=
  fun p hpr hpcp => zombies_congr (moved_children_of_ne hpr hpcp) (fun _ _ => Iff.rfl)
 have hkept : s.Kept (s.moved cp r c) cp (update s.parent c (some r)) :=
  ⟨⟨rfl, rfl, rfl, rfl, rfl, rfl, rfl, fun _ => Iff.rfl, rfl⟩, fun _ => Iff.rfl, rfl⟩
 have hadopt : s.adopt cp r c = if s.state c = .zombie then
  (s.moved cp r c).postChildexit r else some (s.moved cp r c) := by
  unfold adopt
  rw [if_pos ((h.family.member c cp).mp hc).right.right]
  rfl
 rw [hadopt]
 by_cases hzombie : s.state c = .zombie
 · -- The child has exited, and its token goes to the new parent.
   rw [if_pos hzombie]
   have hcount : (s.moved cp r c).zombies r = s.zombies r + 1 := by
    unfold zombies
    rw [moved_children_self hne, countP_cons_of_pos]
    · rfl
    · exact decide_eq_true hzombie
   have hbound : s.zombies r ≤ 32768 := Nat.le_trans (zombies_le h.family r) (procs_card_le h.pids)
   rcases postChildexit_spec (hwell r hr halive hne) hbound with ⟨next, hpost, hposted, hnew⟩
   refine ⟨next, hpost, ⟨hposted.family hfamily, ?_, hposted.pids hpids⟩,
    hkept.trans (hposted.kept hne.symm), ?_⟩
   · intro p hp hlive hpcp
     rw [hposted.zombies_eq]
     by_cases hpr : p = r
     · rw [hpr, hcount]
       exact hnew
     rw [hothers p hpr hpcp]
     apply hposted.well hpr
     apply hwell p
     · exact (hposted.kept hne.symm).procs ▸ hp
     · exact fun hfalse => hlive ((hposted.zombie_iff p).mpr hfalse)
     · exact hpcp
   · rcases hposted.rest with ⟨sem, up, state, killed, place, heq⟩
     rw [heq]
     exact moved_children_cp hne
 rw [if_neg hzombie]
 refine ⟨s.moved cp r c, rfl, ⟨hfamily, ?_, hpids⟩, hkept, moved_children_cp hne⟩
 intro p hp hlive hpcp
 have hcount : (s.moved cp r c).zombies p = s.zombies p := by
  by_cases hpr : p = r
  · unfold zombies
    rw [hpr, moved_children_self hne, countP_cons_of_neg]
    · rfl
    rw [decide_eq_true_iff]
    exact hzombie
  · exact hothers p hpr hpcp
 rw [hcount]
 exact hwell p hp hlive hpcp

end Adopt

theorem adoptAll_spec (rest : List Nat) (h : s.Sound (· = cp)) (hr : r ∈ s.procs)
  (halive : s.state r ≠ .zombie) (hne : r ≠ cp) (hrest : s.children cp = rest) :
  exists next, adoptAll cp r rest s = some next ∧ next.Sound (· = cp) ∧
   s.Kept next cp (s.handed r rest) ∧ next.children cp = [] := by
 induction rest generalizing s with
 | nil =>
  rw [handed_nil]
  exact ⟨s, rfl, h, ⟨Still.refl s, fun _ => Iff.rfl, rfl⟩, hrest⟩
 | cons c rest ih =>
  have hc : c ∈ s.children cp := by
   rw [hrest]
   exact mem_cons_self
  rcases adopt_spec h hr halive hne hc with ⟨mid, hadopt, hsound, hkept, hchildren⟩
  rw [hrest, erase_cons_head] at hchildren
  rcases ih hsound (hkept.procs ▸ hr) (fun hfalse => halive ((hkept.alive r).mp hfalse))
   hchildren with ⟨next, hall, hsound', hkept', hempty⟩
  rw [handed_cons hkept.parent] at hkept'
  refine ⟨next, ?_, hsound', hkept.trans hkept', hempty⟩
  unfold adoptAll
  rw [hadopt]
  exact hall

theorem zombies_setState (h : s.Family) (hlive : s.state c ≠ .zombie) (q : Nat) :
  (s.setState c .zombie).zombies q = s.zombies q + if c ∈ s.children q then 1 else 0 := by
 have hcongr : forall l : List Nat, c ∉ l ->
  l.countP (fun p => decide ((s.setState c .zombie).state p = .zombie)) =
   l.countP (fun p => decide (s.state p = .zombie)) := by
  intro l hl
  apply countP_congr
  intro p hp
  have hne : p ≠ c := fun heq => hl (heq ▸ hp)
  have hsame : (s.setState c .zombie).state p = s.state p := update_of_ne hne _ _
  rw [hsame]
 have hself : (s.setState c .zombie).state c = .zombie := update_self ..
 unfold zombies
 change countP _ (s.children q) = _
 split
 · rename_i hin
   have hperm := perm_cons_erase hin
   rw [hperm.countP_eq, hperm.countP_eq, countP_cons_of_pos, countP_cons_of_neg,
    hcongr _ (h.nodup q).not_mem_erase]
   · rw [decide_eq_true_iff]
     exact hlive
   · exact decide_eq_true hself
 rename_i hout
 rw [hcongr _ hout]
 rfl

theorem Family.bury (h : s.Family) (hstate : s.state cp = .runnable)
  (hempty : s.children cp = []) (hroots : forall c, c ∈ s.conts -> s.rootproc c ≠ cp) :
  (s.setState cp .zombie).Family := by
 have hroot : s.rootProc ≠ cp := by
  rw [← h.first.right]
  exact hroots _ h.first.left
 have hparents : forall p, p ∈ s.procs -> s.parent p ≠ some cp := by
  intro p hp hparent
  by_cases hp' : p = s.rootProc
  · rw [hp', h.root.right] at hparent
    exact hroot (Option.some.inj hparent)
  have hin := (h.member p cp).mpr ⟨hp, hp', hparent⟩
  rw [hempty] at hin
  cases hin
 exact { h with
  parents := by
   intro p q hp hq
   have hne : q ≠ cp := fun heq => hparents p hp (heq ▸ hq)
   refine ⟨(h.parents p q hp hq).left, ?_⟩
   change update s.state cp _ q ≠ _
   rw [update_of_ne hne]
   exact (h.parents p q hp hq).right
  started := by
   intro p hp _
   by_cases hpcp : p = cp
   · have hused : s.state p ≠ .unused := by
      rw [hpcp, hstate]
      exact nofun
     exact h.started p hp hused
   rename_i hused
   change update s.state cp _ p ≠ _ at hused
   rw [update_of_ne hpcp] at hused
   exact h.started p hp hused
  roots := by
   intro c hc
   rcases h.roots c hc with ⟨hmem, hcont, halive⟩
   refine ⟨hmem, hcont, ?_⟩
   change update s.state cp _ (s.rootproc c) ≠ _
   rw [update_of_ne (hroots c hc)]
   exact halive }

theorem finishExit_spec (h : s.Sound (· = cp)) (hcp : cp ∈ s.procs)
  (hstate : s.state cp = .runnable) (hempty : s.children cp = [])
  (hroots : forall c, c ∈ s.conts -> s.rootproc c ≠ cp) :
  exists next, s.finishExit cp = some next ∧ next.Sound (fun _ => False) ∧
    s.Still next s.parent ∧ next.state cp = .zombie := by
 have hused : s.state cp ≠ .unused := by
  rw [hstate]
  exact nofun
 have hroot : cp ≠ s.rootProc := by
  rw [← h.family.first.right]
  exact (hroots _ h.family.first.left).symm
 cases hparent : s.parent cp with
 | none => exact absurd hparent (h.family.started cp hcp hused)
 | some q =>
  rcases h.family.parents cp q hcp hparent with ⟨hq, halive⟩
  have hin : cp ∈ s.children q := (h.family.member cp q).mpr ⟨hcp, hroot, hparent⟩
  have hne : q ≠ cp := by
   rintro rfl
   rw [hempty] at hin
   cases hin
  have hbound : s.zombies q ≤ 32768 := Nat.le_trans (zombies_le h.family q) (procs_card_le h.pids)
  rcases postChildexit_spec (h.tokens q hq halive hne) hbound with ⟨next, hpost, hposted, hnew⟩
  have hkept := hposted.kept hne.symm
  have hchildren : next.children = s.children := by
   rcases hposted.rest with ⟨sem, up, state, killed, place, heq⟩
   rw [heq]
  have hstate' : next.state cp = .runnable := hkept.state.trans hstate
  have hlive : next.state cp ≠ .zombie := by
   rw [hstate']
   exact nofun
  have hfamily := hposted.family h.family
  refine ⟨next.setState cp .zombie, ?_, ⟨?_, ?_, ?_⟩, { hkept.toStill with unused := ?_ },
   update_self ..⟩
  · unfold finishExit
    rw [if_pos hempty, hparent, Option.bind_some, hpost]
    rfl
  · apply hfamily.bury hstate'
    · rw [hchildren]
      exact hempty
    rw [hkept.conts, hkept.rootproc]
    exact hroots
  · intro p hp hlive' _
    have hpcp : p ≠ cp := by
     rintro rfl
     exact hlive' (update_self ..)
    have hsame : (next.setState cp .zombie).state p = next.state p := update_of_ne hpcp _ _
    rw [hsame] at hlive'
    rw [zombies_setState hfamily hlive, hchildren, hposted.zombies_eq]
    by_cases hpq : p = q
    · rw [hpq, if_pos hin]
      rw [hpq] at hsame
      exact hnew.congr hsame rfl rfl rfl rfl
    have hnot : cp ∉ s.children p := by
     apply h.family.not_child_of_parent
     rw [hparent]
     exact fun heq => hpq (Option.some.inj heq).symm
    rw [if_neg hnot]
    have hwell := h.tokens p (hkept.procs ▸ hp)
     (fun hfalse => hlive' ((hposted.zombie_iff p).mpr hfalse)) hpcp
    exact (hposted.well hpq hwell).congr hsame rfl rfl rfl rfl
  · apply (hposted.pids h.pids).restate
    intro p hp
    have hpcp : p ≠ cp := by
     rintro rfl
     rw [hstate'] at hp
     cases hp
    rw [update_of_ne hpcp]
    exact hp
  · intro p
    change update next.state cp .zombie p = .unused ↔ _
    by_cases hp : p = cp
    · rw [hp, update_self]
      exact ⟨fun hfalse => (by cases hfalse), fun hfalse => absurd hfalse hused⟩
    rw [update_of_ne hp]
    exact hkept.unused p

theorem exit_spec (h : s.Sound (fun _ => False)) (hcp : cp ∈ s.procs)
  (hstate : s.state cp = .runnable) (hroot : cp ≠ s.rootproc (s.container cp)) (code : Int) :
  exists next, s.exit cp code = some next ∧ next.Sound (fun _ => False) ∧
    s.Still next (s.handed (s.rootproc (s.container cp)) (s.children cp)) ∧
    next.state cp = .zombie := by
 have hroots : forall c, c ∈ s.conts -> s.rootproc c ≠ cp := by
  intro c hc heq
  have hcont := (h.family.roots c hc).right.left
  rw [heq] at hcont
  rw [hcont, heq] at hroot
  exact hroot rfl
 let coded : ProcTree := { s with exitcode := update s.exitcode cp code }
 have hcoded : coded.Sound (· = cp) := by
  constructor
  · exact h.family.restate _ _ _ _ _ _ (fun _ => Iff.rfl) (fun _ => Iff.rfl)
  · intro p hp hlive _
    exact (h.tokens p hp hlive id).congr rfl rfl rfl rfl rfl
  · exact h.pids.restate _ _ _ _ _ _ _ _ (fun _ => id)
 rcases h.family.roots _ (h.family.containers cp hcp) with ⟨hr, _, halive⟩
 rcases adoptAll_spec (s.children cp) hcoded hr halive hroot.symm rfl with
  ⟨mid, hall, hsound, hkept, hempty⟩
 have hcp' : cp ∈ mid.procs := by
  rw [hkept.procs]
  exact hcp
 have hroots' : forall c, c ∈ mid.conts -> mid.rootproc c ≠ cp := by
  rw [hkept.conts, hkept.rootproc]
  exact hroots
 rcases finishExit_spec hsound hcp' (hkept.state.trans hstate) hempty hroots' with
  ⟨next, hfinish, hnext, hstill, hzombie⟩
 refine ⟨next, ?_, hnext, ?_, hzombie⟩
 rotate_left
 · rw [hkept.parent] at hstill
   exact { hkept.toStill.trans hstill with }
 unfold exit
 rw [if_neg hroot]
 change (adoptAll cp (s.rootproc (s.container cp)) (s.children cp) coded).bind _ = _
 rw [hall]
 exact hfinish

end ProcTree
end OSLab.Kernel
