import OSLab.Common.RawSemaphore
import OSLab.Foundation.TransitionSystem

/-!
# Runs of a semaphore

Threads wait, post and take tokens in any order, under the lock of the semaphore.
A thread that sleeps may come back at any time: because a post has woken it, or
because something else has, as an alert does.  The code tells the two apart by
`wait->up`.
-/

namespace OSLab.Common
open Foundation Function TransitionSystem List RawSemaphore

/--
The semaphore and the field `up` of the threads that are in `_wait_sem`.  The
rest is a record of what has happened: the value at the start, the number of posts
and of tokens taken, for every thread the tokens that its waits were given and the
waits that returned true, and since when it sleeps.
-/
structure SemRun where
 sem : RawSemaphore Tid
 up : Tid -> Option Bool
 initial : Int
 posts : Nat
 taken : Nat
 granted : Tid -> Nat
 wins : Tid -> Nat
 clock : Nat
 since : Tid -> Nat

inductive SemLabel where
 | wait (t : Tid) (alertable : Bool)
 | resume (t : Tid)
 | post
 | postAll
 | get
 | getAll

namespace SemRun

def start (val : Int) : SemRun where
 sem := initSem val
 up := fun _ => none
 initial := val
 posts := 0
 taken := 0
 granted := fun _ => 0
 wins := fun _ => 0
 clock := 0
 since := fun _ => 0

variable (s : SemRun)

def wake (woken : List Tid) (sem : RawSemaphore Tid) : SemRun :=
 { s with
   sem := sem
   up := fun t => if t ∈ woken then some true else s.up t
   granted := fun t => if t ∈ woken then s.granted t + 1 else s.granted t }

/-- `_wait_sem` up to its return or its call of `sched`. -/
def wait (t : Tid) : Option SemRun :=
 match s.up t with
 | some _ => none
 | none =>
  if (s.sem.waitSem t).1 then
   some { s with
    sem := (s.sem.waitSem t).2
    taken := s.taken + 1
    granted := update s.granted t (s.granted t + 1)
    wins := update s.wins t (s.wins t + 1) }
  else
   some { s with
    sem := (s.sem.waitSem t).2
    up := update s.up t (some false)
    clock := s.clock + 1
    since := update s.since t s.clock }

def resume (t : Tid) : Option SemRun :=
 match s.up t with
 | none => none
 | some true =>
  some { s with
   up := update s.up t none
   wins := update s.wins t (s.wins t + 1) }
 | some false =>
  match s.sem.cancelWait t with
  | none => none
  | some sem => some { s with sem := sem, up := update s.up t none }

def post : Option SemRun :=
 match s.sem.postSem with
 | none => none
 | some (woken, sem) =>
  some { s.wake woken.toList sem with
   posts := s.posts + 1
   taken := s.taken + woken.toList.length }

def postAll : Option SemRun :=
 match s.sem.postAllSem with
 | none => none
 | some (_, woken, sem) =>
  some { s.wake woken sem with
   posts := s.posts + woken.length + 1
   taken := s.taken + woken.length + 1 }

def get : SemRun :=
 { s with
   sem := s.sem.getSem.2
   taken := if s.sem.getSem.1 then s.taken + 1 else s.taken }

def getAll : SemRun :=
 { s with
   sem := s.sem.getAllSem.2
   taken := s.taken + s.sem.getAllSem.1.toNat }

def step : SemLabel -> Option SemRun
 | .wait t _ => s.wait t
 | .resume t => s.resume t
 | .post => s.post
 | .postAll => s.postAll
 | .get => some s.get
 | .getAll => some s.getAll

def Counts : SemLabel -> Prop
 | .wait _ _ => intMin + 1 < s.sem.val
 | .post | .postAll => s.sem.val < intMax
 | _ => True

instance (s : SemRun) : (l : SemLabel) -> Decidable (s.Counts l)
 | .wait _ _ | .post | .postAll => Int.decLt _ _
 | .resume _ | .get | .getAll => isTrue trivial

end SemRun

def semSystem : TransitionSystem SemRun SemLabel where
 initial := fun s => exists val, 0 ≤ val ∧ val ≤ intMax ∧ s = SemRun.start val
 step := SemRun.step

/-!
# The invariant
-/

namespace SemRun

structure Sound (s : SemRun) : Prop where
 balanced : s.sem.Balanced
 low : intMin < s.sem.val
 high : s.sem.val ≤ intMax
 account : s.sem.val = s.initial + s.posts - s.taken - s.sem.sleeplist.length
 waiting : forall t, t ∈ s.sem.sleeplist ↔ s.up t = some false
 tokens : forall t, s.granted t = s.wins t + (if s.up t = some true then 1 else 0)
 order : s.sem.sleeplist.Pairwise (fun newer older => s.since older < s.since newer)
 stamped : forall t, t ∈ s.sem.sleeplist -> s.since t < s.clock

theorem sound_start {val : Int} (hlow : 0 ≤ val) (hhigh : val ≤ intMax) : (start val).Sound where
 balanced := by
  change 0 = (-val).toNat
  omega
 low := by
  change intMin < val
  unfold intMin
  omega
 high := hhigh
 account := by
  change val = val + ((0 : Nat) : Int) - ((0 : Nat) : Int) - ((0 : Nat) : Int)
  omega
 waiting := by
  intro t
  constructor
  · nofun
  · nofun
 tokens := by
  intro t
  rfl
 order := Pairwise.nil
 stamped := by nofun

variable {s next : SemRun} {t : Tid}

theorem Sound.nodup (h : s.Sound) : s.sem.sleeplist.Nodup := by
 apply h.order.imp
 intro newer older hlt heq
 rw [heq] at hlt
 exact Nat.lt_irrefl _ hlt

def Sound.semaphore (h : s.Sound) : Semaphore Tid := s.sem.toSemaphore h.balanced

section
variable (h : s.Sound)
include h

theorem Sound.length : s.sem.sleeplist.length = (-s.sem.val).toNat := h.balanced

theorem Sound.wake {woken : List Tid} {sem : RawSemaphore Tid}
  {posts taken : Nat} (hbalanced : sem.Balanced) (hlow : intMin < sem.val)
  (hhigh : sem.val ≤ intMax)
  (haccount : sem.val = s.initial + posts - taken - sem.sleeplist.length)
  (hsub : Sublist sem.sleeplist s.sem.sleeplist)
  (hmem : forall t, t ∈ sem.sleeplist ↔ t ∈ s.sem.sleeplist ∧ t ∉ woken)
  (hwoken : forall t, t ∈ woken -> t ∈ s.sem.sleeplist) :
  Sound { s.wake woken sem with posts := posts, taken := taken } where
 balanced := hbalanced
 low := hlow
 high := hhigh
 account := haccount
 waiting := by
  intro t
  change t ∈ sem.sleeplist ↔ (if t ∈ woken then some true else s.up t) = some false
  rw [hmem]
  by_cases ht : t ∈ woken
  · rw [if_pos ht]
    simp [ht]
  rw [if_neg ht, h.waiting]
  simp [ht]
 tokens := by
  intro t
  change (if t ∈ woken then s.granted t + 1 else s.granted t) = s.wins t +
   (if (if t ∈ woken then some true else s.up t) = some true then 1 else 0)
  have htokens := h.tokens t
  by_cases ht : t ∈ woken
  · have hup := (h.waiting t).mp (hwoken t ht)
    rw [hup] at htokens
    simp only [ht, if_true]
    simpa using htokens
  simp only [ht, if_false]
  exact htokens
 order := h.order.sublist hsub
 stamped := by
  intro t ht
  exact h.stamped t (hsub.subset ht)

/-!
# Steps
-/

section
variable (hcounts : s.sem.val < intMax)
include hcounts

theorem Sound.post (hstep : s.post = some next) : next.Sound := by
 have hraw : s.sem.postSem = some (h.semaphore.postSem.1, h.semaphore.postSem.2.toRaw) :=
  h.semaphore.raw_postSem (Int.le_of_lt h.low) hcounts
 have hlength := h.length
 have haccount := h.account
 have hlow := h.low
 have hval : h.semaphore.postSem.2.val = s.sem.val + 1 := h.semaphore.postSem_val
 have hlow' : intMin < h.semaphore.postSem.2.val := by omega
 have hhigh' : h.semaphore.postSem.2.val ≤ intMax := by omega
 unfold SemRun.post at hstep
 rw [hraw] at hstep
 cases hstep
 by_cases hneg : s.sem.val < 0
 · rcases h.semaphore.postSem_of_neg hneg with ⟨front, last, hlist, hlast, hfront, _⟩
   change s.sem.sleeplist = front ++ [last] at hlist
   have hnodup := h.nodup
   rw [hlist, nodup_append] at hnodup
   rw [hlist, length_append, length_singleton] at hlength haccount
   rw [hlast]
   apply h.wake h.semaphore.postSem.2.toRaw_balanced hlow' hhigh'
   · change h.semaphore.postSem.2.val = _ + _ - _ - (h.semaphore.postSem.2.sleeplist.length : Int)
     rw [hfront, hval, Option.toList_some, length_singleton]
     push_cast at *
     omega
   · change Sublist h.semaphore.postSem.2.sleeplist s.sem.sleeplist
     rw [hfront, hlist]
     exact sublist_append_left _ _
   · intro t
     change t ∈ h.semaphore.postSem.2.sleeplist ↔ _
     rw [hfront, hlist, Option.toList_some, mem_append, mem_singleton]
     constructor
     · intro ht
       exact ⟨.inl ht, hnodup.right.right t ht last (mem_singleton_self last)⟩
     rintro ⟨ht | ht, hne⟩
     · exact ht
     · exact absurd ht hne
   intro t ht
   rw [Option.toList_some, mem_singleton] at ht
   rw [hlist, ht]
   exact mem_append_right _ (mem_singleton_self last)
 rcases h.semaphore.postSem_of_nonneg (Int.not_lt.mp hneg) with ⟨hnone, hlist, _⟩
 change h.semaphore.postSem.2.sleeplist = s.sem.sleeplist at hlist
 rw [hnone]
 apply h.wake h.semaphore.postSem.2.toRaw_balanced hlow' hhigh'
 · change h.semaphore.postSem.2.val = _ + _ - _ - (h.semaphore.postSem.2.sleeplist.length : Int)
   rw [hlist, hval, Option.toList_none, length_nil]
   push_cast
   omega
 · exact hlist ▸ Sublist.refl _
 · intro t
   change t ∈ h.semaphore.postSem.2.sleeplist ↔ _
   rw [hlist]
   simp
 · nofun

theorem Sound.postAllSem :
  s.sem.postAllSem = some ((s.sem.sleeplist.length : Int), s.sem.sleeplist.reverse,
    { val := max s.sem.val 0, sleeplist := [] }) :=
 h.semaphore.raw_postAllSem h.low hcounts

theorem Sound.postAll (hstep : s.postAll = some next) : next.Sound := by
 have hlength := h.length
 have haccount := h.account
 have hlow := h.low
 unfold SemRun.postAll at hstep
 rw [h.postAllSem hcounts] at hstep
 cases hstep
 apply h.wake
 · change 0 = (-(max s.sem.val 0)).toNat
   omega
 · change intMin < max s.sem.val 0
   omega
 · change max s.sem.val 0 ≤ intMax
   unfold intMax at *
   omega
 · change max s.sem.val 0 = _ + _ - _ - ((0 : Nat) : Int)
   rw [length_reverse]
   push_cast
   omega
 · exact nil_sublist _
 · intro t
   rw [mem_reverse]
   simp
 intro t ht
 rw [mem_reverse] at ht
 exact ht
end

theorem Sound.get : s.get.Sound := by
 have haccount := h.account
 have hhigh := h.high
 have hbalanced := h.length
 unfold SemRun.get getSem
 by_cases hpos : 0 < s.sem.val
 · have hfits : wrapInt (s.sem.val - 1) = s.sem.val - 1 := by
    apply wrapInt_of_fits
    · unfold intMin
      omega
    · omega
   rw [if_pos hpos, hfits]
   exact { h with
    balanced := by
     change s.sem.sleeplist.length = (-(s.sem.val - 1)).toNat
     omega
    low := by
     change intMin < s.sem.val - 1
     unfold intMin
     omega
    high := by
     change s.sem.val - 1 ≤ intMax
     omega
    account := by
     change s.sem.val - 1 = s.initial + s.posts - ((s.taken + 1 : Nat) : Int) -
      s.sem.sleeplist.length
     push_cast
     omega }
 rw [if_neg hpos]
 exact h

theorem Sound.getAll : s.getAll.Sound := by
 have haccount := h.account
 have hbalanced := h.length
 unfold SemRun.getAll getAllSem
 by_cases hpos : 0 < s.sem.val
 · rw [if_pos hpos]
   exact { h with
    balanced := by
     change s.sem.sleeplist.length = (-(0 : Int)).toNat
     omega
    low := by
     change intMin < 0
     decide
    high := by
     change 0 ≤ intMax
     decide
    account := by
     push_cast
     omega }
 rw [if_neg hpos]
 exact h

theorem Sound.waitSem (hcounts : intMin + 1 < s.sem.val) (t : Tid) : s.sem.waitSem t =
    if 0 ≤ s.sem.val - 1 then
      (true, { s.sem with val := s.sem.val - 1 })
    else
      (false, { val := s.sem.val - 1, sleeplist := t :: s.sem.sleeplist }) := by
 have hhigh := h.high
 have hfits : wrapInt (s.sem.val - 1) = s.sem.val - 1 := by
  apply wrapInt_of_fits
  · omega
  · omega
 unfold RawSemaphore.waitSem
 rw [hfits]

theorem Sound.take (hpos : 0 ≤ s.sem.val - 1) (hup : s.up t = none) : Sound { s with
 sem := { s.sem with val := s.sem.val - 1 }
 taken := s.taken + 1
 granted := update s.granted t (s.granted t + 1)
 wins := update s.wins t (s.wins t + 1) } := by
 have haccount := h.account
 have hhigh := h.high
 have hlength := h.length
 exact { h with
  balanced := by
   change s.sem.sleeplist.length = (-(s.sem.val - 1)).toNat
   omega
  low := by
   change intMin < s.sem.val - 1
   unfold intMin
   omega
  high := by
   change s.sem.val - 1 ≤ intMax
   omega
  account := by
   push_cast
   omega
  tokens := by
   intro u
   change update s.granted t (s.granted t + 1) u =
    update s.wins t (s.wins t + 1) u + (if s.up u = some true then 1 else 0)
   have htokens := h.tokens u
   by_cases hu : u = t
   · rw [hu, hup] at htokens
     rw [hu, update_self, update_self, hup, htokens]
     rfl
   rw [update_of_ne hu, update_of_ne hu]
   exact htokens }

theorem Sound.sleep (hcounts : intMin + 1 < s.sem.val)
    (hpos : ¬ 0 ≤ s.sem.val - 1) (hup : s.up t = none) :
    Sound { s with
 sem := { val := s.sem.val - 1, sleeplist := t :: s.sem.sleeplist }
 up := update s.up t (some false)
 clock := s.clock + 1
 since := update s.since t s.clock } := by
 have haccount := h.account
 have hhigh := h.high
 have hlength := h.length
 have hnot : t ∉ s.sem.sleeplist := by
  intro ht
  rw [h.waiting, hup] at ht
  cases ht
 have hkept : forall u, u ∈ s.sem.sleeplist -> update s.since t s.clock u = s.since u := by
  intro u hu
  apply update_of_ne
  rintro rfl
  exact hnot hu
 exact {
  balanced := by
   change (t :: s.sem.sleeplist).length = (-(s.sem.val - 1)).toNat
   rw [length_cons]
   omega
  low := by
   change intMin < s.sem.val - 1
   omega
  high := by
   change s.sem.val - 1 ≤ intMax
   omega
  account := by
   rw [length_cons]
   push_cast
   omega
  waiting := by
   intro u
   change u ∈ t :: s.sem.sleeplist ↔ update s.up t (some false) u = some false
   rw [mem_cons]
   by_cases hu : u = t
   · rw [hu, update_self]
     simp
   rw [update_of_ne hu, ← h.waiting]
   simp [hu]
  tokens := by
   intro u
   change s.granted u = s.wins u + (if update s.up t (some false) u = some true then 1 else 0)
   have htokens := h.tokens u
   by_cases hu : u = t
   · rw [hu, hup] at htokens
     rw [hu, update_self, htokens]
     rfl
   rw [update_of_ne hu]
   exact htokens
  order := by
   change (t :: s.sem.sleeplist).Pairwise (fun newer older =>
    update s.since t s.clock older < update s.since t s.clock newer)
   rw [pairwise_cons]
   constructor
   · intro u hu
     rw [hkept u hu, update_self]
     exact h.stamped u hu
   apply h.order.imp_of_mem
   intro newer older hnewer holder hlt
   rw [hkept newer hnewer, hkept older holder]
   exact hlt
  stamped := by
   intro u hu
   change update s.since t s.clock u < s.clock + 1
   rcases mem_cons.mp hu with heq | hmem
   · rw [heq, update_self]
     exact Nat.lt_succ_self _
   rw [hkept u hmem]
   exact Nat.lt_succ_of_lt (h.stamped u hmem) }

theorem Sound.wait (hcounts : intMin + 1 < s.sem.val)
  (hstep : s.wait t = some next) : next.Sound := by
 unfold SemRun.wait at hstep
 cases hup : s.up t with
 | some up =>
  rw [hup] at hstep
  cases hstep
 | none =>
  rw [hup, h.waitSem hcounts t] at hstep
  by_cases hpos : 0 ≤ s.sem.val - 1
  · rw [if_pos hpos] at hstep
    cases hstep
    exact h.take hpos hup
  rw [if_neg hpos] at hstep
  cases hstep
  exact h.sleep hcounts hpos hup

theorem Sound.val_neg (ht : t ∈ s.sem.sleeplist) : s.sem.val < 0 := by
 have hlength := h.length
 have hpos := length_pos_of_mem ht
 omega

theorem Sound.cancelWait (ht : t ∈ s.sem.sleeplist) : s.sem.cancelWait t =
    some { val := s.sem.val + 1, sleeplist := s.sem.sleeplist.erase t } := by
 have hneg := h.val_neg ht
 have hlow := h.low
 have hfits : wrapInt (s.sem.val + 1) = s.sem.val + 1 := by
  apply wrapInt_of_fits
  · omega
  unfold intMax
  omega
 unfold RawSemaphore.cancelWait
 rw [hfits, if_pos (by omega)]

theorem Sound.resume (hstep : s.resume t = some next) : next.Sound := by
 unfold SemRun.resume at hstep
 have htokens := h.tokens t
 cases hup : s.up t with
 | none =>
  rw [hup] at hstep
  cases hstep
 | some up =>
  rw [hup] at hstep htokens
  cases up with
  | true =>
   cases hstep
   exact { h with
    waiting := by
     intro u
     change u ∈ s.sem.sleeplist ↔ update s.up t none u = some false
     rw [h.waiting]
     by_cases hu : u = t
     · rw [hu, update_self, hup]
       simp
     · rw [update_of_ne hu]
    tokens := by
     intro u
     change s.granted u = update s.wins t (s.wins t + 1) u +
      (if update s.up t none u = some true then 1 else 0)
     by_cases hu : u = t
     · rw [hu, update_self, update_self]
       simpa using htokens
     rw [update_of_ne hu, update_of_ne hu]
     exact h.tokens u }
  | false =>
   have ht := (h.waiting t).mpr hup
   have hneg := h.val_neg ht
   have hlow := h.low
   have hlength := h.length
   have haccount := h.account
   have herase := length_erase_of_mem ht
   simp only [h.cancelWait ht] at hstep
   cases hstep
   exact {
    balanced := by
     change (s.sem.sleeplist.erase t).length = (-(s.sem.val + 1)).toNat
     omega
    low := by
     change intMin < s.sem.val + 1
     omega
    high := by
     change s.sem.val + 1 ≤ intMax
     unfold intMax
     omega
    account := by
     change s.sem.val + 1 = s.initial + s.posts - s.taken - ((s.sem.sleeplist.erase t).length : Int)
     omega
    waiting := by
     intro u
     change u ∈ s.sem.sleeplist.erase t ↔ update s.up t none u = some false
     rw [h.nodup.mem_erase_iff, h.waiting]
     by_cases hu : u = t
     · rw [hu, update_self]
       simp
     rw [update_of_ne hu]
     simp [hu]
    tokens := by
     intro u
     change s.granted u = s.wins u + (if update s.up t none u = some true then 1 else 0)
     by_cases hu : u = t
     · rw [hu, update_self]
       simpa using htokens
     rw [update_of_ne hu]
     exact h.tokens u
    order := h.order.sublist erase_sublist
    stamped := by
     intro u hu
     exact h.stamped u (mem_of_mem_erase hu) }

theorem sound_step {l : SemLabel} (hguard : s.Counts l)
  (hstep : s.step l = some next) : next.Sound := by
 cases l with
 | wait t alertable => exact h.wait hguard hstep
 | resume t => exact h.resume hstep
 | post => exact h.post hguard hstep
 | postAll => exact h.postAll hguard hstep
 | get =>
  cases hstep
  exact h.get
 | getAll =>
  cases hstep
  exact h.getAll

/-!
# What the semaphore promises
-/

theorem Sound.oldest {front : List Tid} {last : Tid} (hlist : s.sem.sleeplist = front ++ [last]) :
  forall u, u ∈ s.sem.sleeplist -> u ≠ last -> s.since last < s.since u := by
 intro u hu hne
 have horder := h.order
 rw [hlist] at hu horder
 rw [pairwise_append] at horder
 rcases mem_append.mp hu with hfront | hlast
 · exact horder.right.right u hfront last (mem_singleton_self last)
 · exact absurd (mem_singleton.mp hlast) hne
end

structure Contract (s : SemRun) : Prop where
 sleepers : (s.sem.sleeplist.length : Int) = max 0 (-s.sem.val)
 account : s.sem.val = s.initial + s.posts - s.taken - s.sem.sleeplist.length
 post_raises : 0 ≤ s.sem.val -> s.sem.val < intMax ->
  s.sem.postSem = some (none, { s.sem with val := s.sem.val + 1 })
 post_wakes : s.sem.val < 0 -> exists t, t ∈ s.sem.sleeplist ∧
  (forall u, u ∈ s.sem.sleeplist -> u ≠ t -> s.since t < s.since u) ∧
  s.sem.postSem = some (some t, { val := s.sem.val + 1, sleeplist := s.sem.sleeplist.erase t })
 wait_returns : forall t, s.granted t = s.wins t + (if s.up t = some true then 1 else 0)
 post_all : s.sem.val < intMax ->
  s.sem.postAllSem = some ((s.sem.sleeplist.length : Int), s.sem.sleeplist.reverse,
   { val := max s.sem.val 0, sleeplist := [] })
 cancel : forall t, s.up t = some false -> exists sem, s.sem.cancelWait t = some sem

theorem Sound.contract (h : s.Sound) : s.Contract where
 sleepers := by
  have hlength := h.length
  omega
 account := h.account
 post_raises := by
  intro hnonneg hhigh
  have hfits : wrapInt (s.sem.val + 1) = s.sem.val + 1 := by
   apply wrapInt_of_fits
   · unfold intMin
     omega
   · omega
  unfold postSem
  rw [hfits, if_neg (by omega)]
 post_wakes := by
  intro hneg
  have hraw : s.sem.postSem = some (h.semaphore.postSem.1, h.semaphore.postSem.2.toRaw) :=
   h.semaphore.raw_postSem (Int.le_of_lt h.low) (by
    change s.sem.val < intMax
    unfold intMax
    omega)
  rcases h.semaphore.postSem_of_neg hneg with ⟨front, last, hlist, hlast, hfront, hval⟩
  change s.sem.sleeplist = front ++ [last] at hlist
  change h.semaphore.postSem.2.val = s.sem.val + 1 at hval
  have hnodup := h.nodup
  rw [hlist, nodup_append] at hnodup
  have hnot : last ∉ front := by
   intro hmem
   exact hnodup.right.right last hmem last (mem_singleton_self last) rfl
  refine ⟨last, ?_, h.oldest hlist, ?_⟩
  · rw [hlist]
    exact mem_append_right _ (mem_singleton_self last)
  rw [hraw, hlast]
  unfold Semaphore.toRaw
  rw [hfront, hval, hlist, erase_append_right _ hnot, erase_cons_head, append_nil]
 wait_returns := h.tokens
 post_all := h.postAllSem
 cancel := by
  intro t hup
  exact ⟨_, h.cancelWait ((h.waiting t).mpr hup)⟩

end SemRun

theorem semaphore_contract_of_reachable {s : SemRun}
  (hreach : Reachable semSystem SemRun.Counts s) : s.Contract := by
 have hsound : s.Sound := by
  apply reachable_invariant SemRun.Sound _ _ hreach
  · rintro s ⟨val, hlow, hhigh, rfl⟩
    exact SemRun.sound_start hlow hhigh
  intro s l next _ h hguard hstep
  exact SemRun.sound_step h hguard hstep
 exact hsound.contract

open SemLabel in
/-- Two sleepers, of which the second is alerted and the first gets the post. -/
theorem semaphore_contract_two_sleepers :
  exists s, Reachable semSystem SemRun.Counts s ∧ s.Contract ∧ s.sem.val = 0 ∧
    s.granted 1 = 1 ∧ s.granted 2 = 0 ∧ s.up 1 = some true := by
 have hstart : semSystem.initial (SemRun.start 0) := ⟨0, by decide, by decide, rfl⟩
 exact exists_reachable_also hstart [wait 1 true, wait 2 false, resume 2, post] (by decide +kernel)
  (fun _ => semaphore_contract_of_reachable)

/--
A post to a semaphore whose counter is as large as an `int` can be: the counter
becomes negative and the assertion that somebody sleeps fails.
-/
theorem semaphore_post_overflows : semSystem.initial (SemRun.start intMax) ∧
    wrapInt ((SemRun.start intMax).sem.val + 1) = intMin ∧
    (SemRun.start intMax).sem.postSem = none := by
 refine ⟨⟨intMax, by decide, le_rfl, rfl⟩, ?_, ?_⟩
 · decide +kernel
 · decide +kernel

end OSLab.Common
