import OSLab.Fs.Pipe.Machine

/-!
# Closing a pipe

A call of `pipeRead` or `pipeWrite` goes to sleep only when it has seen the other end
open.  `pipeClose` clears the flag of an end and posts no semaphore, so a call that
has seen the flag before sleeps on.  As long as an end is closed only when no call of
the other side is past the test of the flag, nobody sleeps at a closed pipe.
-/

namespace OSLab.Fs
open Common Foundation Function TransitionSystem Option PipeState Pipe
namespace PipeState

def testing (writable : Bool) : PipeSide := if writable then .read else .write

/--
In a call of the side, past the test of the open flag, and still `listed` among the
sleepers if it sleeps.
-/
def rests (side : PipeSide) (listed : Bool) : PipePc -> Bool
 | .call .lockSem c | .call .release c | .call .post c | .call .wait c => decide (c.side = side)
 | .call .asleep c => decide (c.side = side) && listed
 | _ => false

def resting (s : PipeState) (side : PipeSide) (t : Tid) : Bool :=
 rests side (decide (t ∈ (side.sem s.pi).sem.sleeplist)) (s.pc t)

/-- The thread sleeps without a wakeup that is on its way, at a pipe closed on the other side. -/
def Stranded (s : PipeState) (t : Tid) : Prop :=
 exists c, s.pc t = .call .asleep c ∧
  t ∈ (c.side.sem s.pi).sem.sleeplist ∧ c.side.peerOpen s.pi = false

def stranded (s : PipeState) (t : Tid) : Bool :=
 match s.pc t with
 | .call .asleep c => decide (t ∈ (c.side.sem s.pi).sem.sleeplist) && !c.side.peerOpen s.pi
 | _ => false

variable {s : PipeState}

theorem stranded_iff {t : Tid} : s.stranded t ↔ s.Stranded t := by
 unfold stranded Stranded
 constructor
 · intro h
   split at h
   · rename_i c hpc
     rw [Bool.and_eq_true] at h
     exact ⟨c, hpc, of_decide_eq_true h.left, by simpa using h.right⟩
   · cases h
 · rintro ⟨c, hpc, hmem, hclosed⟩
   simp [hpc, hmem, hclosed]

def ClosesQuietly (s : PipeState) (l : PipeLabel) : Prop :=
 forall t writable, l = .run t -> s.pc t = .closeSet writable ->
  forall u, s.resting (testing writable) u = false

def OpenForResting (s : PipeState) : Prop :=
 forall side t, s.resting side t = true -> side.peerOpen s.pi = true

theorem resting_asleep {t : Tid} {c : PipeCall} (hpc : s.pc t = .call .asleep c) :
  s.resting c.side t = decide (t ∈ (c.side.sem s.pi).sem.sleeplist) := by
 unfold resting
 rw [hpc]
 simp [rests]

theorem not_stranded_of_open (h : s.OpenForResting) (t : Tid) : ¬ s.Stranded t := by
 rintro ⟨c, hpc, hmem, hclosed⟩
 have hresting : s.resting c.side t := by
  rw [resting_asleep hpc]
  exact decide_eq_true hmem
 rw [h c.side t hresting] at hclosed
 cases hclosed

end PipeState

/-!
# Steps of other threads

A step of one thread does not put another one to sleep.
-/

namespace Pipe

structure Calm (t : Tid) (pi next : Pipe) : Prop where
 peerOpen : forall side : PipeSide, side.peerOpen next = side.peerOpen pi
 sleepers : forall (side : PipeSide) (u : Tid), u ≠ t ->
  u ∈ (side.sem next).sem.sleeplist -> u ∈ (side.sem pi).sem.sleeplist

theorem calm_refl (t : Tid) (pi : Pipe) : pi.Calm t pi := ⟨fun _ => rfl, fun _ _ _ hmem => hmem⟩

theorem calm_locked (t : Tid) (pi : Pipe) (locked : Bool) :
  pi.Calm t { pi with locked := locked } := by
 constructor
 · intro side
   cases side <;> rfl
 · intro side u _ hmem
   cases side <;> exact hmem

theorem sem_setSem (side : PipeSide) (sem : PipeSem) (pi : Pipe) :
  side.sem (side.setSem sem pi) = sem := by
 cases side <;> rfl

theorem sem_setSem_of_ne {side other : PipeSide} (h : other ≠ side) (sem : PipeSem)
  (pi : Pipe) : other.sem (side.setSem sem pi) = other.sem pi := by
 cases side <;> cases other
 · exact absurd rfl h
 · rfl
 · rfl
 · exact absurd rfl h

theorem calm_setSem {t : Tid} {side : PipeSide} {sem : PipeSem} {pi : Pipe}
  (h : forall u, u ≠ t -> u ∈ sem.sem.sleeplist -> u ∈ (side.sem pi).sem.sleeplist) :
  pi.Calm t (side.setSem sem pi) := by
 constructor
 · intro other
   cases side <;> cases other <;> rfl
 intro other u hu hmem
 by_cases heq : other = side
 · rw [heq, sem_setSem] at hmem
   rw [heq]
   exact h u hu hmem
 rw [sem_setSem_of_ne heq] at hmem
 exact hmem

end Pipe

namespace PipeState
variable {s next : PipeState} {t u : Tid} {c : PipeCall} {side : PipeSide}

theorem postAll_calm (h : s.postAll side = some next) : s.pi.Calm t next.pi := by
 simp only [postAll] at h
 split at h
 · cases h
 rw [← some.inj h]
 apply calm_setSem
 intro u _ hmem
 rw [Semaphore.postAllSem_sleeplist] at hmem
 cases hmem

theorem lockSem_calm (h : s.lockSem side = some next) : s.pi.Calm t next.pi := by
 simp only [lockSem] at h
 split at h
 · cases h
 rw [← some.inj h]
 exact calm_setSem (fun _ _ hmem => hmem)

theorem waitOwn_calm : s.pi.Calm t (s.waitOwn t c).pi := by
 apply calm_setSem
 intro u hu hmem
 rcases Semaphore.waitSem_sleeplist_mem hmem with hbefore | ⟨hself, _⟩
 · exact hbefore
 · exact absurd hself hu

variable {place : PipePlace}

theorem runCall_calm (h : s.runCall t c place = some next) : s.pi.Calm t next.pi := by
 cases place with
 | acquire | reacquire =>
  rcases map_eq_some_iff.mp h with ⟨mid, hmid, heq⟩
  rw [← heq, acquireLock_some hmid]
  exact calm_locked t s.pi true
 | test | blocked =>
  simp only [runCall] at h
  repeat' split at h
  all_goals
   rw [← some.inj h]
   exact calm_refl t s.pi
 | move =>
  rw [← some.inj h]
  unfold moveByte
  cases c.side with
  | write =>
   exact ⟨fun side => by cases side <;> rfl, fun side _ _ hmem => by
    cases side <;> exact hmem⟩
  | read => exact calm_refl t s.pi
 | count =>
  rw [← some.inj h]
  unfold countByte
  cases c.side with
  | write | read =>
   exact ⟨fun side => by cases side <;> rfl, fun side _ _ hmem => by
    cases side <;> exact hmem⟩
 | lockSem =>
  rcases map_eq_some_iff.mp h with ⟨mid, hmid, heq⟩
  have hcalm := lockSem_calm (t := t) hmid
  rw [← heq]
  exact hcalm
 | release | finalRelease =>
  rw [← some.inj h]
  exact calm_locked t s.pi false
 | post | finalPost =>
  rcases map_eq_some_iff.mp h with ⟨mid, hmid, heq⟩
  have hcalm := postAll_calm (t := t) hmid
  rw [← heq]
  exact hcalm
 | wait =>
  rw [← some.inj h]
  exact waitOwn_calm
 | asleep =>
  rw [wakeUp_some h]
  exact calm_refl t s.pi
 | ret =>
  rw [← some.inj h]
  exact calm_refl t s.pi

theorem rests_mono {listed before : Bool} (himp : listed -> before)
  {pc : PipePc} (h : rests side listed pc) : rests side before pc := by
 cases hlisted : listed with
 | false =>
  rw [hlisted] at h
  unfold rests at h ⊢
  split at h
  · exact h
  · exact h
  · exact h
  · exact h
  · rw [Bool.and_false] at h
    cases h
  · cases h
 | true =>
  rw [hlisted] at h
  rw [himp hlisted]
  exact h

theorem resting_of_other (hpc : next.pc u = s.pc u)
  (hmem : u ∈ (side.sem next.pi).sem.sleeplist -> u ∈ (side.sem s.pi).sem.sleeplist)
  (h : next.resting side u) : s.resting side u := by
 unfold resting at h ⊢
 rw [hpc] at h
 apply rests_mono _ h
 intro hlisted
 exact decide_eq_true (hmem (of_decide_eq_true hlisted))

theorem openForResting_of_calm (hinv : s.OpenForResting)
  (hpc : forall u, u ≠ t -> next.pc u = s.pc u) (hcalm : s.pi.Calm t next.pi)
  (hself : forall side, next.resting side t ->
    s.resting side t ∨ side.peerOpen s.pi) :
  next.OpenForResting := by
 intro side u hresting
 rw [hcalm.peerOpen side]
 by_cases hu : u = t
 · rw [hu] at hresting
   rcases hself side hresting with hbefore | hopen
   · exact hinv side t hbefore
   · exact hopen
 · exact hinv side u (resting_of_other (hpc u hu) (hcalm.sleepers side u hu) hresting)

theorem rests_of_follows {place place' : PipePlace} {c' : PipeCall} {listed : Bool}
  (hfollows : PipeFollows s.pi c place place' c')
  (h : rests side listed (.call place' c')) :
  (forall before, rests side before (.call place c)) ∨ side.peerOpen s.pi := by
 cases hfollows with
 | peerOpen hopen =>
  right
  rw [← of_decide_eq_true h]
  exact hopen
 | locked | released | posted => exact .inl (fun _ => h)
 | sleeps => exact .inl (fun _ => (Bool.and_eq_true _ _ ▸ h).left)
 | _ => cases h

section
variable (hinv : s.OpenForResting)
include hinv

theorem openForResting_call
  (hpc : s.pc t = .call place c) (hrun : s.runCall t c place = some next) :
  next.OpenForResting := by
 have hcalm := runCall_calm hrun
 rcases runCall_cases hrun with ⟨pi, place', c', hring, hfollows, hnext⟩ | hmoves
 · apply openForResting_of_calm hinv _ hcalm
   · intro side hresting
     rw [hnext] at hresting
     unfold resting goto at hresting
     simp only [update_self] at hresting
     rcases rests_of_follows hfollows hresting with hbefore | hopen
     · left
       unfold resting
       rw [hpc]
       exact hbefore _
     · exact .inr hopen
   intro u hu
   rw [hnext]
   exact update_of_ne hu _ _
 -- a byte is moved or the call returns: the thread does not rest
 have hother : (forall u, u ≠ t -> next.pc u = s.pc u) ∧
  forall side, next.resting side t = false := by
  rcases hmoves with ⟨_, hnext⟩ | ⟨_, hnext⟩ | ⟨_, hnext⟩
  · rw [hnext]
    unfold moveByte
    cases c.side <;>
     exact ⟨fun u hu => update_of_ne hu _ _, fun side => by
      simp [resting, goto, rests]⟩
  · rw [hnext]
    unfold countByte
    cases c.side <;>
     exact ⟨fun u hu => update_of_ne hu _ _, fun side => by
      simp [resting, goto, rests]⟩
  rw [hnext]
  exact ⟨fun u hu => update_of_ne hu _ _, fun side => by
   simp [resting, leave, rests]⟩
 apply openForResting_of_calm hinv hother.left hcalm
 intro side hresting
 rw [hother.right side] at hresting
 cases hresting

theorem openForResting_goto {pi : Pipe} {pc : PipePc}
  (hcalm : s.pi.Calm t pi) (hnext : next.pi = pi) (hpc : next.pc = update s.pc t pc)
  (hawake : forall side, next.resting side t = false) : next.OpenForResting := by
 apply openForResting_of_calm (t := t) hinv
 · intro u hu
   rw [hpc]
   exact update_of_ne hu _ _
 · rw [hnext]
   exact hcalm
 intro side hresting
 rw [hawake side] at hresting
 cases hresting

theorem openForResting_closeSet {writable : Bool}
    (hquiet : forall u, s.resting (testing writable) u = false) :
    { s with
 pi := closeEnd s.pi writable
 pc := update s.pc t .closeTest }.OpenForResting := by
 intro side u hresting
 have hbefore : s.resting side u := by
  by_cases hu : u = t
  · rw [hu] at hresting
    simp [resting, rests] at hresting
  apply resting_of_other (update_of_ne hu _ _) _ hresting
  cases side <;> cases writable <;> exact id
 have hopen := hinv side u hbefore
 -- the flag that is cleared is the one of which nobody is past the test
 cases writable with
 | false =>
  cases side with
  | write =>
   rw [show .write = testing false from rfl, hquiet u] at hbefore
   cases hbefore
  | read => exact hopen
 | true =>
  cases side with
  | write => exact hopen
  | read =>
   rw [show .read = testing true from rfl, hquiet u] at hbefore
   cases hbefore

/-!
# Every run
-/

theorem openForResting_run (hquiet : s.ClosesQuietly (.run t)) (h : s.run t = some next) :
  next.OpenForResting := by
 unfold run at h
 split at h
 · cases h
 · rename_i place c hpc
   exact openForResting_call hinv hpc h
 · rename_i writable hpc
   rcases map_eq_some_iff.mp h with ⟨mid, hmid, heq⟩
   rw [acquireLock_some hmid] at heq
   rw [← heq]
   exact openForResting_goto (t := t) hinv (calm_locked t s.pi true) rfl rfl
    (fun side => by simp [resting, rests])
 · rename_i writable hpc
   rw [← some.inj h]
   exact openForResting_closeSet hinv (hquiet t writable rfl hpc)
 rw [← some.inj h]
 unfold closeTest
 split
 · exact openForResting_goto (t := t) hinv (calm_locked t s.pi false) rfl rfl
    (fun side => by simp [resting, rests, releaseLock])
 exact openForResting_goto (t := t) hinv (calm_refl t s.pi) rfl rfl
  (fun side => by simp [resting, rests])

theorem openForResting_alert (h : s.alert t = some next) : next.OpenForResting := by
 unfold alert at h
 split at h
 · rename_i c hpc
   simp only at h
   split at h
   · cases h
   rw [← some.inj h]
   have hcalm : s.pi.Calm t (c.side.setSem { c.side.sem s.pi with
      sem := Semaphore.cancelWait t (c.side.sem s.pi).sem } s.pi) := by
    apply calm_setSem
    intro u _ hmem
    exact Semaphore.mem_of_mem_cancelWait hmem
   exact openForResting_goto (t := t) hinv hcalm rfl rfl
    (fun side => by simp [resting, rests, goto])
 · cases h

theorem openForResting_step {l : PipeLabel}
  (hquiet : s.ClosesQuietly l) (h : s.step l = some next) : next.OpenForResting := by
 unfold step at h
 split at h
 · cases h
 cases l with
 | pipeWrite t src n =>
  rcases map_eq_some_iff.mp h with ⟨mid, hmid, heq⟩
  rw [(enter_some hmid).right] at heq
  rw [← heq]
  exact openForResting_goto (t := t) hinv (calm_refl t s.pi) rfl rfl
   (fun side => by simp [resting, rests, goto])
 | pipeRead t dst n =>
  rw [(enter_some h).right]
  exact openForResting_goto (t := t) hinv (calm_refl t s.pi) rfl rfl
   (fun side => by simp [resting, rests, goto])
 | pipeClose t writable =>
  simp only [pipeClose] at h
  split at h
  · rw [← some.inj h]
    exact openForResting_goto (t := t) hinv (calm_refl t s.pi) rfl rfl
     (fun side => by simp [resting, rests])
  · cases h
 | run t => exact openForResting_run hinv hquiet h
 | alert t => exact openForResting_alert hinv h
end

theorem openForResting_start : start.OpenForResting := by
 nofun

end PipeState

theorem nobody_stranded_of_reachable {s : PipeState}
  (h : Reachable pipeSystem PipeState.ClosesQuietly s) (t : Tid) : ¬ s.Stranded t := by
 apply not_stranded_of_open
 apply reachable_invariant (M := pipeSystem) OpenForResting _ _ h
 · intro s hstart
   rw [show s = start from hstart]
   exact openForResting_start
 intro s l next _ hinv hquiet hstep
 exact openForResting_step hinv hquiet hstep

namespace PipeState

/-- The next statement is not the assignment of `pipeClose`. -/
def keepsOpen (s : PipeState) : PipeLabel -> Bool
 | .run t =>
  match s.pc t with
  | .closeSet _ => false
  | _ => true
 | _ => true

def KeepsOpen (s : PipeState) (l : PipeLabel) : Prop := s.keepsOpen l = true

instance (s : PipeState) (l : PipeLabel) : Decidable (s.KeepsOpen l) :=
 inferInstanceAs (Decidable (_ = _))

theorem closesQuietly_of_keepsOpen (s : PipeState) (l : PipeLabel) (h : s.KeepsOpen l) :
  s.ClosesQuietly l := by
 intro t writable hl hpc
 unfold KeepsOpen at h
 rw [hl] at h
 simp [keepsOpen, hpc] at h

def closing (t : Tid) : PipeState :=
 { start with
   pi := { start.pi with locked := true }
   pc := update (update start.pc t (.closeAcquire true)) t (.closeSet true) }

theorem reaches_closing (t : Tid) : Reaches pipeSystem ClosesQuietly start (closing t) := by
 have henter : Reaches pipeSystem ClosesQuietly start
  { start with pc := update start.pc t (.closeAcquire true) } :=
  .tail (.refl start) (closesQuietly_of_keepsOpen start (.pipeClose t true) rfl) rfl
 apply Reaches.tail (l := .run t) henter
 · apply closesQuietly_of_keepsOpen
   simp [KeepsOpen, keepsOpen]
 · simp [pipeSystem, step, run, start, acquireLock, closing]

theorem closesQuietly_closing (t : Tid) : (closing t).ClosesQuietly (.run t) := by
 intro u writable _ _ v
 unfold resting closing
 by_cases hv : v = t
 · rw [hv]
   simp [rests]
 · simp [update_of_ne hv, start, rests]

end PipeState

def PipePc.returning? : PipePc -> Option PipeCall
 | .call .ret c => some c
 | _ => none

/-- A reader that comes after the write end is closed does not sleep. -/
theorem nobody_stranded_after_close : exists s : PipeState, s.pi.writeopen = false ∧
    (exists c, s.pc 1 = PipePc.call PipePlace.ret c ∧ c.moved = 0) ∧
    forall t, ¬ s.Stranded t := by
 have hclosed : Reaches pipeSystem ClosesQuietly start { closing 0 with
    pi := closeEnd (closing 0).pi true
    pc := update (closing 0).pc 0 .closeTest } :=
  .tail (reaches_closing 0) (closesQuietly_closing 0) rfl
 rcases exists_reaches_of_execute pipeSystem KeepsOpen { closing 0 with
    pi := closeEnd (closing 0).pi true
    pc := update (closing 0).pc 0 .closeTest }
  ([.run 0, .pipeRead 1 (fun _ => 0) 2] ++ List.replicate 5 (.run 1))
  (fun s => s.pi.writeopen = false ∧ ((s.pc 1).returning?.any fun c => c.moved = 0) = true)
  (by decide +kernel) with ⟨s, hreach, hflag, htest⟩
 have hreachable : Reachable pipeSystem ClosesQuietly s :=
  ⟨start, rfl,
   reaches_trans hclosed (reaches_mono closesQuietly_of_keepsOpen hreach)⟩
 refine ⟨s, hflag, ?_, nobody_stranded_of_reachable hreachable⟩
 cases hpc : s.pc 1 with
 | call place c =>
  rw [hpc] at htest
  cases place with
  | ret => exact ⟨c, rfl, of_decide_eq_true htest⟩
  | _ => cases htest
 | _ =>
  rw [hpc] at htest
  cases htest

/-!
# A reader that sleeps on

The reader asks for a byte of an empty pipe and sleeps.  The write end is closed, and
nobody is left who would post the semaphore.
-/

theorem reader_stranded : exists s : PipeState, Reachable pipeSystem unguarded s ∧ s.Stranded 1 ∧
    s.pc 0 = PipePc.idle := by
 rcases exists_reachable_of_execute pipeSystem unguarded (show pipeSystem.initial start from rfl)
  ([.pipeRead 1 (fun _ => 0) 1] ++ List.replicate 7 (.run 1) ++
   [.pipeClose 0 true] ++ List.replicate 3 (.run 0))
  (fun s => s.stranded 1 = true ∧ (s.pc 0).isIdle = true) (by decide +kernel) with
  ⟨s, hreach, hstranded, hidle⟩
 exact ⟨s, hreach, stranded_iff.mp hstranded, isIdle_iff.mp hidle⟩

end OSLab.Fs
