import OSLab.Common.Semaphore
import OSLab.Foundation.TransitionSystem

/-!
# Pipes

The functions of `fs/pipe.c` as a machine that runs one statement at a time.  Any
number of threads may be in calls of `pipeWrite`, `pipeRead` and `pipeClose`; the
spinlock of the pipe and the internal spinlocks of its semaphores are flags, as
in the source, so that a release clears a flag whoever has set it.

`pipeWrite` and `pipeRead` are one loop with the sides exchanged: they test for
space or for data, move a byte in or out, and sleep on their own semaphore after
posting the other one.
-/

namespace OSLab.Fs
open Common Foundation Function Option

def pipeSize : Nat := 512

structure PipeSem where
 locked : Bool
 sem : Semaphore Tid

structure Pipe where
 locked : Bool
 wlock : PipeSem
 rlock : PipeSem
 data : Nat -> UInt8
 nread : BitVec 32
 nwrite : BitVec 32
 readopen : Bool
 writeopen : Bool

inductive PipeSide where
 | write
 | read
 deriving DecidableEq

namespace PipeSide

def other : PipeSide -> PipeSide
 | write => read
 | read => write

/-- The test for space in `pipeWrite` and for unread data in `pipeRead`. -/
def ready : PipeSide -> Pipe -> Bool
 | write, pi => decide (0#32 < BitVec.ofNat 32 pipeSize - (pi.nwrite - pi.nread))
 | read, pi => decide (0#32 < pi.nwrite - pi.nread)

def peerOpen : PipeSide -> Pipe -> Bool
 | write, pi => pi.readopen
 | read, pi => pi.writeopen

def sem : PipeSide -> Pipe -> PipeSem
 | write, pi => pi.wlock
 | read, pi => pi.rlock

def setSem : PipeSide -> PipeSem -> Pipe -> Pipe
 | write, sem, pi => { pi with wlock := sem }
 | read, sem, pi => { pi with rlock := sem }

end PipeSide

/--
The variables of a call.  `buf` is `src` or `dst`, and `moved` is the local
`nwrite` or `nread`.  The last field is not in the source; it tells whether
`_wait_sem` has returned false.
-/
structure PipeCall where
 side : PipeSide
 buf : Nat -> UInt8
 n : Nat
 i : Nat
 moved : Nat
 interrupted : Bool

namespace PipeCall

def bytes (c : PipeCall) (k : Nat) : List UInt8 := (List.range k).map c.buf

end PipeCall

inductive PipePlace where
 | acquire
 | test
 | move
 | count
 | blocked
 | lockSem
 | release
 | post
 | wait
 | asleep
 | reacquire
 | finalRelease
 | finalPost
 | ret
 deriving DecidableEq

inductive PipePc where
 | idle
 | call (place : PipePlace) (c : PipeCall)
 | closeAcquire (writable : Bool)
 | closeSet (writable : Bool)
 | closeTest

namespace PipePc

def isIdle : PipePc -> Bool
 | idle => true
 | _ => false

end PipePc

/--
The pipe and the places of the threads.  The fields after `pc` are not in the
source: the bytes passed to `pipeWrite`, the bytes that `pipeRead` has returned,
the bytes stored in the ring, the number of bytes loaded from it, and whether a
`pipeWrite` was interrupted.
-/
structure PipeState where
 pi : Pipe
 freed : Bool
 pc : Tid -> PipePc
 sent : List UInt8
 received : List UInt8
 stored : List UInt8
 loaded : Nat
 cut : Bool

inductive PipeLabel where
 | pipeWrite (t : Tid) (src : Nat -> UInt8) (n : Nat)
 | pipeRead (t : Tid) (dst : Nat -> UInt8) (n : Nat)
 | pipeClose (t : Tid) (writable : Bool)
 | run (t : Tid)
 | alert (t : Tid)

namespace PipeState
variable (s : PipeState)
variable (t : Tid)

def goto (place : PipePlace) (c : PipeCall) : PipeState :=
 { s with pc := update s.pc t (.call place c) }

/-- `_acquire_spinlock(&(pi->lock))`, which spins while the flag is set. -/
def acquireLock : Option PipeState :=
 if s.pi.locked then none else some { s with pi := { s.pi with locked := true } }

def releaseLock : PipeState := { s with pi := { s.pi with locked := false } }

/-- `post_all_sem`, which spins while the semaphore is locked. -/
def postAll (side : PipeSide) : Option PipeState :=
 let sem := side.sem s.pi
 if sem.locked then
  none
 else
  some { s with
   pi := side.setSem { sem with sem := (Semaphore.postAllSem sem.sem).2 } s.pi }

def lockSem (side : PipeSide) : Option PipeState :=
 let sem := side.sem s.pi
 if sem.locked then
  none
 else
  some { s with pi := side.setSem { sem with locked := true } s.pi }

def moveByte (c : PipeCall) : PipeState :=
 match c.side with
 | .write =>
  let data := update s.pi.data (s.pi.nwrite.toNat % pipeSize) (c.buf c.i)
  { s with pi := { s.pi with data := data } }.goto t .count c
 | .read =>
  let buf := update c.buf c.i (s.pi.data (s.pi.nread.toNat % pipeSize))
  s.goto t .count { c with buf := buf }

def countByte (c : PipeCall) : PipeState :=
 let next := { c with moved := c.moved + 1, i := c.i + 1 }
 match c.side with
 | .write =>
  { s with
    pi := { s.pi with nwrite := s.pi.nwrite + 1 }
    stored := s.stored ++ [c.buf c.i] }.goto t .test next
 | .read =>
  { s with
    pi := { s.pi with nread := s.pi.nread + 1 }
    loaded := s.loaded + 1 }.goto t .test next

/-- `_wait_sem` up to the point where the caller has a token or sleeps. -/
def waitOwn (c : PipeCall) : PipeState :=
 let waited := Semaphore.waitSem t (c.side.sem s.pi).sem
 let pi := c.side.setSem { locked := false, sem := waited.2 } s.pi
 { s with pi := pi }.goto t (if waited.1 then .reacquire else .asleep) c

/-- The rest of `_wait_sem` after a post, which returns true. -/
def wakeUp (c : PipeCall) : Option PipeState :=
 let sem := c.side.sem s.pi
 if sem.locked || decide (t ∈ sem.sem.sleeplist) then
  none
 else
  some (s.goto t .reacquire c)

def leave (c : PipeCall) : PipeState :=
 { s with
   pc := update s.pc t .idle
   received := match c.side with
    | .write => s.received
    | .read => s.received ++ c.bytes c.moved }

def runCall (c : PipeCall) : PipePlace -> Option PipeState
 | .acquire => s.acquireLock.map fun next => next.goto t .test c
 | .test =>
  if c.i < c.n then
   if c.side.ready s.pi then
    some (s.goto t .move c)
   else
    some (s.goto t .blocked c)
  else
   some (s.goto t .finalRelease c)
 | .move => some (s.moveByte t c)
 | .count => some (s.countByte t c)
 | .blocked =>
  if c.side.peerOpen s.pi then
   some (s.goto t .lockSem c)
  else
   some (s.goto t .finalRelease c)
 | .lockSem => (s.lockSem c.side).map fun next => next.goto t .release c
 | .release => some (s.releaseLock.goto t .post c)
 | .post => (s.postAll c.side.other).map fun next => next.goto t .wait c
 | .wait => some (s.waitOwn t c)
 | .asleep => s.wakeUp t c
 | .reacquire =>
  s.acquireLock.map fun next =>
   next.goto t .test { c with i := c.i + 1 }
 | .finalRelease => some (s.releaseLock.goto t .finalPost c)
 | .finalPost => (s.postAll c.side.other).map fun next => next.goto t .ret c
 | .ret => some (s.leave t c)

def alert : Option PipeState :=
 match s.pc t with
 | .call .asleep c =>
  let sem := c.side.sem s.pi
  if sem.locked || decide (t ∉ sem.sem.sleeplist) then
   none
  else
   let pi := c.side.setSem { sem with sem := Semaphore.cancelWait t sem.sem } s.pi
   some ({ s with
    pi := pi
    cut := s.cut || decide (c.side = PipeSide.write) }.goto t
     PipePlace.finalRelease { c with interrupted := true })
 | _ => none

def closeEnd (pi : Pipe) (writable : Bool) : Pipe :=
 if writable then { pi with writeopen := false } else { pi with readopen := false }

/-- The end of `pipeClose`, which keeps the lock of a pipe that it frees. -/
def closeTest : PipeState :=
 let done := { s with pc := update s.pc t .idle }
 if s.pi.writeopen || s.pi.readopen then
  done.releaseLock
 else
  { done with freed := true }

def run : Option PipeState :=
 match s.pc t with
 | .idle => none
 | .call place c => s.runCall t c place
 | .closeAcquire writable =>
  s.acquireLock.map fun next =>
   { next with pc := update next.pc t (.closeSet writable) }
 | .closeSet writable =>
  some { s with
   pi := closeEnd s.pi writable
   pc := update s.pc t .closeTest }
 | .closeTest => some (s.closeTest t)

def enter (side : PipeSide) (buf : Nat -> UInt8) (n : Nat) : Option PipeState :=
 if (s.pc t).isIdle then
  some (s.goto t .acquire
   { side := side, buf := buf, n := n, i := 0, moved := 0
     interrupted := false })
 else
  none

def pipeWrite (src : Nat -> UInt8) (n : Nat) : Option PipeState :=
 (s.enter t .write src n).map fun next =>
  { next with sent := s.sent ++ (List.range n).map src }

def pipeRead (dst : Nat -> UInt8) (n : Nat) : Option PipeState :=
 s.enter t .read dst n

def pipeClose (writable : Bool) : Option PipeState :=
 if (s.pc t).isIdle then
  some { s with pc := update s.pc t (.closeAcquire writable) }
 else
  none

def step (l : PipeLabel) : Option PipeState :=
 if s.freed then
  none
 else
  match l with
  | .pipeWrite t src n => s.pipeWrite t src n
  | .pipeRead t dst n => s.pipeRead t dst n
  | .pipeClose t writable => s.pipeClose t writable
  | .run t => s.run t
  | .alert t => s.alert t

def start : PipeState where
 pi := {
  locked := false
  wlock := { locked := false, sem := Semaphore.initSem 0 }
  rlock := { locked := false, sem := Semaphore.initSem 0 }
  data := fun _ => 0
  nread := 0#32
  nwrite := 0#32
  readopen := true
  writeopen := true }
 freed := false
 pc := fun _ => .idle
 sent := []
 received := []
 stored := []
 loaded := 0
 cut := false

end PipeState

def pipeSystem : TransitionSystem PipeState PipeLabel where
 initial := fun s => s = PipeState.start
 step := PipeState.step

/-!
# What a step can do

Most statements only move the thread on and touch locks and semaphores.  They
are listed by the statements that may follow each other.
-/

namespace Pipe

structure SameRing (pi next : Pipe) : Prop where
 data : next.data = pi.data
 nread : next.nread = pi.nread
 nwrite : next.nwrite = pi.nwrite
 readopen : next.readopen = pi.readopen

theorem sameRing_refl (pi : Pipe) : pi.SameRing pi := ⟨rfl, rfl, rfl, rfl⟩

theorem sameRing_locked (pi : Pipe) (locked : Bool) : pi.SameRing { pi with locked := locked } :=
 ⟨rfl, rfl, rfl, rfl⟩

theorem sameRing_setSem (side : PipeSide) (sem : PipeSem) (pi : Pipe) :
  pi.SameRing (side.setSem sem pi) := by
 cases side <;> exact ⟨rfl, rfl, rfl, rfl⟩

end Pipe

inductive PipeFollows (pi : Pipe) (c : PipeCall) :
  PipePlace -> PipePlace -> PipeCall -> Prop where
 | acquired : PipeFollows pi c .acquire .test c
 | ready (hi : c.i < c.n) (hready : c.side.ready pi = true) :
  PipeFollows pi c .test .move c
 | notReady (hi : c.i < c.n) (hready : c.side.ready pi = false) :
  PipeFollows pi c .test .blocked c
 | finished (hi : ¬ c.i < c.n) :
  PipeFollows pi c .test .finalRelease c
 | peerOpen (hopen : c.side.peerOpen pi = true) :
  PipeFollows pi c .blocked .lockSem c
 | peerClosed (hopen : c.side.peerOpen pi = false) :
  PipeFollows pi c .blocked .finalRelease c
 | locked : PipeFollows pi c .lockSem .release c
 | released : PipeFollows pi c .release .post c
 | posted : PipeFollows pi c .post .wait c
 | token : PipeFollows pi c .wait .reacquire c
 | sleeps : PipeFollows pi c .wait .asleep c
 | woken : PipeFollows pi c .asleep .reacquire c
 | reacquired :
  PipeFollows pi c .reacquire .test { c with i := c.i + 1 }
 | finalReleased : PipeFollows pi c .finalRelease .finalPost c
 | finalPosted : PipeFollows pi c .finalPost .ret c

namespace PipeState
variable {s next : PipeState} {t : Tid} {c : PipeCall}

theorem acquireLock_some (h : s.acquireLock = some next) :
  next = { s with pi := { s.pi with locked := true } } := by
 unfold acquireLock at h
 split at h
 · cases h
 · exact (some.inj h).symm

variable {side : PipeSide}

theorem postAll_some (h : s.postAll side = some next) :
  exists sem, next = { s with pi := side.setSem sem s.pi } := by
 simp only [postAll] at h
 split at h
 · cases h
 · exact ⟨_, (some.inj h).symm⟩

theorem lockSem_some (h : s.lockSem side = some next) :
  exists sem, next = { s with pi := side.setSem sem s.pi } := by
 simp only [lockSem] at h
 split at h
 · cases h
 · exact ⟨_, (some.inj h).symm⟩

theorem wakeUp_some (h : s.wakeUp t c = some next) : next = s.goto t .reacquire c := by
 simp only [wakeUp] at h
 split at h
 · cases h
 · exact (some.inj h).symm

def Passes (s : PipeState) (t : Tid) (c : PipeCall) (place : PipePlace) (next : PipeState) : Prop :=
 exists pi place' c', s.pi.SameRing pi ∧ PipeFollows s.pi c place place' c' ∧
  next = { s with pi := pi }.goto t place' c'

theorem passes_self {place place' : PipePlace} {c' : PipeCall}
  (h : PipeFollows s.pi c place place' c') : s.Passes t c place (s.goto t place' c') :=
 ⟨s.pi, place', c', Pipe.sameRing_refl _, h, rfl⟩

theorem runCall_cases {place : PipePlace} (h : s.runCall t c place = some next) :
  s.Passes t c place next ∨ (place = .move ∧ next = s.moveByte t c) ∨
    (place = .count ∧ next = s.countByte t c) ∨
    (place = .ret ∧ next = s.leave t c) := by
 cases place with
 | acquire | reacquire =>
  rcases map_eq_some_iff.mp h with ⟨mid, hmid, heq⟩
  have hlock := acquireLock_some hmid
  subst hlock heq
  exact .inl ⟨_, _, _, Pipe.sameRing_locked _ true, by constructor, rfl⟩
 | test =>
  simp only [runCall] at h
  split at h
  · rename_i hi
    split at h
    · rename_i hready
      cases h
      exact .inl (passes_self (.ready hi hready))
    rename_i hready
    cases h
    exact .inl (passes_self (.notReady hi (by simpa using hready)))
  rename_i hi
  cases h
  exact .inl (passes_self (.finished hi))
 | move => exact .inr (.inl ⟨rfl, (some.inj h).symm⟩)
 | count => exact .inr (.inr (.inl ⟨rfl, (some.inj h).symm⟩))
 | blocked =>
  simp only [runCall] at h
  split at h
  · rename_i hopen
    cases h
    exact .inl (passes_self (.peerOpen hopen))
  rename_i hopen
  cases h
  exact .inl (passes_self (.peerClosed (by simpa using hopen)))
 | lockSem =>
  rcases map_eq_some_iff.mp h with ⟨mid, hmid, heq⟩
  rcases lockSem_some hmid with ⟨sem, hlock⟩
  subst hlock heq
  exact .inl ⟨_, _, _, Pipe.sameRing_setSem _ _ _, .locked, rfl⟩
 | release | finalRelease =>
  cases h
  exact .inl ⟨_, _, _, Pipe.sameRing_locked _ false, by constructor, rfl⟩
 | post | finalPost =>
  rcases map_eq_some_iff.mp h with ⟨mid, hmid, heq⟩
  rcases postAll_some hmid with ⟨sem, hpost⟩
  subst hpost heq
  exact .inl ⟨_, _, _, Pipe.sameRing_setSem _ _ _, by constructor, rfl⟩
 | wait =>
  cases h
  refine .inl ⟨_, _, _, Pipe.sameRing_setSem _ _ _, ?_, rfl⟩
  split
  · exact .token
  · exact .sleeps
 | asleep =>
  have hwake := wakeUp_some h
  subst hwake
  exact .inl (passes_self .woken)
 | ret => exact .inr (.inr (.inr ⟨rfl, (some.inj h).symm⟩))

inductive Moves (s : PipeState) : PipeLabel -> PipeState -> Prop where
 | pipeWrite {t : Tid} {src : Nat -> UInt8} {n : Nat}
  (hidle : s.pc t = .idle) :
  Moves s (.pipeWrite t src n)
   { s.goto t .acquire
    { side := .write, buf := src, n := n, i := 0, moved := 0
      interrupted := false } with
     sent := s.sent ++ (List.range n).map src }
 | pipeRead {t : Tid} {dst : Nat -> UInt8} {n : Nat}
  (hidle : s.pc t = .idle) :
  Moves s (.pipeRead t dst n) (s.goto t .acquire
    { side := .read, buf := dst, n := n, i := 0, moved := 0
      interrupted := false })
 | call {t : Tid} {place : PipePlace} {c : PipeCall} {next : PipeState}
  (hpc : s.pc t = .call place c)
  (hrun : s.runCall t c place = some next) :
  Moves s (.run t) next
 | alert {t : Tid} {c : PipeCall} {sem : PipeSem}
  (hpc : s.pc t = .call .asleep c) :
  Moves s (.alert t) ({ s with
   pi := c.side.setSem sem s.pi
   cut := s.cut || decide (c.side = PipeSide.write) }.goto t
    PipePlace.finalRelease { c with interrupted := true })
 | close {l : PipeLabel} {t : Tid} {pc : PipePc} {pi : Pipe} {freed : Bool}
  (hpc : forall place c, s.pc t ≠ .call place c)
  (hnext : forall place c, pc ≠ .call place c)
  (hpi : pi.data = s.pi.data ∧ pi.nread = s.pi.nread ∧ pi.nwrite = s.pi.nwrite)
  (hopen : pi.readopen = true -> s.pi.readopen = true) :
  Moves s l { s with
   pi := pi
   freed := freed
   pc := update s.pc t pc }

theorem isIdle_iff {pc : PipePc} : pc.isIdle ↔ pc = .idle := by
 cases pc <;> simp [PipePc.isIdle]

theorem enter_some {buf : Nat -> UInt8} {n : Nat} (h : s.enter t side buf n = some next) :
  s.pc t = .idle ∧ next = s.goto t .acquire
    { side := side, buf := buf, n := n, i := 0, moved := 0
      interrupted := false } := by
 unfold enter at h
 split at h
 · rename_i hidle
   exact ⟨isIdle_iff.mp hidle, (some.inj h).symm⟩
 · cases h

theorem alert_moves (h : s.alert t = some next) : s.Moves (.alert t) next := by
 unfold alert at h
 split at h
 · rename_i c hpc
   simp only at h
   split at h
   · cases h
   cases h
   exact .alert hpc
 · cases h

theorem run_moves (h : s.run t = some next) : s.Moves (.run t) next := by
 unfold run at h
 split at h
 · cases h
 · rename_i place c hpc
   exact .call hpc h
 · rename_i writable hpc
   rcases map_eq_some_iff.mp h with ⟨mid, hmid, heq⟩
   have hlock := acquireLock_some hmid
   subst hlock heq
   exact .close (by simp [hpc]) (by simp) ⟨rfl, rfl, rfl⟩ id
 · rename_i writable hpc
   cases h
   refine .close (by simp [hpc]) (by simp) ?_ ?_
   · cases writable <;> exact ⟨rfl, rfl, rfl⟩
   cases writable
   · nofun
   · exact id
 rename_i hpc
 cases h
 simp only [closeTest]
 split
 all_goals
  exact .close (by simp [hpc]) (by simp) ⟨rfl, rfl, rfl⟩ id

theorem step_moves {l : PipeLabel} (h : s.step l = some next) : s.Moves l next := by
 unfold step at h
 split at h
 · cases h
 cases l with
 | pipeWrite t src n =>
  rcases map_eq_some_iff.mp h with ⟨mid, hmid, heq⟩
  rcases enter_some hmid with ⟨hidle, henter⟩
  subst henter heq
  exact .pipeWrite hidle
 | pipeRead t dst n =>
  rcases enter_some h with ⟨hidle, rfl⟩
  exact .pipeRead hidle
 | pipeClose t writable =>
  simp only [pipeClose] at h
  rcases of_guard h with ⟨hidle, rfl⟩
  rw [isIdle_iff] at hidle
  exact .close (by simp [hidle]) (by simp) ⟨rfl, rfl, rfl⟩ id
 | run t => exact run_moves h
 | alert t => exact alert_moves h

end OSLab.Fs.PipeState
