import OSLab.Common.RawSemaphore
import OSLab.Kernel.PidMap
import OSLab.Kernel.ProcState
import Mathlib.Data.Finset.Insert

/-!
# The tree of processes

`create_proc`, `set_parent_to_this`, `start_proc`, `exit`, `wait` and `kill` of
`kernel/proc.c`.  A process that may run is runnable here; which one runs next is left
open, and so is what a process does between these calls.  No result stands for an
`ASSERT` that fails, for `PANIC` and for a null pointer.

The section of `exit` under `proc_tree_lock` is one step together with the switch that
ends it.  `wait` has the test for children, the semaphore before and after the sleep,
and the search for a zombie as steps of their own.
-/

namespace OSLab.Kernel
open Common Function


inductive WaitPlace where
 | outside
 | checked
 | asleep
 | granted
deriving DecidableEq

/--
The fields of processes and containers, the maps of pids, and for every process its
place in `wait` and the field `up` of its `WaitData`.  The processes that have been
created and not freed are `procs`.
-/
structure ProcTree where
 procs : Finset Nat
 conts : Finset Nat
 state : Nat -> ProcState
 killed : Nat -> Bool
 parent : Nat -> Option Nat
 children : Nat -> List Nat
 childexit : Nat -> RawSemaphore Nat
 up : Nat -> Bool
 place : Nat -> WaitPlace
 container : Nat -> Nat
 rootproc : Nat -> Nat
 pid : Nat -> Int
 localpid : Nat -> Int
 exitcode : Nat -> Int
 pidProcMap : Int -> Option Nat
 globalPids : PidMap
 localPids : Nat -> PidMap
 rootProc : Nat
 rootContainer : Nat

namespace ProcTree
variable (s : ProcTree)

def setState (p : Nat) (state : ProcState) : ProcTree :=
 { s with state := update s.state p state }

def setPlace (p : Nat) (place : WaitPlace) : ProcTree :=
 { s with place := update s.place p place }

def setSem (p : Nat) (sem : RawSemaphore Nat) : ProcTree :=
 { s with childexit := update s.childexit p sem }

def insertPidProcMap (pid : Int) (p : Nat) : Option ProcTree :=
 if s.pidProcMap pid = none then
  some { s with pidProcMap := update s.pidProcMap pid (some p) }
 else
  none

def initProc (p : Nat) (pid : Int) : ProcTree :=
 { s with
   procs := insert p s.procs
   killed := update s.killed p false
   pid := update s.pid p pid
   exitcode := update s.exitcode p 0
   state := update s.state p .unused
   childexit := update s.childexit p (RawSemaphore.initSem 0)
   children := update s.children p []
   parent := update s.parent p none
   container := update s.container p s.rootContainer
   up := update s.up p false
   place := update s.place p .outside }

def createProc (p : Nat) : Option ProcTree :=
 let allocated := s.globalPids.getNextPid
 (insertPidProcMap { s with globalPids := allocated.2 } allocated.1 p).map fun s =>
  s.initProc p allocated.1

/-- `_insert_into_list(&(q->children), &(p->ptnode))` with `p->parent = q`. -/
def attach (q p : Nat) : ProcTree :=
 { s with
   parent := update s.parent p (some q)
   children := update s.children q (p :: s.children q) }

def setParentToThis (cp p : Nat) : Option ProcTree :=
 if s.parent p = none then some (s.attach cp p) else none

def setContainer (p c : Nat) : ProcTree :=
 { s with container := update s.container p c }

/-- The part of `create_container` that makes `p` the root of a new container. -/
def initContainer (c p : Nat) (former : Nat -> Bool) : ProcTree :=
 { s.setContainer p c with
   conts := insert c s.conts
   rootproc := update s.rootproc c p
   localPids := update s.localPids c (PidMap.init localPidMaxDefault former) }

/-- The section of `start_proc` under `proc_tree_lock`. -/
def startAttach (p : Nat) : ProcTree :=
 if s.parent p = none then s.attach s.rootProc p else s

def startActivate (p : Nat) : ProcTree :=
 let allocated := (s.localPids (s.container p)).getNextPid
 { s.setState p ((s.state p).activate false) with
   localPids := update s.localPids (s.container p) allocated.2
   localpid := update s.localpid p allocated.1 }

/-!
# `exit`
-/

def wake : Option Nat -> ProcTree
 | none => s
 | some t => { s.setState t ((s.state t).activate false) with up := update s.up t true }

def postChildexit (p : Nat) : Option ProcTree :=
 (s.childexit p).postSem.map fun posted => (s.setSem p posted.2).wake posted.1

def adopt (cp root c : Nat) : Option ProcTree :=
 if s.parent c = some cp then
  let s := { s with children := update s.children cp ((s.children cp).erase c) }
  let s := s.attach root c
  if s.state c = .zombie then s.postChildexit root else some s
 else
  none

/-- The loop of `exit` over the children that are left. -/
def adoptAll (cp root : Nat) : List Nat -> ProcTree -> Option ProcTree
 | [], s => some s
 | c :: rest, s => (s.adopt cp root c).bind (adoptAll cp root rest)

variable (cp : Nat)

def finishExit : Option ProcTree :=
 if s.children cp = [] then
  (s.parent cp).bind fun q => (s.postChildexit q).map fun s => s.setState cp .zombie
 else
  none

def exit (code : Int) : Option ProcTree :=
 if cp = s.rootproc (s.container cp) then
  none
 else
  let s := { s with exitcode := update s.exitcode cp code }
  (adoptAll cp (s.rootproc (s.container cp)) (s.children cp) s).bind fun s => s.finishExit cp

/-!
# `wait`
-/

def waitCheck : Option Int × ProcTree :=
 if s.children cp = [] then (some (-1), s) else (none, s.setPlace cp .checked)

/-- The process enqueues its `WaitData` and calls `sched`, which returns if it is killed. -/
def fallAsleep (sem : RawSemaphore Nat) : ProcTree :=
 let enqueued := { (s.setSem cp sem).setPlace cp .asleep with
  up := update s.up cp false }
 if s.killed cp then enqueued else enqueued.setState cp .sleeping

def waitSem (s : ProcTree) (cp : Nat) : ProcTree :=
 let waited := (s.childexit cp).waitSem cp
 if waited.1 then
  (s.setSem cp waited.2).setPlace cp .granted
 else
  s.fallAsleep cp waited.2

/-- The end of `_wait_sem`; `wait` returns -1 if no post has come. -/
def waitBack : Option (Option Int × ProcTree) :=
 if s.up cp then
  some (none, s.setPlace cp .granted)
 else
  ((s.childexit cp).cancelWait cp).map fun sem =>
   (some (-1), (s.setSem cp sem).setPlace cp .outside)

/-- The zombie `c` leaves its parent and the maps, which are given with its pids cleared. -/
def release (cp c : Nat) (globalPids localPids : PidMap) : ProcTree :=
 { s.setState c .unused with
   children := update s.children cp ((s.children cp).erase c)
   pidProcMap := update s.pidProcMap (s.pid c) none
   globalPids := globalPids
   localPids := update s.localPids (s.container c) localPids
   procs := s.procs.erase c }

/-- What `wait` does with the zombie that it has found. -/
def free (cp c : Nat) : Option ProcTree :=
 if s.parent c = some cp ∧ s.pidProcMap (s.pid c) ≠ none then
  (s.globalPids.freePid (s.pid c)).bind fun globalPids =>
   ((s.localPids (s.container c)).freePid (s.localpid c)).map fun localPids =>
    s.release cp c globalPids localPids
 else
  none

def firstZombie : Option Nat :=
 (s.children cp).find? (fun c => decide (s.state c = .zombie))

/-- The end of `wait`: the return value, `*exitcode` and `*pid`. -/
def waitReap : Option ((Int × Int × Int) × ProcTree) :=
 (s.firstZombie cp).bind fun c =>
  (s.free cp c).map fun next =>
   ((s.localpid c, s.exitcode c, s.pid c), next.setPlace cp .outside)

/-!
# `kill`
-/

def kill (pid : Int) : Int × ProcTree :=
 match s.pidProcMap pid with
 | none => (-1, s)
 | some p =>
  if s.state p = .unused then
   (-1, s)
  else
   (0, { s.setState p ((s.state p).activate true) with
    killed := update s.killed p true })

end OSLab.Kernel.ProcTree
