import OSLab.Foundation.Hierarchy
import OSLab.Foundation.SearchTree
import OSLab.Kernel.ProcState

/-!
# The scheduler

`kernel/sched.c`.  Processes and containers are named by the addresses of their
`struct schinfo`, which are the nodes of the run queues; a run queue is the tree that
its nodes form in memory.  No result stands for an `ASSERT` that fails and for the
removal of a node that is not there.

`nr_running` counts objects in memory and stays far below the range of its type;
`weight_sum` is taken modulo that range, and times modulo 64 bits.
-/

namespace OSLab.Kernel
open Foundation Function

abbrev Addr := Nat

abbrev Cpu := Nat

structure CfsRq where
 weightSum : Nat
 nrRunning : Nat
 root : ColorTree Addr
deriving DecidableEq

def CfsRq.init : CfsRq where
 weightSum := 0
 nrRunning := 0
 root := .leaf

/--
The fields of `struct schinfo`, of processes, of containers and of `struct sched` for
each CPU; `elapse` is the time that the timer of the CPU is set to.  The processes that
have been created and not freed, without the idle processes, are `procs`.
-/
structure Sched where
 vruntime : Addr -> Nat
 starttime : Addr -> Nat
 prio : Addr -> Nat
 weight : Addr -> Nat
 isContainer : Addr -> Bool
 state : Addr -> ProcState
 killed : Addr -> Bool
 idle : Addr -> Bool
 container : Addr -> Addr
 parent : Addr -> Addr
 rq : Addr -> CfsRq
 idleProc : Cpu -> Addr
 curProc : Cpu -> Addr
 elapse : Cpu -> Nat
 panicFlag : Bool
 rootContainer : Addr
 procs : Finset Addr
 conts : Finset Addr

def prioToWeight : List Nat :=
 [88761, 71755, 56483, 46273, 36291, 29154, 23254, 18705, 14949, 11916,
  9548, 7620, 6100, 4904, 3906, 3121, 2501, 1991, 1586, 1277,
  1024, 820, 655, 526, 423, 335, 272, 215, 172, 137,
  110, 87, 70, 56, 45, 36, 29, 23, 18, 15]

def initWeight : Nat := prioToWeight.getD 21 0

def schedMinGranularity : Nat := 1

def schedLatency : Nat := 6

namespace Sched

def timeSub (later sooner : Nat) : Nat :=
 (later + (18446744073709551616 - sooner % 18446744073709551616)) % 18446744073709551616

def timeAdd (time delta : Nat) : Nat := (time + delta) % 18446744073709551616

variable (s : Sched)

def cfsCmp (l r : Addr) : Bool :=
 if s.vruntime l = s.vruntime r then
  if s.prio l = s.prio r then
   decide (l < r)
  else
   decide (s.prio l < s.prio r)
 else
  decide (s.vruntime l < s.vruntime r)

def setState (p : Addr) (state : ProcState) : Sched :=
 { s with state := update s.state p state }

def setVruntime (a : Addr) (time : Nat) : Sched :=
 { s with vruntime := update s.vruntime a time }

def setRq (c : Addr) (rq : CfsRq) : Sched := { s with rq := update s.rq c rq }

variable (cpu : Cpu)

def getMinvruntime (c : Addr) : Nat :=
 match (s.rq c).root.toList.head? with
 | none => s.vruntime (s.curProc cpu)
 | some a => s.vruntime a

def getSchedLatency (c : Addr) : Nat :=
 max schedLatency (schedMinGranularity * (s.rq c).nrRunning)

/-- `ASSERT(_rb_insert(a, &c->schqueue.rq.root, cfs_cmp) == 0)`. -/
def rbInsert (a c : Addr) : Option Sched :=
 match (s.rq c).root.insert s.cfsCmp a with
 | some (true, t) => some (s.setRq c { s.rq c with root := t })
 | _ => none

def rbErase (a c : Addr) : Option Sched :=
 ((s.rq c).root.erase a).map fun t => s.setRq c { s.rq c with root := t }

def count (a c : Addr) : Sched :=
 s.setRq c { s.rq c with
  weightSum := ((s.rq c).weightSum + s.weight a) % 4294967296
  nrRunning := (s.rq c).nrRunning + 1 }

def discount (a c : Addr) : Sched :=
 s.setRq c { s.rq c with
  weightSum := ((s.rq c).weightSum + (4294967296 - s.weight a % 4294967296)) % 4294967296
  nrRunning := (s.rq c).nrRunning - 1 }

/-!
# Activation
-/

def activateRound : Addr × Sched -> Option (Round (Addr × Sched) Sched)
 | (c, s) =>
  if c = s.rootContainer ∨ (s.rq c).nrRunning ≠ 1 then
   some (.done s)
  else
   let above := s.parent c
   let s := s.setVruntime c (max (s.vruntime c) (s.getMinvruntime cpu above))
   (s.rbInsert c above).map fun s => .again (above, s.count c above)

/-- The part of `_activate_proc` that is not decided by the state of the process. -/
def makeRunnable (p : Addr) : Option Sched :=
 let c := s.container p
 let s := s.setState p .runnable
 let delta := max (s.vruntime p) (s.getMinvruntime cpu c) - s.vruntime p
 let s := s.setVruntime p (s.vruntime p + delta)
 (s.rbInsert p c).bind fun s => loop (activateRound cpu) s.conts.card (c, s.count p c)

def activateProc (p : Addr) (onalert : Bool) : Option (Bool × Sched) :=
 if (s.state p).activates onalert then
  (s.makeRunnable cpu p).map fun s => (true, s)
 else
  some (false, s)

def activateGroup (group : Addr) : Sched :=
 s.setVruntime group (max (s.vruntime group) (s.getMinvruntime cpu (s.parent group)))

/-!
# Switching
-/

def requeueRound (delta : Nat) : Addr × Sched -> Option (Round (Addr × Sched) Sched)
 | (c, s) =>
  if c = s.rootContainer then
   some (.done s)
  else
   let above := s.parent c
   let s := s.setVruntime c (timeAdd (s.vruntime c) delta)
   (s.rbErase c above).bind fun s =>
    (s.rbInsert c above).map fun s => .again (above, s)

def emptyRound : Addr × Sched -> Option (Round (Addr × Sched) Sched)
 | (c, s) =>
  if c = s.rootContainer ∨ (s.rq c).nrRunning ≠ 0 then
   some (.done s)
  else
   let above := s.parent c
   (s.rbErase c above).map fun s => .again (above, s.discount c above)

def runDelta (p : Addr) (now : Nat) : Nat :=
 timeSub now (s.starttime p) * initWeight % 18446744073709551616 / s.weight p

def leaveCpu (p : Addr) (new : ProcState) : Option Sched :=
 let c := s.container p
 if new = .runnable then
  s.rbInsert p c
 else
  loop emptyRound s.conts.card (c, s.discount p c)

def updateThisState (new : ProcState) (now : Nat) : Option Sched :=
 let cp := s.curProc cpu
 let s := s.setState cp new
 if s.idle cp then
  some (s.setVruntime cp (timeAdd (s.vruntime cp) schedMinGranularity))
 else
  let delta := s.runDelta cp now
  let s := s.setVruntime cp (timeAdd (s.vruntime cp) delta)
  (loop (requeueRound delta) s.conts.card (s.container cp, s)).bind fun s => s.leaveCpu cp new

/-- A call of `recur_get_proc`; the recursive call is its last step. -/
def recurRound (c : Addr) : Option (Round Addr (Option Addr × Sched)) :=
 match (s.rq c).root.toList.head? with
 | none => some (.done (none, s))
 | some a =>
  if s.isContainer a then
   some (.again a)
  else
   (s.rbErase a c).map fun s => .done (some a, s)

def recurGetProc (c : Addr) : Option (Option Addr × Sched) :=
 loop s.recurRound s.conts.card c

def pickNext : Option (Addr × Sched) :=
 if s.panicFlag then
  some (s.idleProc cpu, s)
 else
  (s.recurGetProc s.rootContainer).map fun found => (found.1.getD (s.idleProc cpu), found.2)

def updateThisProc (p : Addr) : Sched :=
 let c := s.container p
 { s with
   curProc := update s.curProc cpu p
   elapse := update s.elapse cpu (if s.idle p then
     schedMinGranularity
    else
     max schedMinGranularity (s.getSchedLatency c * s.weight p / (s.rq c).weightSum)) }

/-- The end of `simple_sched`, up to the change of the stack. -/
def switchTo (next : Addr) (now : Nat) : Option Sched :=
 if s.state next ≠ .runnable then
  none
 else
  some { s.setState next .running with
   starttime := update s.starttime next now }

def simpleSched (new : ProcState) (now later : Nat) : Option Sched :=
 let this := s.curProc cpu
 if s.killed this ∧ new ≠ .zombie then
  some s
 else if s.state this ≠ .running then
  none
 else
  (s.updateThisState cpu new now).bind fun s =>
   (s.pickNext cpu).bind fun picked =>
    (picked.2.updateThisProc cpu picked.1).switchTo picked.1 later

/-!
# Creation, `kill` and the end of processes
-/

def kill (p : Addr) : Option Sched :=
 if s.state p = .unused then
  some s
 else
  let s := { s with
   killed := update s.killed p true
   prio := update s.prio p 0
   weight := update s.weight p 88761 }
  (s.activateProc cpu p true).map Prod.snd

def initSchinfo (a : Addr) (group : Bool) : Sched :=
 { s with
   prio := update s.prio a 21
   weight := update s.weight a initWeight
   vruntime := update s.vruntime a 0
   starttime := update s.starttime a 0
   isContainer := update s.isContainer a group }

/-- `create_proc`, and the choice of the container that is made before `start_proc`. -/
def createProc (p c : Addr) : Sched :=
 { s.initSchinfo p false with
   killed := update s.killed p false
   idle := update s.idle p false
   state := update s.state p .unused
   container := update s.container p c
   procs := insert p s.procs }

/-- The part of `create_container` before its first process is created. -/
def initContainer (c above : Addr) : Sched :=
 { s.initSchinfo c true with
   rq := update s.rq c CfsRq.init
   parent := update s.parent c above
   conts := insert c s.conts }

def reap (p : Addr) : Sched := { s.setState p .unused with procs := s.procs.erase p }

end OSLab.Kernel.Sched
