import OSLab.Common.Semaphore
import OSLab.Foundation.TransitionSystem
import OSLab.Fs.Layout

/-!
# Atomic operations and their log

The bookkeeping of `cache_begin_op`, `cache_sync` and `cache_end_op`: the
reservation counters, the in-memory log header, the two semaphores of the log
and the places of the threads.

A critical section under `log_lock` is one step, except where the committing
thread, which works without that lock, could tell the difference: a thread in
`cache_begin_op` that has decided to wait still holds `log_lock` when it goes to
sleep, but `log.committing` may be cleared and `log_sem` posted in between.

What `checkpoint` does to the device is described elsewhere; of its effects only
the reset of `header.num_blocks` concerns the bookkeeping.
-/

namespace OSLab.Fs
open Common Function

/--
`OpContext`.  The field `added` is not in the source: it counts the blocks that
the operation was the first to put into the log.
-/
structure OpContext where
 rm : Nat
 added : Nat
 deriving DecidableEq

inductive OpPc where
 | outside
 | beginWaiting
 | beginAsleep
 | beginWoken
 | running (ctx : OpContext)
 | endAsleep
 | endWoken
 | checkpoint
 | reset
 | postCommit
 | postLog
 deriving DecidableEq

namespace OpPc

def ctx? : OpPc -> Option OpContext
 | running ctx => some ctx
 | _ => none

def commits : OpPc -> Bool
 | checkpoint | reset => true
 | _ => false

def wake : OpPc -> OpPc
 | beginAsleep => beginWoken
 | endAsleep => endWoken
 | pc => pc

@[simp] theorem wake_ctx? (pc : OpPc) : pc.wake.ctx? = pc.ctx? := by
 cases pc <;> rfl

@[simp] theorem wake_commits (pc : OpPc) : pc.wake.commits = pc.commits := by
 cases pc <;> rfl

end OpPc

namespace LogHeader

def logged (header : LogHeader) (no : BlockNo) : Bool :=
 (List.range header.numBlocks).any (fun i => header.blockNo i == no)

def push (header : LogHeader) (no : BlockNo) : LogHeader where
 numBlocks := header.numBlocks + 1
 blockNo := update header.blockNo header.numBlocks no

theorem logged_iff {header : LogHeader} {no : BlockNo} : header.logged no ↔
    exists i, i < header.numBlocks ∧ header.blockNo i = no := by
 simp [logged]

end LogHeader

/--
`struct LOG` with the in-memory log header and the places of the threads.  The
field `logLock` names the thread that keeps `log_lock` between two steps.

The last three fields before `panicked` are not in the source.  They number the
commits, name the commit that an ended operation belongs to, and list the
threads between `log.committing = false` and the post of `log_commit_sem`.
-/
structure LogState where
 maxSize : Nat
 outstanding : Int
 logUsed : Int
 committing : Bool
 logLock : Option Tid
 logSem : Semaphore Tid
 logCommitSem : Semaphore Tid
 header : LogHeader
 op : Tid -> OpPc
 batch : Nat
 batchOf : Tid -> Nat
 posting : List Tid
 panicked : Bool

namespace LogState

def wakeAll (op : Tid -> OpPc) (woken : List Tid) : Tid -> OpPc :=
 fun t => if t ∈ woken then (op t).wake else op t

variable (s : LogState)

def mustWait : Bool :=
 s.committing || decide ((s.maxSize : Int) < s.logUsed + s.header.numBlocks + opMaxNumBlocks)

variable (t : Tid)

def beginRound : LogState :=
 if s.mustWait then
  { s with
    logLock := some t
    op := update s.op t .beginWaiting }
 else
  { s with
    outstanding := s.outstanding + 1
    logUsed := s.logUsed + opMaxNumBlocks
    op := update s.op t
     (.running { rm := opMaxNumBlocks, added := 0 }) }

/-- `cache_begin_op`: the first round, or the next one after a sleep. -/
def cacheBeginOp : Option LogState :=
 match s.op t with
 | .outside | .beginWoken => some (s.beginRound t)
 | _ => none

/-- The call of `_wait_sem` in `cache_begin_op`, up to the sleep. -/
def beginWait : Option LogState :=
 if s.op t = .beginWaiting then
  let waited := s.logSem.waitSem t
  some { s with
   logLock := none
   logSem := waited.2
   op := update s.op t (if waited.1 then .beginWoken else .beginAsleep) }
 else
  none

/-- `cache_sync` with a context, for the block number `no`. -/
def cacheSync (no : BlockNo) : Option LogState :=
 match s.op t with
 | .running ctx =>
  if s.header.logged no then
   some s
  else if 0 < ctx.rm then
   some { s with
    header := s.header.push no
    logUsed := s.logUsed - 1
    op := update s.op t
     (.running { rm := ctx.rm - 1, added := ctx.added + 1 }) }
  else
   -- the entry is written before the check that leads to `PANIC`
   some { s with
    header := { s.header with
     blockNo := update s.header.blockNo s.header.numBlocks no }
    panicked := true }
 | _ => none

/-- `cache_end_op` up to `checkpoint` or up to the sleep. -/
def cacheEndOp : Option LogState :=
 match s.op t with
 | .running ctx =>
  if s.outstanding - 1 = 0 then
   some { s with
    outstanding := s.outstanding - 1
    logUsed := s.logUsed - ctx.rm
    committing := true
    batchOf := update s.batchOf t s.batch
    op := update s.op t .checkpoint }
  else
   let posted := s.logSem.postAllSem
   let waited := s.logCommitSem.waitSem t
   some { s with
    outstanding := s.outstanding - 1
    logUsed := s.logUsed - ctx.rm
    logSem := posted.2
    logCommitSem := waited.2
    batchOf := update s.batchOf t s.batch
    op := update (wakeAll s.op posted.1) t (if waited.1 then .endWoken else .endAsleep) }
 | _ => none

def endReturn : Option LogState :=
 if s.op t = .endWoken then
  some { s with op := update s.op t .outside }
 else
  none

/-- `header.num_blocks = 0`; an empty log leaves `checkpoint` at once. -/
def resetHeader : Option LogState :=
 if s.op t = .checkpoint then
  some { s with
   header := { s.header with numBlocks := 0 }
   op := update s.op t .reset }
 else
  none

def clearCommitting : Option LogState :=
 if s.op t = .reset then
  some { s with
   committing := false
   batch := s.batch + 1
   posting := t :: s.posting
   op := update s.op t .postCommit }
 else
  none

def postCommit (s : LogState) (t : Tid) : Option LogState :=
 if s.op t = .postCommit then
  let posted := s.logCommitSem.postAllSem
  some { s with
   logCommitSem := posted.2
   posting := s.posting.erase t
   op := update (wakeAll s.op posted.1) t .postLog }
 else
  none

/-- `post_all_sem(&log.log_sem)`, after which `cache_end_op` returns. -/
def postLog (s : LogState) (t : Tid) : Option LogState :=
 if s.op t = .postLog then
  let posted := s.logSem.postAllSem
  some { s with
   logSem := posted.2
   op := update (wakeAll s.op posted.1) t .outside }
 else
  none

end LogState

inductive LogLabel where
 | beginOp (t : Tid)
 | beginWait (t : Tid)
 | sync (t : Tid) (no : BlockNo)
 | endOp (t : Tid)
 | endReturn (t : Tid)
 | resetHeader (t : Tid)
 | clearCommitting (t : Tid)
 | postCommit (t : Tid)
 | postLog (t : Tid)

namespace LogState

def locked (s : LogState) (next : Option LogState) : Option LogState :=
 if s.logLock = none then next else none

def run (s : LogState) : LogLabel -> Option LogState
 | .beginOp t => s.locked (s.cacheBeginOp t)
 | .beginWait t => s.beginWait t
 | .sync t no => s.locked (s.cacheSync t no)
 | .endOp t => s.locked (s.cacheEndOp t)
 | .endReturn t => s.endReturn t
 | .resetHeader t => s.resetHeader t
 | .clearCommitting t => s.clearCommitting t
 | .postCommit t => s.postCommit t
 | .postLog t => s.postLog t

def step (s : LogState) (l : LogLabel) : Option LogState := if s.panicked then none else s.run l

/-- The log after `init_bcache` on a disk described by `sb`. -/
structure Initial (sb : SuperBlock) (s : LogState) : Prop where
 maxSize : s.maxSize = sb.maxLogSize
 outstanding : s.outstanding = 0
 logUsed : s.logUsed = 0
 committing : s.committing = false
 logLock : s.logLock = none
 logSem : s.logSem = Semaphore.initSem 0
 logCommitSem : s.logCommitSem = Semaphore.initSem 0
 numBlocks : s.header.numBlocks = 0
 op : forall t, s.op t = .outside
 posting : s.posting = []
 panicked : s.panicked = false

def start (sb : SuperBlock) : LogState where
 maxSize := sb.maxLogSize
 outstanding := 0
 logUsed := 0
 committing := false
 logLock := none
 logSem := Semaphore.initSem 0
 logCommitSem := Semaphore.initSem 0
 header := { numBlocks := 0, blockNo := fun _ => 0 }
 op := fun _ => .outside
 batch := 0
 batchOf := fun _ => 0
 posting := []
 panicked := false

theorem start_initial (sb : SuperBlock) : (start sb).Initial sb :=
 ⟨rfl, rfl, rfl, rfl, rfl, rfl, rfl, rfl, fun _ => rfl, rfl, rfl⟩

end LogState

def logSystem (sb : SuperBlock) : Foundation.TransitionSystem LogState LogLabel where
 initial := LogState.Initial sb
 step := LogState.step

end OSLab.Fs
