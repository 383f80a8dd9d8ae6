import OSLab.Fs.Cache.Locking
import OSLab.Fs.Log.Release

/-!
# The block cache with its log

The block list, the bookkeeping of the log and the device put together.  Threads
acquire, change, sync and release blocks inside and outside of operations, and
the last operation of a batch runs `checkpoint` statement by statement while the
others go on.

At most one thread is inside `checkpoint` at any time, so one `Stage` says where
the commit stands.
-/

namespace OSLab.Fs
open Common Foundation Function

/-!
# Devices with a history

The history is not in the source.  It numbers the contents that `cache_sync` was
given for each block and remembers which of them `checkpoint` installed last.
-/

structure Disk where
 dev : Device
 ver : BlockNo -> Nat
 cont : BlockNo -> Nat -> BlockData
 home : BlockNo -> Nat

namespace Disk

def latest (d : Disk) (no : BlockNo) : BlockData := d.cont no (d.ver no)

def record (d : Disk) (no : BlockNo) (data : BlockData) : Disk :=
 { d with
   ver := update d.ver no (d.ver no + 1)
   cont := update d.cont no (update (d.cont no) (d.ver no + 1) data) }

def writeLog (d : Disk) (no : BlockNo) (data : BlockData) : Disk :=
 { d with dev := d.dev.write no data }

def install (d : Disk) (no : BlockNo) (data : BlockData) : Disk :=
 { d with
   dev := d.dev.write no data
   home := update d.home no (d.ver no) }

end Disk

inductive Stage where
 | idle
 | start
 | toLog (i : Nat)
 | toLogAcquiring (i : Nat)
 | toLogHave (i : Nat) (a : Addr)
 | toLogWritten (i : Nat) (a : Addr)
 | toLogUnpinned (i : Nat) (a : Addr)
 | persist (i : Nat)
 | persistRead (i : Nat) (data : BlockData)
 | persistAcquiring (i : Nat) (data : BlockData)
 | persistHave (i : Nat) (data : BlockData) (a : Addr)
 | persistCopied (i : Nat) (a : Addr)
 | persistWritten (i : Nat) (a : Addr)
 | clear
 | done

/--
The state of the whole.  The last two fields are not in the source: the blocks
that were changed since their last sync, and what each open operation has synced
so far, by block number and number of the contents.
-/
structure CommitState where
 cache : CacheState
 log : LogState
 disk : Disk
 stage : Stage
 dirty : Addr -> Bool
 syncs : Tid -> List (BlockNo × Nat)

namespace Stage

def got (stage : Stage) (cache : CacheState) (t : Tid) : Stage :=
 match cache.pc t, cache.held t with
 | .idle, a :: _ =>
  match stage with
  | toLogAcquiring i => toLogHave i a
  | persistAcquiring i data => persistHave i data a
  | other => other
 | _, _ => stage

end Stage

inductive CommitLabel where
 | acquire (t : Tid) (no : BlockNo) (fresh : Addr)
 | wait (t : Tid)
 | back (t : Tid) (fresh : Addr)
 | release (t : Tid) (a : Addr)
 | modify (t : Tid) (a : Addr) (data : BlockData)
 | beginOp (t : Tid)
 | beginWait (t : Tid)
 | sync (t : Tid) (a : Addr)
 | endOp (t : Tid)
 | endReturn (t : Tid)
 | checkpoint (t : Tid) (fresh : Addr)
 | clearCommitting (t : Tid)
 | postCommit (t : Tid)
 | postLog (t : Tid)

namespace CommitState
variable (s : CommitState)

def userCode (t : Tid) : Bool :=
 match s.log.op t with
 | .outside | .running _ => true
 | _ => false

def withCache (l : CacheLabel) : Option CommitState :=
 (s.cache.step l).map fun cache => { s with cache := cache }

def withLog (l : LogLabel) : Option CommitState :=
 (s.log.step l).map fun log => { s with log := log }

def back (s : CommitState) (t : Tid) (fresh : Addr) : Option CommitState :=
 match CacheState.backTarget (s.cache.pc t) with
 | some no =>
  (s.cache.step (.back t fresh (s.disk.dev no))).map fun cache =>
   { s with
     cache := cache
     stage := if (s.log.op t).commits then s.stage.got cache t else s.stage }
 | none => none

/-- `cache_sync` with a context, for a block that the thread holds. -/
def sync (s : CommitState) (t : Tid) (a : Addr) : Option CommitState :=
 let no := (s.cache.heap a).blockNo
 if s.cache.pc t = .idle ∧ a ∈ s.cache.held t then
  match s.log.step (.sync t no), (if s.log.header.logged no then some s.cache
    else s.cache.step (.setPinned t a true)) with
  | some log, some cache =>
   some { s with
    log := log
    cache := cache
    disk := s.disk.record no (s.cache.heap a).data
    dirty := update s.dirty a false
    syncs := update s.syncs t ((no, s.disk.ver no + 1) :: s.syncs t) }
  | _, _ => none
 else
  none

/-- `cache_end_op`; the last operation of the batch enters `checkpoint`. -/
def endOp (s : CommitState) (t : Tid) : Option CommitState :=
 if s.cache.pc t = .idle then
  (s.log.step (.endOp t)).map fun log =>
   { s with
     log := log
     stage := if log.op t = .checkpoint then .start else s.stage }
 else
  none

/-- The call of `cache_acquire` in a loop of `checkpoint`. -/
def acquireEntry (t : Tid) (i : Nat) (fresh : Addr) (acquiring : Stage) : Option CommitState :=
 let no := s.log.header.blockNo i
 (s.cache.step (.acquire t no fresh (s.disk.dev no))).map fun cache =>
  { s with cache := cache, stage := acquiring.got cache t }

variable (sb : SuperBlock)
variable (s : CommitState)

/-- The next statement of `checkpoint`, `write_block_to_log` or `persist_from_log`. -/
def checkpointStep (t : Tid) (fresh : Addr) : Option CommitState :=
 match s.stage with
 | .start =>
  if s.log.header.numBlocks = 0 then
   (s.log.step (.resetHeader t)).map fun log =>
    { s with log := log, stage := .done }
  else
   some { s with stage := .toLog 0 }
 | .toLog i =>
  if i < s.log.header.numBlocks then
   s.acquireEntry t i fresh (.toLogAcquiring i)
  else
   -- the first `write_header`
   some { s with
    disk := s.disk.writeLog sb.headerBlock s.log.header.encode
    stage := .persist 0 }
 | .toLogHave i a =>
  some { s with
   disk := s.disk.writeLog (sb.logSlot i) (s.cache.heap a).data
   stage := .toLogWritten i a }
 | .toLogWritten i a =>
  (s.cache.step (.setPinned t a false)).map fun cache =>
   { s with cache := cache, stage := .toLogUnpinned i a }
 | .toLogUnpinned i a =>
  (s.cache.step (.release t a)).map fun cache =>
   { s with cache := cache, stage := .toLog (i + 1) }
 | .persist i =>
  if i < s.log.header.numBlocks then
   some { s with
    stage := .persistRead i (s.disk.dev (sb.logSlot i)) }
  else
   (s.log.step (.resetHeader t)).map fun log =>
    { s with log := log, stage := .clear }
 | .persistRead i data => s.acquireEntry t i fresh (.persistAcquiring i data)
 | .persistHave i data a =>
  (s.cache.step (.setData t a data)).map fun cache =>
   { s with cache := cache, stage := .persistCopied i a }
 | .persistCopied i a =>
  some { s with
   disk := s.disk.install (s.cache.heap a).blockNo (s.cache.heap a).data
   stage := .persistWritten i a }
 | .persistWritten i a =>
  (s.cache.step (.release t a)).map fun cache =>
   { s with cache := cache, stage := .persist (i + 1) }
 | .clear =>
  -- the second `write_header`
  some { s with
   disk := s.disk.writeLog sb.headerBlock s.log.header.encode
   stage := .done }
 | _ => none

def clearCommitting (s : CommitState) (t : Tid) : Option CommitState :=
 match s.stage with
 | .done =>
  (s.log.step (.clearCommitting t)).map fun log =>
   { s with log := log, stage := .idle }
 | _ => none

def step : CommitLabel -> Option CommitState
 | .acquire t no fresh =>
  if s.userCode t then
   s.withCache (.acquire t no fresh (s.disk.dev no))
  else
   none
 | .wait t => s.withCache (.wait t)
 | .back t fresh => s.back t fresh
 | .release t a => if s.userCode t then s.withCache (.release t a) else none
 | .modify t a data =>
  if s.userCode t then
   (s.withCache (.setData t a data)).map fun next =>
    { next with dirty := update s.dirty a true }
  else
   none
 | .beginOp t =>
  if s.cache.pc t = .idle then
   (s.withLog (.beginOp t)).map fun next =>
    { next with syncs := update s.syncs t [] }
  else
   none
 | .beginWait t => s.withLog (.beginWait t)
 | .sync t a => s.sync t a
 | .endOp t => s.endOp t
 | .endReturn t => s.withLog (.endReturn t)
 | .checkpoint t fresh => if (s.log.op t).commits then s.checkpointStep sb t fresh else none
 | .clearCommitting t => s.clearCommitting t
 | .postCommit t => s.withLog (.postCommit t)
 | .postLog t => s.withLog (.postLog t)

/-!
# Clients

The discipline of the callers: blocks are changed inside operations only, are
synced before they are released and before the operation ends, and lie outside
the log area; an operation stays within its budget.
-/

def client : CommitLabel -> Bool
 | .modify t _ _ => (s.log.op t).ctx?.isSome
 | .release _ a => !s.dirty a
 | .sync t a =>
  !decide (sb.InLog (s.cache.heap a).blockNo) &&
   s.log.withinBudget (.sync t (s.cache.heap a).blockNo)
 | .endOp t => (s.cache.held t).all fun a => !s.dirty a
 | _ => true

def Client (l : CommitLabel) : Prop := s.client sb l = true

instance (sb : SuperBlock) (s : CommitState) (l : CommitLabel) : Decidable (s.Client sb l) :=
 inferInstanceAs (Decidable (s.client sb l = true))

/-- The state after `init_bcache`, on any disk whose log is empty. -/
structure Initial (sb : SuperBlock) (s : CommitState) : Prop where
 cache : s.cache.Initial
 log : s.log.Initial sb
 header : (LogHeader.decode (s.disk.dev sb.headerBlock)).numBlocks = 0
 ver : forall no, s.disk.ver no = 0
 home : forall no, s.disk.home no = 0
 cont : forall no, s.disk.cont no 0 = s.disk.dev no
 stage : s.stage = .idle
 dirty : forall a, s.dirty a = false
 syncs : forall t, s.syncs t = []

def boot (dev : Device) : CommitState where
 cache := CacheState.empty
 log := LogState.start sb
 disk := { dev := dev, ver := fun _ => 0, cont := fun no _ => dev no,
           home := fun _ => 0 }
 stage := .idle
 dirty := fun _ => false
 syncs := fun _ => []

theorem boot_initial {sb : SuperBlock} {dev : Device}
  (h : (LogHeader.decode (dev sb.headerBlock)).numBlocks = 0) :
  (boot sb dev).Initial sb where
 cache := CacheState.empty_initial
 log := LogState.start_initial sb
 header := h
 ver := fun _ => rfl
 home := fun _ => rfl
 cont := fun _ => rfl
 stage := rfl
 dirty := fun _ => rfl
 syncs := fun _ => rfl

end CommitState

def commitSystem (sb : SuperBlock) : TransitionSystem CommitState CommitLabel where
 initial := CommitState.Initial sb
 step := CommitState.step sb

def zeroDevice : Device := fun _ _ => 0

theorem zeroDevice_log_empty :
  (LogHeader.decode (zeroDevice mkfsLayout.headerBlock)).numBlocks = 0 := by
 decide +kernel

end OSLab.Fs
