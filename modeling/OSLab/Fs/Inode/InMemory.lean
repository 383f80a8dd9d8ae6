import OSLab.Foundation.TransitionSystem
import OSLab.Fs.Inode.Format

/-!
# The list of in-memory inodes

`inode_get`, `inode_share` and `inode_put` of `fs/inode.c` for any number of threads.  What
happens between two releases of a lock is one step.  A reference is known by a number, as
if each had a variable of its own, and what a thread has still to do in a call is written
down with the reference that the call concerns.  A node whose count is zero stays in the
list.
-/

namespace OSLab.Fs
open Foundation Function

/-- `Inode`, without the links of the list; the sleep lock is taken or not. -/
structure MemInode where
 inodeNo : Nat
 rc : Int
 valid : Bool
 locked : Bool
 entry : InodeEntry

inductive InodeUse where
 | unused
 | creating (a : Nat)
 | loaded (a : Nat)
 | checking (a : Nat)
 | held (a : Nat)
 | clearing (a : Nat)
 | erasing (a : Nat)
 | ending (a : Nat)
 deriving DecidableEq

namespace InodeUse

def counted : InodeUse -> Option Nat
 | creating a | loaded a | checking a | held a => some a
 | _ => none

def opening : InodeUse -> Option Nat
 | creating a | loaded a => some a
 | _ => none

def freeing : InodeUse -> Option Nat
 | clearing a | erasing a | ending a => some a
 | _ => none

end InodeUse

/--
The list, the nodes by their addresses, the addresses in use, the entries on disk, and
the references.
-/
structure InodeList where
 numInodes : Nat
 list : List Nat
 node : Nat -> MemInode
 used : Nat -> Bool
 disk : Nat -> InodeEntry
 ref : Nat -> InodeUse

namespace InodeList
variable (s : InodeList)

def setNode (a : Nat) (node : MemInode) : InodeList :=
 { s with node := update s.node a node }

def setRef (k : Nat) (use : InodeUse) : InodeList :=
 { s with ref := update s.ref k use }

def inodeSync (a : Nat) (doWrite : Bool) : InodeList :=
 let inode := s.node a
 if inode.valid && doWrite then
  { s with disk := update s.disk inode.inodeNo inode.entry }
 else if inode.valid = false then
  s.setNode a { inode with valid := true, entry := s.disk inode.inodeNo }
 else
  s

def find (s : InodeList) (inodeNo : Nat) : Option Nat :=
 s.list.find? fun a => decide ((s.node a).inodeNo = inodeNo) && decide (0 < (s.node a).rc)

/-- A node after `init_inode`, with its number, its first reference and its lock taken. -/
def created (node : MemInode) (inodeNo : Nat) : MemInode :=
 { node with inodeNo := inodeNo, rc := 1, valid := false, locked := true }

/--
`inode_get` up to the release of the spinlock; `memory` is what `kalloc` returns.
-/
def get (k inodeNo memory : Nat) : Option InodeList :=
 if 0 < inodeNo ∧ inodeNo < s.numInodes ∧ s.ref k = .unused then
  match s.find inodeNo with
  | some a => some ((s.setNode a { s.node a with rc := (s.node a).rc + 1 }).setRef k (.checking a))
  | none =>
   if s.used memory then
    none
   else
    some { (s.setNode memory (created (s.node memory) inodeNo)).setRef k
     (.creating memory) with
     list := memory :: s.list
     used := update s.used memory true }
 else
  none

def share (j k : Nat) : Option InodeList :=
 match s.ref j with
 | .held a =>
  if s.ref k = .unused then
   some ((s.setNode a { s.node a with rc := (s.node a).rc + 1 }).setRef k (.held a))
  else
   none
 | _ => none

def lastUnlinked (inode : MemInode) : Bool :=
 decide (inode.rc = 1) && decide (inode.entry.numLinks = 0) && inode.valid

def put (k : Nat) : Option InodeList :=
 match s.ref k with
 | .held a =>
  if lastUnlinked (s.node a) then
   if (s.node a).locked then
    none
   else
    some { (s.setNode a { s.node a with locked := true }).setRef k
     (.clearing a) with
     list := s.list.erase a }
  else
   some ((s.setNode a { s.node a with rc := (s.node a).rc - 1 }).setRef k .unused)
 | _ => none

/-- The entry after `inode_clear`; the blocks of the inode are left to the block cache. -/
def cleared (entry : InodeEntry) : InodeEntry :=
 { entry with addrs := fun _ => 0, indirect := 0, numBytes := 0 }

def proceed (k : Nat) : Option InodeList :=
 match s.ref k with
 | .creating a => some ((s.inodeSync a false).setRef k (.loaded a))
 | .loaded a =>
  if 0 < (s.node a).rc then
   some ((s.setNode a { s.node a with locked := false }).setRef k (.held a))
  else
   none
 | .checking a =>
  if 0 < (s.node a).rc ∧ (s.node a).locked = false then
   some (s.setRef k (.held a))
  else
   none
 | .clearing a =>
  some (((s.setNode a { s.node a with entry := cleared (s.node a).entry }).inodeSync a
   true).setRef k (.erasing a))
 | .erasing a =>
  some (((s.setNode a { s.node a with
   entry := { (s.node a).entry with type := inodeInvalid } }).inodeSync a true).setRef k
   (.ending a))
 | .ending a =>
  some { (s.setNode a { s.node a with valid := false, locked := false }).setRef k
   .unused with
   used := update s.used a false }
 | _ => none

/-- A change of `num_links` by somebody with a reference, under the lock of the inode. -/
def relink (k : Nat) (links : UInt16) : Option InodeList :=
 match s.ref k with
 | .held a =>
  if (s.node a).locked then
   none
  else
   some ((s.setNode a { s.node a with
    entry := { (s.node a).entry with numLinks := links } }).inodeSync a true)
 | _ => none

end InodeList

inductive InodeListLabel where
 | get (k inodeNo memory : Nat)
 | share (j k : Nat)
 | put (k : Nat)
 | proceed (k : Nat)
 | relink (k : Nat) (links : UInt16)
 deriving DecidableEq

namespace InodeList

def step (s : InodeList) : InodeListLabel -> Option InodeList
 | .get k inodeNo memory => s.get k inodeNo memory
 | .share j k => s.share j k
 | .put k => s.put k
 | .proceed k => s.proceed k
 | .relink k links => s.relink k links

structure Start (s : InodeList) : Prop where
 list : s.list = []
 used : forall a, s.used a = false
 ref : forall k, s.ref k = .unused

end InodeList

def inodeListSystem : TransitionSystem InodeList InodeListLabel where
 initial := InodeList.Start
 step := InodeList.step

end OSLab.Fs
