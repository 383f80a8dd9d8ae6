import OSLab.Foundation.Loop
import OSLab.Fs.Inode.Format
import OSLab.Fs.Pipe.Machine

/-!
# Open files

The file table of `fs/file.c`, the descriptors of the processes, and the system calls
that open, share and close files, one call at a time.  What the calls ask of the inode
layer and the log is written down and left to them; the inode that a path leads to is
part of the call.

A slot of the file table is taken again without being cleared, so it still has the
permissions and pointers of the file that it was used for before.
-/

namespace OSLab.Fs
open Foundation Function

def nfile : Nat := 1024

def nofile : Nat := 128

def rootInodeNo : Nat := 1

abbrev Pid := Nat

inductive FileType where
 | none
 | pipe
 | inode
 deriving DecidableEq

structure File where
 type : FileType
 ref : Int
 readable : Bool
 writable : Bool
 pipe : Option Nat
 ip : Option Nat
 off : UInt64

structure PipeEnds where
 readopen : Bool
 writeopen : Bool
 deriving DecidableEq

inductive InodeCall where
 | beginOp
 | endOp
 | got (ip : Nat)
 | lock (ip : Nat)
 | unlock (ip : Nat)
 | share (ip : Option Nat)
 | put (ip : Option Nat)
 deriving DecidableEq

/--
The file table, the descriptors and working directories of the processes, and the
pipes that are allocated.  The last two fields are not in the source: for a slot that
`pipeAlloc` has made an end of a pipe, which end it is, and the calls into the inode
layer that the system call has made so far.
-/
structure Files where
 file : Nat -> File
 fds : Pid × Nat -> Option Nat
 cwd : Pid -> Option Nat
 live : Pid -> Bool
 pipes : Nat -> Option PipeEnds
 role : Nat -> PipeSide
 calls : List InodeCall

namespace Files

def firstIndex (test : Nat -> Bool) (bound : Nat) : Option Nat := (List.range bound).find? test

variable (s : Files)

def setFile (f : Nat) (file : File) : Files := { s with file := update s.file f file }

def setFd (k : Pid × Nat) (f : Option Nat) : Files := { s with fds := update s.fds k f }

def ask (more : List InodeCall) : Files := { s with calls := s.calls ++ more }

/-!
# The file table
-/

def freeSlot : Option Nat := firstIndex (fun i => decide ((s.file i).ref = 0)) nfile

def take (f : Nat) : Files := s.setFile f { s.file f with ref := 1 }

/-- `filealloc`, which returns `NULL` when every slot is in use. -/
def filealloc : Option Nat × Files :=
 match s.freeSlot with
 | some f => (some f, s.take f)
 | none => (none, s)

def filedup (f : Nat) : Files := s.setFile f { s.file f with ref := (s.file f).ref + 1 }

/-- `pipeClose`; a pipe that is not allocated cannot be used. -/
def pipeClose (pi : Option Nat) (writable : Bool) : Option Files := do
 let pi <- pi
 let ends <- s.pipes pi
 let ends := if writable then { ends with writeopen := false } else { ends with readopen := false }
 if ends.writeopen = false ∧ ends.readopen = false then
  some { s with pipes := update s.pipes pi none }
 else
  some { s with pipes := update s.pipes pi (some ends) }

/-- `fileclose` up to the release of `ftable.lock`, with the copy `temp` of a file that is freed. -/
def fileRelease (f : Nat) : Option (Option File × Files) :=
 if (s.file f).type = .none then
  none
 else if (s.file f).ref - 1 ≤ 0 then
  some (some { s.file f with ref := (s.file f).ref - 1 },
   s.setFile f { s.file f with ref := 0, type := .none })
 else
  some (none, s.setFile f { s.file f with ref := (s.file f).ref - 1 })

/--
The rest of `fileclose`.  The pipe and its side are read from the slot, which is free by
now; `inodes.put` of a null pointer stops the kernel.
-/
def fileFinish (f : Nat) (temp : File) : Option Files :=
 (if temp.type = .pipe then s.pipeClose (s.file f).pipe (s.file f).writable else some s).bind
  fun closed => if temp.ip.isNone then none else some (closed.ask [.beginOp, .put temp.ip, .endOp])

def fileclose (f : Nat) : Option Files :=
 (s.fileRelease f).bind fun released =>
  match released with
  | (none, next) => some next
  | (some temp, freed) => freed.fileFinish f temp

/-!
# Descriptors
-/

def freeFd (p : Pid) : Option Nat := firstIndex (fun i => (s.fds (p, i)).isNone) nofile

/-- `fdalloc`, which returns `-1` when every descriptor is in use. -/
def fdalloc (p : Pid) (f : Nat) : Option Nat × Files :=
 match s.freeFd p with
 | some fd => (some fd, s.setFd (p, fd) (some f))
 | none => (none, s)

def inRange (fd : Int) : Bool := decide (0 ≤ fd) && decide (fd < nofile)

def fd2file (p : Pid) (fd : Int) : Option Nat :=
 if inRange fd then s.fds (p, fd.toNat) else none

/-!
# System calls

Each of them returns the value that the process gets and the state afterwards.  A
failed assertion and the use of a pointer that is `NULL` stop the kernel.
-/

def dup (p : Pid) (fd : Int) : Option (Int × Files) :=
 match s.fd2file p fd with
 | none => some (-1, s)
 | some f =>
  match s.fdalloc p f with
  | (none, next) => some (-1, next)
  | (some fd, next) => some (fd, next.filedup f)

def close (p : Pid) (fd : Int) : Option (Int × Files) :=
 if inRange fd then
  match s.fds (p, fd.toNat) with
  | none => none
  | some f => ((s.setFd (p, fd.toNat) none).fileclose f).map fun next => (0, next)
 else
  some (-1, s)

def oWronly : BitVec 32 := 1

def oRdwr : BitVec 32 := 2

def opened (file : File) (ip : Nat) (omode : BitVec 32) : File :=
 { file with
   type := .inode
   ip := some ip
   off := 0
   readable := !decide (omode &&& oWronly ≠ 0)
   writable := decide (omode &&& oWronly ≠ 0) || decide (omode &&& oRdwr ≠ 0) }

/-- `sys_openat`, after `create` or `namei` has returned an inode or `NULL`. -/
def openat (p : Pid) (found : Option Nat) (omode : BitVec 32) : Option (Int × Files) :=
 match found with
 | none => some (-1, s.ask [.beginOp, .endOp])
 | some ip =>
  match (s.ask [.beginOp, .got ip, .lock ip]).filealloc with
  | (none, next) => some (-1, next.ask [.unlock ip, .put (some ip), .endOp])
  | (some f, next) =>
   match next.fdalloc p f with
   | (none, next) =>
    (next.fileclose f).map fun closed =>
     (-1, closed.ask [.unlock ip, .put (some ip), .endOp])
   | (some fd, next) =>
    let unlocked := next.ask [.unlock ip, .endOp]
    some (fd, unlocked.setFile f (opened (unlocked.file f) ip omode))

def readEnd (file : File) (pi : Nat) : File :=
 { file with
   pipe := some pi
   type := .pipe
   readable := true }

def writeEnd (file : File) (pi : Nat) : File :=
 { file with
   pipe := some pi
   type := .pipe
   writable := true }

/-- The rest of `pipeAlloc`, after the memory for the pipe is allocated. -/
def initPipe (f0 f1 pi : Nat) : Files :=
 let first := s.setFile f0 (readEnd (s.file f0) pi)
 let second := first.setFile f1 (writeEnd (first.file f1) pi)
 { second with
   pipes := update second.pipes pi (some { readopen := true, writeopen := true })
   role := update (update second.role f0 .read) f1 .write }

def pipeAlloc (memory : Option Nat) : Option (Option (Nat × Nat) × Files) :=
 match s.filealloc with
 | (none, s1) => some (none, s1.filealloc.2)
 | (some f0, s1) =>
  match s1.filealloc with
  | (none, s2) => some (none, s2)
  | (some f1, s2) =>
   match memory with
   | none => do
    let s3 <- s2.fileclose f0
    let s4 <- s3.fileclose f1
    some (none, s4)
   | some pi => some (some (f0, f1), s2.initPipe f0 f1 pi)

/-- `sys_pipe2`; its result tells whether the call has succeeded. -/
def pipe2 (p : Pid) (memory : Option Nat) : Option (Int × Files) :=
 match s.pipeAlloc memory with
 | none => none
 | some (none, s1) => some (-1, s1)
 | some (some (f0, f1), s1) =>
  match s1.fdalloc p f0 with
  | (none, s2) =>
   match s2.fdalloc p f1 with
   | (none, s3) => some (-1, s3)
   | (some fd1, s3) => (s3.close p fd1).map fun closed => (-1, closed.2)
  | (some fd0, s2) =>
   match s2.fdalloc p f1 with
   | (none, s3) => (s3.close p fd0).map fun closed => (-1, closed.2)
   | (some _, s3) => some (0, s3)

/-- `sys_chdir`, with the inode that `namei` has returned and whether it is a directory. -/
def chdir (p : Pid) (found : Option (Nat × Bool)) : Option (Int × Files) :=
 match found with
 | none => some (-1, s.ask [.beginOp, .endOp])
 | some (ip, isDirectory) =>
  let s1 := s.ask [.beginOp, .got ip, .lock ip, .unlock ip]
  if isDirectory then
   some (0, { s1.ask [.put (s.cwd p), .endOp] with
    cwd := update s.cwd p (some ip) })
  else
   some (-1, s1.ask [.put (some ip), .endOp])

/-- A round of the loop of `fork` over the descriptors. -/
def copyFd (p child : Pid) (s : Files) (i : Nat) : Files :=
 match s.fds (p, i) with
 | none => s
 | some f => (s.filedup f).setFd (child, i) (some f)

def fork (p child : Pid) : Files :=
 let created := { s.ask [.share (s.cwd p)] with
  live := update s.live child true
  cwd := update s.cwd child (s.cwd p) }
 (List.range nofile).foldl (copyFd p child) created

/-- A round of the loop of `exit` over the descriptors. -/
def closeFd (p : Pid) (s : Files) (i : Nat) : Option Files :=
 match s.fds (p, i) with
 | none => some s
 | some f => (s.fileclose f).map fun next => next.setFd (p, i) none

def exit (p : Pid) : Option Files :=
 ((List.range nofile).foldlM (closeFd p) s).map fun next =>
  { next.ask [.beginOp, .put (s.cwd p), .endOp] with
    live := update s.live p false
    cwd := update s.cwd p none }

/-!
# The system
-/

end Files

inductive FileLabel where
 | openat (p : Pid) (found : Option Nat) (omode : BitVec 32)
 | dup (p : Pid) (fd : Int)
 | close (p : Pid) (fd : Int)
 | pipe2 (p : Pid) (memory : Option Nat)
 | chdir (p : Pid) (found : Option (Nat × Bool))
 | fork (p child : Pid)
 | exit (p : Pid)
 deriving DecidableEq

namespace FileLabel

def caller : FileLabel -> Pid
 | openat p _ _ | dup p _ | close p _ | pipe2 p _ | chdir p _ | fork p _ | exit p => p

end FileLabel

namespace Files

/--
What is certain about a call: the process exists, a child is new, and memory that
`kalloc` returns is not in use.
-/
def possible (s : Files) (l : FileLabel) : Bool :=
 s.live l.caller && match l with
  | .pipe2 _ (some pi) => (s.pipes pi).isNone
  | .fork _ child => !s.live child
  | _ => true

def call (s : Files) : FileLabel -> Option (Int × Files)
 | .openat p found omode => s.openat p found omode
 | .dup p fd => s.dup p fd
 | .close p fd => s.close p fd
 | .pipe2 p memory => s.pipe2 p memory
 | .chdir p found => s.chdir p found
 | .fork p child => some (child, s.fork p child)
 | .exit p => if p = 0 then none else (s.exit p).map fun next => (0, next)

def step (s : Files) (l : FileLabel) : Option Files :=
 if s.possible l then
  (({ s with calls := [] } : Files).call l).map Prod.snd
 else
  none

def blank : File where
 type := .none
 ref := 0
 readable := false
 writable := false
 pipe := none
 ip := none
 off := 0

def boot : Files where
 file := fun _ => blank
 fds := fun _ => none
 cwd := fun p => if p = 0 then some rootInodeNo else none
 live := fun p => decide (p = 0)
 pipes := fun _ => none
 role := fun _ => .read
 calls := []

end Files

def filesSystem : TransitionSystem Files FileLabel where
 initial := fun s => s = Files.boot
 step := Files.step

end OSLab.Fs
