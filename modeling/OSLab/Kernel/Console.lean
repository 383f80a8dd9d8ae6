import OSLab.Common.RawSemaphore
import OSLab.Foundation.Loop
import OSLab.Foundation.TransitionSystem

/-!
# The console

`console_read` and `console_intr` of `kernel/console.c` for any number of readers.  What
happens between taking and releasing `input.lock` is one step; `console_intr` takes a step
for every character.  `console_read` calls `_wait_sem` without the lock of the semaphore, so
others may change the semaphore between the reading of its value and the writing.  The
echo is left out.

Beside the state there is a record of the line as its user has edited it, of the input that
was committed, of the bytes that readers have taken, and of the number of bytes that were
taken by calls that returned -1.
-/

namespace OSLab.Kernel
open Common Foundation

def inputBuf : Nat := 128

/-- `C('D')` and the other characters that `console_intr` looks at. -/
def ctrlD : UInt8 := 4

def ctrlU : UInt8 := 21

def ctrlC : UInt8 := 3

def backspace : UInt8 := 127

def newline : UInt8 := 10

def carriageReturn : UInt8 := 13

def usizePred (x : Nat) : Nat := if x = 0 then 18446744073709551615 else x - 1

structure Input where
 buf : Nat -> UInt8
 r : Nat
 w : Nat
 e : Nat

namespace Input

/-!
# `console_intr`
-/

variable (s : Input)

def isFull : Bool := decide ((s.e + 1) % inputBuf = s.r)

def eraseLast : Input := { s with e := usizePred s.e % inputBuf }

def store (c : UInt8) : Input :=
 { s with
   e := (s.e + 1) % inputBuf
   buf := Function.update s.buf ((s.e + 1) % inputBuf) c }

def commit : Input := { s with w := s.e }

def killRound : Option (Round Input Input) :=
 if s.e ≠ s.w ∧ s.buf (usizePred s.e % inputBuf) ≠ newline then
  some (.again s.eraseLast)
 else
  some (.done s)

/-- The loop for `C('U')`; the ring is passed once at most. -/
def killLine : Option Input := loop killRound (inputBuf + 1) s

def unread : List UInt8 :=
 if s.r = s.w then
  []
 else
  (List.range ((s.w + 127 - s.r % inputBuf) % inputBuf + 1)).map fun i =>
   s.buf ((s.r + 1 + i) % inputBuf)

/-!
# `console_read`
-/

/-- The part of the loop after the test and the wait: what is taken, and whether to stop. -/
def takeChar (first : Bool) : Input × Option UInt8 × Bool :=
 let r := (s.r + 1) % inputBuf
 if s.buf r = ctrlD then
  ({ s with r := if first then r else usizePred r }, none, true)
 else
  ({ s with r := r }, some (s.buf r), decide (s.buf r = newline))

/-- The loop with `n` bytes to go: the bytes taken, and how many are missing if it waits. -/
def readLoop (target : Nat) : Nat -> Input -> Input × List UInt8 × Option Nat
 | 0, s => (s, [], none)
 | n + 1, s =>
  if s.r = s.w then
   (s, [], some (n + 1))
  else
   let taken := s.takeChar (decide (n + 1 = target))
   if taken.2.2 then
    (taken.1, taken.2.1.toList, none)
   else
    let rest := readLoop target n taken.1
    (rest.1, taken.2.1.toList ++ rest.2.1, rest.2.2)

/-- The loop after a wait, which does not look at `w` again. -/
def readOn (target n : Nat) (s : Input) : Input × List UInt8 × Option Nat :=
 let taken := s.takeChar (decide (n = target))
 if taken.2.2 then
  (taken.1, taken.2.1.toList, none)
 else
  let rest := readLoop target (n - 1) taken.1
  (rest.1, taken.2.1.toList ++ rest.2.1, rest.2.2)

end Input

/--
Where a process is in `console_read`, with the bytes to go and the bytes asked for.  In
`_wait_sem` it reads the value of the semaphore first.
-/
inductive Reader where
 | outside
 | waiting (n target : Nat)
 | loaded (n target : Nat) (val : Int)
 | asleep (n target : Nat)
 | resumed (n target : Nat)
 | returned (r : Nat)
 | failed
deriving DecidableEq

def Reader.wake : Reader -> Reader
 | asleep n target => resumed n target
 | reader => reader

def Reader.isAway : Reader -> Bool
 | outside | returned _ | failed => true
 | _ => false

structure Console where
 input : Input
 canRead : RawSemaphore Nat
 reader : Nat -> Reader
 killed : Nat -> Bool
 line : List UInt8
 committed : List UInt8
 taken : List UInt8
 lost : Nat

namespace Console
variable (s : Console)

def setReader (t : Nat) (reader : Reader) : Console :=
 { s with reader := Function.update s.reader t reader }

def post : Option Console :=
 s.canRead.postSem.map fun posted =>
  { s with
    canRead := posted.2
    reader := fun t => if posted.1 = some t then (s.reader t).wake else s.reader t }

def commit (s : Console) : Option Console := post { s with input := s.input.commit }

/-- `C('C')`: the current process is killed, unless it is the idle one, the root or the shell. -/
def killCurrent : Option Nat -> Console
 | none => s
 | some t => { s with killed := Function.update s.killed t true }

/-- What `console_intr` does with a character, on a CPU where this process is current. -/
def intrChar (c : UInt8) (current : Option Nat) : Option Console :=
 if c = backspace then
  some (if s.input.e ≠ s.input.w then { s with input := s.input.eraseLast } else s)
 else if c = ctrlU then
  s.input.killLine.map fun input => { s with input := input }
 else if c = ctrlD then
  if s.input.isFull then some s else commit { s with input := s.input.store c }
 else if c = ctrlC then
  some (s.killCurrent current)
 else if s.input.isFull then
  some s
 else
  let stored := { s with input := s.input.store c }
  if c = newline ∨ stored.input.isFull then stored.commit else some stored

def plain (c : UInt8) : UInt8 := if c = carriageReturn then newline else c

def intr (c : UInt8) (current : Option Nat) : Option Console := s.intrChar (plain c) current

/-- What line editing makes of a character: the line, and what is committed. -/
def typed (c : UInt8) : List UInt8 × List UInt8 :=
 let full (line : List UInt8) := inputBuf - 1 ≤ s.input.unread.length + line.length
 if c = backspace then (s.line.dropLast, [])
 else if c = ctrlU then ([], [])
 else if c = ctrlC ∨ full s.line then (s.line, [])
 else if c = ctrlD ∨ c = newline ∨ full (s.line ++ [c]) then ([], s.line ++ [c])
 else (s.line ++ [c], [])

def record (edit : List UInt8 × List UInt8) : Console :=
 { s with line := edit.1, committed := s.committed ++ edit.2 }

/-- The end of the loop: the call returns, or waits for the bytes to go. -/
def finish (t n target : Nat) (result : Input × List UInt8 × Option Nat) : Console :=
 { s with
   input := result.1
   taken := s.taken ++ result.2.1
   reader := Function.update s.reader t (match result.2.2 with
     | none => .returned (target - n + result.2.1.length)
     | some left => .waiting left target) }

def read (t n : Nat) : Console := s.finish t n n (s.input.readLoop n n)

/-- `_wait_sem` with the value that it has read, up to the call of `sched`. -/
def waitStore (t n target : Nat) (val : Int) : Console :=
 let waited := { s.canRead with val := val }.waitSem t
 { s with canRead := waited.2 }.setReader t
  (if waited.1 then .resumed n target else .asleep n target)

/-- A killed process does not sleep or is woken; if no post has come, the call returns -1. -/
def giveUp (t n target : Nat) : Option Console :=
 if s.killed t then
  (s.canRead.cancelWait t).map fun sem =>
   { s.setReader t .failed with canRead := sem, lost := s.lost + (target - n) }
 else
  none

def resume (t n target : Nat) : Console := s.finish t n target (s.input.readOn target n)

end Console

/-- The steps of a process in `console_read` after the first. -/
inductive ReaderStep where
 | waitLoad
 | waitStore
 | resume
 | giveUp

inductive ConsoleLabel where
 | intr (c : UInt8) (current : Option Nat)
 | kill (t : Nat)
 | read (t n : Nat)
 | reader (t : Nat) (act : ReaderStep)

namespace Console

def advance (s : Console) (t : Nat) : ReaderStep -> Reader -> Option Console
 | .waitLoad, .waiting n target => some (s.setReader t (.loaded n target s.canRead.val))
 | .waitStore, .loaded n target val => some (s.waitStore t n target val)
 | .resume, .resumed n target => some (s.resume t n target)
 | .giveUp, .asleep n target => s.giveUp t n target
 | _, _ => none

def step (s : Console) : ConsoleLabel -> Option Console
 | .intr c current => (s.intr c current).map fun next => next.record (s.typed (plain c))
 | .kill t => some (s.killCurrent (some t))
 | .read t n => if (s.reader t).isAway then some (s.read t n) else none
 | .reader t act => s.advance t act (s.reader t)

def boot : Console where
 input := { buf := fun _ => 0, r := 0, w := 0, e := 0 }
 canRead := RawSemaphore.initSem 0
 reader := fun _ => .outside
 killed := fun _ => false
 line := []
 committed := []
 taken := []
 lost := 0

end Console

def consoleSystem : TransitionSystem Console ConsoleLabel where
 initial := fun s => s = Console.boot
 step := Console.step

end OSLab.Kernel
