import OSLab.Fs.Layout
import OSLab.Kernel.Vm

/-!
# Swapping

`swapout` and `swapin` of `kernel/paging.c`, with the page faults that bring a section
back, `fork`, and an `execve` that loads a whole file.  As for the address spaces
without swapping, the page table of a process is a map.  An entry that is not valid and
not zero holds the number of the first of eight blocks of the swap area.
-/

namespace OSLab.Kernel
open Foundation Function

def stRO : BitVec 64 := 0x4#64

namespace Section
variable (st : Section)

def isReadOnly : Bool := st.flags &&& stRO != 0#64

def isSwapped : Bool := st.flags &&& stSwap != 0#64

def isFile : Bool := st.flags &&& stFile != 0#64

def swapVpns : List Vpn :=
 (List.range ((st.stop - st.start + (pageSize - 1)) / pageSize)).map
  fun i => vpnOf (st.start + i * pageSize)

end Section

/-!
# The swap area
-/

def swapStart : Nat := 800

def swapEnd : Nat := 1000

structure SwapArea where
 bitmap : Nat -> Bool
 disk : Nat -> Fs.BlockData

namespace SwapArea

/-- The loop of `find_and_set_8_blocks`, with the number of blocks left to look at. -/
def scan (bitmap : Nat -> Bool) : Nat -> Nat -> Nat -> Nat -> Option Nat
 | 0, _, _, _ => none
 | left + 1, i, cnt, ret =>
  let ret := if bitmap i = false ∧ cnt = 0 then i else ret
  let cnt := if bitmap i = false then cnt + 1 else 0
  if cnt = 8 then some ret else scan bitmap left (i + 1) cnt ret

def mark (a : SwapArea) (bno : Nat) (used : Bool) : SwapArea :=
 { a with bitmap := fun b => if bno ≤ b ∧ b < bno + 8 then used else a.bitmap b }

/-- `write_page_to_disk`, which panics when there are no eight blocks in a row. -/
def writePage (a : SwapArea) (page : Page) : Option (Nat × SwapArea) :=
 (scan a.bitmap (swapEnd - swapStart) swapStart 0 0).map fun bno =>
  (bno, { a.mark bno true with
   disk := fun b =>
    if bno ≤ b ∧ b < bno + 8 then
     fun j => Bytes.byteAt page ((b - bno) * Fs.blockSize + j.val)
    else
     a.disk b })

/-- `read_page_from_disk`, which does not test whether the blocks are in the area. -/
def readPage (a : SwapArea) (bno : Nat) : Page × SwapArea :=
 (fun i => Bytes.byteAt (a.disk (bno + i.val / Fs.blockSize)) (i.val % Fs.blockSize),
  a.mark bno false)

end SwapArea

/-!
# Processes and the swap area
-/

structure Swapping where
 spaces : Spaces
 area : SwapArea
 zeroPage : Frame

namespace Swapping
variable (s : Swapping)

def setMem (mem : Memory) : Swapping :=
 { s with spaces := { s.spaces with mem := mem } }

def setEntry (p : Pid) (v : Vpn) (pte : PTEntry) : Swapping :=
 { s with spaces := { s.spaces with
  pt := update s.spaces.pt p (update (s.spaces.pt p) v pte) } }

def setSections (p : Pid) (sections : List Section) : Swapping :=
 { s with spaces := { s.spaces with
  sections := update s.spaces.sections p sections } }

def setFlags (p : Pid) (i : Nat) (st : Section) (flags : BitVec 64) : Swapping :=
 s.setSections p ((s.spaces.sections p).set i { st with flags := flags })

def invalidate (p : Pid) (s : Swapping) (v : Vpn) : Swapping :=
 if s.spaces.pt p v = 0#64 then
  s
 else
  s.setEntry p v (s.spaces.pt p v &&& ~~~pteValid)

/-- The body of the second loop of `swapout`, where `bno<<12` has 32 bits. -/
def writeOut (p : Pid) (s : Swapping) (v : Vpn) : Option Swapping :=
 if s.spaces.pt p v = 0#64 then
  some s
 else
  let f := pteFrame (s.spaces.pt p v)
  (s.area.writePage (s.spaces.mem.frames f)).map fun (bno, area) =>
   ({ s with area := area }.setMem (s.spaces.mem.kfreePage f)).setEntry p v
    (BitVec.ofNat 64 (bno * 2 ^ 12 % 2 ^ 32))

def swapout (p : Pid) (i : Nat) : Option Swapping :=
 match (s.spaces.sections p)[i]? with
 | none => none
 | some st =>
  if st.isSwapped then
   none
  else
   let s := st.swapVpns.foldl (invalidate p) (s.setFlags p i st (st.flags ||| stSwap))
   if st.isFile then some s else st.swapVpns.foldlM (writeOut p) s

def readIn (p : Pid) (s : Swapping) (v : Vpn) : Option Swapping :=
 if s.spaces.pt p v = 0#64 then
  some s
 else
  let x := s.area.readPage ((s.spaces.pt p v >>> 12).toNat % 2 ^ 32)
  s.spaces.mem.kallocPage.map fun (f, mem) =>
   let s := { s with area := x.2 }.setMem { mem with frames := update mem.frames f x.1 }
   { s with spaces := s.spaces.vmmap p v f pteUserData }

def swapin (p : Pid) (i : Nat) : Option Swapping :=
 match (s.spaces.sections p)[i]? with
 | none => none
 | some st =>
  if st.isSwapped then
   (st.swapVpns.foldlM (readIn p) s).map fun s =>
    s.setFlags p i st (st.flags &&& ~~~stSwap)
  else
   none

/-- The beginning of `pgfault` and of the loop in `free_sections`. -/
def bringBack (p : Pid) (i : Nat) : Option Swapping :=
 match (s.spaces.sections p)[i]? with
 | none => none
 | some st => if st.isSwapped then s.swapin p i else some s

def within (r : Option Spaces) : Option Swapping :=
 r.map fun spaces => { s with spaces := spaces }

def pgfault (s : Swapping) (p : Pid) (addr : Nat) : Option Swapping :=
 match (s.spaces.sections p).findIdx? (fun st => st.contains addr) with
 | none => none
 | some i => (s.bringBack p i).bind fun s => s.within (s.spaces.pgfault p addr)

/-!
# Executing a file
-/

structure Image where
 mem : Memory
 pt : Vpn -> PTEntry
 sections : List Section

namespace Image
variable (b : Image)

def vmmap (v : Vpn) (f : Frame) (flags : BitVec 64) : Image :=
 { b with
   mem := b.mem.incrementRef f
   pt := update b.pt v (mkPte f flags) }

def addSection (st : Section) : Image := { b with sections := st :: b.sections }

def mapNew (fill : Vpn -> Page) (flags : BitVec 64) (b : Image) (v : Vpn) : Option Image :=
 b.mem.kallocPage.map fun (f, mem) =>
  { b with mem := { mem with frames := update mem.frames f (fill v) } }.vmmap v f flags

def mapZero (zeroPage : Frame) (b : Image) (v : Vpn) : Image :=
 b.vmmap v zeroPage (pteUserData ||| pteRO)

structure Load where
 ph : Vm.Segment
 fill : Vpn -> Page

def loadPages (l : Load) (pages : List Vpn) : Option Image :=
 if h : l.ph.stop ≤ 2 ^ 48 then
  pages.foldlM (mapNew l.fill l.ph.pteFlags.bits) (b.addSection (l.ph.asSection h))
 else
  none

def loadSegment (zeroPage : Frame) (b : Image) (l : Load) : Option Image :=
 (b.loadPages l l.ph.loaded).map fun b => l.ph.zeroed.foldl (mapZero zeroPage) b

def maxEnd : Nat := b.sections.foldl (fun most st => max most st.stop) 0

def addStack (stack : Vpn -> Page) (b : Image) : Option Image :=
 let start := pageBase b.maxEnd + pageSize
 if h : start + 10 * pageSize ≤ 2 ^ 48 then
  ((Vm.stackPages start).foldlM (mapNew stack pteUserData) b).map fun b =>
   b.addSection ⟨0x400#64, start, start + 10 * pageSize, h⟩
 else
  none

/-- `free_pgdir` of a directory that has not been used. -/
def free : Memory :=
 (b.sections.flatMap Section.vpns).foldl
  (fun mem v => if isValid (b.pt v) then mem.kfreePage (pteFrame (b.pt v)) else mem) b.mem

def contents (v : Vpn) : Page :=
 if isValid (b.pt v) then b.mem.frames (pteFrame (b.pt v)) else fun _ => 0

end Image

def freeSection (p : Pid) (s : Swapping) (i : Nat) : Option Swapping :=
 match (s.spaces.sections p)[i]? with
 | none => none
 | some st =>
  (s.bringBack p i).map fun s =>
   s.setMem (st.vpns.foldl (fun mem v =>
    if isValid (s.spaces.pt p v) then mem.kfreePage (pteFrame (s.spaces.pt p v))
    else mem) s.spaces.mem)

def freeSections (p : Pid) : Option Swapping :=
 (List.range (s.spaces.sections p).length).foldlM (freeSection p) s

def install (p : Pid) (b : Image) : Swapping :=
 { s with spaces := { s.spaces with
  pt := update s.spaces.pt p b.pt
  sections := update s.spaces.sections p b.sections
  view := update s.spaces.view p b.contents } }

def empty : Image := ⟨s.spaces.mem, fun _ => 0#64, []⟩

def execve (p : Pid) (file : List Image.Load) (stack : Vpn -> Page) : Option Swapping :=
 (file.foldlM (Image.loadSegment s.zeroPage) s.empty).bind fun b =>
  (b.addStack stack).bind fun b =>
   ((s.setMem b.mem).freeSections p).map fun s => s.install p b

def execveFails (file : List Image.Load) (last : Image.Load) (n : Nat) : Option Swapping :=
 (file.foldlM (Image.loadSegment s.zeroPage) s.empty).bind fun b =>
  (b.loadPages last (last.ph.loaded.take n)).map fun b => s.setMem b.free

end Swapping

inductive SwapLabel where
 | execve (p : Pid) (file : List Swapping.Image.Load) (stack : Vpn -> Page)
 | execveFails (file : List Swapping.Image.Load) (last : Swapping.Image.Load) (n : Nat)
 | fault (p : Pid) (addr : Nat)
 | fork (p child : Pid)
 | swapout (p : Pid) (i : Nat)
 | swapin (p : Pid) (i : Nat)
 | store (p : Pid) (v : Vpn) (off : Fin pageSize) (x : UInt8)
 | kernelAlloc (contents : Page)
 | kernelFree (f : Frame)

namespace Swapping

def step (s : Swapping) : SwapLabel -> Option Swapping
 | .execve p file stack => s.execve p file stack
 | .execveFails file last n => s.execveFails file last n
 | .fault p addr => s.pgfault p addr
 | .fork p child => s.within (s.spaces.fork p child)
 | .swapout p i => s.swapout p i
 | .swapin p i => s.swapin p i
 | .store p v off x => s.within (s.spaces.store p v off x)
 | .kernelAlloc contents => s.within (s.spaces.kernelAlloc contents)
 | .kernelFree f => s.within (s.spaces.kernelFree f)

end Swapping

def swapSystem : TransitionSystem Swapping SwapLabel where
 initial := fun s => (forall p, s.spaces.sections p = []) ∧ forall p v, s.spaces.pt p v = 0#64
 step := Swapping.step

end OSLab.Kernel
