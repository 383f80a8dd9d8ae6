import OSLab.Kernel.PageMap
import OSLab.Kernel.Paging

/-!
# Virtual memory

Page faults, `fork`, `execve`, `sbrk` and `free_pgdir` on page tables that stand in the
memory they manage.  Every process has a page directory; `execve` builds a second
one and replaces the first by it.  A fault, a fork and the loading of a segment are
one step each, since they change the directory of the process that runs them and,
through atomic operations, the queue of free pages and the reference counts.
-/

namespace OSLab.Kernel
open Foundation Function

def stFile : BitVec 64 := 0x1#64

def stText : BitVec 64 := 0x5#64

def addrOf (v : Vpn) : BitVec 64 := v.setWidth 64 <<< 12

def KernelAddr.ofFrame (f : Frame) : KernelAddr where
 addr := (f.setWidth 64 <<< 12) ||| kspaceMask
 high := by
  apply BitVec.eq_of_getLsbD_eq
  intro i _
  rw [BitVec.getLsbD_and, BitVec.getLsbD_or]
  cases kspaceMask.getLsbD i with
  | false => rw [Bool.and_false]
  | true => rw [Bool.or_true, Bool.and_true]

def userFlags : PteFlags where
 bits := pteUserData
 only := flagsOnly_userData

def PteFlags.readOnly (flags : PteFlags) : PteFlags where
 bits := flags.bits ||| pteRO
 only := flagsOnly_or flags.only flagsOnly_ro

def PteFlags.ofEntry (pte : PTEntry) : PteFlags where
 bits := pteFlags pte
 only := flagsOnly_pteFlags pte

/--
The memory, the page directories and their sections.  Free pages lie between
`firstPage` of the memory and `lastPage`.  The last two fields are not in the source:
the pages allocated for the tables of a directory, and the other pages that the
kernel has allocated for itself.
-/
structure Vm where
 mem : Memory
 zeroPage : Frame
 lastPage : Frame
 pgdir : Pid -> Option Frame
 sections : Pid -> List Section
 tables : Pid -> List Frame
 kernelPages : List Frame

namespace Vm
variable (s : Vm)

def dir (d : Pid) : PageDir := ⟨s.mem, s.pgdir d, s.tables d, [], []⟩

def put (d : Pid) (x : PageDir) : Vm :=
 { s with
   mem := x.mem
   pgdir := update s.pgdir d x.pt
   tables := update s.tables d x.tables }

/-- What `get_pte` finds without allocation; an entry that does not exist is zero. -/
def entry (d : Pid) (v : Vpn) : PTEntry := (s.dir d).entryOf (addrOf v)

def getPte (s : Vm) (d : Pid) (va : BitVec 64) : Option (PtePtr × Vm) :=
 match (s.dir d).getPte va true with
 | some (some ptr, x) => some (ptr, s.put d x)
 | _ => none

def vmmap (s : Vm) (d : Pid) (va : BitVec 64) (f : Frame) (flags : PteFlags) : Option Vm :=
 ((s.dir d).vmmap va (KernelAddr.ofFrame f) flags).map (s.put d)

def initPgdir (s : Vm) (d : Pid) : Option Vm := (PageDir.initPgdir s.mem).map (s.put d)

/-!
# Page faults
-/

def lazyAlloc (d : Pid) (va : BitVec 64) : Option Vm :=
 s.mem.kallocPage.bind fun (f, mem) => { s with mem := mem }.vmmap d va f userFlags

def copyOnWrite (d : Pid) (va : BitVec 64) (original : Frame) : Option Vm :=
 s.mem.kallocPage.bind fun (f, mem) =>
  { s with mem := (mem.copyPage f original).kfreePage original }.vmmap d va f userFlags

def pgfault (d : Pid) (addr : Nat) : Option Vm :=
 match (s.sections d).find? (fun st => st.contains addr) with
 | none => none
 | some _ =>
  match s.getPte d (BitVec.ofNat 64 addr) with
  | none => none
  | some (ptr, s) =>
   if s.mem.entry ptr = 0#64 then
    s.lazyAlloc d (BitVec.ofNat 64 addr)
   else if isRO (s.mem.entry ptr) then
    s.copyOnWrite d (BitVec.ofNat 64 addr) (pteFrame (s.mem.entry ptr))
   else if isValid (s.mem.entry ptr) then
    some s
   else
    none

/-!
# Forking and freeing
-/

def sectionPages (d : Pid) : List Vpn := (s.sections d).flatMap Section.vpns

def forkPage (p child : Pid) (s : Vm) (v : Vpn) : Option Vm :=
 if isValid (s.entry p v) then
  s.vmmap child (addrOf v) (pteFrame (s.entry p v)) (PteFlags.ofEntry (s.entry p v)).readOnly
 else
  some s

def copySections (p child : Pid) : Vm :=
 { s with sections := update s.sections child (s.sections p).reverse }

def createProc (child : Pid) : Option Vm :=
 if s.pgdir child = none ∧ s.tables child = [] ∧ (s.sections child).isEmpty = true then
  s.initPgdir child
 else
  none

def fork (p child : Pid) : Option Vm :=
 (s.createProc child).bind fun s =>
  ((s.sectionPages p).foldlM (forkPage p child) s).map fun s => s.copySections p child

def freePage (d : Pid) (s : Vm) (v : Vpn) : Vm :=
 if isValid (s.entry d v) then
  { s with mem := s.mem.kfreePage (pteFrame (s.entry d v)) }
 else
  s

def freeSections (d : Pid) : Vm :=
 { (s.sectionPages d).foldl (freePage d) s with
   sections := update s.sections d [] }

def freePgdir (s : Vm) (d : Pid) : Vm :=
 match s.pgdir d with
 | none => s
 | some _ => (s.freeSections d).put d ((s.freeSections d).dir d).freePgdir.1

/-!
# Executing a file
-/

/-- A segment of type `PT_LOAD`, either `PF_R | PF_X` or `PF_R | PF_W`. -/
structure Segment where
 text : Bool
 vaddr : Nat
 filesz : Nat
 memsz : Nat

def pagesFrom : Nat -> Nat -> Nat -> List Vpn
 | 0, _, _ => []
 | fuel + 1, va, size =>
  if size = 0 then
   []
  else
   let sz := min (pageSize - va % pageSize) size
   vpnOf va :: pagesFrom fuel (va + sz) (size - sz)

namespace Segment
variable (ph : Segment)

def stop : Nat := ph.vaddr + if ph.text then ph.filesz else ph.memsz

def stFlags : BitVec 64 := if ph.text then stText else stFile

def pteFlags : PteFlags := if ph.text then userFlags.readOnly else userFlags

def loaded : List Vpn := pagesFrom ph.filesz ph.vaddr ph.filesz

def bss : Nat :=
 let va := ph.vaddr + ph.filesz
 if va ≠ pageBase va then pageBase va + pageSize else va

def zeroed : List Vpn :=
 if ph.text = false ∧ ph.bss - ph.vaddr < ph.memsz then
  pagesFrom ph.memsz ph.bss (ph.memsz - (ph.bss - ph.vaddr))
 else
  []

end Segment

def Segment.asSection (ph : Segment) (h : ph.stop ≤ 2 ^ 48) : Section :=
 ⟨ph.stFlags, ph.vaddr, ph.stop, h⟩

def addSection (d : Pid) (st : Section) : Vm :=
 { s with sections := update s.sections d (st :: s.sections d) }

def mapNew (fill : Vpn -> Page) (d : Pid) (flags : PteFlags) (s : Vm) (v : Vpn) : Option Vm :=
 s.mem.kallocPage.bind fun (f, mem) =>
  { s with mem := { mem with frames := update mem.frames f (fill v) } }.vmmap d (addrOf v) f flags

def mapZero (d : Pid) (s : Vm) (v : Vpn) : Option Vm :=
 s.vmmap d (addrOf v) s.zeroPage userFlags.readOnly

/--
The part of `execve` for one segment.  Reading the file may fail after some pages;
then the new directory is freed.
-/
def execSegment (e : Pid) (ph : Segment) (fill : Vpn -> Page) (fails : Option Nat) : Option Vm :=
 if h : ph.stop ≤ 2 ^ 48 then
  let s := s.addSection e (ph.asSection h)
  match fails with
  | none =>
   (ph.loaded.foldlM (mapNew fill e ph.pteFlags) s).bind fun s =>
    ph.zeroed.foldlM (mapZero e) s
  | some n =>
   ((ph.loaded.take (n + 1)).foldlM (mapNew fill e ph.pteFlags) s).map fun s =>
    s.freePgdir e
 else
  none

def maxEnd (e : Pid) : Nat := (s.sections e).foldl (fun most st => max most st.stop) 0

def stackPages (start : Nat) : List Vpn :=
 (List.range 10).map fun i => vpnOf (start + (9 - i) * pageSize)

def execStack (e : Pid) : Option Vm :=
 let start := pageBase (s.maxEnd e) + pageSize
 if h : start + 10 * pageSize ≤ 2 ^ 48 then
  ((stackPages start).foldlM (mapNew (fun _ _ => 0) e userFlags) s).map fun s =>
   s.addSection e ⟨0x400#64, start, start + 10 * pageSize, h⟩
 else
  none

def replacePgdir (p e : Pid) : Vm :=
 { s with
   pgdir := update (update s.pgdir p (s.pgdir e)) e none
   tables := update (update s.tables p (s.tables e)) e []
   sections := update (update s.sections p (s.sections e)) e [] }

def execSwitch (p e : Pid) : Option Vm :=
 if p = e then
  none
 else
  some ((s.freePgdir p).replacePgdir p e)

/-!
# Moving the end of the heap
-/

def stHeap : BitVec 64 := 0x8#64

/-- The loop of `sbrk` stops at the first heap section, or at the last section. -/
def heapIndex (sections : List Section) : Option Nat :=
 match sections.findIdx? (fun st => st.flags &&& stHeap != 0#64) with
 | some i => some i
 | none => if sections.isEmpty then none else some (sections.length - 1)

def unmapPage (d : Pid) (s : Vm) (v : Vpn) : Vm :=
 match (s.dir d).find (addrOf v) with
 | none => s
 | some ptr =>
  if isValid (s.mem.entry ptr) then
   { s with mem := (s.mem.kfreePage (pteFrame (s.mem.entry ptr))).setEntry ptr 0#64 }
  else
   s

/-- `sbrk` without swapping, as long as the section stays in user space. -/
def sbrk (d : Pid) (size : Int) : Option Vm :=
 (heapIndex (s.sections d)).bind fun i =>
  (s.sections d)[i]?.bind fun st =>
   let stop := (st.stop + size * pageSize).toNat
   if h : stop ≤ 2 ^ 48 then
    let sections := (s.sections d).set i ⟨st.flags, st.start, stop, h⟩
    let moved := { s with sections := update s.sections d sections }
    if 0 ≤ size then
     some moved
    else if -size * pageSize ≤ st.stop - st.start then
     some (((List.range (-size).toNat).map fun k => vpnOf (stop + k * pageSize)).foldl
      (unmapPage d) moved)
    else
     none
   else
    none

/-!
# The first process
-/

/-- `kernel_entry` maps the pages of `icode`, all of them to the first page. -/
def kernelEntry (d : Pid) (st : Section) (image : List Frame) : Option Vm :=
 if (s.sections d).isEmpty = true then
  image.foldlM (fun s f => s.vmmap d 0#64 f userFlags.readOnly) (s.addSection d st)
 else
  none

/-!
# The rest of the kernel
-/

def kernelAlloc (contents : Page) : Option Vm :=
 s.mem.kallocPage.map fun (f, mem) =>
  { s with
    mem := { mem with frames := update mem.frames f contents }
    kernelPages := f :: s.kernelPages }

def kernelFree (f : Frame) : Option Vm :=
 if s.kernelPages.contains f then
  some { s with
   mem := s.mem.kfreePage f
   kernelPages := s.kernelPages.erase f }
 else
  none

def write (f : Frame) (contents : Page) : Vm :=
 { s with mem := { s.mem with frames := update s.mem.frames f contents } }

def store (d : Pid) (v : Vpn) (contents : Page) : Option Vm :=
 if isValid (s.entry d v) then
  some (s.write (pteFrame (s.entry d v)) contents)
 else
  none

def kernelWrite (f : Frame) (contents : Page) : Option Vm :=
 if s.kernelPages.contains f then some (s.write f contents) else none

end Vm

inductive VmLabel where
 | create (d : Pid)
 | kernelEntry (d : Pid) (st : Section) (image : List Frame)
 | lookup (d : Pid) (va : BitVec 64)
 | fault (d : Pid) (addr : Nat)
 | fork (p child : Pid)
 | execSegment (e : Pid) (ph : Vm.Segment) (fill : Vpn -> Page) (fails : Option Nat)
 | execStack (e : Pid)
 | execSwitch (p e : Pid)
 | freePgdir (d : Pid)
 | sbrk (d : Pid) (size : Int)
 | kernelAlloc (contents : Page)
 | kernelFree (f : Frame)
 | kernelWrite (f : Frame) (contents : Page)
 | store (d : Pid) (v : Vpn) (contents : Page)

namespace Vm

def step (s : Vm) : VmLabel -> Option Vm
 | .create d => s.createProc d
 | .kernelEntry d st image => s.kernelEntry d st image
 | .lookup d va => (s.getPte d va).map Prod.snd
 | .fault d addr => s.pgfault d addr
 | .fork p child => s.fork p child
 | .execSegment e ph fill fails => s.execSegment e ph fill fails
 | .execStack e => s.execStack e
 | .execSwitch p e => s.execSwitch p e
 | .freePgdir d => some (s.freePgdir d)
 | .sbrk d size => s.sbrk d size
 | .kernelAlloc contents => s.kernelAlloc contents
 | .kernelFree f => s.kernelFree f
 | .kernelWrite f contents => s.kernelWrite f contents
 | .store d v contents => s.store d v contents

def boot (mem : Memory) (lastPage : Frame) : Option Vm :=
 mem.kallocPage.map fun (f, mem) =>
  { mem := { mem.clearPage f with ref := update mem.ref f 1 }
    zeroPage := f
    lastPage := lastPage
    pgdir := fun _ => none
    sections := fun _ => []
    tables := fun _ => []
    kernelPages := [] }

end Vm

def vmSystem : TransitionSystem Vm VmLabel where
 initial := fun s => exists (mem : Memory) (lastPage : Frame), mem.pages.Nodup ∧
  (forall f, f ∈ mem.pages ↔ mem.firstPage ≤ f ∧ f < lastPage) ∧
  Vm.boot mem lastPage = some s
 step := Vm.step

end OSLab.Kernel
