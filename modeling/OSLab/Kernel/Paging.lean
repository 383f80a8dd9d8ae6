import OSLab.Foundation.TransitionSystem
import OSLab.Kernel.Mem

/-!
# Address spaces

Processes that load, store, fault and fork, after `kernel/paging.c`, `vmmap` and
the part of `fork` that concerns memory.  The page table of a process is a map
from page numbers to entries; the pages that hold the table itself are pages that
the kernel has taken from the allocator, like all others that it uses.

A fault and a fork are one step each.  They touch the page table of the process
that runs them, which nobody else touches, and the reference counts and the queue
of free pages, whose operations are atomic.
-/

namespace OSLab.Kernel
open Function

abbrev Pid := Nat

def stSwap : BitVec 64 := 0x2#64

structure Section where
 flags : BitVec 64
 start : Nat
 stop : Nat
 fits : stop ≤ 2 ^ 48

def pageBase (va : Nat) : Nat := va - va % pageSize

def vpnOf (va : Nat) : Vpn := BitVec.ofNat 36 (va / pageSize)

namespace Section

def contains (st : Section) (addr : Nat) : Bool :=
 decide (st.start ≤ addr) && decide (addr < st.stop)

def vpns (st : Section) : List Vpn :=
 (List.range ((st.stop - pageBase st.start + (pageSize - 1)) / pageSize)).map
  fun i => vpnOf (pageBase st.start + i * pageSize)

theorem mem_vpns {st : Section} {addr : Nat} (h : st.contains addr) : vpnOf addr ∈ st.vpns := by
 simp only [contains, Bool.and_eq_true, decide_eq_true_eq] at h
 rcases h with ⟨hstart, hstop⟩
 refine List.mem_map.mpr ⟨addr / pageSize - st.start / pageSize, ?_, ?_⟩
 · rw [List.mem_range]
   unfold pageBase pageSize
   omega
 unfold vpnOf pageBase pageSize
 congr 1
 omega

end Section

/--
The memory and the processes.  The last two fields are not in the source: the
pages that the kernel has taken for itself, and what each process has to find in
its memory.
-/
structure Spaces where
 mem : Memory
 procs : List Pid
 sections : Pid -> List Section
 pt : Pid -> Vpn -> PTEntry
 kernelPages : List Frame
 view : Pid -> Vpn -> Page

inductive SpaceLabel where
 | store (p : Pid) (v : Vpn) (off : Fin pageSize) (x : UInt8)
 | fault (p : Pid) (v : Vpn) (off : Fin pageSize)
 | fork (p child : Pid)
 | kernelAlloc (contents : Page)
 | kernelFree (f : Frame)

namespace Spaces
variable (s : Spaces)

def vmmap (p : Pid) (v : Vpn) (f : Frame) (flags : BitVec 64) : Spaces :=
 { s with
   pt := update s.pt p (update (s.pt p) v (mkPte f flags))
   mem := s.mem.incrementRef f }

def lazyAlloc (p : Pid) (v : Vpn) : Option Spaces :=
 s.mem.kallocPage.map fun (f, mem) =>
  { s with mem := mem }.vmmap p v f pteUserData

def copyOnWrite (p : Pid) (v : Vpn) : Option Spaces :=
 let original := pteFrame (s.pt p v)
 s.mem.kallocPage.map fun (f, mem) =>
  { s with mem := (mem.copyPage f original).kfreePage original }.vmmap p v f pteUserData

/--
`pgfault`, where a failed assertion and a panic are undefined.  No section is
ever swapped out, since nothing in the kernel calls `swapout`.
-/
def pgfault (p : Pid) (addr : Nat) : Option Spaces :=
 match (s.sections p).find? (fun st => st.contains addr) with
 | none => none
 | some st =>
  if st.flags &&& stSwap != 0#64 then
   none
  else if s.pt p (vpnOf addr) = 0#64 then
   s.lazyAlloc p (vpnOf addr)
  else if isRO (s.pt p (vpnOf addr)) then
   s.copyOnWrite p (vpnOf addr)
  else if isValid (s.pt p (vpnOf addr)) then
   some s
  else
   none

def forkPage (p child : Pid) (s : Spaces) (v : Vpn) : Spaces :=
 let old := s.pt p v
 if isValid old then
  s.vmmap child v (pteFrame old) (pteFlags old ||| pteRO)
 else
  s

def sectionPages (p : Pid) : List Vpn := (s.sections p).flatMap Section.vpns

def createProc (p child : Pid) : Spaces :=
 { s with
   procs := child :: s.procs
   sections := update s.sections child (s.sections p).reverse
   pt := update s.pt child (fun _ => 0#64)
   view := update s.view child (s.view p) }

def fork (p child : Pid) : Option Spaces :=
 if p ∈ s.procs ∧ child ∉ s.procs then
  some ((s.sectionPages p).foldl (forkPage p child) (s.createProc p child))
 else
  none

def canStore (pte : PTEntry) : Bool := isValid pte && isUser pte && !isRO pte

def writeByte (f : Frame) (off : Fin pageSize) (x : UInt8) : Memory :=
 { s.mem with
   frames := update s.mem.frames f (update (s.mem.frames f) off x) }

def store (p : Pid) (v : Vpn) (off : Fin pageSize) (x : UInt8) : Option Spaces :=
 if p ∈ s.procs ∧ canStore (s.pt p v) = true then
  some { s with
   mem := s.writeByte (pteFrame (s.pt p v)) off x
   view := update s.view p (update (s.view p) v (update (s.view p v) off x)) }
 else
  none

def load (p : Pid) (v : Vpn) (off : Fin pageSize) : Option UInt8 :=
 if p ∈ s.procs ∧ isValid (s.pt p v) = true ∧ isUser (s.pt p v) = true then
  some (s.mem.frames (pteFrame (s.pt p v)) off)
 else
  none

def kernelAlloc (contents : Page) : Option Spaces :=
 s.mem.kallocPage.map fun (f, mem) =>
  { s with
    mem := { mem with frames := update mem.frames f contents }
    kernelPages := f :: s.kernelPages }

def kernelFree (f : Frame) : Option Spaces :=
 if f ∈ s.kernelPages then
  some { s with
   mem := s.mem.kfreePage f
   kernelPages := s.kernelPages.erase f }
 else
  none

def step : SpaceLabel -> Option Spaces
 | .store p v off x => s.store p v off x
 | .fault p v off =>
  if p ∈ s.procs then
   s.pgfault p (v.toNat * pageSize + off.val)
  else
   none
 | .fork p child => s.fork p child
 | .kernelAlloc contents => s.kernelAlloc contents
 | .kernelFree f => s.kernelFree f

theorem vpnOf_addr (v : Vpn) (off : Fin pageSize) : vpnOf (v.toNat * pageSize + off.val) = v := by
 have hdiv : (v.toNat * pageSize + off.val) / pageSize = v.toNat := by
  unfold pageSize
  omega
 unfold vpnOf
 rw [hdiv, BitVec.ofNat_toNat, BitVec.setWidth_eq]

end OSLab.Kernel.Spaces
