import OSLab.Foundation.Radix
import OSLab.Foundation.TransitionSystem
import OSLab.Kernel.Mem
import OSLab.Kernel.UserPointer

/-!
# The page table in memory

`get_pte`, `vmmap`, `init_pgdir` and `free_pgdir` of `kernel/pt.c`, on the bytes of
the pages that hold the table.  A pointer into the table is a page with the number
of one of its 512 entries.
-/

namespace OSLab.Kernel
open Foundation BitVec

abbrev Slot := BitVec 9

abbrev PtePtr := Frame × Slot

def allSlots : List Slot := (List.finRange (2 ^ 9)).map ofFin

theorem mem_allSlots (i : Slot) : i ∈ allSlots :=
 List.mem_map.mpr ⟨i.toFin, List.mem_finRange _, rfl⟩

theorem nodup_allSlots : allSlots.Nodup := by
 apply (List.nodup_finRange (2 ^ 9)).map
 intro i j h
 injection h

/-!
# Addresses
-/

def pteTable : BitVec 64 := 0x3#64

def k2p (addr : BitVec 64) : BitVec 64 := addr - kspaceMask

structure KernelAddr where
 addr : BitVec 64
 high : addr &&& kspaceMask = kspaceMask

structure PteFlags where
 bits : BitVec 64
 only : FlagsOnly bits

namespace KernelAddr

def base (ka : KernelAddr) : BitVec 64 := ka.addr &&& ~~~0xfff#64

def page (ka : KernelAddr) : Frame := (k2p ka.base >>> 12).setWidth 36

end KernelAddr

def vaPart (mask : BitVec 64) (shift : Nat) (va : BitVec 64) : Slot :=
 ((va &&& mask) >>> shift).setWidth 9

def vaPart0 : BitVec 64 -> Slot := vaPart 0xFF8000000000#64 39

def vaPart1 : BitVec 64 -> Slot := vaPart 0x7FC0000000#64 30

def vaPart2 : BitVec 64 -> Slot := vaPart 0x3FE00000#64 21

def vaPart3 : BitVec 64 -> Slot := vaPart 0x1FF000#64 12

variable (va : BitVec 64)

def pageOf : Vpn := va.extractLsb' 12 36

/-!
# Entries in memory
-/

namespace Memory
variable (m : Memory)

def entry (ptr : PtePtr) : PTEntry :=
 BitVec.ofNat 64 (Bytes.readLE (Bytes.byteAt (m.frames ptr.1)) (8 * ptr.2.toNat) 8)

def setEntry (ptr : PtePtr) (pte : PTEntry) : Memory :=
 { m with
   frames := Function.update m.frames ptr.1
    (Bytes.splice (m.frames ptr.1) (8 * ptr.2.toNat) 8 (Bytes.leByte pte.toNat)) }

def clearPage (f : Frame) : Memory :=
 { m with frames := Function.update m.frames f (fun _ => 0) }

def table (f : Frame) (i : Slot) : Option Frame :=
 if isValid (m.entry (f, i)) then
  some (pteFrame (m.entry (f, i)))
 else
  none

end Memory

/--
A page directory and the memory.  The last three fields are not in the source:
the pages that were allocated for tables, the entries that `get_pte` has returned
with the addresses it was asked for, and the addresses of its allocating calls.
-/
structure PageDir where
 mem : Memory
 pt : Option Frame
 tables : List Frame
 found : List (BitVec 64 × PtePtr)
 reached : List (BitVec 64)

namespace PageDir
variable (s : PageDir)

def newTable : Option (Frame × PageDir) :=
 s.mem.kallocPage.map fun (f, mem) =>
  (f, { s with
   mem := mem.clearPage f
   tables := f :: s.tables })

def newRoot : Option (Frame × PageDir) :=
 s.newTable.map fun (f, next) => (f, { next with pt := some f })

def initPgdir (mem : Memory) : Option PageDir :=
 (newRoot ⟨mem, none, [], [], []⟩).map fun (_, s) => s

def rootTable (alloc : Bool) : Option (Option Frame × PageDir) :=
 match s.pt with
 | some pt0 => some (some pt0, s)
 | none =>
  if alloc then
   s.newRoot.map fun (pt0, next) => (some pt0, next)
  else
   some (none, s)

def nextTable (pt : Frame) (i : Slot) (alloc : Bool) : Option (Option Frame × PageDir) :=
 match s.mem.table pt i with
 | some below => some (some below, s)
 | none =>
  if alloc then
   s.newTable.map fun (below, next) =>
    (some below, { next with
     mem := next.mem.setEntry (pt, i) (mkPte below pteTable) })
  else
   some (none, s)

def follow {result : Type} (r : Option (Option Frame × PageDir))
  (next : Frame -> PageDir -> Option (Option result × PageDir)) :
  Option (Option result × PageDir) :=
 match r with
 | none => none
 | some (none, s) => some (none, s)
 | some (some f, s) => next f s

variable (va : BitVec 64)

def note (alloc : Bool) (ptr : PtePtr) : PageDir :=
 { s with
   found := (va, ptr) :: s.found
   reached := if alloc then va :: s.reached else s.reached }

/-- `get_pte`, which is not defined when `kalloc_page` has no page left. -/
def getPte (alloc : Bool) : Option (Option PtePtr × PageDir) :=
 follow (s.rootTable alloc) fun pt0 s =>
  follow (s.nextTable pt0 (vaPart0 va) alloc) fun pt1 s =>
   follow (s.nextTable pt1 (vaPart1 va) alloc) fun pt2 s =>
    follow (s.nextTable pt2 (vaPart2 va) alloc) fun pt3 s =>
     some (some (pt3, vaPart3 va), s.note va alloc (pt3, vaPart3 va))

def vmmap (ka : KernelAddr) (flags : PteFlags) : Option PageDir :=
 match s.getPte va true with
 | some (some ptr, next) =>
  some { next with
   mem := (next.mem.setEntry ptr (k2p ka.base ||| flags.bits)).incrementRef ka.page }
 | _ => none

/-!
# Freeing

The memory is passed along with the list of the pages that `kfree_page` was called
for.
-/

abbrev Freeing := Memory × List Frame

def release (x : Freeing) (f : Frame) : Freeing := (x.1.kfreePage f, x.2 ++ [f])

def freeEntries (free : Freeing -> Frame -> Freeing) (x : Freeing) (pt : Frame) : Freeing :=
 allSlots.foldl (fun x i => (x.1.table pt i).elim x (free x)) x

def freePt2 (x : Freeing) (pt2 : Frame) : Freeing := release (freeEntries release x pt2) pt2

def freePt1 (x : Freeing) (pt1 : Frame) : Freeing := release (freeEntries freePt2 x pt1) pt1

/-- `free_pgdir` without sections, and the calls of `kfree_page` that it makes. -/
def freePgdir : PageDir × List Frame :=
 match s.pt with
 | none => (s, [])
 | some pt0 =>
  let x := release (freeEntries freePt1 (s.mem, []) pt0) pt0
  (⟨x.1, none, [], [], []⟩, x.2)

/-!
# Translation
-/

def path : List Slot := [vaPart0 va, vaPart1 va, vaPart2 va]

def locate (p : List Slot) : Option Frame :=
 s.pt.bind fun root => Radix.walk s.mem.table root p

def find : Option PtePtr :=
 (s.locate (path va)).map fun pt3 => (pt3, vaPart3 va)

def entryOf : PTEntry :=
 match s.find va with
 | none => 0#64
 | some ptr => s.mem.entry ptr

def translate : BitVec 64 × BitVec 64 :=
 (pteAddress (s.entryOf va), pteFlags (s.entryOf va))

end PageDir

/-!
# Parts of addresses
-/

variable {i : Nat}

theorem vaPart_getLsbD {mask : BitVec 64} {shift : Nat}
  (hmask : forall i, i < 9 -> mask.getLsbD (shift + i)) (va : BitVec 64)
  (hi : i < 9) : (vaPart mask shift va).getLsbD i = va.getLsbD (shift + i) := by
 unfold vaPart
 rw [getLsbD_setWidth, getLsbD_ushiftRight, getLsbD_and, hmask i hi]
 simp [hi]

theorem vaPart0_getLsbD (hi : i < 9) : (vaPart0 va).getLsbD i = va.getLsbD (39 + i) :=
 vaPart_getLsbD (by decide) va hi

theorem vaPart1_getLsbD (hi : i < 9) : (vaPart1 va).getLsbD i = va.getLsbD (30 + i) :=
 vaPart_getLsbD (by decide) va hi

theorem vaPart2_getLsbD (hi : i < 9) : (vaPart2 va).getLsbD i = va.getLsbD (21 + i) :=
 vaPart_getLsbD (by decide) va hi

theorem vaPart3_getLsbD (hi : i < 9) : (vaPart3 va).getLsbD i = va.getLsbD (12 + i) :=
 vaPart_getLsbD (by decide) va hi

theorem pageOf_getLsbD (hi : i < 36) : (pageOf va).getLsbD i = va.getLsbD (12 + i) := by
 unfold pageOf
 rw [getLsbD_extractLsb']
 simp [hi]

theorem part_congr {part : BitVec 64 -> Slot} (shift : Nat)
  (hpart : forall va i, i < 9 -> (part va).getLsbD i = va.getLsbD (12 + shift + i))
  (hshift : shift + 9 ≤ 36) {va other : BitVec 64} (h : pageOf va = pageOf other) :
  part va = part other := by
 apply eq_of_getLsbD_eq
 intro i hi
 have hbit := congrArg (fun x => x.getLsbD (shift + i)) h
 simp only [pageOf_getLsbD _ (show shift + i < 36 by omega)] at hbit
 rw [hpart va i hi, hpart other i hi, Nat.add_assoc]
 exact hbit

theorem pageOf_eq_iff (va other : BitVec 64) : pageOf va = pageOf other ↔
    PageDir.path va = PageDir.path other ∧ vaPart3 va = vaPart3 other := by
 constructor
 · intro h
   have h0 : vaPart0 va = vaPart0 other :=
    part_congr 27 (fun va i hi => vaPart0_getLsbD va hi) (by decide) h
   have h1 : vaPart1 va = vaPart1 other :=
    part_congr 18 (fun va i hi => vaPart1_getLsbD va hi) (by decide) h
   have h2 : vaPart2 va = vaPart2 other :=
    part_congr 9 (fun va i hi => vaPart2_getLsbD va hi) (by decide) h
   have h3 : vaPart3 va = vaPart3 other :=
    part_congr 0 (fun va i hi => vaPart3_getLsbD va hi) (by decide) h
   unfold PageDir.path
   rw [h0, h1, h2, h3]
   exact ⟨rfl, rfl⟩
 rintro ⟨hpath, h3⟩
 injection hpath with h0 hpath
 injection hpath with h1 hpath
 injection hpath with h2 _
 have hbit : forall i, i < 9 -> forall part : BitVec 64 -> Slot,
  part va = part other -> (part va).getLsbD i = (part other).getLsbD i := by
  intro i _ part heq
  rw [heq]
 apply eq_of_getLsbD_eq
 intro i hi
 rw [pageOf_getLsbD va hi, pageOf_getLsbD other hi]
 -- the bit belongs to one of the four parts
 rcases (show i < 9 ∨ (9 ≤ i ∧ i < 18) ∨ (18 ≤ i ∧ i < 27) ∨ (27 ≤ i ∧ i < 36) by
  omega) with hlow | hmid | hmid | hhigh
 · have hpart := hbit i hlow vaPart3 h3
   rw [vaPart3_getLsbD va hlow, vaPart3_getLsbD other hlow] at hpart
   exact hpart
 · have hj : i - 9 < 9 := by omega
   have hpart := hbit (i - 9) hj vaPart2 h2
   rw [vaPart2_getLsbD va hj, vaPart2_getLsbD other hj] at hpart
   rw [show 12 + i = 21 + (i - 9) by omega]
   exact hpart
 · have hj : i - 18 < 9 := by omega
   have hpart := hbit (i - 18) hj vaPart1 h1
   rw [vaPart1_getLsbD va hj, vaPart1_getLsbD other hj] at hpart
   rw [show 12 + i = 30 + (i - 18) by omega]
   exact hpart
 · have hj : i - 27 < 9 := by omega
   have hpart := hbit (i - 27) hj vaPart0 h0
   rw [vaPart0_getLsbD va hj, vaPart0_getLsbD other hj] at hpart
   rw [show 12 + i = 39 + (i - 27) by omega]
   exact hpart

/-!
# Addresses in entries
-/

theorem k2p_of_high {addr : BitVec 64} (h : addr &&& kspaceMask = kspaceMask) :
  k2p addr = addr &&& ~~~kspaceMask := by
 have hzero : (addr &&& ~~~kspaceMask) &&& kspaceMask = 0#64 := by
  rw [BitVec.and_assoc]
  simp
 have hsplit : addr = (addr &&& ~~~kspaceMask) + kspaceMask := by
  rw [BitVec.add_eq_or_of_and_eq_zero _ _ hzero]
  apply BitVec.eq_of_getLsbD_eq
  intro i hi
  have hbit := congrArg (fun x => x.getLsbD i) h
  simp only [BitVec.getLsbD_and] at hbit
  rw [BitVec.getLsbD_or, BitVec.getLsbD_and, BitVec.getLsbD_not]
  cases hmask : kspaceMask.getLsbD i with
  | false => simp [hi]
  | true =>
   rw [hmask, Bool.and_true] at hbit
   simp [hbit]
 unfold k2p
 rw [BitVec.sub_eq_iff_eq_add]
 exact hsplit

namespace KernelAddr
variable (ka : KernelAddr)

theorem k2p_base : k2p ka.base = ka.addr &&& ~~~pteFlagMask := by
 have hhigh : ka.base &&& kspaceMask = kspaceMask := by
  unfold base
  rw [BitVec.and_assoc, show ~~~0xfff#64 &&& kspaceMask = kspaceMask by decide]
  exact ka.high
 rw [k2p_of_high hhigh]
 unfold base
 rw [BitVec.and_assoc]
 rfl

theorem pteAddress_entry (flags : PteFlags) :
  pteAddress (k2p ka.base ||| flags.bits) = k2p ka.base := by
 have hflags : flags.bits &&& ~~~pteFlagMask = 0#64 := by
  have honly := flags.only
  unfold FlagsOnly pteFlags at honly
  rw [← honly, BitVec.and_assoc]
  simp
 unfold pteAddress
 rw [BitVec.and_or_distrib_right, hflags, k2p_base, BitVec.and_assoc, BitVec.and_self]
 simp

theorem pteFlags_entry (flags : PteFlags) : pteFlags (k2p ka.base ||| flags.bits) = flags.bits := by
 have hbase : k2p ka.base &&& pteFlagMask = 0#64 := by
  rw [k2p_base, BitVec.and_assoc]
  simp
 have honly := flags.only
 unfold FlagsOnly pteFlags at honly
 unfold pteFlags
 rw [and_or_distrib_right, hbase, honly]
 simp

end OSLab.Kernel.KernelAddr
