import OSLab.Foundation.LittleEndian
import OSLab.Kernel.PageTable
import Mathlib.Logic.Function.Basic

/-!
# Physical pages

The page allocator of `kernel/mem.c`.  Free pages form a linked list whose links
stand in the first bytes of the pages themselves, so freeing a page changes its
contents and allocating one does not clear them.
-/

namespace OSLab.Kernel
open Foundation Function

abbrev Page := Bytes pageSize

/--
The memory with `pages_ref`, the queue `pages` and the two page counters.  The
pages below `firstPage` belong to the kernel image and are never freed.
-/
structure Memory where
 frames : Frame -> Page
 ref : Frame -> Int
 pages : List Frame
 allocPageCnt : Int
 leftPageCnt : Int
 firstPage : Frame

namespace Memory

def link : List Frame -> Nat
 | [] => 0
 | f :: _ => 0xffff000000000000 + f.toNat * pageSize

variable (m : Memory)

def addToQueue (f : Frame) : Memory :=
 { m with
   frames := update m.frames f (Bytes.splice (m.frames f) 0 8 (Bytes.leByte (link m.pages)))
   pages := f :: m.pages }

/-- `kalloc_page`, which is not defined when no page is left. -/
def kallocPage : Option (Frame × Memory) :=
 match m.pages with
 | [] => none
 | f :: rest =>
  some (f, { m with
   pages := rest
   ref := update m.ref f 0
   allocPageCnt := m.allocPageCnt + 1
   leftPageCnt := m.leftPageCnt - 1 })

def kfreePage (f : Frame) : Memory :=
 if f < m.firstPage then
  m
 else
  let dropped := { m with
   allocPageCnt := m.allocPageCnt - 1
   ref := update m.ref f (m.ref f - 1) }
  if m.ref f - 1 ≤ 0 then
   { dropped.addToQueue f with leftPageCnt := m.leftPageCnt + 1 }
  else
   dropped

def copyPage (dst src : Frame) : Memory :=
 { m with frames := update m.frames dst (m.frames src) }

def incrementRef (f : Frame) : Memory := { m with ref := update m.ref f (m.ref f + 1) }

/-!
# What the allocator does
-/

structure Allocates (m : Memory) (f : Frame) (next : Memory) : Prop where
 pages : m.pages = f :: next.pages
 frames : next.frames = m.frames
 ref : next.ref = update m.ref f 0

variable {m next : Memory}

theorem kallocPage_allocates {f : Frame}
  (h : m.kallocPage = some (f, next)) : m.Allocates f next := by
 unfold kallocPage at h
 split at h
 · cases h
 rename_i g rest hpages
 cases h
 exact ⟨hpages, rfl, rfl⟩

theorem kallocPage_firstPage {f : Frame}
  (h : m.kallocPage = some (f, next)) : next.firstPage = m.firstPage := by
 unfold kallocPage at h
 split at h
 · cases h
 cases h
 rfl

inductive Frees (m : Memory) (f : Frame) (next : Memory) : Prop where
 | image (heq : next = m)
 | kept (hpages : next.pages = m.pages) (hframes : next.frames = m.frames)
  (href : next.ref = update m.ref f (m.ref f - 1))
 | queued (hlast : m.ref f - 1 ≤ 0) (hpages : next.pages = f :: m.pages)
  (hframes : forall g, g ≠ f -> next.frames g = m.frames g)
  (href : next.ref = update m.ref f (m.ref f - 1))

theorem kfreePage_frees (m : Memory) (f : Frame) : m.Frees f (m.kfreePage f) := by
 unfold kfreePage
 split
 · exact .image rfl
 split
 · rename_i hlast
   refine .queued hlast rfl ?_ rfl
   intro g hg
   exact update_of_ne hg _ _
 · exact .kept rfl rfl rfl

theorem Frees.other {f g : Frame} (h : m.Frees f next) (hne : g ≠ f) :
  (g ∈ next.pages -> g ∈ m.pages) ∧ next.frames g = m.frames g ∧ next.ref g = m.ref g := by
 cases h with
 | image heq =>
  rw [heq]
  exact ⟨id, rfl, rfl⟩
 | kept hpages hframes href =>
  rw [hpages, hframes, href, update_of_ne hne]
  exact ⟨id, rfl, rfl⟩
 | queued hlast hpages hframes href =>
  rw [hpages, hframes g hne, href, update_of_ne hne]
  refine ⟨?_, rfl, rfl⟩
  intro hmem
  exact (List.mem_cons.mp hmem).resolve_left hne

end OSLab.Kernel.Memory
