import OSLab.Kernel.Mem
import OSLab.Foundation.TransitionSystem

/-!
# The page counters

`kfree_page` takes one from `alloc_page_cnt` for every reference that is dropped, but only
the last one brings the page back to the queue.
-/

namespace OSLab.Kernel
open Foundation TransitionSystem

/--
`fork` calls `vmmap` for every page; a fault takes a page, may copy one, and maps it.  A
page on the queue holds its link, so it is not written or freed by anybody.
-/
inductive PageCall where
 | kallocPage
 | vmmap (f : Frame)
 | kfreePage (f : Frame)
 | copyPage (dst src : Frame)

namespace Memory

def call (m : Memory) : PageCall -> Option Memory
 | .kallocPage => m.kallocPage.map Prod.snd
 | .vmmap f => some (m.incrementRef f)
 | .kfreePage f => if m.pages.contains f then none else some (m.kfreePage f)
 | .copyPage dst src => if m.pages.contains dst then none else some (m.copyPage dst src)

def DropsLast (m : Memory) : PageCall -> Prop
 | .kfreePage f => f < m.firstPage ∨ m.ref f ≤ 1
 | _ => True

instance (m : Memory) : (l : PageCall) -> Decidable (m.DropsLast l)
 | .kfreePage _ => inferInstanceAs (Decidable (_ ∨ _))
 | .kallocPage | .vmmap _ | .copyPage _ _ => isTrue trivial

structure Counted (total : Int) (m : Memory) : Prop where
 left : m.leftPageCnt = m.pages.length
 total : m.allocPageCnt + m.leftPageCnt = total

theorem Counted.call {total : Int} {m next : Memory} {l : PageCall} (h : m.Counted total)
  (hlast : m.DropsLast l) (hcall : m.call l = some next) : next.Counted total := by
 have hleft := h.left
 have htotal := h.total
 cases l with
 | kallocPage =>
  rcases Option.map_eq_some_iff.mp hcall with ⟨⟨f, mem⟩, halloc, rfl⟩
  unfold Memory.kallocPage at halloc
  split at halloc
  · cases halloc
  rename_i rest hpages
  cases halloc
  rw [hpages, List.length_cons] at hleft
  constructor
  · change m.leftPageCnt - 1 = (rest.length : Int)
    omega
  · change m.allocPageCnt + 1 + (m.leftPageCnt - 1) = total
    omega
 | kfreePage f =>
  rcases Option.ite_none_left_eq_some.mp hcall with ⟨_, hcall⟩
  cases hcall
  unfold Memory.kfreePage
  split
  · exact h
  rename_i himage
  have href := hlast.resolve_left himage
  rw [if_pos (by omega)]
  constructor
  · change m.leftPageCnt + 1 = ((f :: m.pages).length : Int)
    rw [hleft]
    rfl
  · change m.allocPageCnt - 1 + (m.leftPageCnt + 1) = total
    omega
 | vmmap f =>
  cases hcall
  exact { h with }
 | copyPage dst src =>
  rcases Option.ite_none_left_eq_some.mp hcall with ⟨_, hcall⟩
  cases hcall
  exact { h with }

end Memory

def pageSystem : TransitionSystem Memory PageCall where
 initial := fun m => m.leftPageCnt = m.pages.length
 step := Memory.call

open Memory

/-- The counters follow the queue while no page loses a reference and keeps another one. -/
theorem page_counters_of_reaches {start m : Memory} (hstart : pageSystem.initial start)
  (hrun : Reaches pageSystem DropsLast start m) : m.leftPageCnt = m.pages.length ∧
   m.allocPageCnt + m.leftPageCnt = start.allocPageCnt + start.leftPageCnt ∧
   forall l next, m.DropsLast l -> m.call l = some next ->
    next.allocPageCnt - m.allocPageCnt = m.pages.length - next.pages.length := by
 have h := reaches_invariant (Counted (start.allocPageCnt + start.leftPageCnt))
  (fun _ _ _ _ h hlast hcall => h.call hlast hcall) hrun ⟨hstart, rfl⟩
 refine ⟨h.left, h.total, ?_⟩
 intro l next hlast hcall
 have hnext := h.call hlast hcall
 have htotal := h.total.trans hnext.total.symm
 rw [h.left, hnext.left] at htotal
 omega

def twoPages : Memory := ⟨fun _ _ => 0, fun _ => 0, [8#36, 9#36], 0, 2, 4#36⟩

/-- A page that one process maps is copied on a write and freed. -/
theorem page_counters_after_free : exists m, Reaches pageSystem DropsLast twoPages m ∧
  m.pages = [8#36] ∧ m.allocPageCnt = 1 ∧ m.leftPageCnt = m.pages.length := by
 have hstart : pageSystem.initial twoPages := rfl
 rcases exists_reaches_of_execute pageSystem DropsLast twoPages
  [.kallocPage, .vmmap 8#36, .kallocPage, .copyPage 9#36 8#36, .kfreePage 8#36, .vmmap 9#36]
  (fun m => m.pages = [8#36] ∧ m.allocPageCnt = 1) (by decide +kernel) with
  ⟨m, hrun, hpages, hcnt⟩
 exact ⟨m, hrun, hpages, hcnt, (page_counters_of_reaches hstart hrun).left⟩

/-- A page is mapped by two processes, and one of them copies it. -/
theorem page_counters_drift : exists m, Reaches pageSystem unguarded twoPages m ∧
  m.leftPageCnt = 0 ∧ m.allocPageCnt = 1 :=
 exists_reaches_of_execute _ _ _ [.kallocPage, .vmmap 8#36, .vmmap 8#36, .kallocPage,
  .copyPage 9#36 8#36, .kfreePage 8#36, .vmmap 9#36] _ (by decide +kernel)

end OSLab.Kernel
