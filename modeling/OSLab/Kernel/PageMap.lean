import OSLab.Kernel.PageDirectory

/-!
# The page table as a map

`get_pte` finds one entry for each page of the address space, `vmmap` changes the
entry of one page, and `free_pgdir` gives back what was allocated for the tables.
-/

namespace OSLab.Kernel
open Foundation TransitionSystem List Option Radix Memory
namespace PageDir
variable {s next : PageDir}

/-!
# Looking up
-/

theorem rootTable_lookup (s : PageDir) : s.rootTable false = some (s.pt, s) := by
 unfold rootTable
 cases s.pt with
 | none | some pt0 => rfl

theorem nextTable_lookup (s : PageDir) (pt : Frame) (i : Slot) :
  s.nextTable pt i false = some (s.mem.table pt i, s) := by
 unfold nextTable
 cases s.mem.table pt i with
 | none | some below => rfl

variable {result : Type}

theorem follow_lookup (s : PageDir) (x : Option Frame)
  (rest : Frame -> PageDir -> Option (Option result × PageDir)) :
  follow (some (x, s)) rest = x.elim (some (none, s)) fun f => rest f s := by
 cases x with
 | none | some f => rfl

theorem getPte_lookup (s : PageDir) (va : BitVec 64) : s.getPte va false =
    some (s.find va, (s.find va).elim s fun ptr => s.note va false ptr) := by
 unfold getPte find locate path
 simp only [rootTable_lookup, nextTable_lookup, follow_lookup]
 cases s.pt with
 | none => rfl
 | some pt0 =>
  simp only [elim_some, bind_some, walk_cons, walk_nil]
  cases s.mem.table pt0 (vaPart0 va) with
  | none => rfl
  | some pt1 =>
   simp only [elim_some, bind_some]
   cases s.mem.table pt1 (vaPart1 va) with
   | none => rfl
   | some pt2 =>
    simp only [elim_some, bind_some]
    cases s.mem.table pt2 (vaPart2 va) with
    | none | some pt3 => rfl

variable {va other : BitVec 64}

theorem find_eq_iff (h : s.Tree) {ptr ptr' : PtePtr}
  (hptr : s.find va = some ptr) (hptr' : s.find other = some ptr') :
  ptr = ptr' ↔ pageOf va = pageOf other := by
 rcases map_eq_some_iff.mp hptr with ⟨f, hf, heq⟩
 rcases map_eq_some_iff.mp hptr' with ⟨g, hg, heq'⟩
 rw [pageOf_eq_iff, ← heq, ← heq']
 constructor
 · intro hsame
   rcases Prod.mk.inj hsame with ⟨hfg, hslot⟩
   rw [← hfg] at hg
   exact ⟨h.place (Nat.le_refl 3) (Nat.le_refl 3) hf hg, hslot⟩
 intro hsame
 rw [hsame.left, hg] at hf
 rw [some.inj hf, hsame.right]

theorem find_congr (h : pageOf va = pageOf other) : s.find va = s.find other := by
 rcases (pageOf_eq_iff va other).mp h with ⟨hpath, hslot⟩
 unfold find
 rw [hpath, hslot]

/-!
# Allocating
-/

variable {r : Option (Option Frame × PageDir)}

theorem follow_eq_some {rest : Frame -> PageDir -> Option (Option result × PageDir)}
  {out : Option result × PageDir} (h : follow r rest = some out) :
  (exists mid, r = some (none, mid)) ∨
    exists f mid, r = some (some f, mid) ∧ rest f mid = some out := by
 cases r with
 | none => cases h
 | some x =>
  rcases x with ⟨x, mid⟩
  cases x with
  | none => exact .inl ⟨mid, rfl⟩
  | some f => exact .inr ⟨f, mid, rfl, h⟩

structure Arrives (s : PageDir) (p : List Slot) (x : Option Frame) (next : PageDir) :
  Prop where
 tree : next.Tree
 grown : Grown s next
 found : x ≠ none
 place : next.locate p = x

theorem rootTable_arrives {x : Option Frame} (h : s.Tree)
  (hstep : s.rootTable true = some (x, next)) : s.Arrives [] x next := by
 unfold rootTable at hstep
 split at hstep
 · rename_i pt0 hpt
   cases hstep
   exact ⟨h, Grown.refl s, some_ne_none pt0, locate_of_pt hpt []⟩
 rename_i hpt
 rcases map_eq_some_iff.mp hstep with ⟨⟨pt0, mid⟩, hnew, ⟨⟩⟩
 rcases newRoot_spec h hpt hnew with ⟨htree, hgrown, hplace⟩
 exact ⟨htree, hgrown, some_ne_none pt0, hplace⟩

theorem nextTable_arrives {x : Option Frame} {place : List Slot} {pt : Frame} {i : Slot}
  (h : s.Tree) (hplace : place.length < 3) (hpt : s.locate place = some pt)
  (hstep : s.nextTable pt i true = some (x, next)) : s.Arrives (place ++ [i]) x next := by
 rcases bind_eq_some_iff.mp hpt with ⟨root, hroot, hwalk⟩
 unfold nextTable at hstep
 split at hstep
 · rename_i below htable
   cases hstep
   refine ⟨h, Grown.refl s, some_ne_none below, ?_⟩
   rw [locate_of_pt hroot, walk_concat, hwalk]
   exact htable
 rename_i htable
 rcases map_eq_some_iff.mp hstep with ⟨⟨below, mid⟩, hnew, heq⟩
 rcases Prod.mk.inj heq with ⟨hx, hnext⟩
 have hfresh := newTable_fresh hnew
 have hlinked : s.Linked place i below next := by
  apply linked_setEntry h hroot hplace hpt htable hfresh
  · rw [← hnext]
  · rw [← hnext]
 rw [← hx]
 constructor
 · apply hlinked.tree h hplace hfresh
   · rw [← hnext]
   rw [← hnext]
   rfl
 · apply hlinked.grown h hplace hfresh
   · have hlisted : pt ∈ mid.tables := by
      rw [hfresh.tables]
      exact mem_cons_of_mem below ((h.listed pt).mpr ⟨place, Nat.le_of_lt hplace, hpt⟩)
     rw [← hnext]
     refine hfresh.takes ?_ ?_ ?_ ?_ ?_
     · rfl
     · rfl
     · rfl
     · rfl
     intro g hg
     apply Function.update_of_ne
     rintro rfl
     exact hg hlisted
   · rw [← hnext]
   · rw [← hnext]
 · exact some_ne_none below
 · exact hlinked.here

theorem arrives_follow {p : List Slot} {mid : PageDir}
  {rest : Frame -> PageDir -> Option (Option result × PageDir)} {out : Option result × PageDir}
  (harrives : forall x next, r = some (x, next) -> mid.Arrives p x next)
  (h : follow r rest = some out) :
  exists f next, r = some (some f, next) ∧ mid.Arrives p (some f) next ∧
    rest f next = some out := by
 rcases follow_eq_some h with ⟨next, hr⟩ | ⟨f, next, hr, hrest⟩
 · exact absurd rfl (harrives none next hr).found
 · exact ⟨f, next, hr, harrives (some f) next hr, hrest⟩

variable {va : BitVec 64}

theorem getPte_alloc {x : Option PtePtr} (h : s.Tree) (hstep : s.getPte va true = some (x, next)) :
  exists ptr mid, x = some ptr ∧ next = mid.note va true ptr ∧ mid.Tree ∧
    Grown s mid ∧ mid.find va = some ptr := by
 rcases arrives_follow (fun x next hr => rootTable_arrives h hr) hstep
  with ⟨pt0, s0, _, h0, hrest0⟩
 rcases arrives_follow (fun x next hr => nextTable_arrives h0.tree (by simp) h0.place hr) hrest0
  with ⟨pt1, s1, _, h1, hrest1⟩
 rcases arrives_follow (fun x next hr => nextTable_arrives h1.tree (by simp) h1.place hr) hrest1
  with ⟨pt2, s2, _, h2, hrest2⟩
 rcases arrives_follow (fun x next hr => nextTable_arrives h2.tree (by simp) h2.place hr) hrest2
  with ⟨pt3, s3, _, h3, hrest3⟩
 rcases Prod.mk.inj (some.inj hrest3) with ⟨hx, hnext⟩
 refine ⟨(pt3, vaPart3 va), s3, hx.symm, hnext.symm, h3.tree,
  h0.grown.trans (h1.grown.trans (h2.grown.trans h3.grown)), ?_⟩
 unfold find
 have hthere : s3.locate (path va) = some pt3 := h3.place
 rw [hthere]
 rfl

/-!
# Pages for the tables
-/

variable {n : Nat}

theorem newTable_returns (h : n + 1 ≤ s.mem.pages.length) :
  exists f next, s.newTable = some (f, next) ∧ n ≤ next.mem.pages.length := by
 cases hpages : s.mem.pages with
 | nil =>
  rw [hpages] at h
  cases h
 | cons f rest =>
  unfold newTable kallocPage
  rw [hpages] at h ⊢
  exact ⟨f, _, rfl, Nat.le_of_succ_le_succ h⟩

theorem rootTable_returns (h : n + 1 ≤ s.mem.pages.length) :
  exists f next, s.rootTable true = some (some f, next) ∧ n ≤ next.mem.pages.length := by
 unfold rootTable
 cases s.pt with
 | some pt0 => exact ⟨pt0, s, rfl, Nat.le_of_succ_le h⟩
 | none =>
  rcases newTable_returns h with ⟨f, next, hnew, hleft⟩
  unfold newRoot
  rw [hnew]
  exact ⟨f, _, rfl, hleft⟩

theorem nextTable_returns (pt : Frame) (i : Slot) (h : n + 1 ≤ s.mem.pages.length) :
  exists f next, s.nextTable pt i true = some (some f, next) ∧ n ≤ next.mem.pages.length := by
 unfold nextTable
 cases s.mem.table pt i with
 | some below => exact ⟨below, s, rfl, Nat.le_of_succ_le h⟩
 | none =>
  rcases newTable_returns h with ⟨f, next, hnew, hleft⟩
  rw [hnew]
  exact ⟨f, _, rfl, hleft⟩

theorem getPte_returns (va : BitVec 64) (h : 4 ≤ s.mem.pages.length) :
  exists ptr next, s.getPte va true = some (some ptr, next) := by
 unfold getPte
 rcases rootTable_returns h with ⟨pt0, s0, hroot, hleft0⟩
 rcases nextTable_returns pt0 (vaPart0 va) hleft0 with ⟨pt1, s1, hnext1, hleft1⟩
 rcases nextTable_returns pt1 (vaPart1 va) hleft1 with ⟨pt2, s2, hnext2, hleft2⟩
 rcases nextTable_returns pt2 (vaPart2 va) hleft2 with ⟨pt3, s3, hnext3, _⟩
 refine ⟨(pt3, vaPart3 va), s3.note va true (pt3, vaPart3 va), ?_⟩
 rw [hroot]
 change follow (s0.nextTable pt0 (vaPart0 va) true) _ = _
 rw [hnext1]
 change follow (s1.nextTable pt1 (vaPart1 va) true) _ = _
 rw [hnext2]
 change follow (s2.nextTable pt2 (vaPart2 va) true) _ = _
 rw [hnext3]
 rfl

/-!
# Mapping
-/

theorem note_tree (h : s.Tree) (va : BitVec 64) (alloc : Bool) (ptr : PtePtr) :
  (s.note va alloc ptr).Tree :=
 { h with }

/-- `vmmap` is a lookup that cannot fail and a store to the entry found. -/
structure Stored (s : PageDir) (va : BitVec 64) (pte : PTEntry) (next : PageDir) :
  Prop where
 tree : next.Tree
 locate : forall p, p.length ≤ 3 -> next.locate p = s.locate p
 entry : forall ptr, s.find va = some ptr -> next.mem.entry ptr = pte
 others : forall ptr ptr', s.find va = some ptr -> ptr' ≠ ptr ->
  next.mem.entry ptr' = s.mem.entry ptr'

variable {pte : PTEntry}

theorem stored_setEntry {ptr : PtePtr} (h : s.Tree)
  (hptr : s.find va = some ptr) (hmem : next.mem.frames = (s.mem.setEntry ptr pte).frames)
  (hpages : next.mem.pages = s.mem.pages) (hpt : next.pt = s.pt)
  (htables : next.tables = s.tables) : s.Stored va pte next := by
 rcases map_eq_some_iff.mp hptr with ⟨f, hf, heq⟩
 have hsame : forall p g, p.length < 3 -> s.locate p = some g ->
  next.mem.table g = s.mem.table g := by
  intro p g hp hg
  have hne : g ≠ ptr.1 := by
   intro hgf
   rw [hgf, ← heq] at hg
   have hplace := h.place (Nat.le_of_lt hp) (Nat.le_of_eq (length_path va)) hg hf
   rw [hplace, length_path] at hp
   exact absurd hp (Nat.lt_irrefl 3)
  apply table_congr
  rw [hmem, frames_setEntry, Function.update_of_ne hne]
 have hqueue : next.mem.pages.Nodup := by
  rw [hpages]
  exact h.queue
 have hapart : forall g, g ∈ s.tables -> g ∉ next.mem.pages := by
  rw [hpages]
  exact h.apart
 rcases h.of_tables hpt htables hsame hqueue hapart with ⟨htree, hlocate⟩
 constructor
 · exact htree
 · exact hlocate
 · intro ptr' hptr'
   have hself : ptr' = ptr := some.inj (hptr'.symm.trans hptr)
   have hread : next.mem.entry ptr = (s.mem.setEntry ptr pte).entry ptr :=
    entry_congr (congrFun hmem ptr.1) ptr.2
   rw [hself, hread, entry_setEntry]
 · intro ptr' other hptr' hne
   have hself : ptr' = ptr := some.inj (hptr'.symm.trans hptr)
   have hread : next.mem.entry other = (s.mem.setEntry ptr pte).entry other :=
    entry_congr (congrFun hmem other.1) other.2
   rw [hself] at hne
   rw [hread, entry_setEntry_of_ne hne]

theorem Stored.find (h : s.Stored va pte next)
  (other : BitVec 64) : next.find other = s.find other := by
 unfold PageDir.find
 rw [h.locate (path other) (Nat.le_refl 3)]

theorem Stored.entryOf {ptr : PtePtr}
  (h : s.Stored va pte next) (htree : s.Tree) (hptr : s.find va = some ptr) (other : BitVec 64) :
  next.entryOf other = if pageOf other = pageOf va then pte else s.entryOf other := by
 unfold PageDir.entryOf
 rw [h.find other]
 by_cases hpage : pageOf other = pageOf va
 · rw [if_pos hpage, find_congr hpage, hptr]
   exact h.entry ptr hptr
 rw [if_neg hpage]
 cases hother : s.find other with
 | none => rfl
 | some ptr' =>
  apply h.others ptr ptr' hptr
  intro heq
  exact hpage ((find_eq_iff htree hother hptr).mp heq)

variable {flags : PteFlags} {ka : KernelAddr}

section
variable (h : s.Tree) (hstep : s.vmmap va ka flags = some next)
include h hstep

theorem vmmap_spec : exists ptr mid, mid.Tree ∧ Grown s mid ∧ mid.find va = some ptr ∧
    mid.Stored va (k2p ka.base ||| flags.bits) next ∧
    next = ⟨(mid.mem.setEntry ptr (k2p ka.base ||| flags.bits)).incrementRef ka.page,
      mid.pt, mid.tables, (va, ptr) :: s.found, va :: s.reached⟩ := by
 unfold vmmap at hstep
 split at hstep
 · rename_i ptr noted hget
   rcases getPte_alloc h hget with ⟨ptr', mid, hx, hnote, htree, hgrown, hfind⟩
   have hptr : ptr = ptr' := some.inj hx
   subst hptr
   subst hnote
   have hnext := some.inj hstep
   refine ⟨ptr, mid, htree, hgrown, hfind, ?_, ?_⟩
   · apply stored_setEntry htree hfind
     all_goals
      rw [← hnext]
      rfl
   rw [← hnext, ← hgrown.found, ← hgrown.reached]
   rfl
 · cases hstep

theorem vmmap_frames {g : Frame} (hg : g ∉ next.tables) : next.mem.frames g = s.mem.frames g := by
 rcases vmmap_spec h hstep with ⟨ptr, mid, htree, hgrown, hfind, _, hnext⟩
 rcases hgrown.takes with ⟨new, htakes⟩
 have htables : next.tables = mid.tables := by rw [hnext]
 rw [htables] at hg
 have hold : mid.mem.frames g = s.mem.frames g := htakes.frames g hg
 rw [← hold, hnext]
 change (mid.mem.setEntry ptr (k2p ka.base ||| flags.bits)).frames g = mid.mem.frames g
 rw [frames_setEntry]
 apply Function.update_of_ne
 intro heq
 rcases map_eq_some_iff.mp hfind with ⟨pt3, hpt3, hptr⟩
 apply hg
 rw [heq, ← hptr]
 exact (htree.listed pt3).mpr ⟨_, Nat.le_of_eq (length_path va), hpt3⟩

theorem vmmap_entryOf (other : BitVec 64) : next.entryOf other =
    if pageOf other = pageOf va then k2p ka.base ||| flags.bits else s.entryOf other := by
 rcases vmmap_spec h hstep with ⟨ptr, mid, htree, hgrown, hfind, hstored, _⟩
 rw [hstored.entryOf htree hfind other, hgrown.entryOf other]
end

theorem vmmap_returns (va : BitVec 64) (ka : KernelAddr) (flags : PteFlags)
  (h : 4 ≤ s.mem.pages.length) : exists next, s.vmmap va ka flags = some next := by
 rcases getPte_returns va h with ⟨ptr, next, hget⟩
 unfold vmmap
 rw [hget]
 exact ⟨_, rfl⟩

/-!
# Freeing
-/

theorem foldl_release (pages : List Frame) (x : Freeing) :
  pages.foldl release x = (pages.foldl kfreePage x.1, x.2 ++ pages) := by
 induction pages generalizing x with
 | nil => rw [foldl_nil, foldl_nil, append_nil]
 | cons f rest ih =>
  rw [foldl_cons, foldl_cons, ih]
  unfold release
  rw [append_assoc, singleton_append]

theorem free_eq_teardown (x : Freeing) (pt : Frame) : release (freeEntries freePt1 x pt) pt =
    teardown (fun x : Freeing => x.1.table) release allSlots 3 x pt := by
 have htwo : freePt2 = teardown (fun x : Freeing => x.1.table) release allSlots 1 := by
  funext x pt2
  rfl
 have hone : freePt1 = teardown (fun x : Freeing => x.1.table) release allSlots 2 := by
  funext x pt1
  unfold freePt1
  rw [htwo, teardown]
  rfl
 rw [hone, teardown]
 rfl

theorem freePgdir_eq {root : Frame} (h : s.Tree) (hroot : s.pt = some root) : s.freePgdir =
    (⟨(postorder s.mem.table allSlots 3 root).foldl kfreePage s.mem, none, [], [], []⟩,
      postorder s.mem.table allSlots 3 root) := by
 have hrelease : forall (x : Freeing) (f g : Frame), g ≠ f ->
  (release x f).1.table g = x.1.table g := by
  intro x f g hne
  apply table_congr
  exact ((x.1.kfreePage_frees f).other hne).right.left
 have hlist := @teardown_eq Frame Slot Freeing (fun x => x.1.table) release allSlots
  mem_allSlots nodup_allSlots hrelease 3 (s.mem, []) root (h.separate root hroot)
 rw [foldl_release] at hlist
 simp only [nil_append] at hlist
 unfold freePgdir
 rw [hroot]
 simp only
 rw [free_eq_teardown, hlist]

theorem mem_postorder_iff {root : Frame} (h : s.Tree) (hroot : s.pt = some root)
  (f : Frame) : f ∈ postorder s.mem.table allSlots 3 root ↔ f ∈ s.tables := by
 rw [mem_postorder mem_allSlots, h.listed f]
 constructor
 · rintro ⟨p, hp, hwalk⟩
   exact ⟨p, hp, (locate_of_pt hroot p).trans hwalk⟩
 · rintro ⟨p, hp, hlocate⟩
   exact ⟨p, hp, (locate_of_pt hroot p).symm.trans hlocate⟩

theorem freePgdir_perm (h : s.Tree) : s.freePgdir.2.Perm s.tables := by
 cases hroot : s.pt with
 | none =>
  have hnone : s.tables = [] := by
   apply eq_nil_iff_forall_not_mem.mpr
   intro f hf
   rcases (h.listed f).mp hf with ⟨p, _, hp⟩
   rw [locate_of_none hroot] at hp
   cases hp
  unfold freePgdir
  rw [hroot, hnone]
 | some root =>
  rw [freePgdir_eq h hroot]
  apply (perm_ext_iff_of_nodup _ h.nodup).mpr
  · exact mem_postorder_iff h hroot
  · exact nodup_postorder mem_allSlots nodup_allSlots (h.separate root hroot)

theorem nodup_foldl_kfreePage {pages : List Frame} {m : Memory} (hpages : pages.Nodup)
  (hqueue : m.pages.Nodup) (hapart : forall f, f ∈ pages -> f ∉ m.pages) :
  (pages.foldl kfreePage m).pages.Nodup := by
 induction pages generalizing m with
 | nil => exact hqueue
 | cons f rest ih =>
  rw [nodup_cons] at hpages
  have hfrees := m.kfreePage_frees f
  apply ih hpages.right
  · cases hfrees with
    | image heq =>
     rw [heq]
     exact hqueue
    | kept hsame hframes href =>
     rw [hsame]
     exact hqueue
    | queued hlast hqueued hframes href =>
     rw [hqueued]
     exact nodup_cons.mpr ⟨hapart f mem_cons_self, hqueue⟩
  intro g hg hmem
  have hne : g ≠ f := by
   rintro rfl
   exact hpages.left hg
  exact hapart g (mem_cons_of_mem f hg) ((hfrees.other hne).left hmem)

theorem tree_of_none {m : Memory} (hqueue : m.pages.Nodup) :
  (⟨m, none, [], [], []⟩ : PageDir).Tree where
 separate := by nofun
 listed := by
  intro f
  constructor
  · nofun
  · rintro ⟨p, _, hp⟩
    cases hp
 nodup := nodup_nil
 queue := hqueue
 apart := by nofun

theorem freePgdir_tree (h : s.Tree) : s.freePgdir.1.Tree ∧ (s.freePgdir.1 = s ∨
    s.freePgdir.1.found = [] ∧ s.freePgdir.1.reached = []) := by
 cases hroot : s.pt with
 | none =>
  have hsame : s.freePgdir.1 = s := by
   unfold freePgdir
   rw [hroot]
  rw [hsame]
  exact ⟨h, .inl rfl⟩
 | some root =>
  rw [freePgdir_eq h hroot]
  refine ⟨?_, .inr ⟨rfl, rfl⟩⟩
  apply tree_of_none
  apply nodup_foldl_kfreePage
  · exact nodup_postorder mem_allSlots nodup_allSlots (h.separate root hroot)
  · exact h.queue
  intro f hf
  exact h.apart f ((mem_postorder_iff h hroot f).mp hf)

end PageDir

/-!
# Runs

Between the calls the rest of the kernel uses the memory.  It does not write to the
tables and does not free them, so `kalloc_page` gives pages that are not in use.
-/

inductive PageDirLabel where
 | getPte (va : BitVec 64) (alloc : Bool)
 | vmmap (va : BitVec 64) (ka : KernelAddr) (flags : PteFlags)
 | freePgdir
 | others (mem : Memory)

namespace PageDir

def step (s : PageDir) : PageDirLabel -> Option PageDir
 | .getPte va alloc => (s.getPte va alloc).map Prod.snd
 | .vmmap va ka flags => s.vmmap va ka flags
 | .freePgdir => some s.freePgdir.1
 | .others mem => some { s with mem := mem }

def Sheltered (s : PageDir) : PageDirLabel -> Prop
 | .others mem =>
  mem.pages.Nodup ∧ forall f, f ∈ s.tables -> mem.frames f = s.mem.frames f ∧ f ∉ mem.pages
 | _ => True

end PageDir

def pageDirSystem : TransitionSystem PageDir PageDirLabel where
 initial := fun s => exists mem : Memory, mem.pages.Nodup ∧ PageDir.initPgdir mem = some s
 step := PageDir.step

namespace PageDir

structure Sound (s : PageDir) : Prop extends s.Tree where
 answers : forall va ptr, (va, ptr) ∈ s.found -> s.find va = some ptr
 created : forall va, va ∈ s.reached -> s.find va ≠ none

variable {s next : PageDir}

section
variable (h : s.Sound)
include h

theorem Sound.of_find (htree : next.Tree)
  (hfind : forall va ptr, s.find va = some ptr -> next.find va = some ptr)
  (hfound : next.found = s.found) (hreached : next.reached = s.reached) :
  next.Sound where
 toTree := htree
 answers := by
  rw [hfound]
  intro va ptr hmem
  exact hfind va ptr (h.answers va ptr hmem)
 created := by
  rw [hreached]
  intro va hmem
  cases hptr : s.find va with
  | none => exact absurd hptr (h.created va hmem)
  | some ptr =>
   rw [hfind va ptr hptr]
   exact some_ne_none ptr

variable {va : BitVec 64}

theorem Sound.note {ptr : PtePtr} (alloc : Bool)
  (hptr : s.find va = some ptr) : (s.note va alloc ptr).Sound where
 toTree := note_tree h.toTree va alloc ptr
 answers := by
  intro other ptr' hmem
  rcases mem_cons.mp hmem with heq | hold
  · rcases Prod.mk.inj heq with ⟨hva, hptr'⟩
    rw [hva, hptr']
    exact hptr
  · exact h.answers other ptr' hold
 created := by
  intro other hmem
  cases alloc with
  | false => exact h.created other hmem
  | true =>
   rcases mem_cons.mp hmem with heq | hold
   · rw [heq]
     change s.find va ≠ none
     rw [hptr]
     exact some_ne_none ptr
   · exact h.created other hold

theorem Sound.getPte {alloc : Bool} {x : Option PtePtr}
  (hstep : s.getPte va alloc = some (x, next)) : next.Sound := by
 cases alloc with
 | false =>
  rw [getPte_lookup] at hstep
  rcases Prod.mk.inj (some.inj hstep) with ⟨_, hnext⟩
  rw [← hnext]
  cases hptr : s.find va with
  | none => exact h
  | some ptr => exact h.note false hptr
 | true =>
  rcases getPte_alloc h.toTree hstep with ⟨ptr, mid, _, hnext, htree, hgrown, hptr⟩
  rw [hnext]
  have hmid : mid.Sound :=
   h.of_find htree (fun _ _ hold => hgrown.find hold) hgrown.found hgrown.reached
  exact hmid.note true hptr

theorem Sound.vmmap {ka : KernelAddr} {flags : PteFlags}
  (hstep : s.vmmap va ka flags = some next) : next.Sound := by
 rcases vmmap_spec h.toTree hstep with ⟨ptr, mid, htree, hgrown, hptr, hstored, hnext⟩
 have hmid : mid.Sound :=
  h.of_find htree (fun _ _ hold => hgrown.find hold) hgrown.found hgrown.reached
 apply (hmid.note true hptr).of_find hstored.tree
 · intro other ptr' hold
   rw [hstored.find other]
   exact hold
 · rw [hnext, ← hgrown.found]
   rfl
 rw [hnext, ← hgrown.reached]
 rfl

theorem Sound.free : s.freePgdir.1.Sound := by
 rcases freePgdir_tree h.toTree with ⟨htree, hsame | ⟨hfound, hreached⟩⟩
 · rw [hsame]
   exact h
 refine { htree with answers := ?_, created := ?_ }
 · rw [hfound]
   nofun
 rw [hreached]
 nofun

theorem Sound.others {mem : Memory} (hqueue : mem.pages.Nodup)
  (htables : forall f, f ∈ s.tables -> mem.frames f = s.mem.frames f ∧ f ∉ mem.pages) :
  { s with mem := mem }.Sound := by
 have hsame : forall p f, p.length < 3 -> s.locate p = some f -> mem.table f = s.mem.table f := by
  intro p f hp hf
  apply table_congr
  exact (htables f ((h.listed f).mpr ⟨p, Nat.le_of_lt hp, hf⟩)).left
 have htree : { s with mem := mem }.Tree ∧
  forall p, p.length ≤ 3 -> { s with mem := mem }.locate p = s.locate p :=
  h.toTree.of_tables rfl rfl hsame hqueue (fun f hf => (htables f hf).right)
 apply h.of_find htree.left _ rfl rfl
 intro va ptr hptr
 unfold find
 rw [htree.right (path va) (Nat.le_refl 3)]
 exact hptr
end

theorem sound_init {mem : Memory} (hqueue : mem.pages.Nodup)
  (h : initPgdir mem = some s) : s.Sound := by
 rcases map_eq_some_iff.mp h with ⟨⟨root, dir⟩, hnew, rfl⟩
 rcases newRoot_spec (tree_of_none hqueue) rfl hnew with ⟨htree, hgrown, _⟩
 refine { htree with answers := ?_, created := ?_ }
 · rw [hgrown.found]
   nofun
 rw [hgrown.reached]
 nofun

theorem sound_of_reachable (hreach : Reachable pageDirSystem Sheltered s) : s.Sound := by
 apply reachable_invariant Sound _ _ hreach
 · rintro start ⟨mem, hqueue, hinit⟩
   exact sound_init hqueue hinit
 intro s l next _ h hguard hstep
 cases l with
 | getPte va alloc =>
  rcases map_eq_some_iff.mp hstep with ⟨⟨x, dir⟩, hget, rfl⟩
  exact h.getPte hget
 | vmmap va ka flags => exact h.vmmap hstep
 | freePgdir =>
  rw [← some.inj hstep]
  exact h.free
 | others mem =>
  rw [← some.inj hstep]
  exact h.others hguard.left hguard.right

/-!
# The map
-/

structure ActsAsMap (s : PageDir) : Prop where
 sameSlot : forall va ptr va' ptr', (va, ptr) ∈ s.found -> (va', ptr') ∈ s.found ->
  (ptr = ptr' ↔ pageOf va = pageOf va')
 maps : forall va ka flags next, s.vmmap va ka flags = some next -> forall va', next.translate va' =
   if pageOf va' = pageOf va then (k2p ka.base, flags.bits) else s.translate va'
 allocates : forall va ptr next, s.getPte va true = some (ptr, next) ->
  ptr ≠ none ∧ forall va', next.translate va' = s.translate va'
 looksUp : forall va, exists ptr next, s.getPte va false = some (ptr, next) ∧
  next.mem = s.mem ∧ next.pt = s.pt ∧
  (ptr = none -> forall va', va' ∈ s.reached -> pageOf va' ≠ pageOf va)
 returns : 4 ≤ s.mem.pages.length -> forall va,
  (exists ptr next, s.getPte va true = some (ptr, next)) ∧
   forall ka flags, exists next, s.vmmap va ka flags = some next
 frees : s.tables.Nodup ∧ s.freePgdir.2.Perm s.tables

end PageDir

theorem page_table_acts_as_map {s : PageDir}
  (hreach : Reachable pageDirSystem PageDir.Sheltered s) : s.ActsAsMap := by
 have h := PageDir.sound_of_reachable hreach
 constructor
 · intro va ptr va' ptr' hmem hmem'
   exact PageDir.find_eq_iff h.toTree (h.answers va ptr hmem) (h.answers va' ptr' hmem')
 · intro va ka flags next hstep va'
   rcases PageDir.vmmap_spec h.toTree hstep with ⟨ptr, mid, htree, hgrown, hptr, hstored, _⟩
   unfold PageDir.translate
   rw [hstored.entryOf htree hptr va', hgrown.entryOf va']
   by_cases hpage : pageOf va' = pageOf va
   · rw [if_pos hpage, if_pos hpage, ka.pteAddress_entry flags, ka.pteFlags_entry flags]
   · rw [if_neg hpage, if_neg hpage]
 · intro va ptr next hstep
   rcases PageDir.getPte_alloc h.toTree hstep with ⟨ptr', mid, hx, hnext, _, hgrown, _⟩
   constructor
   · rw [hx]
     exact some_ne_none ptr'
   intro va'
   have hentry : next.entryOf va' = s.entryOf va' := by
    rw [hnext]
    exact hgrown.entryOf va'
   unfold PageDir.translate
   rw [hentry]
 · intro va
   refine ⟨_, _, PageDir.getPte_lookup s va, ?_⟩
   cases hptr : s.find va with
   | none =>
    refine ⟨rfl, rfl, ?_⟩
    intro _ va' hmem hpage
    apply h.created va' hmem
    rw [PageDir.find_congr hpage]
    exact hptr
   | some ptr =>
    refine ⟨rfl, rfl, ?_⟩
    intro hnone
    exact absurd hnone (some_ne_none ptr)
 · intro hpages va
   constructor
   · rcases PageDir.getPte_returns va hpages with ⟨ptr, next, hget⟩
     exact ⟨some ptr, next, hget⟩
   · intro ka flags
     exact PageDir.vmmap_returns va ka flags hpages
 · exact ⟨h.nodup, PageDir.freePgdir_perm h.toTree⟩

/-!
# A directory with two pages

The free pages hold data of their former users.
-/

namespace PageDir

def usedMemory : Memory where
 frames := fun _ _ => 255
 ref := fun _ => 0
 pages := [101#36, 102#36, 103#36, 104#36, 105#36, 106#36]
 allocPageCnt := 0
 leftPageCnt := 6
 firstPage := 64#36

def kernelPage : KernelAddr where
 addr := 0xffff0000000c8123#64
 high := by decide

def userData : PteFlags where
 bits := pteUserData
 only := flagsOnly_userData

def Alone (_ : PageDir) : PageDirLabel -> Prop
 | .others _ => False
 | _ => True

instance (s : PageDir) (l : PageDirLabel) : Decidable (s.Alone l) :=
 match l with
 | .getPte _ _ | .vmmap _ _ _ | .freePgdir => isTrue trivial
 | .others _ => isFalse id

theorem sheltered_of_alone (s : PageDir) (l : PageDirLabel) (h : s.Alone l) : s.Sheltered l := by
 cases l with
 | getPte va alloc | vmmap va ka flags | freePgdir => trivial
 | others mem => exact absurd h id

end PageDir

open PageDirLabel PageDir in
theorem page_table_with_two_pages :
  exists s, Reachable pageDirSystem PageDir.Sheltered s ∧ s.ActsAsMap ∧
    s.translate 0x401008#64 = (0xc8000#64, pteUserData) ∧
    s.translate 0x402000#64 = (0#64, 0#64) ∧
    s.tables = [104#36, 103#36, 102#36, 101#36] ∧
    s.found = [(0x402000#64, (104#36, 2#9)), (0x401000#64, (104#36, 1#9))] := by
 have hboot : pageDirSystem.initial ((initPgdir usedMemory).get (by decide)) :=
  ⟨usedMemory, by decide, (some_get _).symm⟩
 rcases exists_reachable_of_execute pageDirSystem PageDir.Alone hboot
  [vmmap 0x401000#64 kernelPage userData, getPte 0x402000#64 true]
  (fun s => s.translate 0x401008#64 = (0xc8000#64, pteUserData) ∧
   s.translate 0x402000#64 = (0#64, 0#64) ∧
   s.tables = [104#36, 103#36, 102#36, 101#36] ∧
   s.found = [(0x402000#64, (104#36, 2#9)), (0x401000#64, (104#36, 1#9))])
  (by decide +kernel) with ⟨s, hreach, htest⟩
 have hsheltered := reachable_mono PageDir.sheltered_of_alone hreach
 exact ⟨s, hsheltered, page_table_acts_as_map hsheltered, htest⟩

end OSLab.Kernel
