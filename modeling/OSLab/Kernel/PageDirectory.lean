import OSLab.Kernel.PageWalk

/-!
# The tree of page tables

The tables of a page directory form a tree in which no page stands at two places.
A new table comes from the allocator and is filled with zeros before an entry leads
to it, so tables are added without a change of what is there.
-/

namespace OSLab.Kernel
open Foundation Function List Memory Radix Bytes
namespace Memory
variable {m : Memory}

theorem frames_setEntry (m : Memory) (ptr : PtePtr) (pte : PTEntry) :
  (m.setEntry ptr pte).frames = update m.frames ptr.1
    (splice (m.frames ptr.1) (8 * ptr.2.toNat) 8 (leByte pte.toNat)) :=
 rfl

theorem entry_setEntry (m : Memory) (ptr : PtePtr) (pte : PTEntry) :
  (m.setEntry ptr pte).entry ptr = pte := by
 have hsize : 8 * ptr.2.toNat + 8 ≤ pageSize := by
  unfold pageSize
  omega
 have hword : pte.toNat < 256 ^ 8 := pte.isLt
 unfold entry
 rw [frames_setEntry, update_self, readLE_splice_leByte _ hsize, Nat.mod_eq_of_lt hword,
  BitVec.ofNat_toNat, BitVec.setWidth_eq]

theorem entry_setEntry_of_ne {ptr other : PtePtr} (h : other ≠ ptr) (pte : PTEntry) :
  (m.setEntry ptr pte).entry other = m.entry other := by
 unfold entry
 rw [frames_setEntry]
 by_cases hpage : other.1 = ptr.1
 · have hslot : other.2.toNat ≠ ptr.2.toNat := by
    intro heq
    exact h (Prod.ext hpage (BitVec.eq_of_toNat_eq heq))
   rw [hpage, update_self, readLE_splice_outside]
   omega
 · rw [update_of_ne hpage]

variable {f : Frame}

theorem entry_congr {other : Memory} (h : other.frames f = m.frames f)
  (i : Slot) : other.entry (f, i) = m.entry (f, i) := by
 unfold entry
 rw [h]

theorem table_congr {other : Memory} (h : other.frames f = m.frames f) :
  other.table f = m.table f := by
 funext i
 unfold table
 rw [entry_congr h i]

theorem entry_clearPage (m : Memory) (f : Frame) (i : Slot) :
  (m.clearPage f).entry (f, i) = 0#64 := by
 have hzero : forall off width, readLE (byteAt (fun _ => 0 : Page)) off width = 0 := by
  intro off width
  induction width generalizing off with
  | zero => rfl
  | succ width ih =>
   have hbyte : byteAt (fun _ => 0 : Page) off = 0 := by
    unfold byteAt
    split
    · rfl
    · rfl
   rw [readLE, ih, hbyte]
   rfl
 have hframe : (m.clearPage f).frames f = fun _ => 0 := update_self ..
 unfold entry
 rw [hframe, hzero]

theorem table_of_entry_zero {i : Slot} (h : m.entry (f, i) = 0#64) : m.table f i = none := by
 unfold table
 rw [h, not_valid_zero]
 rfl

theorem table_setEntry_of_ne {ptr : PtePtr} (h : f ≠ ptr.1) (pte : PTEntry) :
  (m.setEntry ptr pte).table f = m.table f := by
 apply table_congr
 exact update_of_ne h _ _

theorem table_setEntry_table (m : Memory) (ptr : PtePtr) (below : Frame) :
  (m.setEntry ptr (mkPte below pteTable)).table ptr.1 ptr.2 = some below := by
 have honly : FlagsOnly pteTable := by decide
 unfold table
 rw [entry_setEntry, isValid_mkPte below honly, pteFrame_mkPte below honly]
 rfl

theorem table_setEntry_slot {i j : Slot} (h : j ≠ i) (pte : PTEntry) :
  (m.setEntry (f, i) pte).table f j = m.table f j := by
 have hne : (f, j) ≠ (f, i) := by
  intro heq
  injection heq with _ hslot
  exact h hslot
 unfold table
 rw [entry_setEntry_of_ne hne]

end Memory

namespace PageDir
variable {s next : PageDir}

/-!
# The invariant of the tree
-/

structure Tree (s : PageDir) : Prop where
 separate : forall root, s.pt = some root -> Separate s.mem.table 3 root
 listed : forall f, f ∈ s.tables ↔ exists p, p.length ≤ 3 ∧ s.locate p = some f
 nodup : s.tables.Nodup
 queue : s.mem.pages.Nodup
 apart : forall f, f ∈ s.tables -> f ∉ s.mem.pages

theorem locate_of_pt {root : Frame} (h : s.pt = some root) (p : List Slot) :
  s.locate p = walk s.mem.table root p := by
 unfold locate
 rw [h]
 rfl

theorem locate_of_none (h : s.pt = none) (p : List Slot) : s.locate p = none := by
 unfold locate
 rw [h]
 rfl

variable {f : Frame}

theorem Tree.place (h : s.Tree) {p q : List Slot} (hp : p.length ≤ 3)
  (hq : q.length ≤ 3) (hatp : s.locate p = some f) (hatq : s.locate q = some f) :
  p = q := by
 cases hpt : s.pt with
 | none =>
  rw [locate_of_none hpt] at hatp
  cases hatp
 | some root =>
  rw [locate_of_pt hpt] at hatp hatq
  exact h.separate root hpt p q f hp hq hatp hatq

theorem Tree.of_tables (h : s.Tree) (hpt : next.pt = s.pt) (htables : next.tables = s.tables)
  (hsame : forall p f, p.length < 3 -> s.locate p = some f ->
    next.mem.table f = s.mem.table f) (hqueue : next.mem.pages.Nodup)
  (hapart : forall f, f ∈ s.tables -> f ∉ next.mem.pages) :
  next.Tree ∧ forall p, p.length ≤ 3 -> next.locate p = s.locate p := by
 have hwalk : forall p, p.length ≤ 3 -> next.locate p = s.locate p := by
  intro p hp
  cases hroot : s.pt with
  | none => rw [locate_of_none hroot, locate_of_none (hpt.trans hroot)]
  | some root =>
   rw [locate_of_pt hroot, locate_of_pt (hpt.trans hroot)]
   refine walk_congr ?_ hp
   intro q f hq hf
   rw [← locate_of_pt hroot] at hf
   exact hsame q f hq hf
 refine ⟨?_, hwalk⟩
 constructor
 · intro root hroot
   rw [hpt] at hroot
   apply (h.separate root hroot).congr
   intro q f hq hf
   rw [← locate_of_pt hroot] at hf
   exact hsame q f hq hf
 · intro f
   rw [htables, h.listed f]
   constructor
   · rintro ⟨p, hp, hf⟩
     exact ⟨p, hp, (hwalk p hp).trans hf⟩
   · rintro ⟨p, hp, hf⟩
     exact ⟨p, hp, (hwalk p hp).symm.trans hf⟩
 · rw [htables]
   exact h.nodup
 · exact hqueue
 · rw [htables]
   exact hapart

/-!
# Growth

What an allocating call of `get_pte` may do to the tree and to the memory.
-/

structure Takes (s : PageDir) (new : List Frame) (next : PageDir) : Prop where
 pages : s.mem.pages = new ++ next.mem.pages
 tables : next.tables = new.reverse ++ s.tables
 ref : forall f, next.mem.ref f = if f ∈ new then 0 else s.mem.ref f
 frames : forall f, f ∉ next.tables -> next.mem.frames f = s.mem.frames f
 image : next.mem.firstPage = s.mem.firstPage

theorem Takes.refl (s : PageDir) : s.Takes [] s where
 pages := rfl
 tables := rfl
 ref := fun _ => (if_neg not_mem_nil).symm
 frames := fun _ _ => rfl
 image := rfl

variable {mid : PageDir}

theorem Takes.trans {new more : List Frame} (hfirst : s.Takes new mid)
  (hsecond : mid.Takes more next) : s.Takes (new ++ more) next where
 pages := by rw [hfirst.pages, hsecond.pages, append_assoc]
 tables := by rw [hsecond.tables, hfirst.tables, reverse_append, append_assoc]
 ref := by
  intro f
  rw [hsecond.ref f, hfirst.ref f]
  by_cases hmore : f ∈ more
  · rw [if_pos hmore, if_pos (mem_append_right new hmore)]
  by_cases hnew : f ∈ new
  · rw [if_neg hmore, if_pos hnew, if_pos (mem_append_left more hnew)]
  rw [if_neg hmore, if_neg hnew, if_neg]
  rw [mem_append, not_or]
  exact ⟨hnew, hmore⟩
 frames := by
  intro f hf
  rw [hsecond.frames f hf]
  apply hfirst.frames
  intro hmid
  apply hf
  rw [hsecond.tables]
  exact mem_append_right _ hmid
 image := hsecond.image.trans hfirst.image

structure Grown (s next : PageDir) : Prop where
 takes : exists new, s.Takes new next
 kept : forall p f, p.length ≤ 3 -> s.locate p = some f -> next.locate p = some f
 entries : forall p f i, p.length = 3 -> s.locate p = some f ->
  next.mem.entry (f, i) = s.mem.entry (f, i)
 fresh : forall p f i, p.length = 3 -> s.locate p = none -> next.locate p = some f ->
  next.mem.entry (f, i) = 0#64
 found : next.found = s.found
 reached : next.reached = s.reached

theorem Grown.refl (s : PageDir) : Grown s s where
 takes := ⟨[], Takes.refl s⟩
 kept := fun _ _ _ h => h
 entries := fun _ _ _ _ _ => rfl
 fresh := by
  intro p f i _ hnone hsome
  rw [hnone] at hsome
  cases hsome
 found := rfl
 reached := rfl

theorem Grown.trans (hfirst : Grown s mid) (hsecond : Grown mid next) : Grown s next where
 takes := by
  rcases hfirst.takes with ⟨new, hnew⟩
  rcases hsecond.takes with ⟨more, hmore⟩
  exact ⟨new ++ more, hnew.trans hmore⟩
 kept := fun p f hp hf => hsecond.kept p f hp (hfirst.kept p f hp hf)
 entries := by
  intro p f i hp hf
  rw [hsecond.entries p f i hp (hfirst.kept p f (Nat.le_of_eq hp) hf), hfirst.entries p f i hp hf]
 fresh := by
  intro p f i hp hnone hsome
  cases hmid : mid.locate p with
  | none => exact hsecond.fresh p f i hp hmid hsome
  | some g =>
   have hg := hsecond.kept p g (Nat.le_of_eq hp) hmid
   rw [hsome] at hg
   injection hg with hfg
   rw [hfg] at hsome ⊢
   rw [hsecond.entries p g i hp hmid, hfirst.fresh p g i hp hnone hmid]
 found := hsecond.found.trans hfirst.found
 reached := hsecond.reached.trans hfirst.reached

theorem length_path (va : BitVec 64) : (path va).length = 3 := rfl

theorem Grown.find (h : Grown s next) {va : BitVec 64} {ptr : PtePtr}
  (hptr : s.find va = some ptr) : next.find va = some ptr := by
 unfold PageDir.find at hptr ⊢
 rcases Option.map_eq_some_iff.mp hptr with ⟨f, hf, heq⟩
 rw [h.kept (path va) f (Nat.le_of_eq (length_path va)) hf]
 exact congrArg some heq

theorem Grown.entryOf (h : Grown s next) (va : BitVec 64) : next.entryOf va = s.entryOf va := by
 unfold PageDir.entryOf
 cases hold : s.locate (path va) with
 | none =>
  have hfind : s.find va = none := by
   unfold PageDir.find
   rw [hold]
   rfl
  rw [hfind]
  cases hnew : next.locate (path va) with
  | none =>
   have hnone : next.find va = none := by
    unfold PageDir.find
    rw [hnew]
    rfl
   rw [hnone]
  | some f =>
   have hsome : next.find va = some (f, vaPart3 va) := by
    unfold PageDir.find
    rw [hnew]
    rfl
   rw [hsome]
   exact h.fresh (path va) f _ (length_path va) hold hnew
 | some f =>
  have hfind : s.find va = some (f, vaPart3 va) := by
   unfold PageDir.find
   rw [hold]
   rfl
  rw [hfind, h.find hfind]
  exact h.entries (path va) f _ (length_path va) hold

/-!
# New tables
-/

/-- `kalloc_page` gives a page that is not in the tree. -/
structure Fresh (s : PageDir) (f : Frame) (next : PageDir) : Prop where
 pages : s.mem.pages = f :: next.mem.pages
 frames : forall g, g ≠ f -> next.mem.frames g = s.mem.frames g
 empty : forall i, next.mem.entry (f, i) = 0#64
 ref : next.mem.ref = update s.mem.ref f 0
 image : next.mem.firstPage = s.mem.firstPage
 pt : next.pt = s.pt
 tables : next.tables = f :: s.tables
 found : next.found = s.found
 reached : next.reached = s.reached

theorem newTable_fresh (h : s.newTable = some (f, next)) : s.Fresh f next := by
 rcases Option.map_eq_some_iff.mp h with ⟨⟨g, mem⟩, halloc, heq⟩
 injection heq with hfg hnext
 subst hfg
 subst hnext
 have hpage := kallocPage_allocates halloc
 have himage := kallocPage_firstPage halloc
 constructor
 · exact hpage.pages
 · intro k hk
   change update mem.frames g _ k = _
   rw [update_of_ne hk, hpage.frames]
 · intro i
   exact entry_clearPage mem g i
 · exact hpage.ref
 · exact himage
 all_goals
  rfl

theorem Fresh.takes (h : s.Fresh f mid)
  (htables : next.tables = mid.tables) (hpages : next.mem.pages = mid.mem.pages)
  (href : next.mem.ref = mid.mem.ref) (himage : next.mem.firstPage = mid.mem.firstPage)
  (hframes : forall g, g ∉ next.tables -> next.mem.frames g = mid.mem.frames g) :
  s.Takes [f] next where
 pages := by
  rw [hpages]
  exact h.pages
 tables := htables.trans h.tables
 ref := by
  intro g
  rw [href, h.ref]
  by_cases hgf : g = f
  · rw [hgf, update_self, if_pos mem_cons_self]
  · rw [update_of_ne hgf, if_neg (fun hmem => hgf (mem_singleton.mp hmem))]
 frames := by
  intro g hg
  rw [hframes g hg]
  apply h.frames
  intro hgf
  apply hg
  rw [htables, h.tables, hgf]
  exact mem_cons_self
 image := himage.trans h.image

section
variable (h : s.Fresh f next) (htree : s.Tree)
include h htree

theorem Fresh.not_mem : f ∉ s.tables := by
 intro hmem
 apply htree.apart f hmem
 rw [h.pages]
 exact mem_cons_self

theorem Fresh.not_located (p : List Slot) (hp : p.length ≤ 3) : s.locate p ≠ some f := by
 intro hf
 exact h.not_mem htree ((htree.listed f).mpr ⟨p, hp, hf⟩)

theorem Fresh.queue : f ∉ next.mem.pages ∧ next.mem.pages.Nodup := by
 have hqueue := htree.queue
 rw [h.pages, nodup_cons] at hqueue
 exact hqueue
end

theorem Fresh.apart {f g : Frame} (h : s.Fresh f next) (htree : s.Tree)
  (hg : g ∈ f :: s.tables) : g ∉ next.mem.pages := by
 rcases mem_cons.mp hg with heq | hold
 · rw [heq]
   exact (h.queue htree).left
 intro hmem
 apply htree.apart g hold
 rw [h.pages]
 exact mem_cons_of_mem _ hmem

theorem newRoot_spec (htree : s.Tree) (hpt : s.pt = none) (h : s.newRoot = some (f, next)) :
  next.Tree ∧ Grown s next ∧ next.locate [] = some f := by
 rcases Option.map_eq_some_iff.mp h with ⟨⟨g, mid⟩, halloc, heq⟩
 injection heq with hfg hnext
 subst hfg
 have hfresh := newTable_fresh halloc
 have hroot : next.pt = some g := by rw [← hnext]
 have hmem : next.mem = mid.mem := by rw [← hnext]
 have htables : next.tables = g :: s.tables := by
  rw [← hnext]
  exact hfresh.tables
 have hnone : forall i, next.mem.table g i = none := by
  intro i
  apply table_of_entry_zero
  rw [hmem]
  exact hfresh.empty i
 have hplaces : forall p f, next.locate p = some f -> p = [] ∧ f = g := by
  intro p f hf
  rw [locate_of_pt hroot] at hf
  cases p with
  | nil =>
   injection hf with heq
   exact ⟨rfl, heq.symm⟩
  | cons i rest =>
   rw [walk_cons, hnone i] at hf
   cases hf
 have hbare : forall f, f ∉ s.tables := by
  intro f hf
  rcases (htree.listed f).mp hf with ⟨p, _, hp⟩
  rw [locate_of_none hpt] at hp
  cases hp
 have hhere : next.locate [] = some g := locate_of_pt hroot []
 refine ⟨?_, ?_, hhere⟩
 · constructor
   · intro root hsome
     rw [hroot] at hsome
     injection hsome with heq
     subst heq
     exact separate_of_leaf hnone
   · intro f
     rw [htables]
     constructor
     · intro hf
       rcases mem_cons.mp hf with heq | hold
       · exact ⟨[], Nat.zero_le 3, heq ▸ hhere⟩
       · exact absurd hold (hbare f)
     rintro ⟨p, _, hp⟩
     rw [(hplaces p f hp).right]
     exact mem_cons_self
   · rw [htables]
     exact nodup_cons.mpr ⟨hbare g, htree.nodup⟩
   · rw [hmem]
     exact (hfresh.queue htree).right
   · intro f hf
     rw [htables] at hf
     rw [hmem]
     exact hfresh.apart htree hf
 constructor
 · refine ⟨[g], ?_⟩
   rw [← hnext]
   exact hfresh.takes rfl rfl rfl rfl (fun _ _ => rfl)
 · intro p f _ hf
   rw [locate_of_none hpt] at hf
   cases hf
 · intro p f i _ hf
   rw [locate_of_none hpt] at hf
   cases hf
 · intro p f i hp _ hf
   rw [(hplaces p f hf).left] at hp
   cases hp
 · rw [← hnext]
   exact hfresh.found
 · rw [← hnext]
   exact hfresh.reached

structure Linked (s : PageDir) (place : List Slot) (i : Slot) (below : Frame)
  (next : PageDir) : Prop where
 here : next.locate (place ++ [i]) = some below
 vacated : s.locate (place ++ [i]) = none
 others : forall p, p.length ≤ 3 -> p ≠ place ++ [i] -> next.locate p = s.locate p
 separate : forall root, next.pt = some root -> Separate next.mem.table 3 root
 empty : forall j, next.mem.entry (below, j) = 0#64
 frames : forall f, f ≠ below -> s.locate place ≠ some f -> next.mem.frames f = s.mem.frames f

variable {i : Slot}

theorem Linked.located {place p : List Slot} {below f : Frame}
  (h : s.Linked place i below next) (hp : p.length ≤ 3) (hf : s.locate p = some f) :
  next.locate p = some f := by
 rw [h.others p hp]
 · exact hf
 intro heq
 rw [heq, h.vacated] at hf
 cases hf

theorem graft_setEntry {pt below : Frame}
  (hne : below ≠ pt) (hvacant : s.mem.table pt i = none) (hfresh : s.Fresh below mid) :
  Graft s.mem.table (mid.mem.setEntry (pt, i) (mkPte below pteTable)).table pt i
    below := by
 constructor
 · exact hvacant
 · exact table_setEntry_table mid.mem (pt, i) below
 · intro j
   apply table_of_entry_zero
   rw [entry_setEntry_of_ne]
   · exact hfresh.empty j
   intro heq
   injection heq with hpage _
   exact hne hpage
 · intro f j hf hslot
   have hbefore := congrFun (table_congr (hfresh.frames f hf)) j
   by_cases hfpt : f = pt
   · subst hfpt
     have hj : j ≠ i := by
      intro heq
      exact hslot (by rw [heq])
     rw [table_setEntry_slot hj]
     exact hbefore
   rw [table_setEntry_of_ne hfpt]
   exact hbefore

variable {place : List Slot}

theorem linked_setEntry {root pt below : Frame} (htree : s.Tree) (hroot : s.pt = some root)
  (hplace : place.length < 3) (hpt : s.locate place = some pt)
  (hvacant : s.mem.table pt i = none) (hfresh : s.Fresh below mid)
  (hmem : next.mem = mid.mem.setEntry (pt, i) (mkPte below pteTable))
  (hnext : next.pt = mid.pt) : s.Linked place i below next := by
 have hnext_pt : next.pt = some root := hnext.trans (hfresh.pt.trans hroot)
 have hne : below ≠ pt := by
  intro heq
  rw [← heq] at hpt
  exact hfresh.not_located htree place (Nat.le_of_lt hplace) hpt
 have hgraft := graft_setEntry hne hvacant hfresh
 rw [← hmem] at hgraft
 have hnew : forall q, q.length ≤ 3 -> walk s.mem.table root q ≠ some below := by
  intro q hq hf
  rw [← locate_of_pt hroot] at hf
  exact hfresh.not_located htree q hq hf
 have hsep := htree.separate root hroot
 have hwalk : walk s.mem.table root place = some pt := by
  rw [← locate_of_pt hroot]
  exact hpt
 have hplaces := hgraft.walk_eq hsep hplace hwalk hnew
 have hlength : (place ++ [i]).length ≤ 3 := by
  rw [length_append, length_singleton]
  exact hplace
 constructor
 · rw [locate_of_pt hnext_pt]
   exact (hplaces _ hlength).left rfl
 · rw [locate_of_pt hroot, walk_concat, hwalk]
   exact hvacant
 · intro p hp hpi
   rw [locate_of_pt hnext_pt, locate_of_pt hroot]
   exact (hplaces p hp).right hpi
 · intro r hr
   have heq : r = root := Option.some.inj (hr.symm.trans hnext_pt)
   rw [heq]
   exact hgraft.separate hsep hplace hwalk hnew
 · intro j
   rw [hmem, entry_setEntry_of_ne]
   · exact hfresh.empty j
   intro heq
   injection heq with hpage _
   exact hne hpage
 · intro f hf hfpt
   have hother : f ≠ pt := by
    intro heq
    exact hfpt (heq ▸ hpt)
   rw [hmem, frames_setEntry, update_of_ne hother]
   exact hfresh.frames f hf

theorem Linked.tree {below : Frame}
  (h : s.Linked place i below next) (htree : s.Tree) (hplace : place.length < 3)
  (hfresh : s.Fresh below mid) (htables : next.tables = mid.tables)
  (hpages : next.mem.pages = mid.mem.pages) : next.Tree := by
 have hlength : (place ++ [i]).length ≤ 3 := by
  rw [length_append, length_singleton]
  exact hplace
 rw [hfresh.tables] at htables
 constructor
 · exact h.separate
 · intro f
   rw [htables, mem_cons, htree.listed f]
   constructor
   · rintro (heq | ⟨p, hp, hfp⟩)
     · exact ⟨_, hlength, heq ▸ h.here⟩
     · exact ⟨p, hp, h.located hp hfp⟩
   rintro ⟨p, hp, hfp⟩
   by_cases hpi : p = place ++ [i]
   · rw [hpi, h.here] at hfp
     injection hfp with heq
     exact .inl heq.symm
   rw [h.others p hp hpi] at hfp
   exact .inr ⟨p, hp, hfp⟩
 · rw [htables]
   exact nodup_cons.mpr ⟨hfresh.not_mem htree, htree.nodup⟩
 · rw [hpages]
   exact (hfresh.queue htree).right
 · intro f hf
   rw [htables] at hf
   rw [hpages]
   exact hfresh.apart htree hf

theorem Linked.grown {below : Frame}
  (h : s.Linked place i below next) (htree : s.Tree) (hplace : place.length < 3)
  (hfresh : s.Fresh below mid) (htakes : s.Takes [below] next)
  (hfound : next.found = mid.found) (hreached : next.reached = mid.reached) :
  Grown s next := by
 constructor
 · exact ⟨[below], htakes⟩
 · intro p f hp hf
   exact h.located hp hf
 · -- a table of the last level is not the one above the new table
   intro p f j hp hf
   apply entry_congr
   apply h.frames
   · rintro rfl
     exact hfresh.not_located htree p (Nat.le_of_eq hp) hf
   intro hfpt
   have hsame := htree.place (Nat.le_of_eq hp) (Nat.le_of_lt hplace) hf hfpt
   rw [hsame] at hp
   exact absurd hp (Nat.ne_of_lt hplace)
 · intro p f j hp hnone hsome
   by_cases hpi : p = place ++ [i]
   · rw [hpi, h.here] at hsome
     injection hsome with heq
     rw [← heq]
     exact h.empty j
   rw [h.others p (Nat.le_of_eq hp) hpi, hnone] at hsome
   cases hsome
 · exact hfound.trans hfresh.found
 · exact hreached.trans hfresh.reached

end OSLab.Kernel.PageDir
