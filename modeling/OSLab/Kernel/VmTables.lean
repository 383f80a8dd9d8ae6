import OSLab.Foundation.Custody
import OSLab.Kernel.Vm

/-!
# Page directories that share a memory

The tables of all directories stand in one memory and take their pages from one
queue.  An operation on one of them does not show in the others, because the pages
of their tables are not free, not mapped, and not tables of a second directory.
-/

namespace OSLab.Kernel
open Foundation Function List PageDir Memory

theorem pageOf_addrOf (v : Vpn) : pageOf (addrOf v) = v := by
 apply BitVec.eq_of_getLsbD_eq
 intro i hi
 have hword : 12 + i < 64 := by omega
 rw [pageOf_getLsbD _ hi]
 unfold addrOf
 rw [BitVec.getLsbD_shiftLeft, BitVec.getLsbD_setWidth]
 simp [hword]
 omega

theorem pageOf_ofNat (addr : Nat) : pageOf (BitVec.ofNat 64 addr) = vpnOf addr := by
 apply BitVec.eq_of_getLsbD_eq
 intro i hi
 have hword : 12 + i < 64 := by omega
 rw [pageOf_getLsbD _ hi]
 unfold vpnOf pageSize
 rw [BitVec.getLsbD_ofNat, BitVec.getLsbD_ofNat, show 4096 = 2 ^ 12 from rfl,
  Nat.testBit_div_two_pow]
 rw [Nat.add_comm i 12]
 simp [hi, hword]

namespace KernelAddr

theorem k2p_ofFrame (f : Frame) : k2p (ofFrame f).base = f.setWidth 64 <<< 12 := by
 rw [k2p_base]
 apply BitVec.eq_of_getLsbD_eq
 intro i hi
 have hmask : kspaceMask.getLsbD i = decide (48 ≤ i) := by
  revert i
  decide
 unfold ofFrame
 rw [BitVec.getLsbD_and, BitVec.getLsbD_or, BitVec.getLsbD_not, pteFlagMask_getLsbD hi,
  BitVec.getLsbD_shiftLeft, BitVec.getLsbD_setWidth, hmask]
 by_cases hlow : i < 12
 · simp [hlow]
 by_cases hhigh : 48 ≤ i
 · have hzero : f.getLsbD (i - 12) = false := BitVec.getLsbD_of_ge f (i - 12) (by omega)
   simp [hhigh, hzero]
 · simp [hi, hlow, hhigh]

theorem entry_ofFrame (f : Frame) (flags : PteFlags) :
  k2p (ofFrame f).base ||| flags.bits = mkPte f flags.bits := by
 rw [k2p_ofFrame]
 rfl

theorem page_ofFrame (f : Frame) : (ofFrame f).page = f := by
 unfold page
 rw [k2p_ofFrame]
 apply BitVec.eq_of_getLsbD_eq
 intro i hi
 have hword : 12 + i < 64 := by omega
 rw [BitVec.getLsbD_setWidth, BitVec.getLsbD_ushiftRight, BitVec.getLsbD_shiftLeft,
  BitVec.getLsbD_setWidth]
 have hsmall : i < 64 := by omega
 simp [hi, hword, hsmall]

end KernelAddr

namespace PageDir
variable {s : PageDir}

theorem entryOf_congr {va other : BitVec 64} (h : pageOf va = pageOf other) :
  s.entryOf va = s.entryOf other := by
 unfold entryOf
 rw [find_congr h]

theorem entryOf_find {va : BitVec 64} {ptr : PtePtr} (h : s.find va = some ptr) :
  s.entryOf va = s.mem.entry ptr := by
 unfold entryOf
 rw [h]

theorem getPte_of_find {va : BitVec 64} {ptr : PtePtr} (h : s.find va = some ptr) :
  s.getPte va true = some (some ptr, s.note va true ptr) := by
 rcases Option.map_eq_some_iff.mp h with ⟨pt3, hpt3, heq⟩
 rcases Option.bind_eq_some_iff.mp hpt3 with ⟨pt0, hroot, hwalk⟩
 unfold path at hwalk
 rw [Radix.walk_cons] at hwalk
 rcases Option.bind_eq_some_iff.mp hwalk with ⟨pt1, hpt1, hwalk⟩
 rw [Radix.walk_cons] at hwalk
 rcases Option.bind_eq_some_iff.mp hwalk with ⟨pt2, hpt2, hwalk⟩
 rw [Radix.walk_cons] at hwalk
 rcases Option.bind_eq_some_iff.mp hwalk with ⟨last, hlast, ⟨⟩⟩
 have hstart : s.rootTable true = some (some pt0, s) := by
  unfold rootTable
  rw [hroot]
 have hnext : forall pt i below, s.mem.table pt i = some below ->
  s.nextTable pt i true = some (some below, s) := by
  intro pt i below htable
  unfold nextTable
  rw [htable]
 unfold getPte
 rw [hstart]
 simp only [follow]
 rw [hnext _ _ _ hpt1]
 simp only
 rw [hnext _ _ _ hpt2]
 simp only
 rw [hnext _ _ _ hlast]
 simp only
 rw [heq]

end PageDir

namespace Memory
variable {m : Memory} {f : Frame}

theorem kfreePage_image (h : f < m.firstPage) : m.kfreePage f = m := by
 unfold kfreePage
 rw [if_pos h]

theorem kfreePage_firstPage (m : Memory) (f : Frame) : (m.kfreePage f).firstPage = m.firstPage := by
 unfold kfreePage
 split
 · rfl
 split
 · rfl
 · rfl

theorem kfreePage_last (h : ¬ f < m.firstPage) (hlast : m.ref f - 1 ≤ 0) :
  (m.kfreePage f).pages = f :: m.pages ∧ (m.kfreePage f).ref = update m.ref f (m.ref f - 1) := by
 unfold kfreePage
 rw [if_neg h]
 rw [if_pos hlast]
 exact ⟨rfl, rfl⟩

theorem kfreePage_more (h : ¬ f < m.firstPage) (hmore : ¬ m.ref f - 1 ≤ 0) :
  (m.kfreePage f).pages = m.pages ∧ (m.kfreePage f).ref = update m.ref f (m.ref f - 1) := by
 unfold kfreePage
 rw [if_neg h]
 rw [if_neg hmore]
 exact ⟨rfl, rfl⟩

theorem kfreePage_frames (m : Memory) {g : Frame} (h : g ≠ f) :
  (m.kfreePage f).frames g = m.frames g :=
 ((m.kfreePage_frees f).other h).right.left

end Memory

namespace Vm
variable {s next : Vm}

/-!
# Who uses a page
-/

def Managed (s : Vm) (f : Frame) : Prop := s.mem.firstPage ≤ f ∧ f < s.lastPage

def extra (s : Vm) (f : Frame) : Int := if f = s.zeroPage then 1 else 0

def Reserved (s : Vm) (limbo : List Frame) (f : Frame) : Prop :=
 f ∈ limbo ∨ f ∈ s.kernelPages ∨ exists d, f ∈ s.tables d

theorem reserved_cons (s : Vm) (f : Frame) (limbo : List Frame) (g : Frame) :
  s.Reserved (f :: limbo) g ↔ g = f ∨ s.Reserved limbo g := by
 unfold Reserved
 rw [mem_cons, or_assoc]

theorem reserved_kernel {f g : Frame} (limbo : List Frame) (htables : next.tables = s.tables)
  (h : g ∈ next.kernelPages ↔ g = f ∨ g ∈ s.kernelPages) :
  next.Reserved limbo g ↔ s.Reserved (f :: limbo) g := by
 unfold Reserved
 rw [h, htables, mem_cons, or_assoc, or_assoc, or_left_comm]

def slot (s : Vm) (k : Pid × Vpn) : Option Frame :=
 if isValid (s.entry k.1 k.2) then some (pteFrame (s.entry k.1 k.2)) else none

/--
The directories are trees of pages of their own, and the counts fit the slots that
hold pages.  In the middle of an operation the holders need not be those that the
tables show.
-/
structure Core (s : Vm) (limbo : List Frame) (holds : Pid × Vpn -> Option Frame) :
  Prop where
 trees : forall d, (s.dir d).Tree
 custody : Custody s.Managed s.extra s.mem.ref s.mem.pages (s.Reserved limbo) holds
 apart : forall d e f, f ∈ s.tables d -> f ∈ s.tables e -> d = e
 kernel : s.kernelPages.Nodup
 kernelApart : forall d f, f ∈ s.tables d -> f ∉ s.kernelPages
 limboNodup : limbo.Nodup
 limboApart : forall f, f ∈ limbo -> f ∉ s.kernelPages ∧ forall d, f ∉ s.tables d
 bounded : forall k f, holds k = some f -> f < s.lastPage

structure Steady (s next : Vm) : Prop where
 zeroPage : next.zeroPage = s.zeroPage
 lastPage : next.lastPage = s.lastPage
 firstPage : next.mem.firstPage = s.mem.firstPage
 sections : next.sections = s.sections
 kernelPages : next.kernelPages = s.kernelPages

theorem Steady.refl (s : Vm) : Steady s s := ⟨rfl, rfl, rfl, rfl, rfl⟩

theorem Steady.trans {mid : Vm} (hfirst : Steady s mid) (hsecond : Steady mid next) :
  Steady s next :=
 ⟨hsecond.zeroPage.trans hfirst.zeroPage, hsecond.lastPage.trans hfirst.lastPage,
  hsecond.firstPage.trans hfirst.firstPage, hsecond.sections.trans hfirst.sections,
  hsecond.kernelPages.trans hfirst.kernelPages⟩

theorem Steady.managed (h : Steady s next) : next.Managed = s.Managed := by
 funext f
 unfold Managed
 rw [h.firstPage, h.lastPage]

theorem Steady.extra (h : Steady s next) : next.extra = s.extra := by
 funext f
 unfold Vm.extra
 rw [h.zeroPage]

structure Later (s next : Vm) : Prop extends Steady s next where
 pages : forall f, f ∈ next.mem.pages -> f ∈ s.mem.pages
 tables : forall d f, f ∈ next.tables d -> (exists e, f ∈ s.tables e) ∨ f ∈ s.mem.pages

theorem Later.refl (s : Vm) : Later s s where
 toSteady := Steady.refl s
 pages := fun _ hf => hf
 tables := fun d _ hf => .inl ⟨d, hf⟩

theorem Later.trans {mid : Vm} (hfirst : Later s mid) (hsecond : Later mid next) :
  Later s next where
 toSteady := hfirst.toSteady.trans hsecond.toSteady
 pages := fun f hf => hfirst.pages f (hsecond.pages f hf)
 tables := by
  intro d f hf
  rcases hsecond.tables d f hf with ⟨e, he⟩ | hpage
  · exact hfirst.tables e f he
  · exact .inr (hfirst.pages f hpage)

variable {limbo : List Frame} {holds : Pid × Vpn -> Option Frame} {d : Pid} {f : Frame}

theorem Core.table_reserved (_ : s.Core limbo holds) (hf : f ∈ s.tables d) : s.Reserved limbo f :=
 .inr (.inr ⟨d, hf⟩)

theorem Core.table_not_free (h : s.Core limbo holds) (hf : f ∈ s.tables d) : f ∉ s.mem.pages :=
 (h.custody.kept f (h.table_reserved hf)).right.left

theorem Core.held_not_table (h : s.Core limbo holds) {k : Pid × Vpn}
  (hf : holds k = some f) (d : Pid) : f ∉ s.tables d := by
 intro hmem
 exact (h.custody.kept f (h.table_reserved hmem)).right.right.right k hf

/-!
# Changes outside the tables
-/

theorem dir_of_frames (next : Vm) (htree : (s.dir d).Tree)
  (hpgdir : next.pgdir d = s.pgdir d) (htables : next.tables d = s.tables d)
  (hframes : forall f, f ∈ s.tables d -> next.mem.frames f = s.mem.frames f)
  (hqueue : next.mem.pages.Nodup) (hapart : forall f, f ∈ s.tables d -> f ∉ next.mem.pages) :
  (next.dir d).Tree ∧ (forall va, (next.dir d).find va = (s.dir d).find va) ∧
    forall v, next.entry d v = s.entry d v := by
 have hsame : forall p f, p.length < 3 -> (s.dir d).locate p = some f ->
  (next.dir d).mem.table f = (s.dir d).mem.table f := by
  intro p f hp hf
  apply table_congr
  exact hframes f ((htree.listed f).mpr ⟨p, Nat.le_of_lt hp, hf⟩)
 have hboth : (next.dir d).Tree ∧
  forall p, p.length ≤ 3 -> (next.dir d).locate p = (s.dir d).locate p :=
  htree.of_tables hpgdir htables hsame hqueue hapart
 have hfind : forall va, (next.dir d).find va = (s.dir d).find va := by
  intro va
  unfold find
  rw [hboth.right _ (Nat.le_of_eq (length_path va))]
 refine ⟨hboth.left, hfind, ?_⟩
 intro v
 unfold Vm.entry entryOf
 rw [hfind (addrOf v)]
 cases hptr : (s.dir d).find (addrOf v) with
 | none => rfl
 | some ptr =>
  rcases Option.map_eq_some_iff.mp hptr with ⟨pt3, hpt3, heq⟩
  rw [← heq]
  apply entry_congr
  exact hframes pt3 ((htree.listed pt3).mpr ⟨_, Nat.le_of_eq (length_path (addrOf v)), hpt3⟩)

structure Unseen (s next : Vm) : Prop where
 entries : forall d v, next.entry d v = s.entry d v
 finds : forall d va, (next.dir d).find va = (s.dir d).find va

variable {holds' : Pid × Vpn -> Option Frame} {limbo' : List Frame}

theorem Core.of_mem (h : s.Core limbo holds) {mem : Memory}
  (hframes : forall d f, f ∈ s.tables d -> mem.frames f = s.mem.frames f)
  (himage : mem.firstPage = s.mem.firstPage)
  (hcustody : Custody s.Managed s.extra mem.ref mem.pages (s.Reserved limbo') holds')
  (hlimbo : limbo'.Nodup)
  (hlimboApart : forall f, f ∈ limbo' -> f ∉ s.kernelPages ∧ forall d, f ∉ s.tables d)
  (hbounded : forall k f, holds' k = some f -> f < s.lastPage) :
  { s with mem := mem }.Core limbo' holds' ∧ Unseen s { s with mem := mem } := by
 have hdirs : forall d, ({ s with mem := mem }.dir d).Tree ∧
  (forall va, ({ s with mem := mem }.dir d).find va = (s.dir d).find va) ∧
  forall v, { s with mem := mem }.entry d v = s.entry d v := by
  intro d
  apply dir_of_frames { s with mem := mem } (h.trees d) rfl rfl (hframes d) hcustody.nodup
  intro f hf
  exact (hcustody.kept f (.inr (.inr ⟨d, hf⟩))).right.left
 have hsteady : Steady s { s with mem := mem } := ⟨rfl, rfl, himage, rfl, rfl⟩
 refine ⟨?_, fun d => (hdirs d).right.right, fun d => (hdirs d).right.left⟩
 exact { h with
  trees := fun d => (hdirs d).left
  custody := by
   rw [hsteady.managed, hsteady.extra]
   exact hcustody
  limboNodup := hlimbo
  limboApart := hlimboApart
  bounded := hbounded }

theorem Core.kallocPage (h : s.Core limbo holds) {mem : Memory}
  (halloc : s.mem.kallocPage = some (f, mem)) (frames : Frame -> Page)
  (hframes : forall g, g ≠ f -> frames g = s.mem.frames g) :
  { s with mem := { mem with frames := frames } }.Core (f :: limbo) holds ∧
    Unseen s { s with mem := { mem with frames := frames } } ∧
    Later s { s with mem := { mem with frames := frames } } ∧
    f ∉ mem.pages ∧ s.Managed f ∧ f ∉ limbo ∧ ¬ s.Reserved limbo f := by
 have hpage := kallocPage_allocates halloc
 have himage := kallocPage_firstPage halloc
 have hcustody := h.custody
 rw [hpage.pages] at hcustody
 have hfree : f ∈ s.mem.pages := by
  rw [hpage.pages]
  exact mem_cons_self
 have hunreserved : ¬ s.Reserved limbo f := by
  intro hreserved
  exact (h.custody.kept f hreserved).right.left hfree
 have hnotlimbo : f ∉ limbo := fun hmem => hunreserved (.inl hmem)
 have hqueue := hcustody.nodup
 rw [nodup_cons] at hqueue
 refine and_assoc.mp ⟨?_, ?_, hqueue.left, (h.custody.proper f hfree).left, hnotlimbo, hunreserved⟩
 · apply h.of_mem
   · intro d g hg
     apply hframes
     rintro rfl
     exact hunreserved (.inr (.inr ⟨d, hg⟩))
   · exact himage
   · apply hcustody.reserve.congr
     · intro g
       exact congrFun hpage.ref g
     · exact s.reserved_cons f limbo
     intro k
     rfl
   · exact nodup_cons.mpr ⟨hnotlimbo, h.limboNodup⟩
   · intro g hg
     rcases mem_cons.mp hg with heq | hold
     · rw [heq]
       refine ⟨fun hmem => hunreserved (.inr (.inl hmem)), ?_⟩
       intro d hmem
       exact hunreserved (.inr (.inr ⟨d, hmem⟩))
     · exact h.limboApart g hold
   · exact h.bounded
 refine { toSteady := ⟨rfl, rfl, himage, rfl, rfl⟩, pages := ?_, tables := ?_ }
 · intro g hg
   rw [hpage.pages]
   exact mem_cons_of_mem f hg
 intro d g hg
 exact .inl ⟨d, hg⟩

theorem Core.kfree_limbo (h : s.Core (f :: limbo) holds) :
  { s with mem := s.mem.kfreePage f }.Core limbo holds ∧
    Unseen s { s with mem := s.mem.kfreePage f } ∧
    forall g, g ∈ (s.mem.kfreePage f).pages ↔ g = f ∨ g ∈ s.mem.pages := by
 have hreserved : s.Reserved (f :: limbo) f := .inl mem_cons_self
 have hzero := h.custody.count_of_reserved hreserved
 have hmanaged := (h.custody.kept f hreserved).left
 have himage : ¬ f < s.mem.firstPage := BitVec.not_lt.mpr hmanaged.left
 rcases kfreePage_last himage (by omega : s.mem.ref f - 1 ≤ 0) with ⟨hpages, href⟩
 have hnodup := nodup_cons.mp h.limboNodup
 have hlimbo := h.limboApart f mem_cons_self
 have hother : ¬ s.Reserved limbo f := by
  rintro (hmem | hmem | ⟨d, hmem⟩)
  · exact hnodup.left hmem
  · exact hlimbo.left hmem
  · exact hlimbo.right d hmem
 refine and_assoc.mp ⟨?_, fun g => by rw [hpages, mem_cons]⟩
 apply h.of_mem
 · intro d g hg
   apply kfreePage_frames
   rintro rfl
   exact hlimbo.right d hg
 · exact kfreePage_firstPage s.mem f
 · rw [hpages, href]
   apply (h.custody.unreserve hreserved).congr
   · intro g
     rfl
   · intro g
     rw [s.reserved_cons]
     constructor
     · exact fun hg => ⟨fun heq => hother (heq ▸ hg), .inr hg⟩
     · exact fun hg => hg.right.resolve_left hg.left
   intro k
   rfl
 · exact hnodup.right
 · exact fun g hg => h.limboApart g (mem_cons_of_mem f hg)
 · exact h.bounded

theorem Core.kfree_held (h : s.Core limbo holds) {k : Pid × Vpn} (hk : holds k = some f) :
  { s with mem := s.mem.kfreePage f }.Core limbo (update holds k none) ∧
    Unseen s { s with mem := s.mem.kfreePage f } := by
 have hbounded : forall k' g, update holds k none k' = some g -> g < s.lastPage := by
  intro k' g hg
  exact h.bounded k' g ((Custody.update_none_iff holds k k' g).mp hg).right
 have hframes : forall d g, g ∈ s.tables d -> (s.mem.kfreePage f).frames g = s.mem.frames g := by
  intro d g hg
  apply kfreePage_frames
  rintro rfl
  exact h.held_not_table hk d hg
 apply h.of_mem hframes (kfreePage_firstPage s.mem f) _ h.limboNodup h.limboApart hbounded
 by_cases himage : f < s.mem.firstPage
 · rw [kfreePage_image himage]
   apply h.custody.drop_unmanaged hk
   intro hmanaged
   exact absurd himage (BitVec.not_lt.mpr hmanaged.left)
 have hmanaged : s.Managed f := ⟨BitVec.not_lt.mp himage, h.bounded k f hk⟩
 by_cases hlast : s.mem.ref f - 1 ≤ 0
 · rcases kfreePage_last himage hlast with ⟨hpages, href⟩
   rw [hpages, href]
   exact h.custody.drop_last hk hmanaged hlast
 rcases kfreePage_more himage hlast with ⟨hpages, href⟩
 rw [hpages, href]
 exact h.custody.drop_more hk hmanaged hlast

/-!
# Operations on one directory
-/

theorem dir_put (s : Vm) (d : Pid) (x : PageDir) :
  (s.put d x).dir d = ⟨x.mem, x.pt, x.tables, [], []⟩ := by
 unfold dir put
 simp only [update_self]

theorem tables_put (s : Vm) (d : Pid) (x : PageDir) : (s.put d x).tables d = x.tables :=
 update_self ..

theorem tables_put_of_ne (s : Vm) {d e : Pid} (x : PageDir) (h : e ≠ d) :
  (s.put d x).tables e = s.tables e :=
 update_of_ne h _ _

theorem pgdir_put_of_ne (s : Vm) {d e : Pid} (x : PageDir) (h : e ≠ d) :
  (s.put d x).pgdir e = s.pgdir e :=
 update_of_ne h _ _

theorem entry_put (s : Vm) (d : Pid) (x : PageDir) (v : Vpn) :
  (s.put d x).entry d v = x.entryOf (addrOf v) := by
 unfold Vm.entry
 rw [dir_put]
 rfl

theorem find_put (s : Vm) (d : Pid) (x : PageDir) (va : BitVec 64) :
  ((s.put d x).dir d).find va = x.find va := by
 rw [dir_put]
 rfl

variable {new : List Frame} {x : PageDir}

theorem mem_tables_put (htables : x.tables = new.reverse ++ s.tables d) (f : Frame) :
  (exists e, f ∈ (s.put d x).tables e) ↔ f ∈ new ∨ exists e, f ∈ s.tables e := by
 constructor
 · rintro ⟨e, he⟩
   by_cases hed : e = d
   · rw [hed, tables_put, htables, mem_append, mem_reverse] at he
     exact he.imp_right fun hold => ⟨d, hold⟩
   rw [tables_put_of_ne s x hed] at he
   exact .inr ⟨e, he⟩
 rintro (hnew | ⟨e, he⟩)
 · refine ⟨d, ?_⟩
   rw [tables_put, htables]
   exact mem_append_left _ (mem_reverse.mpr hnew)
 · refine ⟨e, ?_⟩
   by_cases hed : e = d
   · rw [hed] at he ⊢
     rw [tables_put, htables]
     exact mem_append_right _ he
   rw [tables_put_of_ne s x hed]
   exact he

section
variable (h : s.Core limbo holds)
include h

theorem Core.put (htree : x.Tree)
  (hpages : s.mem.pages = new ++ x.mem.pages) (htables : x.tables = new.reverse ++ s.tables d)
  (hframes : forall f, f ∉ x.tables -> x.mem.frames f = s.mem.frames f)
  (himage : x.mem.firstPage = s.mem.firstPage)
  (hcustody : Custody s.Managed s.extra x.mem.ref x.mem.pages
    ((s.put d x).Reserved limbo') holds') (hlimbo : limbo'.Sublist limbo)
  (hbounded : forall k f, holds' k = some f -> f < s.lastPage) :
  (s.put d x).Core limbo' holds' ∧ (forall e v, e ≠ d -> (s.put d x).entry e v = s.entry e v) ∧
    Later s (s.put d x) := by
 have hsteady : Steady s (s.put d x) := ⟨rfl, rfl, himage, rfl, rfl⟩
 have hnew : forall f, f ∈ new -> f ∈ s.mem.pages := by
  intro f hf
  rw [hpages]
  exact mem_append_left _ hf
 have hold : forall e f, f ∈ s.tables e -> f ∉ new := by
  intro e f hf hmem
  exact h.table_not_free hf (hnew f hmem)
 -- the tables of the other directories are not those of this one
 have hother : forall e, e ≠ d -> ((s.put d x).dir e).Tree ∧
  (forall va, ((s.put d x).dir e).find va = (s.dir e).find va) ∧
  forall v, (s.put d x).entry e v = s.entry e v := by
  intro e hed
  apply dir_of_frames (s.put d x) (h.trees e) (pgdir_put_of_ne s x hed) (tables_put_of_ne s x hed)
  · intro f hf
    apply hframes
    rw [htables, mem_append, mem_reverse, not_or]
    refine ⟨hold e f hf, ?_⟩
    intro hmem
    exact hed (h.apart e d f hf hmem)
  · exact hcustody.nodup
  intro f hf hmem
  apply h.table_not_free hf
  rw [hpages]
  exact mem_append_right _ hmem
 have hmem : forall e f, f ∈ (s.put d x).tables e -> (e = d ∧ f ∈ new) ∨ f ∈ s.tables e := by
  intro e f hf
  by_cases hed : e = d
  · rw [hed, tables_put, htables, mem_append, mem_reverse] at hf
    rw [hed]
    exact hf.imp_left fun hnewf => ⟨rfl, hnewf⟩
  rw [tables_put_of_ne s x hed] at hf
  exact .inr hf
 refine ⟨?_, fun e v hed => (hother e hed).right.right v, ?_⟩
 · constructor
   · intro e
     by_cases hed : e = d
     · rw [hed, dir_put]
       exact { htree with }
     · exact (hother e hed).left
   · rw [hsteady.managed, hsteady.extra]
     exact hcustody
   · intro e e' f hf hf'
     rcases hmem e f hf with ⟨hed, hnewf⟩ | holdf
     · rcases hmem e' f hf' with ⟨hed', _⟩ | holdf'
       · rw [hed, hed']
       · exact absurd hnewf (hold e' f holdf')
     rcases hmem e' f hf' with ⟨_, hnewf⟩ | holdf'
     · exact absurd hnewf (hold e f holdf)
     · exact h.apart e e' f holdf holdf'
   · exact h.kernel
   · intro e f hf hkernel
     rcases hmem e f hf with ⟨_, hnewf⟩ | holdf
     · exact (h.custody.kept f (.inr (.inl hkernel))).right.left (hnew f hnewf)
     · exact h.kernelApart e f holdf hkernel
   · exact h.limboNodup.sublist hlimbo
   · intro f hf
     have hin := hlimbo.subset hf
     refine ⟨(h.limboApart f hin).left, ?_⟩
     intro e he
     rcases hmem e f he with ⟨_, hnewf⟩ | holdf
     · exact (h.custody.kept f (.inl hin)).right.left (hnew f hnewf)
     · exact (h.limboApart f hin).right e holdf
   · exact hbounded
 refine { toSteady := hsteady, pages := ?_, tables := ?_ }
 · intro f hf
   rw [hpages]
   exact mem_append_right _ hf
 intro e f hf
 rcases hmem e f hf with ⟨_, hnewf⟩ | holdf
 · exact .inr (hnew f hnewf)
 · exact .inl ⟨e, holdf⟩

theorem Core.custody_takes (htakes : (s.dir d).Takes new x) :
  Custody s.Managed s.extra x.mem.ref x.mem.pages ((s.put d x).Reserved limbo) holds := by
 have hpages : s.mem.pages = new ++ x.mem.pages := htakes.pages
 have hcustody := h.custody
 rw [hpages] at hcustody
 apply hcustody.reserve_all.congr
 · exact htakes.ref
 · intro f
   change (f ∈ limbo ∨ f ∈ s.kernelPages ∨ exists e, f ∈ (s.put d x).tables e) ↔ _
   rw [mem_tables_put htakes.tables f, or_left_comm (a := f ∈ s.kernelPages), or_left_comm]
   rfl
 intro k
 rfl

theorem Core.put_grown (htree : x.Tree) (hgrown : Grown (s.dir d) x) :
  (s.put d x).Core limbo holds ∧ (forall e v, (s.put d x).entry e v = s.entry e v) ∧
    Later s (s.put d x) := by
 rcases hgrown.takes with ⟨new, htakes⟩
 have hput := h.put htree htakes.pages htakes.tables htakes.frames htakes.image
  (h.custody_takes htakes) (Sublist.refl limbo) h.bounded
 refine ⟨hput.left, ?_, hput.right.right⟩
 intro e v
 by_cases hed : e = d
 · rw [hed, entry_put]
   exact hgrown.entryOf (addrOf v)
 · exact hput.right.left e v hed

theorem Core.getPte {va : BitVec 64} {ptr : PtePtr} (hstep : s.getPte d va = some (ptr, next)) :
  next.Core limbo holds ∧ (forall e v, next.entry e v = s.entry e v) ∧ Later s next ∧
    (next.dir d).find va = some ptr := by
 unfold Vm.getPte at hstep
 split at hstep
 · rename_i ptr' x hget
   rcases Prod.mk.inj (Option.some.inj hstep) with ⟨hptr, hnext⟩
   rcases getPte_alloc (h.trees d) hget with ⟨ptr'', mid, hx, hnote, htree, hgrown, hfind⟩
   have hsame : s.put d x = s.put d mid := by
    rw [hnote]
    rfl
   rw [← hnext, hsame]
   have hput := h.put_grown htree hgrown
   refine ⟨hput.left, hput.right.left, hput.right.right, ?_⟩
   rw [find_put, hfind, ← hptr]
   exact hx.symm
 · cases hstep

theorem Core.vmmap {va : BitVec 64} {flags : PteFlags} (hstep : s.vmmap d va f flags = some next)
  (hslot : holds (d, pageOf va) = none) (hfree : f ∉ s.mem.pages)
  (hkernel : f ∉ s.kernelPages) (htable : forall e, f ∉ s.tables e) (hbounded : f < s.lastPage) :
  next.Core (limbo.erase f) (update holds (d, pageOf va) (some f)) ∧ (forall e v, next.entry e v =
      if (e, v) = (d, pageOf va) then mkPte f flags.bits else s.entry e v) ∧
    Later s next := by
 rcases Option.map_eq_some_iff.mp hstep with ⟨x, hmap, hnext⟩
 rcases vmmap_spec (h.trees d) hmap with ⟨ptr, mid, htree, hgrown, hfind, hstored, hx⟩
 rcases hgrown.takes with ⟨new, htakes⟩
 rw [KernelAddr.entry_ofFrame] at hstored hx
 rw [KernelAddr.page_ofFrame] at hx
 have hpages : x.mem.pages = mid.mem.pages := by
  rw [hx]
  rfl
 have href : x.mem.ref = update mid.mem.ref f (mid.mem.ref f + 1) := by
  rw [hx]
  rfl
 have htables : x.tables = mid.tables := by rw [hx]
 have himage : x.mem.firstPage = mid.mem.firstPage := by
  rw [hx]
  rfl
 have hframes : forall g, g ∉ x.tables -> x.mem.frames g = s.mem.frames g :=
  fun g hg => vmmap_frames (h.trees d) hmap hg
 have hcustody := h.custody_takes htakes
 have hmid : s.mem.pages = new ++ mid.mem.pages := htakes.pages
 rw [hmid, mem_append, not_or] at hfree
 have hheld : Custody s.Managed s.extra x.mem.ref x.mem.pages ((s.put d x).Reserved (limbo.erase f))
  (update holds (d, pageOf va) (some f)) := by
  rw [hpages, href]
  apply (hcustody.hold hslot hfree.right).congr
  · intro g
    rfl
  · intro g
    have hlist := mem_tables_put (htables.trans htakes.tables) g
    have hlist' := mem_tables_put htakes.tables g
    have hne : (g ∈ s.kernelPages ∨ g ∈ new ∨ exists e, g ∈ s.tables e) -> g ≠ f := by
     rintro (hker | hnew | ⟨e, he⟩) rfl
     · exact hkernel hker
     · exact hfree.left hnew
     · exact htable e he
    unfold Reserved
    rw [hlist, hlist', h.limboNodup.mem_erase_iff, and_or_left]
    exact or_congr_right (and_iff_right_of_imp hne).symm
  intro k
  rfl
 have hsplit : s.mem.pages = new ++ x.mem.pages := by
  rw [hpages]
  exact htakes.pages
 have hput := h.put hstored.tree hsplit (htables.trans htakes.tables) hframes
  (himage.trans htakes.image) hheld erase_sublist ?_
 swap
 · intro k g hg
   rcases (Custody.update_some_iff holds _ k f g).mp hg with ⟨_, heq⟩ | ⟨_, hold⟩
   · rw [heq]
     exact hbounded
   · exact h.bounded k g hold
 rw [← hnext]
 refine ⟨hput.left, ?_, hput.right.right⟩
 intro e v
 by_cases hed : e = d
 · rw [hed, entry_put, vmmap_entryOf (h.trees d) hmap (addrOf v), pageOf_addrOf,
    KernelAddr.entry_ofFrame]
   by_cases hv : v = pageOf va
   · rw [if_pos hv, if_pos (by rw [hv])]
   rw [if_neg hv, if_neg]
   · rfl
   intro heq
   exact hv (Prod.mk.inj heq).right
 rw [hput.right.left e v hed, if_neg]
 intro heq
 exact hed (Prod.mk.inj heq).left
end

theorem vmmap_of_find {va : BitVec 64} {flags : PteFlags}
  {ptr : PtePtr} (hstep : s.vmmap d va f flags = some next)
  (hfind : (s.dir d).find va = some ptr) :
  next.tables = s.tables ∧ next.mem.pages = s.mem.pages := by
 rcases Option.map_eq_some_iff.mp hstep with ⟨x, hmap, hnext⟩
 unfold PageDir.vmmap at hmap
 rw [getPte_of_find hfind] at hmap
 have hx := Option.some.inj hmap
 have htables : x.tables = s.tables d := by
  rw [← hx]
  rfl
 rw [← hnext]
 constructor
 · unfold Vm.put
   rw [htables]
   exact update_eq_self d s.tables
 · rw [← hx]
   rfl

theorem Core.initPgdir (h : s.Core limbo holds) (hpgdir : s.pgdir d = none)
  (htables : s.tables d = []) (hstep : s.initPgdir d = some next) :
  next.Core limbo holds ∧ (forall e v, next.entry e v = s.entry e v) ∧ Later s next := by
 rcases Option.map_eq_some_iff.mp hstep with ⟨x, hinit, hnext⟩
 rcases Option.map_eq_some_iff.mp hinit with ⟨⟨root, y⟩, hnew, rfl⟩
 have hdir : s.dir d = ⟨s.mem, none, [], [], []⟩ := by
  unfold dir
  rw [hpgdir, htables]
 have htree := h.trees d
 rw [hdir] at htree
 rcases newRoot_spec htree rfl hnew with ⟨hnewtree, hgrown, _⟩
 rw [← hdir] at hgrown
 rw [← hnext]
 exact h.put_grown hnewtree hgrown

end OSLab.Kernel.Vm
