import OSLab.Kernel.VmSections
import OSLab.Kernel.VmTables

/-!
# Reference counts

What the operations on page directories do to the slots and to the counts.  A loop
that fills slots takes pages from the queue first and then maps them; a loop that
frees a directory drops one slot after the other while the tables still show them.
-/

namespace OSLab.Kernel.Vm
open Function List Option
variable {s next : Vm}

theorem slot_congr (h : forall e v, next.entry e v = s.entry e v) : next.slot = s.slot := by
 funext k
 unfold slot
 rw [h k.1 k.2]

variable {d : Pid} {v : Vpn}

theorem slot_of_valid (h : isValid (s.entry d v)) : s.slot (d, v) = some (pteFrame (s.entry d v)) :=
 if_pos h

theorem slot_of_invalid (h : ¬ isValid (s.entry d v)) : s.slot (d, v) = none := if_neg h

theorem slot_of_zero (h : s.entry d v = 0#64) : s.slot (d, v) = none := by
 apply slot_of_invalid
 rw [h, not_valid_zero]
 exact Bool.false_ne_true

variable {flags : PteFlags} {f : Frame}

theorem slot_vmmap (hvalid : isValid flags.bits) (h : forall e w, next.entry e w =
    if (e, w) = (d, v) then mkPte f flags.bits else s.entry e w) :
  next.slot = update s.slot (d, v) (some f) := by
 funext k
 by_cases hk : k = (d, v)
 · have hentry := h d v
   rw [if_pos rfl] at hentry
   have hval : isValid (next.entry d v) := by
    rw [hentry, isValid_mkPte f flags.only]
    exact hvalid
   rw [hk, update_self, slot_of_valid hval, hentry, pteFrame_mkPte f flags.only]
 have hentry := h k.1 k.2
 rw [if_neg hk] at hentry
 rw [update_of_ne hk]
 unfold slot
 rw [hentry]

/-!
# The books between operations
-/

structure Books (s : Vm) : Prop where
 core : s.Core [] s.slot
 entries : forall d v, s.entry d v ≠ 0#64 -> isValid (s.entry d v) = true
 zero : s.Managed s.zeroPage

theorem Books.of_same (h : s.Books) (hcore : next.Core [] s.slot)
  (hentries : forall e v, next.entry e v = s.entry e v) (hsteady : Steady s next) :
  next.Books where
 core := by
  rw [slot_congr hentries]
  exact hcore
 entries := by
  intro d v hne
  rw [hentries d v] at hne ⊢
  exact h.entries d v hne
 zero := by
  rw [hsteady.managed, hsteady.zeroPage]
  exact h.zero

structure Fills (s : Vm) (d : Pid) (v : Vpn) (next : Vm) : Prop where
 books : next.Books
 later : Later s next
 others : forall e w, (e, w) ≠ (d, v) -> next.entry e w = s.entry e w

theorem Books.fills (h : s.Books) (hvalid : isValid flags.bits)
  (hcore : next.Core [] (update s.slot (d, v) (some f))) (hentries : forall e w, next.entry e w =
    if (e, w) = (d, v) then mkPte f flags.bits else s.entry e w)
  (hlater : Later s next) : Fills s d v next := by
 have hothers : forall e w, (e, w) ≠ (d, v) -> next.entry e w = s.entry e w := by
  intro e w hne
  rw [hentries e w, if_neg hne]
 refine ⟨?_, hlater, hothers⟩
 constructor
 · rw [slot_vmmap hvalid hentries]
   exact hcore
 · intro e w hne
   by_cases heq : (e, w) = (d, v)
   · rw [hentries e w, if_pos heq, isValid_mkPte f flags.only]
     exact hvalid
   rw [hothers e w heq] at hne ⊢
   exact h.entries e w hne
 · rw [hlater.managed, hlater.zeroPage]
   exact h.zero

variable {va : BitVec 64}

section
variable (h : s.Books)
include h

theorem Books.vmmap_fills (hvalid : isValid flags.bits)
  (hslot : s.slot (d, pageOf va) = none) (hfree : f ∉ s.mem.pages)
  (hreserved : ¬ s.Reserved [] f) (hbounded : f < s.lastPage)
  (hstep : s.vmmap d va f flags = some next) : Fills s d (pageOf va) next := by
 rcases h.core.vmmap hstep hslot hfree (fun hmem => hreserved (.inr (.inl hmem)))
  (fun e hmem => hreserved (.inr (.inr ⟨e, hmem⟩))) hbounded with
  ⟨hcore, hentries, hlater⟩
 exact h.fills hvalid hcore hentries hlater

theorem Books.alloc_fills {mem : Memory} (halloc : s.mem.kallocPage = some (f, mem))
  (frames : Frame -> Page) (hframes : forall g, g ≠ f -> frames g = s.mem.frames g)
  (hvalid : isValid flags.bits) (hslot : s.slot (d, pageOf va) = none)
  (hstep : { s with mem := { mem with frames := frames } }.vmmap d va f flags =
    some next) : Fills s d (pageOf va) next := by
 rcases h.core.kallocPage halloc frames hframes with
  ⟨hcore, hunseen, hlater, hfree, hmanaged, _, hreserved⟩
 rcases hcore.vmmap hstep hslot hfree (fun hmem => hreserved (.inr (.inl hmem)))
  (fun e hmem => hreserved (.inr (.inr ⟨e, hmem⟩))) hmanaged.right with
  ⟨hnext, hnextentries, hnextlater⟩
 rw [erase_cons_head] at hnext
 apply h.fills hvalid hnext _ (hlater.trans hnextlater)
 intro e w
 rw [hnextentries e w, hunseen.entries e w]

theorem Books.mapNew_fills {fill : Vpn -> Page}
  (hvalid : isValid flags.bits) (hslot : s.slot (d, v) = none)
  (hstep : mapNew fill d flags s v = some next) : Fills s d v next := by
 rcases bind_eq_some_iff.mp hstep with ⟨⟨f, mem⟩, halloc, hmap⟩
 have hframes : forall g, g ≠ f -> update mem.frames f (fill v) g = s.mem.frames g := by
  intro g hg
  rw [update_of_ne hg, (Memory.kallocPage_allocates halloc).frames]
 rw [← pageOf_addrOf v] at hslot ⊢
 exact h.alloc_fills halloc _ hframes hvalid hslot hmap

theorem Books.zero_in_use : s.zeroPage ∉ s.mem.pages ∧ ¬ s.Reserved [] s.zeroPage := by
 have hextra : s.extra s.zeroPage = 1 := if_pos rfl
 constructor
 · intro hmem
   have hzero := (h.core.custody.proper _ hmem).right
   rw [hextra] at hzero
   cases hzero
 intro hreserved
 have hzero := (h.core.custody.kept _ hreserved).right.right.left
 rw [hextra] at hzero
 cases hzero

theorem Books.mapZero_fills (hslot : s.slot (d, v) = none) (hstep : mapZero d s v = some next) :
  Fills s d v next := by
 have huse := h.zero_in_use
 rw [← pageOf_addrOf v] at hslot ⊢
 exact h.vmmap_fills (by decide) hslot huse.left huse.right h.zero.right hstep

theorem Books.held {k : Pid × Vpn} (hk : s.slot k = some f) :
  f ∉ s.mem.pages ∧ ¬ s.Reserved [] f ∧ f < s.lastPage := by
 refine ⟨h.core.custody.unheld k f hk, ?_, h.core.bounded k f hk⟩
 intro hreserved
 exact (h.core.custody.kept f hreserved).right.right.right k hk

theorem Books.forkPage_fills {p child : Pid}
  (hslot : s.slot (child, v) = none) (hstep : forkPage p child s v = some next) :
  next = s ∨ Fills s child v next := by
 unfold forkPage at hstep
 split at hstep
 · rename_i hvalid
   right
   have hflags : isValid (PteFlags.ofEntry (s.entry p v)).readOnly.bits := by
    apply isValid_or
    change isValid (pteFlags (s.entry p v)) = true
    rw [← isValid_flags]
    exact hvalid
   rcases h.held (slot_of_valid hvalid) with ⟨hfree, hreserved, hbounded⟩
   rw [← pageOf_addrOf v] at hslot
   have hfills := h.vmmap_fills hflags hslot hfree hreserved hbounded hstep
   rw [pageOf_addrOf] at hfills
   exact hfills
 left
 exact (some.inj hstep).symm
end

/-!
# Loops that fill slots
-/

structure Filled (s : Vm) (d : Pid) (pages : List Vpn) (next : Vm) : Prop where
 books : next.Books
 later : Later s next
 others : forall e w, (e = d -> w ∉ pages) -> next.entry e w = s.entry e w

variable {pages : List Vpn}

theorem Books.foldlM_filled {body : Vm -> Vpn -> Option Vm}
  (hbody : forall s v next, s.Books -> s.slot (d, v) = none -> body s v = some next ->
    next = s ∨ Fills s d v next) (h : s.Books) (hpages : pages.Nodup)
  (hslots : forall v, v ∈ pages -> s.slot (d, v) = none)
  (hstep : pages.foldlM body s = some next) : Filled s d pages next := by
 induction pages generalizing s with
 | nil =>
  have hsame : s = next := some.inj hstep
  rw [← hsame]
  exact ⟨h, Later.refl s, fun _ _ _ => rfl⟩
 | cons v rest ih =>
  rw [foldlM_cons] at hstep
  rcases bind_eq_some_iff.mp hstep with ⟨mid, hhere, hrest⟩
  rw [nodup_cons] at hpages
  have hmid : mid.Books ∧ Later s mid ∧
   forall e w, (e, w) ≠ (d, v) -> mid.entry e w = s.entry e w := by
   rcases hbody s v mid h (hslots v mem_cons_self) hhere with heq | hfills
   · rw [heq]
     exact ⟨h, Later.refl s, fun _ _ _ => rfl⟩
   · exact ⟨hfills.books, hfills.later, hfills.others⟩
  rcases hmid with ⟨hbooks, hlater, hothers⟩
  have hfilled : Filled mid d rest next := by
   apply ih hbooks hpages.right _ hrest
   intro w hw
   have hne : (d, w) ≠ (d, v) := by
    intro heq
    rw [(Prod.mk.inj heq).right] at hw
    exact hpages.left hw
   have hslot := hslots w (mem_cons_of_mem v hw)
   unfold slot at hslot ⊢
   rw [hothers d w hne]
   exact hslot
  refine ⟨hfilled.books, hlater.trans hfilled.later, ?_⟩
  intro e w hw
  rw [hfilled.others e w (fun hed hmem => hw hed (mem_cons_of_mem v hmem))]
  apply hothers
  intro heq
  rcases Prod.mk.inj heq with ⟨hed, hwv⟩
  apply hw hed
  rw [hwv]
  exact mem_cons_self

theorem Filled.valid (h : Filled s d pages next) {e : Pid}
  {w : Vpn} (hvalid : isValid (next.entry e w)) :
  isValid (s.entry e w) ∨ (e = d ∧ w ∈ pages) := by
 by_cases hvisited : e = d ∧ w ∈ pages
 · exact .inr hvisited
 left
 rw [h.others e w (fun hed hmem => hvisited ⟨hed, hmem⟩)] at hvalid
 exact hvalid

theorem Books.sections (h : s.Books) (sections : Pid -> List Section) :
  { s with sections := sections }.Books :=
 ⟨⟨h.core.trees, h.core.custody, h.core.apart, h.core.kernel, h.core.kernelApart,
  h.core.limboNodup, h.core.limboApart, h.core.bounded⟩, h.entries, h.zero⟩

/-!
# Sections

The slots in use are on pages of the sections, and no page is in two of them.
-/

structure Sound (s : Vm) : Prop extends s.Books where
 covered : forall d v, isValid (s.entry d v) = true -> v ∈ s.sectionPages d
 distinct : forall d, (s.sectionPages d).Nodup

theorem sectionPages_addSection (s : Vm) (d : Pid) (st : Section) :
  (s.addSection d st).sectionPages d = st.vpns ++ s.sectionPages d := by
 unfold sectionPages addSection
 simp only [update_self, flatMap_cons]

theorem sectionPages_addSection_of_ne (s : Vm) {d e : Pid} (st : Section) (h : e ≠ d) :
  (s.addSection d st).sectionPages e = s.sectionPages e := by
 unfold sectionPages addSection
 simp only [update_of_ne h]

theorem sectionPages_congr (h : next.sections = s.sections) (d : Pid) :
  next.sectionPages d = s.sectionPages d := by
 unfold sectionPages
 rw [h]

section
variable (h : s.Sound)
include h

theorem Sound.addSection {st : Section}
  (hapart : forall v, v ∈ st.vpns -> v ∉ s.sectionPages d) : (s.addSection d st).Sound := by
 refine { h.toBooks.sections _ with covered := ?_, distinct := ?_ }
 · intro e v hvalid
   have hold := h.covered e v hvalid
   by_cases hed : e = d
   · rw [hed] at hold ⊢
     rw [sectionPages_addSection]
     exact mem_append_right _ hold
   rw [sectionPages_addSection_of_ne s st hed]
   exact hold
 intro e
 by_cases hed : e = d
 · rw [hed]
   rw [sectionPages_addSection]
   apply Nodup.append st.nodup_vpns (h.distinct d)
   intro v hv hold
   exact hapart v hv hold
 rw [sectionPages_addSection_of_ne s st hed]
 exact h.distinct e

theorem Sound.of_valid (hbooks : next.Books) (hsections : next.sections = s.sections)
  (hvalid : forall e v, isValid (next.entry e v) ->
    isValid (s.entry e v) ∨ v ∈ s.sectionPages e) : next.Sound := by
 refine { hbooks with covered := ?_, distinct := ?_ }
 · intro e v hnew
   rw [sectionPages_congr hsections e]
   rcases hvalid e v hnew with hold | hmem
   · exact h.covered e v hold
   · exact hmem
 intro e
 rw [sectionPages_congr hsections e]
 exact h.distinct e

theorem Sound.filled (hfilled : Filled s d pages next)
  (hpages : forall v, v ∈ pages -> v ∈ s.sectionPages d) : next.Sound := by
 apply h.of_valid hfilled.books hfilled.later.sections
 intro e v hvalid
 rcases hfilled.valid hvalid with hold | ⟨hed, hmem⟩
 · exact .inl hold
 rw [hed]
 exact .inr (hpages v hmem)

theorem Sound.of_same (hcore : next.Core [] s.slot)
  (hentries : forall e v, next.entry e v = s.entry e v) (hsteady : Steady s next) :
  next.Sound := by
 apply h.of_valid (h.toBooks.of_same hcore hentries hsteady) hsteady.sections
 intro e v hvalid
 rw [hentries e v] at hvalid
 exact .inl hvalid
end

theorem Fills.filled (h : Fills s d v next) : Filled s d [v] next := { h with
 others := by
  intro e w hw
  apply h.others
  intro heq
  rcases Prod.mk.inj heq with ⟨hed, hwv⟩
  exact hw hed (by rw [hwv]; exact mem_singleton.mpr rfl) }

/-!
# Where the pages of the kernel come from
-/

structure Origin (s next : Vm) : Prop where
 reserved : forall f, next.Reserved [] f -> s.Reserved [] f ∨ f ∈ s.mem.pages
 zeroPage : next.zeroPage = s.zeroPage
 lastPage : next.lastPage = s.lastPage
 firstPage : next.mem.firstPage = s.mem.firstPage

theorem Later.origin (h : Later s next) : Origin s next := by
 refine ⟨?_, h.zeroPage, h.lastPage, h.firstPage⟩
 rintro f (hnil | hkernel | ⟨d, htable⟩)
 · cases hnil
 · rw [h.kernelPages] at hkernel
   exact .inl (.inr (.inl hkernel))
 · exact (h.tables d f htable).imp_left fun hold => .inr (.inr hold)

theorem Origin.trans {mid : Vm} (h : Origin s mid) (hnext : Origin mid next)
  (hreserved : forall f, next.Reserved [] f -> mid.Reserved [] f) : Origin s next where
 reserved := fun f hf => h.reserved f (hreserved f hf)
 zeroPage := hnext.zeroPage.trans h.zeroPage
 lastPage := hnext.lastPage.trans h.lastPage
 firstPage := hnext.firstPage.trans h.firstPage

section
variable (h : Steady s next) (htables : next.tables = s.tables)
include h htables

theorem Steady.reserved (f : Frame) (hf : next.Reserved [] f) : s.Reserved [] f := by
 unfold Reserved at hf ⊢
 rw [h.kernelPages, htables] at hf
 exact hf

theorem Steady.origin : Origin s next :=
 ⟨fun f hf => .inl (h.reserved htables f hf), h.zeroPage, h.lastPage, h.firstPage⟩
end

/-!
# Page faults
-/

theorem Books.copyOnWrite (h : s.Books) {original : Frame}
  {ptr : PtePtr} (hslot : s.slot (d, pageOf va) = some original)
  (hfind : (s.dir d).find va = some ptr) (hstep : s.copyOnWrite d va original = some next) :
  next.Books ∧ Steady s next ∧ next.tables = s.tables ∧
    forall e w, (e, w) ≠ (d, pageOf va) -> next.entry e w = s.entry e w := by
 rcases bind_eq_some_iff.mp hstep with ⟨⟨f, mem⟩, halloc, hmap⟩
 have hframes : forall g, g ≠ f -> update mem.frames f (mem.frames original) g =
  s.mem.frames g := by
  intro g hg
  rw [update_of_ne hg, (Memory.kallocPage_allocates halloc).frames]
 rcases h.core.kallocPage halloc _ hframes with ⟨hcore, hunseen, hlater, _, hmanaged, _, hreserved⟩
 -- the page has left the queue; the slot gives up the original
 rcases hcore.kfree_held hslot with ⟨hfreed, hsame⟩
 have hlimbo := hfreed.custody.kept f (.inl mem_cons_self)
 have hkernel : f ∉ s.kernelPages := fun hmem => hreserved (.inr (.inl hmem))
 have htable : forall e, f ∉ s.tables e := fun e hmem => hreserved (.inr (.inr ⟨e, hmem⟩))
 rcases hfreed.vmmap hmap (update_self ..) hlimbo.right.left hkernel htable
  hmanaged.right with ⟨hnext, hnextentries, hnextlater⟩
 rw [erase_cons_head, Function.update_idem] at hnext
 have hall : forall e w, next.entry e w =
  if (e, w) = (d, pageOf va) then mkPte f userFlags.bits else s.entry e w := by
  intro e w
  rw [hnextentries e w]
  have hbefore := (hsame.entries e w).trans (hunseen.entries e w)
  by_cases heq : (e, w) = (d, pageOf va)
  · rw [if_pos heq, if_pos heq]
  rw [if_neg heq, if_neg heq]
  exact hbefore
 have hsteady : Steady s next := by
  refine ⟨hnextlater.zeroPage, hnextlater.lastPage, ?_, hnextlater.sections, hnextlater.kernelPages⟩
  rw [hnextlater.firstPage]
  rw [Memory.kfreePage_firstPage]
  exact hlater.firstPage
 have htables : next.tables = s.tables := by
  have hthere := ((hsame.finds d va).trans (hunseen.finds d va)).trans hfind
  exact (vmmap_of_find hmap hthere).left
 refine ⟨?_, hsteady, htables, ?_⟩
 · constructor
   · rw [slot_vmmap (by decide) hall]
     exact hnext
   · intro e w hne
     by_cases heq : (e, w) = (d, pageOf va)
     · rw [hall e w, if_pos heq, isValid_mkPte f userFlags.only]
       decide
     rw [hall e w, if_neg heq] at hne ⊢
     exact h.entries e w hne
   · rw [hsteady.managed, hsteady.zeroPage]
     exact h.zero
 intro e w hne
 rw [hall e w, if_neg hne]

theorem entry_of_find {ptr : PtePtr}
  (h : (s.dir d).find va = some ptr) : s.mem.entry ptr = s.entry d (pageOf va) := by
 have hentry : (s.dir d).entryOf va = s.mem.entry ptr := PageDir.entryOf_find h
 rw [← hentry]
 exact PageDir.entryOf_congr (pageOf_addrOf (pageOf va)).symm

theorem Sound.pgfault (h : s.Sound) {addr : Nat}
  (hstep : s.pgfault d addr = some next) : next.Sound ∧ Origin s next := by
 unfold Vm.pgfault at hstep
 split at hstep
 · cases hstep
 rename_i st hfound
 have hcontains : st.contains addr := by
  have hsome := find?_some hfound
  exact hsome
 have hpage : vpnOf addr ∈ s.sectionPages d :=
  mem_flatMap.mpr ⟨st, mem_of_find?_eq_some hfound, Section.mem_vpns hcontains⟩
 split at hstep
 · cases hstep
 rename_i ptr mid hget
 rcases h.core.getPte hget with ⟨hcore, hentries, hlater, hfind⟩
 have hmid := h.of_same hcore hentries hlater.toSteady
 have hentry := entry_of_find hfind
 rw [hentry] at hstep
 have hcovered : pageOf (BitVec.ofNat 64 addr) ∈ mid.sectionPages d := by
  rw [pageOf_ofNat, sectionPages_congr hlater.sections]
  exact hpage
 split at hstep
 · rename_i hzero
   rcases bind_eq_some_iff.mp hstep with ⟨⟨f, mem⟩, halloc, hmap⟩
   have hfills := hmid.toBooks.alloc_fills halloc mem.frames
    (fun g _ => by rw [(Memory.kallocPage_allocates halloc).frames])
    (by decide) (slot_of_zero hzero) hmap
   refine ⟨?_, (hlater.trans hfills.later).origin⟩
   apply hmid.filled hfills.filled
   intro v hv
   rw [mem_singleton.mp hv]
   exact hcovered
 rename_i hpresent
 split at hstep
 · have hvalid := hmid.entries d _ hpresent
   rcases hmid.toBooks.copyOnWrite (slot_of_valid hvalid) hfind hstep with
    ⟨hbooks, hsteady, htables, hothers⟩
   constructor
   · apply hmid.of_valid hbooks hsteady.sections
     intro e v hnew
     by_cases heq : (e, v) = (d, pageOf (BitVec.ofNat 64 addr))
     · rcases Prod.mk.inj heq with ⟨hed, hv⟩
       rw [hed, hv]
       exact .inr hcovered
     rw [hothers e v heq] at hnew
     exact .inl hnew
   · exact hlater.origin.trans (hsteady.origin htables) (hsteady.reserved htables)
 split at hstep
 · rw [← some.inj hstep]
   exact ⟨hmid, hlater.origin⟩
 · cases hstep

/-!
# Forking
-/

theorem entry_of_none (h : s.pgdir d = none) (v : Vpn) : s.entry d v = 0#64 := by
 unfold Vm.entry PageDir.entryOf PageDir.find
 rw [PageDir.locate_of_none (s := s.dir d) h]
 rfl

theorem Sound.createProc (h : s.Sound) {child : Pid} (hstep : s.createProc child = some next) :
  next.Sound ∧ Later s next ∧ s.sections child = [] ∧ forall v, next.slot (child, v) = none := by
 unfold Vm.createProc at hstep
 split at hstep
 · rename_i hunused
   rcases h.core.initPgdir hunused.left hunused.right.left hstep with ⟨hcore, hentries, hlater⟩
   refine ⟨h.of_same hcore hentries hlater.toSteady, hlater,
    isEmpty_iff.mp hunused.right.right, ?_⟩
   intro v
   apply slot_of_zero
   rw [hentries child v]
   exact entry_of_none hunused.left v
 · cases hstep

theorem Sound.fork (h : s.Sound) {p child : Pid} (hstep : s.fork p child = some next) :
  next.Sound ∧ Origin s next := by
 rcases bind_eq_some_iff.mp hstep with ⟨mid, hcreate, hrest⟩
 rcases map_eq_some_iff.mp hrest with ⟨last, hloop, hnext⟩
 rcases h.createProc hcreate with ⟨hmid, hlater, hempty, hslots⟩
 have hfilled : Filled mid child (mid.sectionPages p) last := by
  apply hmid.toBooks.foldlM_filled _ (hmid.distinct p) (fun v _ => hslots v) hloop
  intro t v after hbooks hslot hbody
  exact hbooks.forkPage_fills hslot hbody
 have hsections := hfilled.later.sections
 have hchild : next.sectionPages child = (last.sections p).reverse.flatMap Section.vpns := by
  rw [← hnext]
  unfold sectionPages copySections
  simp only [update_self]
 have hperm : (next.sectionPages child).Perm (mid.sectionPages p) := by
  rw [hchild, hsections]
  exact (reverse_perm _).flatMap_right _
 have hother : forall e, e ≠ child -> next.sectionPages e = mid.sectionPages e := by
  intro e he
  rw [← hnext, ← sectionPages_congr hsections e]
  unfold sectionPages copySections
  simp only [update_of_ne he]
 constructor
 · rw [← hnext]
   refine { hfilled.books.sections _ with covered := ?_, distinct := ?_ }
   · intro e v hvalid
     rw [hnext]
     by_cases he : e = child
     · rw [he] at hvalid ⊢
       rw [hperm.mem_iff]
       rcases hfilled.valid hvalid with hold | ⟨_, hmem⟩
       · have hslot := hslots v
         rw [slot_of_valid hold] at hslot
         cases hslot
       · exact hmem
     rw [hother e he]
     rcases hfilled.valid hvalid with hold | ⟨hchild', _⟩
     · exact hmid.covered e v hold
     · exact absurd hchild' he
   intro e
   rw [hnext]
   by_cases he : e = child
   · rw [he]
     exact hperm.nodup_iff.mpr (hmid.distinct p)
   rw [hother e he]
   exact hmid.distinct e
 have horigin := (hlater.trans hfilled.later).origin
 rw [← hnext]
 exact { horigin with }

end OSLab.Kernel.Vm
