import OSLab.Kernel.VmRelease

/-!
# Runs of the virtual memory

Every step keeps the books, so in every run the counts are those of the slots.
-/

namespace OSLab.Kernel
open Foundation Function TransitionSystem List Option BitVec Vm
namespace Vm
variable {s next : Vm}

/-!
# Executing a file
-/

theorem Segment.valid_flags (ph : Segment) : isValid ph.pteFlags.bits := by
 unfold Segment.pteFlags
 cases ph.text with
 | false | true => decide

variable {d : Pid}

theorem Sound.slot_none (h : s.Sound) {v : Vpn} (hv : v ∉ s.sectionPages d) :
  s.slot (d, v) = none := by
 apply slot_of_invalid
 intro hvalid
 exact hv (h.covered d v hvalid)

variable {e : Pid} {fill : Vpn -> Page}

theorem Sound.load (h : s.Sound) {ph : Segment} (hstop : ph.stop ≤ 2 ^ 48)
  (hsize : ph.text = false -> ph.filesz ≤ ph.memsz)
  (hapart : forall v, v ∈ (ph.asSection hstop).vpns -> v ∉ s.sectionPages e)
  {pages : List Vpn} (hpages : pages.Sublist ph.loaded)
  (hstep : pages.foldlM (mapNew fill e ph.pteFlags) (s.addSection e (ph.asSection hstop)) =
    some next) :
  next.Sound ∧ Filled (s.addSection e (ph.asSection hstop)) e pages next := by
 have hadded := h.addSection hapart
 rcases ph.loaded_spec hstop hsize with ⟨hend, hnodup, hrange⟩
 have hinside : forall v, v ∈ pages -> v ∈ (ph.asSection hstop).vpns := by
  intro v hv
  rcases hrange v (hpages.subset hv) with ⟨hlow, hhigh⟩
  rw [Section.mem_vpns_iff]
  exact ⟨hlow, Nat.lt_of_lt_of_le hhigh hend⟩
 have hfilled : Filled (s.addSection e (ph.asSection hstop)) e pages next := by
  apply hadded.toBooks.foldlM_filled _ (hnodup.sublist hpages) _ hstep
  · intro t v after hbooks hslot hbody
    exact .inr (hbooks.mapNew_fills ph.valid_flags hslot hbody)
  intro v hv
  exact h.slot_none (hapart v (hinside v hv))
 refine ⟨hadded.filled hfilled ?_, hfilled⟩
 intro v hv
 rw [sectionPages_addSection]
 exact mem_append_left _ (hinside v hv)

theorem Origin.of_addSection {st : Section} (h : Origin (s.addSection e st) next) : Origin s next :=
 { h with }

theorem Sound.execSegment (h : s.Sound) {ph : Segment}
  {fails : Option Nat} (hsize : ph.text = false -> ph.filesz ≤ ph.memsz)
  (hapart : forall (hstop : ph.stop ≤ 2 ^ 48) v, v ∈ (ph.asSection hstop).vpns ->
    v ∉ s.sectionPages e)
  (hstep : s.execSegment e ph fill fails = some next) : next.Sound ∧ Origin s next := by
 unfold Vm.execSegment at hstep
 rcases dite_none_right_eq_some.mp hstep with ⟨hstop, hstep⟩
 have hhere := hapart hstop
 split at hstep
 · rcases bind_eq_some_iff.mp hstep with ⟨mid, hload, hzero⟩
   rcases h.load hstop hsize hhere (Sublist.refl _) hload with ⟨hmid, hfilled⟩
   rcases ph.zeroed_spec hstop with ⟨hnodup, hrange⟩
   have hinside : forall v, v ∈ ph.zeroed -> v ∈ (ph.asSection hstop).vpns := by
    intro v hv
    rw [Section.mem_vpns_iff]
    exact (hrange v hv).right
   have hrest : Filled mid e ph.zeroed next := by
    apply hmid.toBooks.foldlM_filled _ hnodup _ hzero
    · intro t v after hbooks hslot hbody
      exact .inr (hbooks.mapZero_fills hslot hbody)
    -- these pages lie behind those from the file
    intro v hv
    have hnot : v ∉ ph.loaded := by
     intro hmem
     have hlow := (hrange v hv).left
     have hhigh := ((ph.loaded_spec hstop hsize).right.right v hmem).right
     exact absurd hhigh (Nat.not_lt.mpr hlow)
    have hbefore := h.slot_none (hhere v (hinside v hv))
    have hsame := hfilled.others e v (fun _ => hnot)
    unfold slot at hbefore ⊢
    rw [hsame]
    exact hbefore
   constructor
   · apply hmid.filled hrest
     intro v hv
     rw [sectionPages_congr hfilled.later.sections, sectionPages_addSection]
     exact mem_append_left _ (hinside v hv)
   · exact (hfilled.later.trans hrest.later).origin.of_addSection
 rename_i n
 rcases map_eq_some_iff.mp hstep with ⟨mid, hload, hnext⟩
 rcases h.load hstop hsize hhere (take_sublist _ _) hload with ⟨hmid, hfilled⟩
 have hreleased := hmid.toBooks.freePgdir (hmid.distinct e)
 rw [hnext] at hreleased
 refine ⟨hreleased.sound hmid, ?_⟩
 exact hfilled.later.origin.of_addSection.trans hreleased.origin hreleased.reserved

theorem Sound.execStack (h : s.Sound) (hstep : s.execStack e = some next) :
  next.Sound ∧ Origin s next := by
 unfold Vm.execStack at hstep
 simp only at hstep
 rcases dite_none_right_eq_some.mp hstep with ⟨hfits, hstep⟩
 rcases map_eq_some_iff.mp hstep with ⟨mid, hloop, hnext⟩
 generalize hstart : pageBase (s.maxEnd e) + pageSize = start at hfits hloop hnext
 have haligned : start % pageSize = 0 := by
  rw [← hstart]
  unfold pageBase pageSize
  omega
 rcases stackPages_spec haligned hfits with ⟨hnodup, hrange⟩
 have hinside : forall v, v ∈ stackPages start ->
  v ∈ (⟨0x400#64, start, start + 10 * pageSize, hfits⟩ : Section).vpns := by
  intro v hv
  rw [Section.mem_vpns_iff]
  exact hrange v hv
 -- the stack lies behind all sections
 have hapart : forall v, v ∈ (⟨0x400#64, start, start + 10 * pageSize, hfits⟩ : Section).vpns ->
  v ∉ s.sectionPages e := by
  intro v hv hmem
  have hlow := ((Section.mem_vpns_iff _ v).mp hv).left
  rcases mem_flatMap.mp hmem with ⟨st, hst, hpage⟩
  have hhigh := ((Section.mem_vpns_iff st v).mp hpage).right
  have hend := le_maxEnd hst
  change start / pageSize ≤ v.toNat at hlow
  rw [← hstart] at hlow
  unfold pageBase pageSize at hlow
  unfold pageSize at hhigh
  omega
 have hfilled : Filled s e (stackPages start) mid := by
  apply h.toBooks.foldlM_filled _ hnodup _ hloop
  · intro t v after hbooks hslot hbody
    exact .inr (hbooks.mapNew_fills (by decide) hslot hbody)
  intro v hv
  exact h.slot_none (hapart v (hinside v hv))
 have hadded := h.addSection hapart
 rw [← hnext]
 constructor
 · apply hadded.of_valid (hfilled.books.sections _)
   · unfold Vm.addSection
     rw [hfilled.later.sections]
   intro d v hvalid
   rcases hfilled.valid hvalid with hold | ⟨hde, hmem⟩
   · exact .inl hold
   right
   rw [hde, sectionPages_addSection]
   exact mem_append_left _ (hinside v hmem)
 · have horigin := hfilled.later.origin
   exact { horigin with }

/-!
# Replacing a directory
-/

def swapDirs (p e : Pid) : Pid × Vpn ≃ Pid × Vpn := (Equiv.swap p e).prodCongr (Equiv.refl Vpn)

variable {p e : Pid}

theorem update_swap {value : Type} (field : Pid -> value) {empty : value} (hp : field p = empty) :
  update (update field p (field e)) e empty = fun d => field (Equiv.swap p e d) := by
 funext d
 by_cases hde : d = e
 · rw [hde, update_self, Equiv.swap_apply_right, hp]
 rw [update_of_ne hde]
 by_cases hdp : d = p
 · rw [hdp, update_self, Equiv.swap_apply_left]
 · rw [update_of_ne hdp, Equiv.swap_apply_of_ne_of_ne hdp hde]

theorem Sound.replacePgdir (h : s.Sound) (hgone : s.pgdir p = none) :
  (s.replacePgdir p e).Sound ∧ Origin s (s.replacePgdir p e) ∧
    forall f, (s.replacePgdir p e).Reserved [] f -> s.Reserved [] f := by
 have hempty := tables_of_none h.toBooks hgone
 have hpgdir : (s.replacePgdir p e).pgdir = fun d => s.pgdir (Equiv.swap p e d) :=
  update_swap s.pgdir hgone
 have htables : (s.replacePgdir p e).tables = fun d => s.tables (Equiv.swap p e d) :=
  update_swap s.tables hempty
 have hdir : forall d, (s.replacePgdir p e).dir d = s.dir (Equiv.swap p e d) := by
  intro d
  unfold dir
  rw [hpgdir, htables]
  rfl
 have hentry : forall d v, (s.replacePgdir p e).entry d v = s.entry (Equiv.swap p e d) v := by
  intro d v
  unfold entry
  rw [hdir d]
 have hslot : (s.replacePgdir p e).slot = fun k => s.slot (swapDirs p e k) := by
  funext k
  unfold slot
  rw [hentry k.1 k.2]
  rfl
 have hmem : forall f, (exists d, f ∈ (s.replacePgdir p e).tables d) ↔
  exists d, f ∈ s.tables d := by
  intro f
  rw [htables]
  constructor
  · rintro ⟨d, hd⟩
    exact ⟨_, hd⟩
  rintro ⟨d, hd⟩
  refine ⟨Equiv.swap p e d, ?_⟩
  simp only [Equiv.swap_apply_self]
  exact hd
 have hreserved : forall f, (s.replacePgdir p e).Reserved [] f ↔ s.Reserved [] f := by
  intro f
  unfold Reserved
  rw [hmem f]
  exact Iff.rfl
 have hsections : forall d, d ≠ e -> d ≠ p ->
  (s.replacePgdir p e).sectionPages d = s.sectionPages d := by
  intro d hde hdp
  unfold sectionPages Vm.replacePgdir
  simp only [update_of_ne hde, update_of_ne hdp]
 have hnew : p ≠ e -> (s.replacePgdir p e).sectionPages p = s.sectionPages e := by
  intro hpe
  unfold sectionPages Vm.replacePgdir
  simp only [update_of_ne hpe, update_self]
 have hold : (s.replacePgdir p e).sectionPages e = [] := by
  unfold sectionPages Vm.replacePgdir
  simp only [update_self, flatMap_nil]
 refine ⟨?_, ⟨fun f hf => .inl ((hreserved f).mp hf), rfl, rfl, rfl⟩,
  fun f hf => (hreserved f).mp hf⟩
 have hcore : (s.replacePgdir p e).Core [] (s.replacePgdir p e).slot := by
  constructor
  · intro d
    rw [hdir d]
    exact h.core.trees _
  · rw [hslot]
    exact (h.core.custody.rename (swapDirs p e)).congr (fun _ => rfl) hreserved (fun _ => rfl)
  · intro d d' f hf hf'
    rw [htables] at hf hf'
    exact (Equiv.swap p e).injective (h.core.apart _ _ f hf hf')
  · exact h.core.kernel
  · intro d f hf
    rw [htables] at hf
    exact h.core.kernelApart _ f hf
  · exact nodup_nil
  · nofun
  · intro k f hk
    rw [hslot] at hk
    exact h.core.bounded _ f hk
 refine ⟨⟨hcore, ?_, h.zero⟩, ?_, ?_⟩
 · intro d v hne
   rw [hentry d v] at hne ⊢
   exact h.entries _ v hne
 · intro d v hvalid
   rw [hentry d v] at hvalid
   by_cases hde : d = e
   · rw [hde, Equiv.swap_apply_right, entry_of_none hgone v, not_valid_zero] at hvalid
     cases hvalid
   by_cases hdp : d = p
   · rw [hdp] at hde hvalid ⊢
     rw [Equiv.swap_apply_left] at hvalid
     rw [hnew hde]
     exact h.covered e v hvalid
   rw [Equiv.swap_apply_of_ne_of_ne hdp hde] at hvalid
   rw [hsections d hde hdp]
   exact h.covered d v hvalid
 intro d
 by_cases hde : d = e
 · rw [hde, hold]
   exact nodup_nil
 by_cases hdp : d = p
 · rw [hdp] at hde ⊢
   rw [hnew hde]
   exact h.distinct e
 rw [hsections d hde hdp]
 exact h.distinct d

theorem Sound.execSwitch (h : s.Sound) (hstep : s.execSwitch p e = some next) :
  next.Sound ∧ Origin s next := by
 unfold Vm.execSwitch at hstep
 split at hstep
 · cases hstep
 have hreleased := h.toBooks.freePgdir (h.distinct p)
 have hmid := hreleased.sound h
 have hmoved : ((s.freePgdir p).replacePgdir p e).Sound ∧ _ ∧ _ :=
  hmid.replacePgdir hreleased.gone
 rcases hmoved with ⟨hsound, horigin, hreserved⟩
 rw [← some.inj hstep]
 exact ⟨hsound, hreleased.origin.trans horigin hreserved⟩

/-!
# The first process
-/

variable {f : Frame}

theorem Books.image_in_use (h : s.Books) (hf : f < s.mem.firstPage) :
  f ∉ s.mem.pages ∧ ¬ s.Reserved [] f ∧ f < s.lastPage := by
 have hnot : ¬ s.Managed f := by
  intro hmanaged
  exact absurd hf (BitVec.not_lt.mpr hmanaged.left)
 refine ⟨?_, ?_, ?_⟩
 · intro hmem
   exact hnot (h.core.custody.proper f hmem).left
 · intro hreserved
   exact hnot (h.core.custody.kept f hreserved).left
 have hfirst := le_def.mp h.zero.left
 have hlast := lt_def.mp h.zero.right
 exact lt_def.mpr (Nat.lt_trans (lt_def.mp hf) (Nat.lt_of_le_of_lt hfirst hlast))

variable {holds : Pid × Vpn -> Option Frame} {limbo : List Frame}

theorem Core.drop_image (h : s.Core limbo holds) {k : Pid × Vpn} (hk : holds k = some f)
  (hf : f < s.mem.firstPage) : s.Core limbo (update holds k none) := by
 refine { h with custody := ?_, bounded := ?_ }
 · apply h.custody.drop_unmanaged hk
   intro hmanaged
   exact absurd hf (BitVec.not_lt.mpr hmanaged.left)
 intro k' g hg
 exact h.bounded k' g ((Custody.update_none_iff holds k k' g).mp hg).right

def OnImage (s : Vm) (k : Pid × Vpn) : Prop :=
 s.slot k = none ∨ exists f, s.slot k = some f ∧ f < s.mem.firstPage

theorem Books.image_fills (h : s.Books) {va : BitVec 64}
  (hslot : s.OnImage (d, pageOf va)) (hf : f < s.mem.firstPage)
  (hstep : s.vmmap d va f userFlags.readOnly = some next) :
  Fills s d (pageOf va) next ∧ next.OnImage (d, pageOf va) := by
 rcases h.image_in_use hf with ⟨hfree, hreserved, hbounded⟩
 have hcleared : s.Core [] (update s.slot (d, pageOf va) none) := by
  rcases hslot with hnone | ⟨g, hg, himage⟩
  · rw [← hnone, update_eq_self]
    exact h.core
  · exact h.core.drop_image hg himage
 rcases hcleared.vmmap hstep (update_self ..) hfree (fun hmem => hreserved (.inr (.inl hmem)))
  (fun e hmem => hreserved (.inr (.inr ⟨e, hmem⟩))) hbounded with
  ⟨hcore, hentries, hlater⟩
 rw [Function.update_idem] at hcore
 refine ⟨h.fills (by decide) hcore hentries hlater, .inr ⟨f, ?_, ?_⟩⟩
 · rw [slot_vmmap (by decide) hentries, update_self]
 rw [hlater.firstPage]
 exact hf

variable {image : List Frame}

theorem Books.foldlM_image (h : s.Books) {va : BitVec 64}
  (hslot : s.OnImage (d, pageOf va)) (himage : forall f, f ∈ image -> f < s.mem.firstPage)
  (hstep : image.foldlM (fun s f => s.vmmap d va f userFlags.readOnly) s = some next) :
  Filled s d [pageOf va] next := by
 induction image generalizing s with
 | nil =>
  have hsame : s = next := some.inj hstep
  rw [← hsame]
  exact ⟨h, Later.refl s, fun _ _ _ => rfl⟩
 | cons f rest ih =>
  rw [foldlM_cons] at hstep
  rcases bind_eq_some_iff.mp hstep with ⟨mid, hhere, hrest⟩
  rcases h.image_fills hslot (himage f mem_cons_self) hhere with ⟨hfills, hmid⟩
  have hfilled := ih hfills.books hmid (by
   intro g hg
   rw [hfills.later.firstPage]
   exact himage g (mem_cons_of_mem f hg)) hrest
  refine ⟨hfilled.books, hfills.later.trans hfilled.later, ?_⟩
  intro e w hw
  rw [hfilled.others e w hw, hfills.filled.others e w hw]

theorem Sound.kernelEntry (h : s.Sound) {st : Section}
  (hpage : 0#36 ∈ st.vpns) (himage : forall f, f ∈ image -> f < s.mem.firstPage)
  (hstep : s.kernelEntry d st image = some next) : next.Sound ∧ Origin s next := by
 unfold Vm.kernelEntry at hstep
 rcases ite_none_right_eq_some.mp hstep with ⟨hempty, hstep⟩
 have hnone : s.sectionPages d = [] := by
  unfold sectionPages
  rw [isEmpty_iff.mp hempty]
  rfl
 have hadded : (s.addSection d st).Sound := by
  apply h.addSection
  intro v _ hmem
  rw [hnone] at hmem
  cases hmem
 have hslot : (s.addSection d st).OnImage (d, pageOf 0#64) := by
  left
  apply h.slot_none
  rw [hnone]
  exact not_mem_nil
 have hfilled := hadded.toBooks.foldlM_image hslot himage hstep
 refine ⟨hadded.filled hfilled ?_, hfilled.later.origin.of_addSection⟩
 intro v hv
 rw [mem_singleton.mp hv, sectionPages_addSection]
 exact mem_append_left _ hpage

/-!
# The rest of the kernel
-/

theorem Core.adopt (h : s.Core (f :: limbo) holds) :
  { s with kernelPages := f :: s.kernelPages }.Core limbo holds := by
 have hnodup := nodup_cons.mp h.limboNodup
 have hapart := h.limboApart f mem_cons_self
 constructor
 · exact h.trees
 · apply h.custody.congr (fun _ => rfl) _ (fun _ => rfl)
   exact fun g => reserved_kernel limbo rfl mem_cons
 · exact h.apart
 · exact nodup_cons.mpr ⟨hapart.left, h.kernel⟩
 · intro d g hg hmem
   rcases mem_cons.mp hmem with heq | hold
   · rw [heq] at hg
     exact hapart.right d hg
   · exact h.kernelApart d g hg hold
 · exact hnodup.right
 · intro g hg
   have hold := h.limboApart g (mem_cons_of_mem f hg)
   refine ⟨?_, hold.right⟩
   intro hmem
   rcases mem_cons.mp hmem with heq | hkernel
   · rw [heq] at hg
     exact hnodup.left hg
   · exact hold.left hkernel
 · exact h.bounded

theorem Core.disown (h : s.Core limbo holds) (hf : f ∈ s.kernelPages) (hlimbo : f ∉ limbo) :
  { s with kernelPages := s.kernelPages.erase f }.Core (f :: limbo) holds := by
 have hsub : forall g, g ∈ s.kernelPages.erase f -> g ∈ s.kernelPages :=
  fun g hg => mem_of_mem_erase hg
 constructor
 · exact h.trees
 · apply h.custody.congr (fun _ => rfl) _ (fun _ => rfl)
   intro g
   refine (reserved_kernel limbo ?_ ?_).symm
   · rfl
   rw [← mem_cons]
   exact (perm_cons_erase hf).mem_iff
 · exact h.apart
 · exact h.kernel.erase f
 · intro d g hg hmem
   exact h.kernelApart d g hg (hsub g hmem)
 · exact nodup_cons.mpr ⟨hlimbo, h.limboNodup⟩
 · intro g hg
   rcases mem_cons.mp hg with heq | hmem
   · rw [heq]
     refine ⟨h.kernel.not_mem_erase, ?_⟩
     intro d hd
     exact h.kernelApart d f hd hf
   have hold := h.limboApart g hmem
   exact ⟨fun hin => hold.left (hsub g hin), hold.right⟩
 · exact h.bounded

theorem Sound.of_kernel (h : s.Sound) (hcore : next.Core [] s.slot)
  (hentries : forall e v, next.entry e v = s.entry e v)
  (hzero : next.zeroPage = s.zeroPage) (hlast : next.lastPage = s.lastPage)
  (hfirst : next.mem.firstPage = s.mem.firstPage)
  (hsections : next.sections = s.sections) : next.Sound := by
 apply h.of_valid _ hsections
 · intro e v hvalid
   rw [hentries e v] at hvalid
   exact .inl hvalid
 constructor
 · rw [slot_congr hentries]
   exact hcore
 · intro e v hne
   rw [hentries e v] at hne ⊢
   exact h.entries e v hne
 · have hmanaged := h.zero
   unfold Managed at hmanaged ⊢
   rw [hzero, hlast, hfirst]
   exact hmanaged

variable {contents : Page}

section
variable (h : s.Sound)
include h

theorem Sound.kernelAlloc
  (hstep : s.kernelAlloc contents = some next) : next.Sound ∧ Origin s next := by
 rcases map_eq_some_iff.mp hstep with ⟨⟨f, mem⟩, halloc, hnext⟩
 have hframes : forall g, g ≠ f -> update mem.frames f contents g = s.mem.frames g := by
  intro g hg
  rw [update_of_ne hg, (Memory.kallocPage_allocates halloc).frames]
 rcases h.core.kallocPage halloc _ hframes with ⟨hcore, hunseen, hlater, _⟩
 rw [← hnext]
 constructor
 · exact h.of_kernel hcore.adopt hunseen.entries rfl rfl hlater.firstPage rfl
 refine ⟨?_, rfl, rfl, hlater.firstPage⟩
 intro g hg
 rcases hg with hnil | hkernel | htable
 · cases hnil
 · rcases mem_cons.mp hkernel with heq | hold
   · right
     rw [heq, (Memory.kallocPage_allocates halloc).pages]
     exact mem_cons_self
   · exact .inl (.inr (.inl hold))
 · exact .inl (.inr (.inr htable))

theorem Sound.kernelFree (hstep : s.kernelFree f = some next) : next.Sound ∧ Origin s next := by
 unfold Vm.kernelFree at hstep
 rcases ite_none_right_eq_some.mp hstep with ⟨hcontains, hstep⟩
 have hmem : f ∈ s.kernelPages := contains_iff_mem.mp hcontains
 rcases (h.core.disown hmem not_mem_nil).kfree_limbo with ⟨hcore, hunseen, _⟩
 rw [← some.inj hstep]
 constructor
 · exact h.of_kernel hcore hunseen.entries rfl rfl (Memory.kfreePage_firstPage s.mem f) rfl
 refine ⟨?_, rfl, rfl, Memory.kfreePage_firstPage s.mem f⟩
 intro g hg
 left
 rcases hg with hnil | hkernel | htable
 · cases hnil
 · exact .inr (.inl (mem_of_mem_erase hkernel))
 · exact .inr (.inr htable)

theorem Sound.write (contents : Page) (hf : forall d, f ∉ s.tables d) :
  (s.write f contents).Sound ∧ Origin s (s.write f contents) := by
 have hframes : forall d g, g ∈ s.tables d ->
  update s.mem.frames f contents g = s.mem.frames g := by
  intro d g hg
  apply update_of_ne
  rintro rfl
  exact hf d hg
 have hcore : (s.write f contents).Core [] s.slot ∧ Unseen s (s.write f contents) :=
  h.core.of_mem hframes rfl h.core.custody h.core.limboNodup h.core.limboApart h.core.bounded
 refine ⟨?_, ⟨fun g hg => .inl hg, rfl, rfl, rfl⟩⟩
 exact h.of_same hcore.left hcore.right.entries ⟨rfl, rfl, rfl, rfl, rfl⟩

theorem Sound.store {v : Vpn}
  (hstep : s.store d v contents = some next) : next.Sound ∧ Origin s next := by
 unfold Vm.store at hstep
 split at hstep
 · rename_i hvalid
   rw [← some.inj hstep]
   exact h.write contents (fun e => h.core.held_not_table (slot_of_valid hvalid) e)
 · cases hstep

theorem Sound.kernelWrite
  (hstep : s.kernelWrite f contents = some next) : next.Sound ∧ Origin s next := by
 unfold Vm.kernelWrite at hstep
 split at hstep
 · rename_i hcontains
   have hmem : f ∈ s.kernelPages := contains_iff_mem.mp hcontains
   rw [← some.inj hstep]
   exact h.write contents (fun d hd => h.core.kernelApart d f hd hmem)
 · cases hstep
end

/-!
# Steps
-/

/--
The image is below the free pages and begins at the first page; a segment has no
page in common with the sections before it and is not smaller than its part of the
file.  The heap does not change.
-/
def Disciplined (s : Vm) : VmLabel -> Prop
 | .kernelEntry _ st image => 0#36 ∈ st.vpns ∧ forall f, f ∈ image -> f < s.mem.firstPage
 | .execSegment e ph _ _ =>
  (ph.text = false -> ph.filesz ≤ ph.memsz) ∧
   forall (hstop : ph.stop ≤ 2 ^ 48) v, v ∈ (ph.asSection hstop).vpns -> v ∉ s.sectionPages e
 | .sbrk _ _ => False
 | _ => True

theorem Sound.step (h : s.Sound) {l : VmLabel} (hguard : s.Disciplined l)
  (hstep : s.step l = some next) : next.Sound ∧ Origin s next := by
 cases l with
 | create d =>
  rcases h.createProc hstep with ⟨hsound, hlater, _⟩
  exact ⟨hsound, hlater.origin⟩
 | kernelEntry d st image => exact h.kernelEntry hguard.left hguard.right hstep
 | lookup d va =>
  rcases map_eq_some_iff.mp hstep with ⟨⟨ptr, mid⟩, hget, rfl⟩
  rcases h.core.getPte hget with ⟨hcore, hentries, hlater, _⟩
  exact ⟨h.of_same hcore hentries hlater.toSteady, hlater.origin⟩
 | fault d addr => exact h.pgfault hstep
 | fork p child => exact h.fork hstep
 | execSegment e ph fill fails => exact h.execSegment hguard.left hguard.right hstep
 | execStack e =>
  rw [Vm.step] at hstep
  exact h.execStack hstep
 | execSwitch p e => exact h.execSwitch hstep
 | freePgdir d =>
  have hreleased := h.toBooks.freePgdir (h.distinct d)
  rw [some.inj hstep] at hreleased
  exact ⟨hreleased.sound h, hreleased.origin⟩
 | sbrk d size => exact absurd hguard id
 | kernelAlloc contents => exact h.kernelAlloc hstep
 | kernelFree f => exact h.kernelFree hstep
 | kernelWrite f contents => exact h.kernelWrite hstep
 | store d v contents => exact h.store hstep

theorem sound_boot {mem : Memory} {lastPage : Frame} (hqueue : mem.pages.Nodup)
  (hpages : forall f, f ∈ mem.pages ↔ mem.firstPage ≤ f ∧ f < lastPage)
  (hboot : boot mem lastPage = some s) : s.Sound := by
 rcases map_eq_some_iff.mp hboot with ⟨⟨f, rest⟩, halloc, hs⟩
 have hpage := Memory.kallocPage_allocates halloc
 have himage := Memory.kallocPage_firstPage halloc
 rw [hpage.pages, nodup_cons] at hqueue
 have hnone : forall d, s.pgdir d = none := by
  intro d
  rw [← hs]
 have hentry : forall d v, s.entry d v = 0#64 := fun d v => entry_of_none (hnone d) v
 have hslot : forall k, s.slot k = none := fun k => slot_of_zero (hentry k.1 k.2)
 have htables : forall d, s.tables d = [] := by
  intro d
  rw [← hs]
 have hzero : s.zeroPage = f := by rw [← hs]
 have hmanaged : forall g, s.Managed g ↔ g = f ∨ g ∈ rest.pages := by
  intro g
  rw [← mem_cons, ← hpage.pages, hpages g, ← himage, ← hs]
  exact Iff.rfl
 have hfree : s.mem.pages = rest.pages := by
  rw [← hs]
  rfl
 have href : s.mem.ref f = 1 := by
  rw [← hs]
  exact update_self ..
 have hreserved : forall g, ¬ s.Reserved [] g := by
  rintro g (hnil | hkernel | ⟨d, hd⟩)
  · cases hnil
  · rw [← hs] at hkernel
    cases hkernel
  · rw [htables d] at hd
    cases hd
 have hextra : forall g, g ∈ rest.pages -> s.extra g = 0 := by
  intro g hg
  apply if_neg
  rw [hzero]
  rintro rfl
  exact hqueue.left hg
 have hself : s.extra f = 1 := if_pos hzero.symm
 refine ⟨⟨⟨?_, ?_, ?_, ?_, ?_, ?_, ?_, ?_⟩, ?_, ?_⟩, ?_, ?_⟩
 · intro d
   have hdir : s.dir d = ⟨s.mem, none, [], [], []⟩ := by
    unfold dir
    rw [hnone d, htables d]
   rw [hdir]
   apply PageDir.tree_of_none
   rw [hfree]
   exact hqueue.right
 · constructor
   · intro g hg hnot
     rw [hfree] at hnot
     have hgf : g = f := ((hmanaged g).mp hg).resolve_right hnot
     rw [hgf, href, hself]
     apply Exactly.zero
     intro k hk
     rw [hslot k] at hk
     cases hk
   · rw [hfree]
     exact hqueue.right
   · intro g hg
     rw [hfree] at hg
     exact ⟨(hmanaged g).mpr (.inr hg), hextra g hg⟩
   · intro k g hk
     rw [hslot k] at hk
     cases hk
   · intro g hg
     exact absurd hg (hreserved g)
   · intro g hg
     rw [hfree]
     rcases (hmanaged g).mp hg with heq | hmem
     · rw [heq, hself]
       exact .inr (.inr (.inl Int.zero_lt_one))
     · exact .inl hmem
   · intro g
     unfold extra
     split
     · exact Int.le_of_lt Int.zero_lt_one
     · exact Int.le_refl 0
 · intro d e g hg
   rw [htables d] at hg
   cases hg
 · rw [← hs]
   exact nodup_nil
 · intro d g hg
   rw [htables d] at hg
   cases hg
 · exact nodup_nil
 · nofun
 · intro k g hk
   rw [hslot k] at hk
   cases hk
 · intro d v hne
   exact absurd (hentry d v) hne
 · exact (hmanaged _).mpr (.inl hzero)
 · intro d v hvalid
   rw [hentry d v, not_valid_zero] at hvalid
   cases hvalid
 intro d
 rw [← hs]
 exact nodup_nil

theorem sound_of_reachable (hreach : Reachable vmSystem Disciplined s) : s.Sound := by
 apply reachable_invariant Sound _ _ hreach
 · rintro start ⟨mem, lastPage, hqueue, hpages, hboot⟩
   exact sound_boot hqueue hpages hboot
 intro s l next _ h hguard hstep
 exact (h.step hguard hstep).left

/-!
# The counts
-/

def Mapped (s : Vm) (f : Frame) : Prop := exists k, s.slot k = some f

theorem not_exactly_of_neg {holds : Pid × Vpn -> Prop} {count : Int} (hneg : count < 0) :
  ¬ Exactly holds count := by
 rintro ⟨holders, _, hcard⟩
 rw [← hcard] at hneg
 exact absurd (Int.natCast_nonneg holders.card) (Int.not_le.mpr hneg)

def smallMemory (count : Nat) (x : UInt8) : Memory :=
 (range count).foldr (fun i m => m.addToQueue (BitVec.ofNat 36 (100 + i)))
  { frames := fun _ _ => x
    ref := fun _ => 0
    pages := []
    allocPageCnt := 0
    leftPageCnt := count
    firstPage := 100#36 }

theorem foldr_addToQueue (frame : Nat -> Frame) (m : Memory) (l : List Nat) :
  (l.foldr (fun i m => m.addToQueue (frame i)) m).pages = l.map frame ++ m.pages ∧
    (l.foldr (fun i m => m.addToQueue (frame i)) m).firstPage = m.firstPage := by
 induction l with
 | nil => exact ⟨rfl, rfl⟩
 | cons i rest ih =>
  constructor
  · exact congrArg (frame i :: ·) ih.left
  · exact ih.right

theorem smallMemory_pages (count : Nat) (x : UInt8) : (smallMemory count x).pages =
    (range count).map fun i => BitVec.ofNat 36 (100 + i) := by
 unfold smallMemory
 rw [(foldr_addToQueue _ _ _).left, append_nil]

theorem mem_smallMemory {count : Nat} (x : UInt8) (h : 100 + count < 2 ^ 36) (f : Frame) :
  f ∈ (smallMemory count x).pages ↔
    (smallMemory count x).firstPage ≤ f ∧ f < BitVec.ofNat 36 (100 + count) := by
 have hfirst : (smallMemory count x).firstPage = 100#36 := (foldr_addToQueue _ _ _).right
 have hhundred : (100#36).toNat = 100 := rfl
 rw [smallMemory_pages, hfirst, le_def, lt_def, hhundred, toNat_ofNat,
  Nat.mod_eq_of_lt h]
 constructor
 · intro hf
   rcases mem_map.mp hf with ⟨i, hi, heq⟩
   have hlt := mem_range.mp hi
   rw [← heq, toNat_ofNat]
   omega
 intro hf
 apply List.mem_map.mpr
 refine ⟨f.toNat - 100, List.mem_range.mpr (by omega), ?_⟩
 rw [Nat.add_sub_cancel' hf.left]
 exact ofNat_toNat 36 f

theorem nodup_smallMemory {count : Nat} (x : UInt8) (h : 100 + count < 2 ^ 36) :
  (smallMemory count x).pages.Nodup := by
 rw [smallMemory_pages]
 apply Nodup.map_on _ nodup_range
 intro i hi j hj heq
 have hlt := mem_range.mp hi
 have hlt' := mem_range.mp hj
 have hnat := congrArg BitVec.toNat heq
 rw [BitVec.toNat_ofNat, BitVec.toNat_ofNat] at hnat
 omega

theorem isSome_boot_small (n : Nat) (x : UInt8) (lastPage : Frame) :
  (boot (smallMemory (n + 1) x) lastPage).isSome := by
 unfold boot Memory.kallocPage
 rw [smallMemory_pages, range_succ_eq_map]
 rfl

def smallVm (n : Nat) (x : UInt8) : Vm :=
 (boot (smallMemory (n + 1) x) (BitVec.ofNat 36 (101 + n))).get (isSome_boot_small n x _)

theorem smallVm_initial {n : Nat} (x : UInt8) (h : 101 + n < 2 ^ 36) :
  vmSystem.initial (smallVm n x) := by
 have hcount : 100 + (n + 1) < 2 ^ 36 := by omega
 refine ⟨smallMemory (n + 1) x, BitVec.ofNat 36 (101 + n), nodup_smallMemory x hcount, ?_,
  (some_get _).symm⟩
 rw [show 101 + n = 100 + (n + 1) by omega]
 exact mem_smallMemory x hcount

def Plain (s : Vm) : VmLabel -> Bool
 | .kernelEntry _ _ _ => false
 | .execSegment e ph _ _ => ph.text && (s.sections e).isEmpty
 | .sbrk _ _ => false
 | _ => true

theorem disciplined_of_plain {l : VmLabel} (h : s.Plain l) : s.Disciplined l := by
 cases l with
 | kernelEntry d st image | sbrk d size => cases h
 | execSegment e ph fill fails =>
  rcases Bool.and_eq_true_iff.mp h with ⟨htext, hempty⟩
  constructor
  · intro hdata
    rw [htext] at hdata
    cases hdata
  intro _ v _ hv
  unfold sectionPages at hv
  rw [isEmpty_iff.mp hempty] at hv
  cases hv
 | _ => trivial

structure CountsMappings (s : Vm) : Prop where
 counted : forall f, s.Managed f -> f ∉ s.mem.pages ->
  Exactly (fun k => s.slot k = some f) (s.mem.ref f - if f = s.zeroPage then 1 else 0)
 once : s.mem.pages.Nodup
 unmapped : forall f, s.Mapped f -> f ∉ s.mem.pages
 pushed : forall l next, s.Disciplined l -> s.step l = some next ->
  forall f, s.Managed f -> f ≠ s.zeroPage -> s.Mapped f -> (f ∈ next.mem.pages ↔ ¬ next.Mapped f)
 /-- No other page joins the queue but those that the kernel had allocated for itself. -/
 onlyPushed : forall l next, s.Disciplined l -> s.step l = some next ->
  forall f, f ∈ next.mem.pages -> f ∈ s.mem.pages ∨ s.Reserved [] f ∨ (s.Mapped f ∧ ¬ next.Mapped f)

end Vm

theorem counts_mappings_of_reachable {s : Vm}
  (hreach : Reachable vmSystem Vm.Disciplined s) : s.CountsMappings := by
 have h := sound_of_reachable hreach
 have hcustody := h.core.custody
 constructor
 · exact hcustody.counted
 · exact hcustody.nodup
 · rintro f ⟨k, hk⟩
   exact hcustody.unheld k f hk
 · rintro l next hguard hstep f hmanaged hzero ⟨k, hk⟩
   rcases h.step hguard hstep with ⟨hnext, horigin⟩
   constructor
   · rintro hmem ⟨k', hk'⟩
     exact hnext.core.custody.unheld k' f hk' hmem
   -- the page has to be somewhere, and the kernel did not take it
   intro hgone
   have hmanaged' : next.Managed f := by
    unfold Managed at hmanaged ⊢
    rw [horigin.firstPage, horigin.lastPage]
    exact hmanaged
   rcases hnext.core.custody.placed f hmanaged' with hfree | hreserved | hpinned | hheld
   · exact hfree
   · rcases horigin.reserved f hreserved with hbefore | hfree
     · exact absurd hk ((hcustody.kept f hbefore).right.right.right k)
     · exact absurd hfree (hcustody.unheld k f hk)
   · have hextra : next.extra f = 0 := by
      apply if_neg
      rw [horigin.zeroPage]
      exact hzero
     rw [hextra] at hpinned
     exact absurd hpinned (Int.lt_irrefl 0)
   · exact absurd hheld hgone
 · intro l next hguard hstep f hmem
   rcases h.step hguard hstep with ⟨hnext, horigin⟩
   have hproper := hnext.core.custody.proper f hmem
   have hmanaged : s.Managed f := by
    have hthen := hproper.left
    unfold Managed at hthen ⊢
    rw [horigin.firstPage, horigin.lastPage] at hthen
    exact hthen
   rcases hcustody.placed f hmanaged with hfree | hreserved | hpinned | hheld
   · exact .inl hfree
   · exact .inr (.inl hreserved)
   · have hsame : next.extra f = s.extra f := by
      unfold extra
      rw [horigin.zeroPage]
     rw [← hsame, hproper.right] at hpinned
     exact absurd hpinned (Int.lt_irrefl 0)
   refine .inr (.inr ⟨hheld, ?_⟩)
   rintro ⟨k, hk⟩
   exact hnext.core.custody.unheld k f hk hmem

/-- A process and its copy share the page of a segment. -/
theorem counts_mappings_after_fork : exists s : Vm, s.mem.ref 102#36 = 2 ∧ s.CountsMappings := by
 rcases exists_reachable_of_execute vmSystem (fun s l => s.Plain l = true)
  (smallVm_initial (n := 11) 255 (by decide))
  [.create 0, .execSegment 0 ⟨true, 0, 1, 1⟩ (fun _ _ => 7) none, .fork 0 1]
  (fun s => s.mem.ref 102#36 = 2) (by decide +kernel) with ⟨s, hreach, htwo⟩
 have hguarded := reachable_mono (fun _ _ hplain => Vm.disciplined_of_plain hplain) hreach
 exact ⟨s, htwo, counts_mappings_of_reachable hguarded⟩

set_option maxRecDepth 10000 in
/-- The root table of a process was not mapped and its count went below zero when it was freed. -/
theorem freed_table_counts_below_zero : exists s : Vm, Reachable vmSystem Vm.Disciplined s ∧
    exists f, s.Managed f ∧ f ≠ s.zeroPage ∧
      ¬ Exactly (fun k => s.slot k = some f) (s.mem.ref f) := by
 rcases exists_reachable_of_execute vmSystem (fun s l => s.Plain l = true)
  (smallVm_initial (n := 11) 255 (by decide)) [.create 0, .freePgdir 0]
  (fun s => (s.mem.firstPage ≤ 101#36 ∧ 101#36 < s.lastPage) ∧
   101#36 ≠ s.zeroPage ∧ s.mem.ref 101#36 < 0) (by decide +kernel) with
  ⟨s, hreach, hmanaged, hzero, hneg⟩
 exact ⟨s, reachable_mono (fun _ _ hplain => Vm.disciplined_of_plain hplain) hreach, 101#36,
  hmanaged, hzero, not_exactly_of_neg hneg⟩

end OSLab.Kernel
