import OSLab.Kernel.Mapping

/-!
# Isolation of address spaces

After a fork the two processes share their pages.  The entries of the child are
made read-only, so a store of the child goes to a copy; the entries of the parent
stay as they are, so a store of the parent goes to the shared page.  As long as
no store goes to a shared page, every process finds in its memory what it has
stored there or what was there when it was created.
-/

namespace OSLab.Kernel
open Foundation Function TransitionSystem List
namespace Spaces

def Isolated (s : Spaces) : Prop := forall p v off x, s.load p v off = some x -> x = s.view p v off

theorem isolated_of_mapped {s : Spaces} (h : s.Mapped) : s.Isolated := by
 intro p v off x hload
 unfold load at hload
 rcases of_guard hload with ⟨hpermitted, rfl⟩
 rw [h.agree p v hpermitted.right.left]

/--
Stores go to pages that no other slot leads to, and pages that come from the
queue into an empty slot are zero.
-/
def Unshared (s : Spaces) : SpaceLabel -> Prop
 | .store p v _ _ => forall slot, s.Maps (pteFrame (s.pt p v)) slot -> slot = (p, v)
 | .fault p v _ =>
  s.pt p v = 0#64 -> forall f rest, s.mem.pages = f :: rest -> s.mem.frames f = fun _ => 0
 | _ => True

variable {s : Spaces}

/-!
# Faults
-/

variable {next : Spaces} {v : Vpn} {p : Pid}

theorem consistent_lazyAlloc (h : s.Consistent) (hempty : s.pt p v = 0#64)
  (hcovered : v ∈ s.sectionPages p) (hzero : forall f rest, s.mem.pages = f :: rest ->
    s.mem.frames f = fun _ => 0) (hstep : s.lazyAlloc p v = some next) : next.Consistent := by
 rcases Option.map_eq_some_iff.mp hstep with ⟨⟨f, mem⟩, halloc, ⟨⟩⟩
 have hpage := Memory.kallocPage_allocates halloc
 rcases mapped_alloc h.toMapped hpage with ⟨hmapped, hqueue, hkernel, hunmapped, href⟩
 have hcontents : mem.frames f = s.view p v := by
  rw [hpage.frames, hzero f _ hpage.pages, h.absent p v hempty]
 exact {
  toMapped := by
   apply mapped_vmmap hmapped flagsOnly_userData (by decide) ⟨hqueue, hkernel⟩
   · apply AtMost.empty hunmapped
     rw [href]
   · exact hcovered
   · exact hcontents
  absent := by
   intro q w hw
   exact absent_vmmap flagsOnly_userData (by decide) (fun q w _ => h.absent q w) hw }

theorem vmmap_clear (p : Pid) (v : Vpn) (f : Frame) (flags : BitVec 64) (mem : Memory) :
  { s.clear p v with mem := mem }.vmmap p v f flags = { s with mem := mem }.vmmap p v f flags := by
 unfold clear vmmap
 simp

theorem consistent_copyOnWrite
  (h : s.Consistent) (hv : isValid (s.pt p v)) (hcovered : v ∈ s.sectionPages p)
  (hstep : s.copyOnWrite p v = some next) : next.Consistent := by
 rcases Option.map_eq_some_iff.mp hstep with ⟨⟨f, mem⟩, halloc, heq⟩
 have hpage := Memory.kallocPage_allocates halloc
 have htaken := h.taken p v hv
 have hagree := h.agree p v hv
 have hatMost := atMost_clear h.toMapped hv
 generalize pteFrame (s.pt p v) = original at *
 have hne : f ≠ original := by
  intro heq
  apply htaken.pages
  rw [← heq, hpage.pages]
  exact mem_cons_self
 -- the slot is emptied first, so that the reference to be dropped is nobody's
 rcases mapped_alloc (mapped_clear h.toMapped p v) hpage with
  ⟨hmapped, hqueue, hkernel, hunmapped, href⟩
 have hcopied := mapped_write hmapped hunmapped (mem.frames original)
 have hfreed : { s.clear p v with
  mem := (mem.copyPage f original).kfreePage original }.Mapped := by
  apply mapped_kfree hcopied _ htaken.kernelPages (Sublist.refl _)
  · intro _
    have hsame : mem.ref original = s.mem.ref original := by rw [hpage.ref, update_of_ne hne.symm]
    rw [hsame]
    exact hatMost
  intro hmem
  apply htaken.pages
  rw [hpage.pages]
  exact mem_cons_of_mem _ hmem
 rcases (Memory.kfreePage_frees (mem.copyPage f original) original).other hne with
  ⟨hpages, hframes, hcount⟩
 have hresult := vmmap_clear (s := s) p v f pteUserData
  ((mem.copyPage f original).kfreePage original)
 rw [← heq]
 change ({ s with mem := (mem.copyPage f original).kfreePage original }.vmmap p v f
  pteUserData).Consistent
 rw [← hresult]
 exact {
  toMapped := by
   apply mapped_vmmap hfreed flagsOnly_userData (by decide)
    ⟨fun hmem => hqueue (hpages hmem), hkernel⟩
   · apply AtMost.empty hunmapped
     rw [hcount]
     exact le_of_eq href.symm
   · exact hcovered
   · change ((mem.copyPage f original).kfreePage original).frames f = s.view p v
     rw [hframes, ← hagree, ← hpage.frames]
     exact update_self ..
  absent := by
   intro q w hw
   apply absent_vmmap flagsOnly_userData (by decide) _ hw
   intro q w hslot hzero
   apply h.absent q w
   have hpt : (s.clear p v).pt q w = _ := update_slot s.pt p q v w 0#64
   rw [if_neg hslot] at hpt
   exact hpt.symm.trans hzero }

theorem consistent_pgfault {addr : Nat} (h : s.Consistent)
  (hzero : s.pt p (vpnOf addr) = 0#64 -> forall f rest,
    s.mem.pages = f :: rest -> s.mem.frames f = fun _ => 0)
  (hstep : s.pgfault p addr = some next) : next.Consistent := by
 unfold pgfault at hstep
 split at hstep
 · cases hstep
 rename_i st hfind
 have hcontains : st.contains addr := by
  have hsome := find?_some hfind
  exact hsome
 have hcovered : vpnOf addr ∈ s.sectionPages p :=
  mem_flatMap.mpr ⟨st, mem_of_find?_eq_some hfind, Section.mem_vpns hcontains⟩
 split at hstep
 · cases hstep
 split at hstep
 · rename_i hempty
   exact consistent_lazyAlloc h hempty hcovered (hzero hempty) hstep
 rename_i hentry
 have hv := h.entries p (vpnOf addr) hentry
 split at hstep
 · exact consistent_copyOnWrite h hv hcovered hstep
 cases hstep
 exact h

/-!
# Forking

While the loops run, the child has some of the pages of its parent.
-/

structure Forking (origin : Spaces) (p child : Pid) (done : List Vpn)
  (s : Spaces) : Prop extends s.Mapped where
 others : forall q, q ≠ child -> s.pt q = origin.pt q
 sections : s.sections = (origin.createProc p child).sections
 view : s.view = (origin.createProc p child).view
 visited : forall v, v ∈ done -> isValid (origin.pt p v) = true -> isValid (s.pt child v) = true

variable {p child : Pid} {origin : Spaces}

theorem sectionPages_child (hsections : s.sections = (origin.createProc p child).sections)
  (hv : v ∈ origin.sectionPages p) : v ∈ s.sectionPages child := by
 unfold sectionPages at hv ⊢
 rw [hsections]
 unfold createProc
 simp only [update_self]
 rw [mem_flatMap] at hv ⊢
 rcases hv with ⟨st, hst, hmem⟩
 exact ⟨st, mem_reverse.mpr hst, hmem⟩

theorem forking_createProc (h : s.Mapped) (p child : Pid) :
  Forking s p child [] (s.createProc p child) := by
 have hslot : forall q w, isValid ((s.createProc p child).pt q w) -> q ≠ child := by
  intro q w hw heq
  subst heq
  unfold createProc at hw
  simp only [update_self, not_valid_zero] at hw
  cases hw
 have hpt : forall q, q ≠ child -> (s.createProc p child).pt q = s.pt q :=
  fun q hq => update_of_ne hq _ _
 have hmaps : forall f slot, (s.createProc p child).Maps f slot -> s.Maps f slot := by
  intro f slot hmap
  unfold Maps at hmap
  rw [hpt _ (hslot _ _ hmap.left)] at hmap
  exact hmap
 exact { h with
  counted := by
   intro q w hw
   have hold := hw
   rw [hpt q (hslot q w hw)] at hold ⊢
   exact (h.counted q w hold).mono (hmaps _)
  taken := by
   intro q w hw
   have hold := hw
   rw [hpt q (hslot q w hw)] at hold ⊢
   exact ⟨(h.taken q w hold).pages, (h.taken q w hold).kernelPages⟩
  entries := by
   intro q w hw
   by_cases hq : q = child
   · subst hq
     unfold createProc at hw
     simp only [update_self, ne_eq, not_true] at hw
   rw [hpt q hq] at hw ⊢
   exact h.entries q w hw
  covered := by
   intro q w hw
   have hq := hslot q w hw
   rw [hpt q hq] at hw
   unfold sectionPages createProc
   simp only [update_of_ne hq]
   exact h.covered q w hw
  agree := by
   intro q w hw
   have hq := hslot q w hw
   rw [hpt q hq] at hw ⊢
   unfold createProc
   simp only [update_of_ne hq]
   exact h.agree q w hw
  others := hpt
  sections := rfl
  view := rfl
  visited := by
   intro v hv
   cases hv }

theorem forking_forkPage {done : List Vpn}
  (hne : p ≠ child) (hcovered : v ∈ origin.sectionPages p) (h : Forking origin p child done s) :
  Forking origin p child (v :: done) (s.forkPage p child v) := by
 unfold forkPage
 have hparent : s.pt p v = origin.pt p v := by rw [h.others p hne]
 simp only
 split
 · rename_i hv
   have hflags : FlagsOnly (pteFlags (s.pt p v) ||| pteRO) :=
    flagsOnly_or (flagsOnly_pteFlags _) flagsOnly_ro
   have hvalid : isValid (pteFlags (s.pt p v) ||| pteRO) := by
    apply isValid_or
    rw [← isValid_flags]
    exact hv
   have hview : s.view child v = s.view p v := by
    rw [h.view]
    unfold createProc
    simp only [update_self, update_of_ne hne]
   exact { h with
    toMapped := by
     apply mapped_vmmap h.toMapped hflags hvalid (h.taken p v hv) (h.counted p v hv)
     · exact sectionPages_child h.sections hcovered
     rw [hview]
     exact h.agree p v hv
    others := by
     intro q hq
     have hpt : (s.vmmap child v (pteFrame (s.pt p v))
      (pteFlags (s.pt p v) ||| pteRO)).pt q = s.pt q :=
      update_of_ne hq _ _
     rw [hpt]
     exact h.others q hq
    visited := by
     intro w hw hold
     have hpt : (s.vmmap child v (pteFrame (s.pt p v))
      (pteFlags (s.pt p v) ||| pteRO)).pt child w = _ :=
      update_slot s.pt child child v w _
     rw [hpt]
     by_cases heq : w = v
     · rw [if_pos (by rw [heq]), isValid_mkPte _ hflags]
       exact hvalid
     rw [if_neg (by simpa using heq)]
     exact h.visited w ((mem_cons.mp hw).resolve_left heq) hold }
 rename_i hv
 refine { h with visited := ?_ }
 intro w hw hold
 rcases mem_cons.mp hw with heq | hdone
 · rw [heq, ← hparent] at hold
   exact absurd hold hv
 · exact h.visited w hdone hold

theorem forking_foldl (hne : p ≠ child) (pages : List Vpn) {done : List Vpn}
  (hcovered : forall v, v ∈ pages -> v ∈ origin.sectionPages p)
  (h : Forking origin p child done s) :
  Forking origin p child (pages.reverse ++ done) (pages.foldl (forkPage p child) s) := by
 induction pages generalizing s done with
 | nil => exact h
 | cons v rest ih =>
  have hhere := forking_forkPage hne (hcovered v mem_cons_self) h
  have hrest := ih (fun w hw => hcovered w (mem_cons_of_mem _ hw)) hhere
  rw [reverse_cons, append_assoc]
  exact hrest

variable (h : s.Consistent)
include h

theorem consistent_fork (hstep : s.fork p child = some next) : next.Consistent := by
 unfold fork at hstep
 rcases of_guard hstep with ⟨hprocs, rfl⟩
 have hne : p ≠ child := by
  intro heq
  apply hprocs.right
  rw [← heq]
  exact hprocs.left
 have hfork := forking_foldl hne (s.sectionPages p) (fun _ hv => hv)
  (forking_createProc h.toMapped p child)
 generalize (s.sectionPages p).foldl _ _ = next at hfork ⊢
 refine { hfork.toMapped with absent := ?_ }
 intro q w hzero
 rw [hfork.view]
 unfold createProc
 simp only
 by_cases hq : q = child
 · subst hq
   rw [update_self]
   apply h.absent p w
   -- a page of the parent would have been visited
   by_contra hpage
   have hv := h.entries p w hpage
   have hmem : w ∈ (s.sectionPages p).reverse ++ [] := by
    rw [append_nil, mem_reverse]
    exact h.covered p w hv
   have hchild := hfork.visited w hmem hv
   rw [hzero, not_valid_zero] at hchild
   cases hchild
 rw [update_of_ne hq]
 apply h.absent q w
 rw [← hfork.others q hq]
 exact hzero

/-!
# Stores and the pages of the kernel
-/

theorem consistent_store {off : Fin pageSize} {x : UInt8}
  (halone : forall slot, s.Maps (pteFrame (s.pt p v)) slot -> slot = (p, v))
  (hstep : s.store p v off x = some next) : next.Consistent := by
 unfold store at hstep
 rcases of_guard hstep with ⟨hpermitted, rfl⟩
 have hv : isValid (s.pt p v) := by
  have hcan := hpermitted.right
  simp only [canStore, Bool.and_eq_true] at hcan
  exact hcan.left.left
 have hview := update_slot s.view p
 exact { h with
  taken := fun q w hw => ⟨(h.taken q w hw).pages, (h.taken q w hw).kernelPages⟩
  agree := by
   intro q w hw
   change update s.mem.frames _ _ (pteFrame (s.pt q w)) = update s.view p _ q w
   rw [hview q v w]
   by_cases heq : (q, w) = (p, v)
   · cases heq
     rw [update_self, if_pos rfl, h.agree p v hv]
   rw [if_neg heq, update_of_ne]
   · exact h.agree q w hw
   intro hframe
   exact heq (halone (q, w) ⟨hw, hframe⟩)
  absent := by
   intro q w hzero
   change update s.view p _ q w = _
   rw [hview q v w, if_neg]
   · exact h.absent q w hzero
   intro heq
   cases heq
   rw [hzero, not_valid_zero] at hv
   cases hv }

theorem consistent_kernelAlloc {contents : Page} (hstep : s.kernelAlloc contents = some next) :
  next.Consistent := by
 rcases Option.map_eq_some_iff.mp hstep with ⟨⟨f, mem⟩, halloc, ⟨⟩⟩
 have hpage := Memory.kallocPage_allocates halloc
 rcases mapped_alloc h.toMapped hpage with ⟨hmapped, hqueue, hkernel, hunmapped, href⟩
 have hwritten := mapped_write hmapped hunmapped contents
 refine { toMapped := ?_, absent := h.absent }
 apply mapped_of_mem hwritten hwritten.counted _ hwritten.queue
 · exact nodup_cons.mpr ⟨hkernel, h.kernel⟩
 · intro g hg
   rcases mem_cons.mp hg with heq | hold
   · rw [heq]
     exact hqueue
   · exact hwritten.kernelQueue g hold
 · intro p v _
   rfl
 intro p v hv
 refine ⟨(hwritten.taken p v hv).pages, ?_⟩
 intro hmem
 rcases mem_cons.mp hmem with heq | hold
 · exact hunmapped (p, v) ⟨hv, heq⟩
 · exact (h.taken p v hv).kernelPages hold

theorem consistent_kernelFree {f : Frame}
  (hstep : s.kernelFree f = some next) : next.Consistent := by
 unfold kernelFree at hstep
 rcases of_guard hstep with ⟨hmem, rfl⟩
 refine { toMapped := ?_, absent := h.absent }
 apply mapped_kfree h.toMapped (h.kernelQueue f hmem) h.kernel.not_mem_erase erase_sublist
 rintro ⟨slot, hv, hframe⟩
 have htaken := h.taken slot.1 slot.2 hv
 rw [hframe] at htaken
 exact absurd hmem htaken.kernelPages

end Spaces

/-!
# Runs

A run may start with any consistent set of address spaces, such as the one of a
single process whose pages are its own.
-/

def spaceSystem : TransitionSystem Spaces SpaceLabel where
 initial := Spaces.Consistent
 step := Spaces.step

namespace Spaces

theorem consistent_step {s next : Spaces} {l : SpaceLabel} (h : s.Consistent)
  (hguard : s.Unshared l) (hstep : s.step l = some next) : next.Consistent := by
 cases l with
 | store p v off x => exact consistent_store h hguard hstep
 | fault p v off =>
  change (if p ∈ s.procs then _ else none) = some next at hstep
  split at hstep
  · apply consistent_pgfault h _ hstep
    rw [vpnOf_addr]
    exact hguard
  · cases hstep
 | fork p child => exact consistent_fork h hstep
 | kernelAlloc contents => exact consistent_kernelAlloc h hstep
 | kernelFree f => exact consistent_kernelFree h hstep

end Spaces

theorem isolated_of_reachable {s : Spaces}
  (hreach : Reachable spaceSystem Spaces.Unshared s) : s.Isolated := by
 have hconsistent : s.Consistent :=
  reachable_invariant Spaces.Consistent (fun _ h => h)
   (fun _ _ _ _ h hguard hstep => Spaces.consistent_step h hguard hstep) hreach
 exact Spaces.isolated_of_mapped hconsistent.toMapped

/-!
# One process and its child

A process with one page of its own and three free pages.
-/

namespace Spaces

def firstByte : Fin pageSize := ⟨0, by decide⟩

def oneProcess : Spaces where
 mem := {
  frames := fun _ _ => 0
  ref := fun f => if f = 100#36 then 1 else 0
  pages := [101#36, 102#36, 103#36]
  allocPageCnt := 1
  leftPageCnt := 3
  firstPage := 64#36 }
 procs := [0]
 sections := fun p =>
  if p = 0 then
   [{ flags := 0#64, start := 4096, stop := 8192, fits := by decide }]
  else
   []
 pt := fun p v => if p = 0 ∧ v = 1#36 then mkPte 100#36 pteUserData else 0#64
 kernelPages := []
 view := fun _ _ _ => 0

theorem oneProcess_slot {p : Pid} {v : Vpn} (h : oneProcess.pt p v ≠ 0#64) :
  (p, v) = (0, 1#36) := by
 unfold oneProcess at h
 simp only at h
 split at h
 · rename_i hslot
   rw [hslot.left, hslot.right]
 · exact absurd rfl h

theorem oneProcess_valid {p : Pid} {v : Vpn}
  (h : isValid (oneProcess.pt p v)) : (p, v) = (0, 1#36) := by
 apply oneProcess_slot
 intro hzero
 rw [hzero, not_valid_zero] at h
 cases h

theorem oneProcess_frame : pteFrame (oneProcess.pt 0 1#36) = 100#36 := by
 decide

theorem consistent_oneProcess : oneProcess.Consistent where
 counted := by
  intro p v hv
  cases oneProcess_valid hv
  rw [oneProcess_frame]
  have hnone : AtMost (fun _ : Pid × Vpn => False) 0 := AtMost.empty (fun _ h => h) le_rfl
  apply hnone.acquire (0, 1#36)
  intro slot hslot
  exact .inl (oneProcess_valid hslot.left)
 taken := by
  intro p v hv
  cases oneProcess_valid hv
  rw [oneProcess_frame]
  constructor
  · decide
  · decide
 queue := by decide
 kernel := nodup_nil
 kernelQueue := by nofun
 entries := by
  intro p v hv
  cases oneProcess_slot hv
  decide
 covered := by
  intro p v hv
  cases oneProcess_valid hv
  decide
 agree := fun _ _ _ => rfl
 absent := fun _ _ _ => rfl

def Counted (s : Spaces) : SpaceLabel -> Prop
 | .store p v _ _ => isValid (s.pt p v) = true ∧ s.mem.ref (pteFrame (s.pt p v)) ≤ 1
 | .fault p v _ => s.pt p v ≠ 0#64
 | _ => True

instance (s : Spaces) (l : SpaceLabel) : Decidable (s.Counted l) := by
 cases l <;> unfold Counted <;> infer_instance

theorem unshared_of_counted {s : Spaces} {l : SpaceLabel} (h : s.Consistent)
  (hcounted : s.Counted l) : s.Unshared l := by
 cases l with
 | store p v off x =>
  intro slot hslot
  exact (h.counted p v hcounted.left).eq_of_le_one hcounted.right hslot ⟨hcounted.left, rfl⟩
 | fault p v off =>
  intro hzero
  exact absurd hzero hcounted
 | _ => trivial

end Spaces

open SpaceLabel Spaces in
/-- The child copies the page it stores to, and afterwards the parent is alone. -/
theorem isolated_after_copy : exists s, Reachable spaceSystem Spaces.Unshared s ∧ s.Isolated ∧
    s.load 0 1#36 firstByte = some 8 ∧ s.load 1 1#36 firstByte = some 7 := by
 rcases exists_reachable_of_execute spaceSystem Spaces.Counted Spaces.consistent_oneProcess
  [fork 0 1, fault 1 1#36 firstByte, store 1 1#36 firstByte 7, store 0 1#36 firstByte 8]
  (fun s => s.load 0 1#36 firstByte = some 8 ∧ s.load 1 1#36 firstByte = some 7)
  (by decide +kernel) with ⟨s, hreach, htest⟩
 have hunshared : Reachable spaceSystem Spaces.Unshared s :=
  reachable_weaken Spaces.Consistent (fun _ h => h)
   (fun _ _ _ h hguard hstep => Spaces.consistent_step h hguard hstep)
   (fun _ _ h hcounted => Spaces.unshared_of_counted h hcounted) hreach
 exact ⟨s, hunshared, isolated_of_reachable hunshared, htest⟩

open SpaceLabel Spaces in
/-- The child finds a store that its parent has made after the fork. -/
theorem parent_store_reaches_child :
  exists s, Reachable spaceSystem unguarded s ∧ s.load 1 1#36 firstByte = some 7 ∧
    s.view 1 1#36 firstByte = 0 ∧ ¬ s.Isolated := by
 rcases exists_reachable_of_execute spaceSystem unguarded
  Spaces.consistent_oneProcess [fork 0 1, store 0 1#36 firstByte 7]
  (fun s => s.load 1 1#36 firstByte = some 7 ∧ s.view 1 1#36 firstByte = 0)
  (by decide +kernel) with ⟨s, hreach, hload, hview⟩
 refine ⟨s, hreach, hload, hview, ?_⟩
 intro hisolated
 have heq := hisolated 1 1#36 firstByte 7 hload
 rw [hview] at heq
 exact absurd heq (by decide)

end OSLab.Kernel
