import OSLab.Foundation.Holders
import OSLab.Kernel.Paging

/-!
# Page tables, reference counts and free pages

The invariant that ties the three together, and what the operations on the memory
and on a single slot of a page table do to it.
-/

namespace OSLab.Kernel.Spaces
open Foundation Function

def Maps (s : Spaces) (f : Frame) (slot : Pid × Vpn) : Prop :=
 isValid (s.pt slot.1 slot.2) = true ∧ pteFrame (s.pt slot.1 slot.2) = f

structure Taken (s : Spaces) (f : Frame) : Prop where
 pages : f ∉ s.mem.pages
 kernelPages : f ∉ s.kernelPages

structure Mapped (s : Spaces) : Prop where
 counted : forall p v, isValid (s.pt p v) = true ->
  AtMost (s.Maps (pteFrame (s.pt p v))) (s.mem.ref (pteFrame (s.pt p v)))
 taken : forall p v, isValid (s.pt p v) = true -> s.Taken (pteFrame (s.pt p v))
 queue : s.mem.pages.Nodup
 kernel : s.kernelPages.Nodup
 kernelQueue : forall f, f ∈ s.kernelPages -> f ∉ s.mem.pages
 entries : forall p v, s.pt p v ≠ 0#64 -> isValid (s.pt p v) = true
 covered : forall p v, isValid (s.pt p v) = true -> v ∈ s.sectionPages p
 agree : forall p v, isValid (s.pt p v) = true -> s.mem.frames (pteFrame (s.pt p v)) = s.view p v

structure Consistent (s : Spaces) : Prop extends s.Mapped where
 absent : forall p v, s.pt p v = 0#64 -> s.view p v = fun _ => 0

variable {s : Spaces}

/-!
# Changes of the memory
-/

variable {kernelPages : List Frame}

theorem mapped_of_mem (h : s.Mapped) {mem : Memory} (hcounted : forall p v, isValid (s.pt p v) ->
      AtMost (s.Maps (pteFrame (s.pt p v))) (mem.ref (pteFrame (s.pt p v))))
    (htaken : forall p v, isValid (s.pt p v) ->
      pteFrame (s.pt p v) ∉ mem.pages ∧ pteFrame (s.pt p v) ∉ kernelPages)
    (hqueue : mem.pages.Nodup) (hkernel : kernelPages.Nodup)
    (hdisjoint : forall f, f ∈ kernelPages -> f ∉ mem.pages)
    (hframes : forall p v, isValid (s.pt p v) ->
      mem.frames (pteFrame (s.pt p v)) = s.mem.frames (pteFrame (s.pt p v))) :
    { s with mem := mem, kernelPages := kernelPages }.Mapped := { h with
 counted := hcounted
 taken := fun p v hv => ⟨(htaken p v hv).left, (htaken p v hv).right⟩
 queue := hqueue
 kernel := hkernel
 kernelQueue := hdisjoint
 agree := by
  intro p v hv
  exact (hframes p v hv).trans (h.agree p v hv) }

variable {f : Frame}

theorem mapped_alloc (h : s.Mapped) {mem : Memory} (halloc : s.mem.Allocates f mem) :
  { s with mem := mem }.Mapped ∧ f ∉ mem.pages ∧ f ∉ s.kernelPages ∧
    (forall slot, ¬ s.Maps f slot) ∧ mem.ref f = 0 := by
 have hpages := halloc.pages
 have hqueue := h.queue
 rw [hpages, List.nodup_cons] at hqueue
 have hunmapped : forall p v, isValid (s.pt p v) -> pteFrame (s.pt p v) ≠ f := by
  intro p v hv heq
  apply (h.taken p v hv).pages
  rw [heq, hpages]
  exact List.mem_cons_self
 have hmapped : { s with mem := mem, kernelPages := s.kernelPages }.Mapped := by
  apply mapped_of_mem h
  · intro p v hv
    rw [halloc.ref, update_of_ne (hunmapped p v hv)]
    exact h.counted p v hv
  · intro p v hv
    refine ⟨?_, (h.taken p v hv).kernelPages⟩
    intro hmem
    apply (h.taken p v hv).pages
    rw [hpages]
    exact List.mem_cons_of_mem _ hmem
  · exact hqueue.right
  · exact h.kernel
  · intro g hg hmem
    apply h.kernelQueue g hg
    rw [hpages]
    exact List.mem_cons_of_mem _ hmem
  intro p v _
  rw [halloc.frames]
 refine ⟨hmapped, hqueue.left, ?_, ?_, ?_⟩
 · intro hkernel
   apply h.kernelQueue f hkernel
   rw [hpages]
   exact List.mem_cons_self
 · intro slot hslot
   exact hunmapped slot.1 slot.2 hslot.left hslot.right
 · rw [halloc.ref, update_self]

theorem mapped_write (h : s.Mapped) (hunmapped : forall slot, ¬ s.Maps f slot) (contents : Page) :
  { s with mem := { s.mem with
    frames := update s.mem.frames f contents } }.Mapped := by
 refine mapped_of_mem h h.counted ?_ h.queue h.kernel h.kernelQueue ?_
 · intro p v hv
   exact ⟨(h.taken p v hv).pages, (h.taken p v hv).kernelPages⟩
 intro p v hv
 apply update_of_ne
 intro heq
 exact hunmapped (p, v) ⟨hv, heq⟩

theorem mapped_kfree (h : s.Mapped) (hpages : f ∉ s.mem.pages) (hkernel : f ∉ kernelPages)
  (hsub : kernelPages.Sublist s.kernelPages) (hcount : (exists slot, s.Maps f slot) ->
    AtMost (s.Maps f) (s.mem.ref f - 1)) :
  { s with mem := s.mem.kfreePage f, kernelPages := kernelPages }.Mapped := by
 have hstays : forall p v, isValid (s.pt p v) -> pteFrame (s.pt p v) ∉ kernelPages := by
  intro p v hv hmem
  exact (h.taken p v hv).kernelPages (hsub.subset hmem)
 have hcounted : forall p v, isValid (s.pt p v) -> AtMost (s.Maps (pteFrame (s.pt p v)))
   (update s.mem.ref f (s.mem.ref f - 1) (pteFrame (s.pt p v))) := by
  intro p v hv
  by_cases heq : pteFrame (s.pt p v) = f
  · rw [heq, update_self]
    exact hcount ⟨(p, v), hv, heq⟩
  rw [update_of_ne heq]
  exact h.counted p v hv
 cases s.mem.kfreePage_frees f with
 | image heq =>
  rw [heq]
  exact mapped_of_mem h h.counted (fun p v hv => ⟨(h.taken p v hv).pages, hstays p v hv⟩) h.queue
   (hsub.nodup h.kernel) (fun g hg => h.kernelQueue g (hsub.subset hg))
   (fun _ _ _ => rfl)
 | kept hsame hframes href =>
  apply mapped_of_mem h
  · rw [href]
    exact hcounted
  · intro p v hv
    rw [hsame]
    exact ⟨(h.taken p v hv).pages, hstays p v hv⟩
  · rw [hsame]
    exact h.queue
  · exact hsub.nodup h.kernel
  · intro g hg
    rw [hsame]
    exact h.kernelQueue g (hsub.subset hg)
  intro p v _
  rw [hframes]
 | queued hlast hqueued hframes href =>
  have hunmapped : forall p v, isValid (s.pt p v) -> pteFrame (s.pt p v) ≠ f := by
   intro p v hv heq
   exact (hcount ⟨(p, v), hv, heq⟩).none_of_nonpos hlast (p, v) ⟨hv, heq⟩
  apply mapped_of_mem h
  · rw [href]
    exact hcounted
  · intro p v hv
    rw [hqueued, List.mem_cons, not_or]
    exact ⟨⟨hunmapped p v hv, (h.taken p v hv).pages⟩, hstays p v hv⟩
  · rw [hqueued]
    exact List.nodup_cons.mpr ⟨hpages, h.queue⟩
  · exact hsub.nodup h.kernel
  · intro g hg
    rw [hqueued, List.mem_cons, not_or]
    refine ⟨?_, h.kernelQueue g (hsub.subset hg)⟩
    rintro rfl
    exact hkernel hg
  intro p v hv
  exact hframes _ (hunmapped p v hv)

/-!
# Changes of a slot
-/

def clear (s : Spaces) (p : Pid) (v : Vpn) : Spaces :=
 { s with pt := update s.pt p (update (s.pt p) v 0#64) }

theorem update_slot {entry : Type} (pt : Pid -> Vpn -> entry) (p q : Pid) (v w : Vpn) (x : entry) :
  update pt p (update (pt p) v x) q w = if (q, w) = (p, v) then x else pt q w := by
 by_cases hq : q = p
 · subst hq
   rw [update_self]
   by_cases hw : w = v
   · subst hw
     simp
   · simp [hw]
 · simp [hq]

theorem clear_cases {p q : Pid} {v w : Vpn} (h : isValid ((s.clear p v).pt q w)) :
  (q, w) ≠ (p, v) ∧ (s.clear p v).pt q w = s.pt q w := by
 have hpt := update_slot s.pt p q v w 0#64
 by_cases heq : (q, w) = (p, v)
 · rw [if_pos heq] at hpt
   change isValid (update s.pt p _ q w) = true at h
   rw [hpt, not_valid_zero] at h
   cases h
 rw [if_neg heq] at hpt
 exact ⟨heq, hpt⟩

theorem mapped_clear (h : s.Mapped) (p : Pid) (v : Vpn) : (s.clear p v).Mapped := by
 have hmaps : forall f slot, (s.clear p v).Maps f slot -> s.Maps f slot := by
  intro f slot hslot
  rcases clear_cases hslot.left with ⟨_, hsame⟩
  unfold Maps at hslot
  rw [hsame] at hslot
  exact hslot
 exact { h with
  counted := by
   intro q w hw
   have hold := hw
   rw [(clear_cases hw).right] at hold ⊢
   exact (h.counted q w hold).mono (hmaps _)
  taken := by
   intro q w hw
   have hold := hw
   rw [(clear_cases hw).right] at hold ⊢
   exact ⟨(h.taken q w hold).pages, (h.taken q w hold).kernelPages⟩
  entries := by
   intro q w hw
   have hpt := update_slot s.pt p q v w 0#64
   change update s.pt p _ q w ≠ _ at hw
   change isValid (update s.pt p _ q w) = true
   rw [hpt] at hw ⊢
   by_cases heq : (q, w) = (p, v)
   · rw [if_pos heq] at hw
     exact absurd rfl hw
   rw [if_neg heq] at hw ⊢
   exact h.entries q w hw
  covered := by
   intro q w hw
   rw [(clear_cases hw).right] at hw
   exact h.covered q w hw
  agree := by
   intro q w hw
   have hold := hw
   rw [(clear_cases hw).right] at hold ⊢
   exact h.agree q w hold }

variable {p : Pid} {v : Vpn}

theorem atMost_clear (h : s.Mapped) (hv : isValid (s.pt p v)) :
  AtMost ((s.clear p v).Maps (pteFrame (s.pt p v))) (s.mem.ref (pteFrame (s.pt p v)) - 1) := by
 apply (h.counted p v hv).release (x := (p, v)) ⟨hv, rfl⟩
 intro slot hslot
 rcases clear_cases hslot.left with ⟨hne, hsame⟩
 refine ⟨hne, ?_⟩
 unfold Maps at hslot
 rw [hsame] at hslot
 exact hslot

variable {flags : BitVec 64}

theorem mapped_vmmap (h : s.Mapped) (hflags : FlagsOnly flags)
  (hvalid : isValid flags) (htaken : s.Taken f)
  (hcount : AtMost (s.Maps f) (s.mem.ref f)) (hcovered : v ∈ s.sectionPages p)
  (hcontents : s.mem.frames f = s.view p v) : (s.vmmap p v f flags).Mapped := by
 have hpt : forall q w, (s.vmmap p v f flags).pt q w =
  if (q, w) = (p, v) then mkPte f flags else s.pt q w := by
  intro q w
  exact update_slot s.pt p q v w (mkPte f flags)
 have hslot : forall q w, isValid ((s.vmmap p v f flags).pt q w) ->
  ((q, w) = (p, v) ∧ pteFrame ((s.vmmap p v f flags).pt q w) = f) ∨
   (s.vmmap p v f flags).pt q w = s.pt q w := by
  intro q w _
  by_cases heq : (q, w) = (p, v)
  · rw [hpt, if_pos heq]
    exact .inl ⟨heq, pteFrame_mkPte f hflags⟩
  rw [hpt, if_neg heq]
  exact .inr rfl
 have hmaps : forall g slot, (s.vmmap p v f flags).Maps g slot ->
  (slot = (p, v) ∧ g = f) ∨ s.Maps g slot := by
  intro g slot hg
  rcases hslot slot.1 slot.2 hg.left with ⟨heq, hframe⟩ | hsame
  · exact .inl ⟨heq, hg.right.symm.trans hframe⟩
  unfold Maps at hg
  rw [hsame] at hg
  exact .inr hg
 have hcounts : forall g, AtMost (s.Maps g) (s.mem.ref g) ->
  AtMost ((s.vmmap p v f flags).Maps g) ((s.vmmap p v f flags).mem.ref g) := by
  intro g hg
  by_cases heq : g = f
  · subst heq
    have href : (s.vmmap p v g flags).mem.ref g = s.mem.ref g + 1 := update_self ..
    rw [href]
    apply hg.acquire (p, v)
    intro slot hmap
    exact (hmaps g slot hmap).imp_left And.left
  have href : (s.vmmap p v f flags).mem.ref g = s.mem.ref g := update_of_ne heq _ _
  rw [href]
  apply hg.mono
  intro slot hmap
  rcases hmaps g slot hmap with ⟨_, hfalse⟩ | hold
  · exact absurd hfalse heq
  · exact hold
 exact { h with
  counted := by
   intro q w hw
   rcases hslot q w hw with ⟨_, hframe⟩ | hsame
   · rw [hframe]
     exact hcounts f hcount
   rw [hsame] at hw ⊢
   exact hcounts _ (h.counted q w hw)
  taken := by
   intro q w hw
   rcases hslot q w hw with ⟨_, hframe⟩ | hsame
   · rw [hframe]
     exact ⟨htaken.pages, htaken.kernelPages⟩
   rw [hsame] at hw ⊢
   exact ⟨(h.taken q w hw).pages, (h.taken q w hw).kernelPages⟩
  entries := by
   intro q w hw
   rw [hpt] at hw ⊢
   by_cases heq : (q, w) = (p, v)
   · rw [if_pos heq, isValid_mkPte f hflags]
     exact hvalid
   rw [if_neg heq] at hw ⊢
   exact h.entries q w hw
  covered := by
   intro q w hw
   rcases hslot q w hw with ⟨heq, _⟩ | hsame
   · cases heq
     exact hcovered
   rw [hsame] at hw
   exact h.covered q w hw
  agree := by
   intro q w hw
   rcases hslot q w hw with ⟨heq, hframe⟩ | hsame
   · cases heq
     rw [hframe]
     exact hcontents
   rw [hsame] at hw ⊢
   exact h.agree q w hw }

theorem absent_vmmap (hflags : FlagsOnly flags) (hvalid : isValid flags)
  (h : forall q w, (q, w) ≠ (p, v) -> s.pt q w = 0#64 ->
    s.view q w = fun _ => 0) {q : Pid} {w : Vpn}
  (hzero : (s.vmmap p v f flags).pt q w = 0#64) : s.view q w = fun _ => 0 := by
 have hpt : (s.vmmap p v f flags).pt q w = _ := update_slot s.pt p q v w (mkPte f flags)
 rw [hpt] at hzero
 by_cases heq : (q, w) = (p, v)
 · rw [if_pos heq] at hzero
   have hmk := isValid_mkPte f hflags
   rw [hzero, not_valid_zero, hvalid] at hmk
   cases hmk
 rw [if_neg heq] at hzero
 exact h q w heq hzero

end OSLab.Kernel.Spaces
