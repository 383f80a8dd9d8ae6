import OSLab.Kernel.VmCounts

/-!
# Freeing and replacing page directories

`free_pgdir` drops the slots of a directory one by one, then its tables.  `execve`
fills a directory, frees the old one and puts the new one in its place.
-/

namespace OSLab.Kernel.Vm
open Foundation Function List Memory
variable {s next : Vm}

/-!
# The loop of `free_sections`
-/

structure Dropping (s : Vm) (d : Pid) (done : List Vpn) (t : Vm) : Prop where
 core : t.Core [] (fun k => if k.1 = d ∧ k.2 ∈ done then none else s.slot k)
 unseen : forall e v, t.entry e v = s.entry e v
 pgdir : t.pgdir = s.pgdir
 tables : t.tables = s.tables
 steady : Steady s t

theorem dropping_nil (h : s.Books) (d : Pid) : Dropping s d [] s := by
 refine ⟨?_, fun _ _ => rfl, rfl, rfl, Steady.refl s⟩
 have hholds : (fun k : Pid × Vpn => if k.1 = d ∧ k.2 ∈ [] then none else s.slot k) = s.slot := by
  funext k
  apply if_neg
  intro hk
  cases hk.right
 rw [hholds]
 exact h.core

variable {d : Pid}

theorem Dropping.freePage {done : List Vpn} {t : Vm} {v : Vpn}
  (h : Dropping s d done t) (hv : v ∉ done) :
  Dropping s d (v :: done) (freePage d t v) := by
 have hnew : (fun k : Pid × Vpn => if k.1 = d ∧ k.2 ∈ v :: done then none else s.slot k) =
  update (fun k => if k.1 = d ∧ k.2 ∈ done then none else s.slot k) (d, v) none := by
  funext k
  by_cases hk : k = (d, v)
  · rw [hk, update_self, if_pos ⟨rfl, mem_cons_self⟩]
  rw [update_of_ne hk]
  by_cases hdone : k.1 = d ∧ k.2 ∈ done
  · rw [if_pos hdone, if_pos ⟨hdone.left, mem_cons_of_mem v hdone.right⟩]
  rw [if_neg hdone, if_neg]
  intro hmem
  rcases mem_cons.mp hmem.right with heq | hold
  · exact hk (Prod.ext hmem.left heq)
  · exact hdone ⟨hmem.left, hold⟩
 have hself : (if (d, v).1 = d ∧ (d, v).2 ∈ done then none else s.slot (d, v)) =
  s.slot (d, v) := if_neg fun hmem => hv hmem.right
 unfold Vm.freePage
 split
 · rename_i hvalid
   have hslot : s.slot (d, v) = some (pteFrame (t.entry d v)) := by
    rw [h.unseen d v] at hvalid ⊢
    exact slot_of_valid hvalid
   rcases h.core.kfree_held (k := (d, v)) (hself.trans hslot) with ⟨hcore, hunseen⟩
   rw [← hnew] at hcore
   refine ⟨hcore, ?_, h.pgdir, h.tables, ?_⟩
   · intro e w
     exact (hunseen.entries e w).trans (h.unseen e w)
   refine h.steady.trans ⟨rfl, rfl, ?_, rfl, rfl⟩
   exact kfreePage_firstPage t.mem _
 rename_i hinvalid
 have hslot : s.slot (d, v) = none := by
  rw [h.unseen d v] at hinvalid
  exact slot_of_invalid hinvalid
 refine ⟨?_, h.unseen, h.pgdir, h.tables, h.steady⟩
 have hsame : update
  (fun k : Pid × Vpn => if k.1 = d ∧ k.2 ∈ done then none else s.slot k) (d, v) none =
  fun k => if k.1 = d ∧ k.2 ∈ done then none else s.slot k := by
  rw [Function.update_eq_self_iff]
  exact (hself.trans hslot).symm
 rw [hnew, hsame]
 exact h.core

theorem Dropping.foldl {done todo : List Vpn} {t : Vm} (h : Dropping s d done t)
  (htodo : todo.Nodup) (hapart : forall v, v ∈ todo -> v ∉ done) :
  Dropping s d (todo.reverse ++ done) (todo.foldl (Vm.freePage d) t) := by
 induction todo generalizing done t with
 | nil => exact h
 | cons v rest ih =>
  rw [nodup_cons] at htodo
  have hhere := h.freePage (hapart v mem_cons_self)
  have hrest := ih hhere htodo.right (by
   intro w hw
   rw [mem_cons, not_or]
   refine ⟨?_, hapart w (mem_cons_of_mem v hw)⟩
   rintro rfl
   exact htodo.left hw)
  rw [reverse_cons, append_assoc]
  exact hrest

/-!
# The tables of a directory
-/

def dropTables (s : Vm) (d : Pid) : Vm :=
 { s with
   pgdir := update s.pgdir d none
   tables := update s.tables d [] }

theorem dir_dropTables (s : Vm) (d : Pid) : (s.dropTables d).dir d = ⟨s.mem, none, [], [], []⟩ := by
 unfold dir dropTables
 simp only [update_self]

theorem dir_dropTables_of_ne (s : Vm) {d e : Pid} (h : e ≠ d) :
  (s.dropTables d).dir e = s.dir e := by
 unfold dir dropTables
 simp only [update_of_ne h]

theorem mem_tables_dropTables {d e : Pid} {f : Frame} :
  f ∈ (s.dropTables d).tables e ↔ e ≠ d ∧ f ∈ s.tables e := by
 unfold dropTables
 by_cases hed : e = d
 · simp [hed]
 · simp [hed]

variable {holds : Pid × Vpn -> Option Frame} {limbo : List Frame}

theorem Core.dropTables (h : s.Core [] holds) (hlimbo : limbo.Perm (s.tables d)) :
  (s.dropTables d).Core limbo holds := by
 constructor
 · intro e
   by_cases hed : e = d
   · rw [hed, dir_dropTables]
     exact PageDir.tree_of_none h.custody.nodup
   rw [dir_dropTables_of_ne s hed]
   exact h.trees e
 · apply h.custody.congr (fun _ => rfl) _ (fun _ => rfl)
   intro f
   constructor
   · rintro (hmem | hkernel | ⟨e, he⟩)
     · exact .inr (.inr ⟨d, hlimbo.mem_iff.mp hmem⟩)
     · exact .inr (.inl hkernel)
     · exact .inr (.inr ⟨e, (mem_tables_dropTables.mp he).right⟩)
   rintro (hnil | hkernel | ⟨e, he⟩)
   · cases hnil
   · exact .inr (.inl hkernel)
   · by_cases hed : e = d
     · rw [hed] at he
       exact .inl (hlimbo.mem_iff.mpr he)
     · exact .inr (.inr ⟨e, mem_tables_dropTables.mpr ⟨hed, he⟩⟩)
 · intro e e' f hf hf'
   exact h.apart e e' f (mem_tables_dropTables.mp hf).right (mem_tables_dropTables.mp hf').right
 · exact h.kernel
 · intro e f hf
   exact h.kernelApart e f (mem_tables_dropTables.mp hf).right
 · exact hlimbo.nodup_iff.mpr (h.trees d).nodup
 · intro f hf
   have hmem := hlimbo.mem_iff.mp hf
   refine ⟨h.kernelApart d f hmem, ?_⟩
   intro e he
   rcases mem_tables_dropTables.mp he with ⟨hed, hold⟩
   exact hed (h.apart e d f hold hmem)
 · exact h.bounded

theorem Core.foldl_kfree (h : s.Core limbo holds) :
  { s with mem := limbo.foldl kfreePage s.mem }.Core [] holds ∧
    (forall e v, { s with mem := limbo.foldl kfreePage s.mem }.entry e v = s.entry e v) ∧
    (limbo.foldl kfreePage s.mem).firstPage = s.mem.firstPage := by
 induction limbo generalizing s with
 | nil => exact ⟨h, fun _ _ => rfl, rfl⟩
 | cons f rest ih =>
  rcases h.kfree_limbo with ⟨hcore, hunseen, _⟩
  rcases ih hcore with ⟨hrest, hentries, himage⟩
  refine ⟨hrest, ?_, himage.trans (kfreePage_firstPage s.mem f)⟩
  intro e v
  exact (hentries e v).trans (hunseen.entries e v)

theorem dir_mem (s : Vm) (d : Pid) : (s.dir d).mem = s.mem := rfl

theorem tables_of_none (h : s.Books) (hnone : s.pgdir d = none) : s.tables d = [] := by
 apply eq_nil_iff_forall_not_mem.mpr
 intro f hf
 rcases ((h.core.trees d).listed f).mp hf with ⟨p, _, hp⟩
 rw [PageDir.locate_of_none (s := s.dir d) hnone] at hp
 cases hp

/-!
# `free_pgdir`
-/

/--
A directory has been freed and the others are as they were.  Its slots on pages of
its sections have been dropped.
-/
structure Released (s : Vm) (d : Pid) (next : Vm) : Prop where
 core : next.Core [] (fun k => if k.1 = d ∧ k.2 ∈ s.sectionPages d then none else s.slot k)
 gone : next.pgdir d = none
 entries : forall e v, e ≠ d -> next.entry e v = s.entry e v
 tables : forall e f, f ∈ next.tables e -> f ∈ s.tables e
 zeroPage : next.zeroPage = s.zeroPage
 lastPage : next.lastPage = s.lastPage
 firstPage : next.mem.firstPage = s.mem.firstPage
 kernelPages : next.kernelPages = s.kernelPages
 sections : forall e, e ≠ d -> next.sections e = s.sections e
 left : next.sections d = [] ∨ next.sections d = s.sections d

theorem released_of_none (h : s.Books) (hnone : s.pgdir d = none) : Released s d s := by
 have hholds : (fun k : Pid × Vpn => if k.1 = d ∧ k.2 ∈ s.sectionPages d then none
  else s.slot k) = s.slot := by
  funext k
  by_cases hk : k.1 = d ∧ k.2 ∈ s.sectionPages d
  · have hslot : s.slot (d, k.2) = none := slot_of_zero (entry_of_none hnone k.2)
    rw [if_pos hk, ← hslot, show k = (d, k.2) from Prod.ext hk.left rfl]
  · rw [if_neg hk]
 constructor
 · rw [hholds]
   exact h.core
 · exact hnone
 · exact fun _ _ _ => rfl
 · exact fun _ _ hf => hf
 · rfl
 · rfl
 · rfl
 · rfl
 · exact fun _ _ => rfl
 · exact .inr rfl

theorem freePgdir_eq {root : Frame} {t : Vm} (hpgdir : s.pgdir d = some root)
  (hfold : (s.sectionPages d).foldl (Vm.freePage d) s = t) (htree : (t.dir d).Tree)
  (hroot : t.pgdir d = some root) :
  s.freePgdir d = { t.dropTables d with
    mem := (Radix.postorder t.mem.table allSlots 3 root).foldl kfreePage t.mem
    sections := update s.sections d [] } := by
 have hfree : (t.dir d).freePgdir.1 =
  ⟨(Radix.postorder t.mem.table allSlots 3 root).foldl kfreePage t.mem,
   none, [], [], []⟩ := by
  rw [PageDir.freePgdir_eq htree hroot, dir_mem]
 unfold Vm.freePgdir
 rw [hpgdir]
 unfold freeSections
 rw [hfold]
 change Vm.put _ d (t.dir d).freePgdir.1 = _
 rw [hfree]
 generalize (Radix.postorder t.mem.table allSlots 3 root).foldl kfreePage t.mem = mem
 rfl

theorem Books.freePgdir (h : s.Books) (hdistinct : (s.sectionPages d).Nodup) :
  Released s d (s.freePgdir d) := by
 cases hpgdir : s.pgdir d with
 | none =>
  have hsame : s.freePgdir d = s := by
   unfold Vm.freePgdir
   rw [hpgdir]
  rw [hsame]
  exact released_of_none h hpgdir
 | some root =>
  have hdropped := (dropping_nil h d).foldl hdistinct (fun _ _ hnil => absurd hnil not_mem_nil)
  generalize hfold : (s.sectionPages d).foldl (Vm.freePage d) s = t at hdropped
  have hroot : t.pgdir d = some root := by
   rw [hdropped.pgdir]
   exact hpgdir
  have htree := hdropped.core.trees d
  have hperm : (Radix.postorder t.mem.table allSlots 3 root).Perm (t.tables d) := by
   have hfreed := PageDir.freePgdir_perm htree
   rw [PageDir.freePgdir_eq htree hroot] at hfreed
   exact hfreed
  rcases (hdropped.core.dropTables hperm).foldl_kfree with ⟨hlast, hentries, himage⟩
  rw [freePgdir_eq hpgdir hfold htree hroot]
  have hmem : (t.dropTables d).mem = t.mem := rfl
  rw [hmem] at hlast hentries himage
  generalize (Radix.postorder t.mem.table allSlots 3 root).foldl kfreePage t.mem =
   mem at hlast hentries himage ⊢
  have hholds : (fun k : Pid × Vpn =>
   if k.1 = d ∧ k.2 ∈ (s.sectionPages d).reverse ++ [] then none else s.slot k) =
   fun k => if k.1 = d ∧ k.2 ∈ s.sectionPages d then none else s.slot k := by
   funext k
   simp only [append_nil, mem_reverse]
  rw [hholds] at hlast
  constructor
  · exact { hlast with }
  · exact update_self ..
  · intro e v hed
    have hbefore : (t.dropTables d).entry e v = t.entry e v := by
     unfold Vm.entry
     rw [dir_dropTables_of_ne t hed]
    exact (hentries e v).trans (hbefore.trans (hdropped.unseen e v))
  · intro e f hf
    have hold := (mem_tables_dropTables.mp hf).right
    rw [hdropped.tables] at hold
    exact hold
  · exact hdropped.steady.zeroPage
  · exact hdropped.steady.lastPage
  · exact himage.trans hdropped.steady.firstPage
  · exact hdropped.steady.kernelPages
  · exact fun e hed => update_of_ne hed _ _
  · exact .inl (update_self ..)

variable (h : Released s d next)
include h

theorem Released.reserved (f : Frame) (hf : next.Reserved [] f) : s.Reserved [] f := by
 rcases hf with hnil | hkernel | ⟨e, he⟩
 · cases hnil
 · rw [h.kernelPages] at hkernel
   exact .inr (.inl hkernel)
 · exact .inr (.inr ⟨e, h.tables e f he⟩)

theorem Released.origin : Origin s next :=
 ⟨fun f hf => .inl (h.reserved f hf), h.zeroPage, h.lastPage, h.firstPage⟩

theorem Released.slot_eq (hsound : s.Sound) :
  next.slot = fun k => if k.1 = d ∧ k.2 ∈ s.sectionPages d then none else s.slot k := by
 funext k
 by_cases hkd : k.1 = d
 · have hgone : next.slot k = none := by
    rw [show k = (d, k.2) from Prod.ext hkd rfl]
    exact slot_of_zero (entry_of_none h.gone k.2)
   rw [hgone]
   by_cases hmem : k.2 ∈ s.sectionPages d
   · rw [if_pos ⟨hkd, hmem⟩]
   rw [if_neg (fun hboth => hmem hboth.right)]
   symm
   apply slot_of_invalid
   intro hvalid
   apply hmem
   rw [← hkd]
   exact hsound.covered k.1 k.2 hvalid
 rw [if_neg (fun hboth => hkd hboth.left)]
 unfold slot
 rw [h.entries k.1 k.2 hkd]

theorem Released.sound (hsound : s.Sound) : next.Sound := by
 have hother : forall e, e ≠ d -> next.sectionPages e = s.sectionPages e := by
  intro e hed
  unfold sectionPages
  rw [h.sections e hed]
 refine ⟨⟨?_, ?_, ?_⟩, ?_, ?_⟩
 · rw [h.slot_eq hsound]
   exact h.core
 · intro e v hne
   by_cases hed : e = d
   · rw [hed, entry_of_none h.gone v] at hne
     exact absurd rfl hne
   rw [h.entries e v hed] at hne ⊢
   exact hsound.entries e v hne
 · have hmanaged := hsound.zero
   unfold Managed at hmanaged ⊢
   rw [h.firstPage, h.zeroPage, h.lastPage]
   exact hmanaged
 · intro e v hvalid
   by_cases hed : e = d
   · rw [hed, entry_of_none h.gone v, not_valid_zero] at hvalid
     cases hvalid
   rw [h.entries e v hed] at hvalid
   rw [hother e hed]
   exact hsound.covered e v hvalid
 intro e
 by_cases hed : e = d
 · rw [hed]
   unfold sectionPages
   rcases h.left with hnil | hsame
   · rw [hnil]
     exact nodup_nil
   rw [hsame]
   exact hsound.distinct d
 rw [hother e hed]
 exact hsound.distinct e

end OSLab.Kernel.Vm
