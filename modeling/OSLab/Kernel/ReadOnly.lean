import OSLab.Foundation.Loop
import OSLab.Kernel.Swap
import OSLab.Kernel.VmSections

/-!
# Read-only sections

`execve` maps the pages of a text segment read-only.  The fault handler takes every
read-only entry for a shared page and replaces it by a writable one, and so does
`swapin`.  As long as neither happens in a section marked `ST_RO`, and no writable
segment has a page in common with a text segment, no store goes to such a section.
-/

namespace OSLab.Kernel
open Foundation Function TransitionSystem List Option Section BitVec Swapping Image

/-!
# Flags
-/

theorem isReadOnly_swap (st : Section) :
  { st with flags := st.flags ||| stSwap }.isReadOnly = st.isReadOnly := by
 unfold isReadOnly
 rw [and_or_distrib_right, show stSwap &&& stRO = 0#64 by decide, or_zero]

theorem isReadOnly_unswap (st : Section) :
  { st with flags := st.flags &&& ~~~stSwap }.isReadOnly = st.isReadOnly := by
 unfold isReadOnly
 rw [BitVec.and_assoc, show ~~~stSwap &&& stRO = stRO by decide]

theorem isValid_clear (pte : PTEntry) : isValid (pte &&& ~~~pteValid) = false := by
 unfold isValid
 rw [BitVec.and_assoc, show ~~~pteValid &&& pteValid = 0#64 by decide, BitVec.and_zero]
 rfl

theorem isValid_block (bno : Nat) : isValid (BitVec.ofNat 64 (bno * 2 ^ 12 % 2 ^ 32)) = false := by
 have hzero : BitVec.ofNat 64 (bno * 2 ^ 12 % 2 ^ 32) &&& pteValid = 0#64 := by
  apply eq_of_toNat_eq
  rw [toNat_and, toNat_ofNat, show pteValid.toNat = 1 by decide,
   Nat.and_one_is_mod, toNat_zero]
  omega
 unfold isValid
 rw [hzero]
 rfl

variable {flags : BitVec 64}

theorem isRO_readOnly (f : Frame) (h : FlagsOnly flags) : isRO (mkPte f (flags ||| pteRO)) := by
 have hor : FlagsOnly (flags ||| pteRO) := flagsOnly_or h flagsOnly_ro
 unfold isRO
 rw [pteFlags_mkPte f hor, bne_iff_ne]
 intro hzero
 have hbit := congrArg (fun x => x.getLsbD 7) hzero
 simp only [getLsbD_and, getLsbD_or] at hbit
 rw [show pteRO.getLsbD 7 = true by decide, Bool.or_true] at hbit
 exact absurd hbit (by decide)

/-!
# One address space
-/

def Section.outline (st : Section) : Bool × List Vpn := (st.isReadOnly, st.vpns)

def RoPage (sections : List Section) (v : Vpn) : Prop :=
 exists st, st ∈ sections ∧ st.isReadOnly = true ∧ v ∈ st.vpns

structure Sealed (pt : Vpn -> PTEntry) (sections : List Section) : Prop where
 kept : forall v, RoPage sections v -> isValid (pt v) = true -> isRO (pt v) = true
 separate : forall st v, st ∈ sections -> st.isReadOnly = false -> v ∈ st.vpns ->
  ¬ RoPage sections v

section Outlines
variable {sections after : List Section}
 (houtline : after.map outline = sections.map outline)

include houtline

theorem exists_of_outline {st : Section} (hst : st ∈ after) :
  exists old, old ∈ sections ∧ old.isReadOnly = st.isReadOnly ∧ old.vpns = st.vpns := by
 have hmem : st.outline ∈ sections.map outline := by
  rw [← houtline]
  exact mem_map_of_mem hst
 rcases mem_map.mp hmem with ⟨old, hold, heq⟩
 rcases Prod.mk.inj heq with ⟨hflag, hpages⟩
 exact ⟨old, hold, hflag, hpages⟩

theorem roPage_of_outline {v : Vpn} (h : RoPage after v) : RoPage sections v := by
 rcases h with ⟨st, hst, hro, hv⟩
 rcases exists_of_outline houtline hst with ⟨old, hold, hflag, hpages⟩
 rw [← hflag] at hro
 rw [← hpages] at hv
 exact ⟨old, hold, hro, hv⟩

theorem separate_of_outline {pt : Vpn -> PTEntry} (h : Sealed pt sections) {st : Section}
  {v : Vpn} (hst : st ∈ after) (hwrite : st.isReadOnly = false) (hv : v ∈ st.vpns) :
  ¬ RoPage after v := by
 intro hro
 rcases exists_of_outline houtline hst with ⟨old, hold, hflag, hpages⟩
 rw [← hflag] at hwrite
 rw [← hpages] at hv
 exact h.separate old v hold hwrite hv (roPage_of_outline houtline hro)

end Outlines

theorem map_outline_set {sections : List Section} {i : Nat} {st after : Section}
  (hst : sections[i]? = some st) (hsame : after.outline = st.outline) :
  (sections.set i after).map outline = sections.map outline := by
 apply ext_getElem?
 intro j
 rw [getElem?_map, getElem?_map]
 by_cases hij : i = j
 · rw [← hij, hst, List.getElem?_set_self (List.getElem?_eq_some_iff.mp hst).1]
   exact congrArg some hsame
 · rw [getElem?_set_ne hij]

/-!
# What a step writes
-/

namespace Swapping
variable {s next : Swapping} {p : Pid} {pages : Vpn -> Prop}

/--
Only the sections and entries of one process change.  Its sections stay where they are,
and entries change on the given pages.
-/
structure Writes (p : Pid) (pages : Vpn -> Prop) (s next : Swapping) : Prop where
 others : forall q, q ≠ p -> next.spaces.sections q = s.spaces.sections q
 outline : (next.spaces.sections p).map outline = (s.spaces.sections p).map outline
 entries : forall q v, ¬ (q = p ∧ pages v) -> next.spaces.pt q v = s.spaces.pt q v

theorem Writes.refl (p : Pid) (pages : Vpn -> Prop) (s : Swapping) : Writes p pages s s :=
 ⟨fun _ _ => rfl, rfl, fun _ _ _ => rfl⟩

variable {mid : Swapping}

theorem Writes.trans (h : Writes p pages s mid)
  (hnext : Writes p pages mid next) : Writes p pages s next where
 others := fun q hq => (hnext.others q hq).trans (h.others q hq)
 outline := hnext.outline.trans h.outline
 entries := fun q v hv => (hnext.entries q v hv).trans (h.entries q v hv)

theorem Writes.mono {m : Vpn -> Prop} (h : Writes p pages s next)
    (hmore : forall v, pages v -> m v) : Writes p m s next := { h with
 entries := fun q v hv => h.entries q v (fun hboth => hv ⟨hboth.left, hmore v hboth.right⟩) }

theorem writes_of_entries (hsections : next.spaces.sections = s.spaces.sections)
  (hentries : forall q v, ¬ (q = p ∧ pages v) -> next.spaces.pt q v = s.spaces.pt q v) :
  Writes p pages s next := by
 refine ⟨fun q _ => by rw [hsections], ?_, hentries⟩
 rw [hsections]

variable {v : Vpn}

theorem update_entry {pt : Pid -> Vpn -> PTEntry} (hv : pages v) (pte : PTEntry)
  (q : Pid) (w : Vpn) (hw : ¬ (q = p ∧ pages w)) :
  update pt p (update (pt p) v pte) q w = pt q w := by
 by_cases hq : q = p
 · rw [hq, update_self, update_of_ne]
   rintro rfl
   exact hw ⟨hq, hv⟩
 · rw [update_of_ne hq]

theorem writes_setEntry (s : Swapping) (hv : pages v) (pte : PTEntry) :
  Writes p pages s (s.setEntry p v pte) :=
 writes_of_entries rfl (update_entry hv pte)

variable {st : Section} {i : Nat}

theorem writes_setFlags (pages : Vpn -> Prop) (hst : (s.spaces.sections p)[i]? = some st)
  (hflags : { st with flags := flags }.isReadOnly = st.isReadOnly) :
  Writes p pages s (s.setFlags p i st flags) where
 others := fun q hq => update_of_ne hq _ _
 outline := by
  have hsame : outline { st with flags := flags } = st.outline := by
   unfold outline
   rw [hflags]
   rfl
  change (update s.spaces.sections p _ p).map outline = _
  rw [update_self]
  exact map_outline_set hst hsame
 entries := fun _ _ _ => rfl

/-!
# Bringing a section back
-/

theorem readIn_writes (hv : pages v) (hstep : readIn p s v = some next) :
  next.spaces.sections = s.spaces.sections ∧ Writes p pages s next := by
 unfold readIn at hstep
 split at hstep
 · rw [← some.inj hstep]
   exact ⟨rfl, Writes.refl p pages s⟩
 rcases map_eq_some_iff.mp hstep with ⟨⟨f, mem⟩, _, heq⟩
 rw [← heq]
 exact ⟨rfl, writes_of_entries rfl (update_entry hv (mkPte f pteUserData))⟩

theorem swapVpns_subset (h : v ∈ st.swapVpns) : v ∈ st.vpns := by
 rcases mem_map.mp h with ⟨i, hi, heq⟩
 rw [mem_range] at hi
 rw [← heq]
 apply mem_vpns
 unfold Section.contains
 rw [Bool.and_eq_true_iff, decide_eq_true_eq, decide_eq_true_eq]
 unfold pageSize at hi ⊢
 omega

section
variable (hst : (s.spaces.sections p)[i]? = some st)
include hst

theorem swapin_writes (hstep : s.swapin p i = some next) : Writes p (· ∈ st.vpns) s next := by
 unfold swapin at hstep
 rw [hst] at hstep
 simp only at hstep
 split at hstep
 · rcases map_eq_some_iff.mp hstep with ⟨mid, hfold, heq⟩
   have hmid : mid.spaces.sections = s.spaces.sections ∧ Writes p (· ∈ st.vpns) s mid := by
    refine foldlM_invariant (fun t => t.spaces.sections = s.spaces.sections ∧
     Writes p (· ∈ st.vpns) s t) ?_ ⟨rfl, Writes.refl p _ s⟩ hfold
    intro t v after hv ht hbody
    rcases readIn_writes (swapVpns_subset hv) hbody with ⟨hsections, hwrites⟩
    exact ⟨hsections.trans ht.left, ht.right.trans hwrites⟩
   have hsame : (mid.spaces.sections p)[i]? = some st := by
    rw [hmid.left]
    exact hst
   rw [← heq]
   exact hmid.right.trans (writes_setFlags _ hsame (isReadOnly_unswap st))
 · cases hstep

theorem bringBack_writes (hstep : s.bringBack p i = some next) : Writes p (· ∈ st.vpns) s next := by
 unfold bringBack at hstep
 rw [hst] at hstep
 simp only at hstep
 split at hstep
 · exact swapin_writes hst hstep
 rw [← some.inj hstep]
 exact Writes.refl p _ s
end

/-!
# Faults
-/

theorem pgfault_writes {addr : Nat} {spaces : Spaces} (hpage : pages (vpnOf addr))
  (hstep : s.spaces.pgfault p addr = some spaces) :
  Writes p pages s { s with spaces := spaces } := by
 unfold Spaces.pgfault at hstep
 repeat' split at hstep
 case isFalse.isTrue | isFalse.isFalse.isTrue =>
  rcases map_eq_some_iff.mp hstep with ⟨⟨f, mem⟩, _, heq⟩
  rw [← heq]
  exact writes_of_entries rfl (update_entry hpage _)
 all_goals
  cases hstep
 exact Writes.refl p pages s

theorem fault_writes {addr : Nat} (hstep : s.pgfault p addr = some next) :
  exists st, st ∈ s.spaces.sections p ∧ st.contains addr ∧
    Writes p (· ∈ st.vpns) s next := by
 unfold pgfault at hstep
 split at hstep
 · cases hstep
 rename_i i hi
 rcases bind_eq_some_iff.mp hstep with ⟨mid, hback, hrest⟩
 rcases map_eq_some_iff.mp hrest with ⟨spaces, hfault, heq⟩
 rcases findIdx?_eq_some_iff_getElem.mp hi with ⟨hlt, hcontains, _⟩
 have hst : (s.spaces.sections p)[i]? = some (s.spaces.sections p)[i] := getElem?_eq_getElem hlt
 refine ⟨(s.spaces.sections p)[i], getElem_mem hlt, hcontains, ?_⟩
 rw [← heq]
 exact (bringBack_writes hst hback).trans (pgfault_writes (mem_vpns hcontains) hfault)

/-!
# Swapping out
-/

def Fades (p : Pid) (s next : Swapping) : Prop :=
 forall v, next.spaces.pt p v = s.spaces.pt p v ∨ isValid (next.spaces.pt p v) = false

theorem Fades.trans (h : Fades p s mid) (hnext : Fades p mid next) : Fades p s next := by
 intro v
 rcases hnext v with hsame | hinvalid
 · rw [hsame]
   exact h v
 · exact .inr hinvalid

theorem fades_setEntry (s : Swapping) (p : Pid) (v : Vpn) {pte : PTEntry}
  (hpte : isValid pte = false) : Fades p s (s.setEntry p v pte) := by
 intro w
 change update s.spaces.pt p (update (s.spaces.pt p) v pte) p w = _ ∨
  isValid (update s.spaces.pt p (update (s.spaces.pt p) v pte) p w) = _
 rw [update_self]
 by_cases hw : w = v
 · rw [hw, update_self]
   exact .inr hpte
 rw [update_of_ne hw]
 exact .inl rfl

def Drains (p : Pid) (s next : Swapping) : Prop := Writes p (fun _ => True) s next ∧ Fades p s next

theorem drains_refl (p : Pid) (s : Swapping) : Drains p s s :=
 ⟨Writes.refl p _ s, fun _ => .inl rfl⟩

theorem Drains.trans (h : Drains p s mid) (hnext : Drains p mid next) : Drains p s next :=
 ⟨h.left.trans hnext.left, h.right.trans hnext.right⟩

theorem drains_setEntry (s : Swapping) (p : Pid) (v : Vpn) {pte : PTEntry}
  (hpte : isValid pte = false) : Drains p s (s.setEntry p v pte) :=
 ⟨writes_setEntry s trivial pte, fades_setEntry s p v hpte⟩

theorem invalidate_drains (s : Swapping) (p : Pid) (v : Vpn) : Drains p s (invalidate p s v) := by
 unfold invalidate
 split
 · exact drains_refl p s
 · exact drains_setEntry s p v (isValid_clear _)

theorem writeOut_drains (hstep : writeOut p s v = some next) : Drains p s next := by
 unfold writeOut at hstep
 split at hstep
 · rw [← some.inj hstep]
   exact drains_refl p s
 rcases map_eq_some_iff.mp hstep with ⟨⟨bno, area⟩, _, heq⟩
 rw [← heq]
 rcases drains_setEntry s p v (isValid_block bno) with ⟨hwrites, hfades⟩
 exact ⟨⟨hwrites.others, hwrites.outline, hwrites.entries⟩, hfades⟩

theorem swapout_drains (hstep : s.swapout p i = some next) : Drains p s next := by
 unfold swapout at hstep
 split at hstep
 · cases hstep
 rename_i st hst
 split at hstep
 · cases hstep
 have hflags : Drains p s (s.setFlags p i st (st.flags ||| stSwap)) :=
  ⟨writes_setFlags _ hst (isReadOnly_swap st), fun _ => .inl rfl⟩
 have hfirst : Drains p s
  (st.swapVpns.foldl (invalidate p) (s.setFlags p i st (st.flags ||| stSwap))) :=
  foldl_invariant (Drains p s) (fun t v _ ht => ht.trans (invalidate_drains t p v)) hflags
 generalize st.swapVpns.foldl (invalidate p) (s.setFlags p i st (st.flags ||| stSwap)) =
  mid at hstep hfirst
 split at hstep
 · rw [← some.inj hstep]
   exact hfirst
 exact foldlM_invariant (Drains p s)
  (fun t v after _ ht hbody => ht.trans (writeOut_drains hbody)) hfirst hstep

/-!
# All address spaces
-/

def AllSealed (s : Swapping) : Prop := forall p, Sealed (s.spaces.pt p) (s.spaces.sections p)

theorem AllSealed.of_writes (h : s.AllSealed) (hwrites : Writes p pages s next)
  (hpages : forall v, pages v -> RoPage (s.spaces.sections p) v ->
    isValid (next.spaces.pt p v) -> isRO (next.spaces.pt p v)) :
  next.AllSealed := by
 intro q
 have houtline : (next.spaces.sections q).map outline = (s.spaces.sections q).map outline := by
  by_cases hq : q = p
  · rw [hq]
    exact hwrites.outline
  · rw [hwrites.others q hq]
 constructor
 · intro v hro hvalid
   have hold := roPage_of_outline houtline hro
   by_cases hv : q = p ∧ pages v
   · rw [hv.left] at hold hvalid ⊢
     exact hpages v hv.right hold hvalid
   rw [hwrites.entries q v hv] at hvalid ⊢
   exact (h q).kept v hold hvalid
 · intro st v hst hwrite hv
   exact separate_of_outline houtline (h q) hst hwrite hv

theorem AllSealed.of_section (h : s.AllSealed)
  (hst : st ∈ s.spaces.sections p) (hwrite : st.isReadOnly = false)
  (hwrites : Writes p (· ∈ st.vpns) s next) : next.AllSealed := by
 apply h.of_writes hwrites
 intro v hv hro
 exact absurd hro ((h p).separate st v hst hwrite hv)

theorem AllSealed.of_drains (h : s.AllSealed) (hdrains : Drains p s next) : next.AllSealed := by
 apply h.of_writes hdrains.left
 intro v _ hro hvalid
 rcases hdrains.right v with hsame | hinvalid
 · rw [hsame] at hvalid ⊢
   exact (h p).kept v hro hvalid
 rw [hinvalid] at hvalid
 cases hvalid

/-!
# Forking
-/

theorem fork_copies {spaces after : Spaces} {child : Pid}
  (hstep : spaces.fork p child = some after) :
  after.sections = update spaces.sections child (spaces.sections p).reverse ∧
    (forall q, q ≠ child -> after.pt q = spaces.pt q) ∧
    forall v, isValid (after.pt child v) -> isRO (after.pt child v) := by
 unfold Spaces.fork at hstep
 rcases ite_none_right_eq_some.mp hstep with ⟨hprocs, hstep⟩
 rw [← some.inj hstep]
 refine foldl_invariant (fun t : Spaces =>
  t.sections = update spaces.sections child (spaces.sections p).reverse ∧
  (forall q, q ≠ child -> t.pt q = spaces.pt q) ∧
  forall v, isValid (t.pt child v) = true -> isRO (t.pt child v) = true) ?_ ?_
 · rintro t v _ ⟨hsections, hothers, hchild⟩
   unfold Spaces.forkPage
   simp only
   split
   · refine ⟨hsections, ?_, ?_⟩
     · intro q hq
       change update t.pt child _ q = _
       rw [update_of_ne hq]
       exact hothers q hq
     intro w
     change isValid (update t.pt child (update (t.pt child) v _)
      child w) = true -> isRO (update t.pt child (update (t.pt child) v _) child w) = true
     rw [update_self]
     by_cases hw : w = v
     · intro _
       rw [hw, update_self]
       exact isRO_readOnly _ (flagsOnly_pteFlags _)
     rw [update_of_ne hw]
     exact hchild w
   · exact ⟨hsections, hothers, hchild⟩
 · refine ⟨rfl, ?_, ?_⟩
   · intro q hq
     exact update_of_ne hq _ _
   intro v hvalid
   change isValid (update spaces.pt child (fun _ => 0#64) child v) = true at hvalid
   rw [update_self, not_valid_zero] at hvalid
   cases hvalid

theorem AllSealed.fork (h : s.AllSealed) {child : Pid}
  (hstep : s.within (s.spaces.fork p child) = some next) : next.AllSealed := by
 rcases map_eq_some_iff.mp hstep with ⟨after, hfork, heq⟩
 rcases fork_copies hfork with ⟨hsections, hothers, hchild⟩
 rw [← heq]
 intro q
 rw [hsections]
 by_cases hq : q = child
 · rw [hq, update_self]
   constructor
   · intro v _ hvalid
     exact hchild v hvalid
   rintro st v hst hwrite hv ⟨other, hother, hflag, hpage⟩
   exact (h p).separate st v (mem_reverse.mp hst) hwrite hv
    ⟨other, mem_reverse.mp hother, hflag, hpage⟩
 rw [update_of_ne hq, hothers q hq]
 exact h q

/-!
# Executing a file
-/

theorem isReadOnly_asSection {ph : Vm.Segment} (h : ph.stop ≤ 2 ^ 48) :
  (ph.asSection h).isReadOnly = ph.text := by
 unfold isReadOnly Vm.Segment.asSection Vm.Segment.stFlags
 simp only
 cases ph.text with
 | false | true => decide

namespace Image

def TextPage (file : List Load) (v : Vpn) : Prop :=
 exists l, l ∈ file ∧ l.ph.text = true ∧ exists h : l.ph.stop ≤ 2 ^ 48, v ∈ (l.ph.asSection h).vpns

def PagesApart (file : List Load) : Prop :=
 forall l, l ∈ file -> l.ph.text = false -> forall (h : l.ph.stop ≤ 2 ^ 48) v,
  v ∈ l.ph.loaded ∨ v ∈ (l.ph.asSection h).vpns -> ¬ TextPage file v

variable {file : List Load} {b after : Image}

/-- What `execve` has built from some segments of the file. -/
structure Built (file : List Load) (b : Image) : Prop where
 kept : forall v, TextPage file v -> isValid (b.pt v) = true -> isRO (b.pt v) = true
 origin : forall st, st ∈ b.sections -> exists l, l ∈ file ∧
  exists h : l.ph.stop ≤ 2 ^ 48, st = l.ph.asSection h

variable {v : Vpn}

theorem Built.vmmap (hb : Built file b) {f : Frame}
  (hentry : TextPage file v -> isRO (mkPte f flags)) :
  Built file (b.vmmap v f flags) := by
 refine ⟨?_, hb.origin⟩
 intro w hw
 change isValid (update b.pt v (mkPte f flags) w) = true ->
  isRO (update b.pt v (mkPte f flags) w) = true
 by_cases hwv : w = v
 · rw [hwv] at hw ⊢
   rw [update_self]
   exact fun _ => hentry hw
 rw [update_of_ne hwv]
 exact hb.kept w hw

theorem Built.mapNew (hb : Built file b) {fill : Vpn -> Page}
  (hentry : forall f, TextPage file v -> isRO (mkPte f flags))
  (hstep : mapNew fill flags b v = some after) : Built file after := by
 rcases map_eq_some_iff.mp hstep with ⟨⟨f, mem⟩, _, heq⟩
 rw [← heq]
 have hfilled : Built file { b with
  mem := { mem with frames := update mem.frames f (fill v) } } :=
  ⟨hb.kept, hb.origin⟩
 exact hfilled.vmmap (hentry f)

variable {l : Load}

theorem Built.addSection (hb : Built file b) (hl : l ∈ file)
  (h : l.ph.stop ≤ 2 ^ 48) : Built file (b.addSection (l.ph.asSection h)) := by
 refine ⟨hb.kept, ?_⟩
 intro st hst
 rcases mem_cons.mp hst with heq | hmem
 · exact ⟨l, hl, h, heq⟩
 · exact hb.origin st hmem

theorem isRO_loaded (hfile : PagesApart file) (hl : l ∈ file)
  (h : l.ph.stop ≤ 2 ^ 48) (hv : v ∈ l.ph.loaded) (f : Frame)
  (htext : TextPage file v) : isRO (mkPte f l.ph.pteFlags.bits) := by
 unfold Vm.Segment.pteFlags
 cases hkind : l.ph.text with
 | false => exact absurd htext (hfile l hl hkind h v (.inl hv))
 | true => exact isRO_readOnly f flagsOnly_userData

theorem Built.loadSegment (hb : Built file b) (hfile : PagesApart file)
  (hl : l ∈ file) {zeroPage : Frame}
  (hstep : loadSegment zeroPage b l = some after) : Built file after := by
 rcases map_eq_some_iff.mp hstep with ⟨mid, hload, heq⟩
 unfold loadPages at hload
 split at hload
 · rename_i h
   have hmid : Built file mid := by
    apply foldlM_invariant (Built file) _ (hb.addSection hl h) hload
    intro t v next hv ht hbody
    exact ht.mapNew (isRO_loaded hfile hl h hv) hbody
   rw [← heq]
   apply foldl_invariant (Built file) _ hmid
   intro t v _ ht
   exact ht.vmmap (fun _ => isRO_readOnly zeroPage flagsOnly_userData)
 · cases hload

theorem Built.roPage (hb : Built file b) (hro : RoPage b.sections v) : TextPage file v := by
 rcases hro with ⟨st, hst, hflag, hv⟩
 rcases hb.origin st hst with ⟨l, hl, h, heq⟩
 rw [heq] at hflag hv
 rw [isReadOnly_asSection h] at hflag
 exact ⟨l, hl, hflag, h, hv⟩

theorem Built.sealed (hb : Built file b) (hfile : PagesApart file) : Sealed b.pt b.sections := by
 constructor
 · intro v hro
   exact hb.kept v (hb.roPage hro)
 intro st v hst hwrite hv hro
 rcases hb.origin st hst with ⟨l, hl, h, heq⟩
 rw [heq] at hwrite hv
 rw [isReadOnly_asSection h] at hwrite
 exact hfile l hl hwrite h v (.inr hv) (hb.roPage hro)

theorem not_roPage_stack (b : Image)
  (hv : (pageBase b.maxEnd + pageSize) / pageSize ≤ v.toNat) : ¬ RoPage b.sections v := by
 rintro ⟨st, hst, _, hpage⟩
 have hstop : st.stop ≤ b.maxEnd := Vm.stop_le_foldl hst
 have hend := ((st.mem_vpns_iff v).mp hpage).right
 unfold pageBase at hv
 unfold pageSize at hv hend
 omega

theorem addStack_sealed (h : Sealed b.pt b.sections) {stack : Vpn -> Page}
  (hstep : b.addStack stack = some after) : Sealed after.pt after.sections := by
 unfold addStack at hstep
 simp only at hstep
 rcases dite_none_right_eq_some.mp hstep with ⟨hfits, hstep⟩
 rcases map_eq_some_iff.mp hstep with ⟨mid, hfold, heq⟩
 have haligned : (pageBase b.maxEnd + pageSize) % pageSize = 0 := by
  unfold pageBase pageSize
  omega
 have hpages := (Vm.stackPages_spec haligned hfits).right
 have hmid : mid.sections = b.sections ∧ forall v, RoPage b.sections v -> mid.pt v = b.pt v := by
  refine foldlM_invariant (fun t : Image => t.sections = b.sections ∧ forall v,
   RoPage b.sections v -> t.pt v = b.pt v) ?_ ⟨rfl, fun _ _ => rfl⟩ hfold
  intro t v next hv ht hbody
  rcases map_eq_some_iff.mp hbody with ⟨⟨f, mem⟩, _, hnext⟩
  rw [← hnext]
  refine ⟨ht.left, ?_⟩
  intro w hw
  change update t.pt v (mkPte f pteUserData) w = b.pt w
  rw [update_of_ne, ht.right w hw]
  intro hwv
  rw [hwv] at hw
  exact b.not_roPage_stack (hpages v hv).left hw
 have hsame : forall v, RoPage after.sections v -> RoPage b.sections v := by
  rintro v ⟨st, hst, hflag, hv⟩
  rw [← heq] at hst
  rcases mem_cons.mp hst with hstack | hmem
  · rw [hstack] at hflag
    change (0x400#64 &&& stRO != 0#64) = true at hflag
    exact absurd hflag (by decide)
  rw [hmid.left] at hmem
  exact ⟨st, hmem, hflag, hv⟩
 constructor
 · intro v hro
   have hold := hsame v hro
   have hpt : after.pt v = b.pt v := by
    rw [← heq]
    exact hmid.right v hold
   rw [hpt]
   exact h.kept v hold
 intro st v hst hwrite hv hro
 rw [← heq] at hst
 rcases mem_cons.mp hst with hstack | hmem
 · rw [hstack, mem_vpns_iff] at hv
   exact b.not_roPage_stack hv.left (hsame v hro)
 rw [hmid.left] at hmem
 exact h.separate st v hmem hwrite hv (hsame v hro)

end Image

theorem freeSection_writes (hstep : freeSection p s i = some next) :
  Writes p (fun _ => True) s next := by
 unfold freeSection at hstep
 split at hstep
 · cases hstep
 rename_i st hst
 rcases map_eq_some_iff.mp hstep with ⟨mid, hback, heq⟩
 rw [← heq]
 have hwrites := (bringBack_writes hst hback).mono (m := fun _ => True) (fun _ _ => trivial)
 exact ⟨hwrites.others, hwrites.outline, hwrites.entries⟩

theorem freeSections_writes (hstep : s.freeSections p = some next) :
  Writes p (fun _ => True) s next :=
 foldlM_invariant (Writes p (fun _ => True) s)
  (fun _ _ _ _ ht hbody => ht.trans (freeSection_writes hbody)) (Writes.refl p _ s) hstep

theorem AllSealed.execve (h : s.AllSealed) {file : List Load} {stack : Vpn -> Page}
  (hfile : PagesApart file) (hstep : s.execve p file stack = some next) :
  next.AllSealed := by
 rcases bind_eq_some_iff.mp hstep with ⟨b, hload, hrest⟩
 rcases bind_eq_some_iff.mp hrest with ⟨image, hstack, hrest⟩
 rcases map_eq_some_iff.mp hrest with ⟨freed, hfree, heq⟩
 have hempty : Built file s.empty := by
  constructor
  · intro v _ hvalid
    change isValid 0#64 = true at hvalid
    rw [not_valid_zero] at hvalid
    cases hvalid
  · nofun
 have hbuilt : Built file b :=
  foldlM_invariant (Built file)
   (fun _ _ _ hl ht hbody => ht.loadSegment hfile hl hbody) hempty hload
 have hsealed := addStack_sealed (hbuilt.sealed hfile) hstack
 have hwrites := freeSections_writes hfree
 rw [← heq]
 intro q
 change Sealed (update freed.spaces.pt p image.pt q)
  (update freed.spaces.sections p image.sections q)
 by_cases hq : q = p
 · rw [hq, update_self, update_self]
   exact hsealed
 have hpt : freed.spaces.pt q = s.spaces.pt q := by
  funext v
  exact hwrites.entries q v (fun hboth => hq hboth.left)
 rw [update_of_ne hq, update_of_ne hq, hpt, hwrites.others q hq]
 exact h q

/-!
# Runs
-/

/--
No fault and no `swapin` in a section marked `ST_RO`, and files whose writable segments
have no page in common with a text segment.
-/
def Spared (s : Swapping) : SwapLabel -> Prop
 | .execve _ file _ => PagesApart file
 | .fault p addr => forall st, st ∈ s.spaces.sections p ->
  st.contains addr = true -> st.isReadOnly = false
 | .swapin p i => forall st, (s.spaces.sections p)[i]? = some st ->
  st.isReadOnly = false
 | _ => True

theorem AllSealed.of_same (h : s.AllSealed) (hpt : next.spaces.pt = s.spaces.pt)
  (hsections : next.spaces.sections = s.spaces.sections) : next.AllSealed := by
 intro q
 rw [hpt, hsections]
 exact h q

theorem AllSealed.step (h : s.AllSealed) {l : SwapLabel} (hguard : s.Spared l)
  (hstep : s.step l = some next) : next.AllSealed := by
 cases l with
 | execve p file stack => exact h.execve hguard hstep
 | execveFails file last n =>
  rcases bind_eq_some_iff.mp hstep with ⟨b, _, hrest⟩
  rcases map_eq_some_iff.mp hrest with ⟨after, _, heq⟩
  rw [← heq]
  exact h.of_same rfl rfl
 | fault p addr =>
  rcases fault_writes hstep with ⟨st, hst, hcontains, hwrites⟩
  exact h.of_section hst (hguard st hst hcontains) hwrites
 | fork p child => exact h.fork hstep
 | swapout p i => exact h.of_drains (swapout_drains hstep)
 | swapin p i =>
  cases hst : (s.spaces.sections p)[i]? with
  | none =>
   change s.swapin p i = some next at hstep
   unfold swapin at hstep
   rw [hst] at hstep
   cases hstep
  | some st => exact h.of_section (mem_of_getElem? hst) (hguard st hst) (swapin_writes hst hstep)
 | store p v off x =>
  rcases map_eq_some_iff.mp hstep with ⟨after, hstore, heq⟩
  unfold Spaces.store at hstore
  split at hstore
  · rw [← heq, ← some.inj hstore]
    exact h.of_same rfl rfl
  · cases hstore
 | kernelAlloc contents =>
  rcases map_eq_some_iff.mp hstep with ⟨after, halloc, heq⟩
  rcases map_eq_some_iff.mp halloc with ⟨⟨f, mem⟩, _, hafter⟩
  rw [← heq, ← hafter]
  exact h.of_same rfl rfl
 | kernelFree f =>
  rcases map_eq_some_iff.mp hstep with ⟨after, hfree, heq⟩
  unfold Spaces.kernelFree at hfree
  split at hfree
  · rw [← heq, ← some.inj hfree]
    exact h.of_same rfl rfl
  · cases hfree

theorem allSealed_of_reachable (hreach : Reachable swapSystem Spared s) : s.AllSealed := by
 apply reachable_invariant AllSealed _ _ hreach
 · intro start hstart p
   constructor
   · intro v _ hvalid
     rw [hstart.right p v, not_valid_zero] at hvalid
     cases hvalid
   intro st v hst
   rw [hstart.left p] at hst
   cases hst
 intro s l next _ h hguard hstep
 exact h.step hguard hstep

structure ReadOnlyKept (s : Swapping) : Prop where
 readOnly : forall p v, RoPage (s.spaces.sections p) v ->
  isValid (s.spaces.pt p v) = true -> isRO (s.spaces.pt p v) = true
 unstored : forall p v off x, RoPage (s.spaces.sections p) v -> s.spaces.store p v off x = none

end Swapping

theorem read_only_kept_of_reachable {s : Swapping}
  (hreach : Reachable swapSystem Swapping.Spared s) : s.ReadOnlyKept := by
 have h := allSealed_of_reachable hreach
 constructor
 · intro p
   exact (h p).kept
 intro p v off x hro
 apply if_neg
 intro hpermitted
 rcases Bool.and_eq_true_iff.mp hpermitted.right with ⟨hread, hwrite⟩
 rcases Bool.and_eq_true_iff.mp hread with ⟨hvalid, _⟩
 rw [(h p).kept v hro hvalid] at hwrite
 cases hwrite

namespace Swapping

/-!
# Concrete runs
-/

def small : Swapping where
 spaces :=
  { mem :=
   { frames := fun _ _ => 0
     ref := fun _ => 0
     pages := (range 20).map fun i => BitVec.ofNat 36 (100 + i)
     allocPageCnt := 0
     leftPageCnt := 20
     firstPage := 100#36 }
    procs := [0]
    sections := fun _ => []
    pt := fun _ _ => 0#64
    kernelPages := []
    view := fun _ _ _ => 0 }
 area := ⟨fun _ => false, fun _ _ => 0⟩
 zeroPage := 50#36

theorem small_initial : swapSystem.initial small := ⟨fun _ => rfl, fun _ _ => rfl⟩

def oneByte : List Load := [⟨⟨true, 0, 1, 1⟩, fun _ _ => 7⟩]

def Tame (s : Swapping) : SwapLabel -> Bool
 | .execve _ file _ => file.all fun l => l.ph.text
 | .fault p addr => (s.spaces.sections p).all fun st => !st.contains addr || !st.isReadOnly
 | .swapin p i => (s.spaces.sections p)[i]?.all fun st => !st.isReadOnly
 | _ => true

theorem spared_of_tame {s : Swapping} {l : SwapLabel} (h : s.Tame l) : s.Spared l := by
 cases l with
 | execve p file stack =>
  intro l hl hdata
  rw [all_eq_true.mp h l hl] at hdata
  cases hdata
 | fault p addr =>
  intro st hst hcontains
  have hfree := all_eq_true.mp h st hst
  rw [hcontains, Bool.not_true, Bool.false_or, Bool.not_eq_true'] at hfree
  exact hfree
 | swapin p i =>
  intro st hst
  change (s.spaces.sections p)[i]?.all (fun st => !st.isReadOnly) = true at h
  rw [hst, all_some, Bool.not_eq_true'] at h
  exact h
 | _ => trivial

end Swapping

open SwapLabel in
/-- A process and its child, with a stack that was swapped out and has come back. -/
theorem read_only_kept_after_swapping : exists s : Swapping,
  (s.spaces.sections 0).length = 2 ∧ s.ReadOnlyKept := by
 rcases exists_reachable_of_execute swapSystem (fun s l => s.Tame l = true) small_initial
  [execve 0 oneByte (fun _ _ => 0), swapout 0 0, fork 0 1, fault 0 8192]
  (fun s => (s.spaces.sections 0).length = 2) (by decide +kernel) with ⟨s, hreach, htwo⟩
 have hspared := reachable_mono (fun _ _ h => Swapping.spared_of_tame h) hreach
 exact ⟨s, htwo, read_only_kept_of_reachable hspared⟩

open SwapLabel in
/-- A fault in the text makes its page writable, and a store to it takes effect. -/
theorem text_becomes_writable : exists s : Swapping,
  Reachable swapSystem unguarded s ∧ RoPage (s.spaces.sections 0) 0#36 ∧
    isValid (s.spaces.pt 0 0#36) = true ∧ isRO (s.spaces.pt 0 0#36) = false ∧
    exists off x next, s.spaces.store 0 0#36 off x = some next := by
 rcases exists_reachable_of_execute swapSystem unguarded Swapping.small_initial
  [execve 0 Swapping.oneByte (fun _ _ => 0), fault 0 0]
  (fun s => (exists st, st ∈ s.spaces.sections 0 ∧ st.isReadOnly = true ∧
    st.vpns.contains 0#36 = true) ∧
   isValid (s.spaces.pt 0 0#36) = true ∧ isRO (s.spaces.pt 0 0#36) = false ∧
   (s.spaces.store 0 0#36 ⟨0, by decide⟩ 9).isSome = true) (by decide +kernel) with
  ⟨s, hreach, ⟨st, hst, hflag, hv⟩, hvalid, hwritable, hstore⟩
 rcases isSome_iff_exists.mp hstore with ⟨next, hnext⟩
 exact ⟨s, hreach, ⟨st, hst, hflag, contains_iff_mem.mp hv⟩, hvalid, hwritable, _, _,
  next, hnext⟩

end OSLab.Kernel
