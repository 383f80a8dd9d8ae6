import OSLab.Foundation.Custody
import OSLab.Fs.Inode.InMemory

/-!
# One object for each inode

Among the nodes with references there is one for each inode number, and its count is the
number of references.  A node that is being freed is out of the list, and nobody else can
come to it.
-/

namespace OSLab.Fs
open Foundation Function Option InodeUse
namespace InodeUse

def sole : InodeUse -> Option Nat
 | creating a | loaded a | clearing a | erasing a | ending a => some a
 | _ => none

theorem counted_of_opening {use : InodeUse} {a : Nat} (h : use.opening = some a) :
  use.counted = some a := by
 cases use <;> first | exact h | cases h

theorem sole_of_opening {use : InodeUse} {a : Nat} (h : use.opening = some a) :
  use.sole = some a := by
 cases use <;> first | exact h | cases h

end InodeUse

namespace InodeList
variable (s : InodeList)

def counts (k : Nat) : Option Nat := (s.ref k).counted

structure Detached (s : InodeList) (a : Nat) : Prop where
 outside : a ∉ s.list
 inUse : s.used a = true
 valid : (s.node a).valid = true
 entry : (s.node a).entry.numLinks = 0
 disk : (s.disk (s.node a).inodeNo).numLinks = 0
 other : forall b, b ∈ s.list -> 0 < (s.node b).rc -> (s.node b).inodeNo ≠ (s.node a).inodeNo

def Fits : InodeUse -> Prop
 | .creating a => (s.node a).valid = false ∧ (s.node a).locked = true
 | .loaded a => (s.node a).valid = true ∧ (s.node a).locked = true
 | .held a => (s.node a).valid = true
 | .clearing a | .erasing a | .ending a => s.Detached a
 | _ => True

structure Identified (s : InodeList) : Prop where
 counted : forall a, a ∈ s.list -> Exactly (fun k => s.counts k = some a) (s.node a).rc
 attached : forall k a, s.counts k = some a -> a ∈ s.list
 nodup : s.list.Nodup
 inUse : forall a, a ∈ s.list -> s.used a = true
 unique : forall a b, a ∈ s.list -> b ∈ s.list -> 0 < (s.node a).rc -> 0 < (s.node b).rc ->
  (s.node a).inodeNo = (s.node b).inodeNo -> a = b
 fresh : forall a, a ∈ s.list -> 0 < (s.node a).rc -> (s.node a).valid = true ->
  (s.node a).entry = s.disk (s.node a).inodeNo
 pending : forall a, a ∈ s.list -> 0 < (s.node a).rc -> (s.node a).valid = false ->
  (s.node a).locked = true
 fits : forall k, s.Fits (s.ref k)
 sole : forall j k a, (s.ref j).sole = some a -> (s.ref k).sole = some a -> j = k
 locker : forall a, a ∈ s.list -> (s.node a).locked = true -> exists k, (s.ref k).opening = some a

variable {s next : InodeList} {a b k : Nat} {use : InodeUse}

theorem Start.identified (h : s.Start) : s.Identified := by
 have hmem : forall a, a ∉ s.list := by
  intro a ha
  rw [h.list] at ha
  cases ha
 constructor
 · intro a ha
   exact absurd ha (hmem a)
 · intro k a hk
   unfold counts at hk
   rw [h.ref] at hk
   cases hk
 · rw [h.list]
   exact List.nodup_nil
 · intro a ha
   exact absurd ha (hmem a)
 · intro a b ha
   exact absurd ha (hmem a)
 · intro a ha
   exact absurd ha (hmem a)
 · intro a ha
   exact absurd ha (hmem a)
 · intro k
   rw [h.ref]
   trivial
 · intro j k a hj
   rw [h.ref] at hj
   cases hj
 · intro a ha
   exact absurd ha (hmem a)

theorem counts_of (hk : s.ref k = use) : s.counts k = use.counted := congrArg counted hk

theorem Identified.rc_pos (h : s.Identified) (hk : s.counts k = some a) : 0 < (s.node a).rc := by
 have hpos := (h.counted a (h.attached k a hk)).pos hk
 omega

theorem counts_setRef (href : next.ref = update s.ref k use) :
  next.counts = update s.counts k use.counted := by
 funext j
 unfold counts
 rw [href]
 by_cases hj : j = k
 · rw [hj, update_self, update_self]
 · rw [update_of_ne hj, update_of_ne hj]

theorem exactly_setRef {count : Int} (h : Exactly (fun j => s.counts j = some a) count)
  (href : next.ref = update s.ref k use) :
  Exactly (fun j => next.counts j = some a) (count + (if use.counted = some a then 1 else 0) -
      if s.counts k = some a then 1 else 0) := by
 rw [counts_setRef href]
 exact Custody.exactly_repoint h k use.counted

theorem exactly_setRef_other {count : Int} (h : Exactly (fun j => s.counts j = some a) count)
  (href : next.ref = update s.ref k use) (hbefore : s.counts k ≠ some a)
  (hafter : use.counted ≠ some a) : Exactly (fun j => next.counts j = some a) count := by
 have hset := exactly_setRef h href
 rw [if_neg hbefore, if_neg hafter, Int.add_zero, Int.sub_zero] at hset
 exact hset

theorem sole_setRef (h : forall i j b, (s.ref i).sole = some b -> (s.ref j).sole = some b ->
    i = j) (href : next.ref = update s.ref k use)
  (huse : forall b, use.sole = some b -> forall j, j ≠ k -> (s.ref j).sole ≠ some b) :
  forall i j b, (next.ref i).sole = some b -> (next.ref j).sole = some b -> i = j := by
 intro i j b hi hj
 rw [href] at hi hj
 by_cases hik : i = k
 · by_cases hjk : j = k
   · rw [hik, hjk]
   rw [hik, update_self] at hi
   rw [update_of_ne hjk] at hj
   exact absurd hj (huse b hi j hjk)
 rw [update_of_ne hik] at hi
 by_cases hjk : j = k
 · rw [hjk, update_self] at hj
   exact absurd hi (huse b hj i hik)
 rw [update_of_ne hjk] at hj
 exact h i j b hi hj

theorem opening_setRef (href : next.ref = update s.ref k use)
  (hk : (s.ref k).opening = some a -> use.opening = some a)
  (h : exists j, (s.ref j).opening = some a) : exists j, (next.ref j).opening = some a := by
 rcases h with ⟨j, hj⟩
 refine ⟨j, ?_⟩
 rw [href]
 by_cases hjk : j = k
 · rw [hjk, update_self]
   rw [hjk] at hj
   exact hk hj
 rw [update_of_ne hjk]
 exact hj

theorem fits_setRef (href : next.ref = update s.ref k use) (huse : next.Fits use)
  (hkept : forall j, j ≠ k -> next.Fits (s.ref j)) : forall j, next.Fits (next.ref j) := by
 intro j
 rw [href]
 by_cases hj : j = k
 · rw [hj, update_self]
   exact huse
 rw [update_of_ne hj]
 exact hkept j hj

theorem Fits.carry (h : s.Fits use) (hheld : forall b, use.counted = some b -> (s.node b).valid ->
    (next.node b).valid) (hopening : forall b, use.opening = some b ->
    (next.node b).valid = (s.node b).valid ∧ (next.node b).locked = (s.node b).locked)
  (hfreeing : forall b, use.freeing = some b -> s.Detached b -> next.Detached b) :
  next.Fits use := by
 cases use with
 | unused | checking b => trivial
 | creating b =>
  change (next.node b).valid = false ∧ (next.node b).locked = true
  rw [(hopening b rfl).left, (hopening b rfl).right]
  exact h
 | loaded b =>
  change (next.node b).valid = true ∧ (next.node b).locked = true
  rw [(hopening b rfl).left, (hopening b rfl).right]
  exact h
 | held b => exact hheld b rfl h
 | clearing b | erasing b | ending b => exact hfreeing b rfl h

/-!
# Steps that keep the list and the disk
-/

theorem node_self (s : InodeList) (k a : Nat) (use : InodeUse) (inode : MemInode) :
  ((s.setNode a inode).setRef k use).node a = inode :=
 show update s.node a inode a = inode from update_self ..

theorem node_other {inode : MemInode} (hb : b ≠ a) :
  ((s.setNode a inode).setRef k use).node b = s.node b :=
 show update s.node a inode b = s.node b from update_of_ne hb ..

structure Touches (s : InodeList) (k a : Nat) (use : InodeUse) (inode : MemInode) : Prop where
 member : a ∈ s.list
 inodeNo : inode.inodeNo = (s.node a).inodeNo
 rc : inode.rc = (s.node a).rc + (if use.counted = some a then 1 else 0) -
  if s.counts k = some a then 1 else 0
 pos : 0 < inode.rc -> 0 < (s.node a).rc
 before : forall b, b ≠ a -> s.counts k ≠ some b
 after : forall b, b ≠ a -> use.counted ≠ some b
 sole : forall b, use.sole = some b -> (s.ref k).sole = some b

variable {inode : MemInode}

section
variable (h : Touches s k a use inode)
include h

theorem Touches.inodeNo_eq (b : Nat) :
  (((s.setNode a inode).setRef k use).node b).inodeNo = (s.node b).inodeNo := by
 by_cases hb : b = a
 · rw [hb, node_self]
   exact h.inodeNo
 · rw [node_other hb]

theorem Touches.rc_pos (b : Nat)
  (hpos : 0 < (((s.setNode a inode).setRef k use).node b).rc) : 0 < (s.node b).rc := by
 by_cases hb : b = a
 · rw [hb, node_self] at hpos
   rw [hb]
   exact h.pos hpos
 rw [node_other hb] at hpos
 exact hpos

theorem Touches.detached (hb : s.Detached b) : ((s.setNode a inode).setRef k use).Detached b := by
 have hnode : ((s.setNode a inode).setRef k use).node b = s.node b :=
  node_other (fun heq => hb.outside (heq ▸ h.member))
 constructor
 · exact hb.outside
 · exact hb.inUse
 · rw [hnode]
   exact hb.valid
 · rw [hnode]
   exact hb.entry
 · rw [hnode]
   exact hb.disk
 · intro c hc hpos
   rw [h.inodeNo_eq, h.inodeNo_eq]
   exact hb.other c hc (h.rc_pos c hpos)

theorem Touches.fits_same
  (hvalid : inode.valid = (s.node a).valid) (hlocked : inode.locked = (s.node a).locked)
  {other : InodeUse} (hother : s.Fits other) :
  ((s.setNode a inode).setRef k use).Fits other := by
 have hphase : forall b, (((s.setNode a inode).setRef k use).node b).valid = (s.node b).valid ∧
  (((s.setNode a inode).setRef k use).node b).locked = (s.node b).locked := by
  intro b
  by_cases hb : b = a
  · rw [hb, node_self]
    exact ⟨hvalid, hlocked⟩
  rw [node_other hb]
  exact ⟨rfl, rfl⟩
 apply hother.carry
 · intro b _ hb
   rw [(hphase b).left]
   exact hb
 · exact fun b _ => hphase b
 · exact fun b _ => h.detached
end

variable {j : Nat}

section
variable (h : Touches s k a use inode) (hs : s.Identified)
include h hs

theorem Touches.fits_opening (hopening : (s.ref k).sole = some a)
  (hvalid : (s.node a).valid -> inode.valid) (hj : j ≠ k) :
  ((s.setNode a inode).setRef k use).Fits (s.ref j) := by
 apply (hs.fits j).carry
 · intro b _ hb
   by_cases hba : b = a
   · rw [hba, node_self]
     rw [hba] at hb
     exact hvalid hb
   rw [node_other hba]
   exact hb
 · intro b hb
   rw [node_other]
   · exact ⟨rfl, rfl⟩
   intro heq
   rw [heq] at hb
   exact hj (hs.sole j k a (sole_of_opening hb) hopening)
 · exact fun b _ => h.detached

theorem Touches.identified
  (hfresh : 0 < inode.rc -> inode.valid -> inode.entry = s.disk (s.node a).inodeNo)
  (hpending : 0 < inode.rc -> inode.valid = false -> inode.locked)
  (huse : ((s.setNode a inode).setRef k use).Fits use)
  (hkept : forall j, j ≠ k -> ((s.setNode a inode).setRef k use).Fits (s.ref j))
  (hlocker : inode.locked -> (s.node a).locked ∧
    ((s.ref k).opening = some a -> use.opening = some a)) :
  ((s.setNode a inode).setRef k use).Identified := by
 constructor
 · intro b hb
   by_cases heq : b = a
   · rw [heq, node_self, h.rc]
     exact exactly_setRef (hs.counted a h.member) rfl
   rw [node_other heq]
   exact exactly_setRef_other (hs.counted b hb) rfl (h.before b heq) (h.after b heq)
 · intro j b hj
   change b ∈ s.list
   rw [counts_setRef rfl] at hj
   rcases of_update hj with ⟨_, hj⟩ | ⟨_, hj⟩
   · by_cases hb : b = a
     · rw [hb]
       exact h.member
     · exact absurd hj (h.after b hb)
   · exact hs.attached j b hj
 · exact hs.nodup
 · exact hs.inUse
 · intro b c hb hc hposb hposc hno
   rw [h.inodeNo_eq, h.inodeNo_eq] at hno
   exact hs.unique b c hb hc (h.rc_pos b hposb) (h.rc_pos c hposc) hno
 · intro b hb hpos hvalid
   by_cases heq : b = a
   · rw [heq, node_self] at hpos hvalid ⊢
     rw [h.inodeNo]
     exact hfresh hpos hvalid
   rw [node_other heq] at hpos hvalid ⊢
   exact hs.fresh b hb hpos hvalid
 · intro b hb hpos hvalid
   by_cases heq : b = a
   · rw [heq, node_self] at hpos hvalid ⊢
     exact hpending hpos hvalid
   rw [node_other heq] at hpos hvalid ⊢
   exact hs.pending b hb hpos hvalid
 · exact fits_setRef rfl huse hkept
 · apply sole_setRef hs.sole rfl
   intro b hb j hj hjb
   exact hj (hs.sole j k b hjb (h.sole b hb))
 · intro b hb hlocked
   by_cases heq : b = a
   · rw [heq, node_self] at hlocked
     rw [heq]
     exact opening_setRef rfl (hlocker hlocked).right (hs.locker a h.member (hlocker hlocked).left)
   rw [node_other heq] at hlocked
   apply opening_setRef rfl _ (hs.locker b hb hlocked)
   intro hbad
   exact absurd (counted_of_opening hbad) (h.before b heq)
end

theorem Touches.recounted {rc : Int} (h : Touches s k a use { s.node a with rc := rc })
  (hs : s.Identified) (hpos : 0 < (s.node a).rc) (huse : s.Fits use)
  (hidle : (s.ref k).opening = none) :
  ((s.setNode a { s.node a with rc := rc }).setRef k use).Identified := by
 apply h.identified hs
 · exact fun _ hvalid => hs.fresh a h.member hpos hvalid
 · exact fun _ hvalid => hs.pending a h.member hpos hvalid
 · exact h.fits_same rfl rfl huse
 · exact fun j _ => h.fits_same rfl rfl (hs.fits j)
 intro hlocked
 refine ⟨hlocked, fun hbad => ?_⟩
 rw [hidle] at hbad
 cases hbad

theorem Identified.increment (h : s.Identified) (ha : a ∈ s.list) (hpos : 0 < (s.node a).rc)
  (hk : s.ref k = .unused) (huse : use.counted = some a) (hsole : use.sole = none)
  (hfits : s.Fits use) :
  ((s.setNode a { s.node a with rc := (s.node a).rc + 1 }).setRef k use).Identified := by
 have hnone : s.counts k = none := counts_of hk
 have htouch : Touches s k a use { s.node a with rc := (s.node a).rc + 1 } := by
  refine ⟨ha, rfl, ?_, fun _ => hpos, ?_, ?_, ?_⟩
  · rw [hnone, if_pos huse, if_neg (some_ne_none a).symm]
    exact (Int.sub_zero _).symm
  · intro b _
    rw [hnone]
    exact (some_ne_none b).symm
  · intro b hb hcounted
    rw [huse] at hcounted
    exact hb (some.inj hcounted).symm
  intro b hb
  rw [hsole] at hb
  cases hb
 exact htouch.recounted h hpos hfits (congrArg opening hk)

theorem Identified.decrement (h : s.Identified) (hk : s.ref k = .held a) :
  ((s.setNode a { s.node a with rc := (s.node a).rc - 1 }).setRef k .unused).Identified := by
 have hcounts : s.counts k = some a := counts_of hk
 have ha := h.attached k a hcounts
 have hpos := h.rc_pos hcounts
 have htouch : Touches s k a .unused { s.node a with rc := (s.node a).rc - 1 } := by
  refine ⟨ha, rfl, ?_, fun _ => hpos, ?_, ?_, ?_⟩
  · change (s.node a).rc - 1 = (s.node a).rc + (if (none : Option Nat) = some a then 1 else 0) -
     if s.counts k = some a then 1 else 0
    rw [if_pos hcounts, if_neg (some_ne_none a).symm, Int.add_zero]
  · intro b hb hcounted
    rw [hcounts] at hcounted
    exact hb (some.inj hcounted).symm
  · nofun
  · nofun
 exact htouch.recounted h hpos trivial (congrArg opening hk)

theorem Identified.advance (h : s.Identified) (hcounts : s.counts k = some a) (use : InodeUse)
  (inode : MemInode) (huse : use.counted = some a)
  (hsole : forall b, use.sole = some b -> (s.ref k).sole = some b)
  (hno : inode.inodeNo = (s.node a).inodeNo) (hrc : inode.rc = (s.node a).rc) :
  Touches s k a use inode := by
 refine ⟨h.attached k a hcounts, hno, ?_, ?_, ?_, ?_, hsole⟩
 · rw [if_pos hcounts, if_pos huse, hrc]
   omega
 · rw [hrc]
   exact id
 · intro b hb hcounted
   rw [hcounts] at hcounted
   exact hb (some.inj hcounted).symm
 intro b hb hcounted
 rw [huse] at hcounted
 exact hb (some.inj hcounted).symm

theorem inodeSync_load (hvalid : (s.node a).valid = false) : s.inodeSync a false =
    s.setNode a { s.node a with valid := true, entry := s.disk (s.node a).inodeNo } := by
 unfold inodeSync
 simp only [hvalid, Bool.false_and, Bool.false_eq_true, if_false, if_true]

theorem inodeSync_write (hvalid : (s.node a).valid) : s.inodeSync a true =
    { s with disk := update s.disk (s.node a).inodeNo (s.node a).entry } := by
 unfold inodeSync
 simp only [hvalid, Bool.and_true, if_true]

theorem Identified.load (h : s.Identified) (hk : s.ref k = .creating a) :
  ((s.inodeSync a false).setRef k (.loaded a)).Identified := by
 have hfits := h.fits k
 rw [hk] at hfits
 rw [inodeSync_load hfits.left]
 have hcounts : s.counts k = some a := counts_of hk
 have hopening : (s.ref k).sole = some a := congrArg InodeUse.sole hk
 have htouch := h.advance hcounts (.loaded a)
  { s.node a with valid := true, entry := s.disk (s.node a).inodeNo } rfl
  (fun b hb => hopening.trans hb) rfl rfl
 apply htouch.identified h
 · intro _ _
   rfl
 · nofun
 · change (update s.node a _ a).valid = true ∧ (update s.node a _ a).locked = true
   rw [update_self]
   exact ⟨rfl, hfits.right⟩
 · intro j hj
   exact htouch.fits_opening h hopening (fun _ => rfl) hj
 intro hlocked
 exact ⟨hlocked, fun _ => rfl⟩

theorem Identified.unlock (h : s.Identified) (hk : s.ref k = .loaded a) :
  ((s.setNode a { s.node a with locked := false }).setRef k (.held a)).Identified := by
 have hfits := h.fits k
 rw [hk] at hfits
 have hcounts : s.counts k = some a := counts_of hk
 have hopening : (s.ref k).sole = some a := congrArg InodeUse.sole hk
 have htouch := h.advance hcounts (.held a) { s.node a with locked := false } rfl
  nofun rfl rfl
 apply htouch.identified h
 · intro hpos hvalid
   exact h.fresh a (h.attached k a hcounts) hpos hvalid
 · intro _ hbad
   rw [hfits.left] at hbad
   cases hbad
 · change (update s.node a _ a).valid = true
   rw [update_self]
   exact hfits.left
 · intro j hj
   exact htouch.fits_opening h hopening id hj
 · nofun

theorem Identified.check (h : s.Identified) (hk : s.ref k = .checking a)
  (hlocked : (s.node a).locked = false) : (s.setRef k (.held a)).Identified := by
 have hcounts : s.counts k = some a := counts_of hk
 have ha := h.attached k a hcounts
 have hvalid : (s.node a).valid := by
  cases hcase : (s.node a).valid with
  | true => rfl
  | false =>
   rw [h.pending a ha (h.rc_pos hcounts) hcase] at hlocked
   cases hlocked
 have htouch := h.advance hcounts (.held a) (s.node a) rfl nofun rfl rfl
 have hsame : (s.setNode a (s.node a)).setRef k (.held a) = s.setRef k (.held a) := by
  unfold setNode
  rw [update_eq_self]
 rw [← hsame]
 exact htouch.recounted h (h.rc_pos hcounts) hvalid (congrArg opening hk)

/-!
# Writing an entry
-/

structure Writes (s next : InodeList) (k a : Nat) (use : InodeUse) (entry : InodeEntry) :
  Prop where
 list : next.list = s.list
 used : next.used = s.used
 disk : next.disk = update s.disk (s.node a).inodeNo entry
 node : next.node = update s.node a { s.node a with entry := entry }
 ref : next.ref = update s.ref k use
 counts : use.counted = s.counts k
 sole : use.sole = (s.ref k).sole
 opening : use.opening = (s.ref k).opening
 other : forall b, b ∈ s.list -> b ≠ a -> 0 < (s.node b).rc ->
  (s.node b).inodeNo ≠ (s.node a).inodeNo
 links : forall b, s.Detached b -> (s.node b).inodeNo = (s.node a).inodeNo -> entry.numLinks = 0

variable {entry : InodeEntry}

section
variable (h : Writes s next k a use entry)
include h

theorem Writes.node_eq (b : Nat) :
  (next.node b).inodeNo = (s.node b).inodeNo ∧ (next.node b).rc = (s.node b).rc ∧
    (next.node b).valid = (s.node b).valid ∧ (next.node b).locked = (s.node b).locked := by
 rw [h.node]
 by_cases hb : b = a
 · rw [hb, update_self]
   exact ⟨rfl, rfl, rfl, rfl⟩
 rw [update_of_ne hb]
 exact ⟨rfl, rfl, rfl, rfl⟩

theorem Writes.detached (hb : s.Detached b) : next.Detached b := by
 constructor
 · rw [h.list]
   exact hb.outside
 · rw [h.used]
   exact hb.inUse
 · rw [(h.node_eq b).right.right.left]
   exact hb.valid
 · rw [h.node]
   by_cases heq : b = a
   · rw [heq, update_self]
     exact h.links b hb (by rw [heq])
   rw [update_of_ne heq]
   exact hb.entry
 · rw [(h.node_eq b).left, h.disk]
   by_cases heq : (s.node b).inodeNo = (s.node a).inodeNo
   · rw [heq, update_self]
     exact h.links b hb heq
   rw [update_of_ne heq]
   exact hb.disk
 · intro c hc hpos
   rw [h.list] at hc
   rw [(h.node_eq c).right.left] at hpos
   rw [(h.node_eq c).left, (h.node_eq b).left]
   exact hb.other c hc hpos

theorem Writes.fits {other : InodeUse} (hother : s.Fits other) : next.Fits other := by
 apply hother.carry
 · intro b _ hb
   rw [(h.node_eq b).right.right.left]
   exact hb
 · exact fun b _ => (h.node_eq b).right.right
 · exact fun b _ => h.detached

theorem Writes.identified (hs : s.Identified) (huse : s.Fits use) : next.Identified := by
 have hcounts : next.counts = s.counts := by rw [counts_setRef h.ref, h.counts, update_eq_self]
 constructor
 · intro b hb
   rw [h.list] at hb
   rw [hcounts, (h.node_eq b).right.left]
   exact hs.counted b hb
 · rw [hcounts, h.list]
   exact hs.attached
 · rw [h.list]
   exact hs.nodup
 · rw [h.list, h.used]
   exact hs.inUse
 · intro b c hb hc hposb hposc hno
   rw [h.list] at hb hc
   rw [(h.node_eq b).right.left] at hposb
   rw [(h.node_eq c).right.left] at hposc
   rw [(h.node_eq b).left, (h.node_eq c).left] at hno
   exact hs.unique b c hb hc hposb hposc hno
 · intro b hb hpos hvalid
   rw [h.list] at hb
   rw [(h.node_eq b).right.left] at hpos
   rw [(h.node_eq b).right.right.left] at hvalid
   rw [(h.node_eq b).left, h.node, h.disk]
   by_cases heq : b = a
   · rw [heq, update_self, update_self]
   rw [update_of_ne heq, update_of_ne (h.other b hb heq hpos)]
   exact hs.fresh b hb hpos hvalid
 · intro b hb hpos hvalid
   rw [h.list] at hb
   rw [(h.node_eq b).right.left] at hpos
   rw [(h.node_eq b).right.right.left] at hvalid
   rw [(h.node_eq b).right.right.right]
   exact hs.pending b hb hpos hvalid
 · exact fits_setRef h.ref (h.fits huse) (fun j _ => h.fits (hs.fits j))
 · apply sole_setRef hs.sole h.ref
   intro b hb j hj hjb
   rw [h.sole] at hb
   exact hj (hs.sole j k b hjb hb)
 · intro b hb hlocked
   rw [h.list] at hb
   rw [(h.node_eq b).right.right.right] at hlocked
   apply opening_setRef h.ref _ (hs.locker b hb hlocked)
   intro hopening
   rw [h.opening]
   exact hopening
end

theorem setNode_inodeSync (hvalid : (s.node a).valid) (entry : InodeEntry) :
    (s.setNode a { s.node a with entry := entry }).inodeSync a true =
      { s with
 node := update s.node a { s.node a with entry := entry }
 disk := update s.disk (s.node a).inodeNo entry } := by
 have hnode : (s.setNode a { s.node a with entry := entry }).node a =
  { s.node a with entry := entry } := update_self ..
 rw [inodeSync_write (by rw [hnode]; exact hvalid), hnode]
 rfl

section
variable (h : s.Identified)
include h

theorem Identified.relinked (hk : s.ref k = .held a) (entry : InodeEntry) :
  ((s.setNode a { s.node a with entry := entry }).inodeSync a true).Identified := by
 have hfits := h.fits k
 rw [hk] at hfits
 have hcounts : s.counts k = some a := counts_of hk
 have ha := h.attached k a hcounts
 have hpos := h.rc_pos hcounts
 rw [setNode_inodeSync hfits]
 refine Writes.identified (show Writes s _ k a (s.ref k) entry from ⟨rfl, rfl, rfl, rfl,
  (update_eq_self k s.ref).symm, rfl, rfl, rfl, ?_, ?_⟩) h (h.fits k)
 · intro b hb hne hposb hno
   exact hne (h.unique b a hb ha hposb hpos hno)
 · intro b hb hno
   exact absurd hno.symm (hb.other a ha hpos)

theorem Identified.overwrite (hsole : (s.ref k).freeing = some a)
  (hdetached : s.Detached a) (hlinks : entry.numLinks = (s.node a).entry.numLinks)
  (huse : use.freeing = some a) (hfits : s.Fits use) :
  (((s.setNode a { s.node a with entry := entry }).inodeSync a true).setRef k use).Identified := by
 have hbefore : s.counts k = none ∧ (s.ref k).sole = some a ∧ (s.ref k).opening = none := by
  unfold counts
  cases hk : s.ref k <;> rw [hk] at hsole <;> first | exact ⟨rfl, hsole, rfl⟩ | cases hsole
 have hafter : use.counted = none ∧ use.sole = some a ∧ use.opening = none := by
  cases use <;> first | exact ⟨rfl, huse, rfl⟩ | cases huse
 rw [setNode_inodeSync hdetached.valid]
 refine Writes.identified (show Writes s _ k a use entry from
  ⟨rfl, rfl, rfl, rfl, rfl, ?_, ?_, ?_, ?_, ?_⟩) h hfits
 · rw [hafter.left, hbefore.left]
 · rw [hafter.right.left, hbefore.right.left]
 · rw [hafter.right.right, hbefore.right.right]
 · intro b hb _ hposb
   exact hdetached.other b hb hposb
 intro b _ _
 rw [hlinks]
 exact hdetached.entry

/-!
# Nodes that come and go
-/

theorem Identified.elsewhere (hcounts : s.counts j ≠ some a)
  (hfreeing : (s.ref j).freeing ≠ some a) (hnode : forall b, b ≠ a -> next.node b = s.node b)
  (hdetached : forall b, b ≠ a -> (s.ref j).freeing = some b -> s.Detached b -> next.Detached b) :
  next.Fits (s.ref j) := by
 apply (h.fits j).carry
 · intro b hb hvalid
   rw [hnode b (fun heq => hcounts (heq ▸ hb))]
   exact hvalid
 · intro b hb
   rw [hnode b (fun heq => hcounts (heq ▸ counted_of_opening hb))]
   exact ⟨rfl, rfl⟩
 · exact fun b hb => hdetached b (fun heq => hfreeing (heq ▸ hb)) hb

theorem Identified.detached_of_freeing (hk : (s.ref k).freeing = some a) : s.Detached a := by
 have hfits := h.fits k
 cases huse : s.ref k with
 | clearing b | erasing b | ending b =>
  rw [huse] at hfits hk
  rw [← some.inj hk]
  exact hfits
 | _ =>
  rw [huse] at hk
  cases hk
end

theorem counts_or_freeing_of_sole (hk : (s.ref k).sole = some a) :
  s.counts k = some a ∨ (s.ref k).freeing = some a := by
 unfold counts
 cases huse : s.ref k <;> rw [huse] at hk <;>
  first | exact .inl hk | exact .inr hk

/-- A node comes into the list or goes out of it, and the reference of the call changes. -/
structure Replaces (s next : InodeList) (k a : Nat) (use : InodeUse) : Prop where
 node : forall b, b ≠ a -> next.node b = s.node b
 disk : next.disk = s.disk
 list : forall b, b ≠ a -> (b ∈ next.list ↔ b ∈ s.list)
 nodup : next.list.Nodup
 used : forall b, b ≠ a -> next.used b = s.used b
 ref : next.ref = update s.ref k use
 before : forall b, b ≠ a -> s.counts k ≠ some b
 after : forall b, use.counted = some b -> b = a ∧ a ∈ next.list
 sole : forall b, use.sole = some b -> b = a
 counts : forall j, j ≠ k -> s.counts j ≠ some a
 freeing : forall j, j ≠ k -> (s.ref j).freeing ≠ some a

structure Arrives (s next : InodeList) (k a : Nat) (use : InodeUse) : Prop where
 idle : s.counts k = none
 use : use.opening = some a
 rc : (next.node a).rc = 1
 inUse : next.used a = true
 valid : (next.node a).valid = false
 locked : (next.node a).locked = true
 other : forall b, b ∈ s.list -> 0 < (s.node b).rc -> (s.node b).inodeNo ≠ (next.node a).inodeNo
 calm : forall j b, (s.ref j).freeing = some b -> (next.node a).inodeNo ≠ (s.node b).inodeNo

section
variable (h : Replaces s next k a use)
include h

theorem Replaces.detached (harrives : a ∈ next.list -> Arrives s next k a use) (hb : b ≠ a)
  (hfreeing : (s.ref j).freeing = some b) (hdetached : s.Detached b) :
  next.Detached b := by
 constructor
 · intro hmem
   exact hdetached.outside ((h.list b hb).mp hmem)
 · rw [h.used b hb]
   exact hdetached.inUse
 · rw [h.node b hb]
   exact hdetached.valid
 · rw [h.node b hb]
   exact hdetached.entry
 · rw [h.node b hb, h.disk]
   exact hdetached.disk
 · intro c hc hpos
   rw [h.node b hb]
   by_cases hca : c = a
   · rw [hca] at hc ⊢
     exact (harrives hc).calm j b hfreeing
   rw [h.node c hca] at hpos ⊢
   exact hdetached.other c ((h.list c hca).mp hc) hpos

variable (hs : s.Identified) (harrives : a ∈ next.list -> Arrives s next k a use)
include hs harrives

theorem Replaces.exactly (hb : b ∈ next.list) :
  Exactly (fun j => next.counts j = some b) (next.node b).rc := by
 by_cases hba : b = a
 · rw [hba] at hb ⊢
   have hnew := harrives hb
   have hnone : forall j, s.counts j ≠ some a := by
    intro j
    by_cases hj : j = k
    · rw [hj, hnew.idle]
      exact (some_ne_none a).symm
    · exact h.counts j hj
   have hset := exactly_setRef (Exactly.zero hnone) h.ref
   rw [if_pos (counted_of_opening hnew.use), if_neg (hnone k)] at hset
   rw [hnew.rc]
   exact hset
 rw [h.node b hba]
 apply exactly_setRef_other (hs.counted b ((h.list b hba).mp hb)) h.ref (h.before b hba)
 intro hbad
 exact hba (h.after b hbad).left

theorem Replaces.identified (huse : next.Fits use) : next.Identified := by
 constructor
 · intro b hb
   exact h.exactly hs harrives hb
 · intro j b hj
   rw [counts_setRef h.ref] at hj
   rcases of_update hj with ⟨_, hj⟩ | ⟨hjk, hj⟩
   · rw [(h.after b hj).left]
     exact (h.after b hj).right
   have hba : b ≠ a := by
    rintro rfl
    exact h.counts j hjk hj
   exact (h.list b hba).mpr (hs.attached j b hj)
 · exact h.nodup
 · intro b hb
   by_cases hba : b = a
   · rw [hba] at hb ⊢
     exact (harrives hb).inUse
   rw [h.used b hba]
   exact hs.inUse b ((h.list b hba).mp hb)
 · intro b c hb hc hposb hposc hno
   by_cases hba : b = a
   · by_cases hca : c = a
     · rw [hba, hca]
     rw [hba] at hb hno
     rw [h.node c hca] at hposc hno
     exact absurd hno.symm ((harrives hb).other c ((h.list c hca).mp hc) hposc)
   rw [h.node b hba] at hposb hno
   by_cases hca : c = a
   · rw [hca] at hc hno
     exact absurd hno ((harrives hc).other b ((h.list b hba).mp hb) hposb)
   rw [h.node c hca] at hposc hno
   exact hs.unique b c ((h.list b hba).mp hb) ((h.list c hca).mp hc) hposb hposc hno
 · intro b hb hpos hvalid
   by_cases hba : b = a
   · rw [hba] at hb hvalid
     rw [(harrives hb).valid] at hvalid
     cases hvalid
   rw [h.node b hba] at hpos hvalid ⊢
   rw [h.disk]
   exact hs.fresh b ((h.list b hba).mp hb) hpos hvalid
 · intro b hb hpos hvalid
   by_cases hba : b = a
   · rw [hba] at hb ⊢
     exact (harrives hb).locked
   rw [h.node b hba] at hpos hvalid ⊢
   exact hs.pending b ((h.list b hba).mp hb) hpos hvalid
 · apply fits_setRef h.ref huse
   intro j hj
   exact hs.elsewhere (h.counts j hj) (h.freeing j hj) h.node
    (fun b hb hfreeing hdetached => h.detached harrives hb hfreeing hdetached)
 · apply sole_setRef hs.sole h.ref
   intro b hb j hj hjb
   rw [h.sole b hb] at hjb
   rcases counts_or_freeing_of_sole hjb with hja | hja
   · exact h.counts j hj hja
   · exact h.freeing j hj hja
 · intro b hb hlocked
   by_cases hba : b = a
   · rw [hba] at hb ⊢
     refine ⟨k, ?_⟩
     rw [h.ref, update_self]
     exact (harrives hb).use
   rw [h.node b hba] at hlocked
   apply opening_setRef h.ref _ (hs.locker b ((h.list b hba).mp hb) hlocked)
   intro hbad
   exact absurd (counted_of_opening hbad) (h.before b hba)
end

theorem Identified.detach (h : s.Identified) (hk : s.ref k = .held a)
  (hlast : lastUnlinked (s.node a)) :
  ({ (s.setNode a { s.node a with locked := true }).setRef k (.clearing a) with
    list := s.list.erase a } : InodeList).Identified := by
 unfold lastUnlinked at hlast
 rw [Bool.and_eq_true, Bool.and_eq_true] at hlast
 rcases hlast with ⟨⟨hone, hlinks⟩, hvalid⟩
 have hrc := of_decide_eq_true hone
 have hnolinks := of_decide_eq_true hlinks
 have hcounts : s.counts k = some a := counts_of hk
 have ha := h.attached k a hcounts
 have hpos := h.rc_pos hcounts
 have hnode : forall b, b ≠ a -> update s.node a { s.node a with locked := true } b = s.node b :=
  fun b hb => update_of_ne hb _ _
 have hself : update s.node a { s.node a with locked := true } a =
  { s.node a with locked := true } := update_self ..
 have hgone : a ∉ s.list.erase a := h.nodup.not_mem_erase
 refine Replaces.identified (show Replaces s _ k a (.clearing a) from ⟨hnode, rfl,
  fun b hb => List.mem_erase_of_ne hb, h.nodup.erase a, fun _ _ => rfl, rfl, ?_, nofun,
  fun b hb => (some.inj hb).symm, ?_, ?_⟩) h (fun hmem => absurd hmem hgone) ?_
 · intro b hb hbad
   rw [hcounts] at hbad
   exact hb (some.inj hbad).symm
 · -- no other reference counts for the node
   intro j hj hja
   have htwo := (h.counted a ha).two_le hja hcounts hj
   omega
 · intro j _ hja
   exact (h.detached_of_freeing hja).outside ha
 · constructor
   · exact hgone
   · exact h.inUse a ha
   · change (update s.node a _ a).valid = true
     rw [hself]
     exact hvalid
   · change (update s.node a _ a).entry.numLinks = 0
     rw [hself]
     exact hnolinks
   · change (s.disk (update s.node a _ a).inodeNo).numLinks = 0
     rw [hself]
     rw [← h.fresh a ha hpos hvalid]
     exact hnolinks
   · intro b hb hposb
     have hba : b ≠ a := by
      rintro rfl
      exact hgone hb
     change 0 < (update s.node a _ b).rc at hposb
     change (update s.node a _ b).inodeNo ≠ (update s.node a _ a).inodeNo
     rw [hnode b hba] at hposb ⊢
     rw [hself]
     intro hno
     exact hba (h.unique b a (List.mem_of_mem_erase hb) ha hposb hpos hno)

theorem Identified.release (h : s.Identified) (hk : s.ref k = .ending a) :
  ({ (s.setNode a { s.node a with valid := false, locked := false }).setRef k
    .unused with
    used := update s.used a false } : InodeList).Identified := by
 have hfreeing : (s.ref k).freeing = some a := congrArg freeing hk
 have hsole : (s.ref k).sole = some a := congrArg InodeUse.sole hk
 have hgone := (h.detached_of_freeing hfreeing).outside
 refine Replaces.identified (show Replaces s _ k a .unused from ⟨fun b hb => update_of_ne hb _ _,
  rfl, fun _ _ => Iff.rfl, h.nodup, fun b hb => update_of_ne hb _ _, rfl, ?_, nofun, nofun,
  ?_, ?_⟩) h (fun hmem => absurd hmem hgone) trivial
 · intro b _ hbad
   unfold counts at hbad
   rw [hk] at hbad
   cases hbad
 · intro j _ hja
   exact hgone (h.attached j a hja)
 · intro j hj hja
   apply hj
   apply h.sole j k a _ hsole
   cases huse : s.ref j <;> rw [huse] at hja <;> first | exact hja | cases hja

def Calm (s : InodeList) (inodeNo : Nat) : Prop :=
 forall j a, (s.ref j).freeing = some a -> (s.node a).inodeNo ≠ inodeNo

theorem Identified.create {inodeNo : Nat} (h : s.Identified) (hk : s.ref k = .unused)
  (hnone : forall b, b ∈ s.list -> 0 < (s.node b).rc -> (s.node b).inodeNo ≠ inodeNo)
  (hfree : s.used a = false) (hcalm : s.Calm inodeNo) :
  ({ (s.setNode a (created (s.node a) inodeNo)).setRef k (.creating a) with
    list := a :: s.list
    used := update s.used a true } : InodeList).Identified := by
 have hnew : a ∉ s.list := by
  intro hmem
  rw [h.inUse a hmem] at hfree
  cases hfree
 have hself : update s.node a (created (s.node a) inodeNo) a =
  created (s.node a) inodeNo := update_self ..
 have hidle : s.counts k = none := counts_of hk
 refine Replaces.identified (show Replaces s _ k a (.creating a) from
  ⟨fun b hb => update_of_ne hb _ _, rfl, ?_, List.nodup_cons.mpr ⟨hnew, h.nodup⟩,
   fun b hb => update_of_ne hb _ _, rfl, ?_, fun b hb => ⟨(some.inj hb).symm, List.mem_cons_self⟩,
   fun b hb => (some.inj hb).symm, ?_, ?_⟩) h ?_ ?_
 · intro b hb
   rw [List.mem_cons]
   exact or_iff_right hb
 · intro b _ hbad
   rw [hidle] at hbad
   cases hbad
 · intro j _ hja
   exact hnew (h.attached j a hja)
 · intro j _ hja
   rw [(h.detached_of_freeing hja).inUse] at hfree
   cases hfree
 · intro _
   refine ⟨hidle, rfl, ?_, update_self .., ?_, ?_, ?_, ?_⟩
   · change (update s.node a _ a).rc = 1
     rw [hself]
     rfl
   · change (update s.node a _ a).valid = false
     rw [hself]
     rfl
   · change (update s.node a _ a).locked = true
     rw [hself]
     rfl
   · intro b hb hpos
     change (s.node b).inodeNo ≠ (update s.node a _ a).inodeNo
     rw [hself]
     exact hnone b hb hpos
   intro j b hfreeing
   change (update s.node a _ a).inodeNo ≠ (s.node b).inodeNo
   rw [hself]
   exact (hcalm j b hfreeing).symm
 · change (update s.node a _ a).valid = false ∧ (update s.node a _ a).locked = true
   rw [hself]
   exact ⟨rfl, rfl⟩

/-!
# Steps
-/

theorem inodeSync_eq (s : InodeList) (a : Nat) (doWrite : Bool) : s.inodeSync a doWrite = { s with
 node := if (s.node a).valid then s.node else update s.node a
  { s.node a with valid := true, entry := s.disk (s.node a).inodeNo }
 disk := if (s.node a).valid && doWrite then
  update s.disk (s.node a).inodeNo (s.node a).entry else s.disk } := by
 unfold inodeSync
 cases hvalid : (s.node a).valid <;> cases doWrite <;> simp [hvalid, setNode]

inductive Moves (s : InodeList) : InodeListLabel -> InodeList -> Prop where
 | found {k inodeNo memory a : Nat} (hk : s.ref k = .unused)
  (hrange : inodeNo < s.numInodes) (ha : a ∈ s.list)
  (hno : (s.node a).inodeNo = inodeNo) (hpos : 0 < (s.node a).rc) :
  Moves s (.get k inodeNo memory) ((s.setNode a { s.node a with rc := (s.node a).rc + 1 }).setRef k
    (.checking a))
 | create {k inodeNo a : Nat} (hk : s.ref k = .unused)
  (hrange : inodeNo < s.numInodes)
  (hnone : forall b, b ∈ s.list -> 0 < (s.node b).rc -> (s.node b).inodeNo ≠ inodeNo)
  (hfree : s.used a = false) :
  Moves s (.get k inodeNo a)
   { (s.setNode a (created (s.node a) inodeNo)).setRef k (.creating a) with
     list := a :: s.list
     used := update s.used a true }
 | share {j k a : Nat} (hj : s.ref j = .held a) (hk : s.ref k = .unused) :
  Moves s (.share j k) ((s.setNode a { s.node a with rc := (s.node a).rc + 1 }).setRef k (.held a))
 | drop {k a : Nat} (hk : s.ref k = .held a)
  (hlast : lastUnlinked (s.node a) = false) :
  Moves s (.put k) ((s.setNode a { s.node a with rc := (s.node a).rc - 1 }).setRef k .unused)
 | detach {k a : Nat} (hk : s.ref k = .held a)
  (hlast : lastUnlinked (s.node a) = true) :
  Moves s (.put k)
   { (s.setNode a { s.node a with locked := true }).setRef k (.clearing a) with
     list := s.list.erase a }
 | load {k a : Nat} (hk : s.ref k = .creating a) :
  Moves s (.proceed k) ((s.inodeSync a false).setRef k (.loaded a))
 | unlock {k a : Nat} (hk : s.ref k = .loaded a) :
  Moves s (.proceed k) ((s.setNode a { s.node a with locked := false }).setRef k (.held a))
 | check {k a : Nat} (hk : s.ref k = .checking a)
  (hlocked : (s.node a).locked = false) :
  Moves s (.proceed k) (s.setRef k (.held a))
 | clear {k a : Nat} (hk : s.ref k = .clearing a) :
  Moves s (.proceed k)
   (((s.setNode a { s.node a with entry := cleared (s.node a).entry }).inodeSync a
    true).setRef k (.erasing a))
 | erase {k a : Nat} (hk : s.ref k = .erasing a) :
  Moves s (.proceed k)
   (((s.setNode a { s.node a with
    entry := { (s.node a).entry with type := inodeInvalid } }).inodeSync a true).setRef k
    (.ending a))
 | release {k a : Nat} (hk : s.ref k = .ending a) :
  Moves s (.proceed k)
   { (s.setNode a { s.node a with valid := false, locked := false }).setRef k
     .unused with
     used := update s.used a false }
 | relink {k a : Nat} {links : UInt16} (hk : s.ref k = .held a) :
  Moves s (.relink k links)
   ((s.setNode a { s.node a with
    entry := { (s.node a).entry with numLinks := links } }).inodeSync a true)

theorem get_moves {inodeNo memory : Nat} (h : s.get k inodeNo memory = some next) :
  Moves s (.get k inodeNo memory) next := by
 unfold get at h
 rcases ite_none_right_eq_some.mp h with ⟨hrange, h⟩
 cases hfind : s.find inodeNo with
 | some a =>
  rw [hfind] at h
  cases h
  have htest := List.find?_some hfind
  rw [Bool.and_eq_true, decide_eq_true_eq, decide_eq_true_eq] at htest
  exact .found hrange.right.right hrange.right.left
   (List.mem_of_find?_eq_some hfind) htest.left htest.right
 | none =>
  rw [hfind] at h
  simp only at h
  split at h
  · cases h
  rename_i hfree
  cases h
  apply Moves.create hrange.right.right hrange.right.left _ (Bool.not_eq_true _ ▸ hfree)
  intro b hb hpos hno
  have hnot := List.find?_eq_none.mp hfind b hb
  simp [hno, hpos] at hnot

theorem put_moves (h : s.put k = some next) : Moves s (.put k) next := by
 unfold put at h
 split at h
 · rename_i a hk
   split at h
   · rename_i hlast
     split at h
     · cases h
     cases h
     exact .detach hk hlast
   rename_i hlast
   cases h
   exact .drop hk (Bool.not_eq_true _ ▸ hlast)
 · cases h

theorem proceed_moves (h : s.proceed k = some next) : Moves s (.proceed k) next := by
 unfold proceed at h
 split at h
 · rename_i a hk
   cases h
   exact .load hk
 · rename_i a hk
   split at h
   · cases h
     exact .unlock hk
   · cases h
 · rename_i a hk
   rcases of_guard h with ⟨hfree, rfl⟩
   exact .check hk hfree.right
 · rename_i a hk
   cases h
   exact .clear hk
 · rename_i a hk
   cases h
   exact .erase hk
 · rename_i a hk
   cases h
   exact .release hk
 · cases h

variable {l : InodeListLabel}

theorem step_moves (h : s.step l = some next) : Moves s l next := by
 cases l with
 | get k inodeNo memory => exact get_moves h
 | share j k =>
  simp only [step, share] at h
  split at h
  · rename_i a hj
    rcases of_guard h with ⟨hk, rfl⟩
    exact .share hj hk
  · cases h
 | put k => exact put_moves h
 | proceed k => exact proceed_moves h
 | relink k links =>
  simp only [step, relink] at h
  split at h
  · rename_i a hk
    split at h
    · cases h
    cases h
    exact .relink hk
  · cases h

theorem Identified.moves (h : s.Identified)
  (hcalm : forall k inodeNo memory, l = .get k inodeNo memory -> s.Calm inodeNo)
  (hmoves : Moves s l next) : next.Identified := by
 cases hmoves with
 | found hk _ ha _ hpos => exact h.increment ha hpos hk rfl rfl trivial
 | create hk _ hnone hfree => exact h.create hk hnone hfree (hcalm _ _ _ rfl)
 | @share j k a hj hk =>
  have hfits := h.fits j
  rw [hj] at hfits
  exact h.increment (h.attached j a (counts_of hj)) (h.rc_pos (counts_of hj)) hk rfl rfl hfits
 | drop hk _ => exact h.decrement hk
 | detach hk hlast => exact h.detach hk hlast
 | load hk => exact h.load hk
 | unlock hk => exact h.unlock hk
 | check hk hlocked => exact h.check hk hlocked
 | clear hk | erase hk =>
  have hfreeing := congrArg freeing hk
  have hdetached := h.detached_of_freeing hfreeing
  exact h.overwrite hfreeing hdetached rfl rfl hdetached
 | release hk => exact h.release hk
 | relink hk => exact h.relinked hk _

end InodeList
end OSLab.Fs
