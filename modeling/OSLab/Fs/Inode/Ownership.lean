import OSLab.Fs.Inode.Volume
import Mathlib.Data.Finset.Card

/-!
# Ownership of blocks

How the addresses of a volume change when a slot gets a new block, when a block of
a file is written, and when an entry is replaced.
-/

namespace OSLab.Fs
open Foundation Function InodeEntry

/--
Ownership together with what keeps it: the bits of the blocks before the data
blocks are set, and only data blocks are owned.
-/
structure Sound (sb : DiskLayout) (addr : Owner -> Nat) (bit : Nat -> Bool) : Prop
  extends Owns addr bit sb.dataStart sb.dataLimit where
 within : forall x, addr x ≠ 0 -> sb.dataStart ≤ addr x ∧ addr x < sb.numBlocks.toNat
 metadata : forall no, no < sb.dataStart -> bit no = true

namespace Sound
variable {sb : DiskLayout} {addr : Owner -> Nat} {bit : Nat -> Bool} (h : Sound sb addr bit)
include h

variable {no : Nat}

theorem dataStart_le_of_free (hfree : bit no = false) : sb.dataStart ≤ no := by
 by_contra hlt
 have hset := h.metadata no (by omega)
 rw [hfree] at hset
 cases hset

theorem ne_zero_of_free (hfree : bit no = false) : no ≠ 0 := by
 have hle := h.dataStart_le_of_free hfree
 have hpos := sb.dataStart_pos
 omega

theorem assign {x : Owner} (hx : addr x = 0)
  (hfree : bit no = false) (hno : no < sb.numBlocks.toNat) :
  Sound sb (update addr x no) (update bit no true) where
 toOwns := h.toOwns.assign hx (h.ne_zero_of_free hfree) hfree
 within := by
  intro y hy
  by_cases hyx : y = x
  · rw [hyx, update_self]
    exact ⟨h.dataStart_le_of_free hfree, hno⟩
  rw [update_of_ne hyx] at hy ⊢
  exact h.within y hy
 metadata := by
  intro b hb
  have hle := h.dataStart_le_of_free hfree
  rw [update_of_ne (by omega)]
  exact h.metadata b hb

theorem drop {x : Owner} (hx : addr x ≠ 0) :
  Sound sb (update addr x 0) (update bit (addr x) false) where
 toOwns := h.toOwns.drop x
 within := by
  intro y hy
  have hyx : y ≠ x := by
   intro heq
   rw [heq, update_self] at hy
   exact hy rfl
  rw [update_of_ne hyx] at hy ⊢
  exact h.within y hy
 metadata := by
  intro b hb
  have hle := (h.within x hx).left
  rw [update_of_ne (by omega)]
  exact h.metadata b hb

end Sound

namespace Volume
variable {sb : DiskLayout} {v w w' : Volume} {i k no : Nat}

def Consistent (sb : DiskLayout) (v : Volume) : Prop := Sound sb (v.addr sb) v.bit

def freeCount (sb : SuperBlock) (v : Volume) : Nat :=
 ((Finset.range sb.dataLimit).filter (fun no => v.bit no = false)).card

/-!
# Addresses
-/

theorem addr_active (h : v.Active sb i) (slot : Slot) :
  v.addr sb (i, slot) = (v.entry i).slotAddr v.data slot :=
 if_pos h

theorem addr_inactive (h : ¬ v.Active sb i) (slot : Slot) : v.addr sb (i, slot) = 0 := if_neg h

variable (contents : BlockData)

theorem addr_setData_active (h : v.Active sb i) (slot : Slot) :
  (v.setData no contents).addr sb (i, slot) =
    (v.entry i).slotAddr (update v.data no contents) slot := by
 have hactive : (v.setData no contents).Active sb i := h
 rw [addr_active hactive]
 rfl

theorem addr_setData_inactive (h : ¬ v.Active sb i) (slot : Slot) :
  (v.setData no contents).addr sb (i, slot) = 0 := by
 have hactive : ¬ (v.setData no contents).Active sb i := h
 rw [addr_inactive hactive]

theorem addr_take_active (h : v.Active sb i) (slot : Slot) : (v.take no).addr sb (i, slot) =
    (v.entry i).slotAddr (v.take no).data slot := by
 have hactive : (v.take no).Active sb i := h
 rw [addr_active hactive]
 rfl

theorem addr_setData (h : forall j, v.addr sb (j, .table) ≠ no) :
  (v.setData no contents).addr sb = v.addr sb := by
 funext x
 rcases x with ⟨j, slot⟩
 by_cases hj : v.Active sb j
 · have htable := h j
   rw [addr_active hj] at htable
   rw [addr_setData_active contents hj, addr_active hj]
   exact slotAddr_congr (fun _ => update_of_ne htable _ _) slot
 · rw [addr_setData_inactive contents hj, addr_inactive hj]

theorem addr_take (h : v.Consistent sb) (hfree : v.bit no = false) :
  (v.take no).addr sb = v.addr sb := by
 have hfresh := h.toOwns.addr_ne_of_free hfree (h.ne_zero_of_free hfree)
 exact addr_setData zeroBlock (fun j => hfresh (j, .table))

theorem addr_congr {j : Nat} (hentry : j < sb.numInodes.toNat -> w.entry j = v.entry j)
  (hdata : v.Active sb j -> (v.entry j).indirect ≠ 0 ->
    w.data (v.entry j).indirect.toNat = v.data (v.entry j).indirect.toNat)
  (slot : Slot) : w.addr sb (j, slot) = v.addr sb (j, slot) := by
 by_cases hj : v.Active sb j
 · have hsame := hentry hj.left
   have hj' : w.Active sb j := by
    refine ⟨hj.left, ?_⟩
    rw [hsame]
    exact hj.right
   rw [addr_active hj', addr_active hj, hsame]
   exact slotAddr_congr (hdata hj) slot
 rw [addr_inactive hj, addr_inactive]
 intro hj'
 apply hj
 refine ⟨hj'.left, ?_⟩
 rw [← hentry hj'.left]
 exact hj'.right

theorem addr_setEntry_other {e : InodeEntry} {j : Nat} (hj : j ≠ i) (slot : Slot) :
  (v.setEntry i e).addr sb (j, slot) = v.addr sb (j, slot) := by
 apply addr_congr
 · intro _
   exact update_of_ne hj _ _
 intro _ _
 rfl

theorem setEntry_entry (v : Volume) (i : Nat) (e : InodeEntry) : (v.setEntry i e).entry i = e :=
 update_self ..

theorem addr_setEntry_self {e : InodeEntry} (hi : i < sb.numInodes.toNat)
  (htype : e.type ≠ inodeInvalid) (slot : Slot) :
  (v.setEntry i e).addr sb (i, slot) = e.slotAddr v.data slot := by
 have hactive : (v.setEntry i e).Active sb i := by
  refine ⟨hi, ?_⟩
  rw [setEntry_entry]
  exact htype
 rw [addr_active hactive, setEntry_entry]
 rfl

/-!
# A new block for a slot
-/

structure Grows (sb : DiskLayout) (w w' : Volume) (x : Owner) (no : Nat) : Prop where
 empty : w.addr sb x = 0
 unused : w.bit no = false
 addr : w'.addr sb = update (w.addr sb) x no
 bit : w'.bit = update w.bit no true
 zero : w'.data no = zeroBlock
 kept : forall j k, w.addr sb (j, .block k) ≠ 0 ->
  w'.data (w.addr sb (j, .block k)) = w.data (w.addr sb (j, .block k))

namespace Grows
variable {x : Owner} (hg : Grows sb w w' x no)
include hg

theorem consistent (h : w.Consistent sb) (hno : no < sb.numBlocks.toNat) : w'.Consistent sb := by
 unfold Consistent
 rw [hg.addr, hg.bit]
 exact h.assign hg.empty hg.unused hno

theorem fileBlock (h : w.Consistent sb) (j k : Nat) : w'.fileBlock sb j k = w.fileBlock sb j k := by
 unfold Volume.fileBlock
 rw [hg.addr]
 by_cases hx : (j, .block k) = x
 · rw [hx, update_self, if_neg (h.ne_zero_of_free hg.unused), if_pos hg.empty, hg.zero]
 rw [update_of_ne hx]
 split
 · rfl
 rename_i haddr
 exact hg.kept j k haddr

theorem freeCount (hno : no < sb.dataLimit) : w'.freeCount sb + 1 = w.freeCount sb := by
 unfold Volume.freeCount
 have herase : (Finset.range sb.dataLimit).filter (fun b => w'.bit b = false) =
  ((Finset.range sb.dataLimit).filter (fun b => w.bit b = false)).erase no := by
  ext b
  rw [hg.bit]
  by_cases hb : b = no
  · simp [hb]
  · simp [hb]
 rw [herase]
 apply Finset.card_erase_add_one
 simp only [Finset.mem_filter, Finset.mem_range]
 exact ⟨hno, hg.unused⟩

end Grows

theorem take_kept (h : w.Consistent sb) (hfree : w.bit no = false) (x : Owner) :
  (w.take no).data (w.addr sb x) = w.data (w.addr sb x) :=
 update_of_ne (h.toOwns.addr_ne_of_free hfree (h.ne_zero_of_free hfree) x) _ _

theorem ofNat_toNat_of_lt (hno : no < sb.numBlocks.toNat) : (UInt32.ofNat no).toNat = no := by
 have hlt : sb.numBlocks.toNat < 2 ^ 32 := UInt32.toNat_lt _
 rw [UInt32.toNat_ofNat']
 exact Nat.mod_eq_of_lt (by omega)

theorem grows_direct (h : w.Consistent sb) (hi : w.Active sb i) (hk : k < inodeNumDirect)
  (hempty : w.addr sb (i, .block k) = 0)
  (hfree : w.bit no = false) (hno : no < sb.numBlocks.toNat) :
  Grows sb w ((w.take no).setEntry i ((w.entry i).setDirect ⟨k, hk⟩ no)) (i, .block k) no where
 empty := hempty
 unused := hfree
 addr := by
  have htype : ((w.entry i).setDirect ⟨k, hk⟩ no).type ≠ inodeInvalid := hi.right
  rw [← addr_take h hfree]
  funext x
  rcases x with ⟨j, slot⟩
  by_cases hj : j = i
  · subst hj
    rw [addr_setEntry_self hi.left htype]
    cases slot with
    | table =>
     rw [update_of_ne (by simp), addr_take_active hi]
     rfl
    | block other =>
     by_cases heq : other = k
     · subst heq
       rw [update_self]
       refine (blockAddr_direct hk).trans ?_
       unfold setDirect
       simp only [update_self]
       exact ofNat_toNat_of_lt hno
     rw [update_of_ne (by simpa using heq), addr_take_active hi]
     change blockAddr _ _ other = blockAddr _ _ other
     by_cases hother : other < inodeNumDirect
     · have hne : (⟨other, hother⟩ : Fin inodeNumDirect) ≠ ⟨k, hk⟩ := by simpa using heq
       rw [blockAddr_direct hother, blockAddr_direct hother]
       unfold setDirect
       simp only [update_of_ne hne]
     unfold blockAddr
     rw [dif_neg hother, dif_neg hother]
     rfl
  · rw [update_of_ne (by simp [hj]), addr_setEntry_other hj]
 bit := rfl
 zero := update_self ..
 kept := fun _ _ _ => take_kept h hfree _

theorem grows_table (h : w.Consistent sb) (hi : w.Active sb i)
  (hempty : (w.entry i).indirect = 0) (hfree : w.bit no = false) (hno : no < sb.numBlocks.toNat) :
  Grows sb w ((w.take no).setEntry i ((w.entry i).setTable no)) (i, .table) no where
 empty := by
  rw [addr_active hi]
  change (w.entry i).indirect.toNat = 0
  rw [hempty]
  rfl
 unused := hfree
 addr := by
  have htype : ((w.entry i).setTable no).type ≠ inodeInvalid := hi.right
  have hno' : ((w.entry i).setTable no).indirect.toNat = no := ofNat_toNat_of_lt hno
  rw [← addr_take h hfree]
  funext x
  rcases x with ⟨j, slot⟩
  by_cases hj : j = i
  · subst hj
    rw [addr_setEntry_self hi.left htype]
    cases slot with
    | table =>
     rw [update_self]
     exact hno'
    | block k =>
     rw [update_of_ne (by simp), addr_take_active hi]
     change blockAddr _ _ k = blockAddr _ _ k
     by_cases hk : k < inodeNumDirect
     · rw [blockAddr_direct hk, blockAddr_direct hk]
       rfl
     -- the new table is zero, like all addresses without a table
     rw [blockAddr_noTable hk hempty]
     by_cases hmax : k < inodeMaxBlocks
     · rw [blockAddr_indirect hk hmax, hno']
       · have hzero : (w.take no).data no = zeroBlock := update_self ..
         rw [hzero, getAddr_zeroBlock]
         rfl
       intro hzero
       have hpos := h.ne_zero_of_free hfree
       rw [hzero] at hno'
       exact hpos hno'.symm
     · exact blockAddr_beyond hmax
  · rw [update_of_ne (by simp [hj]), addr_setEntry_other hj]
 bit := rfl
 zero := update_self ..
 kept := fun _ _ _ => take_kept h hfree _

theorem addr_setTableData (hi : v.Active sb i)
  (hlow : ¬ k < inodeNumDirect) (hk : k < inodeMaxBlocks)
  (htable : (v.entry i).indirect ≠ 0) (hown : forall j, v.addr sb (j, .table) =
    (v.entry i).indirect.toNat -> j = i) (hno : no < sb.numBlocks.toNat) :
  (v.setData (v.entry i).indirect.toNat
      (setAddr (v.data (v.entry i).indirect.toNat) (k - inodeNumDirect)
        (UInt32.ofNat no))).addr sb =
    update (v.addr sb) (i, .block k) no := by
 have hindex : k - inodeNumDirect < inodeNumIndirect := by
  unfold inodeMaxBlocks at hk
  omega
 generalize hcontents : setAddr (v.data (v.entry i).indirect.toNat)
  (k - inodeNumDirect) (UInt32.ofNat no) = contents
 funext x
 rcases x with ⟨j, slot⟩
 by_cases hj : j = i
 · subst hj
   rw [addr_setData_active contents hi]
   cases slot with
   | table =>
    rw [update_of_ne (by simp), addr_active hi]
    rfl
   | block other =>
    change blockAddr _ _ other = _
    by_cases heq : other = k
    · subst heq
      rw [update_self, blockAddr_indirect hlow hk htable,
       update_self, ← hcontents, getAddr_setAddr_same _ _ hindex]
      exact ofNat_toNat_of_lt hno
    rw [update_of_ne (by simpa using heq), addr_active hi]
    change _ = blockAddr _ _ other
    by_cases hother : other < inodeNumDirect
    · rw [blockAddr_direct hother, blockAddr_direct hother]
    by_cases hmax : other < inodeMaxBlocks
    · rw [blockAddr_indirect hother hmax htable,
       blockAddr_indirect hother hmax htable,
       update_self, ← hcontents, getAddr_setAddr_other]
      omega
    · rw [blockAddr_beyond hmax, blockAddr_beyond hmax]
 rw [update_of_ne (by simp [hj])]
 by_cases hactive : v.Active sb j
 · rw [addr_setData_active contents hactive, addr_active hactive]
   apply slotAddr_congr
   intro _
   apply update_of_ne
   intro heq
   exact hj (hown j ((addr_active hactive .table).trans heq))
 · rw [addr_setData_inactive contents hactive, addr_inactive hactive]

variable (h : w.Consistent sb)
include h

theorem grows_indirect (hi : w.Active sb i) (hlow : ¬ k < inodeNumDirect) (hk : k < inodeMaxBlocks)
  (htable : (w.entry i).indirect ≠ 0) (hempty : w.addr sb (i, .block k) = 0)
  (hfree : w.bit no = false) (hno : no < sb.numBlocks.toNat) :
  Grows sb w ((w.take no).setData (w.entry i).indirect.toNat
      (setAddr ((w.take no).data (w.entry i).indirect.toNat) (k - inodeNumDirect)
        (UInt32.ofNat no)))
    (i, .block k) no := by
 have haddr : w.addr sb (i, .table) = (w.entry i).indirect.toNat := addr_active hi .table
 have hfresh := h.toOwns.addr_ne_of_free hfree (h.ne_zero_of_free hfree)
 have hne : no ≠ (w.entry i).indirect.toNat := by
  rw [← haddr]
  exact (hfresh (i, .table)).symm
 have hown : forall j, (w.take no).addr sb (j, .table) = (w.entry i).indirect.toNat -> j = i := by
  intro j heq
  rw [addr_take h hfree] at heq
  have hnonzero : w.addr sb (j, .table) ≠ 0 := by
   rw [heq]
   intro hzero
   exact htable (UInt32.toNat_inj.mp hzero)
  have hsame := h.unique _ _ hnonzero (heq.trans haddr.symm)
  exact (Prod.mk.inj hsame).left
 exact {
  empty := hempty
  unused := hfree
  addr := by
   rw [← addr_take h hfree]
   have hactive : (w.take no).Active sb i := hi
   exact addr_setTableData hactive hlow hk htable hown hno
  bit := rfl
  zero := (update_of_ne hne _ _).trans (update_self ..)
  kept := by
   intro j other hother
   have hdata : w.addr sb (j, .block other) ≠ (w.entry i).indirect.toNat := by
    rw [← haddr]
    intro heq
    have hsame := h.unique _ _ hother heq
    cases hsame
   exact (update_of_ne hdata _ _).trans (take_kept h hfree _) }

/-!
# Writing a block of a file
-/

theorem addr_setFileBlock (haddr : w.addr sb (i, .block k) ≠ 0) (contents : BlockData) :
  (w.setData (w.addr sb (i, .block k)) contents).addr sb = w.addr sb := by
 apply addr_setData
 intro j heq
 have hsame := h.unique _ _ haddr heq.symm
 cases hsame

theorem fileBlock_setFileBlock
  (haddr : w.addr sb (i, .block k) ≠ 0) (contents : BlockData) (j other : Nat) :
  (w.setData (w.addr sb (i, .block k)) contents).fileBlock sb j other =
    if (j, other) = (i, k) then contents
    else w.fileBlock sb j other := by
 unfold fileBlock
 rw [addr_setFileBlock h haddr]
 by_cases heq : (j, other) = (i, k)
 · cases heq
   rw [if_neg haddr, if_pos rfl]
   exact update_self ..
 rw [if_neg heq]
 split
 · rfl
 rename_i hother
 apply update_of_ne
 intro hsame
 have howner := h.unique _ _ hother hsame
 apply heq
 simp only [Prod.mk.injEq, Slot.block.injEq] at howner
 rw [howner.left, howner.right]

end OSLab.Fs.Volume
