import OSLab.Fs.Inode.Clear

/-!
# The table of in-memory inodes

Between two calls nothing is locked, the blocks of the disk represent a consistent
volume, and every in-memory inode is a copy of the entry of an allocated inode.
-/

namespace OSLab.Fs
open Foundation Program InodeEntry Function Volume

structure Synced (sb : DiskLayout) (v : Volume) (s : FsState) : Prop where
 represents : Represents sb s.blocks v
 consistent : v.Consistent sb
 held : s.held = []
 inodes : forall i inode, s.inodes i = some inode ->
  inode.inodeNo = i ∧ i < sb.numInodes.toNat ∧ inode.valid = true ∧
   v.entry i = inode.entry ∧ inode.entry.type ≠ inodeInvalid

variable {sb : DiskLayout} {v v' : Volume} {s next : FsState} {i : Nat}

theorem Represents.addr_volumeOf {blocks : Blocks} (h : Represents sb blocks v)
  (hconsistent : v.Consistent sb) : (volumeOf sb blocks).addr sb = v.addr sb := by
 funext x
 rcases x with ⟨j, slot⟩
 apply addr_congr
 · exact h.entry j
 intro hj htable
 apply h.data
 have hslot := addr_active hj .table
 have hwithin := hconsistent.within (j, .table) (by
  rw [hslot]
  intro hzero
  exact htable (UInt32.toNat_inj.mp hzero))
 rw [hslot] at hwithin
 exact hwithin.left

namespace Synced
variable (h : Synced sb v s)
include h

theorem opened {inode : Inode} (hi : s.inodes i = some inode) : Opened sb v s i inode := by
 rcases h.inodes i inode hi with ⟨hnumber, hbound, hvalid, hentry, htype⟩
 exact ⟨h.represents, h.consistent, hnumber, hbound, hvalid, hentry, htype, h.held⟩

theorem self : Synced sb (volumeOf sb s.blocks) s where
 represents := represents_volumeOf sb s.blocks
 consistent := by
  unfold Consistent
  rw [h.represents.addr_volumeOf h.consistent]
  exact {
   positive := h.consistent.positive
   unique := h.consistent.unique
   marked := by
    intro x hx
    rw [h.represents.bit _ (h.consistent.within x hx).right]
    exact h.consistent.marked x hx
   claimed := by
    intro b hlow hb hbit
    rw [h.represents.bit b (Nat.lt_of_lt_of_le hb sb.dataLimit_le)] at hbit
    exact h.consistent.claimed b hlow hb hbit
   within := h.consistent.within
   metadata := by
    intro no hno
    rw [h.represents.bit no (Nat.lt_of_lt_of_le hno sb.data_area)]
    exact h.consistent.metadata no hno }
 held := h.held
 inodes := by
  intro i inode hi
  have hinode := h.inodes i inode hi
  rw [h.represents.entry i hinode.right.left]
  exact hinode

theorem update {inode : Inode} (hopen : Opened sb v' next i inode)
    (hinodes : next.inodes = s.inodes) (hothers : forall j, j ≠ i -> v'.entry j = v.entry j) :
    Synced sb v' { next with inodes := update next.inodes i (some inode) } := { hopen with
 inodes := by
  intro j other hother
  simp only at hother
  by_cases hj : j = i
  · subst hj
    rw [update_self] at hother
    cases hother
    exact ⟨hopen.number, hopen.bound, hopen.valid, hopen.entry, hopen.type⟩
  rw [update_of_ne hj, hinodes] at hother
  rw [hothers j hj]
  exact h.inodes j other hother }

theorem remove (hrep : Represents sb next.blocks v')
  (hconsistent : v'.Consistent sb) (hheld : next.held = []) (hinodes : next.inodes = s.inodes)
  (hothers : forall j, j ≠ i -> v'.entry j = v.entry j) :
  Synced sb v' { next with inodes := Function.update next.inodes i none } where
 represents := hrep
 consistent := hconsistent
 held := hheld
 inodes := by
  intro j other hother
  simp only at hother
  by_cases hj : j = i
  · rw [hj, update_self] at hother
    cases hother
  rw [update_of_ne hj, hinodes] at hother
  rw [hothers j hj]
  exact h.inodes j other hother

end Synced

/-!
# Entries without addresses
-/

theorem consistent_setEntry_empty {e : InodeEntry} (h : v.Consistent sb)
  (hold : forall slot, v.addr sb (i, slot) = 0)
  (hnew : forall slot, (v.setEntry i e).addr sb (i, slot) = 0) :
  (v.setEntry i e).Consistent sb := by
 have haddr : (v.setEntry i e).addr sb = v.addr sb := by
  funext x
  rcases x with ⟨j, slot⟩
  by_cases hj : j = i
  · rw [hj, hold, hnew]
  · exact addr_setEntry_other hj slot
 unfold Consistent
 rw [haddr]
 exact h

theorem addr_setEntry_invalid {e : InodeEntry} (htype : e.type = inodeInvalid)
  (slot : Slot) : (v.setEntry i e).addr sb (i, slot) = 0 := by
 apply addr_inactive
 intro hactive
 apply hactive.right
 rw [setEntry_entry]
 exact htype

variable {type : InodeType}

theorem addr_setEntry_fresh (hi : i < sb.numInodes.toNat)
  (htype : type ≠ inodeInvalid) (slot : Slot) :
  (v.setEntry i (fresh type)).addr sb (i, slot) = 0 := by
 have hself : (v.setEntry i (fresh type)).addr sb (i, slot) = (fresh type).slotAddr v.data slot :=
  addr_setEntry_self hi htype slot
 rw [hself]
 exact slotAddr_none (fun _ => rfl) rfl slot

/-!
# The calls
-/

theorem Synced.alloc {cost : Nat} (h : Synced sb v s)
  (hi : i < sb.numInodes.toNat) (hfree : (v.entry i).type = inodeInvalid)
  (htype : type ≠ inodeInvalid)
  (hrep : Represents sb next.blocks (v.setEntry i (fresh type)))
  (hspent : Spent s next cost) :
  Synced sb (v.setEntry i (fresh type)) next where
 represents := hrep
 consistent := by
  apply consistent_setEntry_empty h.consistent
  · intro slot
    apply addr_inactive
    intro hactive
    exact hactive.right hfree
  · exact addr_setEntry_fresh hi htype
 held := hspent.held.trans h.held
 inodes := by
  intro j inode hj
  rw [hspent.inodes] at hj
  have hinode := h.inodes j inode hj
  have hne : j ≠ i := by
   intro heq
   apply hinode.right.right.right.right
   rw [← hinode.right.right.right.left, heq]
   exact hfree
  have hentry : (v.setEntry i (fresh type)).entry j = v.entry j := update_of_ne hne _ _
  rw [hentry]
  exact hinode

theorem meets_inodeAllocLoop (htype : type ≠ inodeInvalid)
  (items : List Nat) (hitems : forall i, i ∈ items -> i < sb.numInodes.toNat)
  (h : Synced sb v s) :
  (inodeAllocLoop sb true type items).Meets s always (fun _ next =>
    exists v', Synced sb v' next) := by
 induction items generalizing s with
 | nil => exact meets_stop trivial
 | cons i rest ih =>
  have hi := hitems i List.mem_cons_self
  have hnot : sb.toBlockNo i ∉ s.held := by
   rw [h.held]
   exact List.not_mem_nil
  apply meets_acquireData hnot
  split
  · rename_i hfree
    refine meets_bind (meets_storeBlock rfl (.inl trivial)) ?_
    rintro _ next ⟨hblocks, _, hspent⟩
    apply meets_pure
    have hentry := h.represents.entry i hi
    refine ⟨_, h.alloc hi ?_ htype ?_ hspent⟩
    · rw [← hentry]
      exact hfree
    rw [hblocks]
    exact represents_putEntry h.represents hi _
  apply meets_bind meets_cacheRelease
  rintro _ _ rfl
  apply ih (fun j hj => hitems j (List.mem_cons_of_mem _ hj))
  exact ⟨h.represents, h.consistent, by simp [h.held], h.inodes⟩

theorem meets_inodeAlloc (type : InodeType) (h : Synced sb v s) :
  (inodeAlloc sb true type).Meets s always (fun _ next =>
    exists v', Synced sb v' next) := by
 apply meets_bind (meets_require _ (fun _ => trivial))
 rintro _ _ ⟨rfl, htype⟩
 apply meets_inodeAllocLoop htype _ _ h
 intro i hi
 rw [List.mem_range'_1] at hi
 omega

theorem meets_inodeGet (h : Synced sb v s) (hi : v.Active sb i) :
  (inodeGet sb i).Meets s always (fun _ next =>
    Synced sb v next) := by
 apply meets_bind (meets_require _ (fun _ => trivial))
 rintro _ _ ⟨rfl, _⟩
 apply meets_bind (meets_read _)
 rintro _ _ ⟨rfl, rfl⟩
 split
 · rename_i inode hinode
   apply meets_imp (meets_change _)
   rintro _ _ rfl
   have hopen := h.opened hinode
   have hopen' : Opened sb v s i { inode with rc := inode.rc + 1 } := { hopen with }
   exact h.update hopen' rfl (fun _ _ => rfl)
 refine meets_bind (meets_inodeSync_load h.represents rfl hi.left h.held) ?_
 rintro _ _ ⟨rfl, rfl⟩
 apply meets_imp (meets_change _)
 rintro _ _ rfl
 apply h.update _ rfl (fun _ _ => rfl)
 exact ⟨h.represents, h.consistent, rfl, hi.left, rfl, rfl, hi.right, h.held⟩

theorem meets_inodePut {inode : Inode} (h : Synced sb v s) (hinode : s.inodes i = some inode) :
  (inodePut sb true i inode).Meets s always (fun _ next =>
    exists v', Synced sb v' next) := by
 have hopen := h.opened hinode
 unfold inodePut
 split
 · apply meets_bind (meets_inodeClear hopen)
   rintro cleared s₁ ⟨v₁, hclear⟩
   have hnumber : ({ cleared with entry := { cleared.entry with type := inodeInvalid } } :
    Inode).inodeNo < sb.numInodes.toNat := by
    rw [hclear.number]
    exact hclear.bound
   refine meets_bind (meets_inodeSync_write hclear.represents hclear.valid hnumber
    hclear.held (.inl trivial)) ?_
   rintro _ s₂ ⟨_, hrep, hspent⟩
   apply meets_imp (meets_change _)
   rintro _ _ rfl
   rw [hclear.number] at hrep
   refine ⟨_, h.remove hrep ?_ (hspent.held.trans hclear.held)
    (hspent.inodes.trans hclear.inodes) ?_⟩
   · apply consistent_setEntry_empty hclear.consistent
     · intro slot
       rw [hclear.addr_eq, hclear.result_eq]
       exact slotAddr_cleared _ _ slot
     · exact addr_setEntry_invalid rfl
   · intro j hj
     rw [← hclear.others j hj]
     exact update_of_ne hj _ _
 split
 · apply meets_imp (meets_change _)
   rintro _ _ rfl
   exact ⟨v, h.remove h.represents h.consistent h.held rfl (fun _ _ => rfl)⟩
 apply meets_imp (meets_change _)
 rintro _ _ rfl
 have hopen' : Opened sb v s i { inode with rc := inode.rc - 1 } := { hopen with }
 exact ⟨v, h.update hopen' rfl (fun _ _ => rfl)⟩

end OSLab.Fs
