import OSLab.Fs.Inode.Table

/-!
# Block ownership

A disk on which the blocks belong to files in the way `Volume.Fsck` says stays so
under every sequence of calls, if the disk is formatted: the bits of the blocks
before the data are set and the stored addresses are those of data blocks.
-/

namespace OSLab.Fs
open Foundation TransitionSystem Program InodeEntry FsState

structure FsState.Start (sb : DiskLayout) (s : FsState) : Prop where
 held : s.held = []
 inodes : forall i, s.inodes i = none
 fsck : (volumeOf sb s.blocks).Fsck sb

def inodeSystem (sb : DiskLayout) : TransitionSystem FsState InodeLabel where
 initial := Start sb
 step := step sb

/--
What the callers see to: `inode_get` is for an allocated inode.  Reads, which are
about the contents of files, are left out.
-/
def FsState.OfAllocated (sb : DiskLayout) (s : FsState) : InodeLabel -> Prop
 | .get i => (volumeOf sb s.blocks).Active sb i
 | .read _ _ _ => False
 | _ => True

instance (sb : DiskLayout) (s : FsState) (l : InodeLabel) : Decidable (s.OfAllocated sb l) := by
 cases l <;> unfold OfAllocated <;> infer_instance

/--
What `mkfs` makes sure of: the blocks before the data are marked, and the files
have data blocks only.
-/
structure Volume.Formatted (sb : DiskLayout) (v : Volume) : Prop where
 metadata : forall no, no < sb.dataStart -> v.bit no = true
 within : forall x, v.addr sb x ≠ 0 -> sb.dataStart ≤ v.addr sb x ∧
   v.addr sb x < sb.numBlocks.toNat

variable {sb : DiskLayout} {v : Volume} {s next : FsState} {i : Nat}

theorem synced_start (h : s.Start sb) (hformat : (volumeOf sb s.blocks).Formatted sb) :
  Synced sb (volumeOf sb s.blocks) s where
 represents := represents_volumeOf sb s.blocks
 consistent := {
  toOwns := h.fsck
  within := hformat.within
  metadata := hformat.metadata }
 held := h.held
 inodes := by
  intro i inode hi
  rw [h.inodes] at hi
  cases hi

/-!
# Steps
-/

section
variable (h : Synced sb v s)
include h

theorem Synced.active (hi : (volumeOf sb s.blocks).Active sb i) : v.Active sb i := by
 refine ⟨hi.left, ?_⟩
 rw [← h.represents.entry i hi.left]
 exact hi.right

theorem meets_onInode {call : Inode -> FsProgram Inode}
  (hcall : forall inode, Opened sb v s i inode ->
    (call inode).Meets s always (fun result next => exists v',
      Opened sb v' next i result ∧ next.inodes = s.inodes ∧
        forall j, j ≠ i -> v'.entry j = v.entry j)) :
  (onInode i call).Meets s always (fun _ next => exists v', Synced sb v' next) := by
 apply meets_bind (meets_read _)
 rintro _ _ ⟨rfl, rfl⟩
 split
 · exact meets_stop trivial
 rename_i inode hinode
 apply meets_bind (hcall inode (h.opened hinode))
 rintro result s₁ ⟨v', hopen, hinodes, hothers⟩
 apply meets_imp (meets_change _)
 rintro _ _ rfl
 exact ⟨v', h.update hopen hinodes hothers⟩

theorem meets_call {l : InodeLabel} (hguard : s.OfAllocated sb l) :
  (call sb l).Meets s always (fun _ next => exists v', Synced sb v' next) := by
 cases l with
 | beginOp =>
  apply meets_bind (meets_require _ (fun _ => trivial))
  rintro _ _ ⟨rfl, _⟩
  apply meets_imp (meets_change _)
  rintro _ _ rfl
  exact ⟨v, h.represents, h.consistent, h.held, h.inodes⟩
 | endOp =>
  apply meets_imp (meets_change _)
  rintro _ _ rfl
  exact ⟨v, h.represents, h.consistent, h.held, h.inodes⟩
 | alloc type =>
  apply meets_bind (meets_inodeAlloc type h)
  intro _ s₁ h₁
  exact meets_pure h₁
 | get i =>
  apply meets_imp (meets_inodeGet h (h.active hguard))
  intro _ s₁ h₁
  exact ⟨v, h₁⟩
 | write i src offset count =>
  apply meets_onInode h
  intro inode hopen
  apply meets_bind (meets_inodeWrite hopen (.inl trivial) (fun _ => room_always))
  rintro ⟨n, result⟩ s₁ ⟨_, _, v', hwrote, _⟩
  apply meets_pure
  exact ⟨v', hwrote.toOpened, hwrote.inodes, hwrote.others⟩
 | read i offset count => exact absurd hguard id
 | clear i =>
  apply meets_onInode h
  intro inode hopen
  apply meets_imp (meets_inodeClear hopen)
  rintro result s₁ ⟨v', hclear⟩
  exact ⟨v', hclear.toOpened, hclear.inodes, hclear.others⟩
 | put i =>
  apply meets_bind (meets_read _)
  rintro _ _ ⟨rfl, rfl⟩
  split
  · exact meets_stop trivial
  rename_i inode hinode
  exact meets_inodePut h hinode

theorem synced_step {l : InodeLabel} (hguard : s.OfAllocated sb l)
  (hstep : (inodeSystem sb).step s l = some next) : exists v', Synced sb v' next := by
 rcases step_eq_some hstep with ⟨x, hcall⟩
 exact meets_run (meets_call h hguard) hcall
end

theorem fsck_of_reaches {start : FsState} (hstart : (inodeSystem sb).initial start)
  (hformat : (volumeOf sb start.blocks).Formatted sb)
  (hrun : Reaches (inodeSystem sb) (FsState.OfAllocated sb) start s) :
  (volumeOf sb s.blocks).Fsck sb := by
 have hsynced : exists v, Synced sb v s := by
  apply reaches_invariant (fun s => exists v, Synced sb v s) _ hrun
  · exact ⟨_, synced_start hstart hformat⟩
  rintro mid l after _ ⟨v, hmid⟩ hguard hstep
  exact synced_step hmid hguard hstep
 rcases hsynced with ⟨v, hv⟩
 exact hv.self.consistent.toOwns

/-!
# Disks with small files

If every file has at most its first direct block, ownership is a finite condition.
-/

namespace Volume

def SmallFiles (sb : DiskLayout) (v : Volume) : Prop :=
 forall i, i < sb.numInodes.toNat -> (v.entry i).type ≠ inodeInvalid ->
  (forall k : Fin inodeNumDirect, k.val ≠ 0 -> (v.entry i).addrs k = 0) ∧ (v.entry i).indirect = 0

def firstAddr (sb : DiskLayout) (v : Volume) (i : Nat) : Nat := v.addr sb (i, .block 0)

structure SmallFsck (sb : DiskLayout) (v : Volume) : Prop where
 unique : forall i, i < sb.numInodes.toNat -> forall j, j < sb.numInodes.toNat ->
  v.firstAddr sb i ≠ 0 -> v.firstAddr sb i = v.firstAddr sb j -> i = j
 marked : forall i, i < sb.numInodes.toNat -> v.firstAddr sb i ≠ 0 ->
  v.bit (v.firstAddr sb i) = true
 claimed : forall b, b < sb.dataLimit -> sb.dataStart ≤ b -> v.bit b = true ->
  exists i, i < sb.numInodes.toNat ∧ v.firstAddr sb i = b

instance (sb : DiskLayout) (v : Volume) : Decidable (v.SmallFiles sb) :=
 inferInstanceAs (Decidable (forall i, i < sb.numInodes.toNat -> _))

instance (sb : DiskLayout) (v : Volume) : Decidable (v.SmallFsck sb) :=
 decidable_of_iff (_ ∧ _ ∧ _) ⟨fun h => ⟨h.left, h.right.left, h.right.right⟩,
   fun h => ⟨h.unique, h.marked, h.claimed⟩⟩

variable (h : v.SmallFiles sb)
include h

theorem SmallFiles.addr (i : Nat) {slot : Slot}
  (hslot : slot ≠ .block 0) : v.addr sb (i, slot) = 0 := by
 by_cases hi : v.Active sb i
 · have hsmall := h i hi.left hi.right
   rw [addr_active hi]
   cases slot with
   | block k =>
    change (v.entry i).blockAddr v.data k = 0
    by_cases hk : k < inodeNumDirect
    · have hzero := hsmall.left ⟨k, hk⟩ (by
       rintro rfl
       exact hslot rfl)
      rw [blockAddr_direct hk, hzero]
      rfl
    · exact blockAddr_noTable hk hsmall.right
   | table =>
    change (v.entry i).indirect.toNat = 0
    rw [hsmall.right]
    rfl
 · exact addr_inactive hi slot

theorem SmallFiles.owner {x : Owner} (hx : v.addr sb x ≠ 0) :
  x.1 < sb.numInodes.toNat ∧ x = (x.1, .block 0) := by
 rcases x with ⟨i, slot⟩
 constructor
 · by_contra hi
   apply hx
   apply addr_inactive
   intro hactive
   exact hi hactive.left
 by_contra hslot
 apply hx
 apply h.addr
 rintro rfl
 exact hslot rfl

theorem SmallFiles.fsck_iff : v.Fsck sb ↔ v.SmallFsck sb := by
 constructor
 · intro hfsck
   refine ⟨?_, ?_, ?_⟩
   · intro i _ j _ hi heq
     exact congrArg Prod.fst (hfsck.unique _ _ hi heq)
   · intro i _ hi
     exact hfsck.marked _ hi
   intro b hb hlow hbit
   rcases hfsck.claimed b hlow hb hbit with ⟨x, hx⟩
   have hpos := hfsck.positive
   rcases h.owner (x := x) (by omega) with ⟨hbound, howner⟩
   rw [howner] at hx
   exact ⟨x.1, hbound, hx⟩
 intro hsmall
 refine ⟨sb.dataStart_pos, ?_, ?_, ?_⟩
 · intro x y hx heq
   rcases h.owner hx with ⟨hi, hx'⟩
   rw [heq] at hx
   rcases h.owner hx with ⟨hj, hy'⟩
   rw [← heq] at hx
   rw [hx', hy'] at heq
   rw [hx'] at hx
   rw [hx', hy', hsmall.unique _ hi _ hj hx heq]
 · intro x hx
   rcases h.owner hx with ⟨hi, hx'⟩
   rw [hx'] at hx ⊢
   exact hsmall.marked _ hi hx
 intro b hlow hb hbit
 rcases hsmall.claimed b hb hlow hbit with ⟨i, _, hi⟩
 exact ⟨_, hi⟩

theorem SmallFiles.formatted (hmetadata : forall no, no < sb.dataStart -> v.bit no)
  (hwithin : forall i, i < sb.numInodes.toNat -> v.firstAddr sb i ≠ 0 ->
    sb.dataStart ≤ v.firstAddr sb i ∧ v.firstAddr sb i < sb.numBlocks.toNat) :
  v.Formatted sb where
 metadata := hmetadata
 within := by
  intro x hx
  rcases h.owner hx with ⟨hi, hx'⟩
  rw [hx'] at hx ⊢
  exact hwithin _ hi hx

end Volume

/-!
# A small disk

Inode blocks 2 and 3 for 16 inodes, bitmap block 4, and the data from block 5 on.
-/

def smallDisk : DiskLayout where
 numBlocks := 232
 numInodes := 16
 numLogBlocks := 64
 logStart := 168
 inodeStart := 2
 bitmapStart := 4
 dataStart := 5
 inode_area := by decide
 bitmap_area := by decide
 data_area := by decide
 swap_area := by decide

def smallFile (addr : UInt32) : InodeEntry :=
 { fresh inodeRegular with
   numBytes := 512
   addrs := fun k => if k.val = 0 then addr else 0 }

def smallState (first second : InodeEntry) (marked : List Nat) (data : BlockData) : FsState where
 blocks := fun no =>
  if no = 2 then putEntry zeroBlock 1 first
  else if no = 3 then putEntry zeroBlock 8 second
  else if no = 4 then marked.foldl Common.bitmapSet zeroBlock
  else if no = 20 then data
  else zeroBlock
 held := []
 header := []
 rm := 0
 inodes := fun _ => none

theorem start_smallState {sb : DiskLayout} {first second : InodeEntry}
  {marked : List Nat} {data : BlockData} (h : (volumeOf sb
      (smallState first second marked data).blocks).SmallFiles sb ∧
    (volumeOf sb (smallState first second marked data).blocks).SmallFsck sb) :
  (inodeSystem sb).initial (smallState first second marked data) where
 held := rfl
 inodes := fun _ => rfl
 fsck := h.left.fsck_iff.mpr h.right

open InodeLabel in
/-- A new file on a formatted disk. -/
theorem fsck_of_new_file : exists s, Reaches (inodeSystem smallDisk) (FsState.OfAllocated smallDisk)
      (smallState (fresh inodeRegular) (smallFile 20) [0, 1, 2, 3, 4, 20] zeroBlock) s ∧
    (volumeOf smallDisk s.blocks).firstAddr smallDisk 2 = 5 ∧
    (volumeOf smallDisk s.blocks).Fsck smallDisk := by
 have hsmall : (volumeOf smallDisk (smallState
  (fresh inodeRegular) (smallFile 20) [0, 1, 2, 3, 4, 20]
  zeroBlock).blocks).SmallFiles smallDisk ∧
  (volumeOf smallDisk (smallState
   (fresh inodeRegular) (smallFile 20) [0, 1, 2, 3, 4, 20]
   zeroBlock).blocks).SmallFsck smallDisk := by
  decide +kernel
 have hformat := hsmall.left.formatted (by decide +kernel) (by decide +kernel)
 rcases exists_reaches_of_execute (inodeSystem smallDisk) (OfAllocated smallDisk)
  (smallState (fresh inodeRegular) (smallFile 20) [0, 1, 2, 3, 4, 20] zeroBlock)
  [beginOp, alloc inodeRegular, get 2, write 2 (fun _ => 7) 0 1, endOp, beginOp, get 8, put 8]
  (fun s => (volumeOf smallDisk s.blocks).firstAddr smallDisk 2 = 5)
  (by decide +kernel) with ⟨s, hrun, haddr⟩
 exact ⟨s, hrun, haddr, fsck_of_reaches (start_smallState hsmall) hformat hrun⟩

def FsState.brokenFsck (s : FsState) : Bool :=
 decide ((volumeOf smallDisk s.blocks).SmallFiles smallDisk ∧
  ¬ (volumeOf smallDisk s.blocks).SmallFsck smallDisk)

theorem exists_broken_of_execute (start : FsState) (schedule : List InodeLabel)
  (h : (execute (inodeSystem smallDisk) (OfAllocated smallDisk) start
    schedule).any brokenFsck) :
  exists s, Reaches (inodeSystem smallDisk) (OfAllocated smallDisk) start s ∧
    ¬ (volumeOf smallDisk s.blocks).Fsck smallDisk := by
 rcases exists_reaches_of_execute _ _ start schedule _ h with ⟨s, hrun, hbroken⟩
 refine ⟨s, hrun, ?_⟩
 rw [hbroken.left.fsck_iff]
 exact hbroken.right

open InodeLabel in
/--
On a disk that is not formatted a write can destroy the ownership of blocks: an
inode block whose bit is clear is handed out as a data block; a file whose block
is an inode block overwrites the inodes in it; and the bit for an address beyond
the disk lies in a data block.
-/
theorem fsck_broken_by_write : (exists start, (inodeSystem smallDisk).initial start ∧
    (volumeOf smallDisk start.blocks).firstAddr smallDisk 1 = 0 ∧
    exists s, Reaches (inodeSystem smallDisk) (FsState.OfAllocated smallDisk) start s ∧
      ¬ (volumeOf smallDisk s.blocks).Fsck smallDisk) ∧
  (exists start, (inodeSystem smallDisk).initial start ∧
    (volumeOf smallDisk start.blocks).firstAddr smallDisk 1 = 3 ∧
    exists s, Reaches (inodeSystem smallDisk) (FsState.OfAllocated smallDisk) start s ∧
      ¬ (volumeOf smallDisk s.blocks).Fsck smallDisk) ∧
  (exists start, (inodeSystem smallDisk).initial start ∧
    (volumeOf smallDisk start.blocks).firstAddr smallDisk 1 = 65536 ∧
    exists s, Reaches (inodeSystem smallDisk) (FsState.OfAllocated smallDisk) start s ∧
      ¬ (volumeOf smallDisk s.blocks).Fsck smallDisk) := by
 refine ⟨⟨smallState (fresh inodeRegular) (smallFile 20) [0, 1, 2, 20]
  zeroBlock, ?_, ?_, ?_⟩,
  ⟨smallState (smallFile 3) (smallFile 20) [0, 1, 2, 3, 4, 20] zeroBlock, ?_, ?_, ?_⟩,
  ⟨smallState (smallFile 65536) (smallFile 20) [0, 1, 2, 3, 4, 20]
   (Common.bitmapSet zeroBlock 0), ?_, ?_, ?_⟩⟩
 · exact start_smallState (by decide +kernel)
 · decide +kernel
 · exact exists_broken_of_execute _ [beginOp, get 1, write 1 (fun _ => 7) 0 1] (by decide +kernel)
 · exact start_smallState (by decide +kernel)
 · decide +kernel
 · exact exists_broken_of_execute _ [beginOp, get 1, write 1 (fun _ => 0) 0 512] (by decide +kernel)
 · exact start_smallState (by decide +kernel)
 · decide +kernel
 · exact exists_broken_of_execute _ [beginOp, get 8, write 8 (fun _ => 0) 0 1] (by decide +kernel)

end OSLab.Fs
