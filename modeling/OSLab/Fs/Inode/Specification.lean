import OSLab.Fs.Inode.Operations
import OSLab.Fs.Inode.Ownership

/-!
# What the operations do to a volume

One specification for each function of the cache.  Every one of them says when the
function may stop: when the operation has no log entry left, when no block is free,
and never because of a block that the thread holds.
-/

namespace OSLab.Fs
open Foundation Program List
variable {sb : DiskLayout} {v : Volume} {s : FsState} {stops : Stop -> Prop} {no i : Nat}

structure Spent (s next : FsState) (cost : Nat) : Prop where
 held : next.held = s.held
 inodes : next.inodes = s.inodes
 header : forall no, no ∈ s.header -> no ∈ next.header
 rm : s.rm ≤ next.rm + cost

theorem Spent.trans {mid next : FsState} {cost more : Nat} (h : Spent s mid cost)
  (hmore : Spent mid next more) : Spent s next (cost + more) where
 held := hmore.held.trans h.held
 inodes := hmore.inodes.trans h.inodes
 header := fun no hno => hmore.header no (h.header no hno)
 rm := by
  have hfirst := h.rm
  have hsecond := hmore.rm
  omega

theorem Spent.mono {next : FsState} {cost more : Nat} (h : Spent s next cost)
    (hle : cost ≤ more) : Spent s next more := { h with
 rm := Nat.le_trans h.rm (Nat.add_le_add_left hle _) }

/-- `entries` of the `rm` log entries and `blocks` of the `free` blocks may be needed. -/
structure Room (stops : Stop -> Prop) (entries rm blocks free : Nat) : Prop where
 log : stops .logFull ∨ entries ≤ rm
 disk : stops .noBlock ∨ blocks ≤ free

theorem room_always {entries rm blocks free : Nat} : Room always entries rm blocks free :=
 ⟨.inl trivial, .inl trivial⟩

theorem Room.imp {entries rm blocks free entries' rm' blocks' free' : Nat}
  (h : Room stops entries rm blocks free) (hlog : entries ≤ rm -> entries' ≤ rm')
  (hdisk : blocks ≤ free -> blocks' ≤ free') : Room stops entries' rm' blocks' free' :=
 ⟨h.log.imp_right hlog, h.disk.imp_right hdisk⟩

theorem sync_cost_le (header : List Nat) (no : Nat) : (if no ∈ header then 0 else 1) ≤ 1 := by
 split
 · exact Nat.zero_le 1
 · exact le_rfl

/-!
# Primitive steps
-/

theorem meets_cacheAcquire (h : no ∉ s.held) : (cacheAcquire no).Meets s stops
    (fun _ next => { s with held := no :: s.held } = next) := by
 refine meets_bind (meets_require _ (fun hnot => absurd h hnot)) ?_
 rintro _ _ ⟨rfl, _⟩
 exact meets_change _

theorem meets_cacheRelease : (cacheRelease no).Meets s stops
    (fun _ next => { s with held := s.held.erase no } = next) :=
 meets_change _

theorem meets_blockData :
  (blockData no).Meets s stops (fun data next => s.blocks no = data ∧ s = next) :=
 meets_read _

theorem meets_acquireData {result : Type} {rest : BlockData -> FsProgram result}
  {post : result -> FsState -> Prop} (h : no ∉ s.held)
  (hrest : (rest (s.blocks no)).Meets { s with held := no :: s.held } stops post) :
  (cacheAcquire no >>= fun _ => blockData no >>= rest).Meets s stops post := by
 apply meets_bind (meets_cacheAcquire h)
 rintro _ _ rfl
 apply meets_bind meets_blockData
 rintro _ _ ⟨rfl, rfl⟩
 exact hrest

theorem meets_cacheSync (hroom : stops .logFull ∨ no ∈ s.header ∨ 0 < s.rm) :
  (cacheSync true no).Meets s stops (fun _ next =>
    next.blocks = s.blocks ∧ no ∈ next.header ∧ Spent s next (if no ∈ s.header then 0 else 1)) := by
 unfold cacheSync
 rw [if_pos rfl]
 apply meets_bind (meets_read _)
 rintro _ _ ⟨rfl, rfl⟩
 split
 · rename_i hlogged
   exact meets_pure ⟨rfl, hlogged, rfl, rfl, fun _ h => h, le_rfl⟩
 rename_i hlogged
 have hrequire : ¬ 0 < s.rm -> stops .logFull := by
  intro hnot
  rcases hroom with hstops | hmem | hpos
  · exact hstops
  · exact absurd hmem hlogged
  · exact absurd hpos hnot
 refine meets_bind (meets_require _ hrequire) ?_
 rintro _ _ ⟨rfl, hpos⟩
 apply meets_imp (meets_change _)
 rintro _ _ rfl
 refine ⟨rfl, mem_append_right _ mem_cons_self, rfl, rfl, ?_, ?_⟩
 · intro other hother
   exact mem_append_left _ hother
 change _ ≤ _ - 1 + 1
 omega

theorem meets_storeBlock {held : List Nat} {data : BlockData}
  (hheld : s.held = no :: held) (hroom : stops .logFull ∨ no ∈ s.header ∨ 0 < s.rm) :
  (storeBlock true no data).Meets s stops (fun _ next =>
    next.blocks = Function.update s.blocks no data ∧ no ∈ next.header ∧
      Spent { s with held := held } next (if no ∈ s.header then 0 else 1)) := by
 apply meets_bind (meets_change _)
 rintro _ _ rfl
 refine meets_bind (meets_cacheSync (by exact hroom)) ?_
 rintro _ synced ⟨hblocks, hlogged, hspent⟩
 apply meets_imp (meets_change _)
 rintro _ _ rfl
 refine ⟨hblocks, hlogged, ?_, hspent.inodes, hspent.header, hspent.rm⟩
 rw [hspent.held]
 rw [hheld, erase_cons_head]

/-!
# The bitmap
-/

variable {bitmap : BlockData}

theorem firstClear_some {bound i : Nat} (h : firstClear bitmap bound = some i) :
  i < bound ∧ Common.bitmapGet bitmap i = false := by
 have hmem := mem_of_find?_eq_some h
 have hclear := find?_some h
 rw [mem_range] at hmem
 exact ⟨hmem, by simpa using hclear⟩

theorem firstClear_none {bound i : Nat} (h : firstClear bitmap bound = none) (hi : i < bound) :
  Common.bitmapGet bitmap i := by
 have hall := find?_eq_none.mp h i (mem_range.mpr hi)
 simpa using hall

variable {index : Nat}

theorem bit_of_index (hrep : Represents sb s.blocks v)
  (hindex : index % bitPerBlock = 0) (hi : i < bitPerBlock)
  (hno : index + i < sb.numBlocks.toNat) :
  sb.bitmapBlock (index + i) = sb.bitmapBlock index ∧ (index + i) % bitPerBlock = i ∧
    Common.bitmapGet (s.blocks (sb.bitmapBlock index)) i = v.bit (index + i) := by
 have hblock : sb.bitmapBlock (index + i) = sb.bitmapBlock index := by
  unfold SuperBlock.bitmapBlock bitPerBlock blockSize at *
  omega
 have hmod : (index + i) % bitPerBlock = i := by
  unfold bitPerBlock blockSize at *
  omega
 refine ⟨hblock, hmod, ?_⟩
 rw [← hrep.bit _ hno]
 unfold volumeOf
 simp only
 rw [hblock, hmod]

theorem meets_takeBlock (hrep : Represents sb s.blocks v)
  {held : List Nat} (hheld : s.held = sb.bitmapBlock index :: held)
  (hindex : index % bitPerBlock = 0) (hi : i < bitPerBlock)
  (hno : index + i < sb.numBlocks.toNat) (hdata : sb.dataStart ≤ index + i)
  (hfresh : index + i ∉ held) (hroom : stops .logFull ∨ 2 ≤ s.rm) :
  (takeBlock sb true index i).Meets s stops (fun result next =>
    result = index + i ∧ Represents sb next.blocks (v.take (index + i)) ∧
      index + i ∈ next.header ∧ Spent { s with held := held } next 2) := by
 rcases bit_of_index hrep hindex hi hno with ⟨hblock, hmod, _⟩
 have hset := represents_bitmapSet hrep hno
 rw [hblock, hmod] at hset
 have hfirst : stops .logFull ∨ sb.bitmapBlock index ∈ s.header ∨ 0 < s.rm := by
  refine hroom.imp_right (fun hrm => .inr ?_)
  omega
 apply meets_bind meets_blockData
 rintro _ _ ⟨rfl, rfl⟩
 apply meets_bind (meets_storeBlock hheld hfirst)
 rintro _ marked ⟨hblocks, _, hspent⟩
 have hmarked := hspent.mono (sync_cost_le _ _)
 have hcost : s.rm ≤ marked.rm + 1 := hmarked.rm
 have hfresh' : index + i ∉ marked.held := by
  rw [hmarked.held]
  exact hfresh
 apply meets_bind (meets_cacheAcquire hfresh')
 rintro _ _ rfl
 have hsecond : stops .logFull ∨ index + i ∈ marked.header ∨ 0 < marked.rm := by
  refine hroom.imp_right (fun hrm => .inr ?_)
  omega
 refine meets_bind (meets_storeBlock rfl (by exact hsecond)) ?_
 rintro _ next ⟨hzeroed, hlogged, hspent'⟩
 apply meets_pure
 refine ⟨rfl, ?_, hlogged, ?_⟩
 · rw [hzeroed]
   rw [hblocks]
   exact represents_setData hset hdata zeroBlock
 have hzero : Spent marked next 1 := hspent'.mono (sync_cost_le _ _)
 exact hmarked.trans hzero

def HoldsUsed (sb : DiskLayout) (v : Volume) (s : FsState) : Prop :=
 forall no, no ∈ s.held -> sb.dataStart ≤ no ∧ v.bit no = true

structure Allocates (sb : DiskLayout) (v : Volume) (s : FsState) (no : Nat)
  (next : FsState) : Prop where
 unused : v.bit no = false
 limit : no < sb.dataLimit
 represents : Represents sb next.blocks (v.take no)
 logged : no ∈ next.header
 spent : Spent s next 2

def ClearAmong (sb : DiskLayout) (v : Volume) (indices : List Nat) : Prop :=
 exists index, index ∈ indices ∧ exists i, i < bitPerBlock ∧
  index + i < sb.dataLimit ∧ v.bit (index + i) = false

theorem meets_allocLoop (hrep : Represents sb s.blocks v)
  (hmeta : forall no, no < sb.dataStart -> v.bit no)
  (hheld : HoldsUsed sb v s) (indices : List Nat) (hindices : forall index, index ∈ indices ->
    index % bitPerBlock = 0 ∧ index < sb.dataLimit)
  (hrm : stops .logFull ∨ 2 ≤ s.rm)
  (hclear : stops .noBlock ∨ ClearAmong sb v indices) :
  (allocLoop sb true indices).Meets s stops (Allocates sb v s) := by
 have hlimit := sb.dataLimit_le
 induction indices with
 | nil =>
  apply meets_stop
  rcases hclear with hstops | ⟨index, hmem, _⟩
  · exact hstops
  · cases hmem
 | cons index rest ih =>
  rcases hindices index mem_cons_self with ⟨hindex, hlt⟩
  have hbm : sb.bitmapBlock index ∉ s.held := by
   intro hmem
   have hlow := sb.bitmapBlock_lt (Nat.lt_of_lt_of_le hlt hlimit)
   have hle := (hheld _ hmem).left
   omega
  apply meets_acquireData hbm
  cases hfind : firstClear (s.blocks (sb.bitmapBlock index))
   (min bitPerBlock (sb.dataLimit - index)) with
  | some i =>
   rcases firstClear_some hfind with ⟨hi, hunset⟩
   have hbits : i < bitPerBlock := by omega
   have hno : index + i < sb.dataLimit := by omega
   have hbit := (bit_of_index hrep hindex hbits (by omega)).right.right
   rw [hunset] at hbit
   have hdata : sb.dataStart ≤ index + i := by
    by_contra hlow
    rw [hmeta _ (by omega)] at hbit
    cases hbit
   have hfresh : index + i ∉ s.held := by
    intro hmem
    have hused := (hheld _ hmem).right
    rw [← hbit] at hused
    cases hused
   refine meets_imp (meets_takeBlock (by exact hrep) rfl hindex hbits (by omega)
    hdata hfresh (by exact hrm)) ?_
   rintro _ next ⟨rfl, hnext, hlogged, hspent⟩
   exact ⟨hbit.symm, hno, hnext, hlogged, hspent⟩
  | none =>
   apply meets_bind meets_cacheRelease
   rintro _ _ rfl
   simp only [erase_cons_head]
   apply ih (fun other hother => hindices other (mem_cons_of_mem _ hother))
   refine hclear.imp_right ?_
   rintro ⟨other, hother, i, hi, hno, hbit⟩
   rcases mem_cons.mp hother with heq | hrest
   · subst heq
     have hset := firstClear_none hfind (i := i) (by omega)
     rw [(bit_of_index hrep hindex hi (by omega)).right.right, hbit] at hset
     cases hset
   · exact ⟨other, hrest, i, hi, hno, hbit⟩

theorem bitmapIndices_aligned (h : index ∈ sb.bitmapIndices) :
  index % bitPerBlock = 0 ∧ index < sb.dataLimit := by
 rcases mem_map.mp h with ⟨n, hn, rfl⟩
 rw [mem_range] at hn
 unfold bitPerBlock blockSize at *
 omega

theorem clearAmong_of_free (hno : no < sb.dataLimit) (hfree : v.bit no = false) :
  ClearAmong sb v sb.bitmapIndices := by
 refine ⟨no / bitPerBlock * bitPerBlock, ?_, no % bitPerBlock, ?_, ?_⟩
 · apply mem_map.mpr
   refine ⟨no / bitPerBlock, ?_, rfl⟩
   rw [mem_range]
   unfold bitPerBlock blockSize
   omega
 · exact Nat.mod_lt _ (by decide)
 rw [Nat.div_add_mod']
 exact ⟨hno, hfree⟩

section
variable (hrep : Represents sb s.blocks v)
include hrep

theorem meets_cacheAlloc
  (hmeta : forall no, no < sb.dataStart -> v.bit no) (hheld : HoldsUsed sb v s)
  (hroom : Room stops 2 s.rm 1 (v.freeCount sb)) :
  (cacheAlloc sb true).Meets s stops (Allocates sb v s) := by
 refine meets_allocLoop hrep hmeta hheld _ (fun _ => bitmapIndices_aligned) hroom.log
  (hroom.disk.imp_right fun hfree => ?_)
 rcases Finset.card_pos.mp hfree with ⟨no, hno⟩
 rw [Finset.mem_filter, Finset.mem_range] at hno
 exact clearAmong_of_free hno.left hno.right

theorem meets_cacheFree (hno : no < sb.numBlocks.toNat)
  (hheld : forall b, b ∈ s.held -> sb.dataStart ≤ b) :
  (cacheFree sb true no).Meets s always (fun _ next =>
    Represents sb next.blocks (v.free no) ∧ Spent s next 1) := by
 have hbm : sb.bitmapBlock no ∉ s.held := by
  intro hmem
  have hlow := sb.bitmapBlock_lt hno
  have hle := hheld _ hmem
  omega
 apply meets_acquireData hbm
 split
 · exact meets_stop trivial
 refine meets_imp (meets_storeBlock rfl (.inl trivial)) ?_
 rintro _ next ⟨hblocks, _, hspent⟩
 rw [hblocks]
 exact ⟨represents_bitmapClear hrep hno, hspent.mono (sync_cost_le _ _)⟩

/-!
# Entries
-/

theorem meets_inodeSync_write {inode : Inode}
  (hvalid : inode.valid) (hi : inode.inodeNo < sb.numInodes.toNat)
  (hheld : s.held = []) (hroom : stops .logFull ∨ 0 < s.rm) :
  (inodeSync sb true inode true).Meets s stops (fun result next =>
    result = inode ∧ Represents sb next.blocks (v.setEntry inode.inodeNo inode.entry) ∧
      Spent s next 1) := by
 have hfree : sb.toBlockNo inode.inodeNo ∉ s.held := by
  rw [hheld]
  exact not_mem_nil
 apply meets_acquireData hfree
 rw [if_pos (by rw [hvalid]; rfl)]
 refine meets_bind (meets_storeBlock rfl (hroom.imp_right .inr)) ?_
 rintro _ next ⟨hblocks, _, hspent⟩
 apply meets_pure
 refine ⟨rfl, ?_, hspent.mono (sync_cost_le _ _)⟩
 rw [hblocks]
 exact represents_putEntry hrep hi inode.entry

theorem meets_inodeSync_load {inode : Inode}
  (hvalid : inode.valid = false) (hi : inode.inodeNo < sb.numInodes.toNat) (hheld : s.held = []) :
  (inodeSync sb false inode false).Meets s stops (fun result next =>
    result = { inode with valid := true, entry := v.entry inode.inodeNo } ∧ next = s) := by
 have hfree : sb.toBlockNo inode.inodeNo ∉ s.held := by
  rw [hheld]
  exact not_mem_nil
 apply meets_acquireData hfree
 rw [if_neg (by simp), if_pos hvalid]
 apply meets_bind meets_cacheRelease
 rintro _ _ rfl
 apply meets_pure
 constructor
 · have hentry := hrep.entry _ hi
   change getEntry (s.blocks (sb.toBlockNo inode.inodeNo)) inode.inodeNo = _ at hentry
   rw [hentry]
 · rw [erase_cons_head]
end

end OSLab.Fs
