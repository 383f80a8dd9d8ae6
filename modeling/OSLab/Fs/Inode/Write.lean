import OSLab.Fs.Inode.BlockMap
import Mathlib.Algebra.BigOperators.Intervals

/-!
# Writing a file

The loop of `inode_write` goes through the blocks of the range one by one.  Each
round maps a block, copies a piece of the source into it and logs it.  The bytes
of all files are the same afterwards, except for the range, which holds the
source.
-/

namespace OSLab.Fs
open Foundation Program Finset Volume
namespace Volume
variable (sb : SuperBlock)

def fileByte (v : Volume) (i x : Nat) : UInt8 :=
 Bytes.byteAt (v.fileBlock sb i (x / blockSize)) (x % blockSize)

def newBlocks (v : Volume) (i a b : Nat) : Nat :=
 ∑ k ∈ Ico a b, if v.addr sb (i, .block k) = 0 then 1 else 0

variable {sb : DiskLayout} {w : Volume} {i : Nat}

theorem newBlocks_succ (sb : DiskLayout) (w : Volume) (i : Nat) {a b : Nat} (h : a < b) :
  w.newBlocks sb i a b =
    (if w.addr sb (i, .block a) = 0 then 1 else 0) + w.newBlocks sb i (a + 1) b :=
 sum_eq_sum_Ico_succ_bot h _

theorem fileByte_splice (h : w.Consistent sb) {offset sz : Nat} (src : Nat -> UInt8)
  (haddr : w.addr sb (i, .block (offset / blockSize)) ≠ 0)
  (hsz : offset % blockSize + sz ≤ blockSize) (j x : Nat) :
  (w.setData (w.addr sb (i, .block (offset / blockSize))) (Bytes.splice (w.data (w.addr sb
        (i, .block (offset / blockSize)))) (offset % blockSize) sz src)).fileByte
      sb j x =
    if j = i ∧ offset ≤ x ∧ x < offset + sz then src (x - offset)
    else w.fileByte sb j x := by
 have hsize : blockSize = 512 := rfl
 have hold : w.fileBlock sb i (offset / blockSize) =
  w.data (w.addr sb (i, .block (offset / blockSize))) :=
  if_neg haddr
 unfold fileByte
 rw [fileBlock_setFileBlock h haddr]
 by_cases hblock : (j, x / blockSize) = (i, offset / blockSize)
 · rw [if_pos hblock]
   simp only [Prod.mk.injEq] at hblock
   rcases hblock with ⟨rfl, hdiv⟩
   rw [hdiv, hold]
   by_cases hin : offset ≤ x ∧ x < offset + sz
   · have hpos : x % blockSize = offset % blockSize + (x - offset) := by
      rw [hsize] at hdiv ⊢
      omega
     rw [if_pos ⟨rfl, hin⟩, hpos, Bytes.byteAt_splice_inside]
     · omega
     · omega
   rw [if_neg (fun hnot => hin hnot.right), Bytes.byteAt_splice_outside]
   rw [hsize] at hdiv ⊢
   omega
 rw [if_neg hblock, if_neg]
 rintro ⟨rfl, hlow, hhigh⟩
 apply hblock
 rw [Prod.mk.injEq]
 refine ⟨rfl, ?_⟩
 rw [hsize] at hsz ⊢
 omega

theorem consistent_setFileBlock (h : w.Consistent sb) {k : Nat}
  (haddr : w.addr sb (i, .block k) ≠ 0) (contents : BlockData) :
  (w.setData (w.addr sb (i, .block k)) contents).Consistent sb := by
 unfold Consistent
 rw [addr_setFileBlock h haddr]
 exact h

end Volume

theorem chunkSize_le (offset left : Nat) : offset % blockSize + chunkSize offset left ≤ blockSize ∧
    chunkSize offset left ≤ left := by
 have hlt : offset % blockSize < blockSize := Nat.mod_lt _ (by decide)
 unfold chunkSize
 split
 · omega
 · omega

theorem chunkSize_pos (offset : Nat) {left : Nat} (h : 0 < left) : 0 < chunkSize offset left := by
 have hlt : offset % blockSize < blockSize := Nat.mod_lt _ (by decide)
 unfold chunkSize
 split
 · exact h
 · omega

theorem chunkSize_full (offset left : Nat) (h : chunkSize offset left < left) :
  (offset + chunkSize offset left) / blockSize = offset / blockSize + 1 := by
 have hsize : blockSize = 512 := rfl
 unfold chunkSize at *
 split at h
 · omega
 rename_i hnot
 rw [if_neg hnot, hsize]
 omega

def Touches (offset done k : Nat) : Prop :=
 0 < done ∧ offset / blockSize ≤ k ∧ k * blockSize < offset + done

theorem touches_add {offset done sz : Nat} (hsz : 0 < sz)
  (hblock : (offset + done) % blockSize + sz ≤ blockSize) (k : Nat) :
  Touches offset (done + sz) k ↔ Touches offset done k ∨ k = (offset + done) / blockSize := by
 unfold Touches blockSize at *
 constructor
 · rintro ⟨_, hlow, hhigh⟩
   omega
 rintro (⟨hdone, hlow, hhigh⟩ | rfl)
 · omega
 · omega

theorem not_touches_next {offset done : Nat} (h : 0 < done -> (offset + done) % blockSize = 0) :
  ¬ Touches offset done ((offset + done) / blockSize) := by
 rintro ⟨hdone, _, hhigh⟩
 unfold blockSize at *
 omega

variable {sb : DiskLayout} {i : Nat} {v₀ v : Volume} {e₀ e : InodeEntry}
 {s₀ s : FsState} {stops : Stop -> Prop} {src : Nat -> UInt8} {offset₀ count done : Nat}
 {modified : Bool}

/--
The loop has written `done` of the `count` bytes from `offset₀` on.  The blocks
that hold them have addresses, and all other addresses are as they were.
-/
structure Writing (sb : DiskLayout) (i : Nat) (src : Nat -> UInt8)
  (offset₀ count : Nat) (v₀ : Volume) (e₀ : InodeEntry) (s₀ : FsState) (done : Nat)
  (modified : Bool) (v : Volume) (e : InodeEntry) (s : FsState) : Prop
  extends Ready sb i v e s where
 aligned : done < count -> 0 < done -> (offset₀ + done) % blockSize = 0
 entries : v.entry = v₀.entry
 fields : e = { e₀ with addrs := e.addrs, indirect := e.indirect }
 inodes : s.inodes = s₀.inodes
 bytes : forall j x, (v.setEntry i e).fileByte sb j x =
  if j = i ∧ offset₀ ≤ x ∧ x < offset₀ + done then src (x - offset₀)
  else (v₀.setEntry i e₀).fileByte sb j x
 mapped : forall k, Touches offset₀ done k ->
  (v.setEntry i e).addr sb (i, .block k) ≠ 0
 others : forall j k, ¬ (j = i ∧ Touches offset₀ done k) ->
  (v.setEntry i e).addr sb (j, .block k) =
   (v₀.setEntry i e₀).addr sb (j, .block k)
 unmodified : modified = false -> e = e₀
 grown : modified = true -> exists k, Touches offset₀ done k ∧
  (v₀.setEntry i e₀).addr sb (i, .block k) = 0

theorem writing_start (h : Ready sb i v₀ e₀ s₀) :
  Writing sb i src offset₀ count v₀ e₀ s₀ 0 false v₀ e₀ s₀ where
 toReady := h
 aligned := fun _ hpos => absurd hpos (Nat.lt_irrefl 0)
 entries := rfl
 fields := rfl
 inodes := rfl
 bytes := by
  intro j x
  rw [if_neg]
  omega
 mapped := fun _ htouch => absurd htouch.left (Nat.lt_irrefl 0)
 others := fun _ _ _ => rfl
 unmodified := fun _ => rfl
 grown := nofun

variable {r : MapResult} {v₁ : Volume} {s₁ s₂ : FsState}

theorem Writing.round {sz : Nat} (hw : Writing sb i src offset₀ count v₀ e₀ s₀ done modified v e s)
  (hlt : done < count) (hsz : sz = chunkSize (offset₀ + done) (count - done))
  (hmap : MapsBlock sb i ((offset₀ + done) / blockSize) v e s r s₁ v₁)
  (hblocks : s₂.blocks = Function.update s₁.blocks r.bno
    (Bytes.splice (s₁.blocks r.bno) ((offset₀ + done) % blockSize) sz
      (fun x => src (done + x)))) (hheld : s₂.held = s₁.held) (hinodes : s₂.inodes = s₁.inodes) :
  Writing sb i src offset₀ count v₀ e₀ s₀ (done + sz) (r.modified || modified)
    (v₁.setData r.bno (Bytes.splice (v₁.data r.bno) ((offset₀ + done) % blockSize) sz
      (fun x => src (done + x)))) r.entry s₂ := by
 have hready := hmap.ready hw.toReady
 have hpos : 0 < sz := by
  rw [hsz]
  exact chunkSize_pos _ (by omega)
 rcases chunkSize_le (offset₀ + done) (count - done) with ⟨hfit, hleft⟩
 rw [← hsz] at hfit hleft
 have haddr : (v₁.setEntry i r.entry).addr sb (i, .block ((offset₀ + done) / blockSize)) ≠ 0 := by
  rw [hmap.bno]
  exact hmap.nonzero
 have hdata : sb.dataStart ≤ r.bno := by
  have hwithin := (hready.consistent.within _ haddr).left
  rw [hmap.bno] at hwithin
  exact hwithin
 have hsame : s₁.blocks r.bno = v₁.data r.bno := hready.represents.data _ hdata
 have hcommute : forall contents, (v₁.setData r.bno contents).setEntry i r.entry =
  (v₁.setEntry i r.entry).setData r.bno contents := fun _ => rfl
 have hnext := not_touches_next (hw.aligned hlt)
 have htouches := touches_add hpos hfit
 rw [hsame] at hblocks
 have hbytes := fileByte_splice hready.consistent (fun x => src (done + x)) haddr hfit
 have hfiles : forall j x, (v₁.setEntry i r.entry).fileByte sb j x =
  (v.setEntry i e).fileByte sb j x := by
  intro j x
  unfold fileByte
  rw [hmap.files]
 have haddrs := addr_setFileBlock hready.consistent haddr
 have hcons := consistent_setFileBlock hready.consistent haddr
 rw [hmap.bno] at hbytes haddrs hcons
 exact { hready with
  represents := by
   rw [hblocks]
   exact represents_setData hready.represents hdata _
  consistent := hcons _
  held := hheld.trans hready.held
  aligned := by
   intro hmore _
   have hfull := chunkSize_full (offset₀ + done) (count - done) (by omega)
   rw [← hsz, Nat.add_assoc] at hfull
   unfold blockSize at *
   omega
  entries := hmap.entries.trans hw.entries
  fields := by
   have hfields := hmap.fields
   rw [hw.fields] at hfields
   exact hfields
  inodes := (hinodes.trans hmap.inodes).trans hw.inodes
  bytes := by
   intro j x
   rw [hcommute]
   refine (hbytes j x).trans ?_
   rw [hfiles, hw.bytes]
   by_cases hj : j = i
   · by_cases hin : offset₀ + done ≤ x ∧ x < offset₀ + done + sz
     · rw [if_pos ⟨hj, hin⟩, if_pos (by omega)]
       congr 1
       omega
     rw [if_neg (fun hnot => hin hnot.right)]
     by_cases hbefore : offset₀ ≤ x ∧ x < offset₀ + done
     · rw [if_pos ⟨hj, hbefore⟩, if_pos (by omega)]
     · rw [if_neg (fun hnot => hbefore hnot.right), if_neg (by omega)]
   rw [if_neg (fun hnot => hj hnot.left), if_neg (fun hnot => hj hnot.left),
    if_neg (fun hnot => hj hnot.left)]
  mapped := by
   intro k hk
   rw [hcommute, haddrs]
   rcases (htouches k).mp hk with hbefore | rfl
   · by_cases heq : k = (offset₀ + done) / blockSize
     · rw [heq]
       exact haddr
     rw [hmap.others i k (by simpa using heq)]
     exact hw.mapped k hbefore
   · exact haddr
  others := by
   intro j k hnot
   rw [hcommute, haddrs]
   have hne : (j, k) ≠ (i, (offset₀ + done) / blockSize) := by
    intro heq
    simp only [Prod.mk.injEq] at heq
    exact hnot ⟨heq.left, (htouches k).mpr (.inr heq.right)⟩
   rw [hmap.others j k hne]
   apply hw.others
   rintro ⟨hj, hbefore⟩
   exact hnot ⟨hj, (htouches k).mpr (.inl hbefore)⟩
  unmodified := by
   intro hfalse
   rw [Bool.or_eq_false_iff] at hfalse
   exact (hmap.unmodified hfalse.left).trans (hw.unmodified hfalse.right)
  grown := by
   intro htrue
   rcases Bool.or_eq_true_iff.mp htrue with hnew | hold
   · refine ⟨(offset₀ + done) / blockSize, (htouches _).mpr (.inr rfl), ?_⟩
     rw [hmap.modified, decide_eq_true_iff] at hnew
     rw [← hw.others i _ (fun hbefore => hnext hbefore.right)]
     exact hnew
   rcases hw.grown hold with ⟨k, hk, hzero⟩
   exact ⟨k, (htouches k).mpr (.inl hk), hzero⟩ }

/-!
# Room for the write
-/

/--
A log entry for each block of the range, for the bitmap block of each that is new, for
the indirect block and for the inode.
-/
abbrev RoomForWrite (stops : Stop -> Prop) (sb : DiskLayout) (i : Nat) (v : Volume)
  (e : InodeEntry) (s : FsState) (a b : Nat) : Prop :=
 Room stops (b - a + (v.setEntry i e).newBlocks sb i a b +
   e.tableDue s.header b + 1) s.rm
  ((v.setEntry i e).newBlocks sb i a b + e.tableFree b)
  ((v.setEntry i e).freeCount sb)

variable {a b : Nat}

theorem RoomForWrite.first (h : RoomForWrite stops sb i v e s a b) (hlt : a < b)
  (hempty : (v.setEntry i e).addr sb (i, .block a) = 0) : RoomForBlock stops sb i v e s b := by
 have hnew := newBlocks_succ sb (v.setEntry i e) i hlt
 rw [if_pos hempty] at hnew
 exact h.imp (by omega) (by omega)

variable {s₁ : FsState}

theorem RoomForWrite.sync (h : RoomForWrite stops sb i v e s a b) (hlt : a < b)
  (hmap : MapsBlock sb i a v e s r s₁ v₁) :
  stops .logFull ∨ r.bno ∈ s₁.header ∨ 0 < s₁.rm := by
 cases hnew : r.modified with
 | true => exact .inr (.inl (hmap.logged hnew))
 | false =>
  refine h.log.imp_right fun hcost => .inr ?_
  have hdue := hmap.due b hlt
  simp only [hnew, Bool.false_eq_true, if_false] at hdue
  omega

theorem MapsBlock.addr_stored {a : Nat}
  (h : MapsBlock sb i a v e s r s₁ v₁) (hready : Ready sb i v e s) (contents : BlockData) :
  ((v₁.setData r.bno contents).setEntry i r.entry).addr sb (i, .block a) ≠ 0 ∧ forall k, k ≠ a ->
      ((v₁.setData r.bno contents).setEntry i r.entry).addr sb (i, .block k) =
        (v.setEntry i e).addr sb (i, .block k) := by
 have hbno : (v₁.setEntry i r.entry).addr sb (i, .block a) ≠ 0 := by
  rw [h.bno]
  exact h.nonzero
 have haddrs := addr_setFileBlock (h.ready hready).consistent hbno contents
 rw [h.bno] at haddrs
 constructor
 · exact fun hzero => hbno ((congrFun haddrs _).symm.trans hzero)
 intro k hk
 refine (congrFun haddrs _).trans (h.others i k ?_)
 simpa using hk

theorem MapsBlock.new {a : Nat} (h : MapsBlock sb i a v e s r s₁ v₁) :
  (if (v.setEntry i e).addr sb (i, .block a) = 0 then 1 else 0) =
    if r.modified then 1 else 0 := by
 rw [h.modified]
 simp only [decide_eq_true_eq]

theorem RoomForWrite.rest {contents : BlockData} (h : RoomForWrite stops sb i v e s a b)
  (hlt : a < b) (hready : Ready sb i v e s) (hmap : MapsBlock sb i a v e s r s₁ v₁)
  (hspent : Spent s₁ s₂ (if r.bno ∈ s₁.header then 0 else 1)) :
  RoomForWrite stops sb i (v₁.setData r.bno contents) r.entry s₂ (a + 1) b := by
 have hrest : ((v₁.setData r.bno contents).setEntry i r.entry).newBlocks sb i (a + 1) b =
  (v.setEntry i e).newBlocks sb i (a + 1) b := by
  apply sum_congr rfl
  intro k hk
  rw [mem_Ico] at hk
  rw [(hmap.addr_stored hready contents).right k (by omega)]
 have hcount : ((v₁.setData r.bno contents).setEntry i r.entry).freeCount sb =
  (v₁.setEntry i r.entry).freeCount sb := rfl
 have hnew := newBlocks_succ sb (v.setEntry i e) i hlt
 have hdue := hmap.due b hlt
 have hfree := hmap.free b hlt
 have hlater := InodeEntry.tableDue_mono r.entry b hspent.header
 have hrm := hspent.rm
 have hsync := sync_cost_le s₁.header r.bno
 rw [hmap.new] at hnew
 unfold RoomForWrite
 rw [hrest, hcount]
 cases hmodified : r.modified with
 | true =>
  -- the new block is in the log already
  rw [if_pos (hmap.logged hmodified)] at hrm
  simp only [hmodified, if_true] at hnew hdue hfree
  exact h.imp (by omega) (by omega)
 | false =>
  simp only [hmodified, Bool.false_eq_true, if_false] at hnew hdue hfree
  exact h.imp (by omega) (by omega)

/-- A free block for each block below `far` that the file lacks, its indirect block included. -/
def RoomOnDisk (sb : DiskLayout) (i : Nat) (v : Volume) (e : InodeEntry) (far : Nat) : Prop :=
 (v.setEntry i e).newBlocks sb i 0 far + e.tableFree far ≤ (v.setEntry i e).freeCount sb

theorem RoomOnDisk.map {a far : Nat}
  (h : RoomOnDisk sb i v e far) (ha : a < far) (hready : Ready sb i v e s)
  (hmap : MapsBlock sb i a v e s r s₁ v₁) (contents : BlockData) :
  RoomOnDisk sb i (v₁.setData r.bno contents) r.entry far := by
 have hmem : a ∈ Ico 0 far := mem_Ico.mpr ⟨Nat.zero_le a, ha⟩
 rcases hmap.addr_stored hready contents with ⟨hself, hother⟩
 have hfree := hmap.free far ha
 unfold RoomOnDisk newBlocks at h ⊢
 change _ ≤ (v₁.setEntry i r.entry).freeCount sb
 rw [← add_sum_erase _ _ hmem] at h ⊢
 rw [hmap.new] at h
 rw [if_neg hself, sum_congr rfl (fun k hk => by
  rw [hother k (ne_of_mem_erase hk)])]
 omega

/-!
# The loop
-/

theorem meets_writeLoop {fuel next last : Nat}
  (hw : Writing sb i src offset₀ count v₀ e₀ s₀ done modified v e s)
  (hfuel : count - done ≤ fuel) (hdone : done ≤ count)
  (hlast : forall d, d < count -> (offset₀ + d) / blockSize < last) (hmax : last ≤ inodeMaxBlocks)
  (hnext : done < count -> next = (offset₀ + done) / blockSize)
  (hroom : RoomForWrite stops sb i v e s next last) :
  (writeLoop sb true src count fuel e (offset₀ + done) done
    modified).Meets s stops (fun r s' => exists v' last',
      Writing sb i src offset₀ count v₀ e₀ s₀ count r.1 v' r.2 s' ∧
        RoomForWrite stops sb i v' r.2 s' last' last ∧
        forall far, last ≤ far -> RoomOnDisk sb i v e far -> RoomOnDisk sb i v' r.2 far) := by
 induction fuel generalizing v e s done modified next with
 | zero =>
  have heq : done = count := by omega
  subst heq
  unfold writeLoop
  rw [if_neg (Nat.lt_irrefl _)]
  exact meets_pure ⟨v, next, hw, hroom, fun _ _ h => h⟩
 | succ fuel ih =>
  unfold writeLoop
  by_cases hlt : done < count
  case neg =>
   have heq : done = count := by omega
   subst heq
   rw [if_neg hlt]
   exact meets_pure ⟨v, next, hw, hroom, fun _ _ h => h⟩
  rw [if_pos hlt]
  have hindex := hnext hlt
  subst hindex
  have hbefore := hlast done hlt
  apply meets_bind (meets_inodeMap hw.toReady (by omega) hbefore (hroom.first hbefore))
  rintro r mid ⟨v₁, hmap⟩
  have hfree : r.bno ∉ mid.held := by
   rw [(hmap.ready hw.toReady).held]
   exact List.not_mem_nil
  apply meets_acquireData hfree
  have hsync := hroom.sync hbefore hmap
  refine meets_bind (meets_storeBlock rfl (by exact hsync)) ?_
  rintro _ stored ⟨hblocks, _, hspent⟩
  have hleft : 0 < count - done := by omega
  have hpos := chunkSize_pos (offset₀ + done) hleft
  have hsz := (chunkSize_le (offset₀ + done) (count - done)).right
  have hround := hw.round hlt rfl hmap hblocks hspent.held hspent.inodes
  rw [Nat.add_assoc]
  refine meets_imp (ih hround (by omega) (by omega) ?_
   (hroom.rest hbefore hw.toReady hmap hspent)) ?_
  · intro hmore
    rw [← Nat.add_assoc]
    exact (chunkSize_full _ _ (by omega)).symm
  · rintro result s' ⟨v', last', hdone, hleft, hdisk⟩
    refine ⟨v', last', hdone, hleft, fun far hfar h => hdisk far hfar ?_⟩
    exact h.map (Nat.lt_of_lt_of_le hbefore hfar) hw.toReady hmap _

/-!
# The call
-/

structure Opened (sb : DiskLayout) (v : Volume) (s : FsState) (i : Nat)
  (inode : Inode) : Prop where
 represents : Represents sb s.blocks v
 consistent : v.Consistent sb
 number : inode.inodeNo = i
 bound : i < sb.numInodes.toNat
 valid : inode.valid = true
 entry : v.entry i = inode.entry
 type : inode.entry.type ≠ inodeInvalid
 held : s.held = []

theorem Volume.setEntry_same (v : Volume) (i : Nat) : v.setEntry i (v.entry i) = v := by
 unfold setEntry
 rw [Function.update_eq_self]

variable {inode : Inode}

theorem Opened.setEntry (h : Opened sb v s i inode) : v.setEntry i inode.entry = v := by
 rw [← h.entry, setEntry_same]

theorem Opened.ready (h : Opened sb v s i inode) : Ready sb i v inode.entry s := { h with
 consistent := by
  rw [h.setEntry]
  exact h.consistent
 inode := h.bound }

theorem Volume.addr_setEntry_size (v : Volume) (i : Nat) (e : InodeEntry) (numBytes : UInt32) :
  (v.setEntry i { e with numBytes := numBytes }).addr sb = (v.setEntry i e).addr sb := by
 funext x
 rcases x with ⟨j, slot⟩
 by_cases hj : j = i
 · subst hj
   unfold addr Active
   simp only [setEntry_entry]
   cases slot with
   | block k | table => rfl
 · rw [addr_setEntry_other hj, addr_setEntry_other hj]

theorem RoomOnDisk.resize {far : Nat} (h : RoomOnDisk sb i v e far) (numBytes : UInt32) :
  RoomOnDisk sb i (v.setEntry i { e with numBytes := numBytes })
    { e with numBytes := numBytes } far := by
 have hset : (v.setEntry i { e with numBytes := numBytes }).setEntry i
  { e with numBytes := numBytes } = v.setEntry i { e with numBytes := numBytes } := by
  unfold setEntry
  rw [Function.update_idem]
 unfold RoomOnDisk newBlocks at h ⊢
 rw [hset, addr_setEntry_size]
 exact h

/--
The size after a write: the end of the range if that is beyond the old size or if
the range had a block without address, and else the old size.
-/
def Sized (sb : DiskLayout) (i offset count : Nat) (v : Volume) (inode : Inode)
  (numBytes : UInt32) : Prop :=
 (numBytes.toNat = offset + count ∧ (inode.entry.numBytes.toNat < offset + count ∨ exists k,
   Touches offset count k ∧ v.addr sb (i, .block k) = 0)) ∨
  (numBytes = inode.entry.numBytes ∧ offset + count ≤ inode.entry.numBytes.toNat)

structure Wrote (sb : DiskLayout) (i : Nat) (src : Nat -> UInt8) (offset count : Nat)
  (v : Volume) (s : FsState) (inode : Inode) (v' : Volume) (s' : FsState)
  (inode' : Inode) : Prop extends Opened sb v' s' i inode' where
 inodes : s'.inodes = s.inodes
 others : forall j, j ≠ i -> v'.entry j = v.entry j
 fields : inode' = { inode with entry := { inode.entry with
  addrs := inode'.entry.addrs
  indirect := inode'.entry.indirect
  numBytes := inode'.entry.numBytes } }
 bytes : forall j x, v'.fileByte sb j x =
  if j = i ∧ offset ≤ x ∧ x < offset + count then src (x - offset)
  else v.fileByte sb j x
 mapped : forall k, Touches offset count k -> v'.addr sb (i, .block k) ≠ 0
 kept : forall j k, ¬ (j = i ∧ Touches offset count k) ->
  v'.addr sb (j, .block k) = v.addr sb (j, .block k)
 size : Sized sb i offset count v inode inode'.entry.numBytes

structure Admitted (inode : Inode) (offset count : Nat) : Prop where
 notDevice : inode.entry.type ≠ inodeDevice
 offset_le : offset ≤ inode.entry.numBytes.toNat
 fits : offset + count ≤ inodeMaxBytes

def endBlock (offset count : Nat) : Nat := (offset + count + (blockSize - 1)) / blockSize

variable {offset count : Nat}

theorem Writing.wrote {v₁ v' : Volume}
  {s₁ s' : FsState} {numBytes : UInt32} (hopen : Opened sb v s i inode)
  (hw : Writing sb i src offset count v inode.entry s count modified v₁ e s₁)
  (hrep : Represents sb s'.blocks v') (hv' : v' = v₁.setEntry i { e with numBytes := numBytes })
  (hheld : s'.held = s₁.held) (hinodes : s'.inodes = s₁.inodes)
  (hsize : Sized sb i offset count v inode numBytes) :
  Wrote sb i src offset count v s inode v' s'
    { inode with entry := { e with numBytes := numBytes } } := by
 have haddr : v'.addr sb = (v₁.setEntry i e).addr sb := by
  rw [hv']
  exact addr_setEntry_size v₁ i e numBytes
 have hbit : v'.bit = (v₁.setEntry i e).bit := by
  rw [hv']
  rfl
 have hdata : v'.data = (v₁.setEntry i e).data := by
  rw [hv']
  rfl
 have hold : v.setEntry i inode.entry = v := hopen.setEntry
 have hbytes := hw.bytes
 have hmapped := hw.mapped
 have hothers := hw.others
 rw [hold] at hbytes hothers
 exact { hopen with
  represents := hrep
  consistent := by
   have hcons := hw.consistent
   unfold Consistent at hcons ⊢
   rw [haddr, hbit]
   exact hcons
  entry := by rw [hv', setEntry_entry]
  type := hw.type
  held := hheld.trans hw.held
  inodes := hinodes.trans hw.inodes
  others := by
   intro j hj
   rw [hv']
   refine (Function.update_of_ne hj _ _).trans ?_
   rw [hw.entries]
  fields := by
   have hfields := hw.fields
   rw [hfields]
  bytes := by
   intro j x
   rw [← hbytes]
   unfold fileByte fileBlock
   rw [haddr, hdata]
  mapped := by
   intro k hk
   rw [haddr]
   exact hmapped k hk
  kept := by
   intro j k hnot
   rw [haddr]
   exact hothers j k hnot
  size := hsize }

theorem meets_writeLoop_call
  (hopen : Opened sb v s i inode) (hfits : offset + count ≤ inodeMaxBytes)
  (hroom : 0 < count -> RoomForWrite stops sb i v inode.entry s
    (offset / blockSize) (endBlock offset count)) :
  (writeLoop sb true src count count inode.entry offset 0 false).Meets s
    stops (fun r s' => exists v',
      Writing sb i src offset count v inode.entry s count r.1 v' r.2 s' ∧
        (0 < count -> stops .logFull ∨ 0 < s'.rm) ∧
        forall far, endBlock offset count ≤ far -> RoomOnDisk sb i v inode.entry far ->
          RoomOnDisk sb i v' r.2 far) := by
 by_cases hcount : count = 0
 · subst hcount
   unfold writeLoop
   rw [if_neg (Nat.lt_irrefl 0)]
   refine meets_pure ⟨v, writing_start hopen.ready, ?_, fun _ _ h => h⟩
   intro hfalse
   exact absurd hfalse (Nat.lt_irrefl 0)
 have hstart : Writing sb i src offset count v inode.entry s 0 false v inode.entry s :=
  writing_start hopen.ready
 have hlast : forall d, d < count -> (offset + d) / blockSize < endBlock offset count := by
  intro d hd
  unfold endBlock blockSize
  omega
 have hmax : endBlock offset count ≤ inodeMaxBlocks := by
  unfold endBlock
  unfold inodeMaxBytes at hfits
  generalize inodeMaxBlocks = blocks at *
  unfold blockSize at *
  omega
 refine meets_imp (meets_writeLoop hstart (by omega) (Nat.zero_le _) hlast hmax
  (fun _ => rfl) (hroom (Nat.pos_of_ne_zero hcount))) ?_
 rintro r s' ⟨v', last, hw, hleft, hdisk⟩
 exact ⟨v', hw, fun _ => hleft.log.imp_right (by omega), hdisk⟩

variable {offset count : UInt64}

theorem toNat_sum_of_le (h : offset ≤ offset + count) :
  (offset + count).toNat = offset.toNat + count.toNat := by
 have hle : offset.toNat ≤ (offset + count).toNat := UInt64.le_iff_toNat_le.mp h
 have hcount : count.toNat < 2 ^ 64 := UInt64.toNat_lt _
 rw [UInt64.toNat_add] at hle ⊢
 omega

theorem meets_inodeWrite (hopen : Opened sb v s i inode)
  (hallowed : stops .failed ∨ Admitted inode offset.toNat count.toNat)
  (hroom : 0 < count.toNat -> RoomForWrite stops sb i v inode.entry s
    (offset.toNat / blockSize) (endBlock offset.toNat count.toNat)) :
  (inodeWrite sb true inode src offset count).Meets s stops
    (fun r s' => r.1 = count ∧ offset.toNat ≤ inode.entry.numBytes.toNat ∧ exists v',
      Wrote sb i src offset.toNat count.toNat v s inode v' s' r.2 ∧
        forall far, endBlock offset.toNat count.toNat ≤ far ->
          RoomOnDisk sb i v inode.entry far -> RoomOnDisk sb i v' r.2.entry far) := by
 have hsum : Admitted inode offset.toNat count.toNat ->
  (offset + count).toNat = offset.toNat + count.toNat := by
  intro h
  have hfits := h.fits
  rw [UInt64.toNat_add]
  unfold inodeMaxBytes inodeMaxBlocks inodeNumDirect inodeNumIndirect blockSize at hfits
  omega
 refine meets_bind (meets_require_of _ hallowed (·.notDevice)) ?_
 rintro _ _ ⟨rfl, hdevice⟩
 refine meets_bind (meets_require_of _ hallowed (·.offset_le)) ?_
 rintro _ _ ⟨rfl, hoffset⟩
 refine meets_bind (meets_require_of _ hallowed (fun h => ?_)) ?_
 · rw [hsum h]
   exact h.fits
 rintro _ _ ⟨rfl, hfits⟩
 refine meets_bind (meets_require_of _ hallowed (fun h => ?_)) ?_
 · rw [UInt64.le_iff_toNat_le, hsum h]
   exact Nat.le_add_right _ _
 rintro _ _ ⟨rfl, hstop⟩
 have htotal := toNat_sum_of_le hstop
 rw [htotal] at hfits
 apply meets_bind (meets_writeLoop_call hopen hfits hroom)
 rintro ⟨modified, e⟩ s₁ ⟨v₁, hw, hrm, hdisk⟩
 simp only at hw hdisk
 have hnumBytes : e.numBytes = inode.entry.numBytes := by rw [hw.fields]
 split
 · rename_i hgrown
   rw [Bool.or_eq_true, decide_eq_true_iff, hnumBytes, htotal] at hgrown
   have hpos : 0 < count.toNat := by
    rcases hgrown with hmodified | hbeyond
    · rcases hw.grown hmodified with ⟨k, hk, _⟩
      exact hk.left
    · omega
   have hsize : Sized sb i offset.toNat count.toNat v inode
    (UInt32.ofNat (offset + count).toNat) := by
    refine .inl ⟨?_, ?_⟩
    · rw [htotal, UInt32.toNat_ofNat']
      apply Nat.mod_eq_of_lt
      refine Nat.lt_of_le_of_lt hfits ?_
      decide
    rcases hgrown with hmodified | hbeyond
    · right
      have hempty := hw.grown hmodified
      rw [hopen.setEntry] at hempty
      exact hempty
    · exact .inl hbeyond
   refine meets_bind (meets_inodeSync_write hw.represents hopen.valid ?_ hw.held (hrm hpos)) ?_
   · rw [hopen.number]
     exact hopen.bound
   rintro _ s₂ ⟨rfl, hrep, hspent⟩
   refine meets_pure ⟨rfl, hoffset, _, hw.wrote hopen hrep ?_ hspent.held hspent.inodes hsize,
    fun far hfar h => ?_⟩
   · rw [hopen.number]
   · rw [hopen.number]
     exact (hdisk far hfar h).resize _
 rename_i hsame
 rw [Bool.not_eq_true, Bool.or_eq_false_iff, decide_eq_false_iff_not, hnumBytes, htotal] at hsame
 have hentry := hw.unmodified hsame.left
 have hdiskEntry : v₁ = v₁.setEntry i { e with numBytes := e.numBytes } := by
  rw [hentry, ← hopen.entry, ← hw.entries, setEntry_same]
 have hsize : Sized sb i offset.toNat count.toNat v inode e.numBytes := .inr ⟨hnumBytes, by omega⟩
 exact meets_pure ⟨rfl, hoffset, v₁, hw.wrote hopen hw.represents hdiskEntry rfl rfl hsize, hdisk⟩

end OSLab.Fs
