import OSLab.Fs.Inode.Fsck
import OSLab.Fs.Inode.LogUse

/-!
# An inode is a byte array

As long as every block below its size is allocated, a file is a list of bytes:
`inode_write` replaces a range of it, possibly making it longer, and `inode_read`
returns a range of it.
-/

namespace OSLab.Fs
open Foundation TransitionSystem Program List FsState UInt64 Volume

/-!
# Byte arrays
-/

namespace FileBytes

def write (file : List UInt8) (offset : Nat) (bytes : List UInt8) : List UInt8 :=
 file.take offset ++ bytes ++ file.drop (offset + bytes.length)

def read (file : List UInt8) (offset count : Nat) : List UInt8 := (file.drop offset).take count

def tabulate (n : Nat) (f : Nat -> UInt8) : List UInt8 := (range n).map f

theorem length_tabulate (n : Nat) (f : Nat -> UInt8) : (tabulate n f).length = n := by
 unfold tabulate
 rw [length_map, length_range]

theorem getElem?_tabulate (n : Nat) (f : Nat -> UInt8) (x : Nat) :
  (tabulate n f)[x]? = if x < n then some (f x) else none := by
 unfold tabulate
 rw [getElem?_map]
 by_cases hx : x < n
 · rw [if_pos hx, getElem?_range hx]
   rfl
 rw [if_neg hx, getElem?_eq_none (by rw [length_range]; omega)]
 rfl

theorem tabulate_add (m n : Nat) (f : Nat -> UInt8) :
  tabulate (m + n) f = tabulate m f ++ tabulate n (fun x => f (m + x)) := by
 unfold tabulate
 rw [range_add, map_append, map_map]
 rfl

variable {n offset count : Nat}

theorem write_tabulate (h : offset ≤ n) (f src : Nat -> UInt8) :
  write (tabulate n f) offset (tabulate count src) = tabulate (max n (offset + count)) (fun x =>
      if offset ≤ x ∧ x < offset + count then src (x - offset) else f x) := by
 have htake : ((tabulate n f).take offset).length = offset := by
  rw [length_take, length_tabulate]
  omega
 apply ext_getElem?
 intro x
 unfold write
 rw [append_assoc, length_tabulate, getElem?_tabulate]
 by_cases hlow : x < offset
 · rw [getElem?_append_left (by omega), getElem?_take_of_lt hlow,
    getElem?_tabulate, if_pos (by omega), if_pos (by omega), if_neg (by omega)]
 rw [getElem?_append_right (by omega), htake]
 by_cases hmid : x < offset + count
 · rw [getElem?_append_left (by rw [length_tabulate]; omega), getElem?_tabulate,
    if_pos (by omega), if_pos (by omega), if_pos (by omega)]
 have hindex : offset + count + (x - offset - count) = x := by omega
 rw [getElem?_append_right (by rw [length_tabulate]; omega), length_tabulate,
  getElem?_drop, hindex, getElem?_tabulate]
 by_cases hx : x < n
 · rw [if_pos hx, if_pos (by omega), if_neg (by omega)]
 · rw [if_neg hx, if_neg (by omega)]

theorem read_tabulate (f : Nat -> UInt8) : read (tabulate n f) offset count =
    tabulate (min count (n - offset)) (fun x => f (offset + x)) := by
 apply ext_getElem?
 intro x
 unfold read
 rw [getElem?_take, getElem?_drop, getElem?_tabulate, getElem?_tabulate]
 by_cases hx : x < count
 · by_cases hn : offset + x < n
   · rw [if_pos hx, if_pos hn, if_pos (by omega)]
   · rw [if_pos hx, if_neg hn, if_neg (by omega)]
 · rw [if_neg hx, if_neg (by omega)]

end FileBytes

/-!
# Contents
-/

namespace Volume

def contents (sb : DiskLayout) (v : Volume) (i : Nat) : List UInt8 :=
 FileBytes.tabulate (v.entry i).numBytes.toNat (v.fileByte sb i)

def Filled (sb : DiskLayout) (v : Volume) (i : Nat) : Prop :=
 forall k, k * blockSize < (v.entry i).numBytes.toNat -> v.addr sb (i, .block k) ≠ 0

end Volume

variable {sb : DiskLayout} {v v' : Volume} {s s' : FsState} {i : Nat} {stops : Stop -> Prop}
 {inode inode' : Inode} {src : Nat -> UInt8} {offset count : Nat}

theorem Volume.Filled.lt_maxBlocks (h : v.Filled sb i) {k : Nat}
  (hk : k * blockSize < (v.entry i).numBytes.toNat) (hi : v.Active sb i) :
  k < inodeMaxBlocks := by
 by_contra hmax
 apply h k hk
 rw [addr_active hi]
 exact InodeEntry.blockAddr_beyond hmax

/-!
# Writes
-/

namespace Wrote

section
variable (h : Wrote sb i src offset count v s inode v' s' inode')
include h

section
variable (hopen : Opened sb v s i inode) (hfilled : v.Filled sb i)
include hopen hfilled

theorem filled_size :
  (v'.entry i).numBytes.toNat = max (v.entry i).numBytes.toNat (offset + count) := by
 rw [h.entry, hopen.entry]
 rcases h.size with ⟨hend, hgrown⟩ | ⟨hsame, hend⟩
 · rcases hgrown with hbeyond | ⟨k, hk, hempty⟩
   · omega
   -- a block without address lies beyond the old size
   have hold : ¬ k * blockSize < (v.entry i).numBytes.toNat := by
    intro hlt
    exact hfilled k hlt hempty
   rw [hopen.entry] at hold
   have hhigh := hk.right.right
   omega
 rw [hsame]
 omega

variable (hoffset : offset ≤ inode.entry.numBytes.toNat)
include hoffset

theorem filled : v'.Filled sb i := by
 intro k hk
 rw [h.filled_size hopen hfilled] at hk
 by_cases htouch : Touches offset count k
 · exact h.mapped k htouch
 rw [h.kept i k (fun hnot => htouch hnot.right)]
 apply hfilled
 by_contra hbeyond
 apply htouch
 rw [← hopen.entry] at hoffset
 refine ⟨by omega, ?_, by omega⟩
 unfold blockSize at *
 omega

theorem contents :
  v'.contents sb i = FileBytes.write (v.contents sb i) offset (FileBytes.tabulate count src) := by
 unfold Volume.contents
 rw [FileBytes.write_tabulate (by rw [hopen.entry]; exact hoffset), h.filled_size hopen hfilled]
 congr 1
 funext x
 rw [h.bytes]
 simp only [true_and]
end

theorem contents_other {j : Nat} (hj : j ≠ i) : v'.contents sb j = v.contents sb j := by
 unfold Volume.contents
 rw [h.others j hj]
 congr 1
 funext x
 rw [h.bytes, if_neg]
 intro hnot
 exact hj hnot.left
end

end Wrote

/-!
# Reads
-/

theorem copyOut_fileBlock (sz : Nat) (hsz : offset % blockSize + sz ≤ blockSize) :
  copyOut (v.fileBlock sb i (offset / blockSize)) (offset % blockSize) sz =
    FileBytes.tabulate sz (fun x => v.fileByte sb i (offset + x)) := by
 apply map_congr_left
 intro x hx
 rw [mem_range] at hx
 have hdiv : (offset + x) / blockSize = offset / blockSize := by
  unfold blockSize at *
  omega
 have hmod : (offset + x) % blockSize = offset % blockSize + x := by
  unfold blockSize at *
  omega
 unfold fileByte
 rw [hdiv, hmod]

theorem meets_readLoop (hopen : Opened sb v s i inode) (hfilled : v.Filled sb i)
  (hend : offset + count ≤ inode.entry.numBytes.toNat) (fuel haveRead : Nat)
  (hhave : haveRead ≤ count) (hfuel : count - haveRead ≤ fuel) :
  (readLoop sb count fuel inode.entry (offset + haveRead)
    (FileBytes.tabulate haveRead (fun x => v.fileByte sb i (offset + x)))
    false).Meets s stops (fun r next =>
      r = (FileBytes.tabulate count (fun x => v.fileByte sb i (offset + x)),
        false, inode.entry) ∧ s = next) := by
 induction fuel generalizing haveRead with
 | zero =>
  have heq : haveRead = count := by omega
  subst heq
  unfold readLoop
  rw [if_neg (by rw [FileBytes.length_tabulate]; omega)]
  exact meets_pure ⟨rfl, rfl⟩
 | succ fuel ih =>
  unfold readLoop
  rw [FileBytes.length_tabulate]
  by_cases hdone : haveRead < count
  · rw [if_pos hdone]
    have hactive : v.Active sb i := by
     refine ⟨hopen.bound, ?_⟩
     rw [hopen.entry]
     exact hopen.type
    have hbelow : (offset + haveRead) / blockSize * blockSize < (v.entry i).numBytes.toNat := by
     have hle := Nat.div_mul_le_self (offset + haveRead) blockSize
     rw [hopen.entry]
     omega
    have haddr := hfilled _ hbelow
    have hmax := hfilled.lt_maxBlocks hbelow hactive
    have hmap : (inodeMap sb false inode.entry ((offset + haveRead) / blockSize)).Meets s stops _ :=
     meets_inodeMap_mapped false hopen.ready hmax (by
      rw [hopen.setEntry]
      exact haddr)
    rw [hopen.setEntry] at hmap
    apply meets_bind hmap
    rintro _ next ⟨rfl, hnext⟩
    rw [hnext]
    generalize hb : v.addr sb (i, .block ((offset + haveRead) / blockSize)) = b at *
    have hwithin := (hopen.consistent.within _ (by
     rw [hb]
     exact haddr)).left
    rw [hb] at hwithin
    have hnot : b ∉ s.held := by
     rw [hopen.held]
     exact not_mem_nil
    have hblock : s.blocks b = v.fileBlock sb i ((offset + haveRead) / blockSize) := by
     unfold fileBlock
     rw [hopen.represents.data b hwithin, hb, if_neg haddr]
    have hchunk := chunkSize_le (offset + haveRead) (count - haveRead)
    have hpos := chunkSize_pos (offset + haveRead) (Nat.sub_pos_of_lt hdone)
    generalize chunkSize (offset + haveRead) (count - haveRead) = sz at *
    apply meets_acquireData hnot
    apply meets_bind meets_cacheRelease
    rintro _ _ rfl
    have hsame : ({ s with held := (b :: s.held).erase b } : FsState) = s := by rw [erase_cons_head]
    rw [hsame]
    rw [hblock, copyOut_fileBlock sz hchunk.left]
    have hrest := ih (haveRead + sz) (by omega) (by omega)
    rw [FileBytes.tabulate_add, ← Nat.add_assoc] at hrest
    simp only [← Nat.add_assoc] at hrest ⊢
    exact hrest
  have heq : haveRead = count := by omega
  subst heq
  rw [if_neg hdone]
  exact meets_pure ⟨rfl, rfl⟩

variable {numBytes : UInt32}

theorem readCount_toNat {offset count : UInt64}
  (hoffset : offset.toNat ≤ numBytes.toNat) (hwrap : offset.toNat + count.toNat < 2 ^ 64) :
  (readCount numBytes offset count).toNat = min count.toNat (numBytes.toNat - offset.toNat) := by
 have hbytes : numBytes.toUInt64.toNat = numBytes.toNat := UInt32.toNat_toUInt64 _
 have hsum : (count + offset).toNat = count.toNat + offset.toNat := by
  rw [UInt64.toNat_add]
  omega
 unfold readCount
 split
 · rename_i hgt
   rw [gt_iff_lt, lt_iff_toNat_lt, hsum, hbytes] at hgt
   rw [UInt64.toNat_sub_of_le _ _ (by rw [UInt64.le_iff_toNat_le, hbytes]; exact hoffset), hbytes]
   omega
 rename_i hle
 rw [gt_iff_lt, lt_iff_toNat_lt, hsum, hbytes] at hle
 omega

theorem no_wrap_of_le_stop {offset count : UInt64} (hoffset : offset.toNat ≤ numBytes.toNat)
  (hstop : offset ≤ offset + readCount numBytes offset count) :
  offset.toNat + count.toNat < 2 ^ 64 := by
 have hbytes : numBytes.toUInt64.toNat = numBytes.toNat := UInt32.toNat_toUInt64 _
 have hcount := toNat_lt count
 have hoff := toNat_lt offset
 by_contra hwrap
 have hsum : (count + offset).toNat = count.toNat + offset.toNat - 2 ^ 64 := by
  rw [UInt64.toNat_add]
  omega
 have hsame : readCount numBytes offset count = count := by
  unfold readCount
  rw [if_neg]
  rw [gt_iff_lt, lt_iff_toNat_lt, hsum, hbytes]
  omega
 rw [hsame, UInt64.le_iff_toNat_le, UInt64.add_comm, hsum] at hstop
 omega

theorem meets_inodeRead {offset count : UInt64} (hopen : Opened sb v s i inode)
  (hfilled : v.Filled sb i) (hallowed : stops .failed ∨ inode.entry.type ≠ inodeDevice ∧
    offset.toNat ≤ inode.entry.numBytes.toNat ∧ offset.toNat + count.toNat < 2 ^ 64) :
  (inodeRead sb inode offset count).Meets s stops (fun r next =>
    r.1.toNat = min count.toNat (inode.entry.numBytes.toNat - offset.toNat) ∧
      r.2.1 = FileBytes.read (v.contents sb i) offset.toNat count.toNat ∧
      r.2.2 = inode ∧ s = next) := by
 have hbytes : inode.entry.numBytes.toUInt64.toNat = inode.entry.numBytes.toNat :=
  UInt32.toNat_toUInt64 _
 have hsum : offset.toNat ≤ inode.entry.numBytes.toNat -> offset.toNat + count.toNat < 2 ^ 64 ->
  (offset + readCount inode.entry.numBytes offset count).toNat =
   offset.toNat + min count.toNat (inode.entry.numBytes.toNat - offset.toNat) := by
  intro hoffset hwrap
  rw [UInt64.toNat_add, readCount_toNat hoffset hwrap]
  omega
 refine meets_bind (meets_require_of _ hallowed (·.left)) ?_
 rintro _ _ ⟨rfl, _⟩
 refine meets_bind (meets_require_of _ hallowed (fun h => ?_)) ?_
 · rw [le_iff_toNat_le, hbytes]
   exact h.right.left
 rintro _ _ ⟨rfl, hoffset⟩
 rw [le_iff_toNat_le, hbytes] at hoffset
 refine meets_bind (meets_require_of _ hallowed (fun h => ?_)) ?_
 · rw [le_iff_toNat_le, hsum h.right.left h.right.right, hbytes]
   omega
 rintro _ _ ⟨rfl, _⟩
 refine meets_bind (meets_require_of _ hallowed (fun h => ?_)) ?_
 · rw [le_iff_toNat_le, hsum h.right.left h.right.right]
   omega
 rintro _ _ ⟨rfl, hstop⟩
 have hwrap := no_wrap_of_le_stop hoffset hstop
 have hcount := readCount_toNat hoffset hwrap
 rw [hcount]
 generalize hn : min count.toNat (inode.entry.numBytes.toNat - offset.toNat) = n at *
 have hend : offset.toNat + n ≤ inode.entry.numBytes.toNat := by omega
 refine meets_bind (meets_readLoop hopen hfilled hend n 0 (Nat.zero_le n) le_rfl) ?_
 rintro _ _ ⟨rfl, rfl⟩
 refine meets_bind (meets_require _ (fun hnot => absurd rfl hnot)) ?_
 rintro _ _ ⟨rfl, _⟩
 apply meets_pure
 refine ⟨hcount, ?_, rfl, rfl⟩
 unfold contents
 rw [FileBytes.read_tabulate, hopen.entry, hn]

/-!
# Runs
-/

def FsState.ReadsFilled (sb : DiskLayout) (s : FsState) : InodeLabel -> Prop
 | .read i _ _ => (volumeOf sb s.blocks).Filled sb i
 | l => s.OfAllocated sb l

def FsState.FileCall (i : Nat) (_ : FsState) : InodeLabel -> Prop
 | .beginOp | .endOp => True
 | .write j _ _ _ | .read j _ _ => j = i
 | _ => False

/-- The blocks that a write allocates: those of the range, and the indirect block. -/
def FsState.blocksFor (sb : DiskLayout) (s : FsState) (i : Nat) (inode : Inode)
  (offset count : Nat) : Nat :=
 (volumeOf sb s.blocks).newBlocks sb i (offset / blockSize)
   (endBlock offset count) +
  inode.entry.tableFree (endBlock offset count)

/-- No write adds more blocks to the log than this. -/
def FsState.entriesFor (sb : DiskLayout) (s : FsState) (i : Nat) (inode : Inode)
  (offset count : Nat) : Nat :=
 endBlock offset count - offset / blockSize +
  (volumeOf sb s.blocks).newBlocks sb i (offset / blockSize)
   (endBlock offset count) +
  inode.entry.tableDue s.header (endBlock offset count) + 1

/--
A write adds some blocks to the log, each once.  It returns if the operation has an entry
left for each of them, and else `cache_sync` panics.
-/
def FsState.WriteLogs (sb : DiskLayout) (s : FsState) (i : Nat) (inode : Inode)
  (src : Nat -> UInt8) (offset count : UInt64) : Prop :=
 exists added : List Nat, added.length ≤ s.entriesFor sb i inode offset.toNat count.toNat ∧
  (s.header.Nodup -> (s.header ++ added).Nodup) ∧
  forall rm, if added.length ≤ rm then exists r s',
    inodeWrite sb true inode src offset count { s with rm := rm } = .ok (r, s') ∧
     s'.header = s.header ++ added
   else inodeWrite sb true inode src offset count { s with rm := rm } = .error .logFull

structure WritesFile (sb : DiskLayout) (i : Nat) (bytes : List UInt8) (offset : Nat)
  (v v' : Volume) : Prop where
 contents : v'.contents sb i = FileBytes.write (v.contents sb i) offset bytes
 size : (v'.entry i).numBytes.toNat = max (v.entry i).numBytes.toNat (offset + bytes.length)
 filled : v'.Filled sb i
 others : forall j, j < sb.numInodes.toNat -> j ≠ i ->
  v'.entry j = v.entry j ∧ v'.contents sb j = v.contents sb j

theorem Represents.contents_volumeOf {blocks : Blocks} (h : Represents sb blocks v)
  (hconsistent : v.Consistent sb) {j : Nat} (hj : j < sb.numInodes.toNat) :
  (volumeOf sb blocks).contents sb j = v.contents sb j := by
 unfold contents
 rw [h.entry j hj]
 congr 1
 funext x
 unfold fileByte fileBlock
 rw [h.addr_volumeOf hconsistent]
 split
 · rfl
 rename_i haddr
 have hdata := h.data _ (hconsistent.within _ haddr).left
 change Bytes.byteAt (blocks _) _ = _
 rw [hdata]

theorem Represents.filled_volumeOf {blocks : Blocks} (h : Represents sb blocks v)
  (hconsistent : v.Consistent sb) (hi : i < sb.numInodes.toNat) (hfilled : v.Filled sb i) :
  (volumeOf sb blocks).Filled sb i := by
 intro k hk
 rw [h.entry i hi] at hk
 rw [h.addr_volumeOf hconsistent]
 exact hfilled k hk

theorem Wrote.writesFile (h : Wrote sb i src offset count v s inode v' s' inode')
  (hopen : Opened sb v s i inode) (hfilled : v.Filled sb i)
  (hoffset : offset ≤ inode.entry.numBytes.toNat) :
  WritesFile sb i (FileBytes.tabulate count src) offset v (volumeOf sb s'.blocks) where
 contents := by
  rw [h.represents.contents_volumeOf h.consistent h.bound]
  exact h.contents hopen hfilled hoffset
 size := by
  rw [h.represents.entry i h.bound, FileBytes.length_tabulate]
  exact h.filled_size hopen hfilled
 filled := h.represents.filled_volumeOf h.consistent h.bound (h.filled hopen hfilled hoffset)
 others := by
  intro j hj hne
  rw [h.represents.entry j hj, h.represents.contents_volumeOf h.consistent hj]
  exact ⟨h.others j hne, h.contents_other hne⟩

theorem meets_readCall (h : Synced sb v s) (hfilled : v.Filled sb i) (offset count : UInt64) :
  (call sb (.read i offset count)).Meets s always (fun _ next => s = next) := by
 apply meets_bind (meets_read _)
 rintro _ _ ⟨rfl, rfl⟩
 split
 · exact meets_stop trivial
 rename_i inode hinode
 have hread : (do
  let result <- inodeRead sb inode offset count
  pure result.2.2 : FsProgram Inode).Meets s always
  (fun result next => result = inode ∧ s = next) := by
  apply meets_bind (meets_inodeRead (h.opened hinode) hfilled (.inl trivial))
  rintro ⟨n, bytes, result⟩ next ⟨_, _, hresult, hnext⟩
  exact meets_pure ⟨hresult, hnext⟩
 apply meets_bind hread
 rintro _ _ ⟨rfl, rfl⟩
 apply meets_imp (meets_change _)
 rintro _ _ rfl
 rw [← hinode, Function.update_eq_self]

variable {l : InodeLabel}

theorem synced_step_reads {next : FsState} (h : Synced sb v s)
  (hguard : s.ReadsFilled sb l) (hstep : (inodeSystem sb).step s l = some next) :
  exists v', Synced sb v' next := by
 have hrest : s.OfAllocated sb l -> exists v', Synced sb v' next :=
  fun hallocated => synced_step h hallocated hstep
 cases l with
 | read i offset count =>
  rcases step_eq_some hstep with ⟨x, hcall⟩
  have hsame := meets_run (meets_readCall h.self hguard offset count) hcall
  rw [← hsame]
  exact ⟨v, h⟩
 | _ =>
  exact hrest hguard

structure FileOpen (sb : DiskLayout) (i : Nat) (s : FsState) : Prop where
 synced : exists v, Synced sb v s
 filled : (volumeOf sb s.blocks).Filled sb i
 inode : exists inode, s.inodes i = some inode ∧ inode.entry.type ≠ inodeDevice

theorem meets_writeCall (h : FileOpen sb i s) (src : Nat -> UInt8) (offset count : UInt64) :
  (call sb (.write i src offset count)).Meets s always
    (fun _ next => FileOpen sb i next) := by
 rcases h.synced with ⟨v, hsynced⟩
 rcases h.inode with ⟨inode, hinode, hdevice⟩
 have hopen := hsynced.self.opened hinode
 apply meets_bind (meets_read _)
 rintro _ _ ⟨rfl, rfl⟩
 rw [hinode]
 have hwrite : (do
  let result <- inodeWrite sb true inode src offset count
  pure result.2 : FsProgram Inode).Meets s always
  (fun result next => result.entry.type ≠ inodeDevice ∧ (volumeOf sb next.blocks).Filled sb i ∧
   exists v', Synced sb v'
    { next with inodes := Function.update next.inodes i (some result) }) := by
  apply meets_bind (meets_inodeWrite hopen (.inl trivial) (fun _ => room_always))
  rintro ⟨n, result⟩ next ⟨_, hoffset, v', hwrote, _⟩
  apply meets_pure
  refine ⟨?_, (hwrote.writesFile hopen h.filled hoffset).filled, v',
   hsynced.self.update hwrote.toOpened hwrote.inodes hwrote.others⟩
  have hfields := congrArg (fun inode => inode.entry.type) hwrote.fields
  rw [hfields]
  exact hdevice
 apply meets_bind hwrite
 rintro result next ⟨htype, hfilled, hsynced'⟩
 apply meets_imp (meets_change _)
 rintro _ _ rfl
 exact ⟨hsynced', hfilled, result, Function.update_self .., htype⟩

theorem meets_fileCall (h : FileOpen sb i s) (hguard : s.FileCall i l) :
  (call sb l).Meets s always (fun _ next => FileOpen sb i next) := by
 rcases h.synced with ⟨v, hsynced⟩
 cases l with
 | beginOp =>
  apply meets_bind (meets_require _ (fun _ => trivial))
  rintro _ _ ⟨rfl, _⟩
  apply meets_imp (meets_change _)
  rintro _ _ rfl
  exact ⟨⟨v, hsynced.represents, hsynced.consistent, hsynced.held, hsynced.inodes⟩,
   h.filled, h.inode⟩
 | endOp =>
  apply meets_imp (meets_change _)
  rintro _ _ rfl
  exact ⟨⟨v, hsynced.represents, hsynced.consistent, hsynced.held, hsynced.inodes⟩,
   h.filled, h.inode⟩
 | write j src offset count =>
  have hj : j = i := hguard
  rw [hj]
  exact meets_writeCall h src offset count
 | read j offset count =>
  have hj : j = i := hguard
  rw [hj]
  apply meets_imp (meets_readCall hsynced.self h.filled offset count)
  rintro _ _ rfl
  exact h
 | _ => exact absurd hguard id

theorem synced_of_reaches {start : FsState} (hstart : (inodeSystem sb).initial start)
  (hformat : (volumeOf sb start.blocks).Formatted sb)
  (hrun : Reaches (inodeSystem sb) (ReadsFilled sb) start s) :
  exists v, Synced sb v s := by
 apply reaches_invariant (fun s => exists v, Synced sb v s) _ hrun
 · exact ⟨_, synced_start hstart hformat⟩
 rintro s l next _ ⟨v, hv⟩ hguard hstep
 exact synced_step_reads hv hguard hstep

theorem Opened.writes {offset count : UInt64} (src : Nat -> UInt8)
  (h : Opened sb (volumeOf sb s.blocks) s i inode)
  (hadmitted : Admitted inode offset.toNat count.toNat)
  (hblocks : 0 < count.toNat -> s.blocksFor sb i inode offset.toNat count.toNat ≤
    (volumeOf sb s.blocks).freeCount sb) :
  s.WriteLogs sb i inode src offset count := by
 let ample : FsState := { s with rm := s.entriesFor sb i inode offset.toNat count.toNat }
 have hample : Opened sb (volumeOf sb s.blocks) ample i inode := { h with }
 have hroom : 0 < count.toNat -> RoomForWrite never sb i (volumeOf sb s.blocks) inode.entry ample
  (offset.toNat / blockSize) (endBlock offset.toNat count.toNat) := by
  intro hpos
  unfold RoomForWrite
  rw [h.setEntry]
  exact ⟨.inr le_rfl, .inr (hblocks hpos)⟩
 have hmeets : (inodeWrite sb true inode src offset count).Meets ample never _ :=
  meets_inodeWrite hample (.inr hadmitted) hroom
 rcases meets_returns hmeets with ⟨r, s', hrun, _⟩
 rcases logs_inodeWrite _ _ _ _ _ _ _ _ _ hrun with ⟨added, hlogged⟩
 refine ⟨added, hlogged.length_le hrun, ?_, fun rm => ?_⟩
 · rw [← hlogged.header]
   exact hlogged.nodup
 have hbudget := hlogged.budget rm
 split
 · rename_i hle
   exact ⟨r, _, hbudget.trans (if_pos hle), hlogged.header⟩
 · rename_i hmany
   exact hbudget.trans (if_neg hmany)

theorem inode_byteArray_of_reaches {start mid : FsState} {inode₀ : Inode}
  (hstart : (inodeSystem sb).initial start)
  (hformat : (volumeOf sb start.blocks).Formatted sb)
  (hrun : Reaches (inodeSystem sb) (FsState.ReadsFilled sb) start mid)
  (hopen : mid.inodes i = some inode₀) (hdevice : inode₀.entry.type ≠ inodeDevice)
  (hfilled : (volumeOf sb mid.blocks).Filled sb i)
  (hcalls : Reaches (inodeSystem sb) (FsState.FileCall i) mid s)
  (hinode : s.inodes i = some inode) :
  (volumeOf sb s.blocks).Filled sb i ∧
  (forall (src : Nat -> UInt8) (offset count : UInt64), offset.toNat ≤ inode.entry.numBytes.toNat ->
    offset.toNat + count.toNat ≤ inodeMaxBytes ->
    ((0 < count.toNat -> s.blocksFor sb i inode offset.toNat count.toNat ≤
        (volumeOf sb s.blocks).freeCount sb) ->
      s.WriteLogs sb i inode src offset count) ∧
    forall r s', inodeWrite sb true inode src offset count s = .ok (r, s') ->
      r.1 = count ∧ WritesFile sb i (FileBytes.tabulate count.toNat src) offset.toNat
        (volumeOf sb s.blocks) (volumeOf sb s'.blocks)) ∧
  (forall offset count : UInt64, offset.toNat ≤ inode.entry.numBytes.toNat ->
    offset.toNat + count.toNat < 2 ^ 64 -> exists n,
      inodeRead sb inode offset count s =
        .ok ((n, FileBytes.read ((volumeOf sb s.blocks).contents sb i)
          offset.toNat count.toNat, inode), s) ∧
      n.toNat = min count.toNat (inode.entry.numBytes.toNat - offset.toNat)) := by
 have hmid := synced_of_reaches hstart hformat hrun
 have hfile : FileOpen sb i s := by
  apply reaches_invariant (FileOpen sb i) _ hcalls
  · exact ⟨hmid, hfilled, inode₀, hopen, hdevice⟩
  intro s l next _ h hguard hstep
  rcases step_eq_some hstep with ⟨x, hcall⟩
  have hnext := meets_run (meets_fileCall h hguard) hcall
  exact hnext
 rcases hfile.synced with ⟨v, hsynced⟩
 have hopened := hsynced.self.opened hinode
 have hnotDevice : inode.entry.type ≠ inodeDevice := by
  rcases hfile.inode with ⟨other, hother, htype⟩
  rw [hinode] at hother
  cases hother
  exact htype
 refine ⟨hfile.filled, ?_, ?_⟩
 · intro src offset count hoffset hfits
   constructor
   · intro hblocks
     exact hopened.writes src ⟨hnotDevice, hoffset, hfits⟩ hblocks
   intro r s' hwrite
   rcases meets_run (meets_inodeWrite hopened (.inl trivial) (fun _ => room_always))
    hwrite with ⟨hcount, _, v', hwrote, _⟩
   exact ⟨hcount, hwrote.writesFile hopened hfile.filled hoffset⟩
 intro offset count hoffset hwrap
 rcases meets_returns (meets_inodeRead hopened hfile.filled
  (.inr ⟨hnotDevice, hoffset, hwrap⟩)) with ⟨⟨n, bytes, result⟩, next, hread, hpost⟩
 rcases hpost with ⟨hn, rfl, rfl, rfl⟩
 exact ⟨n, hread, hn⟩

/-!
# A file on a small disk
-/

instance (i : Nat) (s : FsState) : (l : InodeLabel) -> Decidable (s.FileCall i l)
 | .beginOp | .endOp => isTrue trivial
 | .write j _ _ _ | .read j _ _ => Nat.decEq j i
 | .alloc _ | .get _ | .clear _ | .put _ => isFalse id

def FsState.smallOpen (sb : DiskLayout) (s : FsState) (i : Nat) : Bool :=
 (s.inodes i).any (fun inode => decide (inode.entry.type ≠ inodeDevice)) &&
  decide (((volumeOf sb s.blocks).entry i).numBytes.toNat = 0 ∨
   ((volumeOf sb s.blocks).entry i).numBytes.toNat ≤ blockSize ∧
    (volumeOf sb s.blocks).firstAddr sb i ≠ 0)

theorem FsState.smallOpen_spec {i : Nat} (h : s.smallOpen sb i) :
  (exists inode, s.inodes i = some inode ∧ inode.entry.type ≠ inodeDevice) ∧
    (volumeOf sb s.blocks).Filled sb i := by
 unfold smallOpen at h
 rw [Bool.and_eq_true] at h
 constructor
 · cases hinode : s.inodes i with
   | none =>
    rw [hinode] at h
    exact absurd h.left (by simp)
   | some inode =>
    rw [hinode] at h
    exact ⟨inode, rfl, by simpa using h.left⟩
 rcases of_decide_eq_true h.right with hempty | hsmall
 · intro k hk
   omega
 intro k hk
 have hzero : k = 0 := by
  unfold blockSize at *
  omega
 rw [hzero]
 exact hsmall.right

theorem FsState.readsFilled_of_allocated (h : s.OfAllocated sb l) : s.ReadsFilled sb l := by
 cases l with
 | read i offset count => exact absurd h id
 | _ => exact h

def oneFile : FsState :=
 smallState (InodeEntry.fresh inodeRegular) (smallFile 20) [0, 1, 2, 3, 4, 20] zeroBlock

def oneFileOpened : FsState :=
 (execute (inodeSystem smallDisk) (OfAllocated smallDisk) oneFile
  [.beginOp, .get 8]).get (by decide +kernel)

theorem oneFileOpened_reaches : Reaches (inodeSystem smallDisk) (ReadsFilled smallDisk) oneFile
    oneFileOpened := by
 apply reaches_mono (fun _ _ h => readsFilled_of_allocated h)
 exact execute_reaches (Option.some_get _).symm

def FsState.twoBytes (s : FsState) : Bool :=
 (s.inodes 8).any (fun inode => decide (inode.entry.numBytes = 512 ∧
  FileBytes.read ((volumeOf smallDisk s.blocks).contents smallDisk 8) 3 2 = [7, 8] ∧
  s.blocksFor smallDisk 8 inode 512 1 ≤
   (volumeOf smallDisk s.blocks).freeCount smallDisk ∧
  s.entriesFor smallDisk 8 inode 512 1 ≤ s.rm))

open InodeLabel in
/-- Two bytes are written into a file and read back, and there is room for a block. -/
theorem inode_byteArray_two_bytes :
  exists s inode, Reaches (inodeSystem smallDisk) (FsState.FileCall 8) oneFileOpened s ∧
    s.inodes 8 = some inode ∧
    (exists n, inodeRead smallDisk inode 3 2 s =
      .ok ((n, [7, 8], inode), s) ∧ n.toNat = 2) ∧
    exists r s', inodeWrite smallDisk true inode (fun _ => 9) 512 1 s =
      .ok (r, s') := by
 have hsmall : (volumeOf smallDisk oneFile.blocks).SmallFiles smallDisk ∧
  (volumeOf smallDisk oneFile.blocks).SmallFsck smallDisk := by
  decide +kernel
 have hformat := hsmall.left.formatted (by decide +kernel) (by decide +kernel)
 have hopened : oneFileOpened.smallOpen smallDisk 8 := by decide +kernel
 rcases smallOpen_spec hopened with ⟨⟨inode₀, hinode₀, hdevice⟩, hfilled⟩
 rcases exists_reaches_of_execute (inodeSystem smallDisk) (FileCall 8)
  oneFileOpened [write 8 (fun x => if x = 0 then 7 else 8) 3 2, read 8 0 512]
  (fun s => s.twoBytes = true) (by decide +kernel) with ⟨s, hcalls, htest⟩
 unfold twoBytes at htest
 cases hinode : s.inodes 8 with
 | none =>
  rw [hinode] at htest
  cases htest
 | some inode =>
  rw [hinode] at htest
  rcases of_decide_eq_true htest with ⟨hsize, hread, hblocks, hentries⟩
  have hfile := inode_byteArray_of_reaches (start_smallState hsmall) hformat
   oneFileOpened_reaches hinode₀ hdevice hfilled hcalls hinode
  rcases hfile with ⟨_, hwrites, hreads⟩
  have hsize' : inode.entry.numBytes.toNat = 512 := by
   rw [hsize]
   rfl
  have hthree : (3 : UInt64).toNat = 3 := rfl
  have htwo : (2 : UInt64).toNat = 2 := rfl
  rcases hreads 3 2 (by omega) (by omega) with ⟨n, hcall, hn⟩
  rw [hthree, htwo, hread] at hcall
  refine ⟨s, inode, hcalls, hinode, ⟨n, hcall, by omega⟩, ?_⟩
  have hnew : (512 : UInt64).toNat = 512 := rfl
  have hone : (1 : UInt64).toNat = 1 := rfl
  rcases (hwrites (fun _ => 9) 512 1 (by omega) (by rw [hnew, hone]; decide)).left
   (fun _ => hblocks) with ⟨added, hadded, _, hbudget⟩
  have hrun := hbudget s.rm
  rw [if_pos (Nat.le_trans hadded hentries)] at hrun
  rcases hrun with ⟨r, s', hwrite, _⟩
  exact ⟨r, s', hwrite⟩

/-!
# Calls that fail
-/

def tinyDisk : DiskLayout where
 numBlocks := 207
 numInodes := 16
 numLogBlocks := 64
 logStart := 143
 inodeStart := 2
 bitmapStart := 4
 dataStart := 5
 inode_area := smallDisk.inode_area
 bitmap_area := by decide
 data_area := by decide
 swap_area := by decide

def tinyFile : FsState :=
 smallState (InodeEntry.fresh inodeRegular) (smallFile 5) [0, 1, 2, 3, 4, 5] zeroBlock

def sharedFile : FsState := smallState (smallFile 20) (smallFile 20) [0, 1, 2, 3, 4, 20] zeroBlock

theorem open_of_execute (sb : DiskLayout) (start : FsState) (schedule : List InodeLabel) (i : Nat)
  (found : FsState -> Inode -> Prop) [forall s inode, Decidable (found s inode)]
  (h : (execute (inodeSystem sb) (OfAllocated sb) start schedule).any (fun s =>
    decide (s.smallOpen sb i ∧ exists inode, inode ∈ s.inodes i ∧ found s inode))) :
  exists s, Reaches (inodeSystem sb) (ReadsFilled sb) start s ∧ exists inode,
    s.inodes i = some inode ∧ inode.entry.type ≠ inodeDevice ∧
    (volumeOf sb s.blocks).Filled sb i ∧ found s inode := by
 rcases exists_reaches_of_execute _ _ start schedule _ h with
  ⟨s, hrun, hopen, inode, hinode, hfound⟩
 rcases smallOpen_spec hopen with ⟨⟨_, hsame, hdevice⟩, hfilled⟩
 cases Option.some.inj (hsame.symm.trans hinode)
 exact ⟨s, reaches_mono (fun _ _ h => readsFilled_of_allocated h) hrun, inode, hinode,
  hdevice, hfilled, hfound⟩

def FsState.StopsOn {result : Type} (sb : DiskLayout) (s : FsState) (i : Nat)
  (why : Stop) (admitted : Inode -> Prop) (call : Inode -> FsProgram result) : Prop :=
 exists inode, s.inodes i = some inode ∧ inode.entry.type ≠ inodeDevice ∧
  (volumeOf sb s.blocks).Filled sb i ∧ admitted inode ∧ call inode s = .error why

def FsState.ChangesOther (sb : DiskLayout) (s : FsState) (i j : Nat)
  (call : Inode -> FsProgram (UInt64 × Inode)) : Prop :=
 exists inode r s', s.inodes i = some inode ∧ inode.entry.type ≠ inodeDevice ∧
  (volumeOf sb s.blocks).Filled sb i ∧ call inode s = .ok (r, s') ∧
  (volumeOf sb s'.blocks).contents sb j ≠
   (volumeOf sb s.blocks).contents sb j

theorem changesOther_of_execute (sb : DiskLayout) (start : FsState)
  (schedule : List InodeLabel) (i j : Nat) (call : Inode -> FsProgram (UInt64 × Inode))
  (h : (execute (inodeSystem sb) (OfAllocated sb) start schedule).any (fun s =>
    decide (s.smallOpen sb i ∧ exists inode, inode ∈ s.inodes i ∧ exists r,
      r ∈ (call inode s).toOption ∧
      ((volumeOf sb r.2.blocks).contents sb j)[0]? ≠
        ((volumeOf sb s.blocks).contents sb j)[0]?))) :
  exists s, Reaches (inodeSystem sb) (ReadsFilled sb) start s ∧
    s.ChangesOther sb i j call := by
 rcases open_of_execute sb start schedule i _ h with
  ⟨s, hrun, inode, hinode, hdevice, hfilled, r, hresult, hchanged⟩
 have hcall : call inode s = .ok r := by
  cases hcall : call inode s with
  | error why =>
   rw [hcall] at hresult
   cases hresult
  | ok other =>
   rw [hcall] at hresult
   exact congrArg Except.ok (Option.some.inj hresult)
 refine ⟨s, hrun, inode, r.1, r.2, hinode, hdevice, hfilled, hcall, ?_⟩
 intro heq
 apply hchanged
 rw [heq]

open InodeLabel in
/--
A read whose end wraps around fails an assertion; a write for which the log
entries of the operation do not suffice fails one in `cache_sync`; a write for
which the free blocks do not suffice panics in `cache_alloc`; and a write of a
block that two files share changes both.
-/
theorem inode_byteArray_fails : ((inodeSystem smallDisk).initial oneFile ∧ exists s,
    Reaches (inodeSystem smallDisk) (FsState.ReadsFilled smallDisk) oneFile s ∧
    s.StopsOn smallDisk 8 .failed (fun inode => 1 ≤ inode.entry.numBytes.toNat)
      (fun inode => inodeRead smallDisk inode 1 18446744073709551615)) ∧
  (exists s, Reaches (inodeSystem smallDisk) (FsState.ReadsFilled smallDisk) oneFile s ∧
    s.StopsOn smallDisk 1 .logFull (fun _ => 0 + 4608 ≤ inodeMaxBytes)
      (fun inode => inodeWrite smallDisk true inode (fun _ => 7) 0 4608)) ∧
  ((inodeSystem tinyDisk).initial tinyFile ∧ exists s,
    Reaches (inodeSystem tinyDisk) (FsState.ReadsFilled tinyDisk) tinyFile s ∧
    s.StopsOn tinyDisk 1 .noBlock (fun _ => 0 + 1024 ≤ inodeMaxBytes)
      (fun inode => inodeWrite tinyDisk true inode (fun _ => 7) 0 1024)) ∧
  (exists s, Reaches (inodeSystem smallDisk) (FsState.ReadsFilled smallDisk) sharedFile s ∧
    s.ChangesOther smallDisk 1 8
      (fun inode => inodeWrite smallDisk true inode (fun _ => 7) 0 1)) := by
 refine ⟨⟨?_, ?_⟩, ?_, ⟨?_, ?_⟩, ?_⟩
 · exact start_smallState (by decide +kernel)
 · exact open_of_execute smallDisk oneFile [beginOp, get 8] 8 _ (by decide +kernel)
 · exact open_of_execute smallDisk oneFile [beginOp, get 1] 1 _ (by decide +kernel)
 · exact start_smallState (by decide +kernel)
 · exact open_of_execute tinyDisk tinyFile [beginOp, get 1] 1 _ (by decide +kernel)
 · exact changesOther_of_execute smallDisk sharedFile [beginOp, get 1] 1 8 _ (by decide +kernel)

end OSLab.Fs
