import OSLab.Fs.File.Table
import OSLab.Fs.Inode.Contents
import Mathlib.Algebra.Order.BigOperators.Group.Finset

/-!
# Reading and writing through a file

`filewrite` cuts a write into pieces and gives each piece an operation of the log of its
own.  A piece touches at most four blocks of the file, of which the first is there
already if the piece begins inside it, so the budget of an operation suffices, and the
pieces together replace one range of the file.
-/

namespace OSLab.Fs
open Foundation Program TransitionSystem List FileBytes UInt64 FsState

def maxOpWriteN : Nat := (opMaxNumBlocks - 1 - 1 - 2) / 2 * blockSize

def writeTotal (off n : UInt64) : UInt64 := min n (ofNat inodeMaxBytes - off)

def opCount (left : UInt64) : UInt64 := min left (ofNat maxOpWriteN)

def inodesWrite (sb : SuperBlock) (i : Nat) (src : Nat -> UInt8) (offset count : UInt64) :
  FsProgram UInt64 := do
 let inodes <- Program.read (fun s => s.inodes)
 match inodes i with
 | none => Program.stop .failed
 | some inode =>
  let result <- inodeWrite sb true inode src offset count
  setInode i (some result.2)
  pure result.1

def writeOp (sb : SuperBlock) (i : Nat) (src : Nat -> UInt8) (offset count : UInt64) :
  FsProgram UInt64 := do
 beginOp sb
 inodesWrite sb i src offset count

/-- The loop of `filewrite`, with `f->off` and `nwrite`; every round writes a byte. -/
def filewriteLoop (sb : SuperBlock) (i : Nat) (addr : Nat -> UInt8) (n : UInt64) :
  Nat -> UInt64 -> UInt64 -> FsProgram (UInt64 × UInt64)
 | 0, off, nwrite => if nwrite < n then Program.stop .failed else pure (off, nwrite)
 | fuel + 1, off, nwrite =>
  if nwrite < n then do
   let w <- writeOp sb i (fun x => addr (nwrite.toNat + x)) off (opCount (n - nwrite))
   endOp
   filewriteLoop sb i addr n fuel (off + w) (nwrite + w)
  else
   pure (off, nwrite)

/-- `filewrite`, for a file that is no pipe; `n` is the count as a `usize`. -/
def filewrite (sb : SuperBlock) (f : File) (addr : Nat -> UInt8) (n : UInt64) :
  FsProgram (Int × File) :=
 if f.writable = false then pure (-1, f)
 else match f.type, f.ip with
  | .inode, some ip => do
   let total := writeTotal f.off n
   let done <- filewriteLoop sb ip addr total total.toNat f.off 0
   pure (done.2.toNat, { f with off := done.1 })
  | _, _ => Program.stop .failed

/-- `fileread`, for a file that is no pipe, with the bytes that it copies. -/
def fileread (sb : SuperBlock) (f : File) (n : UInt64) : FsProgram (Int × List UInt8 × File) :=
 if f.readable = false then pure (-1, [], f)
 else match f.type, f.ip with
  | .inode, some ip => do
   let inodes <- Program.read (fun s => s.inodes)
   match inodes ip with
   | none => Program.stop .failed
   | some inode =>
    let result <- inodeRead sb inode f.off n
    setInode ip (some result.2.2)
    pure (result.1.toNat, result.2.1, { f with off := f.off + result.1 })
  | _, _ => Program.stop .failed

theorem opCount_toNat (left : UInt64) : (opCount left).toNat = min left.toNat maxOpWriteN := by
 have hmax : (ofNat maxOpWriteN).toNat = maxOpWriteN := rfl
 unfold opCount
 rw [toNat_min, hmax]

theorem writeTotal_toNat {off n : UInt64} (h : off.toNat ≤ inodeMaxBytes) :
  (writeTotal off n).toNat = min n.toNat (inodeMaxBytes - off.toNat) := by
 have hmax : (UInt64.ofNat inodeMaxBytes).toNat = inodeMaxBytes := rfl
 have hle : off ≤ ofNat inodeMaxBytes := by
  rw [le_iff_toNat_le, hmax]
  exact h
 unfold writeTotal
 rw [UInt64.toNat_min, UInt64.toNat_sub_of_le _ _ hle, hmax]

/-!
# Pieces of a range
-/

namespace FileBytes
variable {file bytes more : List UInt8} {offset : Nat}

theorem write_nil (file : List UInt8) (offset : Nat) : write file offset [] = file := by
 unfold write
 rw [append_nil, length_nil, Nat.add_zero, take_append_drop]

theorem write_append (h : offset ≤ file.length) :
  write (write file offset bytes) (offset + bytes.length) more =
    write file offset (bytes ++ more) := by
 have hlength : (file.take offset ++ bytes).length = offset + bytes.length := by
  rw [length_append, length_take, Nat.min_eq_left h]
 unfold write
 rw [take_left' hlength, ← drop_drop, drop_left' hlength, drop_drop,
  length_append, Nat.add_assoc, append_assoc (file.take offset)]

theorem read_write (bytes : List UInt8) (h : offset ≤ file.length) :
  read (write file offset bytes) offset bytes.length = bytes := by
 have hlength : (file.take offset).length = offset := by rw [length_take, Nat.min_eq_left h]
 unfold read write
 rw [append_assoc, drop_left' hlength, take_left]

end FileBytes

variable {sb : DiskLayout} {i : Nat} {v : Volume} {inode : Inode} {s : FsState}
 {src : Nat -> UInt8} {off count : UInt64} {stops : Stop -> Prop}

structure Holding (sb : DiskLayout) (i : Nat) (v : Volume) (inode : Inode) (s : FsState) :
  Prop where
 synced : Synced sb v s
 filled : v.Filled sb i
 found : s.inodes i = some inode
 notDevice : inode.entry.type ≠ inodeDevice

theorem FileOpen.holding (h : FileOpen sb i s) (hinode : s.inodes i = some inode) :
  Holding sb i (volumeOf sb s.blocks) inode s := by
 rcases h.synced with ⟨v, hsynced⟩
 rcases h.inode with ⟨other, hother, hdevice⟩
 rw [hinode] at hother
 cases hother
 exact ⟨hsynced.self, h.filled, hinode, hdevice⟩

theorem Holding.entry (h : Holding sb i v inode s) : v.entry i = inode.entry :=
 (h.synced.opened h.found).entry

theorem Holding.budget (h : Holding sb i v inode s) (header : List Nat) (rm : Nat) :
    Holding sb i v inode { s with header := header, rm := rm } := { h with
 synced := ⟨h.synced.represents, h.synced.consistent, h.synced.held, h.synced.inodes⟩ }

structure Replaced (sb : DiskLayout) (i : Nat) (v : Volume) (inode : Inode) (offset : Nat)
  (bytes : List UInt8) (v' : Volume) (inode' : Inode) (s' : FsState) : Prop
  extends Holding sb i v' inode' s' where
 contents : v'.contents sb i = write (v.contents sb i) offset bytes
 size : inode'.entry.numBytes.toNat = max inode.entry.numBytes.toNat (offset + bytes.length)

section
variable (h : Holding sb i v inode s)
include h

theorem Holding.length_contents : (v.contents sb i).length = inode.entry.numBytes.toNat := by
 unfold Volume.contents
 rw [length_tabulate, h.entry]

theorem Holding.replaced {offset : Nat} (hoffset : offset ≤ inode.entry.numBytes.toNat) :
  Replaced sb i v inode offset [] v inode s where
 toHolding := h
 contents := (write_nil _ _).symm
 size := (Nat.max_eq_left hoffset).symm

theorem Replaced.append {offset : Nat} {bytes more : List UInt8} {v' v'' : Volume}
  {inode' inode'' : Inode} {s' s'' : FsState} (hoffset : offset ≤ inode.entry.numBytes.toNat)
  (hfirst : Replaced sb i v inode offset bytes v' inode' s')
  (hrest : Replaced sb i v' inode' (offset + bytes.length) more v'' inode'' s'') :
  Replaced sb i v inode offset (bytes ++ more) v'' inode'' s'' where
 toHolding := hrest.toHolding
 contents := by
  rw [hrest.contents, hfirst.contents]
  apply write_append
  rw [h.length_contents]
  exact hoffset
 size := by
  rw [hrest.size, hfirst.size, length_append]
  omega

/-!
# One round
-/

theorem Holding.writeCost_le {offset count : Nat}
  (hoffset : offset ≤ inode.entry.numBytes.toNat) (hpos : 0 < count)
  (hcount : count ≤ maxOpWriteN) :
  endBlock offset count - offset / blockSize +
    v.newBlocks sb i (offset / blockSize) (endBlock offset count) ≤ 7 := by
 have hsum : forall a b, v.newBlocks sb i a b ≤ b - a := by
  intro a b
  have hbound : v.newBlocks sb i a b ≤ (Finset.Ico a b).card • 1 :=
   Finset.sum_le_card_nsmul _ _ 1 (fun k _ => by split <;> decide)
  rw [Nat.card_Ico, nsmul_eq_mul, Nat.mul_one] at hbound
  exact hbound
 have hspan : endBlock offset count - offset / blockSize ≤ 4 ∧
  (offset % blockSize = 0 -> endBlock offset count - offset / blockSize ≤ 3) ∧
  offset / blockSize < endBlock offset count := by
  unfold endBlock
  unfold maxOpWriteN opMaxNumBlocks at hcount
  unfold blockSize at *
  omega
 by_cases haligned : offset % blockSize = 0
 · have hall := hsum (offset / blockSize) (endBlock offset count)
   omega
 -- the write begins inside a block that the file has
 have hlast : offset / blockSize * blockSize < (v.entry i).numBytes.toNat := by
  rw [h.entry]
  unfold blockSize at *
  omega
 have hnew := Volume.newBlocks_succ sb v i hspan.right.right
 rw [if_neg (h.filled _ hlast)] at hnew
 have hrest := hsum (offset / blockSize + 1) (endBlock offset count)
 omega
end

theorem RoomOnDisk.mono {e : InodeEntry} {a b : Nat} (h : RoomOnDisk sb i v e b) (hle : a ≤ b) :
  RoomOnDisk sb i v e a := by
 have hsub : (v.setEntry i e).newBlocks sb i 0 a ≤ (v.setEntry i e).newBlocks sb i 0 b :=
  Finset.sum_le_sum_of_subset (Finset.Ico_subset_Ico_right hle)
 have htable : e.tableFree a ≤ e.tableFree b := by
  unfold InodeEntry.tableFree
  by_cases ha : inodeNumDirect < a ∧ e.indirect = 0
  · rw [if_pos ha, if_pos ⟨Nat.lt_of_lt_of_le ha.left hle, ha.right⟩]
  · rw [if_neg ha]
    exact Nat.zero_le _
 unfold RoomOnDisk at h ⊢
 omega

theorem Holding.room (h : Holding sb i v inode s) {offset count : Nat}
  (hoffset : offset ≤ inode.entry.numBytes.toNat) (hpos : 0 < count)
  (hcount : count ≤ maxOpWriteN) (hrm : s.rm = opMaxNumBlocks)
  (hdisk : stops .noBlock ∨ RoomOnDisk sb i v inode.entry (endBlock offset count)) :
  RoomForWrite stops sb i v inode.entry s (offset / blockSize) (endBlock offset count) := by
 have hset : v.setEntry i inode.entry = v := (h.synced.opened h.found).setEntry
 unfold RoomForWrite
 unfold RoomOnDisk at hdisk
 rw [hset] at hdisk ⊢
 refine ⟨.inr ?_, hdisk.imp_right fun hfree => ?_⟩
 · have hcost := h.writeCost_le hoffset hpos hcount
   have htable : inode.entry.tableDue s.header (endBlock offset count) ≤ 2 := by
    unfold InodeEntry.tableDue
    split_ifs <;> decide
   unfold opMaxNumBlocks at hrm
   omega
 have hsub : v.newBlocks sb i (offset / blockSize) (endBlock offset count) ≤
  v.newBlocks sb i 0 (endBlock offset count) :=
  Finset.sum_le_sum_of_subset (Finset.Ico_subset_Ico_left (Nat.zero_le _))
 omega

theorem meets_beginOp (hlog : stops .logWait ∨ s.header.length + opMaxNumBlocks ≤ sb.maxLogSize) :
  (beginOp sb).Meets s stops (fun _ next => { s with rm := opMaxNumBlocks } = next) := by
 refine meets_bind (meets_require _ ?_) ?_
 · exact fun hnot => hlog.resolve_right hnot
 rintro _ _ ⟨rfl, _⟩
 exact meets_change _

theorem meets_writeOp (h : Holding sb i v inode s)
  (hoffset : off.toNat ≤ inode.entry.numBytes.toNat) (hcount : count.toNat ≤ maxOpWriteN)
  (hfits : stops .failed ∨ off.toNat + count.toNat ≤ inodeMaxBytes)
  (hlog : stops .logWait ∨ s.header.length + opMaxNumBlocks ≤ sb.maxLogSize)
  (hdisk : stops .noBlock ∨ RoomOnDisk sb i v inode.entry (endBlock off.toNat count.toNat)) :
  (writeOp sb i src off count).Meets s stops (fun w next => w = count ∧
    exists v' inode', Replaced sb i v inode off.toNat (tabulate count.toNat src)
      v' inode' next ∧
      forall far, endBlock off.toNat count.toNat ≤ far ->
        RoomOnDisk sb i v inode.entry far -> RoomOnDisk sb i v' inode'.entry far) := by
 apply meets_bind (meets_beginOp hlog)
 rintro _ _ rfl
 have hbegun : Holding sb i v inode { s with rm := opMaxNumBlocks } := h.budget s.header _
 have hopen := hbegun.synced.opened hbegun.found
 apply meets_bind (meets_read _)
 rintro _ _ ⟨rfl, rfl⟩
 simp only [h.found]
 refine meets_bind (meets_inodeWrite hopen (hfits.imp_right fun hle => ⟨h.notDevice, hoffset, hle⟩)
  (fun hpos => hbegun.room hoffset hpos hcount rfl hdisk)) ?_
 rintro ⟨w, inode'⟩ next ⟨rfl, _, v', hwrote, hroom⟩
 apply meets_bind (meets_change _)
 rintro _ _ rfl
 refine meets_pure ⟨rfl, v', inode', ⟨⟨?_, ?_, ?_, ?_⟩, ?_, ?_⟩, hroom⟩
 · exact hbegun.synced.update hwrote.toOpened hwrote.inodes hwrote.others
 · exact hwrote.filled hopen h.filled hoffset
 · exact Function.update_self ..
 · have htype := congrArg (fun inode => inode.entry.type) hwrote.fields
   rw [htype]
   exact h.notDevice
 · exact hwrote.contents hopen h.filled hoffset
 · rw [← hwrote.entry, hwrote.filled_size hopen h.filled, h.entry, length_tabulate]

theorem logs_inodesWrite (sb : SuperBlock) (i : Nat) (src : Nat -> UInt8)
  (offset count : UInt64) : Logs (inodesWrite sb i src offset count) := by
 refine (logs_read _ fun _ _ => rfl).bind fun inodes => ?_
 split
 · exact logs_stop _
 have hset : forall inode, Logs (setInode i inode) :=
  fun _ => logs_change _ (fun _ => rfl) fun _ _ => rfl
 exact (logs_inodeWrite _ _ _ _ _ _).bind fun _ => (hset _).bind fun _ => logs_pure _

def FsState.RoundStops (sb : DiskLayout) (s : FsState) (i : Nat) (inode : Inode)
  (offset count : Nat) : Stop -> Prop
 | .logWait => sb.maxLogSize < s.header.length + opMaxNumBlocks
 | .failed => inodeMaxBytes < offset + count
 | .noBlock => ¬ RoomOnDisk sb i (volumeOf sb s.blocks) inode.entry
  (endBlock offset count)
 | .logFull | .held => False

/--
A round of `filewrite` on a file without holes adds at most `OP_MAX_NUM_BLOCKS` blocks to
the log, each once.  It stops only if there is no room in the log when it begins, if the
disk has too few blocks or if the assertion about the largest size fails.
-/
theorem filewrite_round_fits_log (src : Nat -> UInt8) (off count : UInt64)
  (h : FileOpen sb i s) (hinode : s.inodes i = some inode)
  (hoffset : off.toNat ≤ inode.entry.numBytes.toNat) (hcount : count.toNat ≤ maxOpWriteN) :
  (writeOp sb i src off count).Meets s
    (s.RoundStops sb i inode off.toNat count.toNat)
    (fun w next => w = count ∧ exists added, next.header = s.header ++ added ∧
      (s.header.Nodup -> next.header.Nodup) ∧ added.length ≤ opMaxNumBlocks) := by
 have hlogged : (writeOp sb i src off count).Meets s always (fun _ next => exists added,
  next.header = s.header ++ added ∧ (s.header.Nodup -> next.header.Nodup) ∧
   added.length ≤ opMaxNumBlocks) := by
  apply meets_bind (meets_beginOp (.inl trivial))
  rintro _ _ rfl
  exact (logs_inodesWrite sb i src off count).meets
 refine meets_imp (meets_and (meets_writeOp (h.holding hinode) hoffset hcount ?_ ?_ ?_) hlogged) ?_
 · exact Nat.lt_or_ge _ _
 · exact Nat.lt_or_ge _ _
 · exact (Classical.em _).symm
 rintro w next ⟨⟨hw, _⟩, hadded⟩
 exact ⟨hw, hadded⟩

/-!
# The loop
-/

variable {addr : Nat -> UInt8} {n nwrite : UInt64}

theorem meets_filewriteLoop {fuel far : Nat} (left : Nat) (h : Holding sb i v inode s)
  (hheader : s.header = []) (hlog : opMaxNumBlocks ≤ sb.maxLogSize)
  (hleft : n.toNat = nwrite.toNat + left) (hfuel : left ≤ fuel)
  (hoffset : off.toNat ≤ inode.entry.numBytes.toNat) (hfits : off.toNat + left ≤ inodeMaxBytes)
  (hfar : endBlock off.toNat left ≤ far) (hdisk : RoomOnDisk sb i v inode.entry far) :
  (filewriteLoop sb i addr n fuel off nwrite).Meets s never (fun r next =>
    r.2 = n ∧ r.1.toNat = off.toNat + left ∧ exists v' inode', Replaced sb i v inode off.toNat
        (tabulate left (fun x => addr (nwrite.toNat + x))) v' inode' next) := by
 induction fuel generalizing v inode s off nwrite left with
 | zero =>
  have hnone : ¬ nwrite < n := by
   rw [lt_iff_toNat_lt]
   omega
  unfold filewriteLoop
  rw [if_neg hnone]
  have hzero : left = 0 := by omega
  subst hzero
  exact meets_pure ⟨UInt64.toNat_inj.mp hleft.symm, rfl, v, inode, h.replaced hoffset⟩
 | succ fuel ih =>
  unfold filewriteLoop
  by_cases hlt : nwrite < n
  case neg =>
   have hzero : left = 0 := by
    rw [lt_iff_toNat_lt] at hlt
    omega
   subst hzero
   rw [if_neg hlt]
   exact meets_pure ⟨UInt64.toNat_inj.mp hleft.symm, rfl, v, inode, h.replaced hoffset⟩
  rw [if_pos hlt]
  have hle : nwrite ≤ n := UInt64.le_of_lt hlt
  have hcount : (opCount (n - nwrite)).toNat = min left maxOpWriteN := by
   rw [opCount_toNat, UInt64.toNat_sub_of_le _ _ hle, hleft, Nat.add_sub_cancel_left]
  generalize opCount (n - nwrite) = count at hcount
  have hcountLe : count.toNat ≤ maxOpWriteN := by omega
  have hpart : count.toNat ≤ left := by omega
  have hend : endBlock (off.toNat + count.toNat) (left - count.toNat) =
   endBlock off.toNat left := by
   unfold endBlock
   rw [Nat.add_assoc off.toNat, Nat.add_sub_cancel' hpart]
  have hsub : endBlock off.toNat count.toNat ≤ endBlock off.toNat left :=
   Nat.div_le_div_right (by omega)
  refine meets_bind (meets_writeOp h hoffset hcountLe (.inr (by omega))
   (.inr ?_) (.inr (hdisk.mono (Nat.le_trans hsub hfar)))) ?_
  · rw [hheader, length_nil, Nat.zero_add]
    exact hlog
  rintro w next ⟨rfl, v', inode', hpiece, hroom⟩
  apply meets_bind (meets_change _)
  rintro _ _ rfl
  have hmax : inodeMaxBytes < 2 ^ 64 := by decide
  have hn := toNat_lt n
  have hoff : (off + w).toNat = off.toNat + w.toNat := by
   rw [UInt64.toNat_add]
   omega
  have hwrite : (nwrite + w).toNat = nwrite.toNat + w.toNat := by
   rw [UInt64.toNat_add]
   omega
  have hprogress : 0 < w.toNat := by
   rw [lt_iff_toNat_lt] at hlt
   unfold maxOpWriteN opMaxNumBlocks blockSize at hcount
   omega
  have hsize := hpiece.size
  rw [length_tabulate] at hsize
  refine meets_imp (ih (left - w.toNat) (hpiece.toHolding.budget [] 0) rfl
   (by omega) (by omega) (by omega) (by omega) ?_ ?_) ?_
  · rw [hoff, hend]
    exact hfar
  · exact hroom far (Nat.le_trans hsub hfar) hdisk
  · rintro r s' ⟨hr, hoff', v'', inode'', hrest⟩
    refine ⟨hr, by omega, v'', inode'', ?_⟩
    rw [hoff, hwrite] at hrest
    have htotal : left = w.toNat + (left - w.toNat) := by omega
    rw [htotal, tabulate_add]
    apply hpiece.append h hoffset
    rw [length_tabulate]
    simp only [← Nat.add_assoc]
    exact hrest

/-!
# The calls
-/

theorem Holding.size_le (h : Holding sb i v inode s) :
  inode.entry.numBytes.toNat ≤ inodeMaxBytes := by
 have hopen := h.synced.opened h.found
 have hactive : v.Active sb i := ⟨hopen.bound, hopen.entry ▸ hopen.type⟩
 by_contra hbeyond
 have hlast : inodeMaxBlocks * blockSize < (v.entry i).numBytes.toNat := by
  rw [h.entry]
  exact Nat.lt_of_not_le hbeyond
 exact absurd (h.filled.lt_maxBlocks hlast hactive) (Nat.lt_irrefl _)

variable {f : File}

theorem meets_fileread (h : Holding sb i v inode s) (htype : f.type = .inode)
  (hip : f.ip = some i) (hreadable : f.readable)
  (hrange : f.off.toNat + n.toNat ≤ inode.entry.numBytes.toNat) :
  (fileread sb f n).Meets s never (fun r next => s = next ∧ r = ((n.toNat : Int),
    read (v.contents sb i) f.off.toNat n.toNat, { f with off := f.off + n })) := by
 have hmax : inodeMaxBytes < 2 ^ 64 := by decide
 have hsize := h.size_le
 have hopen := h.synced.opened h.found
 unfold fileread
 rw [if_neg (by rw [hreadable]; exact Bool.noConfusion), htype, hip]
 apply meets_bind (meets_read _)
 rintro _ _ ⟨rfl, rfl⟩
 simp only [h.found]
 refine meets_bind (meets_inodeRead hopen h.filled (.inr ⟨h.notDevice, ?_, ?_⟩)) ?_
 · omega
 · omega
 rintro ⟨m, bytes, result⟩ next ⟨hm, rfl, rfl, rfl⟩
 have hcount : m = n := by
  apply UInt64.toNat_inj.mp
  rw [hm]
  omega
 subst hcount
 apply meets_bind (meets_change _)
 rintro _ _ rfl
 refine meets_pure ⟨?_, rfl⟩
 rw [← h.found, Function.update_eq_self]

/--
`filewrite` puts the bytes in place of one range of the file, whatever the pieces are,
and `fileread` at the old offset returns them.
-/
theorem filewrite_replaces_range (addr : Nat -> UInt8) (h : FileOpen sb i s)
  (hinode : s.inodes i = some inode)
  (hidle : s.header = []) (hlog : opMaxNumBlocks ≤ sb.maxLogSize)
  (htype : f.type = FileType.inode) (hip : f.ip = some i) (hwritable : f.writable = true)
  (hoffset : f.off.toNat ≤ inode.entry.numBytes.toNat) {k : Nat}
  (hk : k = min n.toNat (inodeMaxBytes - f.off.toNat))
  (hdisk : RoomOnDisk sb i (volumeOf sb s.blocks) inode.entry
    (endBlock f.off.toNat k)) :
  exists off s', filewrite sb f addr n s =
      .ok (((k : Int), { f with off := off }), s') ∧
    off.toNat = f.off.toNat + k ∧
    (volumeOf sb s'.blocks).contents sb i =
      write ((volumeOf sb s.blocks).contents sb i) f.off.toNat
        (tabulate k addr) ∧
    (exists inode', s'.inodes i = some inode' ∧
      inode'.entry.numBytes.toNat = max inode.entry.numBytes.toNat (f.off.toNat + k)) ∧
    (f.readable = true -> fileread sb f (UInt64.ofNat k) s' =
      .ok (((k : Int), tabulate k addr, { f with off := off }), s')) := by
 have hhold := h.holding hinode
 have hsize := hhold.size_le
 have htotal := writeTotal_toNat (n := n) (Nat.le_trans hoffset hsize)
 rw [← hk] at htotal
 have hwrite : (filewrite sb f addr n).Meets s never (fun r next =>
  exists off, r = ((k : Int), { f with off := off }) ∧ off.toNat = f.off.toNat + k ∧
   exists v' inode', Replaced sb i (volumeOf sb s.blocks) inode f.off.toNat
    (tabulate k addr) v' inode' next) := by
  unfold filewrite
  rw [if_neg (by rw [hwritable]; exact Bool.noConfusion), htype, hip]
  refine meets_bind (meets_filewriteLoop k hhold hidle hlog ?_ ?_ hoffset ?_
   (Nat.le_refl _) hdisk) ?_
  · rw [htotal, UInt64.toNat_zero, Nat.zero_add]
  · rw [htotal]
  · omega
  rintro ⟨off, m⟩ next ⟨hm, hoff, v', inode', hreplaced⟩
  simp only [UInt64.toNat_zero, Nat.zero_add] at hm hreplaced
  refine meets_pure ⟨off, ?_, hoff, v', inode', hreplaced⟩
  rw [hm, htotal]
 rcases meets_returns hwrite with ⟨_, s', hrun, off, rfl, hoff, v', inode', hreplaced⟩
 have hopen := hreplaced.synced.opened hreplaced.found
 have hsize' := hreplaced.size
 have hcontents := hreplaced.contents
 rw [length_tabulate] at hsize'
 refine ⟨off, s', hrun, hoff, ?_, ⟨inode', hreplaced.found, hsize'⟩, fun hreadable => ?_⟩
 · rw [hopen.represents.contents_volumeOf hopen.consistent hopen.bound]
   exact hcontents
 have hmax : inodeMaxBytes < 2 ^ 64 := by decide
 have hcount : (UInt64.ofNat k).toNat = k := by
  rw [UInt64.toNat_ofNat', Nat.mod_eq_of_lt (by omega)]
 rcases meets_returns (meets_fileread (n := UInt64.ofNat k) hreplaced.toHolding htype hip
  hreadable (by omega)) with ⟨_, _, hread, rfl, rfl⟩
 have hnext : f.off + UInt64.ofNat k = off := by
  apply UInt64.toNat_inj.mp
  rw [UInt64.toNat_add, hcount]
  omega
 have hbytes : read (v'.contents sb i) f.off.toNat k = tabulate k addr := by
  have hle : f.off.toNat ≤ ((volumeOf sb s.blocks).contents sb i).length := by
   rw [hhold.length_contents]
   exact hoffset
  have hback := read_write (tabulate k addr) hle
  rw [length_tabulate, ← hcontents] at hback
  exact hback
 rw [hcount, hbytes, hnext] at hread
 exact hread

/-!
# Two rounds, and a full disk
-/

def openFile (ip : Nat) (off : UInt64) : File where
 type := .inode
 ref := 1
 readable := true
 writable := true
 pipe := none
 ip := some ip
 off := off

instance (sb : DiskLayout) (i : Nat) (v : Volume) (e : InodeEntry) (far : Nat) :
  Decidable (RoomOnDisk sb i v e far) :=
 inferInstanceAs (Decidable (_ ≤ _))

theorem oneFileOpened_spec : FileOpen smallDisk 8 oneFileOpened ∧ exists inode,
  oneFileOpened.inodes 8 = some inode ∧ inode.entry.numBytes = 512 ∧ oneFileOpened.header = [] ∧
    RoomOnDisk smallDisk 8 (volumeOf smallDisk oneFileOpened.blocks) inode.entry 4 := by
 have hsmall : (volumeOf smallDisk oneFile.blocks).SmallFiles smallDisk ∧
  (volumeOf smallDisk oneFile.blocks).SmallFsck smallDisk := by
  decide +kernel
 have hopened : oneFileOpened.smallOpen smallDisk 8 := by decide +kernel
 rcases smallOpen_spec hopened with ⟨hinode, hfilled⟩
 have hformat := hsmall.left.formatted (by decide +kernel) (by decide +kernel)
 refine ⟨⟨?_, hfilled, hinode⟩, by decide +kernel⟩
 exact synced_of_reaches (start_smallState hsmall) hformat oneFileOpened_reaches

/-- A round that begins inside the block of the file and ends three blocks later. -/
theorem filewrite_round_of_four_blocks :
  exists next, writeOp smallDisk 8 (fun _ => 7) 300 1536 oneFileOpened =
      .ok (1536, next) ∧ next.header.length ≤ opMaxNumBlocks := by
 rcases oneFileOpened_spec with ⟨hopen, inode, hinode, hsize, hheader, hroom⟩
 have hround := filewrite_round_fits_log (fun _ => 7) 300 1536
  hopen hinode (by rw [hsize]; decide) (by decide)
 have hgoes : forall why, ¬ oneFileOpened.RoundStops smallDisk 8 inode 300 1536 why := by
  intro why hwhy
  cases why with
  | logWait =>
   change _ < oneFileOpened.header.length + _ at hwhy
   rw [hheader] at hwhy
   exact absurd hwhy (by decide)
  | failed =>
   change inodeMaxBytes < 300 + 1536 at hwhy
   exact absurd hwhy (by decide)
  | noBlock => exact hwhy hroom
  | logFull | held => exact hwhy
 rcases meets_returns_of_not hround hgoes with ⟨w, next, hrun, rfl, added, hadded, _, hlength⟩
 rw [hheader, nil_append] at hadded
 rw [← hadded] at hlength
 exact ⟨next, hrun, hlength⟩

theorem filewrite_of_1600_bytes :
  exists off s', filewrite smallDisk (openFile 8 300) (fun _ => 7) 1600
      oneFileOpened = .ok ((1600, openFile 8 off), s') ∧ off.toNat = 1900 ∧
    fileread smallDisk (openFile 8 300) 1600 s' =
      .ok ((1600, FileBytes.tabulate 1600 (fun _ => 7), openFile 8 off), s') := by
 rcases oneFileOpened_spec with ⟨hopen, inode, hinode, hsize, hheader, hroom⟩
 rcases filewrite_replaces_range (f := openFile 8 300) (n := 1600) (k := 1600)
  (fun _ => 7) hopen hinode hheader (by decide) rfl rfl rfl (by rw [hsize]; decide) (by decide)
  hroom with ⟨off, s', hwrite, hoff, _, _, hread⟩
 exact ⟨off, s', hwrite, hoff, hread rfl⟩

open InodeLabel in
/-- A write of two new blocks, on a disk with one free block. -/
theorem filewrite_stops_on_full_disk : (inodeSystem tinyDisk).initial tinyFile ∧ exists s,
    Reaches (inodeSystem tinyDisk) (FsState.ReadsFilled tinyDisk) tinyFile s ∧
    s.header = [] ∧ (exists inode, s.inodes 1 = some inode ∧ inode.entry.type ≠ inodeDevice) ∧
    (volumeOf tinyDisk s.blocks).Filled tinyDisk 1 ∧
    filewrite tinyDisk (openFile 1 0) (fun _ => 7) 1024 s = .error .noBlock := by
 refine ⟨start_smallState (by decide +kernel), ?_⟩
 rcases exists_reaches_of_execute (inodeSystem tinyDisk) (OfAllocated tinyDisk)
  tinyFile [get 1] (fun s => s.smallOpen tinyDisk 1 = true ∧ s.header = [] ∧
   filewrite tinyDisk (openFile 1 0) (fun _ => 7) 1024 s = .error .noBlock) (by decide +kernel)
  with ⟨s, hrun, hopen, hheader, hstops⟩
 rcases smallOpen_spec hopen with ⟨hinode, hfilled⟩
 exact ⟨s, reaches_mono (fun _ _ h => readsFilled_of_allocated h) hrun,
  hheader, hinode, hfilled, hstops⟩

end OSLab.Fs
