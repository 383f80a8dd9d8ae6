import OSLab.Fs.Inode.Specification

/-!
# Finding the block of an offset

`inode_map` finds the block of a file, or gives the file a new one.  While it works
the entry in memory is ahead of the entry on disk, so what is consistent is the
volume with the entry in memory put in its place.
-/

namespace OSLab.Fs
open Foundation Program InodeEntry Volume

/-- The log entries for the indirect block, in a range that ends before block `last`. -/
def InodeEntry.tableDue (e : InodeEntry) (header : List Nat) (last : Nat) : Nat :=
 if last ≤ inodeNumDirect then 0
 else if e.indirect = 0 then 2
 else if e.indirect.toNat ∈ header then 0
 else 1

def InodeEntry.tableFree (e : InodeEntry) (last : Nat) : Nat :=
 if inodeNumDirect < last ∧ e.indirect = 0 then 1 else 0

namespace InodeEntry
variable {e : InodeEntry} {header later : List Nat} {last : Nat}

theorem tableDue_none (hlast : inodeNumDirect < last) (h : e.indirect = 0) :
  e.tableDue header last = 2 := by
 unfold tableDue
 rw [if_neg (Nat.not_le.mpr hlast), if_pos h]

theorem tableDue_logged (h : e.indirect ≠ 0) (hlogged : e.indirect.toNat ∈ header) :
  e.tableDue header last = 0 := by
 unfold tableDue
 rw [if_neg h, if_pos hlogged, ite_self]

theorem tableDue_unlogged (hlast : inodeNumDirect < last) (h : e.indirect ≠ 0)
  (hlogged : e.indirect.toNat ∉ header) : e.tableDue header last = 1 := by
 unfold tableDue
 rw [if_neg (Nat.not_le.mpr hlast), if_neg h, if_neg hlogged]

theorem tableDue_mono (e : InodeEntry) (last : Nat) (h : forall no, no ∈ header -> no ∈ later) :
  e.tableDue later last ≤ e.tableDue header last := by
 by_cases hlogged : e.indirect ≠ 0 ∧ e.indirect.toNat ∈ later
 · rw [tableDue_logged hlogged.left hlogged.right]
   exact Nat.zero_le _
 unfold tableDue
 by_cases htable : e.indirect = 0
 · rw [if_pos htable, if_pos htable]
 rw [if_neg htable, if_neg htable, if_neg (fun hlater => hlogged ⟨htable, hlater⟩),
  if_neg (fun hold => hlogged ⟨htable, h _ hold⟩)]

end InodeEntry

structure Ready (sb : DiskLayout) (i : Nat) (v : Volume) (e : InodeEntry)
  (s : FsState) : Prop where
 represents : Represents sb s.blocks v
 consistent : (v.setEntry i e).Consistent sb
 inode : i < sb.numInodes.toNat
 type : e.type ≠ inodeInvalid
 held : s.held = []

structure Extends (sb : DiskLayout) (i : Nat) (v : Volume) (e : InodeEntry)
  (s : FsState) (v' : Volume) (e' : InodeEntry) (s' : FsState) : Prop where
 represents : Represents sb s'.blocks v'
 consistent : (v'.setEntry i e').Consistent sb
 entries : v'.entry = v.entry
 files : forall j k, (v'.setEntry i e').fileBlock sb j k =
  (v.setEntry i e).fileBlock sb j k
 fields : e' = { e with addrs := e'.addrs, indirect := e'.indirect }
 held : s'.held = s.held
 inodes : s'.inodes = s.inodes
 header : forall no, no ∈ s.header -> no ∈ s'.header

variable {sb : DiskLayout} {i k no : Nat} {v v' : Volume} {e e' : InodeEntry}
 {s s' : FsState} {stops : Stop -> Prop} {last : Nat}

theorem Extends.refl (h : Ready sb i v e s) : Extends sb i v e s v e s := { h with
 entries := rfl
 files := fun _ _ => rfl
 fields := rfl
 held := rfl
 inodes := rfl
 header := fun _ hno => hno }

theorem Extends.trans {w : Volume} {f : InodeEntry} {t : FsState}
    (h : Extends sb i v e s v' e' s') (hmore : Extends sb i v' e' s' w f t) :
    Extends sb i v e s w f t := { hmore with
 entries := hmore.entries.trans h.entries
 files := fun j k => (hmore.files j k).trans (h.files j k)
 fields := by
  have hfirst := h.fields
  have hsecond := hmore.fields
  rw [hfirst] at hsecond
  exact hsecond
 held := hmore.held.trans h.held
 inodes := hmore.inodes.trans h.inodes
 header := fun no hno => hmore.header no (h.header no hno) }

theorem Extends.ready (h : Extends sb i v e s v' e' s') (hready : Ready sb i v e s) :
    Ready sb i v' e' s' := { h with
 inode := hready.inode
 type := by
  rw [h.fields]
  exact hready.type
 held := h.held.trans hready.held }

namespace Ready
variable (h : Ready sb i v e s)
include h

theorem active : (v.setEntry i e).Active sb i := by
 refine ⟨h.inode, ?_⟩
 rw [setEntry_entry]
 exact h.type

theorem addr (slot : Slot) : (v.setEntry i e).addr sb (i, slot) = e.slotAddr v.data slot :=
 addr_setEntry_self h.inode h.type slot

theorem holdsUsed : HoldsUsed sb v s := by
 intro no hno
 rw [h.held] at hno
 cases hno

theorem table_bounds (htable : e.indirect ≠ 0) :
  sb.dataStart ≤ e.indirect.toNat ∧ v.bit e.indirect.toNat := by
 have haddr : (v.setEntry i e).addr sb (i, .table) = e.indirect.toNat := h.addr .table
 have hnonzero : (v.setEntry i e).addr sb (i, .table) ≠ 0 := by
  rw [haddr]
  intro hzero
  exact htable (UInt32.toNat_inj.mp hzero)
 have hwithin := (h.consistent.within _ hnonzero).left
 have hmarked := h.consistent.marked _ hnonzero
 rw [haddr] at hwithin hmarked
 exact ⟨hwithin, hmarked⟩

end Ready

theorem setEntry_take (v : Volume) (i no : Nat) (e f : InodeEntry) :
  ((v.setEntry i e).take no).setEntry i f = (v.take no).setEntry i f := by
 unfold setEntry take
 simp

theorem Extends.of_grows {slot : Slot} (hready : Ready sb i v e s)
  (hg : Grows sb (v.setEntry i e) (v'.setEntry i e') (i, slot) no)
  (hno : no < sb.numBlocks.toNat) (hrep : Represents sb s'.blocks v')
  (hentries : v'.entry = v.entry)
  (hfields : e' = { e with addrs := e'.addrs, indirect := e'.indirect })
  (hheld : s'.held = s.held) (hinodes : s'.inodes = s.inodes)
  (hheader : forall no, no ∈ s.header -> no ∈ s'.header) :
  Extends sb i v e s v' e' s' where
 represents := hrep
 consistent := hg.consistent hready.consistent hno
 entries := hentries
 files := hg.fileBlock hready.consistent
 fields := hfields
 held := hheld
 inodes := hinodes
 header := hheader

/-!
# The indirect block
-/

structure MapsTable (sb : DiskLayout) (i : Nat) (v : Volume) (e : InodeEntry)
  (s : FsState) (r : MapResult) (s' : FsState) (v' : Volume) : Prop
  extends Extends sb i v e s v' r.entry s' where
 table : r.entry.indirect ≠ 0
 bno : r.bno = r.entry.indirect.toNat
 addrs : forall j k, (v'.setEntry i r.entry).addr sb (j, .block k) =
  (v.setEntry i e).addr sb (j, .block k)
 unmodified : r.modified = false -> r.entry = e
 modified : r.modified = true -> e.indirect = 0
 due : forall last, inodeNumDirect < last ->
  s.rm + r.entry.tableDue s'.header last ≤ s'.rm + e.tableDue s.header last
 free : forall last, inodeNumDirect < last -> (v.setEntry i e).freeCount sb ≤
  (v'.setEntry i r.entry).freeCount sb + e.tableFree last

theorem meets_mapTable (hready : Ready sb i v e s) (hlast : inodeNumDirect < last)
  (hroom : Room stops (e.tableDue s.header last) s.rm (e.tableFree last)
    ((v.setEntry i e).freeCount sb)) :
  (mapTable sb true e).Meets s stops (fun r next =>
    exists v', MapsTable sb i v e s r next v') := by
 unfold mapTable
 split
 · rename_i htable
   have hone : forall last, inodeNumDirect < last -> e.tableFree last = 1 :=
    fun last hlast => if_pos ⟨hlast, htable⟩
   rw [tableDue_none hlast htable, hone last hlast] at hroom
   apply meets_bind (meets_cacheAlloc hready.represents hready.consistent.metadata
    hready.holdsUsed hroom)
   rintro no next halloc
   apply meets_pure
   have hno : no < sb.numBlocks.toNat := Nat.lt_of_lt_of_le halloc.limit sb.dataLimit_le
   have htoNat : (e.setTable no).indirect.toNat = no := ofNat_toNat_of_lt hno
   have hgrows := grows_table hready.consistent hready.active
    (by rw [setEntry_entry]; exact htable) halloc.unused hno
   rw [setEntry_entry, setEntry_take] at hgrows
   have htable' : (e.setTable no).indirect ≠ 0 := by
    intro hzero
    rw [hzero] at htoNat
    exact hready.consistent.ne_zero_of_free halloc.unused htoNat.symm
   refine ⟨v.take no, {
    toExtends := Extends.of_grows hready hgrows hno halloc.represents rfl rfl
     halloc.spent.held halloc.spent.inodes halloc.spent.header
    table := htable'
    bno := htoNat.symm
    addrs := ?_
    unmodified := nofun
    modified := fun _ => htable
    due := ?_
    free := ?_ }⟩
   · intro j k
     rw [hgrows.addr, Function.update_of_ne (by simp)]
   · intro last hlast
     rw [tableDue_none hlast htable, tableDue_logged htable' (by
      rw [htoNat]
      exact halloc.logged)]
     exact halloc.spent.rm
   intro last hlast
   rw [hone last hlast]
   exact le_of_eq (hgrows.freeCount halloc.limit).symm
 rename_i htable
 apply meets_pure
 exact ⟨v, {
  toExtends := Extends.refl hready
  table := htable
  bno := rfl
  addrs := fun _ _ => rfl
  unmodified := fun _ => rfl
  modified := nofun
  due := fun _ _ => le_rfl
  free := fun _ _ => Nat.le_add_right _ _ }⟩

/-!
# The block
-/

theorem meets_inodeMap_mapped (ctx : Bool) (hready : Ready sb i v e s)
  (hk : k < inodeMaxBlocks) (haddr : (v.setEntry i e).addr sb (i, .block k) ≠ 0) :
  (inodeMap sb ctx e k).Meets s stops (fun r next =>
    r = { bno := (v.setEntry i e).addr sb (i, .block k),
          modified := false, entry := e } ∧ next = s) := by
 rw [hready.addr] at haddr ⊢
 change e.blockAddr v.data k ≠ 0 at haddr
 change (inodeMap sb ctx e k).Meets s stops (fun r next =>
  r = { bno := e.blockAddr v.data k, modified := false, entry := e } ∧ next = s)
 unfold inodeMap
 split
 · rename_i hlow
   rw [blockAddr_direct hlow] at haddr ⊢
   rw [if_neg]
   · exact meets_pure ⟨rfl, rfl⟩
   intro hzero
   rw [hzero] at haddr
   exact haddr rfl
 rename_i hlow
 have htable : e.indirect ≠ 0 := by
  intro hzero
  exact haddr (blockAddr_noTable hlow hzero)
 have hindex : k - inodeNumDirect < inodeNumIndirect := by
  unfold inodeMaxBlocks at hk
  omega
 have hfree : e.indirect.toNat ∉ s.held := by
  rw [hready.held]
  exact List.not_mem_nil
 have hdata := hready.represents.data _ (hready.table_bounds htable).left
 rw [blockAddr_indirect hlow hk htable, ← hdata] at haddr ⊢
 rw [if_pos hindex]
 unfold mapTable mapSlot
 rw [if_neg htable]
 apply meets_pure_bind
 apply meets_acquireData hfree
 rw [if_neg]
 · apply meets_bind meets_cacheRelease
   rintro _ _ rfl
   apply meets_pure
   refine ⟨rfl, ?_⟩
   rw [List.erase_cons_head]
 intro hzero
 rw [hzero] at haddr
 exact haddr rfl

structure MapsBlock (sb : DiskLayout) (i k : Nat) (v : Volume) (e : InodeEntry)
  (s : FsState) (r : MapResult) (s' : FsState) (v' : Volume) : Prop
  extends Extends sb i v e s v' r.entry s' where
 bno : (v'.setEntry i r.entry).addr sb (i, .block k) = r.bno
 nonzero : r.bno ≠ 0
 others : forall j l, (j, l) ≠ (i, k) ->
  (v'.setEntry i r.entry).addr sb (j, .block l) =
   (v.setEntry i e).addr sb (j, .block l)
 modified : r.modified = decide ((v.setEntry i e).addr sb (i, .block k) = 0)
 unmodified : r.modified = false -> r.entry = e
 logged : r.modified = true -> r.bno ∈ s'.header
 due : forall last, k < last -> s.rm + r.entry.tableDue s'.header last ≤
  s'.rm + e.tableDue s.header last + (if r.modified then 2 else 0)
 free : forall last, k < last ->
  (v.setEntry i e).freeCount sb + r.entry.tableFree last ≤
   (v'.setEntry i r.entry).freeCount sb + e.tableFree last +
    (if r.modified then 1 else 0)

abbrev RoomForBlock (stops : Stop -> Prop) (sb : DiskLayout) (i : Nat) (v : Volume)
  (e : InodeEntry) (s : FsState) (last : Nat) : Prop :=
 Room stops (2 + e.tableDue s.header last) s.rm (1 + e.tableFree last)
  ((v.setEntry i e).freeCount sb)

theorem meets_inodeMap_direct (hready : Ready sb i v e s) (hk : k < inodeNumDirect)
  (hempty : (v.setEntry i e).addr sb (i, .block k) = 0)
  (hroom : RoomForBlock stops sb i v e s last) :
  (inodeMap sb true e k).Meets s stops (fun r next =>
    exists v', MapsBlock sb i k v e s r next v') := by
 have hzero : e.addrs ⟨k, hk⟩ = 0 := by
  have haddr := hempty
  rw [hready.addr] at haddr
  exact UInt32.toNat_inj.mp ((blockAddr_direct hk).symm.trans haddr)
 unfold inodeMap
 rw [dif_pos hk, if_pos hzero]
 apply meets_bind (meets_cacheAlloc hready.represents hready.consistent.metadata
  hready.holdsUsed (hroom.imp (by omega) (by
   change _ -> 1 ≤ (v.setEntry i e).freeCount sb
   omega)))
 rintro no next halloc
 apply meets_pure
 have hno : no < sb.numBlocks.toNat := Nat.lt_of_lt_of_le halloc.limit sb.dataLimit_le
 have hgrows := grows_direct hready.consistent hready.active hk hempty halloc.unused hno
 rw [setEntry_entry, setEntry_take] at hgrows
 refine ⟨v.take no, {
  toExtends := Extends.of_grows hready hgrows hno halloc.represents rfl rfl
   halloc.spent.held halloc.spent.inodes halloc.spent.header
  bno := by rw [hgrows.addr, Function.update_self]
  nonzero := hready.consistent.ne_zero_of_free halloc.unused
  others := ?_
  modified := (decide_eq_true hempty).symm
  unmodified := nofun
  logged := fun _ => halloc.logged
  due := ?_
  free := ?_ }⟩
 · intro j l hne
   rw [hgrows.addr, Function.update_of_ne]
   simpa using hne
 · intro last _
   have hdue := tableDue_mono e last halloc.spent.header
   have hsame : (e.setDirect ⟨k, hk⟩ no).tableDue next.header last =
    e.tableDue next.header last := rfl
   have hrm := halloc.spent.rm
   simp only [hsame, if_true]
   omega
 · intro last _
   have hcount := hgrows.freeCount halloc.limit
   have hsame : (e.setDirect ⟨k, hk⟩ no).tableFree last = e.tableFree last := rfl
   simp only [hsame, if_true]
   omega

theorem meets_mapSlot {table : MapResult} (hready : Ready sb i v table.entry s)
  (hlow : ¬ k < inodeNumDirect) (hk : k < inodeMaxBlocks)
  (htable : table.entry.indirect ≠ 0) (hbno : table.bno = table.entry.indirect.toNat)
  (hempty : (v.setEntry i table.entry).addr sb (i, .block k) = 0)
  (hlast : inodeNumDirect < last)
  (hroom : Room stops (2 + table.entry.tableDue s.header last) s.rm 1
    ((v.setEntry i table.entry).freeCount sb)) :
  (mapSlot sb true (k - inodeNumDirect) table).Meets s stops (fun r next =>
    exists v', MapsBlock sb i k v table.entry s r next v' ∧
      r.entry = table.entry ∧ r.modified) := by
 rcases hready.table_bounds htable with ⟨hdata, hused⟩
 have hfree : table.bno ∉ s.held := by
  rw [hready.held]
  exact List.not_mem_nil
 have hblock := hready.represents.data _ hdata
 have hzero : getAddr (s.blocks table.bno) (k - inodeNumDirect) = 0 := by
  have haddr := hempty
  rw [hready.addr] at haddr
  change table.entry.blockAddr v.data k = 0 at haddr
  rw [blockAddr_indirect hlow hk htable] at haddr
  rw [hbno, hblock]
  exact UInt32.toNat_inj.mp haddr
 apply meets_acquireData hfree
 rw [if_pos hzero]
 refine meets_bind (meets_cacheAlloc (v := v) (by exact hready.represents)
  hready.consistent.metadata ?_ ?_) ?_
 · intro no hno
   rw [hready.held, List.mem_singleton, hbno] at hno
   rw [hno]
   exact ⟨hdata, hused⟩
 · exact hroom.imp (by
    change _ -> 2 ≤ s.rm
    omega) id
 rintro no next halloc
 apply meets_bind meets_blockData
 rintro _ _ ⟨rfl, rfl⟩
 have hno : no < sb.numBlocks.toNat := Nat.lt_of_lt_of_le halloc.limit sb.dataLimit_le
 have hheader : forall b, b ∈ s.header -> b ∈ next.header := halloc.spent.header
 have hrm : s.rm ≤ next.rm + 2 := halloc.spent.rm
 have hheld : next.held = table.bno :: s.held := halloc.spent.held
 refine meets_bind (meets_storeBlock hheld ?_) ?_
 · refine hroom.log.imp_right fun hrm' => ?_
   by_cases hlogged : table.entry.indirect.toNat ∈ s.header
   · exact .inl (hheader _ (by rw [hbno]; exact hlogged))
   have hdue := tableDue_unlogged hlast htable hlogged
   omega
 rintro _ stored ⟨hblocks, hlogged, hspent⟩
 apply meets_pure
 have hgrows : Grows sb (v.setEntry i table.entry) (((v.take no).setData table.entry.indirect.toNat
   (setAddr ((v.take no).data table.entry.indirect.toNat) (k - inodeNumDirect)
    (UInt32.ofNat no))).setEntry i table.entry) (i, .block k) no := by
  have hslot := grows_indirect hready.consistent hready.active hlow hk
   (by rw [setEntry_entry]; exact htable) hempty halloc.unused hno
  rw [setEntry_entry] at hslot
  exact hslot
 have hrep := represents_setData halloc.represents hdata
  (setAddr ((v.take no).data table.entry.indirect.toNat) (k - inodeNumDirect) (UInt32.ofNat no))
 generalize hcontents : setAddr ((v.take no).data table.entry.indirect.toNat)
  (k - inodeNumDirect) (UInt32.ofNat no) = contents at hgrows hrep
 rw [← halloc.represents.data _ hdata, ← hbno] at hcontents
 rw [hcontents] at hblocks
 rw [← hbno, ← hblocks] at hrep
 rw [← hbno] at hgrows
 have hdue : forall last, table.entry.tableDue stored.header last = 0 :=
  fun last => tableDue_logged htable (by
   rw [← hbno]
   exact hlogged)
 have hcost : next.rm ≤ stored.rm + (if table.bno ∈ next.header then 0 else 1) := hspent.rm
 have hcount := hgrows.freeCount halloc.limit
 refine ⟨(v.take no).setData table.bno contents, {
  toExtends := Extends.of_grows hready hgrows hno hrep rfl rfl hspent.held
   (hspent.inodes.trans halloc.spent.inodes)
   (fun b hb => hspent.header b (hheader b hb))
  bno := by rw [hgrows.addr, Function.update_self]
  nonzero := hready.consistent.ne_zero_of_free halloc.unused
  others := ?_
  modified := (decide_eq_true hempty).symm
  unmodified := nofun
  logged := fun _ => hspent.header no halloc.logged
  due := ?_
  free := ?_ }, rfl, rfl⟩
 · intro j l hne
   rw [hgrows.addr, Function.update_of_ne]
   simpa using hne
 · intro last hk
   simp only [hdue, if_true]
   by_cases hold : table.bno ∈ s.header
   · rw [if_pos (hheader _ hold)] at hcost
     omega
   rw [hbno] at hold
   have hlast : inodeNumDirect < last := by omega
   have hone := tableDue_unlogged hlast htable hold
   have hsync := sync_cost_le next.header table.bno
   omega
 · intro last hk
   simp only [if_true]
   omega

theorem meets_inodeMap_indirect (hready : Ready sb i v e s)
  (hlow : ¬ k < inodeNumDirect) (hk : k < inodeMaxBlocks)
  (hempty : (v.setEntry i e).addr sb (i, .block k) = 0) (hlast : k < last)
  (hroom : RoomForBlock stops sb i v e s last) :
  (inodeMap sb true e k).Meets s stops (fun r next =>
    exists v', MapsBlock sb i k v e s r next v') := by
 have hbeyond : inodeNumDirect < last := by omega
 have hindex : k - inodeNumDirect < inodeNumIndirect := by
  unfold inodeMaxBlocks at hk
  omega
 unfold inodeMap
 rw [dif_neg hlow, if_pos hindex]
 refine meets_bind (meets_mapTable hready hbeyond (hroom.imp (by omega) (by omega))) ?_
 rintro table mid ⟨v₁, htable⟩
 have hdue := htable.due last hbeyond
 have hfree := htable.free last hbeyond
 refine meets_imp (meets_mapSlot (htable.ready hready) hlow hk htable.table htable.bno ?_ hbeyond
  (hroom.imp (by omega) (by omega))) ?_
 · rw [htable.addrs]
   exact hempty
 rintro r next ⟨v₂, hslot, hentry, hmodified⟩
 have hzero : forall last, table.entry.tableFree last = 0 :=
  fun last => if_neg fun h => htable.table h.right
 refine ⟨v₂, {
  toExtends := htable.toExtends.trans hslot.toExtends
  bno := hslot.bno
  nonzero := hslot.nonzero
  others := fun j l hne => (hslot.others j l hne).trans (htable.addrs j l)
  modified := hmodified.trans (decide_eq_true hempty).symm
  unmodified := ?_
  logged := hslot.logged
  due := ?_
  free := ?_ }⟩
 · intro hfalse
   rw [hmodified] at hfalse
   cases hfalse
 · intro last hlast
   have hslotDue := hslot.due last hlast
   have htableDue := htable.due last (by omega)
   omega
 · intro last hlast
   have hslotFree := hslot.free last hlast
   have htableFree := htable.free last (by omega)
   rw [hentry, hzero] at hslotFree ⊢
   omega

theorem meets_inodeMap (hready : Ready sb i v e s) (hk : k < inodeMaxBlocks) (hlast : k < last)
  (hroom : (v.setEntry i e).addr sb (i, .block k) = 0 -> RoomForBlock stops sb i v e s last) :
  (inodeMap sb true e k).Meets s stops (fun r next =>
    exists v', MapsBlock sb i k v e s r next v') := by
 by_cases haddr : (v.setEntry i e).addr sb (i, .block k) = 0
 · by_cases hlow : k < inodeNumDirect
   · exact meets_inodeMap_direct hready hlow haddr (hroom haddr)
   · exact meets_inodeMap_indirect hready hlow hk haddr hlast (hroom haddr)
 apply meets_imp (meets_inodeMap_mapped true hready hk haddr)
 rintro r next ⟨rfl, rfl⟩
 exact ⟨v, {
  toExtends := Extends.refl hready
  bno := rfl
  nonzero := haddr
  others := fun _ _ _ => rfl
  modified := (decide_eq_false haddr).symm
  unmodified := fun _ => rfl
  logged := nofun
  due := fun _ _ => le_rfl
  free := fun _ _ => le_rfl }⟩

end OSLab.Fs
