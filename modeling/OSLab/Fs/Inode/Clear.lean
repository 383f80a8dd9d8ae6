import OSLab.Fs.Inode.Write

/-!
# Freeing the blocks of a file

`inode_clear` frees the blocks of a file one by one and forgets their addresses at
the end.  In between, what is sound is the assignment of blocks to slots in which
the slots whose blocks are freed are empty.
-/

namespace OSLab.Fs
open Foundation Function Program InodeEntry List

def dropAll (addr : Owner -> Nat) (owners : List Owner) : Owner -> Nat :=
 fun x => if x ∈ owners then 0 else addr x

theorem dropAll_nil (addr : Owner -> Nat) : dropAll addr [] = addr := by
 funext x
 simp [dropAll]

theorem dropAll_cons (addr : Owner -> Nat) (x : Owner) (owners : List Owner) :
  dropAll (update addr x 0) owners = dropAll addr (x :: owners) := by
 funext y
 unfold dropAll
 by_cases hy : y = x
 · simp [hy]
 · simp [hy]

variable {x : Owner}

theorem dropAll_of_notMem {addr : Owner -> Nat} {owners : List Owner}
  (h : x ∉ owners) : dropAll addr owners x = addr x :=
 if_neg h

/--
Some blocks of the volume `v` are freed.  The blocks that are left belong to slots
as `addr` says.
-/
structure Freeing (sb : DiskLayout) (v : Volume) (held : List Nat)
  (inodes : Nat -> Option Inode) (addr : Owner -> Nat) (v' : Volume)
  (s : FsState) : Prop where
 represents : Represents sb s.blocks v'
 sound : Sound sb addr v'.bit
 entries : v'.entry = v.entry
 data : v'.data = v.data
 held : s.held = held
 inodes : s.inodes = inodes

variable {sb : DiskLayout} {v v' : Volume} {s : FsState} {held : List Nat}
 {inodes : Nat -> Option Inode} {addr : Owner -> Nat} {i : Nat}

section
variable (h : Freeing sb v held inodes addr v' s) (hheld : forall b, b ∈ held -> sb.dataStart ≤ b)
include h hheld

theorem meets_free {no : Nat} (hx : addr x = no) (hno : no ≠ 0) :
  (cacheFree sb true no).Meets s always (fun _ next => exists v',
    Freeing sb v held inodes (update addr x 0) v' next) := by
 subst hx
 have hlt := (h.sound.within x hno).right
 refine meets_imp (meets_cacheFree h.represents hlt ?_) ?_
 · rw [h.held]
   exact hheld
 rintro _ next ⟨hrep, hspent⟩
 exact ⟨_, {
  represents := hrep
  sound := h.sound.drop hno
  entries := h.entries
  data := h.data
  held := hspent.held.trans h.held
  inodes := hspent.inodes.trans h.inodes }⟩

theorem meets_freeAddr {no : UInt32} (hx : addr x = no.toNat) :
  (freeAddr sb true no).Meets s always (fun _ next => exists v',
    Freeing sb v held inodes (update addr x 0) v' next) := by
 unfold freeAddr
 split
 · rename_i hno
   apply meets_free h hheld hx
   intro hzero
   exact hno (UInt32.toNat_inj.mp hzero)
 rename_i hno
 have hzero : no = 0 := not_not.mp hno
 have hsame : update addr x 0 = addr := by
  rw [hzero] at hx
  rw [← update_eq_self x addr, hx]
  simp
 apply meets_pure
 rw [hsame]
 exact ⟨v', h⟩
end

theorem meets_freeAll {item : Type} {body : item -> FsProgram Unit}
  (owner : item -> Owner) (items : List item)
  (hbody : forall x addr v' s, x ∈ items -> Freeing sb v held inodes addr v' s ->
    addr (owner x) = v.addr sb (owner x) ->
    (body x).Meets s always (fun _ next => exists v',
      Freeing sb v held inodes (update addr (owner x) 0) v' next))
  (haddr : forall x, x ∈ items -> addr (owner x) = v.addr sb (owner x))
  (hnodup : (items.map owner).Nodup) (h : Freeing sb v held inodes addr v' s) :
  (forEach body items).Meets s always (fun _ next => exists v',
    Freeing sb v held inodes (dropAll addr (items.map owner)) v' next) := by
 induction items generalizing addr v' s with
 | nil =>
  apply meets_pure
  rw [map_nil, dropAll_nil]
  exact ⟨v', h⟩
 | cons x rest ih =>
  rw [map_cons, nodup_cons] at hnodup
  apply meets_bind (hbody x addr v' s mem_cons_self h (haddr x mem_cons_self))
  rintro _ next ⟨v₁, hnext⟩
  rw [map_cons, ← dropAll_cons]
  apply ih
  · intro y addr' v₂ s' hy
    exact hbody y addr' v₂ s' (mem_cons_of_mem _ hy)
  · intro y hy
    have hne : owner y ≠ owner x := by
     intro heq
     apply hnodup.left
     rw [← heq]
     exact mem_map_of_mem hy
    rw [update_of_ne hne]
    exact haddr y (mem_cons_of_mem _ hy)
  · exact hnodup.right
  · exact hnext

/-!
# The blocks of an inode
-/

def forget (addr : Owner -> Nat) (i : Nat) : Owner -> Nat := fun x => if x.1 = i then 0 else addr x

def directSlot (i : Nat) (k : Fin inodeNumDirect) : Owner := (i, .block k.val)

def indirectSlot (i k : Nat) : Owner := (i, .block (inodeNumDirect + k))

def directSlots (i : Nat) : List Owner := (finRange inodeNumDirect).map (directSlot i)

def indirectSlots (i : Nat) : List Owner := (range inodeNumIndirect).map (indirectSlot i)

theorem directSlots_nodup (i : Nat) : (directSlots i).Nodup := by
 apply Nodup.map
 · intro k l h
   simp only [directSlot, Prod.mk.injEq, Slot.block.injEq, true_and] at h
   exact Fin.ext h
 · exact nodup_finRange _

theorem indirectSlots_nodup (i : Nat) : (indirectSlots i).Nodup := by
 apply Nodup.map
 · intro k l h
   simp only [indirectSlot, Prod.mk.injEq, Slot.block.injEq, true_and] at h
   omega
 · exact nodup_range

theorem mem_directSlots {i : Nat} :
  x ∈ directSlots i ↔ x.1 = i ∧ exists k, k < inodeNumDirect ∧ x.2 = .block k := by
 unfold directSlots directSlot
 rw [mem_map]
 constructor
 · rintro ⟨k, _, rfl⟩
   exact ⟨rfl, k.val, k.isLt, rfl⟩
 · rintro ⟨hi, k, hk, hslot⟩
   exact ⟨⟨k, hk⟩, mem_finRange _, Prod.ext hi.symm hslot.symm⟩

theorem mem_indirectSlots {i : Nat} :
  x ∈ indirectSlots i ↔ x.1 = i ∧ exists k, ¬ k < inodeNumDirect ∧
    k < inodeMaxBlocks ∧ x.2 = .block k := by
 unfold indirectSlots indirectSlot
 rw [mem_map]
 constructor
 · rintro ⟨k, hk, rfl⟩
   rw [mem_range] at hk
   refine ⟨rfl, inodeNumDirect + k, by omega, ?_, rfl⟩
   unfold inodeMaxBlocks
   omega
 rintro ⟨hi, k, hlow, hk, hslot⟩
 refine ⟨k - inodeNumDirect, ?_, ?_⟩
 · rw [mem_range]
   unfold inodeMaxBlocks at hk
   omega
 apply Prod.ext hi.symm
 rw [hslot, Nat.add_sub_cancel' (by omega)]

variable {inode : Inode}

section
variable (h : Opened sb v s i inode)
include h

theorem Opened.addr_eq (slot : Slot) : v.addr sb (i, slot) = inode.entry.slotAddr v.data slot := by
 have haddr := h.ready.addr slot
 rw [h.setEntry] at haddr
 exact haddr

theorem forget_of_noTable (htable : inode.entry.indirect = 0) :
  dropAll (v.addr sb) (directSlots i) = forget (v.addr sb) i := by
 funext x
 rcases x with ⟨j, slot⟩
 unfold forget
 by_cases hj : j = i
 · subst hj
   rw [if_pos rfl]
   by_cases hmem : (j, slot) ∈ directSlots j
   · exact if_pos hmem
   rw [dropAll_of_notMem hmem, h.addr_eq]
   rw [mem_directSlots] at hmem
   cases slot with
   | block k =>
    apply blockAddr_noTable _ htable
    intro hk
    exact hmem ⟨rfl, k, hk, rfl⟩
   | table =>
    change inode.entry.indirect.toNat = 0
    rw [htable]
    rfl
 rw [if_neg hj, dropAll_of_notMem]
 rw [mem_directSlots]
 intro hmem
 exact hj hmem.left

theorem forget_of_table : update (dropAll (dropAll (v.addr sb) (directSlots i))
    (indirectSlots i)) (i, .table) 0 = forget (v.addr sb) i := by
 funext x
 rcases x with ⟨j, slot⟩
 unfold forget
 by_cases hj : j = i
 · subst hj
   rw [if_pos rfl]
   cases slot with
   | table => rw [update_self]
   | block k =>
    rw [update_of_ne (by simp)]
    by_cases hindirect : (j, .block k) ∈ indirectSlots j
    · exact if_pos hindirect
    rw [dropAll_of_notMem hindirect]
    by_cases hdirect : (j, .block k) ∈ directSlots j
    · exact if_pos hdirect
    rw [dropAll_of_notMem hdirect, h.addr_eq]
    rw [mem_directSlots] at hdirect
    rw [mem_indirectSlots] at hindirect
    apply blockAddr_beyond
    intro hk
    by_cases hlow : k < inodeNumDirect
    · exact hdirect ⟨rfl, k, hlow, rfl⟩
    · exact hindirect ⟨rfl, k, hlow, hk, rfl⟩
 rw [if_neg hj, update_of_ne (by simp [hj]), dropAll_of_notMem, dropAll_of_notMem]
 · rw [mem_directSlots]
   intro hmem
   exact hj hmem.left
 rw [mem_indirectSlots]
 intro hmem
 exact hj hmem.left

/-!
# The call
-/

theorem meets_clearDirect : (forEach (fun k => freeAddr sb true (inode.entry.addrs k))
    (finRange inodeNumDirect)).Meets s always (fun _ next => exists v', Freeing sb v [] s.inodes
        (dropAll (v.addr sb) (directSlots i)) v' next) := by
 have hstart : Freeing sb v [] s.inodes (v.addr sb) v s :=
  ⟨h.represents, h.consistent, rfl, rfl, h.held, rfl⟩
 refine meets_freeAll (directSlot i) _ ?_ (fun _ _ => rfl) (directSlots_nodup i) hstart
 intro k addr v' s' _ hfree haddr
 apply meets_freeAddr hfree
 · nofun
 rw [haddr]
 exact (h.addr_eq _).trans (blockAddr_direct k.isLt)

theorem meets_clearIndirect {s₁ : FsState} (hfree : Freeing sb v [] inodes
    (dropAll (v.addr sb) (directSlots i)) v' s₁) :
  (clearIndirect sb true inode.entry.indirect).Meets s₁ always (fun _ next => exists v',
      Freeing sb v [] inodes (forget (v.addr sb) i) v' next) := by
 unfold clearIndirect
 by_cases htable : inode.entry.indirect = 0
 · rw [if_neg (not_not.mpr htable)]
   apply meets_pure
   rw [← forget_of_noTable h htable]
   exact ⟨v', hfree⟩
 rw [if_pos htable]
 generalize ht : inode.entry.indirect.toNat = t
 have haddr : v.addr sb (i, .table) = t := (h.addr_eq .table).trans ht
 have hnonzero : t ≠ 0 := by
  rw [← ht]
  intro hzero
  exact htable (UInt32.toNat_inj.mp hzero)
 have hdata : sb.dataStart ≤ t := by
  have hwithin := h.consistent.within (i, .table) (by
   rw [haddr]
   exact hnonzero)
  rw [haddr] at hwithin
  exact hwithin.left
 have hnot : t ∉ s₁.held := by
  rw [hfree.held]
  exact not_mem_nil
 apply meets_bind (meets_cacheAcquire hnot)
 rintro _ _ rfl
 have hstart : Freeing sb v [t] inodes (dropAll (v.addr sb) (directSlots i)) v'
  { s₁ with held := t :: s₁.held } :=
  { hfree with held := by rw [hfree.held] }
 refine meets_bind (meets_freeAll (indirectSlot i) _ ?_ ?_ (indirectSlots_nodup i) hstart) ?_
 · intro k addr v₁ s' hk hfree' haddr'
   rw [mem_range] at hk
   apply meets_bind meets_blockData
   rintro _ _ ⟨rfl, rfl⟩
   apply meets_freeAddr hfree'
   · intro b hb
     rw [mem_singleton] at hb
     rw [hb]
     exact hdata
   have hblock : s'.blocks t = v.data t := by rw [hfree'.represents.data t hdata, hfree'.data]
   have hindirect : inode.entry.blockAddr v.data (inodeNumDirect + k) = _ :=
    blockAddr_indirect (by omega) (by
     unfold inodeMaxBlocks
     omega) htable
   rw [haddr', hblock, ← ht]
   refine (h.addr_eq _).trans (hindirect.trans ?_)
   rw [Nat.add_sub_cancel_left]
 · intro k _
   apply dropAll_of_notMem
   rw [mem_directSlots]
   rintro ⟨_, l, hl, hslot⟩
   simp only [indirectSlot, Slot.block.injEq] at hslot
   omega
 rintro _ s₂ ⟨v₂, hloop⟩
 apply meets_bind meets_cacheRelease
 rintro _ _ rfl
 have hreleased : Freeing sb v [] inodes (dropAll (dropAll (v.addr sb)
  (directSlots i)) (indirectSlots i)) v₂ { s₂ with held := s₂.held.erase t } :=
  { hloop with held := by simp [hloop.held] }
 rw [← forget_of_table h]
 refine meets_free hreleased ?_ ?_ hnonzero
 · nofun
 rw [dropAll_of_notMem, dropAll_of_notMem, haddr]
 · simp [mem_directSlots]
 · simp [mem_indirectSlots]
end

def InodeEntry.cleared (e : InodeEntry) : InodeEntry :=
 { e with addrs := fun _ => 0, indirect := 0, numBytes := 0 }

theorem InodeEntry.slotAddr_cleared (e : InodeEntry) (data : Blocks) (slot : Slot) :
  e.cleared.slotAddr data slot = 0 :=
 slotAddr_none (fun _ => rfl) rfl slot

namespace Freeing

theorem addr_cleared {e : InodeEntry} (h : Freeing sb v held inodes (forget (v.addr sb) i) v' s)
  (hi : i < sb.numInodes.toNat) (htype : e.type ≠ inodeInvalid) :
  (v'.setEntry i e.cleared).addr sb = forget (v.addr sb) i := by
 funext x
 rcases x with ⟨j, slot⟩
 unfold forget
 by_cases hj : j = i
 · have hself := Volume.addr_setEntry_self (v := v') (e := e.cleared) hi htype slot
   rw [if_pos hj, hj, hself]
   exact e.slotAddr_cleared _ slot
 rw [if_neg hj, Volume.addr_setEntry_other hj]
 apply Volume.addr_congr
 · intro _
   rw [h.entries]
 intro _ _
 rw [h.data]

end Freeing

structure Cleared (sb : DiskLayout) (v v' : Volume) (s next : FsState) (i : Nat)
  (inode result : Inode) : Prop extends Opened sb v' next i result where
 result_eq : result = { inode with entry := inode.entry.cleared }
 inodes : next.inodes = s.inodes
 others : forall j, j ≠ i -> v'.entry j = v.entry j

theorem meets_inodeClear (h : Opened sb v s i inode) :
  (inodeClear sb true inode).Meets s always (fun result next =>
    exists v', Cleared sb v v' s next i inode result) := by
 apply meets_bind (meets_clearDirect h)
 rintro _ s₁ ⟨v₁, hdirect⟩
 apply meets_bind (meets_clearIndirect h hdirect)
 rintro _ s₂ ⟨v₂, hfree⟩
 have hnumber : ({ inode with entry := inode.entry.cleared } : Inode).inodeNo <
  sb.numInodes.toNat := by
  rw [h.number]
  exact h.bound
 refine meets_imp (meets_inodeSync_write hfree.represents h.valid hnumber hfree.held
  (.inl trivial)) ?_
 rintro result next ⟨rfl, hrep, hspent⟩
 refine ⟨v₂.setEntry i inode.entry.cleared, ?_⟩
 rw [h.number] at hrep
 refine {
  represents := hrep
  consistent := ?_
  number := h.number
  bound := h.bound
  valid := h.valid
  entry := Volume.setEntry_entry _ _ _
  type := h.type
  held := hspent.held.trans hfree.held
  result_eq := rfl
  inodes := hspent.inodes.trans hfree.inodes
  others := ?_ }
 · unfold Volume.Consistent
   rw [hfree.addr_cleared h.bound h.type]
   exact hfree.sound
 · intro j hj
   rw [← hfree.entries]
   exact update_of_ne hj _ _

end OSLab.Fs
