import OSLab.Foundation.TransitionSystem
import OSLab.Kernel.Kalloc

/-!
# The partition of the kernel heap

At every moment the pages that `kalloc` has taken are tiled by the blocks of live
pointers and the chunks on the free lists.  A call takes regions out of this partition,
cuts them and puts them back; the regions that it holds meanwhile are spare.
-/

namespace OSLab.Kernel
open Common Foundation Function Region List

def wholePage (page : Nat) : Region := ⟨page, pageSize⟩

def chunk (c : Nat × Nat) : Region := ⟨c.1, 8 * (c.2 + 1)⟩

namespace Kheap

def block (h : Kheap) (b : Nat × Nat) : Region := ⟨b.1 - 8, 8 * (h.words (b.1 - 8) + 1)⟩

def Usable (h : Kheap) (p asked : Nat) : Prop :=
 p % 8 = 0 ∧ 8 ≤ p ∧ p + asked ≤ p - 8 + 8 * (h.words (p - 8) + 1)

def owned (h : Kheap) (live free : List (Nat × Nat)) : List Region :=
 live.map h.block ++ free.map chunk

def onList (free : List (Nat × Nat)) (k : Nat) : List Nat :=
 (free.filter (fun c => decide (c.2 = k))).map Prod.fst

structure Partition (h : Kheap) (live : List (Nat × Nat)) (pages : List Nat)
  (free : List (Nat × Nat)) (spare : List Region) : Prop where
 queues : forall k, Linked h.words (h.freeMem k) (onList free k)
 classes : forall c, c ∈ free -> c.2 < maxOrder - 1
 blocks : forall b, b ∈ live -> 8 ≤ b.1 ∧ h.words (b.1 - 8) < maxOrder ∧
  b.2 + 8 ≤ 8 * (h.words (b.1 - 8) + 1)
 tiles : Tiles (spare ++ h.owned live free) (pages.map wholePage)
 regions : forall r, r ∈ spare ++ h.owned live free -> r.start % 8 = 0 ∧ 0 < r.size ∧
  exists page, page ∈ pages ∧ r.Inside (wholePage page)
 nodup : pages.Nodup
 aligned : forall page, page ∈ pages -> page % pageSize = 0 ∧ page ≠ 0

variable {h next : Kheap} {live free : List (Nat × Nat)} {pages : List Nat}
 {spare : List Region} {r q : Region}

theorem mem_owned {h : Kheap} {r : Region} : r ∈ h.owned live free ↔
    (exists b, b ∈ live ∧ h.block b = r) ∨ exists c, c ∈ free ∧ chunk c = r := by
 unfold owned
 rw [mem_append, mem_map, mem_map]

theorem mem_onList {k a : Nat} : a ∈ onList free k ↔ (a, k) ∈ free := by
 unfold onList
 rw [mem_map]
 constructor
 · rintro ⟨⟨b, j⟩, hmem, rfl⟩
   rcases mem_filter.mp hmem with ⟨hfree, hj⟩
   rw [← of_decide_eq_true hj]
   exact hfree
 · intro hmem
   exact ⟨(a, k), mem_filter.mpr ⟨hmem, decide_eq_true rfl⟩, rfl⟩

/-!
# Pages
-/

theorem separate_pages (hnodup : pages.Nodup)
  (haligned : forall page, page ∈ pages -> page % pageSize = 0) :
  Separate (pages.map wholePage) := by
 rw [separate_iff, pairwise_map]
 apply Pairwise.imp_of_mem _ hnodup
 intro a c ha hc hne b hb hb'
 have haligned_a := haligned a ha
 have haligned_c := haligned c hc
 unfold wholePage at hb hb'
 rw [mem_bytes] at hb hb'
 unfold pageSize at haligned_a haligned_c hb hb'
 dsimp only at hb hb'
 omega

namespace Partition

theorem separate (hpart : Partition h live pages free spare) :
  Separate (spare ++ h.owned live free) :=
 hpart.tiles.separate
  (separate_pages hpart.nodup (fun page hpage => (hpart.aligned page hpage).left))

theorem spare_apart (hpart : Partition h live pages free (r :: spare))
  (hq : q ∈ spare ++ h.owned live free) : r.Apart q :=
 hpart.separate.apart hq

theorem start_ne_zero (hpart : Partition h live pages free spare)
  (hr : r ∈ spare ++ h.owned live free) : r.start ≠ 0 := by
 rcases hpart.regions r hr with ⟨_, _, page, hpage, hlow, _⟩
 have hne := (hpart.aligned page hpage).right
 change page ≤ r.start at hlow
 omega

/-!
# Stores

A store that keeps the first word of every region of the partition keeps the partition.
-/

theorem owned_congr {words : Words}
  (hsame : forall r, r ∈ h.owned live free -> words r.start = h.words r.start) :
  owned { h with words := words } live free = h.owned live free := by
 unfold owned
 congr 1
 apply map_congr_left
 intro b hb
 unfold block
 have hword : words (b.1 - 8) = h.words (b.1 - 8) :=
  hsame (h.block b) (mem_owned.mpr (.inl ⟨b, hb, rfl⟩))
 dsimp only
 rw [hword]

theorem congr (hpart : Partition h live pages free spare) {words : Words}
    (hsame : forall r, r ∈ h.owned live free -> words r.start = h.words r.start) :
    Partition { h with words := words } live pages free spare := { hpart with
 queues := by
  intro k
  apply (hpart.queues k).congr
  intro a ha
  exact hsame (chunk (a, k)) (mem_owned.mpr (.inr ⟨(a, k), mem_onList.mp ha, rfl⟩))
 blocks := by
  intro b hb
  have hword : words (b.1 - 8) = h.words (b.1 - 8) :=
   hsame (h.block b) (mem_owned.mpr (.inl ⟨b, hb, rfl⟩))
  dsimp only
  rw [hword]
  exact hpart.blocks b hb
 tiles := by
  rw [owned_congr hsame]
  exact hpart.tiles
 regions := by
  rw [owned_congr hsame]
  exact hpart.regions }

theorem store (hpart : Partition h live pages free spare) {addr : Nat} (value : Nat)
  (hne : forall r, r ∈ h.owned live free -> r.start ≠ addr) :
  Partition (h.store addr value) live pages free spare := by
 apply hpart.congr
 intro r hr
 exact update_of_ne (hne r hr) _ _

theorem spare_start_ne (hpart : Partition h live pages free (r :: spare)) :
  forall q, q ∈ h.owned live free -> q.start ≠ r.start := by
 intro q hq hsame
 have hq' : q ∈ spare ++ h.owned live free := mem_append_right spare hq
 have hsize := (hpart.regions q (mem_cons_of_mem r hq')).right.left
 have hsize' := (hpart.regions r mem_cons_self).right.left
 have hin : r.start ∈ q.bytes := by
  rw [← hsame]
  exact start_mem hsize
 exact hpart.spare_apart hq' r.start (start_mem hsize') hin

/-!
# Taking and cutting regions
-/

theorem takePage (hpart : Partition h live pages free []) {page : Nat}
    (halign : page % pageSize = 0) (hzero : page ≠ 0) (hfresh : page ∉ pages) :
    Partition h live (page :: pages) free [wholePage page] := { hpart with
 tiles := hpart.tiles.cons (wholePage page)
 regions := by
  intro r hr
  rcases mem_cons.mp hr with rfl | hr
  · refine ⟨?_, Nat.zero_lt_succ _, page, mem_cons_self, Nat.le_refl _, Nat.le_refl _⟩
    change page % 8 = 0
    unfold pageSize at halign
    omega
  rcases hpart.regions r hr with ⟨halign, hsize, old, hold, hinside⟩
  exact ⟨halign, hsize, old, mem_cons_of_mem page hold, hinside⟩
 nodup := nodup_cons.mpr ⟨hfresh, hpart.nodup⟩
 aligned := by
  intro a ha
  rcases mem_cons.mp ha with rfl | ha
  · exact ⟨halign, hzero⟩
  · exact hpart.aligned a ha }

theorem cut {start m n : Nat} (hpart : Partition h live pages free (⟨start, m + n⟩ :: spare))
    (hm : 0 < m) (hn : 0 < n) (halign : m % 8 = 0) :
    Partition h live pages free (⟨start + m, n⟩ :: ⟨start, m⟩ :: spare) := { hpart with
 tiles := by
  have hcut := hpart.tiles.cut
  exact hcut.perm (Perm.swap _ _ _) (Perm.refl _)
 regions := by
  rcases hpart.regions _ mem_cons_self with ⟨hstart, _, page, hpage, hlow, hhigh⟩
  dsimp only at hstart hlow hhigh
  intro r hr
  rcases mem_cons.mp hr with rfl | hr
  · refine ⟨?_, hn, page, hpage, ?_, ?_⟩
    all_goals
     dsimp only
     omega
  rcases mem_cons.mp hr with rfl | hr
  · refine ⟨hstart, hm, page, hpage, hlow, ?_⟩
    dsimp only
    omega
  · exact hpart.regions r (mem_cons_of_mem _ hr) }

/-!
# Queues
-/

theorem onList_cons_self (a k : Nat) : onList ((a, k) :: free) k = a :: onList free k := by
 unfold onList
 rw [filter_cons_of_pos, map_cons]
 exact decide_eq_true rfl

theorem onList_cons_of_ne {a k j : Nat} (hne : k ≠ j) :
  onList ((a, k) :: free) j = onList free j := by
 unfold onList
 rw [filter_cons_of_neg]
 intro hsame
 exact hne (of_decide_eq_true hsame)

theorem onList_erase_head {a k : Nat} {rest : List Nat} (h : onList free k = a :: rest) :
  onList (free.erase (a, k)) k = rest := by
 unfold onList at h ⊢
 rcases map_eq_cons_iff.mp h with ⟨c, tail, hfilter, hfst, htail⟩
 have hmem : c ∈ free.filter (fun c => decide (c.2 = k)) := by
  rw [hfilter]
  exact mem_cons_self
 have hsnd : c.2 = k := of_decide_eq_true (mem_filter.mp hmem).right
 have hc : c = (a, k) := Prod.ext hfst hsnd
 rw [← erase_filter, hfilter, hc, erase_cons_head]
 exact htail

theorem onList_erase_of_ne {a k j : Nat} (hne : k ≠ j) :
  onList (free.erase (a, k)) j = onList free j := by
 unfold onList
 rw [← erase_filter, erase_of_not_mem]
 intro hmem
 exact hne (of_decide_eq_true (mem_filter.mp hmem).right)

theorem add {addr k : Nat} (hpart : Partition h live pages free (chunk (addr, k) :: spare))
  (hk : k < maxOrder - 1) :
  Partition (h.add k addr) live pages ((addr, k) :: free) spare := by
 have hkept : Partition (h.store addr (h.freeMem k)) live pages free (chunk (addr, k) :: spare) :=
  hpart.store (h.freeMem k) hpart.spare_start_ne
 have hperm : (chunk (addr, k) :: spare ++ (h.store addr (h.freeMem k)).owned live free).Perm
  (spare ++ (h.add k addr).owned live ((addr, k) :: free)) := by
  change (chunk (addr, k) :: (spare ++ (live.map _ ++ free.map chunk))).Perm
   (spare ++ (live.map _ ++ chunk (addr, k) :: free.map chunk))
  rw [← append_assoc, ← append_assoc]
  exact perm_middle.symm
 constructor
 · intro j
   by_cases hj : k = j
   · subst j
     rw [onList_cons_self]
     change Linked _ (update h.freeMem k addr k) _
     rw [update_self]
     apply (hpart.queues k).add
     · exact hpart.start_ne_zero (mem_cons_self)
     intro hmem
     apply hpart.spare_start_ne (chunk (addr, k)) _ rfl
     exact mem_owned.mpr (.inr ⟨(addr, k), mem_onList.mp hmem, rfl⟩)
   rw [onList_cons_of_ne hj]
   change Linked _ (update h.freeMem k addr j) _
   rw [update_of_ne (Ne.symm hj)]
   exact hkept.queues j
 · intro c hc
   rcases mem_cons.mp hc with rfl | hc
   · exact hk
   · exact hpart.classes c hc
 · exact hkept.blocks
 · exact hkept.tiles.perm hperm (Perm.refl _)
 · intro r hr
   exact hkept.regions r (hperm.mem_iff.mpr hr)
 · exact hpart.nodup
 · exact hpart.aligned

theorem fetch (hpart : Partition h live pages free []) {k : Nat} (hk : h.freeMem k ≠ 0) :
  (h.fetch k).1 = h.freeMem k ∧ (h.freeMem k, k) ∈ free ∧
    Partition (h.fetch k).2 live pages (free.erase (h.freeMem k, k)) [chunk (h.freeMem k, k)] := by
 rcases (hpart.queues k).fetch hk with ⟨rest, hnodes, haddr, hrest⟩
 have hmem : (h.freeMem k, k) ∈ free := by
  rw [← mem_onList, hnodes]
  exact mem_cons_self
 have hperm : (h.owned live free).Perm
  (chunk (h.freeMem k, k) :: h.owned live (free.erase (h.freeMem k, k))) := by
  have hfree := (perm_cons_erase hmem).map chunk
  exact (hfree.append_left (live.map h.block)).trans perm_middle
 refine ⟨haddr, hmem, ?_⟩
 exact { hpart with
  queues := by
   intro j
   by_cases hj : k = j
   · subst j
     change Linked h.words (update h.freeMem k _ k) _
     rw [update_self]
     rw [onList_erase_head hnodes]
     exact hrest
   change Linked h.words (update h.freeMem k _ j) _
   rw [update_of_ne (Ne.symm hj)]
   rw [onList_erase_of_ne hj]
   exact hpart.queues j
  classes := by
   intro c hc
   exact hpart.classes c (mem_of_mem_erase hc)
  tiles := hpart.tiles.perm hperm (Perm.refl _)
  regions := by
   intro r hr
   exact hpart.regions r (hperm.mem_iff.mpr hr) }

/-!
# Blocks
-/

theorem allot {addr pos asked : Nat}
  (hpart : Partition h live pages free (⟨addr, 8 * (pos + 1)⟩ :: spare))
  (hpos : pos < maxOrder) (hasked : asked + 8 ≤ 8 * (pos + 1)) :
  Partition (h.store addr pos) ((addr + 8, asked) :: live) pages free spare := by
 have hkept : Partition (h.store addr pos) live pages free (⟨addr, 8 * (pos + 1)⟩ :: spare) :=
  hpart.store pos hpart.spare_start_ne
 have hheader : (h.store addr pos).words addr = pos := update_self ..
 have hblock : (h.store addr pos).block (addr + 8, asked) = ⟨addr, 8 * (pos + 1)⟩ := by
  unfold block
  rw [Nat.add_sub_cancel, hheader]
 have hperm : (⟨addr, 8 * (pos + 1)⟩ :: spare ++ (h.store addr pos).owned live free).Perm
  (spare ++ (h.store addr pos).owned ((addr + 8, asked) :: live) free) := by
  unfold owned
  rw [map_cons, hblock]
  exact perm_middle.symm
 exact { hkept with
  blocks := by
   intro b hb
   rcases mem_cons.mp hb with rfl | hb
   · rw [Nat.add_sub_cancel, hheader]
     exact ⟨Nat.le_add_left 8 addr, hpos, hasked⟩
   · exact hkept.blocks b hb
  tiles := hkept.tiles.perm hperm (Perm.refl _)
  regions := by
   intro r hr
   exact hkept.regions r (hperm.mem_iff.mpr hr)
  nodup := hpart.nodup
  aligned := hpart.aligned }

theorem carve {addr pos rest asked : Nat}
  (hpart : Partition h live pages free [⟨addr, 8 * (pos + 1) + rest⟩])
  (hrest : rest % 8 = 0) (hasked : asked + 8 ≤ 8 * (pos + 1)) :
  exists free', Partition (h.carve addr pos rest) ((addr + 8, asked) :: live) pages free' [] := by
 rcases hpart.regions _ mem_cons_self with ⟨_, _, page, _, hlow, hhigh⟩
 have hpages : pageSize = 4096 := rfl
 have horder : maxOrder = 512 := rfl
 unfold wholePage at hlow hhigh
 dsimp only at hlow hhigh
 have hpos : pos < maxOrder := by omega
 unfold Kheap.carve minBlockSize
 split
 · rename_i hsome
   have hcut := hpart.cut (Nat.mul_pos (by decide) (Nat.succ_pos pos))
    (Nat.pos_of_ne_zero hsome) (Nat.mul_mod_right 8 _)
   have hclass : 8 * (rest / 8 - 1 + 1) = rest := by omega
   have hchunk : (⟨addr + 8 * (pos + 1), rest⟩ : Region) =
    chunk (addr + (pos + 1) * 8, rest / 8 - 1) := by
    unfold chunk
    rw [hclass, Nat.mul_comm]
   rw [hchunk] at hcut
   exact ⟨_, (hcut.add (by omega)).allot hpos hasked⟩
 rename_i hnone
 have hzero : rest = 0 := Decidable.not_not.mp hnone
 rw [hzero, Nat.add_zero] at hpart
 exact ⟨_, hpart.allot hpos hasked⟩

theorem release {b : Nat × Nat} (hpart : Partition h live pages free []) (hb : b ∈ live) :
  Partition h (live.erase b) pages free [h.block b] := by
 have hperm : (h.owned live free).Perm (h.block b :: h.owned (live.erase b) free) :=
  ((perm_cons_erase hb).map h.block).append_right (free.map chunk)
 exact { hpart with
  blocks := by
   intro c hc
   exact hpart.blocks c (mem_of_mem_erase hc)
  tiles := hpart.tiles.perm hperm (Perm.refl _)
  regions := by
   intro r hr
   exact hpart.regions r (hperm.mem_iff.mpr hr) }

theorem dropPage {page : Nat} (hpart : Partition h live pages free [wholePage page])
  (hpage : page ∈ pages) : Partition h live (pages.erase page) free [] := by
 have hperm : (pages.map wholePage).Perm (wholePage page :: (pages.erase page).map wholePage) :=
  (perm_cons_erase hpage).map wholePage
 exact { hpart with
  tiles := (hpart.tiles.perm (Perm.refl _) hperm).of_cons
  regions := by
   intro r hr
   rcases hpart.regions r (mem_cons_of_mem _ hr) with ⟨halign, hsize, other, hother, hinside⟩
   refine ⟨halign, hsize, other, ?_, hinside⟩
   apply (mem_erase_of_ne _).mpr hother
   rintro rfl
   have hstart := start_mem hsize
   exact hpart.spare_apart hr r.start (hinside.mem hstart) hstart
  nodup := hpart.nodup.erase page
  aligned := by
   intro a ha
   exact hpart.aligned a (mem_of_mem_erase ha) }

theorem usable {p asked : Nat} (hpart : Partition h live pages free spare)
  (hlive : (p, asked) ∈ live) : h.Usable p asked := by
 rcases hpart.blocks (p, asked) hlive with ⟨height, _, hfits⟩
 have hmem : h.block (p, asked) ∈ h.owned live free := mem_owned.mpr (.inl ⟨(p, asked), hlive, rfl⟩)
 have halign : (p - 8) % 8 = 0 := (hpart.regions _ (mem_append_right spare hmem)).left
 dsimp only at height hfits
 unfold Usable
 omega

theorem block_eq_page {b : Nat × Nat} (hpart : Partition h live pages free []) (hb : b ∈ live)
  (hlast : h.words (b.1 - 8) = maxOrder - 1) :
  b.1 - 8 ∈ pages ∧ h.block b = wholePage (b.1 - 8) := by
 have hblock : h.block b = wholePage (b.1 - 8) := by
  unfold block
  rw [hlast]
  rfl
 have hmem : h.block b ∈ h.owned live free := mem_owned.mpr (.inl ⟨b, hb, rfl⟩)
 rcases hpart.regions _ hmem with ⟨_, _, page, hpage, hlow, hhigh⟩
 rw [hblock] at hlow hhigh
 unfold wholePage at hlow hhigh
 dsimp only at hlow hhigh
 have hsame : b.1 - 8 = page := by omega
 rw [hsame]
 rw [hsame] at hblock
 exact ⟨hpage, hblock⟩

end Partition

/-!
# Calls
-/

def taken (pages : List Nat) (page : Option Nat) : List Nat := page.toList ++ pages

def returned (pages : List Nat) : Option Nat -> List Nat
 | none => pages
 | some page => pages.erase page

theorem Partition.kalloc {asked page : Nat} (hpart : Partition h live pages free [])
  (hasked : asked + 8 ≤ pageSize) (halign : page % pageSize = 0) (hzero : page ≠ 0)
  (hfresh : page ∉ pages) :
  exists free', Partition (h.kalloc asked page).heap (((h.kalloc asked page).ret, asked) :: live)
    (taken pages (h.kalloc asked page).page) free' [] := by
 have hpages : pageSize = 4096 := rfl
 have horder : maxOrder = 512 := rfl
 rcases getIdx_spec (Nat.succ_pos (asked + 7)) with ⟨hfits, htight⟩
 change 8 * getIdx (asked + 8) < asked + 8 at htight
 have hpos : getIdx (asked + 8) ≤ maxOrder := by omega
 rcases h.seek_spec maxOrder hpos (Nat.le_add_left _ _) with ⟨hle, hend | ⟨hlt, hsome⟩⟩
 · rw [kalloc_page hend]
   have htaken := hpart.takePage halign hzero hfresh
   have hwhole : wholePage page = ⟨page, 8 * (getIdx (asked + 8) + 1) +
    (pageSize - (getIdx (asked + 8) + 1) * minBlockSize)⟩ := by
    unfold wholePage minBlockSize
    congr 1
    omega
   rw [hwhole] at htaken
   apply htaken.carve _ hfits
   unfold minBlockSize
   omega
 rw [kalloc_fetch rfl (Nat.ne_of_lt hlt)]
 generalize h.seek maxOrder (getIdx (asked + 8)) = idx at hle hlt hsome
 rcases hpart.fetch hsome with ⟨haddr, _, hfetched⟩
 rw [← haddr] at hfetched
 have hchunk : chunk ((h.fetch idx).1, idx) = ⟨(h.fetch idx).1, 8 * (getIdx (asked + 8) + 1) +
  ((idx + 1) * minBlockSize - (getIdx (asked + 8) + 1) * minBlockSize)⟩ := by
  unfold chunk minBlockSize
  congr 1
  omega
 rw [hchunk] at hfetched
 apply hfetched.carve _ hfits
 unfold minBlockSize
 omega

theorem Partition.kfree {b : Nat × Nat} (hpart : Partition h live pages free []) (hb : b ∈ live) :
  exists page next free', h.kfree b.1 = some (page, next) ∧
    Partition next (live.erase b) (returned pages page) free' [] ∧
    forall a, page = some a -> a ∈ pages ∧ h.block b = wholePage a := by
 rcases hpart.blocks b hb with ⟨_, hheader, _⟩
 have horder : maxOrder = 512 := rfl
 have hint : h.words (b.1 - 8) % 4294967296 = h.words (b.1 - 8) := by omega
 have hreleased := hpart.release hb
 unfold Kheap.kfree
 dsimp only
 rw [hint, if_pos hheader]
 split
 · rename_i hlast
   rcases hpart.block_eq_page hb hlast with ⟨hpage, hblock⟩
   rw [hblock] at hreleased
   refine ⟨some (b.1 - 8), h, free, rfl, hreleased.dropPage hpage, ?_⟩
   intro a ha
   cases ha
   exact ⟨hpage, hblock⟩
 rename_i hsmall
 have hadded := hreleased.add (k := h.words (b.1 - 8)) (by omega)
 refine ⟨none, _, _, rfl, hadded, ?_⟩
 nofun

end Kheap
end OSLab.Kernel
