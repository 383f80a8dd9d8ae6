import OSLab.Fs.Inode.Specification
import OSLab.Kernel.Swap

/-!
# Where blocks are allocated

`cache_alloc` leaves out the last `SWAP_SIZE` blocks of the disk, while the swap area is at
a fixed place.  The two agree for one size of the disk; below `SWAP_SIZE` blocks the
difference wraps around.
-/

namespace OSLab.Fs
open Foundation Program
variable (sb : SuperBlock)

theorem dataLimit_eq : sb.dataLimit = (2 ^ 32 - 200 + sb.numBlocks.toNat) % 2 ^ 32 :=
 UInt32.toNat_sub _ _

variable {s : FsState}

theorem meets_any {result : Type} {prog : FsProgram result} :
  prog.Meets s always (fun _ _ => True) := by
 unfold Meets
 split <;> trivial

theorem meets_allocLoop_limit (ctx : Bool) (indices : List Nat) :
  (allocLoop sb ctx indices).Meets s always (fun no _ => no < sb.dataLimit) := by
 induction indices generalizing s with
 | nil => trivial
 | cons index rest ih =>
  apply meets_bind meets_any
  intro _ _ _
  apply meets_bind meets_any
  intro bitmap _ _
  split
  · rename_i i hfind
    have hi := (firstClear_some hfind).left
    apply meets_bind meets_any
    intro _ _ _
    apply meets_bind meets_any
    intro _ _ _
    apply meets_bind meets_any
    intro _ _ _
    apply meets_bind meets_any
    intro _ _ _
    exact meets_pure (by omega)
  apply meets_bind meets_any
  intro _ _ _
  exact ih

def takenBlock (n : Nat) : BlockData := fun x => if x.val < n then 255 else 0

def takenDisk (n : Nat) : FsState := ⟨fun _ => takenBlock n, [], [], 0, fun _ => none⟩

theorem takenBlock_spec : forall n, n ∈ [25, 100] ->
  8 * n < bitPerBlock ∧ Common.bitmapGet (takenBlock n) (8 * n) = false ∧
    forall i, i < 8 * n -> Common.bitmapGet (takenBlock n) i := by
 decide +kernel

theorem meets_storeBlock_direct {stops : Stop -> Prop} {no : Nat} {data : BlockData} :
  (storeBlock false no data).Meets s stops (fun _ next => next.held = s.held.erase no) :=
 rfl

theorem cacheAlloc_takenDisk {n : Nat} (hn : n ∈ [25, 100]) (hlimit : 8 * n < sb.dataLimit) :
  exists next, cacheAlloc sb false (takenDisk n) = .ok (8 * n, next) := by
 have hfind : firstClear (takenBlock n) (min bitPerBlock (sb.dataLimit - 0)) = some (8 * n) := by
  rcases takenBlock_spec n hn with ⟨hbits, hclear, hset⟩
  apply List.find?_range_eq_some.mpr
  refine ⟨by rw [hclear]; rfl, List.mem_range.mpr (by omega), ?_⟩
  intro i hi
  rw [hset i hi]
  rfl
 have hmeets : (cacheAlloc sb false).Meets (takenDisk n) never (fun no _ => no = 8 * n) := by
  have hcount : (sb.dataLimit + (bitPerBlock - 1)) / bitPerBlock =
   (sb.dataLimit - 1) / bitPerBlock + 1 := by
   unfold bitPerBlock blockSize
   omega
  unfold cacheAlloc SuperBlock.bitmapIndices
  rw [hcount, List.range_succ_eq_map, List.map_cons, Nat.zero_mul]
  apply meets_acquireData List.not_mem_nil
  simp only [takenDisk, hfind]
  apply meets_bind meets_blockData
  rintro _ _ ⟨rfl, rfl⟩
  apply meets_bind meets_storeBlock_direct
  intro _ mid hheld
  have hfree : 0 + 8 * n ∉ mid.held := by
   rw [hheld, List.erase_cons_head]
   exact List.not_mem_nil
  apply meets_bind (meets_cacheAcquire hfree)
  rintro _ _ rfl
  apply meets_bind meets_storeBlock_direct
  intro _ _ _
  exact meets_pure (Nat.zero_add _)
 rcases meets_returns hmeets with ⟨no, next, hrun, rfl⟩
 exact ⟨next, hrun⟩

/--
The blocks that `cache_alloc` returns are on the disk and outside the swap area, and it reads
no block after the bitmap, if and only if the disk has from `SWAP_SIZE` to `SWAP_END` blocks.
-/
theorem cache_alloc_range_iff (sb : SuperBlock) :
  ((forall ctx s no next, cacheAlloc sb ctx s = .ok (no, next) ->
      no < sb.numBlocks.toNat ∧ ¬ (Kernel.swapStart ≤ no ∧ no < Kernel.swapEnd)) ∧
    forall index, index ∈ sb.bitmapIndices ->
      index / bitPerBlock < (sb.numBlocks.toNat + (bitPerBlock - 1)) / bitPerBlock) ↔
  swapSize ≤ sb.numBlocks.toNat ∧ sb.numBlocks.toNat ≤ Kernel.swapEnd := by
 have hlimit := dataLimit_eq sb
 have hword := sb.numBlocks.toNat_lt
 unfold Kernel.swapStart Kernel.swapEnd swapSize
 constructor
 · rintro ⟨hrange, _⟩
   constructor
   · by_contra hsmall
     rcases cacheAlloc_takenDisk sb (n := 25) (by decide) (by omega) with ⟨next, hrun⟩
     have hno := (hrange _ _ _ _ hrun).left
     omega
   by_contra hlarge
   rcases cacheAlloc_takenDisk sb (n := 100) (by decide) (by omega) with ⟨next, hrun⟩
   exact (hrange _ _ _ _ hrun).right (by decide)
 rintro ⟨hlow, hhigh⟩
 constructor
 · intro ctx s no next hrun
   have hno := meets_run (meets_allocLoop_limit sb ctx _) hrun
   omega
 intro index hindex
 rcases List.mem_map.mp hindex with ⟨k, hk, rfl⟩
 rw [List.mem_range] at hk
 unfold bitPerBlock blockSize at *
 omega

/-- On a disk of 1001 blocks the first block of the swap area is allocated. -/
theorem cache_alloc_takes_swap_block :
  exists (sb : SuperBlock) (s next : FsState), sb.numBlocks = 1001 ∧
    cacheAlloc sb false s = .ok (Kernel.swapStart, next) := by
 rcases cacheAlloc_takenDisk ⟨1001, 0, 0, 0, 0, 0⟩ (n := 100) (by decide) (by decide) with
  ⟨next, hrun⟩
 exact ⟨_, _, next, rfl, hrun⟩

end OSLab.Fs
