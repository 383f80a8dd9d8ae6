import OSLab.Common.Queue
import OSLab.Foundation.Regions
import OSLab.Kernel.PageTable

/-!
# The kernel heap

`kalloc` and `kfree` of `kernel/mem.c`.  Memory is a word at every multiple of 8.  A block
begins with a word that holds the class of the block, and the queue `free_mem[k]` links
chunks of `8 * (k + 1)` bytes through their first words.
-/

namespace OSLab.Kernel
open Common

def minBlockSize : Nat := 8

def maxOrder : Nat := pageSize / minBlockSize

def getIdx (sz : Nat) : Nat :=
 let idx := sz >>> 3
 if sz = idx * minBlockSize then idx - 1 else idx

structure Kheap where
 words : Words
 freeMem : Nat -> Nat

/-- What `kalloc` returns, and the page that it has taken from `kalloc_page`, if any. -/
structure Allocation where
 page : Option Nat
 ret : Nat
 heap : Kheap

namespace Kheap
variable (h : Kheap)

def add (idx node : Nat) : Kheap :=
 let queue := addToQueue h.words (h.freeMem idx) node
 { words := queue.1, freeMem := Function.update h.freeMem idx queue.2 }

def fetch (idx : Nat) : Nat × Kheap :=
 let queue := fetchFromQueue h.words (h.freeMem idx)
 (queue.1, { h with freeMem := Function.update h.freeMem idx queue.2 })

def store (addr value : Nat) : Kheap :=
 { h with words := Function.update h.words addr value }

/-- The loop over the classes, which ends after at most `maxOrder` rounds. -/
def seek (h : Kheap) : Nat -> Nat -> Nat
 | 0, idx => idx
 | rounds + 1, idx => if idx < maxOrder ∧ h.freeMem idx = 0 then h.seek rounds (idx + 1) else idx

/-- `kalloc`, where `page` is what `kalloc_page` returns if it is called. -/
def kalloc (asked page : Nat) : Allocation :=
 let pos := getIdx (asked + 8)
 let size := (pos + 1) * minBlockSize
 let idx := h.seek maxOrder pos
 if idx = maxOrder then
  let h := if size < pageSize then
   h.add ((pageSize - size) / minBlockSize - 1) (page + size)
   else
    h
  { page := some page, ret := page + 8, heap := h.store page pos }
 else
  let fetched := h.fetch idx
  let rest := (idx + 1) * minBlockSize - size
  let h := if rest ≠ 0 then
   fetched.2.add (rest / minBlockSize - 1) (fetched.1 + size)
   else
    fetched.2
  { page := none, ret := fetched.1 + 8, heap := h.store fetched.1 pos }

/--
`kfree`, with the page that it gives to `kfree_page`, if any.  The header is read as an
`int`; a value that is not the number of a queue is an access outside of `free_mem`.
-/
def kfree (p : Nat) : Option (Option Nat × Kheap) :=
 let addr := p - 8
 let idx := h.words addr % 4294967296
 if idx = maxOrder - 1 then
  some (some addr, h)
 else if idx < maxOrder then
  some (none, h.add idx addr)
 else
  none

end Kheap

/-!
# Sizes and classes
-/

theorem getIdx_spec {sz : Nat} (h : 0 < sz) : sz ≤ 8 * (getIdx sz + 1) ∧ 8 * getIdx sz < sz := by
 have hshift : sz >>> 3 = sz / 8 := Nat.shiftRight_eq_div_pow sz 3
 unfold getIdx minBlockSize
 rw [hshift]
 dsimp only
 split
 · omega
 · omega

namespace Kheap
variable {h : Kheap} {idx : Nat}

theorem seek_spec (rounds : Nat) (hidx : idx ≤ maxOrder) (hrounds : maxOrder ≤ idx + rounds) :
  idx ≤ h.seek rounds idx ∧ (h.seek rounds idx = maxOrder ∨
      h.seek rounds idx < maxOrder ∧ h.freeMem (h.seek rounds idx) ≠ 0) := by
 induction rounds generalizing idx with
 | zero => exact ⟨Nat.le_refl idx, .inl (Nat.le_antisymm hidx hrounds)⟩
 | succ rounds ih =>
  unfold seek
  split
  · rename_i hempty
    have hnext : idx + 1 ≤ maxOrder := hempty.left
    rcases ih hnext (by omega) with ⟨hle, hend⟩
    exact ⟨Nat.le_trans (Nat.le_succ idx) hle, hend⟩
  rename_i hstop
  refine ⟨Nat.le_refl idx, ?_⟩
  rcases Nat.lt_or_eq_of_le hidx with hlt | heq
  · exact .inr ⟨hlt, fun hzero => hstop ⟨hlt, hzero⟩⟩
  · exact .inl heq

def carve (h : Kheap) (addr pos rest : Nat) : Kheap :=
 (if rest ≠ 0 then
  h.add (rest / minBlockSize - 1) (addr + (pos + 1) * minBlockSize)
 else
  h).store addr pos

theorem kalloc_page {asked page : Nat} (hseek : h.seek maxOrder (getIdx (asked + 8)) = maxOrder) :
  h.kalloc asked page =
    { page := some page
      ret := page + 8
      heap := h.carve page (getIdx (asked + 8))
        (pageSize - (getIdx (asked + 8) + 1) * minBlockSize) } := by
 unfold kalloc carve
 dsimp only
 rw [if_pos hseek]
 congr 2
 split
 · rename_i hlt
   rw [if_pos (Nat.sub_ne_zero_of_lt hlt)]
 rename_i hle
 rw [if_neg]
 exact fun hrest => hrest (Nat.sub_eq_zero_of_le (Nat.le_of_not_lt hle))

theorem kalloc_fetch {asked page idx : Nat}
  (hseek : h.seek maxOrder (getIdx (asked + 8)) = idx) (hidx : idx ≠ maxOrder) :
  h.kalloc asked page =
    { page := none
      ret := (h.fetch idx).1 + 8
      heap := (h.fetch idx).2.carve (h.fetch idx).1 (getIdx (asked + 8))
        ((idx + 1) * minBlockSize - (getIdx (asked + 8) + 1) * minBlockSize) } := by
 unfold kalloc carve
 dsimp only
 rw [hseek, if_neg hidx]

end OSLab.Kernel.Kheap
