import OSLab.Kernel.HeapPartition

/-!
# Runs of the kernel heap

Calls of `kalloc` and `kfree` one after the other.  Between them the owners of live
pointers write to the bytes that they asked for, and the rest of the kernel writes to
memory outside of the pages of the heap.
-/

namespace OSLab.Kernel
open Foundation TransitionSystem Region

structure KheapRun where
 heap : Kheap
 live : List (Nat × Nat)
 pages : List Nat

inductive KheapLabel where
 | kalloc (asked page : Nat)
 | kfree (p : Nat)
 | store (addr value : Nat)

namespace KheapRun

def FreshPage (s : KheapRun) (page : Nat) : Prop := page % pageSize = 0 ∧ page ≠ 0 ∧ page ∉ s.pages

instance (s : KheapRun) (page : Nat) : Decidable (s.FreshPage page) :=
 inferInstanceAs (Decidable (_ ∧ _))

def Writable (s : KheapRun) (addr : Nat) : Prop :=
 addr % 8 = 0 ∧ ((exists b, b ∈ s.live ∧ b.1 ≤ addr ∧ addr < b.1 + b.2) ∨
   forall page, page ∈ s.pages -> addr ∉ (wholePage page).bytes)

instance (s : KheapRun) (addr : Nat) : Decidable (s.Writable addr) :=
 inferInstanceAs (Decidable (_ ∧ _))

def kalloc (s : KheapRun) (asked page : Nat) : Option KheapRun :=
 if asked ≤ pageSize - 8 ∧ s.FreshPage page then
  let result := s.heap.kalloc asked page
  some {
   heap := result.heap
   live := (result.ret, asked) :: s.live
   pages := Kheap.taken s.pages result.page }
 else
  none

def kfree (s : KheapRun) (p : Nat) : Option KheapRun :=
 match s.live.find? (fun b => decide (b.1 = p)) with
 | none => none
 | some b =>
  match s.heap.kfree p with
  | none => none
  | some (page, heap) =>
   some {
    heap := heap
    live := s.live.erase b
    pages := Kheap.returned s.pages page }

def store (s : KheapRun) (addr value : Nat) : Option KheapRun :=
 if s.Writable addr then
  some { s with heap := s.heap.store addr value }
 else
  none

def step (s : KheapRun) : KheapLabel -> Option KheapRun
 | .kalloc asked page => s.kalloc asked page
 | .kfree p => s.kfree p
 | .store addr value => s.store addr value

end KheapRun

def kheapSystem : TransitionSystem KheapRun KheapLabel where
 initial := fun s => (forall k, s.heap.freeMem k = 0) ∧ s.live = [] ∧ s.pages = []
 step := KheapRun.step

namespace KheapRun
variable {s next : KheapRun}

def Sound (s : KheapRun) : Prop := exists free, s.heap.Partition s.live s.pages free []

theorem sound_start (hinit : kheapSystem.initial s) : s.Sound := by
 rcases hinit with ⟨hheads, hlive, hpages⟩
 refine ⟨[], ?_⟩
 rw [hlive, hpages]
 constructor
 · exact hheads
 · intro c hc
   exact absurd hc List.not_mem_nil
 · intro b hb
   exact absurd hb List.not_mem_nil
 · exact List.Perm.nil
 · intro r hr
   exact absurd hr List.not_mem_nil
 · exact List.nodup_nil
 · intro page hpage
   exact absurd hpage List.not_mem_nil

theorem Sound.kalloc {asked page : Nat} (h : s.Sound)
  (hstep : s.kalloc asked page = some next) : next.Sound := by
 rcases h with ⟨free, hpart⟩
 unfold KheapRun.kalloc at hstep
 split at hstep
 · rename_i hcond
   rcases hcond with ⟨hasked, halign, hzero, hfresh⟩
   cases hstep
   apply hpart.kalloc _ halign hzero hfresh
   unfold pageSize at hasked ⊢
   omega
 · cases hstep

theorem Sound.kfree {p : Nat} (h : s.Sound) (hstep : s.kfree p = some next) : next.Sound := by
 rcases h with ⟨free, hpart⟩
 unfold KheapRun.kfree at hstep
 cases hfind : s.live.find? (fun b => decide (b.1 = p)) with
 | none =>
  rw [hfind] at hstep
  cases hstep
 | some b =>
  have hb : b ∈ s.live := List.mem_of_find?_eq_some hfind
  have hfound := List.find?_some hfind
  have hp : b.1 = p := of_decide_eq_true hfound
  rcases hpart.kfree hb with ⟨page, heap, free', hfree, hnext, _⟩
  rw [hp] at hfree
  rw [hfind] at hstep
  rw [hfree] at hstep
  cases hstep
  exact ⟨free', hnext⟩

theorem Sound.store {addr value : Nat} (h : s.Sound)
  (hstep : s.store addr value = some next) : next.Sound := by
 rcases h with ⟨free, hpart⟩
 unfold KheapRun.store at hstep
 rcases of_guard hstep with ⟨hwritable, rfl⟩
 refine ⟨free, hpart.store value ?_⟩
 intro r hr hstart
 rcases hpart.regions r hr with ⟨_, hsize, page, hpage, hinside⟩
 have hr' : addr ∈ r.bytes := by
  rw [← hstart]
  exact start_mem hsize
 rcases hwritable.right with ⟨b, hb, hlow, hhigh⟩ | hout
 · rcases hpart.blocks b hb with ⟨height, _, hfits⟩
   have hblock : addr ∈ (s.heap.block b).bytes := by
    unfold Kheap.block
    rw [mem_bytes]
    dsimp only
    omega
   have hmem : s.heap.block b ∈ s.heap.owned s.live free :=
    Kheap.mem_owned.mpr (.inl ⟨b, hb, rfl⟩)
   have hne : s.heap.block b ≠ r := by
    intro hsame
    rw [← hsame] at hstart
    change b.1 - 8 = addr at hstart
    omega
   exact hpart.separate.apart_of_ne hmem hr hne addr hblock hr'
 · exact hout page hpage (hinside.mem hr')

theorem sound_of_reachable (hreach : Reachable kheapSystem unguarded s) : s.Sound := by
 apply reachable_invariant Sound _ _ hreach
 · intro s hinit
   exact sound_start hinit
 intro s l next _ h _ hstep
 cases l with
 | kalloc asked page => exact h.kalloc hstep
 | kfree p => exact h.kfree hstep
 | store addr value => exact h.store hstep

end KheapRun

/-!
# The partition
-/

/--
The queue of `free_mem[k]` links the addresses of the chunks `(address, k)` of the list
`free`; a chunk has `8 * (k + 1)` bytes.
-/
structure KheapRun.Partitioned (s : KheapRun) (free : List (Nat × Nat)) : Prop where
 queues : forall k, Common.Linked s.heap.words (s.heap.freeMem k) (Kheap.onList free k)
 disjoint : (s.live.map s.heap.block ++ free.map chunk).Pairwise Apart
 inside : forall r, r ∈ s.live.map s.heap.block ++ free.map chunk ->
  exists page, page ∈ s.pages ∧ r.Inside (wholePage page)
 tiles : Tiles (s.live.map s.heap.block ++ free.map chunk) (s.pages.map wholePage)
 pointers : forall p asked, (p, asked) ∈ s.live -> s.heap.Usable p asked
 allocates : forall asked page, asked ≤ pageSize - 8 -> s.FreshPage page ->
  (s.heap.kalloc asked page).heap.Usable (s.heap.kalloc asked page).ret asked
 frees : forall p asked, (p, asked) ∈ s.live ->
  exists page heap, s.heap.kfree p = some (page, heap) ∧
   forall a, page = some a -> a ∈ s.pages ∧ s.heap.block (p, asked) = wholePage a

theorem kheap_partitioned_of_reachable {s : KheapRun}
  (hreach : Reachable kheapSystem unguarded s) : exists free, s.Partitioned free := by
 rcases KheapRun.sound_of_reachable hreach with ⟨free, hpart⟩
 refine ⟨free, ?_⟩
 constructor
 · exact hpart.queues
 · exact separate_iff.mp hpart.separate
 · intro r hr
   exact (hpart.regions r hr).right.right
 · exact hpart.tiles
 · intro p asked hlive
   exact hpart.usable hlive
 · intro asked page hasked hfresh
   have hfits : asked + 8 ≤ pageSize := by
    unfold pageSize at hasked ⊢
    omega
   rcases hpart.kalloc hfits hfresh.left hfresh.right.left hfresh.right.right with ⟨_, hnext⟩
   exact hnext.usable List.mem_cons_self
 · intro p asked hlive
   rcases hpart.kfree hlive with ⟨page, heap, _, hfree, _, hpage⟩
   exact ⟨page, heap, hfree, hpage⟩

def emptyKheap : KheapRun where
 heap := { words := fun _ => 0, freeMem := fun _ => 0 }
 live := []
 pages := []

theorem emptyKheap_start : kheapSystem.initial emptyKheap := ⟨fun _ => rfl, rfl, rfl⟩

open KheapLabel in
/--
A block is cut from a page, freed and cut again; a block of a whole page comes and goes.
-/
theorem kheap_partitioned_after_reuse :
  exists s, Reachable kheapSystem unguarded s ∧ (exists free, s.Partitioned free) ∧
    s.live = [(4104, 5), (4136, 24)] ∧ s.pages = [4096] ∧ s.heap.freeMem 0 = 0 ∧
    s.heap.freeMem 1 = 4112 ∧ s.heap.freeMem 503 = 4160 := by
 exact exists_reachable_also emptyKheap_start
  [kalloc 20 4096, kalloc 24 8192, store 4136 7, kfree 4104, kalloc 4088 8192, kfree 8200,
   kalloc 5 8192] (by decide +kernel)
  (fun _ => kheap_partitioned_of_reachable)

end OSLab.Kernel
