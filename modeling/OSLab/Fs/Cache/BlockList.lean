import OSLab.Common.Semaphore
import OSLab.Foundation.TransitionSystem
import OSLab.Fs.Layout

/-!
# The list of cached blocks

The part of `fs/cache.c` that the cache spinlock protects: the list of cached
blocks in the order of their last acquisition, eviction from its far end, and
the critical sections of `cache_acquire` and `cache_release`.

Blocks are heap objects with addresses.  A freed object keeps its last contents
and its address may be allocated again, as in C; only the list says which
objects are alive.
-/

namespace OSLab.Fs
open Common Function

abbrev Addr := Nat

structure Block where
 blockNo : BlockNo
 acquired : Bool
 pinned : Bool
 lock : Semaphore Tid
 valid : Bool
 data : BlockData

inductive AcquirePc where
 | idle
 | waiting (no : BlockNo) (a : Addr)
 | asleep (no : BlockNo) (a : Addr)
 | woken (no : BlockNo) (a : Addr)
 | passed (no : BlockNo)
 deriving DecidableEq

/--
The cache together with the threads that use it.  The list runs from `head.next`
to `head.prev`; `held` lists the blocks a thread has acquired and not released.
-/
structure CacheState where
 head : List Addr
 heap : Addr -> Block
 cacheCnt : Nat
 pc : Tid -> AcquirePc
 held : Tid -> List Addr

namespace CacheState
variable (s : CacheState)

def getNumCachedBlocks : Nat := s.cacheCnt

def evictable (a : Addr) : Bool := !(s.heap a).pinned && !(s.heap a).acquired

/-- The loop of `LRU_shrink` over the list from its far end. -/
def lruShrinkLoop (evict : Addr -> Bool) : List Addr -> Nat -> List Addr × Nat
 | [], cnt => ([], cnt)
 | a :: rest, cnt =>
  if cnt < evictionThreshold then
   (a :: rest, cnt)
  else if evict a then
   lruShrinkLoop evict rest (cnt - 1)
  else
   let shrunk := lruShrinkLoop evict rest cnt
   (a :: shrunk.1, shrunk.2)

def lruShrink : CacheState :=
 let shrunk := lruShrinkLoop s.evictable s.head.reverse s.cacheCnt
 { s with head := shrunk.1.reverse, cacheCnt := shrunk.2 }

def makeRoom : CacheState :=
 if evictionThreshold ≤ s.getNumCachedBlocks then s.lruShrink else s

def search (no : BlockNo) : Option Addr :=
 s.head.find? (fun a => (s.heap a).blockNo == no)

def initBlock : Block where
 blockNo := 0
 acquired := false
 pinned := false
 lock := Semaphore.initSem 1
 valid := false
 data := fun _ => 0

def loadedBlock (no : BlockNo) (data : BlockData) : Block :=
 { initBlock with
   blockNo := no
   data := data
   valid := true
   lock := (initBlock.lock.getSem).2
   acquired := true }

def takenBlock (b : Block) (ifBack : Bool) : Block :=
 { b with
   lock := if ifBack then b.lock else (b.lock.getSem).2
   acquired := true }

def giveTo (t : Tid) (a : Addr) (b : Block) : CacheState :=
 { s with
   head := a :: s.head
   heap := update s.heap a b
   pc := update s.pc t .idle
   held := update s.held t (a :: s.held t) }

/--
The critical section of `cache_acquire`, from the label `__back` on.  The
arguments `fresh` and `device` are what `kalloc` and `device_read` return on a
miss; `kalloc` never returns the address of a live block.
-/
def acquireSection (t : Tid) (no : BlockNo) (ifBack : Bool)
  (fresh : Addr) (device : BlockData) : Option CacheState :=
 match s.search no with
 | some a =>
  if (s.heap a).acquired then
   some { s with pc := update s.pc t (.waiting no a) }
  else
   -- `_detach_from_list` and `_merge_list` move the node to the front
   some ({ s with head := s.head.erase a }.giveTo t a (takenBlock (s.heap a) ifBack))
 | none =>
  let room := s.makeRoom
  if fresh ∈ room.head then
   none
  else
   some ({ room with cacheCnt := room.cacheCnt + 1 }.giveTo t fresh (loadedBlock no device))

def wake (pc : Tid -> AcquirePc) (u : Tid) : Tid -> AcquirePc :=
 match pc u with
 | .asleep no a => update pc u (.woken no a)
 | _ => pc

def wakeOption (pc : Tid -> AcquirePc) : Option Tid -> Tid -> AcquirePc
 | none => pc
 | some u => wake pc u

/-- `cache_release`, called by a thread that holds the block. -/
def cacheRelease (t : Tid) (a : Addr) : Option CacheState :=
 if s.pc t = .idle ∧ a ∈ s.held t then
  let posted := (s.heap a).lock.postSem
  some { s with
   heap := update s.heap a { s.heap a with acquired := false, lock := posted.2 }
   pc := wakeOption s.pc posted.1
   held := update s.held t ((s.held t).erase a) }
 else
  none

/-- `unalertable_wait_sem` on the lock of the block, up to the sleep. -/
def waitBlock (t : Tid) : Option CacheState :=
 match s.pc t with
 | .waiting no a =>
  let waited := (s.heap a).lock.waitSem t
  some { s with
   heap := update s.heap a { s.heap a with lock := waited.2 }
   pc := update s.pc t (if waited.1 then .passed no else .asleep no a) }
 | _ => none

def target : AcquirePc -> Option BlockNo
 | .idle => none
 | .waiting no _ | .asleep no _ | .woken no _ | .passed no => some no

def backTarget : AcquirePc -> Option BlockNo
 | .woken no _ | .passed no => some no
 | _ => none

end CacheState

/-!
# Threads that use the cache

Every label names the thread that moves.  A thread that holds a block may also
change its contents and its pin; `cache_sync` and the commit do so.
-/

inductive CacheLabel where
 | acquire (t : Tid) (no : BlockNo) (fresh : Addr) (device : BlockData)
 | wait (t : Tid)
 | back (t : Tid) (fresh : Addr) (device : BlockData)
 | release (t : Tid) (a : Addr)
 | setPinned (t : Tid) (a : Addr) (pinned : Bool)
 | setData (t : Tid) (a : Addr) (data : BlockData)

def CacheLabel.actor : CacheLabel -> Tid
 | acquire t _ _ _ | wait t | back t _ _ | release t _ | setPinned t _ _ | setData t _ _ => t

namespace CacheState

def modifyHeld (s : CacheState) (t : Tid) (a : Addr) (b : Block) : Option CacheState :=
 if s.pc t = .idle ∧ a ∈ s.held t then
  some { s with heap := update s.heap a b }
 else
  none

def step (s : CacheState) : CacheLabel -> Option CacheState
 | .acquire t no fresh device =>
  if s.pc t = .idle then
   s.acquireSection t no false fresh device
  else
   none
 | .wait t => s.waitBlock t
 | .back t fresh device =>
  match backTarget (s.pc t) with
  | some no => s.acquireSection t no true fresh device
  | none => none
 | .release t a => s.cacheRelease t a
 | .setPinned t a pinned => s.modifyHeld t a { s.heap a with pinned := pinned }
 | .setData t a data => s.modifyHeld t a { s.heap a with data := data }

end CacheState

/-!
# What a step can do

The block list, the contents of the blocks and the ownership of blocks change
in five ways only.  Everything else that a step does concerns the semaphores
and the places where threads stand.
-/

structure BlockView where
 blockNo : BlockNo
 acquired : Bool
 pinned : Bool
 data : BlockData

def Block.view (b : Block) : BlockView where
 blockNo := b.blockNo
 acquired := b.acquired
 pinned := b.pinned
 data := b.data

namespace CacheState

def view (s : CacheState) (a : Addr) : BlockView := (s.heap a).view

structure Quiet (s next : CacheState) : Prop where
 head : next.head = s.head
 count : next.cacheCnt = s.cacheCnt
 held : next.held = s.held
 view : next.view = s.view

structure Takes (s : CacheState) (t : Tid) (a : Addr) (next : CacheState) :
  Prop where
 listed : a ∈ s.head
 free : (s.view a).acquired = false
 head : next.head = a :: s.head.erase a
 count : next.cacheCnt = s.cacheCnt
 held : next.held = update s.held t (a :: s.held t)
 view : next.view = update s.view a { s.view a with acquired := true }

structure Loads (s : CacheState) (t : Tid) (a : Addr) (no : BlockNo)
  (data : BlockData) (next : CacheState) : Prop where
 missed : forall x, x ∈ s.head -> (s.view x).blockNo ≠ no
 fresh : a ∉ s.makeRoom.head
 head : next.head = a :: s.makeRoom.head
 count : next.cacheCnt = s.makeRoom.cacheCnt + 1
 held : next.held = update s.held t (a :: s.held t)
 view : next.view = update s.view a
  { blockNo := no, acquired := true, pinned := false, data := data }

structure Releases (s : CacheState) (t : Tid) (a : Addr) (next : CacheState) :
  Prop where
 owned : a ∈ s.held t
 head : next.head = s.head
 count : next.cacheCnt = s.cacheCnt
 held : next.held = update s.held t ((s.held t).erase a)
 view : next.view = update s.view a { s.view a with acquired := false }

structure Changes (s : CacheState) (t : Tid) (a : Addr) (pinned : Bool)
  (data : BlockData) (next : CacheState) : Prop where
 owned : a ∈ s.held t
 head : next.head = s.head
 count : next.cacheCnt = s.cacheCnt
 held : next.held = s.held
 pc : next.pc = s.pc
 view : next.view = update s.view a { s.view a with pinned := pinned, data := data }

variable {s next : CacheState} {a : Addr}

theorem view_update {b : Block} {v : BlockView}
  (h : next.heap = update s.heap a b) (hv : b.view = v) :
  next.view = update s.view a v := by
 funext x
 unfold view
 rw [h, ← hv]
 by_cases hx : x = a
 · subst hx
   simp
 · simp [hx]

variable {no : BlockNo}

theorem search_some {s : CacheState}
  (h : s.search no = some a) : a ∈ s.head ∧ (s.view a).blockNo = no := by
 refine ⟨List.mem_of_find?_eq_some h, ?_⟩
 simpa [view, Block.view] using List.find?_some h

theorem search_none {s : CacheState}
  (h : s.search no = none) {x : Addr} (hx : x ∈ s.head) : (s.view x).blockNo ≠ no := by
 have hfind := List.find?_eq_none.mp h x hx
 simpa [view, Block.view] using hfind

@[simp] theorem makeRoom_heap (s : CacheState) : s.makeRoom.heap = s.heap := by
 unfold makeRoom lruShrink
 split <;> rfl

@[simp] theorem makeRoom_held (s : CacheState) : s.makeRoom.held = s.held := by
 unfold makeRoom lruShrink
 split <;> rfl

@[simp] theorem makeRoom_pc (s : CacheState) : s.makeRoom.pc = s.pc := by
 unfold makeRoom lruShrink
 split <;> rfl

variable {t : Tid}

theorem acquireSection_cases {ifBack : Bool} {fresh : Addr} {device : BlockData}
  (h : s.acquireSection t no ifBack fresh device = some next) :
  (exists a, s.Quiet next ∧ next.pc = update s.pc t (.waiting no a)) ∨
    (next.pc = update s.pc t .idle ∧ ((exists a, (s.view a).blockNo = no ∧ s.Takes t a next) ∨
        s.Loads t fresh no device next)) := by
 unfold acquireSection at h
 cases hsearch : s.search no with
 | some a =>
  rw [hsearch] at h
  rcases search_some hsearch with ⟨hlisted, hno⟩
  by_cases hacq : (s.heap a).acquired = true
  · simp only [hacq, if_true, Option.some.injEq] at h
    subst next
    exact .inl ⟨a, ⟨rfl, rfl, rfl, rfl⟩, rfl⟩
  simp only [hacq, if_false, Option.some.injEq, Bool.false_eq_true] at h
  subst next
  refine .inr ⟨rfl, .inl ⟨a, hno, ?_⟩⟩
  exact {
   listed := hlisted
   free := by simpa [view, Block.view] using hacq
   head := rfl
   count := rfl
   held := rfl
   view := view_update rfl rfl }
 | none =>
  rw [hsearch] at h
  by_cases hfresh : fresh ∈ s.makeRoom.head
  · simp [hfresh] at h
  simp only [hfresh, if_false, Option.some.injEq] at h
  subst next
  refine .inr ⟨by simp [giveTo], .inr ?_⟩
  exact {
   missed := fun x hx => search_none hsearch hx
   fresh := hfresh
   head := rfl
   count := rfl
   held := by simp [giveTo]
   view := view_update (b := loadedBlock no device) (by simp only [giveTo, makeRoom_heap]) rfl }

theorem waitBlock_cases (h : s.waitBlock t = some next) :
  exists no a, s.pc t = .waiting no a ∧ s.Quiet next ∧ (next.pc = update s.pc t (.passed no) ∨
      next.pc = update s.pc t (.asleep no a)) := by
 unfold waitBlock at h
 cases hpc : s.pc t with
 | waiting no a =>
  rw [hpc] at h
  simp only [Option.some.injEq] at h
  subst next
  refine ⟨no, a, rfl, ⟨rfl, rfl, rfl, ?_⟩, ?_⟩
  · funext x
    by_cases hx : x = a
    · subst hx
      simp [view, Block.view]
    · simp [view, hx]
  cases ((s.heap a).lock.waitSem t).1 with
  | true => exact .inl rfl
  | false => exact .inr rfl
 | _ => simp [hpc] at h

theorem cacheRelease_cases (h : s.cacheRelease t a = some next) :
  s.pc t = .idle ∧ s.Releases t a next ∧ exists woken, next.pc = wakeOption s.pc woken := by
 unfold cacheRelease at h
 by_cases hheld : s.pc t = .idle ∧ a ∈ s.held t
 · rw [if_pos hheld] at h
   simp only [Option.some.injEq] at h
   subst next
   refine ⟨hheld.left, ?_, _, rfl⟩
   exact {
    owned := hheld.right
    head := rfl
    count := rfl
    held := rfl
    view := view_update rfl rfl }
 · simp [hheld] at h

theorem modifyHeld_cases {b : Block}
  (h : s.modifyHeld t a b = some next) (hno : b.blockNo = (s.heap a).blockNo)
  (hacq : b.acquired = (s.heap a).acquired) :
  s.pc t = .idle ∧ s.Changes t a b.pinned b.data next := by
 unfold modifyHeld at h
 by_cases hheld : s.pc t = .idle ∧ a ∈ s.held t
 · rw [if_pos hheld] at h
   simp only [Option.some.injEq] at h
   subst next
   refine ⟨hheld.left, ?_⟩
   exact {
    owned := hheld.right
    head := rfl
    count := rfl
    held := rfl
    pc := rfl
    view := view_update rfl (by simp [view, Block.view, hno, hacq]) }
 · simp [hheld] at h

theorem step_cases {l : CacheLabel} (h : s.step l = some next) : s.Quiet next ∨
    (exists t a, s.Takes t a next) ∨
    (exists t a no data, s.Loads t a no data next) ∨
    (exists t a, s.Releases t a next) ∨
    exists t a pinned data, s.Changes t a pinned data next := by
 have hsection : forall {t no ifBack fresh device},
  s.acquireSection t no ifBack fresh device = some next ->
  s.Quiet next ∨ (exists t a, s.Takes t a next) ∨ exists t a no data, s.Loads t a no data next := by
  intro t no ifBack fresh device hsec
  rcases acquireSection_cases hsec with ⟨_, hquiet, _⟩ | ⟨_, ⟨a, _, htakes⟩ | hloads⟩
  · exact .inl hquiet
  · exact .inr (.inl ⟨t, a, htakes⟩)
  · exact .inr (.inr ⟨t, fresh, no, device, hloads⟩)
 cases l with
 | acquire t no fresh device | back t fresh device =>
  simp only [step] at h
  split at h
  · rcases hsection h with hq | ht | hl
    · exact .inl hq
    · exact .inr (.inl ht)
    · exact .inr (.inr (.inl hl))
  · cases h
 | wait t =>
  rcases waitBlock_cases h with ⟨_, _, _, hquiet, _⟩
  exact .inl hquiet
 | release t a => exact .inr (.inr (.inr (.inl ⟨t, a, (cacheRelease_cases h).right.left⟩)))
 | setPinned t a pinned | setData t a data =>
  have hchanges := (modifyHeld_cases h rfl rfl).right
  exact .inr (.inr (.inr (.inr ⟨t, a, _, _, hchanges⟩)))

end CacheState

/-- The cache after `init_bcache`: no block is cached and no thread is inside. -/
def CacheState.Initial (s : CacheState) : Prop :=
 s.head = [] ∧ s.cacheCnt = 0 ∧ (forall t, s.pc t = .idle) ∧ forall t, s.held t = []

def CacheState.empty : CacheState where
 head := []
 heap := fun _ => CacheState.initBlock
 cacheCnt := 0
 pc := fun _ => .idle
 held := fun _ => []

theorem CacheState.empty_initial : CacheState.empty.Initial :=
 ⟨rfl, rfl, fun _ => rfl, fun _ => rfl⟩

def cacheSystem : Foundation.TransitionSystem CacheState CacheLabel where
 initial := CacheState.Initial
 step := CacheState.step

end OSLab.Fs
