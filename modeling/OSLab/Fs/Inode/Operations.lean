import OSLab.Foundation.Program
import OSLab.Foundation.TransitionSystem
import OSLab.Fs.Inode.Format
import Mathlib.Data.List.FinRange

/-!
# Operations on inodes

`cache_alloc` and `cache_free` of `fs/cache.c` and the functions of `fs/inode.c`
on which files rest, for one thread at a time.

A block is known by its number.  The data of a block that is held are those of
the block in the cache, so they are read and written there at every access.
-/

namespace OSLab.Fs
open Foundation Program

structure Inode where
 inodeNo : Nat
 rc : Nat
 valid : Bool
 entry : InodeEntry

/--
The blocks, those that the thread holds, the block numbers in the log header,
the field `rm` of the context of the operation, and the in-memory inodes with a
reference to them.  A node of the list whose count is zero is never found again,
so it is left out.
-/
structure FsState where
 blocks : Blocks
 held : List Nat
 header : List Nat
 rm : Nat
 inodes : Nat -> Option Inode

/--
Why a call does not return: it waits for a block that the thread holds itself or, in
`cache_begin_op`, for room in the log; the operation has no entry left in `cache_sync`;
`cache_alloc` finds no block; or another panic or assertion.
-/
inductive Stop where
 | held
 | logWait
 | logFull
 | noBlock
 | failed
deriving DecidableEq

abbrev FsProgram := Program FsState Stop

/-!
# The block cache
-/

def cacheAcquire (no : Nat) : FsProgram Unit := do
 require .held (fun s => no ∉ s.held)
 change (fun s => { s with held := no :: s.held })

def cacheRelease (no : Nat) : FsProgram Unit := change (fun s => { s with held := s.held.erase no })

def blockData (no : Nat) : FsProgram BlockData := read (fun s => s.blocks no)

def writeData (no : Nat) (data : BlockData) : FsProgram Unit :=
 change (fun s => { s with blocks := Function.update s.blocks no data })

/--
`cache_sync`.  With a context the block goes to the log; without one it goes to
the device, which does not change what the cache shows.
-/
def cacheSync (ctx : Bool) (no : Nat) : FsProgram Unit := do
 if ctx then
  let header <- read (fun s => s.header)
  if no ∈ header then
   pure ()
  else
   require .logFull (fun s => 0 < s.rm)
   change (fun s =>
    { s with header := s.header ++ [no], rm := s.rm - 1 })
 else
  pure ()

def storeBlock (ctx : Bool) (no : Nat) (data : BlockData) : FsProgram Unit := do
 writeData no data
 cacheSync ctx no
 cacheRelease no

variable (sb : SuperBlock)

/-- The part of `cache_alloc` after bit `i` of the block is found clear. -/
def takeBlock (ctx : Bool) (index i : Nat) : FsProgram Nat := do
 let bitmap <- blockData (sb.bitmapBlock index)
 storeBlock ctx (sb.bitmapBlock index) (Common.bitmapSet bitmap i)
 cacheAcquire (index + i)
 storeBlock ctx (index + i) zeroBlock
 pure (index + i)

def firstClear (bitmap : BlockData) (bound : Nat) : Option Nat :=
 (List.range bound).find? (fun i => !Common.bitmapGet bitmap i)

/-- The loop of `cache_alloc` over the bitmap blocks, from `index` on. -/
def allocLoop (sb : SuperBlock) (ctx : Bool) : List Nat -> FsProgram Nat
 | [] => stop .noBlock
 | index :: rest => do
  cacheAcquire (sb.bitmapBlock index)
  let bitmap <- blockData (sb.bitmapBlock index)
  match firstClear bitmap (min bitPerBlock (sb.dataLimit - index)) with
  | some i => takeBlock sb ctx index i
  | none =>
   cacheRelease (sb.bitmapBlock index)
   allocLoop sb ctx rest

/-- `0, BIT_PER_BLOCK, ...` below `num_blocks - SWAP_SIZE`. -/
def SuperBlock.bitmapIndices : List Nat :=
 (List.range ((sb.dataLimit + (bitPerBlock - 1)) / bitPerBlock)).map (· * bitPerBlock)

def cacheAlloc (ctx : Bool) : FsProgram Nat := allocLoop sb ctx sb.bitmapIndices

def cacheFree (ctx : Bool) (no : Nat) : FsProgram Unit := do
 cacheAcquire (sb.bitmapBlock no)
 let bitmap <- blockData (sb.bitmapBlock no)
 if Common.bitmapGet bitmap (no % bitPerBlock) = false then
  stop .failed
 else
  storeBlock ctx (sb.bitmapBlock no) (Common.bitmapClear bitmap (no % bitPerBlock))

/-!
# Inodes
-/

def inodeAllocLoop (sb : SuperBlock) (ctx : Bool) (type : InodeType) : List Nat -> FsProgram Nat
 | [] => stop .failed
 | i :: rest => do
  cacheAcquire (sb.toBlockNo i)
  let data <- blockData (sb.toBlockNo i)
  if (getEntry data i).type = inodeInvalid then
   storeBlock ctx (sb.toBlockNo i) (putEntry data i (InodeEntry.fresh type))
   pure i
  else
   cacheRelease (sb.toBlockNo i)
   inodeAllocLoop sb ctx type rest

def inodeAlloc (ctx : Bool) (type : InodeType) : FsProgram Nat := do
 require .failed (fun _ => type ≠ inodeInvalid)
 inodeAllocLoop sb ctx type (List.range' 1 (sb.numInodes.toNat - 1))

def inodeSync (ctx : Bool) (inode : Inode) (doWrite : Bool) : FsProgram Inode := do
 cacheAcquire (sb.toBlockNo inode.inodeNo)
 let data <- blockData (sb.toBlockNo inode.inodeNo)
 if inode.valid && doWrite then
  storeBlock ctx (sb.toBlockNo inode.inodeNo) (putEntry data inode.inodeNo inode.entry)
  pure inode
 else if inode.valid = false then
  cacheRelease (sb.toBlockNo inode.inodeNo)
  pure { inode with valid := true, entry := getEntry data inode.inodeNo }
 else
  cacheRelease (sb.toBlockNo inode.inodeNo)
  pure inode

def setInode (i : Nat) (inode : Option Inode) : FsProgram Unit :=
 change (fun s => { s with inodes := Function.update s.inodes i inode })

/-- `inode_get`, with the reference kept in the table of in-memory inodes. -/
def inodeGet (i : Nat) : FsProgram Unit := do
 require .failed (fun _ => 0 < i ∧ i < sb.numInodes.toNat)
 let inodes <- read (fun s => s.inodes)
 match inodes i with
 | some inode => setInode i (some { inode with rc := inode.rc + 1 })
 | none =>
  let loaded <- inodeSync sb false
   { inodeNo := i, rc := 1, valid := false,
     entry := InodeEntry.fresh inodeInvalid } false
  setInode i (some loaded)

def freeAddr (ctx : Bool) (addr : UInt32) : FsProgram Unit :=
 if addr ≠ 0 then cacheFree sb ctx addr.toNat else pure ()

def clearIndirect (ctx : Bool) (indirect : UInt32) : FsProgram Unit := do
 if indirect ≠ 0 then
  cacheAcquire indirect.toNat
  forEach (fun k => do
   let data <- blockData indirect.toNat
   freeAddr sb ctx (getAddr data k))
   (List.range inodeNumIndirect)
  cacheRelease indirect.toNat
  cacheFree sb ctx indirect.toNat
 else
  pure ()

def inodeClear (ctx : Bool) (inode : Inode) : FsProgram Inode := do
 forEach (fun k => freeAddr sb ctx (inode.entry.addrs k)) (List.finRange inodeNumDirect)
 clearIndirect sb ctx inode.entry.indirect
 inodeSync sb ctx
  { inode with entry := { inode.entry with
    addrs := fun _ => 0
    indirect := 0
    numBytes := 0 } }
  true

def inodePut (ctx : Bool) (i : Nat) (inode : Inode) : FsProgram Unit := do
 if inode.rc = 1 ∧ inode.entry.numLinks = 0 ∧ inode.valid = true then
  let cleared <- inodeClear sb ctx inode
  let _ <- inodeSync sb ctx
   { cleared with entry := { cleared.entry with type := inodeInvalid } } true
  setInode i none
 else if inode.rc = 1 then
  setInode i none
 else
  setInode i (some { inode with rc := inode.rc - 1 })

/-!
# Contents
-/

structure MapResult where
 bno : Nat
 modified : Bool
 entry : InodeEntry

/-- The part of `inode_map` that finds or allocates the indirect block. -/
def mapTable (ctx : Bool) (e : InodeEntry) : FsProgram MapResult := do
 if e.indirect = 0 then
  let bno <- cacheAlloc sb ctx
  pure { bno := bno, modified := true, entry := e.setTable bno }
 else
  pure { bno := e.indirect.toNat, modified := false, entry := e }

/-- The part of `inode_map` that finds or allocates the block in the indirect block. -/
def mapSlot (ctx : Bool) (offset : Nat) (table : MapResult) : FsProgram MapResult := do
 cacheAcquire table.bno
 let data <- blockData table.bno
 if getAddr data offset = 0 then
  let bno <- cacheAlloc sb ctx
  let data <- blockData table.bno
  storeBlock ctx table.bno (setAddr data offset (UInt32.ofNat bno))
  pure { bno := bno, modified := true, entry := table.entry }
 else
  cacheRelease table.bno
  pure { table with bno := (getAddr data offset).toNat }

def inodeMap (ctx : Bool) (e : InodeEntry) (offset : Nat) : FsProgram MapResult := do
 if h : offset < inodeNumDirect then
  if e.addrs ⟨offset, h⟩ = 0 then
   let bno <- cacheAlloc sb ctx
   pure { bno := bno, modified := true, entry := e.setDirect ⟨offset, h⟩ bno }
  else
   pure { bno := (e.addrs ⟨offset, h⟩).toNat, modified := false, entry := e }
 else if offset - inodeNumDirect < inodeNumIndirect then
  let table <- mapTable sb ctx e
  mapSlot sb ctx (offset - inodeNumDirect) table
 else
  stop .failed

def chunkSize (offset left : Nat) : Nat :=
 if left < blockSize - offset % blockSize then left
 else blockSize - offset % blockSize

/-- The loop of `inode_write`; every round copies a byte, so the fuel suffices. -/
def writeLoop (sb : SuperBlock) (ctx : Bool) (src : Nat -> UInt8) (count : Nat) :
  Nat -> InodeEntry -> Nat -> Nat -> Bool -> FsProgram (Bool × InodeEntry)
 | 0, e, _, haveWrite, modified => if haveWrite < count then stop .failed else pure (modified, e)
 | fuel + 1, e, offset, haveWrite, modified =>
  if haveWrite < count then do
   let mapped <- inodeMap sb ctx e (offset / blockSize)
   cacheAcquire mapped.bno
   let sz := chunkSize offset (count - haveWrite)
   let data <- blockData mapped.bno
   storeBlock ctx mapped.bno
    (Bytes.splice data (offset % blockSize) sz (fun x => src (haveWrite + x)))
   writeLoop sb ctx src count fuel mapped.entry (offset + sz) (haveWrite + sz)
    (mapped.modified || modified)
  else
   pure (modified, e)

/-- `inode_write`; a device inode is handed to the console and left out here. -/
def inodeWrite (ctx : Bool) (inode : Inode) (src : Nat -> UInt8)
  (offset count : UInt64) : FsProgram (UInt64 × Inode) := do
 let stop := offset + count
 require .failed (fun _ => inode.entry.type ≠ inodeDevice)
 require .failed (fun _ => offset.toNat ≤ inode.entry.numBytes.toNat)
 require .failed (fun _ => stop.toNat ≤ inodeMaxBytes)
 require .failed (fun _ => offset ≤ stop)
 let written <- writeLoop sb ctx src count.toNat count.toNat inode.entry offset.toNat 0 false
 if written.1 || decide (written.2.numBytes.toNat < stop.toNat) then
  let synced <- inodeSync sb ctx
   { inode with entry := { written.2 with
     numBytes := UInt32.ofNat stop.toNat } }
   true
  pure (count, synced)
 else
  pure (count, { inode with entry := written.2 })

def copyOut (data : BlockData) (start sz : Nat) : List UInt8 :=
 (List.range sz).map (fun x => Bytes.byteAt data (start + x))

/-- The loop of `inode_read`, with what it has copied so far. -/
def readLoop (sb : SuperBlock) (count : Nat) : Nat -> InodeEntry -> Nat -> List UInt8 -> Bool ->
    FsProgram (List UInt8 × Bool × InodeEntry)
 | 0, e, _, dest, modified => if dest.length < count then stop .failed else pure (dest, modified, e)
 | fuel + 1, e, offset, dest, modified =>
  if dest.length < count then do
   let mapped <- inodeMap sb false e (offset / blockSize)
   cacheAcquire mapped.bno
   let sz := chunkSize offset (count - dest.length)
   let data <- blockData mapped.bno
   cacheRelease mapped.bno
   readLoop sb count fuel mapped.entry (offset + sz)
    (dest ++ copyOut data (offset % blockSize) sz) mapped.modified
  else
   pure (dest, modified, e)

def readCount (numBytes : UInt32) (offset count : UInt64) : UInt64 :=
 if count + offset > numBytes.toUInt64 then numBytes.toUInt64 - offset else count

/-- `inode_read`, which returns the count and the bytes copied to `dest`. -/
def inodeRead (inode : Inode) (offset count : UInt64) :
  FsProgram (UInt64 × List UInt8 × Inode) := do
 require .failed (fun _ => inode.entry.type ≠ inodeDevice)
 let count := readCount inode.entry.numBytes offset count
 let stop := offset + count
 require .failed (fun _ => offset ≤ inode.entry.numBytes.toUInt64)
 require .failed (fun _ => stop ≤ inode.entry.numBytes.toUInt64)
 require .failed (fun _ => offset ≤ stop)
 let done <- readLoop sb count.toNat count.toNat inode.entry offset.toNat [] false
 require .failed (fun _ => done.2.1 = false)
 pure (count, done.1, { inode with entry := done.2.2 })

/-!
# The system

Calls of one thread, each on an inode that it has a reference to.
-/

inductive InodeLabel where
 | beginOp
 | endOp
 | alloc (type : InodeType)
 | get (i : Nat)
 | write (i : Nat) (src : Nat -> UInt8) (offset count : UInt64)
 | read (i : Nat) (offset count : UInt64)
 | clear (i : Nat)
 | put (i : Nat)

namespace FsState

/-- `cache_begin_op`, which waits for ever if nobody commits the log. -/
def beginOp (sb : SuperBlock) : FsProgram Unit := do
 require .logWait (fun s => s.header.length + opMaxNumBlocks ≤ sb.maxLogSize)
 change (fun s => { s with rm := opMaxNumBlocks })

def endOp : FsProgram Unit := change (fun s => { s with header := [], rm := 0 })

def onInode (i : Nat) (call : Inode -> FsProgram Inode) : FsProgram Unit := do
 let inodes <- read (fun s => s.inodes)
 match inodes i with
 | none => stop .failed
 | some inode =>
  let next <- call inode
  setInode i (some next)

def call (sb : SuperBlock) : InodeLabel -> FsProgram Unit
 | .beginOp => beginOp sb
 | .endOp => endOp
 | .alloc type => do
  let _ <- inodeAlloc sb true type
  pure ()
 | .get i => inodeGet sb i
 | .write i src offset count =>
  onInode i (fun inode => do
   let result <- inodeWrite sb true inode src offset count
   pure result.2)
 | .read i offset count =>
  onInode i (fun inode => do
   let result <- inodeRead sb inode offset count
   pure result.2.2)
 | .clear i => onInode i (inodeClear sb true)
 | .put i => do
  let inodes <- read (fun s => s.inodes)
  match inodes i with
  | none => stop .failed
  | some inode => inodePut sb true i inode

def step (sb : SuperBlock) (s : FsState) (l : InodeLabel) : Option FsState :=
 (call sb l s).toOption.map Prod.snd

theorem step_eq_some {sb : SuperBlock} {s next : FsState} {l : InodeLabel}
  (h : step sb s l = some next) : exists x, call sb l s = .ok (x, next) := by
 unfold step at h
 cases hrun : call sb l s with
 | error why =>
  rw [hrun] at h
  cases h
 | ok result =>
  rw [hrun] at h
  cases h
  exact ⟨result.1, rfl⟩

end OSLab.Fs.FsState
