import Mathlib.Data.Finset.Card
import Mathlib.Data.Finset.Range

/-!
# Maps of pids

`kernel/pidmap.h`.  The bitmap is given by its bits, and the mask `size - 1` is written
as a remainder, since sizes are powers of two.
-/

namespace OSLab.Kernel
open Function Finset

structure PidMap where
 base : Int
 size : Nat
 nrFree : Nat
 page : Nat -> Bool

def pidMaxDefault : Nat := 32768

def localPidMaxDefault : Nat := 256

namespace PidMap
variable (m : PidMap)

def offset (pid : Int) : Nat := (pid % m.size).toNat

def nextZero (page : Nat -> Bool) : Nat -> Nat -> Nat
 | 0, offset => offset
 | rounds + 1, offset => if page offset then nextZero page rounds (offset + 1) else offset

variable (page : Nat -> Bool)

def findNextZeroBit (size offset : Nat) : Nat :=
 nextZero page (size - offset) offset

def getNextPid : Int × PidMap :=
 if m.nrFree = 0 then
  (-1, m)
 else
  let first := findNextZeroBit m.page m.size (m.offset (m.base + 1))
  let found := if first = m.size then findNextZeroBit m.page (m.size - 1) 0 else first
  if found ≠ m.size ∧ m.page found = false then
   (found, { m with
    nrFree := m.nrFree - 1
    base := found
    page := update m.page found true })
  else
   (-1, m)

def freePid (pid : Int) : Option PidMap :=
 if pid < m.size then
  some { m with
   nrFree := m.nrFree + 1
   page := update m.page (m.offset pid) false }
 else
  none

/-- `init_pidmap` clears the first eight bytes of the bitmap; the rest is as it was. -/
def init (size : Nat) (former : Nat -> Bool) : PidMap where
 base := 0
 size := size
 nrFree := size
 page := fun k => if k < 64 then false else former k

/-!
# The search
-/

theorem nextZero_spec (rounds start : Nat) :
  start ≤ nextZero page rounds start ∧ nextZero page rounds start ≤ start + rounds ∧
    (nextZero page rounds start < start + rounds -> page (nextZero page rounds start) = false) ∧
    forall k, start ≤ k -> k < nextZero page rounds start -> page k := by
 induction rounds generalizing start with
 | zero =>
  refine ⟨Nat.le_refl _, Nat.le_refl _, fun h => absurd h (Nat.lt_irrefl _), ?_⟩
  intro k hle hlt
  exact absurd hlt (Nat.not_lt_of_le hle)
 | succ rounds ih =>
  unfold nextZero
  split
  · rename_i hset
    rcases ih (start + 1) with ⟨hlow, hhigh, hclear, hbefore⟩
    refine ⟨by omega, by omega, fun h => hclear (by omega), ?_⟩
    intro k hle hlt
    rcases Nat.eq_or_lt_of_le hle with rfl | hgt
    · exact hset
    · exact hbefore k hgt hlt
  rename_i hclear
  refine ⟨Nat.le_refl _, Nat.le_add_right _ _, fun _ => Bool.eq_false_iff.mpr hclear, ?_⟩
  intro k hle hlt
  exact absurd hlt (Nat.not_lt_of_le hle)

theorem offset_lt {m : PidMap} (hsize : 0 < m.size) (pid : Int) : m.offset pid < m.size := by
 unfold offset
 have hhigh := Int.emod_lt_of_pos pid (b := m.size) (by omega)
 omega

def clear : Finset Nat := (range m.size).filter (fun k => m.page k = false)

def Counted : Prop := m.nrFree = m.clear.card

/-- A pid is left in the map. -/
def HasRoom : Prop := m.nrFree ≠ 0 ∧ exists k, k < m.size ∧ m.page k = false

instance : Decidable m.HasRoom := inferInstanceAs (Decidable (_ ∧ _))

variable {m : PidMap} {k : Nat}

theorem mem_clear : k ∈ m.clear ↔ k < m.size ∧ m.page k = false := by
 unfold clear
 rw [mem_filter, mem_range]

def take (m : PidMap) (k : Nat) : PidMap :=
 { m with nrFree := m.nrFree - 1, base := k, page := update m.page k true }

/-- The position at which the two scans of `get_next_pid` end. -/
def search (m : PidMap) : Nat :=
 let first := findNextZeroBit m.page m.size (m.offset (m.base + 1))
 if first = m.size then findNextZeroBit m.page (m.size - 1) 0 else first

def ahead (m : PidMap) (k : Nat) : Nat := m.offset (k - (m.base + 1))

def First (m : PidMap) (k : Nat) : Prop :=
 k ∈ m.clear ∧ forall j, j ∈ m.clear -> m.ahead k ≤ m.ahead j

theorem findNextZeroBit_spec {size start : Nat} (hstart : start ≤ size) :
  findNextZeroBit page size start ≤ size ∧ start ≤ findNextZeroBit page size start ∧
    (findNextZeroBit page size start < size -> page (findNextZeroBit page size start) = false) ∧
    forall k, start ≤ k -> page k = false -> findNextZeroBit page size start ≤ k ∨ size ≤ k := by
 rcases nextZero_spec page (size - start) start with ⟨hlow, hhigh, hclear, hbefore⟩
 rw [Nat.add_sub_of_le hstart] at hhigh hclear
 refine ⟨hhigh, hlow, hclear, ?_⟩
 intro k hk hpage
 left
 by_contra hlt
 rw [hbefore k hk (Nat.lt_of_not_le hlt)] at hpage
 cases hpage

theorem search_le (hsize : 0 < m.size) : m.search ≤ m.size := by
 unfold search
 dsimp only
 split
 · have hend := (findNextZeroBit_spec m.page (Nat.zero_le (m.size - 1))).left
   omega
 · exact (findNextZeroBit_spec _ (Nat.le_of_lt (offset_lt hsize _))).left

theorem ahead_eq (hsize : 0 < m.size) (hk : k < m.size) :
  m.ahead k = if m.offset (m.base + 1) ≤ k then k - m.offset (m.base + 1)
    else k + m.size - m.offset (m.base + 1) := by
 have hstart := offset_lt hsize (m.base + 1)
 unfold ahead offset at *
 have hsplit := Int.mul_ediv_add_emod (m.base + 1) m.size
 have hlow := Int.emod_nonneg (m.base + 1) (b := m.size) (by omega)
 generalize (m.base + 1) % (m.size : Int) = start at *
 rw [← hsplit, Int.add_comm _ start, ← Int.sub_sub, Int.sub_mul_emod_self_left]
 split
 · rw [Int.emod_eq_of_lt (by omega) (by omega)]
   omega
 rw [← Int.add_emod_right, Int.emod_eq_of_lt (by omega) (by omega)]
 omega

theorem search_first (hsize : 0 < m.size) (hk : k ∈ m.clear) : m.First m.search := by
 have hstart := offset_lt hsize (m.base + 1)
 rcases mem_clear.mp hk with ⟨hlt, hclear⟩
 rcases findNextZeroBit_spec m.page (Nat.le_of_lt hstart) with ⟨hhigh, hlow, hzero, hfirst⟩
 unfold search First
 dsimp only
 generalize findNextZeroBit m.page m.size (m.offset (m.base + 1)) = first at *
 by_cases hend : first = m.size
 · rcases findNextZeroBit_spec m.page (Nat.zero_le (m.size - 1)) with ⟨hhigh', _, hzero', hsecond⟩
   rw [if_pos hend]
   generalize findNextZeroBit m.page (m.size - 1) 0 = second at *
   have hbelow : forall j, j ∈ m.clear -> j < m.offset (m.base + 1) ∧ second ≤ j := by
    intro j hj
    rcases mem_clear.mp hj with ⟨hj, hjclear⟩
    have hbefore : j < m.offset (m.base + 1) := by
     by_contra hge
     rcases hfirst j (Nat.le_of_not_lt hge) hjclear with hle | hle <;> omega
    refine ⟨hbefore, ?_⟩
    rcases hsecond j (Nat.zero_le j) hjclear with hle | hle <;> omega
   have hfound := hbelow k hk
   have hmem : second ∈ m.clear := mem_clear.mpr ⟨by omega, hzero' (by omega)⟩
   refine ⟨hmem, ?_⟩
   intro j hj
   have hj' := hbelow j hj
   rw [ahead_eq hsize (by omega), ahead_eq hsize (by omega), if_neg (by omega), if_neg (by omega)]
   omega
 rw [if_neg hend]
 have hmem : first ∈ m.clear := mem_clear.mpr ⟨by omega, hzero (by omega)⟩
 refine ⟨hmem, ?_⟩
 intro j hj
 rcases mem_clear.mp hj with ⟨hj, hjclear⟩
 rw [ahead_eq hsize (by omega), ahead_eq hsize hj, if_pos hlow]
 split
 · rename_i hge
   rcases hfirst j hge hjclear with hle | hle <;> omega
 · omega

theorem getNextPid_eq (hfree : m.nrFree ≠ 0) :
  m.getNextPid = if m.search ≠ m.size ∧ m.page m.search = false then
    ((m.search : Int), m.take m.search) else (-1, m) := by
 unfold getNextPid
 rw [if_neg hfree]
 rfl

theorem getNextPid_cases (hsize : 0 < m.size) : m.getNextPid = (-1, m) ∨
    exists k, k < m.size ∧ m.page k = false ∧ m.getNextPid = ((k : Int), m.take k) := by
 by_cases hfree : m.nrFree = 0
 · left
   unfold getNextPid
   rw [if_pos hfree]
 rw [getNextPid_eq hfree]
 split
 · rename_i hcond
   exact .inr ⟨m.search, Nat.lt_of_le_of_ne (search_le hsize) hcond.left, hcond.right, rfl⟩
 · exact .inl rfl

theorem getNextPid_of_room (hsize : 0 < m.size) (hroom : m.HasRoom) :
  m.First m.search ∧ m.getNextPid = ((m.search : Int), m.take m.search) := by
 rcases hroom with ⟨hfree, k, hk⟩
 have hfirst := search_first hsize (mem_clear.mpr hk)
 rcases mem_clear.mp hfirst.left with ⟨hlt, hclear⟩
 refine ⟨hfirst, ?_⟩
 rw [getNextPid_eq hfree, if_pos ⟨Nat.ne_of_lt hlt, hclear⟩]

variable (hsize : 0 < m.size) (hcounted : m.Counted)
include hsize hcounted

theorem getNextPid_first (hk : k ∈ m.clear) :
  m.First m.search ∧ m.getNextPid = ((m.search : Int), m.take m.search) := by
 have hfree : m.nrFree ≠ 0 := by
  rw [hcounted]
  exact card_ne_zero_of_mem hk
 exact getNextPid_of_room hsize ⟨hfree, k, mem_clear.mp hk⟩

theorem getNextPid_of_free (hfree : 0 < m.nrFree) :
  exists k, k < m.size ∧ m.page k = false ∧ m.getNextPid = ((k : Int), m.take k) := by
 have hexists : exists k, k ∈ m.clear := by
  apply card_pos.mp
  rw [← hcounted]
  exact hfree
 rcases hexists with ⟨k, hk⟩
 rcases getNextPid_first hsize hcounted hk with ⟨hfirst, hnext⟩
 rcases mem_clear.mp hfirst.left with ⟨hlt, hclear⟩
 exact ⟨m.search, hlt, hclear, hnext⟩

omit hsize hcounted

theorem take_clear (k : Nat) : (m.take k).clear = m.clear.erase k := by
 apply ext
 intro j
 rw [mem_erase, mem_clear, mem_clear]
 change j < m.size ∧ update m.page k true j = false ↔ _
 by_cases hj : j = k
 · rw [hj, update_self]
   constructor
   · rintro ⟨_, hfalse⟩
     cases hfalse
   · rintro ⟨hne, _⟩
     exact absurd rfl hne
 · rw [update_of_ne hj, and_iff_right hj]

theorem take_counted (hcounted : m.Counted) (hk : k < m.size)
  (hclear : m.page k = false) : (m.take k).Counted := by
 unfold Counted
 rw [take_clear, card_erase_of_mem (mem_clear.mpr ⟨hk, hclear⟩), ← hcounted]
 rfl

theorem freePid_eq (hk : k < m.size) : m.freePid k = some { m with
 nrFree := m.nrFree + 1, page := update m.page k false } := by
 have hoffset : m.offset k = k := by
  unfold offset
  rw [Int.emod_eq_of_lt (by omega) (by omega)]
  rfl
 unfold freePid
 rw [if_pos (by omega), hoffset]

theorem free_counted (hcounted : m.Counted) (hk : k < m.size) (hset : m.page k) :
  Counted { m with nrFree := m.nrFree + 1, page := update m.page k false } := by
 have hout : k ∉ m.clear := by
  rw [mem_clear, hset]
  rintro ⟨_, hfalse⟩
  cases hfalse
 have heq : clear { m with nrFree := m.nrFree + 1, page := update m.page k false } =
  insert k m.clear := by
  apply ext
  intro j
  rw [mem_insert, mem_clear, mem_clear]
  change j < m.size ∧ update m.page k false j = false ↔ _
  by_cases hj : j = k
  · rw [hj, update_self]
    exact ⟨fun _ => .inl rfl, fun _ => ⟨hk, rfl⟩⟩
  · rw [update_of_ne hj, or_iff_right hj]
 unfold Counted
 rw [heq, card_insert_of_notMem hout, ← hcounted]

end OSLab.Kernel.PidMap
