import OSLab.Common.Semaphore

/-!
# Semaphores as the code has them

The functions of `common/sem.c` on a counter of type `int` and a list, without any
promise that the two agree.  An assertion that fails has no result.

As long as the counter does not overflow, the functions keep the agreement, and
they then do what their counterparts on `Semaphore` do.
-/

namespace OSLab.Common

def wrapInt (x : Int) : Int := x.bmod 4294967296

def intMax : Int := 2147483647

def intMin : Int := -2147483648

theorem wrapInt_of_fits {x : Int} (hlow : intMin ≤ x) (hhigh : x ≤ intMax) : wrapInt x = x := by
 unfold intMin at hlow
 unfold intMax at hhigh
 apply Int.bmod_eq_of_le
 · omega
 · omega

structure RawSemaphore (thread : Type) where
 val : Int
 sleeplist : List thread
deriving DecidableEq

namespace RawSemaphore
variable {thread : Type}

def initSem (val : Int) : RawSemaphore thread where
 val := val
 sleeplist := []

def getSem (sem : RawSemaphore thread) : Bool × RawSemaphore thread :=
 if 0 < sem.val then
  (true, { sem with val := wrapInt (sem.val - 1) })
 else
  (false, sem)

def getAllSem (sem : RawSemaphore thread) : Int × RawSemaphore thread :=
 if 0 < sem.val then
  (sem.val, { sem with val := 0 })
 else
  (0, sem)

/-- The part of `_wait_sem` before the call of `sched`. -/
def waitSem (t : thread) (sem : RawSemaphore thread) : Bool × RawSemaphore thread :=
 if 0 ≤ wrapInt (sem.val - 1) then
  (true, { sem with val := wrapInt (sem.val - 1) })
 else
  (false, { val := wrapInt (sem.val - 1), sleeplist := t :: sem.sleeplist })

/-- The part of `_wait_sem` after a sleep that no post has ended, with its assertion. -/
def cancelWait [DecidableEq thread] (t : thread) (sem : RawSemaphore thread) :
  Option (RawSemaphore thread) :=
 if wrapInt (sem.val + 1) ≤ 0 then
  some { val := wrapInt (sem.val + 1), sleeplist := sem.sleeplist.erase t }
 else
  none

/-- `_post_sem`, with its assertion; the result names the waiter that is woken. -/
def postSem (sem : RawSemaphore thread) : Option (Option thread × RawSemaphore thread) :=
 if wrapInt (sem.val + 1) ≤ 0 then
  match sem.sleeplist.getLast? with
  | none => none
  | some t => some (some t, { val := wrapInt (sem.val + 1), sleeplist := sem.sleeplist.dropLast })
 else
  some (none, { sem with val := wrapInt (sem.val + 1) })

/-- The loop of `post_all_sem`, with the waiters that it has woken so far. -/
def postAllLoop : Nat -> Int -> List thread -> RawSemaphore thread ->
  Option (Int × List thread × RawSemaphore thread)
 | 0, _, _, _ => none
 | fuel + 1, ret, woken, sem =>
  match postSem sem with
  | none => none
  | some (t, posted) =>
   if (getSem posted).1 then
    some (wrapInt (ret + 1), woken ++ t.toList, (getSem posted).2)
   else
    postAllLoop fuel (wrapInt (ret + 1)) (woken ++ t.toList) (getSem posted).2

/-- `post_all_sem`; a round for every sleeper and one more suffice. -/
def postAllSem (sem : RawSemaphore thread) : Option (Int × List thread × RawSemaphore thread) :=
 postAllLoop (sem.sleeplist.length + 1) (-1) [] sem

def Balanced (sem : RawSemaphore thread) : Prop := sem.sleeplist.length = (-sem.val).toNat

/-!
# The list
-/

variable {sem next : RawSemaphore thread} {t : thread}

theorem waitSem_true (h : (sem.waitSem t).1) : (sem.waitSem t).2.sleeplist = sem.sleeplist := by
 unfold waitSem at h ⊢
 split at h
 · rename_i hpos
   rw [if_pos hpos]
 · cases h

theorem waitSem_false (h : (sem.waitSem t).1 = false) : (sem.waitSem t).2 =
    { val := wrapInt (sem.val - 1), sleeplist := t :: sem.sleeplist } := by
 unfold waitSem at h ⊢
 split at h
 · cases h
 rename_i hpos
 rw [if_neg hpos]

theorem cancelWait_some [DecidableEq thread] (h : sem.cancelWait t = some next) :
  next.sleeplist = sem.sleeplist.erase t := by
 unfold cancelWait at h
 split at h
 · cases h
   rfl
 · cases h

theorem postSem_none (h : sem.postSem = some (none, next)) : next.sleeplist = sem.sleeplist := by
 unfold postSem at h
 split at h
 · cases hlast : sem.sleeplist.getLast? with
   | none | some t =>
    rw [hlast] at h
    cases h
 cases h
 rfl

theorem postSem_some (h : sem.postSem = some (some t, next)) :
  sem.sleeplist = next.sleeplist ++ [t] := by
 unfold postSem at h
 split at h
 · cases hlast : sem.sleeplist.getLast? with
   | none =>
    rw [hlast] at h
    cases h
   | some last =>
    rw [hlast] at h
    cases h
    rcases List.getLast?_eq_some_iff.mp hlast with ⟨rest, hrest⟩
    rw [hrest, List.dropLast_concat]
 · cases h

def toSemaphore (sem : RawSemaphore thread) (h : sem.Balanced) : Semaphore thread where
 val := sem.val
 sleeplist := sem.sleeplist
 balanced := h

end RawSemaphore

namespace Semaphore
variable {thread : Type}

def toRaw (sem : Semaphore thread) : RawSemaphore thread where
 val := sem.val
 sleeplist := sem.sleeplist

theorem toRaw_balanced (sem : Semaphore thread) : sem.toRaw.Balanced := sem.balanced

/-!
# Without overflow
-/

theorem raw_getSem (sem : Semaphore thread) (hhigh : sem.val ≤ intMax) :
  sem.toRaw.getSem = (sem.getSem.1, sem.getSem.2.toRaw) := by
 unfold RawSemaphore.getSem getSem
 by_cases hpos : 0 < sem.val
 · have hpos' : 0 < sem.toRaw.val := hpos
   have hfits : wrapInt (sem.val - 1) = sem.val - 1 := by
    apply wrapInt_of_fits
    · unfold intMin
      omega
    · omega
   rw [if_pos hpos', dif_pos hpos]
   change (true, { sem.toRaw with val := wrapInt (sem.val - 1) }) = _
   rw [hfits]
   rfl
 have hpos' : ¬ 0 < sem.toRaw.val := hpos
 rw [if_neg hpos', dif_neg hpos]

variable {sem : Semaphore thread}

theorem wrapInt_succ (hlow : intMin ≤ sem.val)
  (hhigh : sem.val < intMax) : wrapInt (sem.toRaw.val + 1) = sem.val + 1 := by
 apply wrapInt_of_fits
 · change intMin ≤ sem.val + 1
   omega
 change sem.val + 1 ≤ intMax
 omega

theorem raw_postSem (sem : Semaphore thread) (hlow : intMin ≤ sem.val) (hhigh : sem.val < intMax) :
  sem.toRaw.postSem = some (sem.postSem.1, sem.postSem.2.toRaw) := by
 unfold RawSemaphore.postSem postSem
 rw [wrapInt_succ hlow hhigh]
 by_cases hneg : sem.val + 1 ≤ 0
 · rw [if_pos hneg, dif_pos hneg]
   have hne : sem.sleeplist ≠ [] := by
    intro hnil
    have hbalanced := sem.balanced
    rw [hnil, List.length_nil] at hbalanced
    omega
   change (match sem.sleeplist.getLast? with
    | none => none
    | some t => _) = _
   rw [List.getLast?_eq_some_getLast hne]
   rfl
 rw [if_neg hneg, dif_neg hneg]
 rfl

theorem postSem_val (sem : Semaphore thread) : sem.postSem.2.val = sem.val + 1 := by
 unfold postSem
 split
 · rfl
 · rfl

theorem getSem_fst (sem : Semaphore thread) : sem.getSem.1 = decide (0 < sem.val) := by
 unfold getSem
 split
 · rename_i hpos
   rw [decide_eq_true hpos]
 rename_i hpos
 rw [decide_eq_false hpos]

theorem getSem_of_not_pos (h : ¬ 0 < sem.val) : sem.getSem = (false, sem) := dif_neg h

theorem raw_postAllLoop (rounds : Nat) (ret : Int) (woken : List thread)
  (sem : Semaphore thread) (hrounds : sem.sleeplist.length < rounds)
  (hret : -1 ≤ ret) (hcount : ret + 1 + sem.sleeplist.length ≤ intMax)
  (hlow : intMin ≤ sem.val) (hhigh : sem.val < intMax) :
  RawSemaphore.postAllLoop rounds ret woken sem.toRaw =
    some (ret + 1 + sem.sleeplist.length, woken ++ (postAllLoop rounds sem).1,
      (postAllLoop rounds sem).2.toRaw) := by
 induction rounds generalizing ret woken sem with
 | zero => omega
 | succ rounds ih =>
  have hbalanced := sem.balanced
  have hval := sem.postSem_val
  have hnext : wrapInt (ret + 1) = ret + 1 := by
   apply wrapInt_of_fits
   · unfold intMin
     omega
   · omega
  have hget := raw_getSem sem.postSem.2 (by omega)
  simp only [RawSemaphore.postAllLoop, postAllLoop, raw_postSem sem hlow hhigh, hget, hnext]
  by_cases hgot : 0 < sem.postSem.2.val
  · have htaken : sem.postSem.2.getSem.1 := by rw [getSem_fst, decide_eq_true hgot]
    have hnone : sem.sleeplist.length = 0 := by omega
    rw [if_pos htaken, if_pos htaken, hnone]
    simp
  have hsame := getSem_of_not_pos hgot
  have hlength : sem.postSem.2.sleeplist.length + 1 = sem.sleeplist.length := by
   have hbalanced' := sem.postSem.2.balanced
   omega
  rw [hsame]
  simp only [Bool.false_eq_true, if_false]
  rw [ih (ret + 1) _ sem.postSem.2 (by omega) (by omega) (by omega) (by omega) (by omega)]
  rw [← hlength, List.append_assoc]
  congr 2
  push_cast
  omega

theorem raw_postAllSem (sem : Semaphore thread) (hlow : intMin < sem.val)
  (hhigh : sem.val < intMax) :
  sem.toRaw.postAllSem = some ((sem.sleeplist.length : Int), sem.sleeplist.reverse,
      { val := max sem.val 0, sleeplist := [] }) := by
 have hbalanced := sem.balanced
 have hcount : (-1 : Int) + 1 + sem.sleeplist.length ≤ intMax := by
  unfold intMin at hlow
  unfold intMax at *
  omega
 have hloop := raw_postAllLoop (sem.sleeplist.length + 1) (-1) [] sem (Nat.lt_succ_self _)
  le_rfl hcount (Int.le_of_lt hlow) hhigh
 have hspec := postAllLoop_spec (sem.sleeplist.length + 1) sem (Nat.lt_succ_self _)
 change RawSemaphore.postAllLoop (sem.sleeplist.length + 1) (-1) [] sem.toRaw = _
 rw [hloop, hspec.left]
 congr 2
 · omega
 · unfold toRaw
   rw [hspec.right.left, hspec.right.right]
   rfl

end OSLab.Common.Semaphore
