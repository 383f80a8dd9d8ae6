import Mathlib.Tactic.Common
import Mathlib.Order.Lattice
import Mathlib.Data.Int.Order.Basic

/-!
# Counting semaphores

The semaphores of `common/sem.c`.  A semaphore is a counter together with the
list of the threads that sleep on it, newest first: `_insert_into_list` puts a
new sleeper behind the list head and `_post_sem` wakes the one in front of it.

The counter and the list always agree: a negative counter counts the sleepers.
The structure carries this fact, so the assertion of `_post_sem` that the list
is not empty cannot fail and `_post_sem` is a total function.
-/

namespace OSLab.Common
open List

abbrev Tid := Nat

structure Semaphore (thread : Type _) where
 val : Int
 sleeplist : List thread
 balanced : sleeplist.length = (-val).toNat

namespace Semaphore
variable {thread : Type _}

/-- `init_sem` for the values the kernel uses, which are not negative. -/
def initSem (val : Nat) : Semaphore thread where
 val := val
 sleeplist := []
 balanced := by simp

variable (sem : Semaphore thread)

/-- `_get_sem`: take a token if there is one, and report whether there was. -/
def getSem : Bool × Semaphore thread :=
 if hpos : 0 < sem.val then
  (true,
   { val := sem.val - 1
     sleeplist := sem.sleeplist
     balanced := by
      have hbalanced := sem.balanced
      omega })
 else
  (false, sem)

/--
The part of `_wait_sem` before the call of `sched`.  The result tells whether
the caller got a token at once; otherwise it is now asleep.
-/
def waitSem (t : thread) (sem : Semaphore thread) : Bool × Semaphore thread :=
 if hpos : 0 ≤ sem.val - 1 then
  (true,
   { val := sem.val - 1
     sleeplist := sem.sleeplist
     balanced := by
      have hbalanced := sem.balanced
      omega })
 else
  (false,
   { val := sem.val - 1
     sleeplist := t :: sem.sleeplist
     balanced := by
      have hbalanced := sem.balanced
      rw [length_cons]
      omega })

/-- `_post_sem`: the result names the thread that is woken, if any. -/
def postSem : Option thread × Semaphore thread :=
 if hneg : sem.val + 1 ≤ 0 then
  (sem.sleeplist.getLast?,
   { val := sem.val + 1
     sleeplist := sem.sleeplist.dropLast
     balanced := by
      have hbalanced := sem.balanced
      rw [length_dropLast]
      omega })
 else
  (none,
   { val := sem.val + 1
     sleeplist := sem.sleeplist
     balanced := by
      have hbalanced := sem.balanced
      omega })

/-- The part of `_wait_sem` after a sleep that no post has ended. -/
def cancelWait [DecidableEq thread] (t : thread) (sem : Semaphore thread) : Semaphore thread :=
 if hmem : t ∈ sem.sleeplist then
  { val := sem.val + 1
    sleeplist := sem.sleeplist.erase t
    balanced := by
     have hbalanced := sem.balanced
     have hlength := length_pos_of_mem hmem
     rw [length_erase_of_mem hmem]
     omega }
 else
  sem

/-- The loop of `post_all_sem`; one round more than there are sleepers ends it. -/
def postAllLoop : Nat -> Semaphore thread -> List thread × Semaphore thread
 | 0, sem => ([], sem)
 | rounds + 1, sem =>
  let posted := postSem sem
  let got := getSem posted.2
  if got.1 then
   (posted.1.toList, got.2)
  else
   let rest := postAllLoop rounds got.2
   (posted.1.toList ++ rest.1, rest.2)

/-- `post_all_sem`, with the threads it wakes in the order of the posts. -/
def postAllSem : List thread × Semaphore thread :=
 postAllLoop (sem.sleeplist.length + 1) sem

variable {sem : Semaphore thread}

theorem sleeplist_eq_nil_of_nonneg (h : 0 ≤ sem.val) : sem.sleeplist = [] := by
 apply eq_nil_of_length_eq_zero
 have hbalanced := sem.balanced
 omega

@[simp] theorem getSem_sleeplist :
  (getSem sem).2.sleeplist = sem.sleeplist := by
 unfold getSem
 split <;> rfl

theorem waitSem_sleeplist_mem {t u : thread} (h : u ∈ (waitSem t sem).2.sleeplist) :
  u ∈ sem.sleeplist ∨ (u = t ∧ (waitSem t sem).1 = false) := by
 unfold waitSem at h ⊢
 by_cases hpos : 0 ≤ sem.val - 1
 · rw [dif_pos hpos] at h
   exact .inl h
 rw [dif_neg hpos] at h ⊢
 rcases mem_cons.mp h with heq | hmem
 · exact .inr ⟨heq, rfl⟩
 · exact .inl hmem

theorem mem_of_mem_cancelWait [DecidableEq thread] {t u : thread}
  (h : u ∈ (cancelWait t sem).sleeplist) : u ∈ sem.sleeplist := by
 unfold cancelWait at h
 split at h
 · exact mem_of_mem_erase h
 · exact h

theorem postSem_of_nonneg (h : 0 ≤ sem.val) :
  sem.postSem.1 = none ∧ sem.postSem.2.sleeplist = sem.sleeplist ∧
    sem.postSem.2.val = sem.val + 1 := by
 unfold postSem
 rw [dif_neg (by omega : ¬ sem.val + 1 ≤ 0)]
 exact ⟨rfl, rfl, rfl⟩

theorem postSem_of_neg (h : sem.val < 0) :
  exists front last, sem.sleeplist = front ++ [last] ∧ sem.postSem.1 = some last ∧
    sem.postSem.2.sleeplist = front ∧ sem.postSem.2.val = sem.val + 1 := by
 have hbalanced := sem.balanced
 have hne : sem.sleeplist ≠ [] := by
  intro hnil
  rw [hnil, length_nil] at hbalanced
  omega
 refine ⟨_, _, (dropLast_concat_getLast hne).symm, ?_⟩
 unfold postSem
 rw [dif_pos (by omega : sem.val + 1 ≤ 0)]
 exact ⟨getLast?_eq_some_getLast hne, rfl, rfl⟩

/-!
# Posting to everybody

Each round of `post_all_sem` wakes the oldest sleeper, until none is left and
the last post only produces the token that `_get_sem` takes back.
-/

theorem getSem_postSem_of_neg (h : sem.val < 0) :
  getSem (postSem sem).2 = (false, (postSem sem).2) := by
 unfold getSem postSem
 rw [dif_pos (by omega : sem.val + 1 ≤ 0)]
 rw [dif_neg (by simp only; omega)]

theorem postAllLoop_spec (rounds : Nat) (sem : Semaphore thread)
  (h : sem.sleeplist.length < rounds) :
  (postAllLoop rounds sem).1 = sem.sleeplist.reverse ∧ (postAllLoop rounds sem).2.sleeplist = [] ∧
    (postAllLoop rounds sem).2.val = max sem.val 0 := by
 induction rounds generalizing sem with
 | zero => omega
 | succ rounds ih =>
  by_cases hneg : sem.val < 0
  · rcases postSem_of_neg hneg with ⟨front, last, hlist, hlast, hfront, hval⟩
    have hrec := ih (postSem sem).2 (by
     rw [hfront]
     rw [hlist, length_append, length_singleton] at h
     omega)
    have hunfold : postAllLoop (rounds + 1) sem = (last :: (postAllLoop rounds (postSem sem).2).1,
      (postAllLoop rounds (postSem sem).2).2) := by
     simp only [postAllLoop, getSem_postSem_of_neg hneg, hlast]
     simp
    rw [hunfold, hlist]
    refine ⟨?_, hrec.right.left, ?_⟩
    · simp [hrec.left, hfront]
    simp only [hrec.right.right, hval]
    omega
  have hnil : sem.sleeplist = [] := sleeplist_eq_nil_of_nonneg (by omega)
  have hround : postAllLoop (rounds + 1) sem = ([], (getSem (postSem sem).2).2) := by
   simp only [postAllLoop]
   unfold postSem getSem
   rw [dif_neg (by omega : ¬ sem.val + 1 ≤ 0)]
   rw [dif_pos (by simp only; omega)]
   simp
  have hval : (getSem (postSem sem).2).2.val = sem.val := by
   unfold postSem getSem
   rw [dif_neg (by omega : ¬ sem.val + 1 ≤ 0)]
   rw [dif_pos (by simp only; omega)]
   simp
  have hpost : (postSem sem).2.sleeplist = sem.sleeplist := by
   unfold postSem
   rw [dif_neg (by omega : ¬ sem.val + 1 ≤ 0)]
  rw [hround]
  refine ⟨by simp [hnil], by simp [hpost, hnil], ?_⟩
  rw [hval]
  omega

@[simp] theorem postAllSem_woken :
  (postAllSem sem).1 = sem.sleeplist.reverse :=
 (postAllLoop_spec _ sem (Nat.lt_succ_self _)).left

@[simp] theorem postAllSem_sleeplist :
  (postAllSem sem).2.sleeplist = [] :=
 (postAllLoop_spec _ sem (Nat.lt_succ_self _)).right.left

@[simp] theorem postAllSem_val :
  (postAllSem sem).2.val = max sem.val 0 :=
 (postAllLoop_spec _ sem (Nat.lt_succ_self _)).right.right

end OSLab.Common.Semaphore
