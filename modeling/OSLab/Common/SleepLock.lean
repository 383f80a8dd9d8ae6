import OSLab.Common.Semaphore
import OSLab.Foundation.Custody

/-!
# A semaphore as a lock

A semaphore with the value 1 at the start is a lock as long as only the thread that holds
it posts.  The threads that hold it or wait for it are a line, newest first, with the
holder at the end, and the value tells how long the line is.
-/

namespace OSLab.Common
open List Function Foundation

inductive LockPlace where
 | away
 | waits
 | holds
deriving DecidableEq

namespace Semaphore
variable {thread : Type} {sem : Semaphore thread} {line : List thread} {t u : thread}

structure Lines (sem : Semaphore thread) (line : List thread) : Prop where
 sleeplist : sem.sleeplist = line.dropLast
 val : sem.val = 1 - line.length

theorem Lines.lock (h : sem.Lines line) (t : thread) :
  (sem.waitSem t).2.Lines (t :: line) ∧ (sem.waitSem t).1 = line.isEmpty := by
 have hval := h.val
 have hlist := h.sleeplist
 unfold waitSem
 cases line with
 | nil =>
  rw [length_nil] at hval
  rw [dif_pos (by omega)]
  refine ⟨⟨hlist, ?_⟩, rfl⟩
  change sem.val - 1 = 1 - 1
  omega
 | cons u rest =>
  rw [length_cons] at hval
  rw [dif_neg (by omega)]
  refine ⟨⟨?_, ?_⟩, rfl⟩
  · rw [dropLast_cons_cons, ← hlist]
  · change sem.val - 1 = _
    rw [length_cons, length_cons]
    omega

theorem Lines.unlock (h : sem.Lines (line ++ [t])) :
  sem.postSem.2.Lines line ∧ sem.postSem.1 = line.getLast? := by
 have hval := h.val
 have hlist := h.sleeplist
 rw [length_append, length_singleton] at hval
 rw [dropLast_concat] at hlist
 by_cases hneg : sem.val < 0
 · rcases postSem_of_neg hneg with ⟨front, last, hsplit, hlast, hfront, hval'⟩
   rw [hlast, ← hlist, hsplit, getLast?_concat]
   refine ⟨⟨?_, ?_⟩, rfl⟩
   · rw [hfront, dropLast_concat]
   · rw [hval', ← hsplit, hlist]
     omega
 rcases postSem_of_nonneg (Int.not_lt.mp hneg) with ⟨hnone, hlist', hval'⟩
 have hempty : line = [] := length_eq_zero_iff.mp (by omega)
 rw [hempty] at hlist hval ⊢
 refine ⟨⟨hlist'.trans hlist, ?_⟩, hnone⟩
 rw [hval', hval]
 rfl

/-!
# Who is where
-/

structure Guards (sem : Semaphore thread) (line : List thread) (place : thread -> LockPlace) :
  Prop extends sem.Lines line where
 nodup : line.Nodup
 member : forall t, place t ≠ .away ↔ t ∈ line
 holds : forall t, place t = .holds ↔ line.getLast? = some t

variable {place : thread -> LockPlace}

theorem Guards.exclusive (h : sem.Guards line place) (ht : place t = .holds)
  (hu : place u = .holds) : t = u :=
 Option.some.inj (((h.holds t).mp ht).symm.trans ((h.holds u).mp hu))

section
variable [DecidableEq thread] (h : sem.Guards line place)
include h

/-- The value counts the threads that hold the lock or wait for it. -/
theorem Guards.counted : Exactly (fun t => place t ≠ .away) (1 - sem.val) := by
 refine ⟨line.toFinset, fun t => mem_toFinset.trans (h.member t).symm, ?_⟩
 rw [toFinset_card_of_nodup h.nodup, h.val]
 omega

theorem Guards.lock (ht : place t = .away) : (sem.waitSem t).2.Guards (t :: line)
    (update place t (if (sem.waitSem t).1 then .holds else .waits)) := by
 have hnot : t ∉ line := fun hmem => (h.member t).mpr hmem ht
 refine ⟨(h.toLines.lock t).left, nodup_cons.mpr ⟨hnot, h.nodup⟩, fun u => ?_, fun u => ?_⟩
 · by_cases hu : u = t
   · rw [hu, update_self]
     refine iff_of_true ?_ mem_cons_self
     split <;> nofun
   · rw [update_of_ne hu, h.member u, mem_cons, or_iff_right hu]
 rw [(h.toLines.lock t).right]
 by_cases hu : u = t
 · rw [hu, update_self]
   cases line with
   | nil => exact iff_of_true rfl rfl
   | cons v rest =>
    rw [getLast?_cons_cons]
    exact iff_of_false nofun fun hlast => hnot (mem_of_getLast? hlast)
 rw [update_of_ne hu, h.holds u]
 cases line with
 | nil => exact iff_of_false nofun fun heq => hu (Option.some.inj heq).symm
 | cons v rest => rw [getLast?_cons_cons]
end

section
variable (h : sem.Guards (line ++ [t]) place)
include h

theorem Guards.not_mem_line : t ∉ line := fun hmem =>
 (nodup_append.mp h.nodup).right.right t hmem t mem_cons_self rfl

/-- A thread that a post wakes has waited. -/
theorem Guards.waits_of_woken (hu : sem.postSem.1 = some u) : place u = .waits := by
 rw [h.toLines.unlock.right] at hu
 have hmem := mem_of_getLast? hu
 cases hplace : place u with
 | waits => rfl
 | away => exact absurd hplace ((h.member u).mpr (mem_append_left _ hmem))
 | holds =>
  have hlast := (h.holds u).mp hplace
  rw [getLast?_concat] at hlast
  cases hlast
  exact absurd hmem h.not_mem_line

theorem Guards.unlock [DecidableEq thread] : sem.postSem.2.Guards line
    (fun u => if sem.postSem.1 = some u then .holds else update place t .away u) := by
 refine ⟨h.toLines.unlock.left, (nodup_append.mp h.nodup).left, fun u => ?_, fun u => ?_⟩
 all_goals rw [h.toLines.unlock.right]
 all_goals by_cases hlast : line.getLast? = some u
 · rw [if_pos hlast]
   exact iff_of_true nofun (mem_of_getLast? hlast)
 · rw [if_neg hlast]
   by_cases hu : u = t
   · rw [hu, update_self]
     exact iff_of_false (fun hne => hne rfl) h.not_mem_line
   · rw [update_of_ne hu, h.member u, mem_append, mem_singleton, or_iff_left hu]
 · rw [if_pos hlast]
   exact iff_of_true rfl hlast
 · rw [if_neg hlast]
   refine iff_of_false (fun hholds => ?_) hlast
   rcases of_update hholds with ⟨_, hbad⟩ | ⟨hu, hholds⟩
   · cases hbad
   · rw [h.holds u, getLast?_concat] at hholds
     exact hu (Option.some.inj hholds).symm
end

end OSLab.Common.Semaphore
