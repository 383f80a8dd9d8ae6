import OSLab.Common.Ipc

/-!
# Removing a queue

`freeque` drains the receivers with `ss_wakeup`, so `expunge_all` finds none, and it does not
drain the senders.
-/

namespace OSLab.Common
open Function

def drain {α : Type} (treat : α -> Nat) : List α -> List α × List Nat
 | [] => ([], [])
 | node :: rest =>
  let drained := drain treat rest
  (drained.fst, treat node :: drained.snd)

theorem drain_eq {α : Type} (treat : α -> Nat) (nodes : List α) :
  drain treat nodes = ([], nodes.map treat) := by
 induction nodes with
 | nil => rfl
 | cons node rest ih =>
  unfold drain
  rw [ih]
  rfl

/-- The freed queue, the processes that go on, those with `r_msg = NULL`, and the freed messages. -/
structure Removal where
 ipc : Ipc
 queue : MsgQueue
 activated : List Nat
 nulled : List Nat
 freed : List Nat

namespace Ipc

def ssWakeup : List Receiver -> List Receiver × List Nat := drain Receiver.proc

def expungeAll : List Receiver -> List Receiver × List Nat := drain Receiver.proc

def freeque (s : Ipc) (id : Nat) (q : MsgQueue) : Removal :=
 let woken := ssWakeup q.receiver
 let expunged := expungeAll woken.fst
 let emptied := drain Parcel.serial q.message
 { ipc := { s with queues := update s.queues id none }
   queue := { q with message := emptied.fst, receiver := expunged.fst }
   activated := woken.snd ++ expunged.snd
   nulled := expunged.snd
   freed := emptied.snd }

end Ipc

structure Removal.Releases (r : Removal) (id : Nat) (q : MsgQueue) : Prop where
 senders : forall t, t ∈ q.sender -> t ∈ r.activated
 receivers : forall x, x ∈ q.receiver -> x.proc ∈ r.activated ∧ x.proc ∈ r.nulled
 retries : forall t p nowait, r.ipc.caller t = .sending id p nowait ->
  r.ipc.sendTry t = some (some Msg.eIdrm, r.ipc.reject t p)
 messages : r.freed = q.message.map Parcel.serial
 unlinked : r.queue.message = [] ∧ r.queue.sender = [] ∧ r.queue.receiver = []

theorem freeque_releases_iff (s : Ipc) (id : Nat) (q : MsgQueue) :
  (s.freeque id q).Releases id q ↔ q.sender = [] ∧ q.receiver = [] := by
 constructor
 · intro h
   refine ⟨h.unlinked.right.left, List.eq_nil_iff_forall_not_mem.mpr ?_⟩
   intro x hx
   have hnulled := (h.receivers x hx).right
   unfold Ipc.freeque Ipc.expungeAll Ipc.ssWakeup at hnulled
   rw [drain_eq] at hnulled
   cases hnulled
 rintro ⟨hsender, hreceiver⟩
 constructor
 · rw [hsender]
   nofun
 · rw [hreceiver]
   nofun
 · intro t p nowait hcaller
   unfold Ipc.sendTry
   rw [hcaller]
   dsimp only [Ipc.freeque]
   rw [update_self]
 · exact congrArg Prod.snd (drain_eq Parcel.serial q.message)
 refine ⟨congrArg Prod.fst (drain_eq Parcel.serial q.message), hsender, ?_⟩
 exact congrArg Prod.fst (drain_eq Receiver.proc _)

/-- A process that sleeps in `sys_msgrcv` is left with an arbitrary `r_msg`. -/
theorem freeque_forgets_receiver :
  exists s q, s = ((Ipc.boot.setQueue 0 MsgQueue.new).msgrcv 1 0 ⟨0, fun _ => 0⟩ 4 0 false).2 ∧
   s.queues 0 = some q ∧ ¬ (s.freeque 0 q).Releases 0 q := by
 refine ⟨_, _, rfl, rfl, ?_⟩
 intro h
 have hnulled := (h.receivers ⟨1, 0, 4⟩ (List.mem_singleton.mpr rfl)).right
 cases hnulled

end OSLab.Common
