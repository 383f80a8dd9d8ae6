import OSLab.Common.IpcDelivery

/-!
# Exactly-once delivery

Every message whose `sys_msgsnd` has returned 0 is on its queue or has been handed to one
receiver, and messages of one type keep their order.
-/

namespace OSLab.Common
open Foundation TransitionSystem Parcel List
namespace Ipc
variable {most : Int} {s next : Ipc} {id : Nat} {p : Parcel} {q : MsgQueue}

theorem Sound.step (h : s.Sound most) {l : IpcLabel} (hroomy : Roomy most s l)
  (hstep : s.step l = some next) : next.Sound most := by
 cases l with
 | newque id =>
  change (if (s.queues id).isNone then _ else _) = _ at hstep
  rcases of_guard hstep with ⟨hnone, rfl⟩
  exact h.newque (Option.isNone_iff_eq_none.mp hnone)
 | msgsnd t id pages msgp msgsz nowait =>
  change (if isOutside (s.caller t) then _ else _) = _ at hstep
  rcases of_guard hstep with ⟨houtside, rfl⟩
  exact h.msgsnd (isOutside_iff.mp houtside) pages msgp hroomy
 | sendTry t =>
  rcases Option.map_eq_some_iff.mp hstep with ⟨⟨r, after⟩, htry, rfl⟩
  have hsending : exists id p nowait, s.caller t = .sending id p nowait := by
   unfold Ipc.sendTry at htry
   split at htry
   · rename_i id p nowait hcaller
     exact ⟨id, p, nowait, hcaller⟩
   · cases htry
  rcases hsending with ⟨id, p, nowait, hcaller⟩
  rcases h.sendTry hcaller with ⟨r', after', hafter, hsound⟩
  rw [htry] at hafter
  cases hafter
  exact hsound
 | msgrcv t id msgp msgsz mtype nowait =>
  change (if isOutside (s.caller t) then _ else _) = _ at hstep
  split at hstep
  · rename_i houtside
    cases hstep
    exact h.msgrcv (isOutside_iff.mp houtside) hroomy msgp
  · cases hstep
 | rcvFinish t =>
  rcases Option.map_eq_some_iff.mp hstep with ⟨⟨r, after⟩, hfinish, rfl⟩
  exact h.rcvFinish hfinish

theorem sound_boot : boot.Sound most where
 queues := {
  calm := fun _ _ hfalse => by cases hfalse
  waiting := fun _ _ _ hfalse => by cases hfalse
  traced := fun _ _ hfalse => by cases hfalse
  absent := fun _ _ => ⟨rfl, rfl⟩ }
 calls := {
  fresh := fun _ _ => rfl
  carried := fun _ _ hfalse => by cases hfalse
  accepted := fun _ _ hfalse => by cases hfalse
  distinct := fun _ => nodup_nil }
 returns := {
  held := fun _ _ _ hfalse => by cases hfalse
  kept := fun _ _ _ hfalse => by cases hfalse
  once := nodup_nil
  given := fun _ hfalse => by cases hfalse }

theorem sound_of_reachable (hreach : Reachable ipcSystem (Roomy most) s) : s.Sound most := by
 apply reachable_invariant (Sound most) _ _ hreach
 · rintro s rfl
   exact sound_boot
 intro s l next _ h hguard hstep
 exact h.step hguard hstep

/-!
# Exactly once
-/

structure ExactlyOnce (s : Ipc) : Prop where
 delivered : forall id q p, s.queues id = some q -> p ∈ s.placed id ->
  (q.message.map Parcel.serial).count p.serial +
   ((s.handed id).map (fun x => x.1.serial)).count p.serial = 1
 elsewhere : forall id id' q p, id' ≠ id -> s.queues id' = some q -> p ∈ s.placed id ->
  p.serial ∉ q.message.map Parcel.serial ∧ p.serial ∉ (s.handed id').map (fun x => x.1.serial)
 returned : s.returned.Nodup ∧ forall k, k ∈ s.returned ->
  exists id p t, (p, t) ∈ s.handed id ∧ p.serial = k
 failed : forall k id q, s.fate k = .rejected -> s.queues id = some q ->
  k ∉ q.message.map Parcel.serial ∧ k ∉ (s.handed id).map (fun x => x.1.serial)
 counted : forall id q, s.queues id = some q -> q.sumMsg = q.message.length ∧ q.sumMsg ≤ maxMsgnum
 unmatched : forall id q p r, s.queues id = some q -> p ∈ q.message -> r ∈ q.receiver ->
  testmsg r.mtype p.msg.mtype = false
 ordered : forall id q type, s.queues id = some q ->
  ofKind (fun p => p.msg.mtype) type ((s.handed id).map Prod.fst) ++
   ofKind (fun p => p.msg.mtype) type q.message =
  ofKind (fun p => p.msg.mtype) type (s.placed id)
 sends : forall t id p nowait, s.caller t = .sending id p nowait -> (s.sendTry t).isSome = true

variable (h : s.Sound most) (hq : s.queues id = some q)
include h hq

theorem Sound.placed_of_message (hp : p ∈ q.message) : p ∈ s.placed id :=
 (h.queues.traced id q hq).perm.mem_iff.mp (mem_append_right _ hp)

theorem Sound.fate_of_mem {k : Nat}
  (hk : k ∈ q.message.map Parcel.serial ∨ k ∈ (s.handed id).map (fun x => x.1.serial)) :
  s.fate k = .accepted id := by
 rcases hk with hk | hk
 · rcases mem_map.mp hk with ⟨y, hy, rfl⟩
   exact h.calls.accepted id y (h.placed_of_message hq hy)
 rcases List.mem_map.mp hk with ⟨⟨y, x⟩, hy, rfl⟩
 exact h.calls.accepted id y (h.handed_placed hy)

theorem Sound.not_mem_of_fate {k : Nat} (hk : s.fate k ≠ .accepted id) :
  k ∉ q.message.map Parcel.serial ∧ k ∉ (s.handed id).map (fun x => x.1.serial) :=
 ⟨fun hin => hk (h.fate_of_mem hq (.inl hin)), fun hin => hk (h.fate_of_mem hq (.inr hin))⟩

end Ipc

theorem exactly_once_of_reachable {most : Int} {s : Ipc}
  (hreach : Reachable ipcSystem (Ipc.Roomy most) s) : s.ExactlyOnce := by
 have h := Ipc.sound_of_reachable hreach
 constructor
 · intro id q p hq hp
   have hperm := (h.queues.traced id q hq).perm.map serial
   have hone : ((s.placed id).map serial).count p.serial = 1 :=
    count_eq_one_of_mem (h.calls.distinct id) (mem_map_of_mem hp)
   rw [← hperm.count_eq, map_append, count_append] at hone
   unfold Ipc.handedOver at hone
   rw [map_map] at hone
   rw [Nat.add_comm]
   exact hone
 · intro id id' q p hid hq hp
   apply h.not_mem_of_fate hq
   rw [h.calls.accepted id p hp]
   intro heq
   cases heq
   exact hid rfl
 · exact ⟨h.returns.once, h.returns.given⟩
 · intro k id q hrejected hq
   apply h.not_mem_of_fate hq
   rw [hrejected]
   exact nofun
 · intro id q hq
   exact ⟨(h.queues.calm id q hq).sumMsg, (h.queues.calm id q hq).full⟩
 · intro id q p r hq hp hr
   exact (h.queues.calm id q hq).apart p r hp hr
 · intro id q type hq
   exact (h.queues.traced id q hq).order type
 · intro t id p nowait hcaller
   rcases h.sendTry hcaller with ⟨_, _, hnext, _⟩
   rw [hnext]
   rfl

open IpcLabel in
/-- One message goes to the receiver that waits, and the next one stays on the queue. -/
theorem exactly_once_both_ways :
  exists s, Reachable ipcSystem (Ipc.Roomy 4) s ∧ s.ExactlyOnce ∧ s.returned = [0] ∧
    (s.handed 7).map (fun x => (x.1.serial, x.2)) = [(0, 1)] ∧
    (s.placed 7).map Parcel.serial = [0, 1] ∧
    (s.queues 7).map (fun q => q.message.map Parcel.serial) = some [1] := by
 have hboot : ipcSystem.initial Ipc.boot := rfl
 exact exists_reachable_also hboot
  [newque 7, msgrcv 1 7 ⟨0, fun _ => 0⟩ 4 0 false, msgsnd 2 7 [fun _ => 0] ⟨5, fun _ => 1⟩ 4 false,
   msgsnd 3 7 [fun _ => 0] ⟨6, fun _ => 2⟩ 4 true, sendTry 2, sendTry 3, rcvFinish 1]
  (by decide +kernel)
  (fun _ => exactly_once_of_reachable)

end OSLab.Common
