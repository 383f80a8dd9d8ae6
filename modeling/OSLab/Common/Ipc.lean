import OSLab.Common.MsgQueue
import OSLab.Foundation.TransitionSystem

/-!
# Sending and receiving

`sys_msgsnd` and `sys_msgrcv` of any number of processes on any number of queues.  What a
call does between taking and releasing `msg_ids.lock` is one step, with the switch at its
end; a process that is woken is at once where it goes on.

Beside the state there is a record of the calls.  For every queue, `placed` has the
messages whose call has returned 0, in this order, and `handed` has those that a receiver
has got, in this order.  `returned` has those with which a receiver has returned, and
`rejected` those whose call has returned an error.

A call comes with the code that it returns, or with none if it has not returned yet.
-/

namespace OSLab.Common
open Foundation Function

inductive Caller where
 | outside
 | sending (id : Nat) (p : Parcel) (nowait : Bool)
 | sendAsleep (id : Nat) (p : Parcel) (nowait : Bool)
 | rcvAsleep (id : Nat) (msgp : MsgBuf) (msgsz : Int)
 | received (id : Nat) (p : Parcel) (msgp : MsgBuf) (msgsz : Int)
 | refused

namespace Caller

/-- `activate_proc` for a sender that has been detached. -/
def wake : Caller -> Caller
 | sendAsleep id p nowait => sending id p nowait
 | c => c

def hand (p : Parcel) : Caller -> Caller
 | rcvAsleep id msgp msgsz => received id p msgp msgsz
 | c => c

def refuse : Caller -> Caller
 | rcvAsleep _ _ _ => refused
 | c => c

def carries : Caller -> Option Parcel
 | sending _ p _ | sendAsleep _ p _ => some p
 | _ => none

def holds : Caller -> Option (Nat × Parcel)
 | received id p _ _ => some (id, p)
 | _ => none

def waits : Caller -> Option (Nat × Int)
 | rcvAsleep id _ msgsz => some (id, msgsz)
 | _ => none

theorem idle_of_carries {c : Caller} {p : Parcel} (h : c.carries = some p) :
  c.waits = none ∧ c.holds = none := by
 cases c with
 | sending id p nowait | sendAsleep id p nowait => exact ⟨rfl, rfl⟩
 | _ => cases h

theorem of_waits {c : Caller} {id : Nat} {msgsz : Int} (h : c.waits = some (id, msgsz)) :
  exists msgp, c = rcvAsleep id msgp msgsz := by
 cases c with
 | rcvAsleep id' msgp msgsz' =>
  cases h
  exact ⟨msgp, rfl⟩
 | _ =>
  cases h

theorem carries_wake (c : Caller) : c.wake.carries = c.carries := by
 cases c <;> rfl

theorem holds_wake (c : Caller) : c.wake.holds = c.holds := by
 cases c <;> rfl

theorem waits_wake (c : Caller) : c.wake.waits = c.waits := by
 cases c <;> rfl

end Caller

inductive Fate where
 | unborn
 | carried (t : Nat)
 | accepted (id : Nat)
 | rejected
deriving DecidableEq

structure Ipc where
 queues : Nat -> Option MsgQueue
 caller : Nat -> Caller
 serial : Nat
 fate : Nat -> Fate
 placed : Nat -> List Parcel
 handed : Nat -> List (Parcel × Nat)
 returned : List Nat

namespace Ipc
variable (s : Ipc)

def setCaller (t : Nat) (c : Caller) : Ipc := { s with caller := update s.caller t c }

def setQueue (id : Nat) (q : MsgQueue) : Ipc :=
 { s with queues := update s.queues id (some q) }

def wakeAll (woken : List Nat) (f : Caller -> Caller) : Ipc :=
 { s with caller := fun t => if t ∈ woken then f (s.caller t) else s.caller t }

/-!
# `sys_msgsnd`
-/

def msgsnd (t id : Nat) (pages : List Chars) (msgp : MsgBuf) (msgsz : Int) (nowait : Bool) :
  Option Int × Ipc :=
 match Msg.prepare pages msgp msgsz with
 | Except.error err => (some err, s)
 | Except.ok (m, _) =>
  (none, { s.setCaller t (.sending id ⟨s.serial, m⟩ nowait) with
   serial := s.serial + 1
   fate := update s.fate s.serial (.carried t) })

def reject (t : Nat) (p : Parcel) : Ipc :=
 { s.setCaller t .outside with
   fate := update s.fate p.serial .rejected }

def accept (t id : Nat) (p : Parcel) : Ipc :=
 { s.setCaller t .outside with
   fate := update s.fate p.serial (.accepted id)
   placed := update s.placed id (s.placed id ++ [p]) }

def handTo (id t : Nat) (p : Parcel) : Ipc :=
 { s with handed := update s.handed id (s.handed id ++ [(p, t)]) }

/-- From `retry` on, with the queue that `get_msgq` has found. -/
def sendTo (t id : Nat) (p : Parcel) (nowait : Bool) (q : MsgQueue) : Option (Option Int × Ipc) :=
 if q.maxMsg < q.sumMsg + 1 then
  if nowait then
   some (some Msg.eAgain, s.reject t p)
  else
   some (none, (s.setQueue id { q with sender := q.sender ++ [t] }).setCaller t
    (.sendAsleep id p nowait))
 else
  (q.pipelineSend p.msg).map fun sent =>
   let q := { q with receiver := sent.2.passed ++ sent.2.rest }
   let s := s.wakeAll (sent.2.refused.map Receiver.proc) Caller.refuse
   match sent.1 with
   | none => (some 0, (s.setQueue id (q.push p)).accept t id p)
   | some r =>
    let woken := (s.setQueue id q).wakeAll [r.proc] (Caller.hand p)
    (some 0, (woken.handTo id r.proc p).accept t id p)

def sendTry (t : Nat) : Option (Option Int × Ipc) :=
 match s.caller t with
 | .sending id p nowait =>
  match s.queues id with
  | none => some (some Msg.eIdrm, s.reject t p)
  | some q => s.sendTo t id p nowait q
 | _ => none

/-!
# `sys_msgrcv`
-/

/-- The section under the lock, with the queue that `get_msgq` has found. -/
def receiveFrom (t id : Nat) (msgp : MsgBuf) (msgsz mtype : Int) (nowait : Bool)
  (q : MsgQueue) : Option Int × Ipc :=
 match MsgQueue.choose mtype none q.message with
 | some p =>
  if msgsz < p.msg.size then
   (some Msg.e2Big, s)
  else
   (none, (((s.setQueue id (q.take p)).wakeAll q.sender Caller.wake).handTo id t p).setCaller t
    (.received id p msgp msgsz))
 | none =>
  if nowait then
   (some Msg.eNoMsg, s)
  else
   (none, (s.setQueue id { q with receiver := q.receiver ++ [⟨t, mtype, msgsz⟩] }).setCaller t
    (.rcvAsleep id msgp msgsz))

def msgrcv (t id : Nat) (msgp : MsgBuf) (msgsz mtype : Int) (nowait : Bool) : Option Int × Ipc :=
 if msgsz < 0 then
  (some Msg.eInval, s)
 else
  match s.queues id with
  | none => (some Msg.eIdrm, s)
  | some q => s.receiveFrom t id msgp msgsz mtype nowait q

def rcvFinish (t : Nat) : Option (Int × Ipc) :=
 match s.caller t with
 | .received _ p msgp msgsz =>
  (Msg.deliver msgp msgsz p.msg).map fun out =>
   (out.1, { s.setCaller t .outside with returned := s.returned ++ [p.serial] })
 | .refused => some (Msg.e2Big, s.setCaller t .outside)
 | _ => none

end Ipc

inductive IpcLabel where
 | newque (id : Nat)
 | msgsnd (t id : Nat) (pages : List Chars) (msgp : MsgBuf) (msgsz : Int) (nowait : Bool)
 | sendTry (t : Nat)
 | msgrcv (t id : Nat) (msgp : MsgBuf) (msgsz mtype : Int) (nowait : Bool)
 | rcvFinish (t : Nat)

namespace Ipc

def isOutside : Caller -> Bool
 | .outside => true
 | _ => false

def step (s : Ipc) : IpcLabel -> Option Ipc
 | .newque id => if (s.queues id).isNone then some (s.setQueue id MsgQueue.new) else none
 | .msgsnd t id pages msgp msgsz nowait =>
  if isOutside (s.caller t) then some (s.msgsnd t id pages msgp msgsz nowait).2 else none
 | .sendTry t => (s.sendTry t).map Prod.snd
 | .msgrcv t id msgp msgsz mtype nowait =>
  if isOutside (s.caller t) then some (s.msgrcv t id msgp msgsz mtype nowait).2 else none
 | .rcvFinish t => (s.rcvFinish t).map Prod.snd

def boot : Ipc where
 queues := fun _ => none
 caller := fun _ => .outside
 serial := 0
 fate := fun _ => .unborn
 placed := fun _ => []
 handed := fun _ => []
 returned := []

def Roomy (most : Int) (_ : Ipc) : IpcLabel -> Prop
 | .msgsnd _ _ _ _ msgsz _ => msgsz ≤ most
 | .msgrcv _ _ _ msgsz mtype _ => most ≤ msgsz ∧ 0 ≤ mtype
 | _ => True

instance (most : Int) (s : Ipc) (l : IpcLabel) : Decidable (Roomy most s l) := by
 cases l <;> first | exact instDecidableTrue | exact instDecidableAnd | exact Int.decLe _ _

end Ipc

def ipcSystem : TransitionSystem Ipc IpcLabel where
 initial := fun s => s = Ipc.boot
 step := Ipc.step

end OSLab.Common
