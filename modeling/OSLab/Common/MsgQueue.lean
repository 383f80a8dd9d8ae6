import OSLab.Common.Message
import OSLab.Foundation.Loop
import Mathlib.Data.List.Nodup

/-!
# Message queues

`testmsg`, `pipeline_send` and the choice of a message in `sys_msgrcv`, on a queue with
its three lists.  Messages carry the number of the call that sent them.
-/

namespace OSLab.Common
open Foundation List

structure Parcel where
 serial : Nat
 msg : Msg

structure Receiver where
 proc : Nat
 mtype : Int
 size : Int
deriving DecidableEq

def maxMsgnum : Int := 256

structure MsgQueue where
 maxMsg : Int
 sumMsg : Int
 message : List Parcel
 sender : List Nat
 receiver : List Receiver

def testmsg (rqtype type : Int) : Bool :=
 if rqtype = 0 then true
 else if rqtype < 0 then decide (rqtype + type ≤ 0)
 else decide (rqtype = type)

namespace MsgQueue

def new : MsgQueue where
 maxMsg := maxMsgnum
 sumMsg := 0
 message := []
 sender := []
 receiver := []

/-!
# `pipeline_send`

The loop goes from a node to its successor, and a node that has been detached is its own
successor.  So the place of the loop is a node of the list or one that has left it.
-/

structure Walk where
 passed : List Receiver
 rest : List Receiver
 alone : Option Receiver
 refused : List Receiver

/-- A round at the receiver `r`, with the places of the loop after `r` left and stayed. -/
def visit (m : Msg) (r : Receiver) (detached stayed : Walk) : Round Walk (Option Receiver × Walk) :=
 if testmsg r.mtype m.mtype then
  if r.size < m.size then
   .again { detached with alone := some r, refused := detached.refused ++ [r] }
  else
   .done (some r, detached)
 else
  .again stayed

def pipelineRound (m : Msg) (w : Walk) : Option (Round Walk (Option Receiver × Walk)) :=
 match w.alone, w.rest with
 | some r, _ => some (visit m r w w)
 | none, [] => some (.done (none, w))
 | none, r :: rest =>
  some (visit m r { w with rest := rest } { w with passed := w.passed ++ [r], rest := rest })

/--
`pipeline_send`: the receiver that gets the message, and the lists afterwards.  A loop
that is not done after a round for every receiver and one more is never done.
-/
def pipelineSend (q : MsgQueue) (m : Msg) : Option (Option Receiver × Walk) :=
 loop (pipelineRound m) (q.receiver.length + 1)
  { passed := [], rest := q.receiver, alone := none, refused := [] }

/-!
# `sys_msgrcv`
-/

/-- The loop over `q_message`, with the message found so far. -/
def choose : Int -> Option Parcel -> List Parcel -> Option Parcel
 | _, found, [] => found
 | mtype, found, p :: rest =>
  if testmsg mtype p.msg.mtype then
   if mtype < -1 then choose (mtype + 1) (some p) rest else some p
  else
   choose mtype found rest

def take (q : MsgQueue) (p : Parcel) : MsgQueue :=
 { q with
   message := q.message.eraseP (fun x => decide (x.serial = p.serial))
   sumMsg := q.sumMsg - 1
   sender := [] }

/-- `_insert_into_list(msgq->q_message.prev, &msg->node)`. -/
def push (q : MsgQueue) (p : Parcel) : MsgQueue :=
 { q with message := q.message ++ [p], sumMsg := q.sumMsg + 1 }

/-!
# Receivers whose buffers are large enough
-/

variable {q : MsgQueue} {m : Msg} {w : Walk} {r : Receiver} {detached stayed : Walk}

theorem visit_match (hmatch : testmsg r.mtype m.mtype) (hsize : m.size ≤ r.size) :
  visit m r detached stayed = .done (some r, detached) := by
 unfold visit
 rw [if_pos hmatch, if_neg (Int.not_lt.mpr hsize)]

theorem visit_other (hmatch : testmsg r.mtype m.mtype = false) :
  visit m r detached stayed = .again stayed := by
 unfold visit
 rw [hmatch]
 rfl

def Passes (m : Msg) (receiver : List Receiver) : Option Receiver × Walk -> Prop
 | (none, w) => (forall r, r ∈ receiver -> testmsg r.mtype m.mtype = false) ∧
  w.passed ++ w.rest = receiver ∧ w.refused = []
 | (some r, w) => testmsg r.mtype m.mtype = true ∧ w.refused = [] ∧
  exists before after, receiver = before ++ r :: after ∧ w.passed ++ w.rest = before ++ after ∧
   forall x, x ∈ before -> testmsg x.mtype m.mtype = false

def asksFor (m : Msg) (r : Receiver) : Bool := testmsg r.mtype m.mtype

theorem pipelineRound_loop (rest passed : List Receiver)
  (hsize : forall r, rest.find? (asksFor m) = some r -> m.size ≤ r.size)
  (hpassed : forall r, r ∈ passed -> testmsg r.mtype m.mtype = false) :
  exists result, loop (pipelineRound m) (rest.length + 1)
      { passed := passed, rest := rest, alone := none, refused := [] } = some result ∧
    Passes m (passed ++ rest) result := by
 induction rest generalizing passed with
 | nil =>
  refine ⟨_, loop_done rfl, ?_⟩
  rw [append_nil]
  exact ⟨hpassed, append_nil passed, rfl⟩
 | cons r rest ih =>
  cases hmatch : testmsg r.mtype m.mtype with
  | true =>
   have hround : pipelineRound m ⟨passed, r :: rest, none, []⟩ =
    some (.done (some r, ⟨passed, rest, none, []⟩)) := by
    unfold pipelineRound
    dsimp only
    rw [visit_match hmatch (hsize r (find?_cons_of_pos hmatch))]
   refine ⟨_, loop_done hround, ?_⟩
   exact ⟨hmatch, rfl, passed, rest, rfl, rfl, hpassed⟩
  | false =>
   have hround : pipelineRound m ⟨passed, r :: rest, none, []⟩ =
    some (.again ⟨passed ++ [r], rest, none, []⟩) := by
    unfold pipelineRound
    dsimp only
    rw [visit_other hmatch]
   have hpassed' : forall x, x ∈ passed ++ [r] -> testmsg x.mtype m.mtype = false := by
    intro x hx
    rcases mem_append.mp hx with hx | hx
    · exact hpassed x hx
    rw [mem_singleton.mp hx]
    exact hmatch
   have hskip : (r :: rest).find? (asksFor m) = rest.find? (asksFor m) :=
    find?_cons_of_neg (Bool.eq_false_iff.mp hmatch)
   rcases ih (passed ++ [r]) (hskip ▸ hsize) hpassed' with ⟨result, hloop, hresult⟩
   refine ⟨result, ?_, ?_⟩
   · rw [length_cons, loop_again hround]
     exact hloop
   rw [append_assoc] at hresult
   exact hresult

theorem pipelineSend_spec (hsize : forall r, r ∈ q.receiver -> m.size ≤ r.size) :
  exists result, q.pipelineSend m = some result ∧ Passes m q.receiver result :=
 pipelineRound_loop q.receiver [] (fun r hr => hsize r (mem_of_find?_eq_some hr))
  (fun _ hfalse => absurd hfalse not_mem_nil)

/-!
# Receivers with any buffers

A receiver that asks for the message but has too little room is detached, and the loop
stays on its node for ever.
-/

def takes (m : Msg) (r : Receiver) : Bool := asksFor m r && decide (m.size ≤ r.size)

/--
In at most one round for each receiver and one at the end, the first receiver with enough
room gets the message, and those before it that ask for it are woken without one, once.
-/
def HandsOver (q : MsgQueue) (m : Msg) : Prop :=
 exists w, q.pipelineSend m = some (q.receiver.find? (takes m), w) ∧
  w.refused = (q.receiver.takeWhile (fun r => !takes m r)).filter (asksFor m)

theorem visit_small (hasks : asksFor m r) (hsmall : r.size < m.size) : visit m r detached stayed =
   .again { detached with alone := some r, refused := detached.refused ++ [r] } := by
 unfold asksFor at hasks
 unfold visit
 rw [if_pos hasks, if_pos hsmall]

theorem loop_alone (hasks : asksFor m r) (hsmall : r.size < m.size)
  (fuel : Nat) (halone : w.alone = some r) : loop (pipelineRound m) fuel w = none := by
 induction fuel generalizing w with
 | zero => rfl
 | succ fuel ih =>
  have hround : pipelineRound m w =
   some (.again { w with alone := some r, refused := w.refused ++ [r] }) := by
   unfold pipelineRound
   rw [halone]
   dsimp only
   rw [visit_small hasks hsmall]
  rw [loop_again hround]
  exact ih rfl

theorem loop_stuck (hsmall : r.size < m.size) {rest : List Receiver}
  (hfirst : rest.find? (asksFor m) = some r) (passed : List Receiver) (fuel : Nat) :
  loop (pipelineRound m) fuel ⟨passed, rest, none, []⟩ = none := by
 induction rest generalizing passed fuel with
 | nil => cases hfirst
 | cons x rest ih =>
  cases fuel with
  | zero => rfl
  | succ fuel =>
   cases hasks : asksFor m x with
   | true =>
    rw [find?_cons_of_pos hasks] at hfirst
    cases hfirst
    have hround : pipelineRound m ⟨passed, r :: rest, none, []⟩ =
     some (.again ⟨passed, rest, some r, [r]⟩) := by
     unfold pipelineRound
     dsimp only
     rw [visit_small hasks hsmall]
     rfl
    rw [loop_again hround]
    exact loop_alone hasks hsmall fuel rfl
   | false =>
    rw [find?_cons_of_neg (Bool.eq_false_iff.mp hasks)] at hfirst
    have hround : pipelineRound m ⟨passed, x :: rest, none, []⟩ =
     some (.again ⟨passed ++ [x], rest, none, []⟩) := by
     unfold pipelineRound
     dsimp only
     rw [visit_other hasks]
    rw [loop_again hround]
    exact ih hfirst _ fuel

theorem takeWhile_takes {before : List Receiver} (after : List Receiver)
  (hbefore : forall r, r ∈ before -> asksFor m r = false) :
  (before ++ after).find? (takes m) = after.find? (takes m) ∧
    ((before ++ after).takeWhile (fun r => !takes m r)).filter (asksFor m) =
      (after.takeWhile (fun r => !takes m r)).filter (asksFor m) := by
 have hnot : forall r, r ∈ before -> takes m r = false := by
  intro r hr
  unfold takes
  rw [hbefore r hr, Bool.false_and]
 constructor
 · rw [find?_append, find?_eq_none.mpr (fun r hr => Bool.eq_false_iff.mp (hnot r hr))]
   rfl
 · rw [takeWhile_append_of_pos (fun r hr => by rw [hnot r hr]; rfl), filter_append,
    filter_eq_nil_iff.mpr (fun r hr => Bool.eq_false_iff.mp (hbefore r hr)), nil_append]

/--
The message is handed over exactly if the first receiver that asks for it, if there is
one, has enough room.
-/
theorem pipeline_send_hands_over_iff (q : MsgQueue) (m : Msg) : q.HandsOver m ↔
    forall r, q.receiver.find? (asksFor m) = some r -> m.size ≤ r.size := by
 constructor
 · intro hands r hr
   rcases hands with ⟨w, hsend, _⟩
   by_contra hsmall
   have hnone := loop_stuck (Int.not_le.mp hsmall) hr [] (q.receiver.length + 1)
   unfold pipelineSend at hsend
   rw [hnone] at hsend
   cases hsend
 intro hsize
 rcases pipelineRound_loop q.receiver [] hsize (fun _ hx => absurd hx not_mem_nil)
  with ⟨⟨chosen, w⟩, hsend, hpasses⟩
 cases chosen with
 | none =>
  rcases hpasses with ⟨hnone, _, hrefused⟩
  have hall := takeWhile_takes [] hnone
  rw [nil_append, append_nil] at hall
  refine ⟨w, ?_, hrefused.trans hall.right.symm⟩
  rw [hall.left]
  exact hsend
 | some r =>
  rcases hpasses with ⟨hmatch, hrefused, before, after, hreceiver, _, hbefore⟩
  have hall := takeWhile_takes (r :: after) hbefore
  have hfirst : q.receiver.find? (asksFor m) = some r := by
   rw [← nil_append q.receiver, hreceiver, find?_append,
    find?_eq_none (p := asksFor m).mpr
     (fun x hx => Bool.eq_false_iff.mp (hbefore x hx))]
   exact find?_cons_of_pos hmatch
  have htakes : takes m r := Bool.and_eq_true_iff.mpr ⟨hmatch, decide_eq_true (hsize r hfirst)⟩
  rw [nil_append] at hreceiver
  rw [← hreceiver, find?_cons_of_pos htakes, takeWhile_cons_of_neg (by rw [htakes]; decide)] at hall
  refine ⟨w, ?_, hrefused.trans hall.right.symm⟩
  rw [hall.left]
  exact hsend

/-- The second receiver could take the message, but the loop never gets to it. -/
theorem pipeline_send_spins : exists (q : MsgQueue) (m : Msg),
    q.receiver.find? (takes m) = some ⟨2, 0, 10⟩ ∧
    (forall fuel, loop (pipelineRound m) fuel ⟨[], q.receiver, none, []⟩ = none) ∧
    ¬ q.HandsOver m := by
 have hstuck := loop_stuck (m := ⟨1, 5, fun _ => 0, []⟩) (r := ⟨1, 0, 1⟩)
  (by decide) (show find? _ [⟨1, 0, 1⟩, ⟨2, 0, 10⟩] = _ from rfl) []
 refine ⟨{ new with receiver := [⟨1, 0, 1⟩, ⟨2, 0, 10⟩] }, ⟨1, 5, fun _ => 0, []⟩, rfl,
  hstuck, ?_⟩
 rintro ⟨w, hsend, _⟩
 cases (hstuck 3).symm.trans hsend

/-!
# The first message that matches
-/

theorem choose_eq_find? {mtype : Int} (hmtype : 0 ≤ mtype) (messages : List Parcel) :
  choose mtype none messages = messages.find? (fun p => testmsg mtype p.msg.mtype) := by
 induction messages with
 | nil => rfl
 | cons p rest ih =>
  unfold choose
  cases hmatch : testmsg mtype p.msg.mtype with
  | true => rw [find?_cons_of_pos (l := rest) hmatch, if_pos rfl, if_neg (by omega)]
  | false =>
   rw [find?_cons_of_neg (l := rest) (by rw [hmatch]; exact Bool.false_ne_true), ← ih]
   rfl

theorem take_message {p : Parcel} {before after : List Parcel}
  (hmessage : q.message = before ++ p :: after)
  (hnodup : (q.message.map Parcel.serial).Nodup) :
  (q.take p).message = before ++ after := by
 change q.message.eraseP _ = _
 rw [hmessage, eraseP_append_right]
 · congr 1
   exact eraseP_cons_of_pos (decide_eq_true rfl)
 intro y hy hfalse
 rw [hmessage, map_append, map_cons] at hnodup
 have hnot := nodup_middle.mp hnodup
 rw [nodup_cons] at hnot
 apply hnot.left
 rw [← of_decide_eq_true hfalse]
 exact mem_append_left _ (mem_map_of_mem hy)

end OSLab.Common.MsgQueue
