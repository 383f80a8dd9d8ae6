import OSLab.Common.Ipc
import OSLab.Foundation.Delivery
import Mathlib.Data.List.Nodup

/-!
# What every call keeps

The queues, the messages of calls that have not returned and the messages that receivers
have got, each with the changes that leave it in order; then the calls one by one.
-/

namespace OSLab.Common.Ipc
open Foundation Function List Caller MsgQueue

/-!
# The invariant
-/

structure Calm (most : Int) (q : MsgQueue) : Prop where
 maxMsg : q.maxMsg = maxMsgnum
 sumMsg : q.sumMsg = q.message.length
 full : q.sumMsg ≤ maxMsgnum
 room : forall r, r ∈ q.receiver -> most ≤ r.size ∧ 0 ≤ r.mtype
 apart : forall p r, p ∈ q.message -> r ∈ q.receiver -> testmsg r.mtype p.msg.mtype = false
 procs : (q.receiver.map Receiver.proc).Nodup

def handedOver (s : Ipc) (id : Nat) : List Parcel := (s.handed id).map Prod.fst

structure Queues (most : Int) (s : Ipc) : Prop where
 calm : forall id q, s.queues id = some q -> Calm most q
 waiting : forall id q r, s.queues id = some q -> r ∈ q.receiver ->
  (s.caller r.proc).waits = some (id, r.size)
 traced : forall id q, s.queues id = some q ->
  Delivery (fun p => p.msg.mtype) (s.placed id) (s.handedOver id) q.message
 absent : forall id, s.queues id = none -> s.placed id = [] ∧ s.handed id = []

structure Calls (most : Int) (s : Ipc) : Prop where
 fresh : forall k, s.serial ≤ k -> s.fate k = .unborn
 carried : forall t p, (s.caller t).carries = some p ->
  s.fate p.serial = .carried t ∧ p.msg.size ≤ most
 accepted : forall id p, p ∈ s.placed id -> s.fate p.serial = .accepted id
 distinct : forall id, ((s.placed id).map Parcel.serial).Nodup

structure Returns (s : Ipc) : Prop where
 held : forall t id p, (s.caller t).holds = some (id, p) ->
  (p, t) ∈ s.handed id ∧ p.serial ∉ s.returned
 kept : forall id p t, (p, t) ∈ s.handed id ->
  p.serial ∈ s.returned ∨ (s.caller t).holds = some (id, p)
 once : s.returned.Nodup
 given : forall k, k ∈ s.returned -> exists id p t, (p, t) ∈ s.handed id ∧ p.serial = k

structure Sound (most : Int) (s : Ipc) : Prop where
 queues : s.Queues most
 calls : s.Calls most
 returns : s.Returns

variable {most : Int} {s next : Ipc} {t id : Nat} {p : Parcel} {q q' : MsgQueue} {nowait : Bool}

/-!
# Queues
-/

theorem Queues.congr (h : s.Queues most) (hqueues : next.queues = s.queues)
  (hwaits : forall x, (next.caller x).waits = (s.caller x).waits)
  (hplaced : next.placed = s.placed) (hhanded : next.handed = s.handed) :
  next.Queues most := by
 have hover : next.handedOver = s.handedOver := by
  unfold handedOver
  rw [hhanded]
 constructor
 · rw [hqueues]
   exact h.calm
 · intro id q r hq hr
   rw [hqueues] at hq
   rw [hwaits]
   exact h.waiting id q r hq hr
 · rw [hqueues, hplaced, hover]
   exact h.traced
 · rw [hqueues, hplaced, hhanded]
   exact h.absent

theorem Queues.replace (h : s.Queues most)
  (hqueues : next.queues = update s.queues id (some q')) (hcalm : Calm most q')
  (hwaiting : forall r, r ∈ q'.receiver -> (next.caller r.proc).waits = some (id, r.size))
  (hothers : forall x id' msgsz, id' ≠ id -> (s.caller x).waits = some (id', msgsz) ->
    (next.caller x).waits = some (id', msgsz))
  (hplaced : forall id', id' ≠ id -> next.placed id' = s.placed id')
  (hhanded : forall id', id' ≠ id -> next.handed id' = s.handed id')
  (htraced : Delivery (fun p => p.msg.mtype) (next.placed id) (next.handedOver id) q'.message) :
  next.Queues most := by
 have hself : next.queues id = some q' := by rw [hqueues, update_self]
 have hother : forall id', id' ≠ id -> next.queues id' = s.queues id' := by
  intro id' hid
  rw [hqueues, update_of_ne hid]
 constructor
 · intro id' q1 hq1
   by_cases hid : id' = id
   · rw [hid, hself] at hq1
     cases hq1
     exact hcalm
   rw [hother id' hid] at hq1
   exact h.calm id' q1 hq1
 · intro id' q1 r hq1 hr
   by_cases hid : id' = id
   · rw [hid, hself] at hq1
     cases hq1
     rw [hid]
     exact hwaiting r hr
   rw [hother id' hid] at hq1
   exact hothers _ _ _ hid (h.waiting id' q1 r hq1 hr)
 · intro id' q1 hq1
   by_cases hid : id' = id
   · rw [hid, hself] at hq1
     cases hq1
     rw [hid]
     exact htraced
   rw [hother id' hid] at hq1
   have htrace := h.traced id' q1 hq1
   unfold handedOver at htrace ⊢
   rw [hplaced id' hid, hhanded id' hid]
   exact htrace
 · intro id' hnone
   by_cases hid : id' = id
   · rw [hid, hself] at hnone
     cases hnone
   rw [hother id' hid] at hnone
   rw [hplaced id' hid, hhanded id' hid]
   exact h.absent id' hnone

/-!
# Calls
-/

section
variable (h : s.Calls most)
include h

theorem Calls.congr (hserial : next.serial = s.serial)
  (hfate : next.fate = s.fate) (hplaced : next.placed = s.placed)
  (hcarries : forall x, (next.caller x).carries = (s.caller x).carries) :
  next.Calls most := by
 constructor
 · rw [hserial, hfate]
   exact h.fresh
 · intro x y hy
   rw [hcarries] at hy
   rw [hfate]
   exact h.carried x y hy
 · rw [hplaced, hfate]
   exact h.accepted
 · rw [hplaced]
   exact h.distinct

variable (hcarries : (s.caller t).carries = some p)
include hcarries

theorem Calls.serial_ne {y : Parcel} (hy : y ∈ s.placed id) : y.serial ≠ p.serial := by
 intro heq
 have hfate := h.accepted id y hy
 rw [heq, (h.carried t p hcarries).left] at hfate
 cases hfate

theorem Calls.settle {fate : Fate}
  (hserial : next.serial = s.serial) (hfate : next.fate = update s.fate p.serial fate)
  (hself : (next.caller t).carries = none)
  (hothers : forall x, x ≠ t -> (next.caller x).carries = (s.caller x).carries)
  (haccepted : forall id y, y ∈ next.placed id -> y ∈ s.placed id ∨ y = p ∧ fate = .accepted id)
  (hdistinct : forall id, ((next.placed id).map Parcel.serial).Nodup) : next.Calls most := by
 constructor
 · intro k hk
   rw [hserial] at hk
   have hne : k ≠ p.serial := by
    rintro rfl
    have hcarried := (h.carried t p hcarries).left
    rw [h.fresh _ hk] at hcarried
    cases hcarried
   rw [hfate, update_of_ne hne]
   exact h.fresh k hk
 · intro x y hy
   have hx : x ≠ t := by
    rintro rfl
    rw [hself] at hy
    cases hy
   rw [hothers x hx] at hy
   rcases h.carried x y hy with ⟨hcarried, hsize⟩
   have hne : y.serial ≠ p.serial := by
    intro heq
    rw [heq, (h.carried t p hcarries).left] at hcarried
    cases hcarried
    exact hx rfl
   rw [hfate, update_of_ne hne]
   exact ⟨hcarried, hsize⟩
 · intro id y hy
   rw [hfate]
   rcases haccepted id y hy with hold | ⟨rfl, rfl⟩
   · rw [update_of_ne (h.serial_ne hcarries hold)]
     exact h.accepted id y hold
   · exact update_self ..
 · exact hdistinct

theorem Calls.accept
  (hserial : next.serial = s.serial) (hfate : next.fate = update s.fate p.serial (.accepted id))
  (hself : (next.caller t).carries = none)
  (hothers : forall x, x ≠ t -> (next.caller x).carries = (s.caller x).carries)
  (hplaced : next.placed = update s.placed id (s.placed id ++ [p])) :
  next.Calls most := by
 apply h.settle hcarries hserial hfate hself hothers
 · intro id' y hy
   rw [hplaced] at hy
   by_cases hid : id' = id
   · rw [hid, update_self] at hy
     rw [hid]
     rcases mem_append.mp hy with hold | hnew
     · exact .inl hold
     · exact .inr ⟨mem_singleton.mp hnew, rfl⟩
   rw [update_of_ne hid] at hy
   exact .inl hy
 intro id'
 rw [hplaced]
 by_cases hid : id' = id
 · rw [hid, update_self, map_append]
   apply Nodup.append (h.distinct id) (nodup_singleton _)
   intro k hk hp
   rcases mem_map.mp hk with ⟨y, hy, rfl⟩
   exact h.serial_ne hcarries hy (mem_singleton.mp hp)
 rw [update_of_ne hid]
 exact h.distinct id'
end

/-!
# Returns
-/

theorem Returns.congr (h : s.Returns) (hhanded : next.handed = s.handed)
  (hreturned : next.returned = s.returned)
  (hholds : forall x, (next.caller x).holds = (s.caller x).holds) : next.Returns := by
 constructor
 · intro x id y hy
   rw [hholds] at hy
   rw [hhanded, hreturned]
   exact h.held x id y hy
 · intro id y x hy
   rw [hhanded] at hy
   rw [hreturned, hholds]
   exact h.kept id y x hy
 · rw [hreturned]
   exact h.once
 · rw [hreturned, hhanded]
   exact h.given

variable {x : Nat}

theorem Returns.hand (h : s.Returns) (hfree : (s.caller x).holds = none)
  (hnew : forall id y z, (y, z) ∈ s.handed id -> y.serial ≠ p.serial)
  (hhanded : next.handed = update s.handed id (s.handed id ++ [(p, x)]))
  (hreturned : next.returned = s.returned) (hself : (next.caller x).holds = some (id, p))
  (hothers : forall z, z ≠ x -> (next.caller z).holds = (s.caller z).holds) :
  next.Returns := by
 have hsub : forall id' y z, (y, z) ∈ s.handed id' -> (y, z) ∈ next.handed id' := by
  intro id' y z hy
  rw [hhanded]
  by_cases hid : id' = id
  · rw [hid, update_self]
    rw [hid] at hy
    exact mem_append_left _ hy
  rw [update_of_ne hid]
  exact hy
 constructor
 · intro z id' y hy
   rw [hreturned]
   by_cases hz : z = x
   · rw [hz, hself] at hy
     cases hy
     rw [hz, hhanded, update_self]
     refine ⟨mem_append_right _ mem_cons_self, ?_⟩
     intro hmem
     rcases h.given _ hmem with ⟨id'', y', z', hy', heq⟩
     exact hnew id'' y' z' hy' heq
   rw [hothers z hz] at hy
   rcases h.held z id' y hy with ⟨hin, hout⟩
   exact ⟨hsub id' y z hin, hout⟩
 · intro id' y z hy
   rw [hreturned]
   have hcases : (y, z) ∈ s.handed id' ∨ id' = id ∧ (y, z) = (p, x) := by
    rw [hhanded] at hy
    by_cases hid : id' = id
    · rw [hid, update_self] at hy
      rw [hid]
      rcases mem_append.mp hy with hold | hlast
      · exact .inl hold
      · exact .inr ⟨rfl, mem_singleton.mp hlast⟩
    rw [update_of_ne hid] at hy
    exact .inl hy
   rcases hcases with hold | ⟨hid, heq⟩
   · rcases h.kept id' y z hold with hret | hhold
     · exact .inl hret
     right
     have hz : z ≠ x := by
      rintro rfl
      rw [hfree] at hhold
      cases hhold
     rw [hothers z hz]
     exact hhold
   cases heq
   right
   rw [hid]
   exact hself
 · rw [hreturned]
   exact h.once
 · intro k hk
   rw [hreturned] at hk
   rcases h.given k hk with ⟨id', y, z, hy, heq⟩
   exact ⟨id', y, z, hsub id' y z hy, heq⟩

/-!
# One process
-/

variable {α : Type}
variable (f : Caller -> α)

theorem update_caller {c : Caller} (hsame : f c = f (s.caller t))
  (x : Nat) : f (update s.caller t c x) = f (s.caller x) := by
 by_cases hx : x = t
 · rw [hx, update_self]
   exact hsame
 · rw [update_of_ne hx]

theorem update_caller_of_ne (c : Caller) (hx : x ≠ t) :
  f (update s.caller t c x) = f (s.caller x) := by
 rw [update_of_ne hx]

theorem update_caller_self (c : Caller) : f (update s.caller t c t) = f c := by
 rw [update_self]

theorem Sound.handed_placed (h : s.Sound most) (hp : (p, x) ∈ s.handed id) : p ∈ s.placed id := by
 cases hq : s.queues id with
 | none =>
  rw [(h.queues.absent id hq).right] at hp
  cases hp
 | some q =>
  apply (h.queues.traced id q hq).perm.mem_iff.mp
  exact mem_append_left _ (mem_map_of_mem hp)

section Sends
variable (h : s.Sound most) (hcarries : (s.caller t).carries = some p)
include h hcarries

theorem Sound.reject : (s.reject t p).Sound most := by
 rcases idle_of_carries hcarries with ⟨hwaits, hholds⟩
 constructor
 · exact h.queues.congr rfl (update_caller waits hwaits.symm) rfl rfl
 · exact h.calls.settle hcarries rfl rfl (update_caller_self carries .outside)
    (fun _ hx => update_caller_of_ne carries .outside hx)
    (fun _ _ => .inl) h.calls.distinct
 · exact h.returns.congr rfl rfl (update_caller holds hholds.symm)

theorem Sound.sleepSender (hq : s.queues id = some q) :
  ((s.setQueue id { q with sender := q.sender ++ [t] }).setCaller t
    (.sendAsleep id p nowait)).Sound most := by
 rcases idle_of_carries hcarries with ⟨hwaits, hholds⟩
 have hcalm := h.queues.calm id q hq
 have hwaits' := update_caller (s := s) (c := .sendAsleep id p nowait) waits hwaits.symm
 constructor
 · apply h.queues.replace rfl
   · exact { hcalm with }
   · intro r hr
     exact (hwaits' r.proc).trans (h.queues.waiting id q r hq hr)
   · intro x id' msgsz _ hx
     exact (hwaits' x).trans hx
   · exact fun _ _ => rfl
   · exact fun _ _ => rfl
   · exact h.queues.traced id q hq
 · exact h.calls.congr rfl rfl rfl (update_caller carries hcarries.symm)
 · exact h.returns.congr rfl rfl (update_caller holds hholds.symm)

theorem Sound.queue (hq : s.queues id = some q) (hroom : ¬ q.maxMsg < q.sumMsg + 1)
  (hnone : forall r, r ∈ q.receiver -> testmsg r.mtype p.msg.mtype = false) :
  ((s.setQueue id (q.push p)).accept t id p).Sound most := by
 rcases idle_of_carries hcarries with ⟨hwaits, hholds⟩
 have hcalm := h.queues.calm id q hq
 have hwaits' := update_caller (s := s) (c := .outside) waits hwaits.symm
 constructor
 · apply h.queues.replace rfl
   · have hmax := hcalm.maxMsg
     have hsum := hcalm.sumMsg
     constructor
     · exact hmax
     · change q.sumMsg + 1 = ((q.message ++ [p]).length : Int)
       rw [length_append, length_singleton, hsum]
       omega
     · rw [← hmax]
       exact Int.not_lt.mp hroom
     · exact hcalm.room
     · intro y r hy hr
       rcases mem_append.mp hy with hold | hnew
       · exact hcalm.apart y r hold hr
       rw [mem_singleton.mp hnew]
       exact hnone r hr
     · exact hcalm.procs
   · intro r hr
     exact (hwaits' r.proc).trans (h.queues.waiting id q r hq hr)
   · intro x id' msgsz _ hx
     exact (hwaits' x).trans hx
   · exact fun _ hid => update_of_ne hid _ _
   · exact fun _ _ => rfl
   have htraced := (h.queues.traced id q hq).push p
   change Delivery _ (update s.placed id (s.placed id ++ [p]) id) (s.handedOver id)
    (q.message ++ [p])
   rw [update_self]
   exact htraced
 · exact h.calls.accept hcarries rfl rfl (update_caller_self carries .outside)
    (fun _ hx => update_caller_of_ne carries .outside hx) rfl
 · exact h.returns.congr rfl rfl (update_caller holds hholds.symm)

theorem Sound.not_handed (id : Nat) (y : Parcel) (x : Nat) (hy : (y, x) ∈ s.handed id) :
  y.serial ≠ p.serial :=
 h.calls.serial_ne hcarries (h.handed_placed hy)

theorem Sound.pass (hq : s.queues id = some q) {r : Receiver} {before after : List Receiver}
  (hmatch : testmsg r.mtype p.msg.mtype) (hreceiver : q.receiver = before ++ r :: after) :
  ((((s.setQueue id { q with receiver := before ++ after }).wakeAll [r.proc]
    (hand p)).handTo id r.proc p).accept t id p).Sound most := by
 rcases idle_of_carries hcarries with ⟨hwaits, hholds⟩
 have hcalm := h.queues.calm id q hq
 have hmem : r ∈ q.receiver := by
  rw [hreceiver]
  exact mem_append_right _ mem_cons_self
 have hsub : (before ++ after).Sublist q.receiver := by
  rw [hreceiver]
  exact Sublist.append_left (sublist_cons_self r after) before
 have hrwaits := h.queues.waiting id q r hq hmem
 rcases of_waits hrwaits with ⟨msgp, hr⟩
 have hne : r.proc ≠ t := by
  intro heq
  rw [heq, hwaits] at hrwaits
  cases hrwaits
 -- The processes afterwards: the sender is outside, the receiver holds the message.
 generalize hnext : (((s.setQueue id { q with receiver := before ++ after }).wakeAll [r.proc]
  (hand p)).handTo id r.proc p).accept t id p = next
 have hsender : next.caller t = .outside := by
  rw [← hnext]
  exact update_self ..
 have hrcver : next.caller r.proc = .received id p msgp r.size := by
  rw [← hnext]
  change update (fun x => if x ∈ [r.proc] then (s.caller x).hand p else s.caller x) t
   .outside r.proc = _
  rw [update_of_ne hne, if_pos mem_cons_self, hr]
  rfl
 have hcallers : forall x, x ≠ t -> x ≠ r.proc -> next.caller x = s.caller x := by
  intro x hxt hxr
  rw [← hnext]
  change update (fun x => if x ∈ [r.proc] then (s.caller x).hand p else s.caller x) t .outside x = _
  rw [update_of_ne hxt, if_neg (fun hin => hxr (mem_singleton.mp hin))]
 have hwaiting : forall x id' msgsz, x ≠ r.proc -> (s.caller x).waits = some (id', msgsz) ->
  (next.caller x).waits = some (id', msgsz) := by
  intro x id' msgsz hxr hx
  have hxt : x ≠ t := by
   rintro rfl
   rw [hwaits] at hx
   cases hx
  rw [hcallers x hxt hxr]
  exact hx
 have hplaced : next.placed = update s.placed id (s.placed id ++ [p]) := by
  rw [← hnext]
  rfl
 have hhanded : next.handed = update s.handed id (s.handed id ++ [(p, r.proc)]) := by
  rw [← hnext]
  rfl
 have hqueues : next.queues = update s.queues id (some { q with receiver := before ++ after }) := by
  rw [← hnext]
  rfl
 constructor
 · apply h.queues.replace hqueues
   · exact ⟨hcalm.maxMsg, hcalm.sumMsg, hcalm.full, fun x hx => hcalm.room x (hsub.mem hx),
      fun y x hy hx => hcalm.apart y x hy (hsub.mem hx),
      hcalm.procs.sublist (hsub.map Receiver.proc)⟩
   · intro x hx
     have hxr : x.proc ≠ r.proc := by
      have hprocs := hcalm.procs
      rw [hreceiver, map_append, map_cons] at hprocs
      have hnot := (nodup_middle.mp hprocs)
      rw [nodup_cons, ← map_append] at hnot
      intro heq
      apply hnot.left
      rw [← heq]
      exact mem_map_of_mem hx
     exact hwaiting _ _ _ hxr (h.queues.waiting id q x hq (hsub.mem hx))
   · intro x id' msgsz hid hx
     have hxr : x ≠ r.proc := by
      rintro rfl
      rw [hrwaits] at hx
      cases hx
      exact hid rfl
     exact hwaiting x id' msgsz hxr hx
   · intro id' hid
     rw [hplaced, update_of_ne hid]
   · intro id' hid
     rw [hhanded, update_of_ne hid]
   unfold handedOver
   rw [hplaced, hhanded, update_self, update_self, map_append]
   apply (h.queues.traced id q hq).pass
   intro y hy heq
   have hapart := hcalm.apart y r hy hmem
   rw [heq, hmatch] at hapart
   cases hapart
 · apply h.calls.accept hcarries _ _ _ _ hplaced
   · rw [← hnext]
     rfl
   · rw [← hnext]
     rfl
   · rw [hsender]
     rfl
   intro x hxt
   by_cases hxr : x = r.proc
   · rw [hxr, hrcver, hr]
     rfl
   · rw [hcallers x hxt hxr]
 · apply h.returns.hand _ (h.not_handed hcarries) hhanded
   · rw [← hnext]
     rfl
   · rw [hrcver]
     rfl
   · intro x hxr
     by_cases hxt : x = t
     · rw [hxt, hsender, hholds]
       rfl
     · rw [hcallers x hxt hxr]
   rw [hr]
   rfl

theorem Sound.sendTo (hq : s.queues id = some q) :
  exists r next, s.sendTo t id p nowait q = some (r, next) ∧ next.Sound most := by
 have hcalm := h.queues.calm id q hq
 have hsize : forall r, r ∈ q.receiver -> p.msg.size ≤ r.size := by
  intro r hr
  exact Int.le_trans (h.calls.carried t p hcarries).right (hcalm.room r hr).left
 unfold Ipc.sendTo
 split
 · split
   · exact ⟨_, _, rfl, h.reject hcarries⟩
   · exact ⟨_, _, rfl, h.sleepSender hcarries hq⟩
 rename_i hroom
 rcases pipelineSend_spec hsize with ⟨⟨chosen, w⟩, hsend, hpasses⟩
 rw [hsend]
 cases chosen with
 | none =>
  rcases hpasses with ⟨hnone, hsame, hrefused⟩
  refine ⟨_, _, rfl, ?_⟩
  have hwoken : s.wakeAll (w.refused.map Receiver.proc) refuse = s := by
   rw [hrefused]
   rfl
  dsimp only
  rw [hwoken, hsame]
  exact h.queue hcarries hq hroom hnone
 | some r =>
  rcases hpasses with ⟨hmatch, hrefused, before, after, hreceiver, hsame, _⟩
  refine ⟨_, _, rfl, ?_⟩
  have hwoken : s.wakeAll (w.refused.map Receiver.proc) refuse = s := by
   rw [hrefused]
   rfl
  dsimp only
  rw [hwoken, hsame]
  exact h.pass hcarries hq hmatch hreceiver

end Sends

/-!
# `sys_msgrcv`
-/

theorem Sound.serials (h : s.Sound most) (hq : s.queues id = some q) :
  ((s.handedOver id).map Parcel.serial ++ q.message.map Parcel.serial).Nodup := by
 rw [← map_append]
 exact ((h.queues.traced id q hq).perm.map Parcel.serial).nodup_iff.mpr (h.calls.distinct id)

section Receives
variable (h : s.Sound most) (houtside : s.caller t = .outside)
include h houtside

theorem Sound.take (hq : s.queues id = some q) {mtype : Int} (hmtype : 0 ≤ mtype)
  (hchosen : choose mtype none q.message = some p) (msgp : MsgBuf) (msgsz : Int) :
  ((((s.setQueue id (q.take p)).wakeAll q.sender wake).handTo id t p).setCaller t
    (.received id p msgp msgsz)).Sound most := by
 rw [choose_eq_find? hmtype] at hchosen
 rcases find?_eq_some_iff_append.mp hchosen with ⟨hmatch, before, after, hmessage, hbefore⟩
 have hcalm := h.queues.calm id q hq
 have hserials := h.serials hq
 have htake := take_message hmessage (Nodup.of_append_right hserials)
 have hmem : p ∈ q.message := by
  rw [hmessage]
  exact mem_append_right _ mem_cons_self
 have hsub : forall y, y ∈ before ++ after -> y ∈ q.message := by
  intro y hy
  rw [hmessage]
  exact Sublist.mem hy (Sublist.append_left (sublist_cons_self p after) before)
 generalize hnext : (((s.setQueue id (q.take p)).wakeAll q.sender wake).handTo id t
  p).setCaller t (.received id p msgp msgsz) = next
 have hself : next.caller t = .received id p msgp msgsz := by
  rw [← hnext]
  exact update_self ..
 have hothers : forall x, x ≠ t ->
  next.caller x = (s.caller x).wake ∨ next.caller x = s.caller x := by
  intro x hx
  rw [← hnext]
  change update (fun x => if x ∈ q.sender then (s.caller x).wake else s.caller x) t _ x
   = _ ∨ update (fun x => if x ∈ q.sender then (s.caller x).wake else s.caller x) t _ x = _
  rw [update_of_ne hx]
  split
  · exact .inl rfl
  · exact .inr rfl
 have hkept : forall {β : Type} (g : Caller -> β), (forall c, g c.wake = g c) ->
  g (.received id p msgp msgsz) = g .outside -> forall x, g (next.caller x) = g (s.caller x) := by
  intro β g hwake hreceived x
  by_cases hx : x = t
  · rw [hx, hself, houtside, hreceived]
  rcases hothers x hx with hwoken | hsame
  · rw [hwoken, hwake]
  · rw [hsame]
 have hwaits := hkept Caller.waits waits_wake rfl
 have hhanded : next.handed = update s.handed id (s.handed id ++ [(p, t)]) := by
  rw [← hnext]
  rfl
 have hqueues : next.queues = update s.queues id (some (q.take p)) := by
  rw [← hnext]
  rfl
 constructor
 · apply h.queues.replace hqueues
   · exact { hcalm with
      sumMsg := by
       have hsum := hcalm.sumMsg
       rw [htake]
       change q.sumMsg - 1 = _
       rw [hmessage, length_append, length_cons] at hsum
       rw [length_append]
       omega
      full := by
       have hfull := hcalm.full
       change q.sumMsg - 1 ≤ _
       omega
      apart := by
       intro y r hy hr
       rw [htake] at hy
       exact hcalm.apart y r (hsub y hy) hr }
   · intro r hr
     rw [hwaits]
     exact h.queues.waiting id q r hq hr
   · intro x id' msgsz' _ hx
     rw [hwaits]
     exact hx
   · intro id' _
     rw [← hnext]
     rfl
   · intro id' hid
     rw [hhanded, update_of_ne hid]
   have htraced := h.queues.traced id q hq
   have hplaced : next.placed = s.placed := by
    rw [← hnext]
    rfl
   rw [hmessage] at htraced
   unfold handedOver
   rw [hplaced, hhanded, update_self, map_append, htake]
   apply htraced.take
   intro y hy heq
   have hnot := hbefore y hy
   rw [heq, hmatch] at hnot
   cases hnot
 · apply h.calls.congr _ _ _ (hkept Caller.carries carries_wake rfl)
   all_goals
    rw [← hnext]
    rfl
 · apply h.returns.hand (x := t) (p := p) _ _ hhanded
   · rw [← hnext]
     rfl
   · rw [hself]
     rfl
   · intro x hx
     rcases hothers x hx with hwoken | hsame
     · rw [hwoken, holds_wake]
     · rw [hsame]
   · rw [houtside]
     rfl
   intro id' y x hy heq
   have hplaced : p ∈ s.placed id :=
    (h.queues.traced id q hq).perm.mem_iff.mp (mem_append_right _ hmem)
   have hfate := h.calls.accepted id' y (h.handed_placed hy)
   rw [heq, h.calls.accepted id p hplaced] at hfate
   cases hfate
   apply (nodup_append.mp hserials).right.right y.serial _ p.serial _ heq
   · exact mem_map_of_mem (mem_map_of_mem hy)
   · exact mem_map_of_mem hmem

variable {msgsz mtype : Int}

theorem Sound.sleepReceiver (hq : s.queues id = some q) (hroom : most ≤ msgsz ∧ 0 ≤ mtype)
  (hnone : choose mtype none q.message = none) (msgp : MsgBuf) :
  ((s.setQueue id { q with receiver := q.receiver ++ [⟨t, mtype, msgsz⟩] }).setCaller t
    (.rcvAsleep id msgp msgsz)).Sound most := by
 rw [choose_eq_find? hroom.right] at hnone
 have hcalm := h.queues.calm id q hq
 have hidle : (s.caller t).waits = none := by
  rw [houtside]
  rfl
 have hothers : forall x id' msgsz', (s.caller x).waits = some (id', msgsz') ->
  (update s.caller t (.rcvAsleep id msgp msgsz) x).waits = some (id', msgsz') := by
  intro x id' msgsz' hx
  have hxt : x ≠ t := by
   rintro rfl
   rw [hidle] at hx
   cases hx
  rw [update_of_ne hxt]
  exact hx
 constructor
 · apply h.queues.replace rfl
   · exact { hcalm with
      room := by
       intro r hr
       rcases mem_append.mp hr with hold | hnew
       · exact hcalm.room r hold
       rw [mem_singleton.mp hnew]
       exact hroom
      apart := by
       intro y r hy hr
       rcases mem_append.mp hr with hold | hnew
       · exact hcalm.apart y r hy hold
       rw [mem_singleton.mp hnew]
       exact Bool.eq_false_iff.mpr (find?_eq_none.mp hnone y hy)
      procs := by
       rw [map_append]
       apply Nodup.append hcalm.procs (nodup_singleton _)
       intro x hx hxt
       rcases mem_map.mp hx with ⟨r, hr, rfl⟩
       have hwaits := h.queues.waiting id q r hq hr
       rw [mem_singleton.mp hxt, hidle] at hwaits
       cases hwaits }
   · intro r hr
     rcases mem_append.mp hr with hold | hnew
     · exact hothers _ _ _ (h.queues.waiting id q r hq hold)
     rw [mem_singleton.mp hnew]
     exact update_caller_self waits _
   · exact fun x id' msgsz' _ hx => hothers x id' msgsz' hx
   · exact fun _ _ => rfl
   · exact fun _ _ => rfl
   · exact h.queues.traced id q hq
 · have hcarries := update_caller (s := s) (t := t) (c := .rcvAsleep id msgp msgsz)
    carries (by rw [houtside]; rfl)
   exact h.calls.congr rfl rfl rfl hcarries
 · have hholds := update_caller (s := s) (t := t) (c := .rcvAsleep id msgp msgsz)
    holds (by rw [houtside]; rfl)
   exact h.returns.congr rfl rfl hholds

theorem Sound.msgrcv (hroom : most ≤ msgsz ∧ 0 ≤ mtype) (msgp : MsgBuf) :
  (s.msgrcv t id msgp msgsz mtype nowait).2.Sound most := by
 unfold Ipc.msgrcv
 split
 · exact h
 split
 · exact h
 rename_i q hq
 unfold receiveFrom
 split
 · rename_i p hchosen
   split
   · exact h
   · exact h.take houtside hq hroom.right hchosen msgp msgsz
 rename_i hnone
 split
 · exact h
 · exact h.sleepReceiver houtside hq hroom hnone msgp

theorem Sound.msgsnd (pages : List Chars) (msgp : MsgBuf) {msgsz : Int} (hsize : msgsz ≤ most) :
  (s.msgsnd t id pages msgp msgsz nowait).2.Sound most := by
 unfold Ipc.msgsnd
 split
 · exact h
 rename_i m left hprepare
 have hnew : forall {k fate}, s.fate k = fate -> fate ≠ .unborn -> k ≠ s.serial := by
  rintro k fate hfate hne rfl
  rw [h.calls.fresh _ (Nat.le_refl _)] at hfate
  exact hne hfate.symm
 have hwaits := update_caller (s := s) (t := t) (c := .sending id ⟨s.serial, m⟩ nowait)
  waits (by rw [houtside]; rfl)
 have hholds := update_caller (s := s) (t := t) (c := .sending id ⟨s.serial, m⟩ nowait)
  holds (by rw [houtside]; rfl)
 constructor
 · exact h.queues.congr rfl hwaits rfl rfl
 · constructor
   · intro k hk
     change update s.fate s.serial _ k = _
     rw [update_of_ne (Nat.ne_of_gt hk)]
     exact h.calls.fresh k (Nat.le_of_succ_le hk)
   · intro x y hy
     change (update s.caller t _ x).carries = _ at hy
     change update s.fate s.serial _ y.serial = _ ∧ _
     by_cases hx : x = t
     · rw [hx, update_self] at hy
       cases hy
       rw [hx, update_self, Msg.prepare_size hprepare]
       exact ⟨rfl, hsize⟩
     rw [update_of_ne hx] at hy
     rcases h.calls.carried x y hy with ⟨hcarried, hbound⟩
     rw [update_of_ne (hnew hcarried (nofun))]
     exact ⟨hcarried, hbound⟩
   · intro id' y hy
     have hfate := h.calls.accepted id' y hy
     change update s.fate s.serial _ y.serial = _
     rw [update_of_ne (hnew hfate (nofun))]
     exact hfate
   · exact h.calls.distinct
 · exact h.returns.congr rfl rfl hholds

end Receives

theorem Sound.leave (h : s.Sound most) {msgp : MsgBuf} {msgsz : Int}
  (hcaller : s.caller t = .received id p msgp msgsz) :
  ({ s.setCaller t .outside with
    returned := s.returned ++ [p.serial] } : Ipc).Sound most := by
 have hholds : (s.caller t).holds = some (id, p) := by
  rw [hcaller]
  rfl
 rcases h.returns.held t id p hholds with ⟨hin, hout⟩
 have hwaits := update_caller (s := s) (t := t) (c := .outside) waits (by rw [hcaller]; rfl)
 have hcarries := update_caller (s := s) (t := t) (c := .outside) carries (by rw [hcaller]; rfl)
 -- No other process holds this message: it would have been handed over twice.
 have hunique : forall id' y x, (y, x) ∈ s.handed id' -> y.serial = p.serial ->
  id' = id ∧ (y, x) = (p, t) := by
  intro id' y x hy heq
  have hfate := h.calls.accepted id' y (h.handed_placed hy)
  rw [heq, h.calls.accepted id p (h.handed_placed hin)] at hfate
  cases hfate
  refine ⟨rfl, ?_⟩
  cases hq : s.queues id with
  | none =>
   rw [(h.queues.absent id hq).right] at hin
   cases hin
  | some q =>
   have hnodup := Nodup.of_append_left (h.serials hq)
   unfold handedOver at hnodup
   rw [map_map] at hnodup
   exact inj_on_of_nodup_map hnodup hy hin heq
 constructor
 · exact h.queues.congr rfl hwaits rfl rfl
 · exact h.calls.congr rfl rfl rfl hcarries
 · constructor
   · intro x id' y hy
     change (update s.caller t .outside x).holds = _ at hy
     have hx : x ≠ t := by
      rintro rfl
      rw [update_self] at hy
      cases hy
     rw [update_of_ne hx] at hy
     rcases h.returns.held x id' y hy with ⟨hin', hout'⟩
     refine ⟨hin', ?_⟩
     intro hmem
     rcases mem_append.mp hmem with hold | hlast
     · exact hout' hold
     have hsame := (hunique id' y x hin' (mem_singleton.mp hlast)).right
     cases hsame
     exact hx rfl
   · intro id' y x hy
     change y.serial ∈ s.returned ++ [p.serial] ∨ (update s.caller t .outside x).holds = _
     by_cases hx : x = t
     · left
       rcases h.returns.kept id' y x hy with hret | hhold
       · exact mem_append_left _ hret
       rw [hx, hholds] at hhold
       cases hhold
       exact mem_append_right _ mem_cons_self
     rw [update_of_ne hx]
     exact (h.returns.kept id' y x hy).imp_left (mem_append_left _)
   · apply Nodup.append h.returns.once (nodup_singleton _)
     intro k hk hlast
     rw [mem_singleton.mp hlast] at hk
     exact hout hk
   · intro k hk
     rcases mem_append.mp hk with hold | hlast
     · exact h.returns.given k hold
     · exact ⟨id, p, t, hin, (mem_singleton.mp hlast).symm⟩

theorem Sound.rcvFinish (h : s.Sound most) {r : Int} (hstep : s.rcvFinish t = some (r, next)) :
  next.Sound most := by
 unfold Ipc.rcvFinish at hstep
 split at hstep
 · rename_i id p msgp msgsz hcaller
   rcases Option.map_eq_some_iff.mp hstep with ⟨_, _, ⟨⟩⟩
   exact h.leave hcaller
 · rename_i hcaller
   cases hstep
   constructor
   · exact h.queues.congr rfl (update_caller waits (by rw [hcaller]; rfl)) rfl rfl
   · exact h.calls.congr rfl rfl rfl (update_caller carries (by rw [hcaller]; rfl))
   · exact h.returns.congr rfl rfl (update_caller holds (by rw [hcaller]; rfl))
 · cases hstep

theorem Sound.newque (h : s.Sound most) (hnone : s.queues id = none) :
  (s.setQueue id new).Sound most := by
 rcases h.queues.absent id hnone with ⟨hplaced, hhanded⟩
 constructor
 · apply h.queues.replace rfl
   · exact ⟨rfl, rfl, by decide, fun _ hfalse => absurd hfalse not_mem_nil,
      fun _ _ hfalse => absurd hfalse not_mem_nil, nodup_nil⟩
   · exact fun _ hfalse => absurd hfalse not_mem_nil
   · exact fun _ _ _ _ hx => hx
   · exact fun _ _ => rfl
   · exact fun _ _ => rfl
   change Delivery _ (s.placed id) ((s.handed id).map Prod.fst) []
   rw [hplaced, hhanded]
   exact Delivery.empty
 · exact h.calls.congr rfl rfl rfl (fun _ => rfl)
 · exact h.returns.congr rfl rfl (fun _ => rfl)

theorem isOutside_iff {c : Caller} : isOutside c ↔ c = .outside := by
 constructor
 · intro h
   cases c <;> first | rfl | cases h
 · rintro rfl
   rfl

theorem Sound.sendTry (h : s.Sound most) (hcaller : s.caller t = .sending id p nowait) :
  exists r next, s.sendTry t = some (r, next) ∧ next.Sound most := by
 have hcarries : (s.caller t).carries = some p := by
  rw [hcaller]
  rfl
 unfold Ipc.sendTry
 rw [hcaller]
 dsimp only
 cases hq : s.queues id with
 | none => exact ⟨_, _, rfl, h.reject hcarries⟩
 | some q => exact h.sendTo hcarries hq

end OSLab.Common.Ipc
