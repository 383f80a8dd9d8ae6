import OSLab.Common.Ipc
import Mathlib.Data.List.MinMax

/-!
# Choosing a message

For a negative `mtype` the loop of `sys_msgrcv` lowers its bound by one for every message
that it finds, whatever the type of the message is, so it may go on to a higher type.
-/

namespace OSLab.Common
open List Function
namespace MsgQueue

def lowest (messages : List Parcel) : Option Parcel :=
 @argmin Parcel Int Int.instLinearOrder.toPreorder _ (fun p => p.msg.mtype) messages

/-- The message that is asked for: of any type, of one type, or the first of the lowest type. -/
def wanted (mtype : Int) (messages : List Parcel) : Option Parcel :=
 if 0 ≤ mtype then
  messages.find? (fun p => testmsg mtype p.msg.mtype)
 else
  (lowest messages).filter (fun p => testmsg mtype p.msg.mtype)

def Falling : Int -> List Parcel -> Prop
 | _, [] => True
 | bound, p :: rest => p.msg.mtype ≤ bound ∧ Falling (bound - 1) rest

/--
No type is within the bound; or no type behind the first message of the lowest type is
below what messages in front of it, each within a bound that falls by one, leave of it.
-/
def InOrder (bound : Int) (messages : List Parcel) : Prop :=
 (forall x, x ∈ messages -> bound < x.msg.mtype) ∨
  exists before w after, messages = before ++ w :: after ∧
   (forall x, x ∈ before -> w.msg.mtype < x.msg.mtype) ∧
   (forall x, x ∈ after -> w.msg.mtype ≤ x.msg.mtype) ∧
   exists found, found <+ before ∧ Falling bound found ∧
    forall x, x ∈ after -> bound - found.length ≤ x.msg.mtype

variable {mtype : Int} {messages rest : List Parcel} {p : Parcel}

theorem testmsg_iff (hneg : mtype < 0) (type : Int) : testmsg mtype type ↔ mtype + type ≤ 0 := by
 unfold testmsg
 rw [if_neg (by omega), if_pos hneg, decide_eq_true_iff]

theorem choose_found (mtype : Int) (found : Option Parcel) (messages : List Parcel) :
  choose mtype found messages = (choose mtype none messages).or found := by
 induction messages generalizing mtype found with
 | nil => rfl
 | cons p rest ih =>
  unfold choose
  split
  · split
    · rw [ih (mtype + 1) (some p), Option.or_assoc]
      rfl
    · rfl
  · exact ih _ _

theorem choose_none_iff (mtype : Int) (messages : List Parcel) :
  choose mtype none messages = none ↔
    forall x, x ∈ messages -> testmsg mtype x.msg.mtype = false := by
 induction messages generalizing mtype with
 | nil => exact iff_of_true rfl nofun
 | cons p rest ih =>
  rw [choose, forall_mem_cons]
  cases htest : testmsg mtype p.msg.mtype with
  | true =>
   refine iff_of_false ?_ (fun h => Bool.noConfusion h.left)
   rw [if_pos rfl]
   split
   · rw [choose_found, Option.or_eq_none_iff]
     exact fun h => nomatch h.right
   · nofun
  | false => rw [if_neg Bool.false_ne_true, ih, and_iff_right rfl]

theorem choose_mem {w : Parcel} (h : choose mtype none messages = some w) : w ∈ messages := by
 induction messages generalizing mtype with
 | nil => cases h
 | cons p rest ih =>
  rw [choose] at h
  split at h
  · split at h
    · rw [choose_found, Option.or_eq_some_iff] at h
      rcases h with h | ⟨_, heq⟩
      · exact mem_cons_of_mem p (ih h)
      cases heq
      exact mem_cons_self
    cases h
    exact mem_cons_self
  · exact mem_cons_of_mem p (ih h)

theorem lowest_cases (p : Parcel) (rest : List Parcel) :
  (forall x, x ∈ rest -> p.msg.mtype ≤ x.msg.mtype) ∧ lowest (p :: rest) = some p ∨
  exists c, c ∈ rest ∧ c.msg.mtype < p.msg.mtype ∧ lowest rest = some c ∧
   lowest (p :: rest) = some c := by
 unfold lowest
 rw [argmin_cons]
 generalize hlow : @argmin Parcel Int _ _ _ rest = low
 cases low with
 | none =>
  rw [argmin_eq_none.mp hlow]
  exact .inl ⟨nofun, rfl⟩
 | some c =>
  by_cases hless : c.msg.mtype < p.msg.mtype
  · exact .inr ⟨c, argmin_mem hlow, hless, rfl, if_pos hless⟩
  refine .inl ⟨?_, if_neg hless⟩
  intro x hx
  have hle : c.msg.mtype ≤ x.msg.mtype :=
   le_of_mem_argmin (f := fun p : Parcel => p.msg.mtype) hx hlow
  omega

theorem lowest_append {before after : List Parcel} (hbefore : forall x, x ∈ before ->
  p.msg.mtype < x.msg.mtype) (hafter : forall x, x ∈ after -> p.msg.mtype ≤ x.msg.mtype) :
  lowest (before ++ p :: after) = some p := by
 induction before with
 | nil =>
  rcases lowest_cases p after with ⟨_, hlow⟩ | ⟨c, hc, hless, _⟩
  · exact hlow
  · exact absurd (hafter c hc) (Int.not_le.mpr hless)
 | cons x before ih =>
  have hrest := ih (fun y hy => hbefore y (mem_cons_of_mem x hy))
  rcases lowest_cases x (before ++ p :: after) with ⟨hfirst, _⟩ | ⟨c, _, _, hlow, hlow'⟩
  · have hle := hfirst p (mem_append_right before mem_cons_self)
    exact absurd (hbefore x mem_cons_self) (Int.not_lt.mpr hle)
  · rw [hrest] at hlow
    rw [List.cons_append, hlow', ← hlow]

theorem lowest_split (h : lowest messages = some p) : exists before after,
  messages = before ++ p :: after ∧ (forall x, x ∈ before -> p.msg.mtype < x.msg.mtype) ∧
   forall x, x ∈ after -> p.msg.mtype ≤ x.msg.mtype := by
 induction messages with
 | nil => cases h
 | cons x rest ih =>
  rcases lowest_cases x rest with ⟨hfirst, hlow⟩ | ⟨c, _, hless, hlow, hlow'⟩
  · rw [h] at hlow
    cases hlow
    exact ⟨[], rest, rfl, nofun, hfirst⟩
  rw [h] at hlow'
  cases hlow'
  rcases ih hlow with ⟨before, after, rfl, hbefore, hafter⟩
  exact ⟨x :: before, after, rfl, forall_mem_cons.mpr ⟨hless, hbefore⟩, hafter⟩

theorem wanted_lowest {bound : Int} (hpos : 0 < bound) (hlow : lowest messages = some p) :
  wanted (-bound) messages = if p.msg.mtype ≤ bound then some p else none := by
 have htest : testmsg (-bound) p.msg.mtype ↔ p.msg.mtype ≤ bound := by
  rw [testmsg_iff (by omega)]
  omega
 unfold wanted
 rw [if_neg (by omega), hlow]
 change (if testmsg (-bound) p.msg.mtype then some p else none) = _
 simp only [htest]

/-!
# The loop

Every message in front of the first one of the lowest type leaves the bound above that
type, so the loop finds this message, and the question is whether it finds another one.
-/

/-- What the loop finds in front is a longest list with a falling bound. -/
theorem choose_before {before : List Parcel} (rest : List Parcel) {low bound : Int}
  (hlow : 1 ≤ low) (hle : low ≤ bound)
  (hbefore : forall x, x ∈ before -> low < x.msg.mtype) (last : Option Parcel) :
  exists found, found <+ before ∧ Falling bound found ∧ low ≤ bound - found.length ∧
   (forall other, other <+ before -> Falling bound other -> other.length ≤ found.length) ∧
   exists last', choose (-bound) last (before ++ rest) =
    choose (-(bound - found.length)) last' rest := by
 induction before generalizing bound last with
 | nil =>
  refine ⟨[], nil_sublist _, trivial, ?_, ?_, last, ?_⟩
  · simpa using hle
  · intro other hother _
    rw [sublist_nil.mp hother]
  · simp
 | cons p before ih =>
  rcases forall_mem_cons.mp hbefore with ⟨hp, hothers⟩
  by_cases hwithin : p.msg.mtype ≤ bound
  · -- the message is found, and the bound falls
    rcases ih (show low ≤ bound - 1 by omega) hothers (some p) with
     ⟨found, hsub, hfalling, hleft, hmost, last', hchoose⟩
    refine ⟨p :: found, hsub.cons_cons p, ⟨hwithin, hfalling⟩, ?_, ?_, last', ?_⟩
    · rw [length_cons]
      omega
    · intro other hother hfall
      cases other with
      | nil => exact Nat.zero_le _
      | cons x other =>
       have hrest : other <+ before := by
        cases hother with
        | cons _ h => exact sublist_of_cons_sublist h
        | cons_cons _ h => exact h
       exact Nat.succ_le_succ (hmost other hrest hfall.right)
    · rw [List.cons_append, choose, if_pos ((testmsg_iff (by omega) _).mpr (by omega)),
       if_pos (by omega), show -bound + 1 = -(bound - 1) by omega, hchoose, length_cons]
      congr 1
      omega
  · rcases ih hle hothers last with ⟨found, hsub, hfalling, hleft, hmost, last', hchoose⟩
    refine ⟨found, hsub.cons p, hfalling, hleft, ?_, last', ?_⟩
    · intro other hother hfall
      cases hother with
      | cons _ h => exact hmost other h hfall
      | cons_cons _ h => exact absurd hfall.left hwithin
    · rw [List.cons_append, choose, if_neg, hchoose]
      rw [testmsg_iff (by omega)]
      omega

theorem choose_lowest_iff {before after : List Parcel} {bound : Int} (hpos : 1 ≤ p.msg.mtype)
  (hle : p.msg.mtype ≤ bound) (hbefore : forall x, x ∈ before -> p.msg.mtype < x.msg.mtype)
  (hafter : forall x, x ∈ after -> p.msg.mtype ≤ x.msg.mtype) (hnot : p ∉ after) :
  choose (-bound) none (before ++ p :: after) = some p ↔ exists found, found <+ before ∧
   Falling bound found ∧ forall x, x ∈ after -> bound - found.length ≤ x.msg.mtype := by
 rcases choose_before (p :: after) hpos hle hbefore none with
  ⟨found, hsub, hfalling, hleft, hmost, last', hchoose⟩
 have hlater : choose (-bound) none (before ++ p :: after) = some p ↔
  forall x, x ∈ after -> bound - found.length ≤ x.msg.mtype := by
  rw [hchoose, choose, if_pos ((testmsg_iff (by omega) _).mpr (by omega))]
  split
  · rw [choose_found]
    cases hnext : choose (-(bound - found.length) + 1) none after with
    | none =>
     refine iff_of_true rfl ?_
     intro x hx
     have htest := (choose_none_iff _ _).mp hnext x hx
     rw [← Bool.not_eq_true, testmsg_iff (by omega)] at htest
     omega
    | some w =>
     have hne : w ≠ p := fun heq => hnot (heq ▸ choose_mem hnext)
     refine iff_of_false (fun heq => hne (Option.some.inj heq)) ?_
     intro hall
     have hnone : choose (-(bound - found.length) + 1) none after = none := by
      rw [choose_none_iff]
      intro x hx
      have hx' := hall x hx
      rw [← Bool.not_eq_true, testmsg_iff (by omega)]
      omega
     rw [hnext] at hnone
     cases hnone
  · refine iff_of_true rfl ?_
    intro x hx
    have hx' := hafter x hx
    omega
 rw [hlater]
 constructor
 · exact fun hall => ⟨found, hsub, hfalling, hall⟩
 rintro ⟨other, hother, hfall, hall⟩ x hx
 have hlength := hmost other hother hfall
 have hx' := hall x hx
 omega

theorem choose_eq_wanted_iff (bound : Int) (hbound : 0 < bound) (hnodup : messages.Nodup)
  (htypes : forall x, x ∈ messages -> 1 ≤ x.msg.mtype) :
  choose (-bound) none messages = wanted (-bound) messages ↔ InOrder bound messages := by
 have hbehind : forall {before w after}, messages = before ++ w :: after -> w ∉ after := by
  rintro before w after rfl hw
  exact (nodup_cons.mp (nodup_append.mp hnodup).right.left).left hw
 have hnone : (forall x, x ∈ messages -> bound < x.msg.mtype) ->
  choose (-bound) none messages = none := by
  intro hall
  rw [choose_none_iff]
  intro x hx
  have hx' := hall x hx
  rw [← Bool.not_eq_true, testmsg_iff (by omega)]
  omega
 cases hlow : lowest messages with
 | none =>
  cases argmin_eq_none.mp hlow
  refine iff_of_true ?_ (.inl nofun)
  unfold wanted
  rw [if_neg (by omega), hlow]
  rfl
 | some w =>
  rcases lowest_split hlow with ⟨before, after, hsplit, hbefore, hafter⟩
  rw [wanted_lowest hbound hlow]
  by_cases hle : w.msg.mtype ≤ bound
  · rw [if_pos hle]
    constructor
    · intro hchoose
      rw [hsplit] at hchoose
      have hw := htypes w (by rw [hsplit]; exact mem_append_right before mem_cons_self)
      exact .inr ⟨before, w, after, hsplit, hbefore, hafter,
       (choose_lowest_iff hw hle hbefore hafter (hbehind hsplit)).mp hchoose⟩
    rintro (hall | ⟨before', w', after', hsplit', hbefore', hafter', hfound⟩)
    · have hw := hall w (by rw [hsplit]; exact mem_append_right before mem_cons_self)
      exact absurd hle (Int.not_le.mpr hw)
    have hsame := hlow
    rw [hsplit', lowest_append hbefore' hafter'] at hsame
    cases hsame
    have hw := htypes w (by rw [hsplit]; exact mem_append_right before mem_cons_self)
    rw [hsplit']
    exact (choose_lowest_iff hw hle hbefore' hafter' (hbehind hsplit')).mpr hfound
  · have hall : forall x, x ∈ messages -> bound < x.msg.mtype := by
     intro x hx
     have hmin : w.msg.mtype ≤ x.msg.mtype :=
      le_of_mem_argmin (f := fun p : Parcel => p.msg.mtype) hx hlow
     omega
    rw [if_neg hle]
    exact iff_of_true (hnone hall) (.inl hall)

end MsgQueue

/-!
# The call
-/

open MsgQueue
namespace Ipc

/-- A call of `sys_msgrcv` that finds the queue `q`. -/
structure Receives (s : Ipc) (t id : Nat) (msgp : MsgBuf) (msgsz mtype : Int) (nowait : Bool)
  (q : MsgQueue) : Prop where
 takes : forall p, wanted mtype q.message = some p -> p.msg.size ≤ msgsz ->
  exists next before after, s.msgrcv t id msgp msgsz mtype nowait = (none, next) ∧
   next.caller t = .received id p msgp msgsz ∧ q.message = before ++ p :: after ∧
   next.queues = update s.queues id
    (some { q with message := before ++ after, sumMsg := q.sumMsg - 1, sender := [] })
 tooBig : forall p, wanted mtype q.message = some p -> msgsz < p.msg.size ->
  s.msgrcv t id msgp msgsz mtype nowait = (some Msg.e2Big, s)
 noMessage : wanted mtype q.message = none -> nowait = true ->
  s.msgrcv t id msgp msgsz mtype nowait = (some Msg.eNoMsg, s)
 waits : wanted mtype q.message = none -> nowait = false ->
  exists next, s.msgrcv t id msgp msgsz mtype nowait = (none, next) ∧
   next.caller t = .rcvAsleep id msgp msgsz ∧ next.queues = update s.queues id
    (some { q with receiver := q.receiver ++ [⟨t, mtype, msgsz⟩] })
 unchanged : forall err, (s.msgrcv t id msgp msgsz mtype nowait).1 = some err ->
  (s.msgrcv t id msgp msgsz mtype nowait).2 = s

/-- Calls with any buffer, whether they wait or not. -/
def Selects (s : Ipc) (t id : Nat) (mtype : Int) (q : MsgQueue) : Prop :=
 forall msgp msgsz nowait, 0 ≤ msgsz -> s.Receives t id msgp msgsz mtype nowait q

variable {s : Ipc} {t id : Nat} {msgp : MsgBuf} {msgsz mtype : Int} {nowait : Bool}
 {q : MsgQueue} {p : Parcel}

section
variable (hq : s.queues id = some q) (hsize : 0 ≤ msgsz)
include hq hsize

theorem msgrcv_eq : s.msgrcv t id msgp msgsz mtype nowait =
  s.receiveFrom t id msgp msgsz mtype nowait q := by
 unfold msgrcv
 rw [if_neg (Int.not_lt.mpr hsize), hq]

theorem msgrcv_found (hchoose : choose mtype none q.message = some p) (hfits : p.msg.size ≤ msgsz) :
  s.msgrcv t id msgp msgsz mtype nowait =
   (none, (((s.setQueue id (q.take p)).wakeAll q.sender Caller.wake).handTo id t p).setCaller t
    (.received id p msgp msgsz)) := by
 rw [msgrcv_eq hq hsize, receiveFrom, hchoose]
 exact if_neg (Int.not_lt.mpr hfits)

theorem msgrcv_tooBig (hchoose : choose mtype none q.message = some p)
  (hbig : msgsz < p.msg.size) :
  s.msgrcv t id msgp msgsz mtype nowait = (some Msg.e2Big, s) := by
 rw [msgrcv_eq hq hsize, receiveFrom, hchoose]
 exact if_pos hbig

theorem msgrcv_noMessage (hchoose : choose mtype none q.message = none) :
  s.msgrcv t id msgp msgsz mtype true = (some Msg.eNoMsg, s) := by
 rw [msgrcv_eq hq hsize, receiveFrom, hchoose]
 rfl

theorem receives_of_choose (hnodup : (q.message.map Parcel.serial).Nodup)
  (hright : choose mtype none q.message = wanted mtype q.message) :
  s.Receives t id msgp msgsz mtype nowait q := by
 constructor
 · intro p hp hfits
   rw [← hright] at hp
   rcases append_of_mem (choose_mem hp) with ⟨before, after, hmessage⟩
   refine ⟨_, before, after, msgrcv_found hq hsize hp hfits, update_self .., hmessage, ?_⟩
   rw [← take_message hmessage hnodup]
   rfl
 · intro p hp hbig
   rw [← hright] at hp
   exact msgrcv_tooBig hq hsize hp hbig
 · rintro hnone rfl
   rw [← hright] at hnone
   exact msgrcv_noMessage hq hsize hnone
 · rintro hnone rfl
   rw [← hright] at hnone
   rw [msgrcv_eq hq hsize, receiveFrom, hnone]
   exact ⟨_, rfl, update_self .., rfl⟩
 · intro err
   rw [msgrcv_eq hq hsize, receiveFrom]
   cases choose mtype none q.message with
   | some p =>
    dsimp only
    split
    · exact fun _ => rfl
    · nofun
   | none =>
    dsimp only
    split
    · exact fun _ => rfl
    · nofun

end

theorem choose_of_selects (hq : s.queues id = some q) (h : s.Selects t id mtype q) :
  choose mtype none q.message = wanted mtype q.message := by
 cases hwanted : wanted mtype q.message with
 | none =>
  have hcall := (h ⟨0, fun _ => 0⟩ 0 true (Int.le_refl 0)).noMessage hwanted rfl
  cases hchoose : choose mtype none q.message with
  | none => rfl
  | some c =>
   by_cases hfits : c.msg.size ≤ 0
   · rw [msgrcv_found hq (Int.le_refl 0) hchoose hfits] at hcall
     cases hcall
   · rw [msgrcv_tooBig hq (Int.le_refl 0) hchoose (Int.not_le.mp hfits)] at hcall
     cases hcall
 | some w =>
  -- a buffer that is large enough shows which message the call has taken
  have hmax : 0 ≤ max w.msg.size 0 := Int.le_max_right ..
  rcases (h ⟨0, fun _ => 0⟩ (max w.msg.size 0) true hmax).takes w hwanted (Int.le_max_left ..) with
   ⟨next, _, _, hcall, hcaller, _⟩
  cases hchoose : choose mtype none q.message with
  | none =>
   rw [msgrcv_noMessage hq hmax hchoose] at hcall
   cases hcall
  | some c =>
   by_cases hfits : c.msg.size ≤ max w.msg.size 0
   · rw [msgrcv_found hq hmax hchoose hfits] at hcall
     cases hcall
     change update _ t _ t = _ at hcaller
     rw [update_self] at hcaller
     cases hcaller
     rfl
   · rw [msgrcv_tooBig hq hmax hchoose (Int.not_le.mp hfits)] at hcall
     cases hcall

end Ipc

/--
The call takes the message that is asked for, waits or returns `ENOMSG` only if there is
none, and returns `E2BIG` with the queue unchanged, exactly if `mtype` is not negative or
the messages are in order.
-/
theorem msgrcv_selects_iff (s : Ipc) (t id : Nat) (mtype : Int) (q : MsgQueue)
  (hq : s.queues id = some q) (hnodup : (q.message.map Parcel.serial).Nodup)
  (htypes : forall x, x ∈ q.message -> 1 ≤ x.msg.mtype) :
  s.Selects t id mtype q ↔ 0 ≤ mtype ∨ InOrder (-mtype) q.message := by
 have hright : choose mtype none q.message = wanted mtype q.message ↔
  0 ≤ mtype ∨ InOrder (-mtype) q.message := by
  by_cases hneg : mtype < 0
  · have hiff := choose_eq_wanted_iff (-mtype) (by omega) hnodup.of_map htypes
    rw [Int.neg_neg] at hiff
    rw [hiff, or_iff_right (by omega)]
  refine iff_of_true ?_ (.inl (by omega))
  rw [choose_eq_find? (by omega), wanted, if_pos (by omega)]
 rw [← hright]
 exact ⟨Ipc.choose_of_selects hq,
  fun h msgp msgsz nowait hsize => Ipc.receives_of_choose hq hsize hnodup h⟩

/-- A queue with messages of some types, one after the other. -/
def typedQueue (types : List Int) : MsgQueue :=
 { MsgQueue.new with
   message := types.zipIdx.map (fun x => ⟨x.2, ⟨x.1, 0, fun _ => 0, []⟩⟩)
   sumMsg := types.length }

/-- Of the types 3, 1 and 2 the call for -3 takes 1: the bound has fallen to 1 behind it. -/
theorem msgrcv_selects_behind :
  (Ipc.boot.setQueue 0 (typedQueue [3, 1, 2])).Selects 1 0 (-3) (typedQueue [3, 1, 2]) := by
 refine (msgrcv_selects_iff _ 1 0 (-3) _ rfl (by decide) (by decide)).mpr (.inr (.inr ?_))
 exact ⟨[⟨0, ⟨3, 0, fun _ => 0, []⟩⟩], _, _, rfl, by decide, by decide, _, Sublist.refl _,
  ⟨by decide, trivial⟩, by decide⟩

/-- With messages of the types 1 and 2, the one of type 2 is taken for -3. -/
theorem msgrcv_selects_higher :
  ¬ (Ipc.boot.setQueue 0 (typedQueue [1, 2])).Selects 1 0 (-3) (typedQueue [1, 2]) := by
 intro h
 have hserial := congrArg (Option.map Parcel.serial) (Ipc.choose_of_selects rfl h)
 revert hserial
 decide

end OSLab.Common
