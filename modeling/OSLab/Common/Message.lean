import Mathlib.Data.Nat.Init

/-!
# Messages

`load_msg` and `store_msg` of `common/ipc.c`, and the parts of `sys_msgsnd` and
`sys_msgrcv` around them.  A message has one page with its header and a page for every
further segment.  The pages are given in the order in which `kalloc_page` returns them,
each with what it held before; if none is left then `kalloc_page` returns null.
-/

namespace OSLab.Common
open Except

abbrev Chars := Nat -> UInt8

def memcpy (dst : Chars) (start : Nat) (src : Chars) (origin n : Nat) : Chars :=
 fun i => if start ≤ i ∧ i < start + n then src (origin + (i - start)) else dst i

def msgMsgsz : Nat := 4064

def msgMsgsegsz : Nat := 4088

structure MsgBuf where
 mtype : Int
 data : Chars

structure Msg where
 mtype : Int
 size : Int
 data : Chars
 segs : List Chars

namespace Msg

def eNoMem : Int := -1

def eInval : Int := -5

def eAgain : Int := -6

def eIdrm : Int := -7

def e2Big : Int := -8

def eNoMsg : Int := -9

/-- The loop of `load_msg` at `src + pos`: the segments and the pages that are left. -/
def loadSegs (src : Chars) : List Chars -> Nat -> Nat -> Option (List Chars × List Chars)
 | [], len, _ => if len = 0 then some ([], []) else none
 | page :: pages, len, pos =>
  if len = 0 then
   some ([], page :: pages)
  else
   let copied := min msgMsgsegsz len
   let left := len - copied
   (loadSegs src pages left (pos + min msgMsgsegsz left)).map fun loaded =>
    (memcpy page 0 src pos copied :: loaded.1, loaded.2)

/-- `load_msg`; the pointer moves on by a length that has been reduced already. -/
def loadMsg (pages : List Chars) (msgp : MsgBuf) (len : Nat) : Option (Msg × List Chars) :=
 match pages with
 | [] => none
 | page :: pages =>
  let copied := min msgMsgsz len
  let left := len - copied
  (loadSegs msgp.data pages left (min msgMsgsz left)).map fun loaded =>
   ({ mtype := msgp.mtype, size := len, data := memcpy page 0 msgp.data 0 copied
      segs := loaded.1 }, loaded.2)

def prepare (pages : List Chars) (msgp : MsgBuf) (msgsz : Int) : Except Int (Msg × List Chars) :=
 if msgsz < 0 ∨ msgp.mtype < 1 then
  error eInval
 else
  match loadMsg pages msgp msgsz.toNat with
  | none => error eNoMem
  | some loaded => ok loaded

/-- The loop of `store_msg` at `dst + pos`; no result stands for a null segment. -/
def storeSegs : List Chars -> Chars -> Nat -> Nat -> Option Chars
 | [], dst, _, msgsz => if msgsz = 0 then some dst else none
 | seg :: segs, dst, pos, msgsz =>
  if msgsz = 0 then
   some dst
  else
   let copied := min msgsz msgMsgsegsz
   let left := msgsz - copied
   storeSegs segs (memcpy dst pos seg 0 copied) (pos + min left msgMsgsegsz) left

def storeMsg (dstg : MsgBuf) (msg : Msg) (msgsz : Nat) : Option MsgBuf :=
 let copied := min msgsz msgMsgsz
 let left := msgsz - copied
 (storeSegs msg.segs (memcpy dstg.data 0 msg.data 0 copied) (min msgMsgsz left) left).map
  fun data => { mtype := msg.mtype, data := data }

/-- The end of `sys_msgrcv`, with the message that it has found. -/
def deliver (msgp : MsgBuf) (msgsz : Int) (found : Msg) : Option (Int × MsgBuf) :=
 let msgsz := min msgsz found.size
 (storeMsg msgp found msgsz.toNat).map fun out => (msgsz, out)

/-!
# What the loops copy

Both loops go wrong in the same way: when the rest is shorter than a segment they move on
by the rest, so that the last piece is copied from and to the same wrong place.
-/

def Copied : Nat -> Nat -> Nat -> Nat -> Prop
 | 0, _, _, _ => False
 | n + 1, len, pos, i =>
  (pos ≤ i ∧ i < pos + min msgMsgsegsz len) ∨ Copied n (len - min msgMsgsegsz len)
    (pos + min msgMsgsegsz (len - min msgMsgsegsz len)) i

instance decidableCopied : (n len pos i : Nat) -> Decidable (Copied n len pos i)
 | 0, _, _, _ => isFalse id
 | n + 1, len, pos, i =>
  have := decidableCopied n (len - min msgMsgsegsz len)
   (pos + min msgMsgsegsz (len - min msgMsgsegsz len)) i
  inferInstanceAs (Decidable (_ ∨ _))

variable {start origin n i : Nat}

theorem memcpy_apply_of_mem {dst src : Chars} (hlow : start ≤ i)
  (hhigh : i < start + n) : memcpy dst start src origin n i = src (origin + (i - start)) :=
 if_pos ⟨hlow, hhigh⟩

theorem memcpy_apply_of_not_mem {dst src : Chars}
  (h : ¬ (start ≤ i ∧ i < start + n)) : memcpy dst start src origin n i = dst i :=
 if_neg h

theorem memcpy_memcpy (dst page src : Chars) (pos n i : Nat) :
  memcpy dst pos (memcpy page 0 src pos n) 0 n i =
    if pos ≤ i ∧ i < pos + n then src i else dst i := by
 split
 · rename_i h
   rw [memcpy_apply_of_mem h.left h.right, memcpy_apply_of_mem (Nat.zero_le _) (by omega)]
   congr 1
   omega
 rename_i h
 exact memcpy_apply_of_not_mem h

variable {pages segs rest : List Chars}

theorem storeSegs_loadSegs {src : Chars} {len pos : Nat}
  (h : loadSegs src pages len pos = some (segs, rest)) (dst : Chars) :
  storeSegs segs dst pos len =
    some (fun i => if Copied segs.length len pos i then src i else dst i) := by
 induction pages generalizing len pos segs rest dst with
 | nil =>
  unfold loadSegs at h
  split at h
  · rename_i hlen
    cases h
    unfold storeSegs
    rw [if_pos hlen]
    rfl
  · cases h
 | cons page pages ih =>
  unfold loadSegs at h
  split at h
  · rename_i hlen
    cases h
    unfold storeSegs
    rw [if_pos hlen]
    rfl
  rename_i hlen
  rcases Option.map_eq_some_iff.mp h with ⟨⟨tail, rest'⟩, htail, ⟨⟩⟩
  unfold storeSegs
  rw [if_neg hlen]
  dsimp only
  rw [Nat.min_comm len, Nat.min_comm (len - min msgMsgsegsz len), ih htail]
  congr 1
  funext i
  rw [memcpy_memcpy]
  by_cases hlater : Copied tail.length (len - min msgMsgsegsz len)
   (pos + min msgMsgsegsz (len - min msgMsgsegsz len)) i
  · have hcopied : Copied (tail.length + 1) len pos i := .inr hlater
    rw [if_pos hlater, List.length_cons, if_pos hcopied]
  · rw [if_neg hlater]
    by_cases hhere : pos ≤ i ∧ i < pos + min msgMsgsegsz len
    · have hcopied : Copied (tail.length + 1) len pos i := .inl hhere
      rw [if_pos hhere, List.length_cons, if_pos hcopied]
    have hnot : ¬ Copied (tail.length + 1) len pos i := fun h => h.elim hhere hlater
    rw [if_neg hhere, List.length_cons, if_neg hnot]

theorem Copied.bounds {n len pos i : Nat} (h : Copied n len pos i) : pos ≤ i ∧ i < pos + len := by
 induction n generalizing len pos with
 | zero => exact absurd h id
 | succ n ih =>
  rcases h with hhere | hlater
  · omega
  have hbounds := ih hlater
  omega

theorem copied_of_whole {src : Chars} {len pos i : Nat}
  (h : loadSegs src pages len pos = some (segs, rest))
  (hlen : len % msgMsgsegsz = 0 ∨ len < msgMsgsegsz) (hlow : pos ≤ i) (hhigh : i < pos + len) :
  Copied segs.length len pos i := by
 induction pages generalizing len pos segs rest with
 | nil =>
  unfold loadSegs at h
  split at h
  · omega
  · cases h
 | cons page pages ih =>
  unfold loadSegs at h
  split at h
  · omega
  rcases Option.map_eq_some_iff.mp h with ⟨⟨tail, rest'⟩, htail, ⟨⟩⟩
  unfold msgMsgsegsz at hlen
  by_cases hhere : i < pos + min msgMsgsegsz len
  · exact .inl ⟨hlow, hhere⟩
  right
  apply ih htail
  · unfold msgMsgsegsz
    omega
  · omega
  unfold msgMsgsegsz at hhere ⊢
  omega

theorem not_copied_last {n len pos : Nat} (hlen : len % msgMsgsegsz ≠ 0)
  (hlong : msgMsgsegsz < len) : ¬ Copied n len pos (pos + len - 1) := by
 induction n generalizing len pos with
 | zero => exact id
 | succ n ih =>
  unfold msgMsgsegsz at hlen hlong
  rintro (hhere | hlater)
  · unfold msgMsgsegsz at hhere
    omega
  · have hmin : min msgMsgsegsz len = 4088 := by
     unfold msgMsgsegsz
     omega
    rw [hmin] at hlater
    by_cases hshort : len - 4088 < 4088
    · have hbounds := hlater.bounds
      omega
    have hmin' : min msgMsgsegsz (len - 4088) = 4088 := by omega
    rw [hmin'] at hlater
    have hplace : pos + len - 1 = pos + 4088 + (len - 4088) - 1 := by omega
    rw [hplace] at hlater
    exact ih (by unfold msgMsgsegsz; omega) (by unfold msgMsgsegsz; omega) hlater

/-!
# The round trip
-/

def RoundTrip (len : Nat) : Prop :=
 forall pages msgp msg left buf msgsz,
  prepare pages msgp len = ok (msg, left) -> (len : Int) ≤ msgsz ->
  exists out, deliver buf msgsz msg = some ((len : Int), out) ∧ out.mtype = msgp.mtype ∧
   forall i, i < len -> out.data i = msgp.data i

def Whole (len : Nat) : Prop :=
 (len - msgMsgsz) % msgMsgsegsz = 0 ∨ (msgMsgsz ≤ len - msgMsgsz ∧ len - msgMsgsz < msgMsgsegsz)

instance (len : Nat) : Decidable (Whole len) := inferInstanceAs (Decidable (_ ∨ _))

variable {pages left : List Chars} {msgp : MsgBuf} {len : Nat} {msg : Msg}

section
variable (h : prepare pages msgp len = ok (msg, left))
include h

theorem prepare_ok : exists page rest segs, pages = page :: rest ∧
    loadSegs msgp.data rest (len - msgMsgsz) (min msgMsgsz (len - msgMsgsz)) = some (segs, left) ∧
    msg = { mtype := msgp.mtype, size := len
            data := memcpy page 0 msgp.data 0 (min msgMsgsz len), segs := segs } := by
 unfold prepare at h
 split at h
 · cases h
 rw [Int.toNat_natCast] at h
 cases hload : loadMsg pages msgp len with
 | none =>
  rw [hload] at h
  cases h
 | some loaded =>
  rw [hload] at h
  cases h
  cases pages with
  | nil => cases hload
  | cons page rest =>
   have hleft : len - min msgMsgsz len = len - msgMsgsz := by omega
   unfold loadMsg at hload
   dsimp only at hload
   rw [hleft] at hload
   rcases Option.map_eq_some_iff.mp hload with ⟨⟨segs, left'⟩, hsegs, ⟨⟩⟩
   exact ⟨page, rest, segs, rfl, hsegs, rfl⟩

theorem deliver_prepare {msgsz : Int} (hsize : (len : Int) ≤ msgsz) (buf : MsgBuf) :
  exists out, deliver buf msgsz msg = some ((len : Int), out) ∧ out.mtype = msgp.mtype ∧
    forall i, out.data i = if i < min msgMsgsz len ∨
          Copied msg.segs.length (len - msgMsgsz) (min msgMsgsz (len - msgMsgsz)) i then
        msgp.data i
      else
        buf.data i := by
 rcases prepare_ok h with ⟨page, rest, segs, _, hload, rfl⟩
 have hmin : min msgsz (len : Int) = len := Int.min_eq_right hsize
 have hleft : len - min len msgMsgsz = len - msgMsgsz := by omega
 unfold deliver storeMsg
 dsimp only
 rw [hmin, Int.toNat_natCast, hleft, Nat.min_comm len, storeSegs_loadSegs hload]
 refine ⟨_, rfl, rfl, ?_⟩
 intro i
 dsimp only
 rw [memcpy_memcpy]
 by_cases hlater : Copied segs.length (len - msgMsgsz) (min msgMsgsz (len - msgMsgsz)) i
 · rw [if_pos hlater, if_pos (.inr hlater)]
 rw [if_neg hlater]
 by_cases hhere : i < min msgMsgsz len
 · rw [if_pos ⟨Nat.zero_le i, by omega⟩, if_pos (.inl hhere)]
 · rw [if_neg (by omega), if_neg (fun h => h.elim hhere hlater)]
end

theorem prepare_size {msgsz : Int}
  (h : prepare pages msgp msgsz = ok (msg, left)) : msg.size = msgsz := by
 have hnonneg : 0 ≤ msgsz := by
  unfold prepare at h
  split at h
  · cases h
  · omega
 rw [← Int.toNat_of_nonneg hnonneg] at h
 rcases prepare_ok h with ⟨page, rest, segs, _, _, rfl⟩
 exact Int.toNat_of_nonneg hnonneg

theorem loadSegs_some (src : Chars) (pages : List Chars) (pos : Nat)
  (henough : len ≤ pages.length) : exists loaded, loadSegs src pages len pos = some loaded := by
 induction pages generalizing len pos with
 | nil =>
  unfold loadSegs
  rw [if_pos (Nat.le_zero.mp henough)]
  exact ⟨_, rfl⟩
 | cons page pages ih =>
  unfold loadSegs
  split
  · exact ⟨_, rfl⟩
  dsimp only
  have hless : len - min msgMsgsegsz len ≤ pages.length := by
   rw [List.length_cons] at henough
   unfold msgMsgsegsz
   omega
  rcases ih (pos + min msgMsgsegsz (len - min msgMsgsegsz len)) hless with ⟨loaded, heq⟩
  rw [heq]
  exact ⟨_, rfl⟩

theorem prepare_of_loadSegs (page : Chars) {rest segs left : List Chars} (hmtype : 1 ≤ msgp.mtype)
  (h : loadSegs msgp.data rest (len - msgMsgsz) (min msgMsgsz (len - msgMsgsz)) =
    some (segs, left)) :
  exists msg, prepare (page :: rest) msgp len = ok (msg, left) := by
 have hleft : len - min msgMsgsz len = len - msgMsgsz := by omega
 unfold prepare
 rw [if_neg (by omega), Int.toNat_natCast]
 unfold loadMsg
 dsimp only
 rw [hleft, h]
 exact ⟨_, rfl⟩

end Msg

theorem message_round_trip_iff (len : Nat) : Msg.RoundTrip len ↔ Msg.Whole len := by
 constructor
 · intro h
   by_cases hwhole : Msg.Whole len
   · exact hwhole
   -- A message of ones for a buffer of zeros: the last byte stays zero.
   exfalso
   let msgp : MsgBuf := { mtype := 1, data := fun _ => 1 }
   let page : Chars := fun _ => 0
   have hpages : len - msgMsgsz ≤ (List.replicate len page).length := by
    rw [List.length_replicate]
    exact Nat.sub_le len msgMsgsz
   rcases Msg.loadSegs_some msgp.data _ (min msgMsgsz (len - msgMsgsz)) hpages with
    ⟨⟨segs, left⟩, hload⟩
   rcases Msg.prepare_of_loadSegs page (Int.le_refl 1) hload with ⟨msg, hprepare⟩
   rcases h _ msgp msg left { mtype := 0, data := page } len hprepare (Int.le_refl _) with
    ⟨out, hout, _, hdata⟩
   rcases Msg.deliver_prepare hprepare (Int.le_refl _) { mtype := 0, data := page } with
    ⟨out', hout', _, hdata'⟩
   rw [hout] at hout'
   cases hout'
   unfold Msg.Whole msgMsgsz msgMsgsegsz at hwhole
   have hlast := hdata (len - 1) (by omega)
   rw [hdata', if_neg] at hlast
   · cases hlast
   rintro (hfirst | hcopied)
   · unfold msgMsgsz at hfirst
     omega
   · by_cases hshort : len - msgMsgsz < msgMsgsz
     · have hbounds := hcopied.bounds
       omega
     have hplace : len - 1 = min msgMsgsz (len - msgMsgsz) + (len - msgMsgsz) - 1 := by omega
     rw [hplace] at hcopied
     unfold msgMsgsz at hshort
     exact Msg.not_copied_last (by unfold msgMsgsz msgMsgsegsz; omega)
      (by unfold msgMsgsz msgMsgsegsz; omega) hcopied
 intro hwhole pages msgp msg left buf msgsz hprepare hsize
 rcases Msg.deliver_prepare hprepare hsize buf with ⟨out, hout, htype, hdata⟩
 refine ⟨out, hout, htype, ?_⟩
 intro i hi
 rw [hdata i, if_pos]
 by_cases hfirst : i < min msgMsgsz len
 · exact .inl hfirst
 right
 rcases Msg.prepare_ok hprepare with ⟨page, rest, segs, _, hload, rfl⟩
 unfold Msg.Whole at hwhole
 apply Msg.copied_of_whole hload
 · exact hwhole.imp_right And.right
 · omega
 unfold msgMsgsz msgMsgsegsz at hwhole
 unfold msgMsgsz at hfirst ⊢
 omega

/-- The last byte of 4065 does not reach the receiver. -/
theorem message_of_4065_bytes_is_cut : exists msg left out,
    Msg.prepare (List.replicate 2 fun _ => 0) { mtype := 1, data := fun _ => 1 } 4065 =
      ok (msg, left) ∧
    Msg.deliver { mtype := 0, data := fun _ => 0 } 4065 msg = some (4065, out) ∧
    out.data 4064 = 0 := by
 refine ⟨_, _, _, rfl, rfl, ?_⟩
 decide +kernel

end OSLab.Common
