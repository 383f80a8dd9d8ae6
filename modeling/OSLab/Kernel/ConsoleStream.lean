import OSLab.Kernel.Console
import Mathlib.Data.List.Basic

/-!
# The input stream of the console

As long as a reader that comes out of its wait finds something to read, the index `r` does
not run around the ring unnoticed and `C('U')` erases the line, the readers take exactly
what the user has committed.
-/

namespace OSLab.Kernel
open Foundation TransitionSystem List Console
namespace Input

/--
The ring holds the characters that are not read and those that are still edited.  Taking
a `C('D')` back from the slot 0 leaves the index `r` at the largest value of `usize`.
-/
structure Holds (s : Input) (unread edit : List UInt8) : Prop where
 cursor : s.r < 128 ∨ s.r = 18446744073709551615 ∧ 0 < unread.length
 room : unread.length + edit.length ≤ 127
 w : s.w = (s.r + unread.length) % 128
 e : s.e = (s.r + unread.length + edit.length) % 128
 slots : forall i x, (unread ++ edit)[i]? = some x -> s.buf ((s.r + 1 + i) % 128) = x

variable {s : Input} {unread edit rest : List UInt8} {c : UInt8}

namespace Holds

section
variable (h : s.Holds unread edit)
include h

theorem empty_iff : s.r = s.w ↔ unread = [] := by
 have hcursor := h.cursor
 have hroom := h.room
 have hw := h.w
 rw [← length_eq_zero_iff]
 omega

theorem edit_empty_iff : s.e = s.w ↔ edit = [] := by
 have hcursor := h.cursor
 have hroom := h.room
 have hw := h.w
 have he := h.e
 rw [← length_eq_zero_iff]
 omega

theorem eraseLast (hedit : edit ≠ []) : s.eraseLast.Holds unread edit.dropLast := by
 have hpos : 0 < edit.length := length_pos_iff.mpr hedit
 have hlength : edit.dropLast.length = edit.length - 1 := length_dropLast
 have hcursor := h.cursor
 have hroom := h.room
 have he := h.e
 constructor
 · exact h.cursor
 · omega
 · exact h.w
 · rw [hlength]
   change usizePred s.e % inputBuf = (s.r + unread.length + (edit.length - 1)) % 128
   unfold usizePred inputBuf
   split <;> omega
 · intro i x hx
   apply h.slots i x
   have hsplit : unread ++ edit = unread ++ edit.dropLast ++ [edit.getLast hedit] := by
    rw [append_assoc, dropLast_append_getLast]
   rw [hsplit]
   have hlt : i < (unread ++ edit.dropLast).length := by
    rcases List.getElem?_eq_some_iff.mp hx with ⟨hlt, _⟩
    exact hlt
   rw [List.getElem?_append_left hlt]
   exact hx

theorem isFull_iff (hlow : s.r = 18446744073709551615 -> s.e < 126) :
  s.isFull = true ↔ inputBuf - 1 ≤ unread.length + edit.length := by
 have hcursor := h.cursor
 have hroom := h.room
 have he := h.e
 unfold isFull inputBuf
 rw [decide_eq_true_iff]
 omega

theorem store (hfull : unread.length + edit.length < 127) (c : UInt8) :
  (s.store c).Holds unread (edit ++ [c]) := by
 have hcursor := h.cursor
 have he := h.e
 have hslot : (s.e + 1) % 128 = (s.r + 1 + (unread.length + edit.length)) % 128 := by omega
 constructor
 · exact h.cursor
 · rw [length_append, length_singleton]
   omega
 · exact h.w
 · rw [length_append, length_singleton]
   change (s.e + 1) % 128 = (s.r + unread.length + (edit.length + 1)) % 128
   omega
 · intro i x hx
   change Function.update s.buf ((s.e + 1) % 128) c ((s.r + 1 + i) % 128) = x
   rw [← append_assoc] at hx
   have hlength : (unread ++ edit).length = unread.length + edit.length := length_append
   by_cases hi : i < unread.length + edit.length
   · have hne : (s.r + 1 + i) % 128 ≠ (s.e + 1) % 128 := by omega
     rw [getElem?_append_left (by omega)] at hx
     rw [Function.update_of_ne hne]
     exact h.slots i x hx
   rw [getElem?_append_right (by omega)] at hx
   rcases List.getElem?_eq_some_iff.mp hx with ⟨hlt, heq⟩
   rw [List.length_singleton] at hlt
   have hieq : i = unread.length + edit.length := by omega
   rw [hieq, ← hslot, Function.update_self]
   rw [hieq, hlength, Nat.sub_self] at hx
   cases hx
   rfl

theorem commit : s.commit.Holds (unread ++ edit) [] := by
 have hcursor := h.cursor
 have hroom := h.room
 have he := h.e
 constructor
 · rw [length_append]
   exact hcursor.imp_right fun hlow => ⟨hlow.left, Nat.lt_of_lt_of_le hlow.right (by omega)⟩
 · rw [length_append, length_nil]
   omega
 · rw [length_append]
   change s.e = (s.r + (unread.length + edit.length)) % 128
   omega
 · rw [length_append, length_nil]
   change s.e = (s.r + (unread.length + edit.length) + 0) % 128
   omega
 · rw [append_nil]
   exact h.slots

theorem unread_eq : s.unread = unread := by
 unfold Input.unread
 split
 · rename_i hempty
   exact (h.empty_iff.mp hempty).symm
 rename_i hsome
 have hcursor := h.cursor
 have hroom := h.room
 have hw := h.w
 have hcount : (s.w + 127 - s.r % inputBuf) % inputBuf + 1 = unread.length := by
  unfold inputBuf
  omega
 rw [hcount]
 apply ext_getElem
 · rw [length_map, length_range]
 intro i hi hlt
 rw [getElem_map, getElem_range]
 apply h.slots
 rw [getElem?_append_left hlt]
 exact getElem?_eq_getElem hlt
end

/-!
# Taking characters
-/

variable (h : s.Holds (c :: rest) edit)
include h

theorem next : s.buf ((s.r + 1) % inputBuf) = c := h.slots 0 c rfl

theorem pop : Holds { s with r := (s.r + 1) % inputBuf } rest edit := by
 have hcursor := h.cursor
 have hroom := h.room
 have hw := h.w
 have he := h.e
 rw [length_cons] at hcursor hroom hw he
 constructor
 · exact .inl (Nat.mod_lt _ (by decide))
 · omega
 · change s.w = ((s.r + 1) % 128 + rest.length) % 128
   omega
 · change s.e = ((s.r + 1) % 128 + rest.length + edit.length) % 128
   omega
 · intro i x hx
   have hslot : ((s.r + 1) % 128 + 1 + i) % 128 = (s.r + 1 + (i + 1)) % 128 := by omega
   change s.buf (((s.r + 1) % 128 + 1 + i) % 128) = x
   rw [hslot]
   exact h.slots (i + 1) x hx

theorem putBack : Holds { s with r := usizePred ((s.r + 1) % inputBuf) } (c :: rest) edit := by
 have hcursor := h.cursor
 have hroom := h.room
 have hw := h.w
 have he := h.e
 have hr : usizePred ((s.r + 1) % inputBuf) = s.r ∨
  usizePred ((s.r + 1) % inputBuf) = 18446744073709551615 ∧ s.r = 127 := by
  unfold usizePred inputBuf
  split <;> omega
 rcases hr with hr | ⟨hr, hlast⟩
 · rw [hr]
   exact { h with }
 rw [hr]
 constructor
 · exact .inr ⟨rfl, Nat.succ_pos _⟩
 · exact h.room
 · change s.w = (18446744073709551615 + _) % 128
   omega
 · change s.e = (18446744073709551615 + _ + _) % 128
   omega
 · intro i x hx
   have hslot : (18446744073709551615 + 1 + i) % 128 = (s.r + 1 + i) % 128 := by omega
   rw [hslot]
   exact h.slots i x hx

end Holds

def Takes (unread edit : List UInt8) (s : Input) (out : List UInt8) : Prop :=
 exists consumed left, unread = consumed ++ left ∧ s.Holds left edit ∧
  out = consumed.filter (fun x => decide (x ≠ ctrlD))

theorem Takes.nothing (h : s.Holds unread edit) : Takes unread edit s [] :=
 ⟨[], unread, rfl, h, rfl⟩

theorem Takes.append {mid next : Input} {out out' : List UInt8} (h : Takes unread edit mid out)
  (hrest : forall left, mid.Holds left edit -> Takes left edit next out') :
  Takes unread edit next (out ++ out') := by
 rcases h with ⟨consumed, left, rfl, hholds, rfl⟩
 rcases hrest left hholds with ⟨consumed', left', rfl, hholds', rfl⟩
 refine ⟨consumed ++ consumed', left', ?_, hholds', ?_⟩
 · rw [append_assoc]
 · rw [filter_append]

section
variable (h : s.Holds unread edit) (hsome : s.r ≠ s.w)
include h hsome

theorem takeChar_takes (first : Bool) :
  Takes unread edit (s.takeChar first).1 (s.takeChar first).2.1.toList := by
 cases unread with
 | nil => exact absurd (h.empty_iff.mpr rfl) hsome
 | cons c rest =>
  have hnext := h.next
  unfold takeChar
  dsimp only
  rw [hnext]
  split
  · rename_i hctrl
    cases first with
    | true =>
     refine ⟨[c], rest, rfl, h.pop, ?_⟩
     rw [hctrl]
     rfl
    | false => exact Takes.nothing h.putBack
  rename_i hother
  refine ⟨[c], rest, rfl, h.pop, ?_⟩
  exact (filter_cons_of_pos (p := fun x => decide (x ≠ ctrlD)) (l := [])
   (decide_eq_true hother)).symm

theorem readOn_takes {target n : Nat}
  (hloop : forall (s : Input) (unread : List UInt8), s.Holds unread edit ->
    Takes unread edit (s.readLoop target (n - 1)).1 (s.readLoop target (n - 1)).2.1) :
  Takes unread edit (s.readOn target n).1 (s.readOn target n).2.1 := by
 have htaken := takeChar_takes h hsome (decide (n = target))
 unfold readOn
 dsimp only
 split
 · exact htaken
 · exact htaken.append fun left hleft => hloop _ left hleft
end

theorem readLoop_succ (target n : Nat) (s : Input) : s.readLoop target (n + 1) =
      if s.r = s.w then (s, [], some (n + 1)) else s.readOn target (n + 1) := rfl

theorem readLoop_takes (target n : Nat) (s : Input) (unread : List UInt8)
  (h : s.Holds unread edit) :
  Takes unread edit (s.readLoop target n).1 (s.readLoop target n).2.1 := by
 induction n generalizing s unread with
 | zero => exact Takes.nothing h
 | succ n ih =>
  rw [readLoop_succ]
  split
  · exact Takes.nothing h
  rename_i hsome
  exact readOn_takes h hsome ih

/-!
# Erasing a line
-/

theorem Holds.last_slot (h : s.Holds unread edit) (hedit : edit ≠ [])
  (hline : newline ∉ edit) (hw : s.buf s.w ≠ newline) :
  s.buf (usizePred s.e % inputBuf) ≠ newline := by
 have hcursor := h.cursor
 have hroom := h.room
 have hw' := h.w
 have he := h.e
 have hpos : 0 < edit.length := length_pos_iff.mpr hedit
 by_cases hone : edit.length = 1
 · have hslot : usizePred s.e % inputBuf = s.w := by
    unfold usizePred inputBuf
    split <;> omega
   rw [hslot]
   exact hw
 have hlt : edit.length - 2 < edit.length := by omega
 have hslot : usizePred s.e % inputBuf =
  (s.r + 1 + (unread.length + (edit.length - 2))) % 128 := by
  unfold usizePred inputBuf
  split <;> omega
 rw [hslot, h.slots _ edit[edit.length - 2]]
 · exact fun heq => hline (heq ▸ getElem_mem hlt)
 rw [getElem?_append_right (Nat.le_add_right _ _), Nat.add_sub_cancel_left]
 exact getElem?_eq_getElem hlt

theorem killLine_loop (fuel : Nat) (h : s.Holds unread edit) (hfuel : edit.length < fuel)
  (hline : newline ∉ edit) (hw : s.e ≠ s.w -> s.buf s.w ≠ newline) :
  exists next, loop killRound fuel s = some next ∧ next.Holds unread [] := by
 induction fuel generalizing s edit with
 | zero => exact absurd hfuel (Nat.not_lt_zero _)
 | succ fuel ih =>
  by_cases hedit : edit = []
  · have hdone : killRound s = some (.done s) :=
     if_neg fun hcond => hcond.left (h.edit_empty_iff.mpr hedit)
    rw [hedit] at h
    exact ⟨s, loop_done hdone, h⟩
  have hne : s.e ≠ s.w := fun heq => hedit (h.edit_empty_iff.mp heq)
  have hagain : killRound s = some (.again s.eraseLast) :=
   if_pos ⟨hne, h.last_slot hedit hline (hw hne)⟩
  have hpos := length_pos_iff.mpr hedit
  rw [loop_again hagain]
  refine ih (h.eraseLast hedit) ?_ (fun hmem => hline (dropLast_subset _ hmem)) fun _ => hw hne
  rw [length_dropLast]
  omega

end Input

/-!
# Runs
-/

namespace Console

structure Streamed (s : Console) : Prop where
 stream : exists consumed, s.committed = consumed ++ s.input.unread ∧
  s.taken = consumed.filter (fun x => decide (x ≠ ctrlD))
 lost : s.lost = 0


def Flows (s : Console) : Prop :=
 s.lost = 0 ∧ newline ∉ s.line ∧ exists consumed unread, s.input.Holds unread s.line ∧
  s.committed = consumed ++ unread ∧
  s.taken = consumed.filter (fun x => decide (x ≠ ctrlD))

def Stored (c : UInt8) : Prop := c ≠ backspace ∧ c ≠ ctrlU ∧ c ≠ ctrlC

instance (c : UInt8) : Decidable (Stored c) := inferInstanceAs (Decidable (_ ∧ _ ∧ _))

/-- With `r` below 0 the test for a full ring does not work. -/
def Room (s : Console) (c : UInt8) : Prop :=
 s.input.r = 18446744073709551615 ->
  s.input.e < 125 ∨ s.input.e = 125 ∧ (c = newline ∨ c = ctrlD)

instance (s : Console) (c : UInt8) : Decidable (s.Room c) :=
 inferInstanceAs (Decidable (_ -> _))

def untouched : Reader -> Bool
 | .asleep n target => decide (target ≤ n)
 | _ => true

/--
A call comes out of its wait only if there is something to read, a character is stored
only if the test for a full ring works, `C('U')` comes only if the line before did not
end with a newline, and a call gives up only if it has taken no byte.
-/
def Careful (s : Console) : ConsoleLabel -> Prop
 | .intr c _ => (Stored (plain c) -> s.Room (plain c)) ∧
  (plain c = ctrlU -> s.input.e ≠ s.input.w -> s.input.buf s.input.w ≠ newline)
 | .reader _ .resume => s.input.r ≠ s.input.w
 | .reader t .giveUp => untouched (s.reader t) = true
 | _ => True

instance (s : Console) : (l : ConsoleLabel) -> Decidable (s.Careful l)
 | .intr _ _ => inferInstanceAs (Decidable ((_ -> _) ∧ (_ -> _ -> _)))
 | .reader _ .resume => inferInstanceAs (Decidable (_ ≠ _))
 | .reader _ .giveUp => inferInstanceAs (Decidable (_ = _))
 | .kill _ | .read _ _ | .reader _ .waitLoad | .reader _ .waitStore => isTrue trivial

variable {s next : Console} {c : UInt8} {t : Nat} {unread : List UInt8}

/-!
# Characters
-/

structure Edits (s : Console) (unread : List UInt8) (edit : List UInt8 × List UInt8)
  (next : Console) : Prop where
 holds : next.input.Holds (unread ++ edit.2) edit.1
 line : newline ∉ edit.1
 committed : next.committed = s.committed
 taken : next.taken = s.taken
 lost : next.lost = s.lost

theorem edits_of_line {line : List UInt8} {input : Input} (h : input.Holds unread line)
  (hline : newline ∉ line) : s.Edits unread (line, []) { s with input := input } := by
 refine ⟨?_, hline, rfl, rfl, rfl⟩
 rw [append_nil]
 exact h

theorem edits_of_commit {line : List UInt8} {input : Input} (h : input.Holds unread line)
  (hcommit : { s with input := input }.commit = some next) : s.Edits unread ([], line) next := by
 rcases Option.map_eq_some_iff.mp hcommit with ⟨posted, _, rfl⟩
 exact ⟨h.commit, not_mem_nil, rfl, rfl, rfl⟩

/-- The two tests for the end of a line: of the ring, and of what has been typed. -/
theorem line_ends_iff (hroom : s.Room c) (hd : c ≠ ctrlD)
  (hstored : (s.input.store c).Holds unread (s.line ++ [c])) :
  (c = newline ∨ (s.input.store c).isFull = true) ↔
   (c = ctrlD ∨ c = newline ∨ inputBuf - 1 ≤ unread.length + (s.line ++ [c]).length) := by
 rw [or_iff_right hd]
 by_cases hn : c = newline
 · exact iff_of_true (.inl hn) (.inl hn)
 rw [or_iff_right hn, or_iff_right hn]
 apply hstored.isFull_iff
 intro hr
 have he := hroom hr
 change (s.input.e + 1) % 128 < 126
 simp only [hn, hd, or_self, and_false, or_false] at he
 omega

section
variable (hholds : s.input.Holds unread s.line) (hline : newline ∉ s.line)
include hholds hline

theorem edits_of_back (hintr : some (if s.input.e ≠ s.input.w then
    { s with input := s.input.eraseLast } else s) = some next) :
  s.Edits unread (s.line.dropLast, []) next := by
 have hdrop : newline ∉ s.line.dropLast := fun hmem => hline (dropLast_subset _ hmem)
 cases hintr
 split
 · rename_i hne
   exact edits_of_line (hholds.eraseLast fun hnil => hne (hholds.edit_empty_iff.mpr hnil)) hdrop
 rename_i hsame
 have hnil := hholds.edit_empty_iff.mp (not_not.mp hsame)
 rw [hnil] at hholds ⊢
 exact edits_of_line hholds not_mem_nil

theorem edits_of_kill
  (hkill : s.input.e ≠ s.input.w -> s.input.buf s.input.w ≠ newline)
  (hintr : (s.input.killLine.map fun input => { s with input := input }) = some next) :
  s.Edits unread ([], []) next := by
 have hroom := hholds.room
 rcases Input.killLine_loop (inputBuf + 1) hholds (by unfold inputBuf; omega) hline hkill with
  ⟨input, hloop, hempty⟩
 rw [show s.input.killLine = some input from hloop] at hintr
 cases hintr
 exact edits_of_line hempty not_mem_nil

theorem edits_of_intrChar {current : Option Nat} (hroom : Stored c -> s.Room c)
  (hkill : c = ctrlU -> s.input.e ≠ s.input.w -> s.input.buf s.input.w ≠ newline)
  (hintr : s.intrChar c current = some next) : s.Edits unread (s.typed c) next := by
 unfold intrChar at hintr
 unfold typed
 rw [hholds.unread_eq]
 dsimp only
 by_cases hback : c = backspace
 · rw [if_pos hback] at hintr ⊢
   exact edits_of_back hholds hline hintr
 rw [if_neg hback] at hintr ⊢
 by_cases hu : c = ctrlU
 · rw [if_pos hu] at hintr ⊢
   exact edits_of_kill hholds hline (hkill hu) hintr
 rw [if_neg hu] at hintr ⊢
 by_cases hc : c = ctrlC
 · have hd : c ≠ ctrlD := by
    rw [hc]
    decide
   rw [if_neg hd, if_pos hc] at hintr
   rw [if_pos (.inl hc)]
   cases hintr
   cases current with
   | none | some t =>
    have hsame : s.Edits unread (s.line, []) s := edits_of_line hholds hline
    exact { hsame with }
 have hroom' := hroom ⟨hback, hu, hc⟩
 have hlow : s.input.r = 18446744073709551615 -> s.input.e < 126 := by
  intro hr
  have he := hroom' hr
  omega
 have hfull := hholds.isFull_iff hlow
 by_cases hmax : inputBuf - 1 ≤ unread.length + s.line.length
 · rw [if_pos (hfull.mpr hmax), if_neg hc, if_pos (hfull.mpr hmax), ite_self] at hintr
   rw [if_pos (.inr hmax)]
   cases hintr
   exact edits_of_line hholds hline
 have hnot : ¬ s.input.isFull = true := fun h => hmax (hfull.mp h)
 have hstored := hholds.store (Nat.lt_of_not_le hmax) c
 rw [if_neg hnot, if_neg hc, if_neg hnot] at hintr
 rw [if_neg (not_or.mpr ⟨hc, hmax⟩)]
 by_cases hd : c = ctrlD
 · rw [if_pos hd] at hintr
   rw [if_pos (.inl hd)]
   exact edits_of_commit hstored hintr
 rw [if_neg hd] at hintr
 have hiff := line_ends_iff hroom' hd hstored
 dsimp only at hintr
 by_cases hends : c = newline ∨ (s.input.store c).isFull = true
 · rw [if_pos hends] at hintr
   rw [if_pos (hiff.mp hends)]
   exact edits_of_commit hstored hintr
 rw [if_neg hends] at hintr
 rw [if_neg (fun h => hends (hiff.mpr h))]
 cases hintr
 refine edits_of_line hstored fun hmem => ?_
 rcases mem_append.mp hmem with hold | hnew
 · exact hline hold
 · exact hends (.inl (mem_singleton.mp hnew).symm)
end

/-!
# Steps
-/

section
variable (h : s.Flows)
include h

theorem Flows.streamed : s.Streamed := by
 rcases h with ⟨hlost, _, consumed, unread, hholds, hcommitted, htaken⟩
 refine ⟨⟨consumed, ?_, htaken⟩, hlost⟩
 rw [hholds.unread_eq]
 exact hcommitted

theorem Flows.finish {n target : Nat} {result : Input × List UInt8 × Option Nat}
  (htakes : forall unread edit, s.input.Holds unread edit ->
    Input.Takes unread edit result.1 result.2.1) : (s.finish t n target result).Flows := by
 rcases h with ⟨hlost, hline, consumed, unread, hholds, hcommitted, htaken⟩
 rcases htakes unread s.line hholds with ⟨more, left, hsplit, hholds', hout⟩
 refine ⟨hlost, hline, consumed ++ more, left, hholds', ?_, ?_⟩
 · change s.committed = _
   rw [hcommitted, hsplit, append_assoc]
 change s.taken ++ result.2.1 = _
 rw [htaken, hout, filter_append]

theorem Flows.giveUp {n target : Nat} (hnone : target ≤ n)
  (hstep : s.giveUp t n target = some next) : next.Flows := by
 unfold Console.giveUp at hstep
 split at hstep
 · rcases Option.map_eq_some_iff.mp hstep with ⟨sem, _, rfl⟩
   refine ⟨?_, h.right⟩
   change s.lost + (target - n) = 0
   rw [h.left, Nat.sub_eq_zero_of_le hnone]
 · cases hstep

theorem Flows.step {l : ConsoleLabel} (hcareful : s.Careful l)
  (hstep : s.step l = some next) : next.Flows := by
 cases l with
 | intr c current =>
  rcases Option.map_eq_some_iff.mp hstep with ⟨mid, hintr, rfl⟩
  rcases h with ⟨hlost, hline, consumed, unread, hholds, hcommitted, htaken⟩
  have hedits := edits_of_intrChar hholds hline hcareful.left hcareful.right hintr
  refine ⟨hedits.lost.trans hlost, hedits.line, consumed, _, hedits.holds, ?_, ?_⟩
  · change mid.committed ++ _ = _
    rw [hedits.committed, hcommitted, append_assoc]
  · exact hedits.taken.trans htaken
 | kill t =>
  cases hstep
  exact h
 | read t n =>
  rcases of_guard hstep with ⟨_, rfl⟩
  exact h.finish fun unread edit hholds => Input.readLoop_takes n n _ unread hholds
 | reader t act =>
  change s.advance t act (s.reader t) = some next at hstep
  unfold advance at hstep
  split at hstep
  · cases hstep
    exact h
  · cases hstep
    exact h
  · cases hstep
    rename_i n target _
    apply h.finish
    intro unread edit hholds
    exact Input.readOn_takes hholds hcareful (Input.readLoop_takes target (n - 1))
  · rename_i n target hreader
    have hnone : untouched (s.reader t) = true := hcareful
    rw [hreader] at hnone
    exact h.giveUp (of_decide_eq_true hnone) hstep
  · cases hstep
end

end Console

end OSLab.Kernel
