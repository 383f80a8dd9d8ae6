import OSLab.Kernel.Console
import Mathlib.Logic.Function.Iterate

/-!
# Killing a line

The loop for `C('U')` looks at the slots below `e`, and the last of them is slot `w`, which
has the end of the line before.
-/

namespace OSLab.Kernel
open Foundation TransitionSystem

def back (slot : Nat) : Nat := usizePred slot % inputBuf

namespace Input
variable {s : Input}

def OneLine (s : Input) (steps : Nat) : Prop :=
 exists d, d < steps ∧ back^[d] s.e = s.w ∧ forall i, i < d -> s.buf (back^[i + 1] s.e) ≠ newline

theorem killLine_loop_iff (fuel : Nat) :
  (exists next, loop killRound fuel s = some next ∧ next.e = next.w) ↔ s.OneLine fuel := by
 induction fuel generalizing s with
 | zero =>
  refine iff_of_false ?_ ?_
  · rintro ⟨_, h, _⟩
    cases h
  rintro ⟨d, hd, _⟩
  exact Nat.not_lt_zero d hd
 | succ fuel ih =>
  by_cases hcond : s.e ≠ s.w ∧ s.buf (back s.e) ≠ newline
  · rw [loop_again (show killRound s = some (.again s.eraseLast) from if_pos hcond), ih]
    constructor
    · rintro ⟨d, hd, hw, hslots⟩
      refine ⟨d + 1, Nat.succ_lt_succ hd, hw, ?_⟩
      intro i hi
      cases i with
      | zero => exact hcond.right
      | succ i => exact hslots i (Nat.lt_of_succ_lt_succ hi)
    rintro ⟨d, hd, hw, hslots⟩
    cases d with
    | zero => exact absurd hw hcond.left
    | succ d =>
     exact ⟨d, Nat.lt_of_succ_lt_succ hd, hw, fun i hi => hslots (i + 1) (Nat.succ_lt_succ hi)⟩
  rw [loop_done (show killRound s = some (.done s) from if_neg hcond)]
  constructor
  · rintro ⟨next, hnext, hw⟩
    cases hnext
    exact ⟨0, Nat.succ_pos fuel, hw, nofun⟩
  rintro ⟨d, _, hw, hslots⟩
  refine ⟨s, rfl, ?_⟩
  cases d with
  | zero => exact hw
  | succ d => exact Classical.byContradiction fun hne => hcond ⟨hne, hslots 0 (Nat.succ_pos d)⟩

end Input

theorem console_kill_line_iff (s : Console) (current : Option Nat) :
  (exists next, s.intr ctrlU current = some next ∧ next.input.e = next.input.w) ↔
    s.input.OneLine (inputBuf + 1) := by
 rw [← Input.killLine_loop_iff]
 change (exists next, s.input.killLine.map _ = some next ∧ _) ↔ _
 constructor
 · rintro ⟨next, hkill, hw⟩
   rcases Option.map_eq_some_iff.mp hkill with ⟨input, hinput, rfl⟩
   exact ⟨input, hinput, hw⟩
 · rintro ⟨input, hinput, hw⟩
   exact ⟨_, Option.map_eq_some_iff.mpr ⟨input, hinput, rfl⟩, hw⟩

open ConsoleLabel in
/-- A second line stays as it is. -/
theorem console_kill_second_line : exists s, Reachable consoleSystem unguarded s ∧
    (s.input.e ≠ s.input.w ∧ (s.intr ctrlU none).any (fun next => next.input.e = s.input.e)) := by
 have hboot : consoleSystem.initial Console.boot := rfl
 exact exists_reachable_with hboot [intr 97 none, intr 10 none, intr 98 none] (by decide +kernel)

end OSLab.Kernel
