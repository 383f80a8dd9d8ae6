import Mathlib.Logic.Basic

/-!
# States of processes

`enum procstate` of `kernel/proc.h` and the decision that `_activate_proc` takes.
-/

namespace OSLab.Kernel

inductive ProcState where
 | unused
 | runnable
 | running
 | sleeping
 | deepSleeping
 | zombie
deriving DecidableEq

namespace ProcState

/-- `_activate_proc` makes a process in this state runnable. -/
def activates (onalert : Bool) : ProcState -> Bool
 | unused | sleeping => true
 | deepSleeping => !onalert
 | runnable | running | zombie => false

def activate (onalert : Bool) (state : ProcState) : ProcState :=
 if state.activates onalert then runnable else state

theorem alert_deepSleeping : activate true deepSleeping = deepSleeping := rfl

end OSLab.Kernel.ProcState
