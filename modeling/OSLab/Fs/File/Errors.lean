import OSLab.Fs.File.CallMoves

/-!
# Calls that fail

A descriptor that is not open, and tables that are full.
-/

namespace OSLab.Fs
namespace Files
variable (s : Files)

/-- The checks of `sys_read`, `sys_write` and `sys_fstat`; `valid` is that of other arguments. -/
def withFile (p : Pid) (fd : Int) (valid : Bool)
  (rest : Nat -> Option (Int × Files)) : Option (Int × Files) :=
 match s.fd2file p fd with
 | none => some (-1, s)
 | some f => if valid then rest f else some (-1, s)

def read (p : Pid) (fd size : Int) (writeable : Bool)
  (fileread : Nat -> Option (Int × Files)) : Option (Int × Files) :=
 s.withFile p fd (decide (0 < size) && writeable) fileread

def write (p : Pid) (fd size : Int) (readable : Bool)
  (filewrite : Nat -> Option (Int × Files)) : Option (Int × Files) :=
 s.withFile p fd (decide (0 < size) && readable) filewrite

def fstat (p : Pid) (fd : Int) (writeable : Bool)
  (filestat : Nat -> Option (Int × Files)) : Option (Int × Files) :=
 s.withFile p fd writeable filestat

end Files

inductive FdCall where
 | close (fd : Int)
 | dup (fd : Int)
 | read (fd size : Int) (writeable : Bool) (fileread : Nat -> Option (Int × Files))
 | write (fd size : Int) (readable : Bool) (filewrite : Nat -> Option (Int × Files))
 | fstat (fd : Int) (writeable : Bool) (filestat : Nat -> Option (Int × Files))
 | openat (ip : Nat) (omode : BitVec 32)

/-- What was locked is unlocked, what was got is put, and what was begun is ended. -/
structure InodeCall.Balanced (calls : List InodeCall) : Prop where
 ops : calls.count .beginOp = calls.count .endOp
 locks : forall ip, calls.count (.lock ip) = calls.count (.unlock ip)
 refs : forall ip, calls.count (.got ip) = calls.count (.put (some ip))

theorem InodeCall.balanced_nil : InodeCall.Balanced [] := ⟨rfl, fun _ => rfl, fun _ => rfl⟩

namespace Files
variable (s : Files)

def fdCall (s : Files) (p : Pid) : FdCall -> Option (Int × Files)
 | .close fd => s.close p fd
 | .dup fd => s.dup p fd
 | .read fd size writeable fileread => s.read p fd size writeable fileread
 | .write fd size readable filewrite => s.write p fd size readable filewrite
 | .fstat fd writeable filestat => s.fstat p fd writeable filestat
 | .openat ip omode => s.openat p (some ip) omode

def Fails (s : Files) (p : Pid) : FdCall -> Prop
 | .close fd | .dup fd | .read fd _ _ _ | .write fd _ _ _ | .fstat fd _ _ => s.fd2file p fd = none
 | .openat _ _ => s.freeSlot = none ∨ s.freeFd p = none

/-- The call returns -1 and leaves the tables, the references and the locks as they were. -/
def Clean (s : Files) (p : Pid) (c : FdCall) : Prop :=
 exists asked, s.fdCall p c = some (-1, s.ask asked) ∧ InodeCall.Balanced asked

/-- `sys_close` has looked at the range, and `sys_openat` has no slot to give back. -/
def Handled (s : Files) : FdCall -> Prop
 | .close fd => inRange fd = false
 | .openat _ _ => s.freeSlot = none
 | _ => True

variable {s : Files} {p : Pid}

theorem clean_of_eq {c : FdCall} (h : s.fdCall p c = some (-1, s)) : s.Clean p c := by
 refine ⟨[], ?_, InodeCall.balanced_nil⟩
 rw [h, show s.ask [] = s by unfold ask; rw [List.append_nil]]

theorem withFile_none {fd : Int} (h : s.fd2file p fd = none) (valid : Bool)
  (rest : Nat -> Option (Int × Files)) : s.withFile p fd valid rest = some (-1, s) := by
 unfold withFile
 rw [h]

theorem clean_close_iff {fd : Int} (h : s.fd2file p fd = none) :
  s.Clean p (.close fd) ↔ inRange fd = false := by
 unfold fd2file at h
 cases hrange : inRange fd with
 | true =>
  rw [hrange] at h
  have hnone : s.close p fd = none := by
   unfold close
   rw [hrange, if_pos rfl, show s.fds (p, fd.toNat) = none from h]
  refine ⟨?_, nofun⟩
  rintro ⟨asked, hclean, _⟩
  cases hnone.symm.trans hclean
 | false =>
  refine ⟨fun _ => rfl, fun _ => clean_of_eq ?_⟩
  change s.close p fd = _
  unfold close
  rw [hrange, if_neg Bool.false_ne_true]

theorem clean_openat_iff {ip : Nat} {omode : BitVec 32}
  (h : s.freeSlot = none ∨ s.freeFd p = none) :
  s.Clean p (.openat ip omode) ↔ s.freeSlot = none := by
 unfold Clean fdCall openat filealloc
 dsimp only
 rw [show (s.ask [.beginOp, .got ip, .lock ip]).freeSlot = s.freeSlot from rfl]
 cases hslot : s.freeSlot with
 | none =>
  refine ⟨fun _ => rfl, fun _ => ⟨_, congrArg (fun x => some (-1, x)) (ask_ask s _ _), ?_⟩⟩
  refine ⟨rfl, fun a => ?_, fun a => ?_⟩
  all_goals
   by_cases ha : ip = a
   · rw [ha]
     simp
   · simp [ha]
 | some f =>
  have hfd := h.resolve_left (by rw [hslot]; exact nofun)
  refine ⟨?_, nofun⟩
  rintro ⟨asked, hclean, _⟩
  unfold fdalloc at hclean
  dsimp only at hclean
  rw [show ((s.ask [.beginOp, .got ip, .lock ip]).take f).freeFd p = s.freeFd p from rfl,
   hfd] at hclean
  rcases Option.map_eq_some_iff.mp hclean with ⟨closed, hclose, heq⟩
  have hfile : closed.file = s.file := congrArg (fun r => r.2.file) heq
  have htake : ((s.ask [.beginOp, .got ip, .lock ip]).take f).file f =
   { s.file f with ref := 1 } := Function.update_self ..
  rcases fileclose_some hclose with ⟨htype, ⟨hmore, _⟩ | ⟨_, _, pipes, _, hclosed⟩⟩
  · rw [htake] at hmore
    exact absurd hmore (Int.lt_irrefl 1)
  rw [htake] at htype
  refine absurd ?_ htype
  change (s.file f).type = .none
  rw [← hfile, hclosed]
  change File.type (Function.update (β := fun _ => File) _ f _ f) = _
  rw [Function.update_self]

end Files

open Files

/-- Eight processes have used up the file table; the process 8 has nothing open. -/
def fullTable : Files :=
 { boot with
   file := fun _ => { opened blank 2 oRdwr with ref := 1 }
   fds := fun k => if k.1 < 8 ∧ k.2 < nofile then some (nofile * k.1 + k.2) else none
   cwd := fun p => if p ≤ 8 then some rootInodeNo else none
   live := fun p => decide (p ≤ 8) }

end OSLab.Fs
