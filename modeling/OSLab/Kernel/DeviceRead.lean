import OSLab.Common.SleepLock
import OSLab.Kernel.Console
import Mathlib.Data.UInt

/-!
# Reading a device file

Processes that call `fileread` on files of the console.  `console_read` releases the inode
that `fileread` has locked.  It locks it again before it returns, but not when a kill ends
its wait.
-/

namespace OSLab.Kernel
open Common Foundation TransitionSystem Function

/-- Where a process is in `fileread`, with the file and the bytes asked for or read. -/
inductive FileCall where
 | outside
 | locking (f n : Nat)
 | locked (f n : Nat)
 | unlocked (f n : Nat)
 | reading (f : Nat)
 | relocking (f r : Nat)
 | relocked (f r : Nat)
deriving DecidableEq

namespace FileCall

def place : FileCall -> LockPlace
 | locking _ _ | relocking _ _ => .waits
 | locked _ _ | relocked _ _ => .holds
 | outside | unlocked _ _ | reading _ => .away

def wake : FileCall -> FileCall
 | locking f n => locked f n
 | relocking f r => relocked f r
 | call => call

theorem place_wake {call : FileCall} (h : call.place = .waits) : call.wake.place = .holds := by
 cases call <;> first | rfl | cases h

end FileCall

/-- The console with the lock of its inode, and the files with their offsets. -/
structure DeviceFile where
 console : Console
 lock : Semaphore Nat
 off : Nat -> UInt64
 call : Nat -> FileCall

inductive FileStep where
 | fileread (f n : Nat)
 | unlock
 | enter
 | relock
 | finish

inductive FileLabel where
 | console (l : ConsoleLabel)
 | call (t : Nat) (act : FileStep)

namespace DeviceFile
variable (s : DeviceFile)

/-- `inodes.lock`; a killed process that had to wait would fail an assertion. -/
def inodeLock (t : Nat) (call : FileCall) : Option DeviceFile :=
 let waited := s.lock.waitSem t
 if waited.1 = false ∧ s.console.killed t = true then none
 else some { s with
  lock := waited.2
  call := update s.call t (if waited.1 then call.wake else call) }

def inodeUnlock (t : Nat) (call : FileCall) : DeviceFile :=
 let posted := s.lock.postSem
 { s with
   lock := posted.2
   call := fun u => if posted.1 = some u then (s.call u).wake else update s.call t call u }

/-- The end of `fileread`: `f->off += nread` and the release of the inode. -/
def close (t f : Nat) (nread : UInt64) : DeviceFile :=
 { s with off := update s.off f (s.off f + nread) }.inodeUnlock t .outside

/-- A step of a process in `fileread`, from where it is there and in `console_read`. -/
def advance (t : Nat) : FileStep -> FileCall -> Reader -> Option DeviceFile
 | .fileread f n, .outside, _ => s.inodeLock t (.locking f n)
 | .unlock, .locked f n, _ => some (s.inodeUnlock t (.unlocked f n))
 | .enter, .unlocked f n, _ => (s.console.step (.read t n)).map fun console =>
  { s with console := console, call := update s.call t (.reading f) }
 | .relock, .reading f, .returned r => s.inodeLock t (.relocking f r)
 | .finish, .relocked f r, _ => some (s.close t f (UInt64.ofNat r))
 | .finish, .reading f, .failed => some (s.close t f (-1))
 | _, _, _ => none

def step : FileLabel -> Option DeviceFile
 | .console (.read _ _) => none
 | .console l => (s.console.step l).map fun console => { s with console := console }
 | .call t act => s.advance t act (s.call t) (s.console.reader t)

/-- Nobody is in `fileread`; `ip->lock` is initialised with 1. -/
def idle (off : Nat -> UInt64) : DeviceFile where
 console := Console.boot
 lock := Semaphore.initSem 1
 off := off
 call := fun _ => .outside

end DeviceFile

def deviceSystem : TransitionSystem DeviceFile FileLabel where
 initial := fun s => exists off, s = DeviceFile.idle off
 step := DeviceFile.step

/-!
# A console whose readers all return
-/

namespace Console
variable {s next : Console} {t : Nat} {reader : Reader}

def Returns (s : Console) : Prop := forall t, s.reader t ≠ .failed

theorem Returns.update (h : s.Returns) (hreader : reader ≠ .failed) (u : Nat) :
  Function.update s.reader t reader u ≠ .failed := by
 intro hbad
 rcases of_update hbad with ⟨_, hbad⟩ | ⟨_, hbad⟩
 · exact hreader hbad
 · exact h u hbad

theorem returns_of_post (hnext : s.post = some next) (h : s.Returns) : next.Returns := by
 rcases Option.map_eq_some_iff.mp hnext with ⟨posted, _, rfl⟩
 intro t
 change (if posted.1 = some t then (s.reader t).wake else s.reader t) ≠ _
 have ht := h t
 split
 · cases hreader : s.reader t with
   | failed => exact absurd hreader ht
   | _ => nofun
 · exact ht

theorem returns_of_intrChar {c : UInt8} {current : Option Nat}
  (hnext : s.intrChar c current = some next) (h : s.Returns) : next.Returns := by
 unfold intrChar at hnext
 dsimp only at hnext
 repeat' split at hnext
 all_goals first
 | exact returns_of_post hnext h
 | (rcases Option.map_eq_some_iff.mp hnext with ⟨_, _, rfl⟩; exact h)
 | (cases hnext; cases current <;> exact h)

theorem Returns.finish (h : s.Returns) (n target : Nat) (result : Input × List UInt8 × Option Nat) :
  (s.finish t n target result).Returns :=
 h.update (by cases result.2.2 <;> nofun)

theorem Returns.step (h : s.Returns) {l : ConsoleLabel} (hl : forall t, l ≠ .reader t .giveUp)
  (hstep : s.step l = some next) : next.Returns := by
 cases l with
 | intr c current =>
  rcases Option.map_eq_some_iff.mp hstep with ⟨mid, hmid, rfl⟩
  have hmid : mid.Returns := returns_of_intrChar hmid h
  exact hmid
 | kill t =>
  cases hstep
  exact h
 | read t n =>
  rcases Option.ite_none_right_eq_some.mp hstep with ⟨_, hnext⟩
  cases hnext
  exact h.finish n n _
 | reader t act =>
  change s.advance t act (s.reader t) = some next at hstep
  cases act with
  | giveUp => exact absurd rfl (hl t)
  | waitLoad =>
   cases hreader : s.reader t <;> rw [hreader] at hstep <;> cases hstep
   exact h.update nofun
  | waitStore =>
   cases hreader : s.reader t <;> rw [hreader] at hstep <;> cases hstep
   exact h.update (by split <;> nofun)
  | resume =>
   cases hreader : s.reader t <;> rw [hreader] at hstep <;> cases hstep
   exact h.finish _ _ _

end Console

/-!
# Without a kill
-/

namespace DeviceFile

/-- No wait in `console_read` is ended by a kill, and no offset goes around. -/
def Undisturbed (s : DeviceFile) : FileLabel -> Prop
 | .console (.reader _ .giveUp) => False
 | .call t .finish => match s.call t with
  | .relocked f r => s.off f ≤ s.off f + UInt64.ofNat r
  | _ => True
 | _ => True

instance (s : DeviceFile) (l : FileLabel) : Decidable (s.Undisturbed l) := by
 unfold Undisturbed
 split
 · infer_instance
 · split <;> infer_instance
 · infer_instance

structure Balanced (s : DeviceFile) : Prop where
 returns : s.console.Returns
 exclusive : forall t u, (s.call t).place = .holds -> (s.call u).place = .holds -> t = u
 value : Exactly (fun t => (s.call t).place ≠ .away) (1 - s.lock.val)

def Sound (s : DeviceFile) : Prop :=
 s.console.Returns ∧
  exists line, s.lock.Guards line fun t => (s.call t).place

variable {s next : DeviceFile} {t : Nat} {call : FileCall} {line : List Nat}

theorem Sound.balanced (h : s.Sound) : s.Balanced := by
 rcases h with ⟨hreturns, line, hline⟩
 exact ⟨hreturns, fun t u => hline.exclusive, hline.counted⟩

theorem place_update (s : DeviceFile) (t : Nat) (call : FileCall) :
  (fun u => (update s.call t call u).place) = update (fun u => (s.call u).place) t call.place := by
 funext u
 by_cases hu : u = t
 · rw [hu, update_self, update_self]
 · rw [update_of_ne hu, update_of_ne hu]

section
variable (hline : s.lock.Guards line fun t => (s.call t).place)
include hline

theorem guards_inodeLock (haway : (s.call t).place = .away) (hcall : call.place = .waits)
  (hnext : s.inodeLock t call = some next) :
  next.console = s.console ∧ next.off = s.off ∧
    next.lock.Guards (t :: line) fun t => (next.call t).place := by
 unfold inodeLock at hnext
 dsimp only at hnext
 split at hnext
 · cases hnext
 cases hnext
 refine ⟨rfl, rfl, ?_⟩
 have hlock := hline.lock haway
 rw [place_update]
 cases hgot : (s.lock.waitSem t).1 with
 | true | false =>
  rw [hgot] at hlock
  simp only [FileCall.place_wake hcall, hcall, if_true, Bool.false_eq_true, if_false] at hlock ⊢
  exact hlock

theorem guards_inodeUnlock (hholds : (s.call t).place = .holds) (hcall : call.place = .away) :
  exists rest, (s.inodeUnlock t call).lock.Guards rest
    fun u => ((s.inodeUnlock t call).call u).place := by
 rcases List.getLast?_eq_some_iff.mp ((hline.holds t).mp hholds) with ⟨rest, rfl⟩
 refine ⟨rest, ?_⟩
 have hplaces : (fun u => ((s.inodeUnlock t call).call u).place) = fun u =>
   if s.lock.postSem.1 = some u then .holds
   else update (fun u => (s.call u).place) t .away u := by
  funext u
  change (if s.lock.postSem.1 = some u then (s.call u).wake
    else update s.call t call u).place = _
  split
  · next hwoken => exact FileCall.place_wake (hline.waits_of_woken hwoken)
  · rw [← hcall, ← place_update]
 rw [hplaces]
 exact hline.unlock
end

end DeviceFile

namespace DeviceFile
variable {s next : DeviceFile} {l : FileLabel}

theorem Sound.step (h : s.Sound) (hquiet : s.Undisturbed l) (hstep : s.step l = some next) :
  next.Sound ∧ forall f, s.off f ≤ next.off f := by
 rcases h with ⟨hreturns, line, hline⟩
 cases l with
 | console l =>
  have hnext : exists console, s.console.step l = some console ∧
    { s with console := console } = next := by
   cases l with
   | read t n => cases hstep
   | intr c current | kill t | reader t act => exact Option.map_eq_some_iff.mp hstep
  rcases hnext with ⟨console, hconsole, rfl⟩
  refine ⟨⟨Console.Returns.step hreturns ?_ hconsole, line, hline⟩, fun f => UInt64.le_refl _⟩
  rintro t rfl
  exact hquiet
 | call t act =>
  change s.advance t act (s.call t) (s.console.reader t) = some next at hstep
  have hquiet : act = .finish -> forall f r, s.call t = .relocked f r ->
    s.off f ≤ s.off f + UInt64.ofNat r := by
   rintro rfl f r hcall
   simpa only [Undisturbed, hcall] using hquiet
  have hreturn := hreturns t
  generalize hcall : s.call t = call at hstep hquiet
  generalize s.console.reader t = reader at hstep hreturn
  unfold advance at hstep
  split at hstep
  · rcases guards_inodeLock hline (congrArg _ hcall) rfl hstep with ⟨hconsole, hoff, hline⟩
    exact ⟨⟨hconsole ▸ hreturns, _, hline⟩, fun f => hoff ▸ UInt64.le_refl _⟩
  · cases hstep
    exact ⟨⟨hreturns, guards_inodeUnlock hline (congrArg _ hcall) rfl⟩, fun f => UInt64.le_refl _⟩
  · rcases Option.map_eq_some_iff.mp hstep with ⟨console, hconsole, rfl⟩
    refine ⟨⟨hreturns.step (fun _ h => by cases h) hconsole, line, ?_⟩, fun f => UInt64.le_refl _⟩
    have haway : (s.call t).place = .away := congrArg _ hcall
    rw [place_update]
    change s.lock.Guards line (update _ t .away)
    rwa [← haway, update_eq_self]
  · rcases guards_inodeLock hline (congrArg _ hcall) rfl hstep with ⟨hconsole, hoff, hline⟩
    exact ⟨⟨hconsole ▸ hreturns, _, hline⟩, fun f => hoff ▸ UInt64.le_refl _⟩
  · cases hstep
    refine ⟨⟨hreturns, guards_inodeUnlock hline (congrArg _ hcall) rfl⟩, fun g => ?_⟩
    change s.off g ≤ update s.off _ _ g
    rw [update_apply]
    split
    · next hg =>
      rw [hg]
      exact hquiet rfl _ _ rfl
    · exact UInt64.le_refl _
  · exact absurd rfl hreturn
  · cases hstep

theorem sound_idle (off : Nat -> UInt64) : (idle off).Sound :=
 ⟨fun _ => nofun, [], ⟨rfl, rfl⟩, List.nodup_nil,
  fun _ => iff_of_false (fun hne => hne rfl) List.not_mem_nil, fun _ => iff_of_false nofun nofun⟩

end DeviceFile

open DeviceFile

end OSLab.Kernel
