import OSLab.Fs.File.Ends

/-!
# Counting the references of open files

Without a failing `pipe2` no slot is lost, and `ref` is the number of descriptors that
point to a slot.  A call returns if it does not have to undo the allocation of a slot
and does not close a descriptor that is not open.
-/

namespace OSLab.Fs
open Foundation Function Files
namespace Files

def Points (s : Files) (f : Nat) (k : Pid × Nat) : Prop :=
 s.live k.1 = true ∧ k.2 < nofile ∧ s.fds k = some f

structure Counted (s : Files) : Prop where
 ref : forall f, f < nfile -> Exactly (s.Points f) (s.file f).ref
 free : forall f, f < nfile ->
  ((s.file f).type = .none ∧ (s.file f).ref = 0 ↔ forall k, ¬ s.Points f k)

variable {lost : List Nat} {s next : Files} {f : Nat} {p : Pid}

theorem Sound.points_iff (h : Sound lost s) (k : Pid × Nat) : s.Points f k ↔ s.fds k = some f := by
 constructor
 · intro hpoints
   exact hpoints.right.right
 intro hk
 have hentry := h.entry k f hk
 exact ⟨hentry.right.right, hentry.right.left, hk⟩

theorem Sound.counted (h : Sound [] s) : s.Counted := by
 constructor
 · intro f hf
   exact (h.exact f hf List.not_mem_nil).left.congr (fun k => h.points_iff k)
 intro f hf
 have hexact := h.exact f hf List.not_mem_nil
 constructor
 · intro hfree k hpoints
   have hpos := hexact.ref_pos hpoints.right.right
   rw [hfree.right] at hpos
   omega
 intro hnone
 have hzero : (s.file f).ref = 0 :=
  hexact.left.eq_zero (fun k hk => hnone k ((h.points_iff k).mpr hk))
 exact ⟨hexact.right.mpr hzero, hzero⟩

theorem boot_sound : Sound [] boot := by
 constructor
 · nofun
 · intro f _ _
   refine ⟨Exactly.zero ?_, fun _ => rfl, fun _ => rfl⟩
   nofun
 · nofun
 · exact List.nodup_nil

/-!
# Calls that return
-/

/-- A file without an inode, for which `inodes.put` would fail, keeps a descriptor. -/
def Kept (s : Files) (f : Nat) : Prop := (s.file f).ip = none -> 1 < (s.file f).ref

theorem Piped.fileclose_returns (h : s.Piped) (htype : (s.file f).type ≠ .none) (hkept : s.Kept f) :
  exists next, s.fileclose f = some next := by
 by_cases hlast : (s.file f).ref ≤ 1
 · have hip : (s.file f).ip.isSome := by
    cases hnone : (s.file f).ip with
    | some ip => rfl
    | none => exact absurd (hkept hnone) (Int.not_lt.mpr hlast)
   by_cases hpipe : (s.file f).type = .pipe
   · rcases h.held f hpipe with ⟨pi, ends, hpi, hends⟩
     exact ⟨_, fileclose_eq htype hlast hip (.inl ⟨hpipe, pi, ends, hpi, hends, rfl⟩)⟩
   · exact ⟨_, fileclose_eq htype hlast hip (.inr ⟨hpipe, rfl⟩)⟩
 · exact ⟨_, fileclose_more htype (by omega)⟩

/-- What the process has open and has no inode, others have open as well. -/
def ExitKept (s : Files) (p : Pid) : Prop :=
 forall i f, s.fds (p, i) = some f -> (s.file f).ip = none -> exists k, k.1 ≠ p ∧ s.fds k = some f

section
variable (h : Sound lost s) (hp : s.Piped)
include h hp

theorem Sound.closeFd_returns {i : Nat} (hkept : forall f, s.fds (p, i) = some f -> s.Kept f) :
  exists next, s.closeFd p i = some next := by
 unfold closeFd
 cases hentry : s.fds (p, i) with
 | none => exact ⟨s, rfl⟩
 | some f =>
  have htype := (h.exact_of_entry hentry).type_ne hentry
  rcases hp.fileclose_returns htype (hkept f hentry) with ⟨closed, hclosed⟩
  refine ⟨closed.setFd (p, i) none, ?_⟩
  simp only
  rw [hclosed]
  rfl

theorem Sound.closeFirst_returns (hkept : s.ExitKept p) (n : Nat) :
  exists next, s.closeFirst p n = some next := by
 induction n with
 | zero => exact ⟨s, rfl⟩
 | succ n ih =>
  rcases ih with ⟨mid, hmid⟩
  rcases closeFirst_moves anyTerms lost (fun _ _ _ _ _ _ => trivial) hmid with ⟨hmoves, hempty⟩
  have hround : forall f, mid.fds (p, n) = some f -> mid.Kept f := by
   intro f hf hnone
   have hbefore : s.fds (p, n) = some f := by rw [← hempty.later n (Nat.le_refl n), hf]
   rw [(hempty.file f).left] at hnone
   rcases hkept n f hbefore hnone with ⟨k, hk, hother⟩
   exact h.shared_round hmid hf hk hother
  rcases (h.moves hmoves).closeFd_returns (hp.moves hmoves) hround with ⟨next, hnext⟩
  refine ⟨next, ?_⟩
  rw [closeFirst_succ, hmid]
  exact hnext

theorem Sound.exit_returns (hkept : s.ExitKept p) : exists next, s.exit p = some next := by
 rcases h.closeFirst_returns hp hkept nofile with ⟨closed, hclosed⟩
 unfold closeFirst at hclosed
 unfold exit
 rw [hclosed]
 exact ⟨_, rfl⟩

theorem Sound.close_returns {fd : Int}
  (hopen : inRange fd -> exists f, s.fds (p, fd.toNat) = some f ∧ s.Kept f) :
  exists result, s.close p fd = some result := by
 unfold close
 by_cases hrange : inRange fd = true
 · rcases hopen hrange with ⟨f, hentry, hkept⟩
   rw [if_pos hrange, hentry]
   have hset : (s.setFd (p, fd.toNat) none).Piped := hp.same (sameEnd_of_eq rfl) rfl
   have htype := (h.exact_of_entry hentry).type_ne hentry
   rcases hset.fileclose_returns (f := f) htype hkept with ⟨closed, hclosed⟩
   refine ⟨(0, closed), ?_⟩
   simp only
   rw [hclosed]
   rfl
 rw [if_neg hrange]
 exact ⟨_, rfl⟩
end

theorem dup_returns (s : Files) (p : Pid) (fd : Int) : exists result, s.dup p fd = some result := by
 unfold dup
 cases s.fd2file p fd with
 | none => exact ⟨_, rfl⟩
 | some f =>
  cases hfd : s.freeFd p with
  | none =>
   simp only [fdalloc_of_none hfd]
   exact ⟨_, rfl⟩
  | some fd' =>
   simp only [fdalloc_of_some hfd]
   exact ⟨_, rfl⟩

theorem chdir_returns (s : Files) (p : Pid) (found : Option (Nat × Bool)) :
  exists result, s.chdir p found = some result := by
 rcases found with _ | ⟨ip, isDirectory⟩
 · exact ⟨_, rfl⟩
 cases isDirectory with
 | true | false => exact ⟨_, rfl⟩

theorem freeSlot_of_free (h : s.Free f) : exists g, s.freeSlot = some g := by
 cases hslot : s.freeSlot with
 | some g => exact ⟨g, rfl⟩
 | none =>
  have hnot := firstIndex_none hslot h.left
  rw [decide_eq_true h.right] at hnot
  cases hnot

theorem freeFd_of_none {i : Nat} (hi : i < nofile) (hnone : s.fds (p, i) = none) :
  exists fd, s.freeFd p = some fd := by
 cases hfd : s.freeFd p with
 | some fd => exact ⟨fd, rfl⟩
 | none =>
  have hnot := firstIndex_none hfd hi
  rw [hnone] at hnot
  cases hnot

theorem openat_returns {found : Option Nat} (omode : BitVec 32)
  (h : found = none ∨ s.freeSlot = none ∨ exists i, s.Vacant (p, i)) :
  exists result, s.openat p found omode = some result := by
 unfold openat
 cases found with
 | none => exact ⟨_, rfl⟩
 | some ip =>
  simp only
  cases hslot : s.freeSlot with
  | none =>
   rw [filealloc_of_none (s := s.ask [.beginOp, .got ip, .lock ip]) hslot]
   exact ⟨_, rfl⟩
  | some f =>
   rw [filealloc_of_some (s := s.ask [.beginOp, .got ip, .lock ip]) hslot]
   simp only
   rcases h with hnone | hnone | ⟨i, hi⟩
   · cases hnone
   · rw [hslot] at hnone
     cases hnone
   rcases freeFd_of_none hi.left hi.right.right with ⟨fd, hfd⟩
   rw [fdalloc_of_some (s := (s.ask [.beginOp, .got ip, .lock ip]).take f) hfd]
   exact ⟨_, rfl⟩

/-!
# Room for a pipe
-/

def TwoSlots (s : Files) : Prop := exists f g, f ≠ g ∧ s.Free f ∧ s.Free g

def TwoFds (s : Files) (p : Pid) : Prop := exists i j, i ≠ j ∧ s.Vacant (p, i) ∧ s.Vacant (p, j)

theorem TwoSlots.other (h : s.TwoSlots) (f : Nat) : exists g, g ≠ f ∧ s.Free g := by
 rcases h with ⟨a, b, hne, ha, hb⟩
 by_cases heq : a = f
 · exact ⟨b, fun hbf => hne (heq.trans hbf.symm), hb⟩
 · exact ⟨a, heq, ha⟩

theorem TwoFds.other (h : s.TwoFds p) (i : Nat) : exists j, j ≠ i ∧ s.Vacant (p, j) := by
 rcases h with ⟨a, b, hne, ha, hb⟩
 by_cases heq : a = i
 · exact ⟨b, fun hbi => hne (heq.trans hbi.symm), hb⟩
 · exact ⟨a, heq, ha⟩

theorem TwoFds.second (h : s.TwoFds p) (f0 fd0 : Nat) :
  exists fd1, (s.setFd (p, fd0) (some f0)).freeFd p = some fd1 := by
 rcases h.other fd0 with ⟨j, hj, hvacant⟩
 have hnone : (s.setFd (p, fd0) (some f0)).fds (p, j) = none := by
  change update s.fds (p, fd0) (some f0) (p, j) = none
  rw [update_of_ne (fun heq => hj (Prod.mk.inj heq).right)]
  exact hvacant.right.right
 exact freeFd_of_none hvacant.left hnone

theorem pipe2_returns (pi : Nat) (hslots : s.TwoSlots) (hfds : s.TwoFds p) :
  exists next, s.pipe2 p (some pi) = some (0, next) := by
 have hsome := hslots
 rcases hsome with ⟨_, _, _, hfree, _⟩
 rcases freeSlot_of_free hfree with ⟨f0, hf0⟩
 rcases hslots.other f0 with ⟨g, hg, hfreeg⟩
 have hfree1 : (s.take f0).Free g := by
  refine ⟨hfreeg.left, ?_⟩
  rw [take_file_of_ne hg]
  exact hfreeg.right
 rcases freeSlot_of_free hfree1 with ⟨f1, hf1⟩
 have hvacant := hfds
 rcases hvacant with ⟨_, _, _, hi, _⟩
 rcases freeFd_of_none hi.left hi.right.right with ⟨fd0, hfd0⟩
 rcases hfds.second f0 fd0 with ⟨fd1, hfd1⟩
 unfold pipe2 pipeAlloc
 rw [filealloc_of_some hf0]
 simp only
 rw [filealloc_of_some hf1]
 simp only
 rw [fdalloc_of_some (s := ((s.take f0).take f1).initPipe f0 f1 pi) hfd0]
 simp only
 rw [fdalloc_of_some (s := (((s.take f0).take f1).initPipe f0 f1 pi).setFd (p, fd0) (some f0)) hfd1]
 exact ⟨_, rfl⟩

theorem pipe2_of_full (h : s.freeSlot = none) (p : Pid) (memory : Option Nat) :
  s.pipe2 p memory = some (-1, s) := by
 unfold pipe2 pipeAlloc
 rw [filealloc_of_none h]
 simp only [filealloc_of_none h]

/-!
# Runs
-/

/--
What a call finds: if it gets a slot it also gets everything else that it needs, what it
closes is open, and no file without an inode loses its last descriptor.
-/
def Roomy (s : Files) : FileLabel -> Prop
 | .openat p found _ => found = none ∨ s.freeSlot = none ∨ exists i, s.Vacant (p, i)
 | .close p fd => inRange fd = true -> exists f, s.fds (p, fd.toNat) = some f ∧ s.Kept f
 | .pipe2 p memory => s.freeSlot = none ∨ s.TwoSlots ∧ memory ≠ none ∧ s.TwoFds p
 | .exit p => p ≠ 0 ∧ s.ExitKept p
 | _ => True

variable {l : FileLabel}

theorem Sound.call_returns (h : Sound lost s) (hp : s.Piped)
  (hroomy : s.Roomy l) : exists r next, s.call l = some (r, next) ∧ FileLabel.keeps r s l := by
 cases l with
 | openat p found omode =>
  rcases openat_returns omode hroomy with ⟨⟨r, next⟩, hresult⟩
  exact ⟨r, next, hresult, trivial⟩
 | dup p fd =>
  rcases dup_returns s p fd with ⟨⟨r, next⟩, hresult⟩
  exact ⟨r, next, hresult, trivial⟩
 | close p fd =>
  rcases h.close_returns hp hroomy with ⟨⟨r, next⟩, hresult⟩
  exact ⟨r, next, hresult, trivial⟩
 | pipe2 p memory =>
  rcases hroomy with hfull | ⟨hslots, hmemory, hfds⟩
  · exact ⟨-1, s, pipe2_of_full hfull p memory, .inr hfull⟩
  cases memory with
  | none => exact absurd rfl hmemory
  | some pi =>
   rcases pipe2_returns pi hslots hfds with ⟨next, hnext⟩
   exact ⟨0, next, hnext, .inl rfl⟩
 | chdir p found =>
  rcases chdir_returns s p found with ⟨⟨r, next⟩, hresult⟩
  exact ⟨r, next, hresult, trivial⟩
 | fork p child =>
  refine ⟨child, s.fork p child, ?_, trivial⟩
  unfold call
  simp only
 | exit p =>
  rcases h.exit_returns hp hroomy.right with ⟨next, hnext⟩
  refine ⟨0, next, ?_, trivial⟩
  unfold call
  simp only
  rw [if_neg hroomy.left, hnext]
  rfl

structure Whole (s : Files) : Prop where
 sound : Sound [] s
 piped : s.Piped

theorem Whole.quiet (h : s.Whole) : ({ s with calls := [] } : Files).Whole := by
 constructor
 · exact h.sound.congr rfl rfl (fun k f hk => (h.sound.entry k f hk).right.right)
 · exact h.piped.same (sameEnd_of_eq rfl) rfl

theorem boot_whole : boot.Whole := ⟨boot_sound, boot_piped⟩

theorem step_of_call {r : Int} (hpossible : s.possible l)
  (hcall : ({ s with calls := [] } : Files).call l = some (r, next)) :
  filesSystem.step s l = some next := by
 change s.step l = some next
 unfold step
 rw [if_pos hpossible, hcall]
 rfl

theorem Whole.call_step (h : s.Whole) (hpossible : s.possible l) (hroomy : s.Roomy l) :
  exists r next, ({ s with calls := [] } : Files).call l = some (r, next) ∧
    filesSystem.step s l = some next ∧ next.Whole ∧ (r = -1 -> s.SameTables next) := by
 have hquiet := h.quiet
 have hroomy' : ({ s with calls := [] } : Files).Roomy l := by
  cases l <;> exact hroomy
 have hpossible' : ({ s with calls := [] } : Files).possible l := by
  cases l <;> exact hpossible
 rcases hquiet.sound.call_returns hquiet.piped hroomy' with ⟨r, next, hcall, hkeeps⟩
 have hstep := step_of_call hpossible hcall
 rcases call_moves hquiet.sound hpossible' (anyTerms_met _ l) hcall with ⟨lost', hmoves, hkept⟩
 rcases hkept hkeeps with ⟨hlost, hsame⟩
 rw [hlost] at hmoves
 exact ⟨r, next, hcall, hstep, ⟨hquiet.sound.moves hmoves, hquiet.piped.moves hmoves⟩, hsame⟩

theorem possible_of_step (h : s.step l = some next) : s.possible l := by
 unfold step at h
 split at h
 · rename_i hpossible
   exact hpossible
 · cases h

theorem whole_of_reaches {start : Files} (h : start.Whole)
  (hrun : filesSystem.Reaches Roomy start s) : s.Whole := by
 refine TransitionSystem.reaches_invariant Whole ?_ hrun h
 intro s l next _ hs hroomy hstep
 rcases hs.call_step (possible_of_step hstep) hroomy with ⟨_, next', _, hstep', hwhole, _⟩
 rw [hstep] at hstep'
 rw [Option.some.inj hstep']
 exact hwhole

end Files

/--
In a run in which every call has room, the references are counted, every further call
that has room returns, and a call that fails leaves the slots and descriptors alone.
-/
theorem refs_counted_of_reachable {s : Files} (hreach : filesSystem.Reachable Files.Roomy s) :
  s.Counted ∧ forall l, s.possible l = true -> s.Roomy l ->
    exists r next, ({ s with calls := [] } : Files).call l = some (r, next) ∧
      filesSystem.step s l = some next ∧ next.Counted ∧ (r = -1 -> s.SameTables next) := by
 rcases hreach with ⟨start, hstart, hrun⟩
 have hwhole : s.Whole := by
  apply whole_of_reaches _ hrun
  rw [show start = boot from hstart]
  exact boot_whole
 refine ⟨hwhole.sound.counted, ?_⟩
 intro l hpossible hroomy
 rcases hwhole.call_step hpossible hroomy with ⟨r, next, hcall, hstep, hnext, hsame⟩
 exact ⟨r, next, hcall, hstep, hnext.sound.counted, hsame⟩

/-!
# A process with many descriptors

The first process opens a file three times, closes two of the descriptors again and copies
the first one until only one is left.  Then `pipe2` gets two slots and one descriptor,
closes the read end again and forgets the write end.
-/

namespace Files
variable {s next : Files} {f : Nat} {p : Pid}

theorem Lost.not_counted (h : s.Lost f) (hf : f < nfile) : ¬ s.Counted := by
 intro hcounted
 have hpoints : forall k, ¬ s.Points f k := fun k hk => h.right k hk.right.right
 have hfree := (hcounted.free f hf).mpr hpoints
 rw [h.left] at hfree
 cases hfree.right

theorem Whole.pipe2_loses {f0 f1 fd0 : Nat} (pi : Nat) (h : s.Whole) (hp : s.live p)
  (hpi : s.pipes pi = none) (hf0 : s.freeSlot = some f0)
  (hf1 : (s.take f0).freeSlot = some f1) (hip : (s.file f0).ip ≠ none)
  (hfd0 : s.freeFd p = some fd0) (hfd1 : (s.setFd (p, fd0) (some f0)).freeFd p = none) :
  exists next, s.pipe2 p (some pi) = some (-1, next) ∧ f1 < nfile ∧ next.Lost f1 := by
 have hfree1 := free_of_freeSlot hf1
 have hgives : Moves anyTerms [] s [f1] _ := pipe2_gives h.sound hp (free_of_freeSlot hf0)
  hfree1 hpi ⟨trivial, trivial, trivial⟩ hfd0
 have hopen : inRange (fd0 : Int) -> exists f,
  ((((s.take f0).take f1).initPipe f0 f1 pi).setFd (p, fd0) (some f0)).fds
   (p, (fd0 : Int).toNat) = some f ∧
  ((((s.take f0).take f1).initPipe f0 f1 pi).setFd (p, fd0) (some f0)).Kept f := by
  intro _
  refine ⟨f0, update_self .., fun hnone => absurd ?_ hip⟩
  have hne := not_free_of_take hfree1
  change ((((s.take f0).take f1).initPipe f0 f1 pi).file f0).ip = none at hnone
  rw [initPipe_read hne, take_file_of_ne hne,
   show (s.take f0).file f0 = { s.file f0 with ref := 1 } from update_self ..] at hnone
  exact hnone
 rcases (h.sound.moves hgives).close_returns (h.piped.moves hgives) hopen with ⟨⟨r, next⟩, hclose⟩
 have hmoves : Moves anyTerms [f1] _ [f1] next := (close_moves (fun _ _ => trivial) hclose).left
 have hsound := (h.sound.moves hgives).moves hmoves
 refine ⟨next, ?_, hsound.missing f1 List.mem_cons_self⟩
 unfold pipe2 pipeAlloc
 rw [filealloc_of_some hf0]
 simp only
 rw [filealloc_of_some hf1]
 simp only
 rw [fdalloc_of_some (s := ((s.take f0).take f1).initPipe f0 f1 pi) hfd0]
 simp only
 rw [fdalloc_of_none (s := (((s.take f0).take f1).initPipe f0 f1 pi).setFd (p, fd0) (some f0)) hfd1]
 simp only
 rw [hclose]
 rfl

/-- The first process has `n` descriptors; the slots 1 and 2 have been used for files. -/
structure Crowded (n : Nat) (s : Files) : Prop where
 reach : filesSystem.Reachable Roomy s
 live : s.live 0 = true
 first : s.fds (0, 0) = some 0
 used : forall i, i < n -> (s.fds (0, i)).isSome = true
 vacant : forall i, i < nofile -> n ≤ i -> s.fds (0, i) = none
 pipe : s.pipes 7 = none
 open_ : 0 < (s.file 0).ref
 closed : forall f, f = 1 ∨ f = 2 -> (s.file f).ref = 0 ∧ (s.file f).ip = some 2

variable {n : Nat}

theorem Crowded.whole (h : Crowded n s) : s.Whole := by
 rcases h.reach with ⟨start, hstart, hrun⟩
 apply whole_of_reaches _ hrun
 rw [show start = boot from hstart]
 exact boot_whole

theorem Crowded.freeFd (h : Crowded n s) (hn : n < nofile) : s.freeFd 0 = some n := by
 refine List.find?_range_eq_some.mpr ⟨?_, List.mem_range.mpr hn, ?_⟩
 · rw [h.vacant n hn (Nat.le_refl n)]
   rfl
 intro j hj
 rw [← Option.not_isSome, h.used j hj]
 rfl

theorem Crowded.slots (h : Crowded n s) :
  s.freeSlot = some 1 ∧ (s.take 1).freeSlot = some 2 := by
 have hopen := h.open_
 constructor
 · refine List.find?_range_eq_some.mpr ⟨?_, List.mem_range.mpr (by decide), ?_⟩
   · exact decide_eq_true (h.closed 1 (.inl rfl)).left
   intro j hj
   rw [show j = 0 by omega, Bool.not_eq_true', decide_eq_false_iff_not]
   omega
 · refine List.find?_range_eq_some.mpr ⟨?_, List.mem_range.mpr (by decide), ?_⟩
   · rw [take_file_of_ne (by decide)]
     exact decide_eq_true (h.closed 2 (.inr rfl)).left
   intro j hj
   rw [Bool.not_eq_true', decide_eq_false_iff_not]
   by_cases hone : j = 1
   · rw [hone]
     change ¬ (update s.file 1 { s.file 1 with ref := 1 } 1).ref = 0
     rw [update_self]
     exact one_ne_zero
   rw [take_file_of_ne hone, show j = 0 by omega]
   omega

theorem Crowded.dup (h : Crowded n s) (hpos : 0 < n) (hn : n < nofile) :
  exists next, Crowded (n + 1) next := by
 have hfd := h.freeFd hn
 have hstep : filesSystem.step s (.dup 0 0) =
  some ((({ s with calls := [] } : Files).setFd (0, n) (some 0)).filedup 0) := by
  apply step_of_call (r := n)
  · unfold possible
    rw [show FileLabel.caller (.dup 0 0) = 0 from rfl, h.live]
    rfl
  change Files.dup _ 0 0 = _
  unfold Files.dup
  rw [show ({ s with calls := [] } : Files).fd2file 0 0 = some 0 from h.first]
  simp only
  rw [fdalloc_of_some (s := { s with calls := [] }) hfd]
 rcases h.reach with ⟨start, hstart, hrun⟩
 refine ⟨_, ⟨⟨start, hstart, hrun.tail (l := .dup 0 0) trivial hstep⟩,
  h.live, ?_, ?_, ?_, h.pipe, ?_, ?_⟩⟩
 · change update s.fds (0, n) (some 0) (0, 0) = _
   rw [update_of_ne (fun heq => Nat.ne_of_lt hpos (Prod.mk.inj heq).right)]
   exact h.first
 · intro i hi
   change (update s.fds (0, n) (some 0) (0, i)).isSome = true
   by_cases heq : i = n
   · rw [heq, update_self]
     rfl
   · rw [update_of_ne (fun h => heq (Prod.mk.inj h).right)]
     exact h.used i (by omega)
 · intro i hi hle
   change update s.fds (0, n) (some 0) (0, i) = none
   rw [update_of_ne (fun h => absurd (Prod.mk.inj h).right (by omega))]
   exact h.vacant i hi (by omega)
 · change 0 < (update s.file 0 _ 0).ref
   rw [update_self]
   exact Int.lt_add_one_of_le (Int.le_of_lt h.open_)
 · intro f hf
   change (update s.file 0 _ f).ref = 0 ∧ (update s.file 0 _ f).ip = some 2
   rw [update_of_ne (by omega)]
   exact h.closed f hf

/-- A test for `Roomy`, for opening files and for closing those that have an inode. -/
def roomyTest (s : Files) : FileLabel -> Bool
 | .openat p _ _ => s.live p && (s.freeFd p).isSome
 | .close p fd => (s.fds (p, fd.toNat)).any (fun f => (s.file f).ip.isSome)
 | _ => false

theorem roomy_of_test {l : FileLabel} (h : s.roomyTest l) : s.Roomy l := by
 cases l with
 | openat p found omode =>
  rcases Bool.and_eq_true_iff.mp h with ⟨hlive, hsome⟩
  rcases Option.isSome_iff_exists.mp hsome with ⟨i, hi⟩
  exact .inr (.inr ⟨i, vacant_of_freeFd hlive hi⟩)
 | close p fd =>
  rcases (Option.any_eq_true _ _).mp h with ⟨f, hf, hip⟩
  refine fun _ => ⟨f, hf, fun hnone => ?_⟩
  rw [hnone] at hip
  cases hip
 | _ => cases h

theorem crowded_one : exists s, Crowded 1 s := by
 have hboot : filesSystem.initial boot := rfl
 rcases TransitionSystem.exists_reachable_of_execute filesSystem
  (fun s l => s.roomyTest l = true) hboot
  [.openat 0 (some 2) 0, .openat 0 (some 2) 0, .openat 0 (some 2) 0, .close 0 2, .close 0 1]
  (fun s : Files => s.live 0 = true ∧ s.fds (0, 0) = some 0 ∧
   (forall i, i < nofile -> 1 ≤ i -> s.fds (0, i) = none) ∧ s.pipes 7 = none ∧
   0 < (s.file 0).ref ∧ ((s.file 1).ref = 0 ∧ (s.file 1).ip = some 2) ∧
   (s.file 2).ref = 0 ∧ (s.file 2).ip = some 2)
  (by decide +kernel) with ⟨s, hreach, hlive, hfirst, hvacant, hpipe, hopen, hone, htwo⟩
 refine ⟨s, TransitionSystem.reachable_mono (fun _ _ => roomy_of_test) hreach, hlive, hfirst,
  ?_, hvacant, hpipe, hopen, ?_⟩
 · intro i hi
   rw [show i = 0 by omega, hfirst]
   rfl
 · rintro f (rfl | rfl)
   · exact hone
   · exact htwo

/-- Descriptors are copied one after the other, and there is room for each of them. -/
theorem exists_crowded (hpos : 0 < n) (hn : n ≤ nofile) : exists s, Crowded n s := by
 induction n with
 | zero => cases hpos
 | succ n ih =>
  cases n with
  | zero => exact crowded_one
  | succ n =>
   rcases ih (Nat.succ_pos n) (by omega) with ⟨s, hs⟩
   exact hs.dup (Nat.succ_pos n) (by omega)

end Files

theorem refs_counted_crowded : exists s, filesSystem.Reachable Files.Roomy s ∧
    (forall i, i < nofile -> (s.fds (0, i)).isSome = true) ∧ s.Counted := by
 rcases exists_crowded (n := nofile) (by decide) (Nat.le_refl _) with ⟨s, hs⟩
 exact ⟨s, hs.reach, hs.used, (refs_counted_of_reachable hs.reach).left⟩

theorem pipe2_loses_slot :
  exists s next, filesSystem.Reachable TransitionSystem.unguarded s ∧ s.Counted ∧
    ({ s with calls := [] } : Files).pipe2 0 (some 7) = some (-1, next) ∧
    filesSystem.step s (FileLabel.pipe2 0 (some 7)) = some next ∧
    (next.file 2).ref = 1 ∧ (forall k, next.fds k ≠ some 2) ∧ ¬ next.Counted := by
 rcases exists_crowded (n := 127) (by decide) (by decide) with ⟨s, hs⟩
 have hreach : filesSystem.Reachable TransitionSystem.unguarded s :=
  TransitionSystem.reachable_mono (fun _ _ _ => trivial) hs.reach
 have hfd1 : (s.setFd (0, 127) (some 1)).freeFd 0 = none := by
  refine List.find?_eq_none.mpr ?_
  intro i hi
  have hlt := List.mem_range.mp hi
  change ¬ (update s.fds (0, 127) (some 1) (0, i)).isNone = true
  by_cases heq : i = 127
  · rw [heq, update_self]
    exact Bool.false_ne_true
  rw [update_of_ne (fun h => heq (Prod.mk.inj h).right), ← Option.not_isSome,
   hs.used i (by unfold nofile at hlt; omega)]
  exact Bool.false_ne_true
 have hip : (s.file 1).ip ≠ none := by
  rw [(hs.closed 1 (.inl rfl)).right]
  nofun
 rcases hs.whole.quiet.pipe2_loses 7 hs.live hs.pipe hs.slots.left hs.slots.right hip
  (hs.freeFd (by decide)) hfd1 with ⟨next, hcall, hrange, hlost⟩
 have hpossible : s.possible (.pipe2 0 (some 7)) := by
  unfold possible
  rw [show FileLabel.caller (.pipe2 0 (some 7)) = 0 from rfl, hs.live, Bool.true_and]
  exact Option.isNone_iff_eq_none.mpr hs.pipe
 exact ⟨s, next, hreach, hs.whole.sound.counted, hcall, step_of_call hpossible hcall,
  hlost.left, hlost.right, hlost.not_counted hrange⟩

end OSLab.Fs
