import OSLab.Fs.File.Counts

/-!
# References to inodes

The calls that the files make into the inode layer are answered by counting references.
Inodes are referred to by open files, by the working directories of the processes and by
`inodes.root`.  `fileclose` puts back the inode that the slot points to also if the slot
is a pipe and the pointer is left over from another file.
-/

namespace OSLab.Fs
open Foundation Function List Option InodeCall Files
namespace InodeCall

def named : InodeCall -> Bool
 | share ip | put ip => ip.isSome
 | _ => true

def change (a : Nat) : InodeCall -> Int
 | got ip => if some ip = some a then 1 else 0
 | share ip => if ip = some a then 1 else 0
 | put ip => if ip = some a then -1 else 0
 | _ => 0

def answer (rc : Nat -> Int) (c : InodeCall) : Option (Nat -> Int) :=
 if c.named then some (fun a => rc a + c.change a) else none

def tally (calls : List InodeCall) (a : Nat) : Int := (calls.map (change a)).sum

theorem tally_append (calls more : List InodeCall) (a : Nat) :
  InodeCall.tally (calls ++ more) a = InodeCall.tally calls a + InodeCall.tally more a := by
 unfold InodeCall.tally
 rw [map_append, sum_append]

theorem answer_all (calls : List InodeCall) (rc : Nat -> Int)
  (hnamed : forall c, c ∈ calls -> c.named) :
  calls.foldlM answer rc = some (fun a => rc a + InodeCall.tally calls a) := by
 induction calls generalizing rc with
 | nil => simp [InodeCall.tally]
 | cons c rest ih =>
  have hfirst : answer rc c = some (fun a => rc a + c.change a) := by
   unfold answer
   rw [if_pos (hnamed c mem_cons_self)]
  rw [foldlM_cons, hfirst]
  refine (ih _ (fun d hd => hnamed d (mem_cons_of_mem c hd))).trans ?_
  congr 1
  funext a
  simp only [InodeCall.tally, map_cons, sum_cons]
  omega

end InodeCall

inductive InodeHolder where
 | file (f : Nat)
 | cwd (p : Pid)
 | root
 deriving DecidableEq

namespace InodeHolder

theorem cwd_ne_file (p : Pid) (f : Nat) : cwd p ≠ file f := by
 nofun

theorem root_ne_file (f : Nat) : root ≠ file f := by
 nofun

theorem root_ne_cwd (p : Pid) : root ≠ cwd p := by
 nofun

end InodeHolder

namespace Files

def target (s : Files) : InodeHolder -> Option Nat
 | .file f => if f < nfile ∧ (s.file f).type = .inode then (s.file f).ip else none
 | .cwd p => if s.live p = true then s.cwd p else none
 | .root => some rootInodeNo

def sharedTerms : Terms where
 takes := fun _ _ => True
 pipes := fun _ _ _ => True
 closes := fun s f => (s.file f).type = .pipe -> 1 < (s.file f).ref

structure Owed (base : Nat -> Int) (s : Files) : Prop where
 exact : forall a, Exactly (fun h => s.target h = some a) (base a + InodeCall.tally s.calls a)
 named : forall c, c ∈ s.calls -> c.named = true
 file : forall f, (s.file f).type = .inode -> (s.file f).ip.isSome = true
 cwd : forall p, s.live p = true -> (s.cwd p).isSome = true

variable {base : Nat -> Int} {lost lost' : List Nat} {s next : Files} {f : Nat} {p : Pid}

theorem Owed.repoint (h : Owed base s) (k : InodeHolder)
  (x : Option Nat) (more : List InodeCall) (htarget : next.target = update s.target k x)
  (hcalls : next.calls = s.calls ++ more) (hnamed : forall c, c ∈ more -> c.named)
  (hmore : forall a, InodeCall.tally more a =
    (if x = some a then 1 else 0) - if s.target k = some a then 1 else 0)
  (hfile : forall f, (next.file f).type = .inode -> (next.file f).ip.isSome)
  (hcwd : forall p, next.live p -> (next.cwd p).isSome) : Owed base next := by
 refine ⟨?_, ?_, hfile, hcwd⟩
 · intro a
   have hexact := Custody.exactly_repoint (h.exact a) k x
   rw [htarget, hcalls, tally_append, hmore a]
   rw [show base a + (InodeCall.tally s.calls a + ((if x = some a then 1 else 0) -
    if s.target k = some a then 1 else 0)) = base a + InodeCall.tally s.calls a +
    (if x = some a then 1 else 0) - (if s.target k = some a then 1 else 0) by omega]
   exact hexact
 intro c hc
 rw [hcalls] at hc
 rcases mem_append.mp hc with hold | hnew
 · exact h.named c hold
 · exact hnamed c hnew

section
variable (h : Owed base s) (htarget : next.target = s.target)
include h htarget

theorem Owed.same (more : List InodeCall) (hcalls : next.calls = s.calls ++ more)
  (hnamed : forall c, c ∈ more -> c.named)
  (hmore : forall a, InodeCall.tally more a = 0)
  (hfile : forall f, (next.file f).type = .inode -> (next.file f).ip.isSome)
  (hcwd : forall p, next.live p -> (next.cwd p).isSome) : Owed base next := by
 apply h.repoint .root (some rootInodeNo) more _ hcalls hnamed _ hfile hcwd
 · rw [htarget]
   exact (update_eq_self .root s.target).symm
 intro a
 rw [hmore a]
 change (0 : Int) = (if some rootInodeNo = some a then 1 else 0) -
  (if some rootInodeNo = some a then 1 else 0)
 omega

theorem Owed.congr (hcalls : next.calls = s.calls)
  (hfile : forall f, (next.file f).type = .inode -> (next.file f).ip.isSome)
  (hcwd : forall p, next.live p -> (next.cwd p).isSome) : Owed base next := by
 have happend : next.calls = s.calls ++ [] := by rw [hcalls, append_nil]
 exact h.same htarget [] happend (fun c hc => nomatch hc) (fun _ => rfl) hfile hcwd
end

/-!
# Files
-/

theorem target_setFile {file : File} (hfile : next.file = update s.file f file)
  (hlive : next.live = s.live) (hcwd : next.cwd = s.cwd) :
  next.target = update s.target (.file f)
    (if f < nfile ∧ file.type = .inode then file.ip else none) := by
 funext k
 cases k with
 | file g =>
  by_cases hg : g = f
  · rw [hg, update_self]
    unfold target
    simp only
    rw [hfile, update_self]
  rw [update_of_ne (fun heq => hg (InodeHolder.file.inj heq))]
  unfold target
  simp only
  rw [hfile, update_of_ne hg]
 | cwd q =>
  rw [update_of_ne (InodeHolder.cwd_ne_file q f)]
  unfold target
  rw [hlive, hcwd]
 | root =>
  rw [update_of_ne (InodeHolder.root_ne_file f)]
  rfl

theorem target_of_eq (hfile : next.file = s.file) (hlive : next.live = s.live)
  (hcwd : next.cwd = s.cwd) : next.target = s.target := by
 funext k
 cases k with
 | file g =>
  unfold target
  rw [hfile]
 | cwd q =>
  unfold target
  rw [hlive, hcwd]
 | root => rfl

section
variable (h : Owed base s)
include h

theorem Owed.setFile {file : File}
  (hfile : next.file = update s.file f file) (hlive : next.live = s.live)
  (hcwd : next.cwd = s.cwd) (hcalls : next.calls = s.calls)
  (hsame : (s.file f).type ≠ .inode ∧ file.type ≠ .inode ∨
    file.type = (s.file f).type ∧ file.ip = (s.file f).ip) : Owed base next := by
 have hkept : (if f < nfile ∧ file.type = .inode then file.ip else none) = s.target (.file f) := by
  unfold target
  simp only
  rcases hsame with ⟨hbefore, hafter⟩ | ⟨htype, hip⟩
  · rw [if_neg (fun hand => hafter hand.right), if_neg (fun hand => hbefore hand.right)]
  · rw [htype, hip]
 refine h.congr ?_ hcalls ?_ ?_
 · rw [target_setFile hfile hlive hcwd, hkept, update_eq_self]
 · intro g hg
   rw [hfile] at hg ⊢
   by_cases hgf : g = f
   · rw [hgf, update_self] at hg ⊢
     rcases hsame with ⟨_, hafter⟩ | ⟨htype, hip⟩
     · exact absurd hg hafter
     rw [hip]
     exact h.file f (htype.symm.trans hg)
   rw [update_of_ne hgf] at hg ⊢
   exact h.file g hg
 rw [hlive, hcwd]
 exact h.cwd

theorem Owed.opens {ip : Nat} {k : Pid × Nat} {omode : BitVec 32}
  (hs : Sound lost s) (hf : s.Free f) : Owed base (s.openFile f k ip omode) := by
 have htype := hs.type_of_free hf
 have hfile : (s.openFile f k ip omode).file =
  update s.file f (opened { s.file f with ref := 1 } ip omode) := rfl
 refine h.repoint (.file f) (some ip)
  [.beginOp, .got ip, .lock ip, .unlock ip, .endOp] ?_ rfl ?_ ?_ ?_ ?_
 · rw [target_setFile hfile rfl rfl, if_pos ⟨hf.left, rfl⟩]
   rfl
 · simp [InodeCall.named]
 · intro a
   have hbefore : s.target (.file f) = none := by
    unfold target
    simp only
    rw [htype, if_neg (fun hand => nomatch hand.right)]
   rw [hbefore, if_neg (some_ne_none a).symm]
   simp [InodeCall.tally, change]
 · intro g hg
   change ((update s.file f _ g).type) = .inode at hg
   change ((update s.file f _ g).ip).isSome = true
   by_cases hgf : g = f
   · rw [hgf, update_self]
     rfl
   rw [update_of_ne hgf] at hg ⊢
   exact h.file g hg
 · exact h.cwd

theorem Owed.refuses {ip : Nat} : Owed base (s.refuse ip) := by
 refine h.same (target_of_eq rfl rfl rfl)
  [.beginOp, .got ip, .lock ip, .unlock ip, .put (some ip), .endOp] rfl ?_ ?_ ?_ ?_
 · simp [InodeCall.named]
 · intro a
   simp only [InodeCall.tally, change, map_cons, map_nil, sum_cons,
    sum_nil]
   split <;> rfl
 · exact h.file
 · exact h.cwd

theorem Owed.misses : Owed base (s.ask [.beginOp, .endOp]) := by
 refine h.same (target_of_eq rfl rfl rfl) [.beginOp, .endOp] rfl ?_ ?_ h.file h.cwd
 · simp [InodeCall.named]
 · simp [InodeCall.tally, change]

/-- The last reference to a file that is not a pipe goes. -/
theorem Owed.lastClosed (hf : f < nfile) (htype : (s.file f).type = .inode)
  (pipes : Nat -> Option PipeEnds) : Owed base (s.lastClosed f pipes) := by
 have hfile : (s.lastClosed f pipes).file =
  update s.file f { s.file f with ref := 0, type := .none } := rfl
 refine h.repoint (.file f) none
  [.beginOp, .put (s.file f).ip, .endOp] ?_ rfl ?_ ?_ ?_ h.cwd
 · rw [target_setFile hfile rfl rfl, if_neg (fun hand => nomatch hand.right)]
 · simpa [InodeCall.named] using h.file f htype
 · intro a
   have hbefore : s.target (.file f) = (s.file f).ip := by
    unfold target
    simp only
    rw [if_pos ⟨hf, htype⟩]
   rw [hbefore, if_neg (some_ne_none a).symm]
   simp only [InodeCall.tally, change, map_cons, map_nil, sum_cons,
    sum_nil]
   split <;> rfl
 · intro g hg
   rw [hfile] at hg ⊢
   by_cases hgf : g = f
   · rw [hgf, update_self] at hg
     cases hg
   rw [update_of_ne hgf] at hg ⊢
   exact h.file g hg

theorem Owed.closes {k : Pid × Nat} (hs : Sound lost s)
  (hk : s.fds k = some f) (hnext : (s.setFd k none).fileclose f = some next)
  (hshared : (s.file f).type = .pipe -> 1 < (s.file f).ref) : Owed base next := by
 have hset : Owed base (s.setFd k none) := h.congr (target_of_eq rfl rfl rfl) rfl h.file h.cwd
 rcases fileclose_some hnext with ⟨htype, ⟨_, heq⟩ | ⟨hlast, _, pipes, _, heq⟩⟩
 · rw [heq]
   exact hset.setFile rfl rfl rfl rfl (.inr ⟨rfl, rfl⟩)
 change (s.file f).ref ≤ 1 at hlast
 have hinode : (s.file f).type = .inode := by
  cases hkind : (s.file f).type with
  | none => exact absurd hkind htype
  | pipe =>
   have hmore := hshared hkind
   omega
  | inode => rfl
 rw [heq]
 exact hset.lastClosed (hs.entry k f hk).left hinode pipes
end

/-!
# Processes
-/

theorem target_setCwd {x : Option Nat} {b : Bool} (hfile : next.file = s.file)
  (hlive : next.live = update s.live p b) (hcwd : next.cwd = update s.cwd p x) :
  next.target = update s.target (.cwd p) (if b = true then x else none) := by
 funext k
 cases k with
 | file g =>
  rw [update_of_ne (InodeHolder.cwd_ne_file p g).symm]
  unfold target
  rw [hfile]
 | cwd q =>
  by_cases hq : q = p
  · rw [hq, update_self]
    unfold target
    simp only
    rw [hlive, hcwd, update_self, update_self]
  rw [update_of_ne (fun heq => hq (InodeHolder.cwd.inj heq))]
  unfold target
  simp only
  rw [hlive, hcwd, update_of_ne hq, update_of_ne hq]
 | root =>
  rw [update_of_ne (InodeHolder.root_ne_cwd p)]
  rfl

theorem Owed.setCwd {x : Option Nat} {b : Bool} (h : Owed base s)
  (y : Option Nat) (more : List InodeCall) (hy : (if b = true then x else none) = y)
  (hfile : next.file = s.file) (hlive : next.live = update s.live p b)
  (hcwd : next.cwd = update s.cwd p x)
  (hcalls : next.calls = s.calls ++ more) (hx : b -> x.isSome)
  (hnamed : forall c, c ∈ more -> c.named) (hmore : forall a, InodeCall.tally more a =
    (if y = some a then 1 else 0) - if s.target (.cwd p) = some a then 1 else 0) :
  Owed base next := by
 refine h.repoint (.cwd p) y more ?_ hcalls hnamed hmore (hfile ▸ h.file) ?_
 · rw [target_setCwd hfile hlive hcwd, hy]
 intro q hq
 rw [hlive] at hq
 rw [hcwd]
 by_cases heq : q = p
 · rw [heq, update_self] at hq ⊢
   exact hx hq
 rw [update_of_ne heq] at hq ⊢
 exact h.cwd q hq

theorem target_cwd (s : Files) (p : Pid) (hp : s.live p) : s.target (.cwd p) = s.cwd p := by
 unfold target
 simp only
 rw [if_pos hp]

section
variable (h : Owed base s)
include h

section
variable (hp : s.live p = true)
include hp

theorem Owed.enters {ip : Nat} : Owed base (s.enter p ip) := by
 have hlive : (s.enter p ip).live = update s.live p true := by
  change s.live = _
  rw [← hp, update_eq_self]
 refine h.setCwd (some ip)
  [.beginOp, .got ip, .lock ip, .unlock ip, .put (s.cwd p), .endOp]
  (if_pos rfl) rfl hlive rfl rfl (fun _ => rfl) ?_ ?_
 · simpa [InodeCall.named] using h.cwd p hp
 intro a
 rw [s.target_cwd p hp]
 simp only [InodeCall.tally, change, map_cons, map_nil, sum_cons,
  sum_nil]
 split <;> split <;> rfl

theorem Owed.begins {child : Pid}
  (hchild : s.live child = false) : Owed base (s.addProc p child) := by
 have hcalls : (s.addProc p child).calls = s.calls ++ [.share (s.cwd p)] := rfl
 refine h.setCwd (s.cwd p) [.share (s.cwd p)] (if_pos rfl) rfl rfl rfl hcalls
  (fun _ => h.cwd p hp) ?_ ?_
 · intro c hc
   rw [mem_singleton.mp hc]
   exact h.cwd p hp
 intro a
 have hbefore : s.target (.cwd child) = none := by
  unfold target
  simp only
  rw [hchild, if_neg (fun hbad => nomatch hbad)]
 rw [hbefore, if_neg (some_ne_none a).symm]
 simp only [InodeCall.tally, change, map_cons, map_nil, sum_cons,
  sum_nil]
 omega

theorem Owed.ends : Owed base (s.removeProc p) := by
 refine h.setCwd none [.beginOp, .put (s.cwd p), .endOp]
  (if_neg Bool.false_ne_true) rfl rfl rfl rfl (fun hbad => nomatch hbad) ?_ ?_
 · simpa [InodeCall.named] using h.cwd p hp
 intro a
 rw [s.target_cwd p hp, if_neg (some_ne_none a).symm]
 simp only [InodeCall.tally, change, map_cons, map_nil, sum_cons,
  sum_nil]
 split <;> rfl
end

/-!
# Moves
-/

theorem Owed.pipes {f0 f1 pi : Nat} (hne : f0 ≠ f1)
  (htype0 : (s.file f0).type = .none) (htype1 : (s.file f1).type = .none) :
  Owed base (s.initPipe f0 f1 pi) := by
 have hnot : forall f, (s.file f).type = .none -> (s.file f).type ≠ .inode := by
  intro f hf hbad
  rw [hf] at hbad
  cases hbad
 have hfirst : Owed base (s.setFile f0 (readEnd (s.file f0) pi)) :=
  h.setFile rfl rfl rfl rfl (.inl ⟨hnot f0 htype0, fun hbad => nomatch hbad⟩)
 have hkept : ((s.setFile f0 (readEnd (s.file f0) pi)).file f1).type ≠ .inode := by
  change (update s.file f0 _ f1).type ≠ .inode
  rw [update_of_ne hne.symm]
  exact hnot f1 htype1
 exact hfirst.setFile rfl rfl rfl rfl (.inl ⟨hkept, fun hbad => nomatch hbad⟩)

theorem Owed.move (hs : Sound lost s)
  (hmove : Move sharedTerms lost s lost' next) : Owed base next := by
 cases hmove with
 | opens hf htype hk => exact h.opens hs hf
 | refuses => exact h.refuses
 | misses => exact h.misses
 | copies hj hk | takes hf => exact h.setFile rfl rfl rfl rfl (.inr ⟨rfl, rfl⟩)
 | closes hk hnext hterms => exact h.closes hs hk hnext hterms
 | pipes _ _ hne htype0 htype1 => exact h.pipes hne htype0 htype1
 | gives hf htype hk => exact h.congr (target_of_eq rfl rfl rfl) rfl h.file h.cwd
 | enters hp => exact h.enters hp
 | begins hp hchild => exact h.begins hp hchild
 | ends hp _ => exact h.ends hp

theorem Owed.moves (hs : Sound lost s)
  (hmoves : Moves sharedTerms lost s lost' next) : Owed base next := by
 induction hmoves with
 | refl => exact h
 | tail hprefix hmove ih => exact (ih h hs).move (hs.moves hprefix) hmove
end

/-!
# Calls that close no pipe
-/

def Shared (s : Files) : FileLabel -> Prop
 | .close p fd => forall f, s.fds (p, fd.toNat) = some f ->
  (s.file f).type = .pipe -> 1 < (s.file f).ref
 | .pipe2 p _ => s.TwoSlots -> (exists i, s.Vacant (p, i)) -> s.TwoFds p
 | .exit p => forall i f, s.fds (p, i) = some f ->
  (s.file f).type = .pipe -> exists k, k.1 ≠ p ∧ s.fds k = some f
 | _ => True

theorem Shared.met_exit (h : s.Shared (.exit p)) (hs : Sound lost s) :
  sharedTerms.Met s (.exit p) := by
 intro m mid f hmid hf hpipe
 have hempty := (closeFirst_moves anyTerms lost (fun _ _ _ _ _ _ => trivial) hmid).right
 have hbefore : s.fds (p, m) = some f := by rw [← hempty.later m (Nat.le_refl m), hf]
 rcases h m f hbefore ((hempty.file f).right hpipe) with ⟨k, hk, hother⟩
 exact hs.shared_round hmid hf hk hother

theorem twoSlots_of_freeSlot {f0 f1 : Nat} (hf0 : s.freeSlot = some f0)
  (hf1 : (s.take f0).freeSlot = some f1) : s.TwoSlots := by
 have hfree1 := free_of_freeSlot hf1
 have hne := not_free_of_take hfree1
 refine ⟨f0, f1, hne, free_of_freeSlot hf0, hfree1.left, ?_⟩
 rw [← take_file_of_ne (s := s) hne.symm]
 exact hfree1.right

theorem Shared.met {l : FileLabel} (h : s.Shared l) (hs : Sound lost s)
  (hlive : s.live l.caller) : sharedTerms.Met s l := by
 cases l with
 | openat p found omode => exact fun _ _ => trivial
 | close p fd => exact h
 | pipe2 p memory =>
  refine ⟨fun _ _ => trivial, fun _ _ _ _ => ⟨trivial, trivial, trivial⟩, ?_⟩
  intro f0 f1 pi fd0 hf0 hf1 _ hfd0 hfd1
  -- there are two descriptors, so the read end is not closed again
  have hvacant := vacant_of_freeFd hlive hfd0
  have htwo := h (twoSlots_of_freeSlot hf0 hf1) ⟨fd0, hvacant⟩
  rcases htwo.second f0 fd0 with ⟨fd1, hsecond⟩
  rw [hfd1] at hsecond
  cases hsecond
 | exit p => exact h.met_exit hs
 | _ => trivial

end Files

/-!
# Files with reference counts
-/

structure FileRefs where
 files : Files
 rc : Nat -> Int

namespace FileRefs

def step (s : FileRefs) (l : FileLabel) : Option FileRefs :=
 (s.files.step l).bind fun next =>
  (next.calls.foldlM answer s.rc).map fun rc => { files := next, rc := rc }

/--
`init_inodes` has taken a reference to the root; the working directory of the first
process is set to the root without another one.
-/
def boot : FileRefs where
 files := Files.boot
 rc := fun a => if a = rootInodeNo then 1 else 0

structure Founded (s : FileRefs) : Prop where
 sound : exists lost, Files.Sound lost s.files
 file : forall f, (s.files.file f).type = .inode -> (s.files.file f).ip.isSome = true
 cwd : forall p, s.files.live p = true -> (s.files.cwd p).isSome = true

def Referenced (missing : Nat -> Int) (s : FileRefs) : Prop :=
 forall a, Exactly (fun h => s.files.target h = some a) (s.rc a + missing a)

end FileRefs

def fileRefsSystem : TransitionSystem FileRefs FileLabel where
 initial := fun s => s = FileRefs.boot
 step := FileRefs.step

namespace FileRefs
variable {missing : Nat -> Int} {s next : FileRefs} {l : FileLabel}

theorem step_founded (hfounded : s.Founded) (hcount : s.Referenced missing)
  (hshared : s.files.Shared l) (hstep : fileRefsSystem.step s l = some next) :
  next.Founded ∧ next.Referenced missing := by
 rcases hfounded.sound with ⟨lost, hsound⟩
 rcases bind_eq_some_iff.mp hstep with ⟨files, hfiles, hmap⟩
 rcases map_eq_some_iff.mp hmap with ⟨rc, hrc, heq⟩
 have hpossible := possible_of_step hfiles
 unfold Files.step at hfiles
 rw [if_pos hpossible] at hfiles
 rcases map_eq_some_iff.mp hfiles with ⟨⟨r, files'⟩, hcall, hsame⟩
 change files' = files at hsame
 rw [hsame] at hcall
 have hquiet : Files.Sound lost ({ s.files with calls := [] } : Files) :=
  hsound.congr rfl rfl (fun k f hk => (hsound.entry k f hk).right.right)
 have hpossible' : ({ s.files with calls := [] } : Files).possible l := by
  cases l <;> exact hpossible
 have hshared' : ({ s.files with calls := [] } : Files).Shared l := by
  cases l <;> exact hshared
 have hlive : ({ s.files with calls := [] } : Files).live l.caller := by
  exact (Bool.and_eq_true _ _).mp hpossible |>.left
 rcases call_moves hquiet hpossible' (hshared'.met hquiet hlive) hcall with ⟨lost', hmoves, _⟩
 have htarget : ({ s.files with calls := [] } : Files).target = s.files.target :=
  target_of_eq rfl rfl rfl
 have howed : Owed (fun a => s.rc a + missing a) ({ s.files with calls := [] } : Files) := by
  refine ⟨?_, fun c hc => (nomatch hc), hfounded.file, hfounded.cwd⟩
  intro a
  rw [htarget]
  change Exactly _ (s.rc a + missing a + 0)
  rw [Int.add_zero]
  exact hcount a
 have hafter := howed.moves hquiet hmoves
 have hanswer := answer_all files.calls s.rc hafter.named
 rw [hrc] at hanswer
 rw [← heq]
 refine ⟨⟨⟨lost', hquiet.moves hmoves⟩, hafter.file, hafter.cwd⟩, ?_⟩
 intro a
 have hexact := hafter.exact a
 rw [some.inj hanswer]
 rw [show s.rc a + InodeCall.tally files.calls a + missing a =
  s.rc a + missing a + InodeCall.tally files.calls a by omega]
 exact hexact

theorem founded_of_reaches {start : FileRefs} (hstart : start.Founded)
  (hcount : start.Referenced missing)
  (hrun : fileRefsSystem.Reaches (fun s l => s.files.Shared l) start s) :
  s.Founded ∧ s.Referenced missing := by
 refine TransitionSystem.reaches_invariant
  (fun s => s.Founded ∧ s.Referenced missing) ?_ hrun ⟨hstart, hcount⟩
 intro mid l after _ hmid hshared hstep
 exact step_founded hmid.left hmid.right hshared hstep

theorem Founded.fileclose_calls {files : Files} {f : Nat} (h : s.Founded)
  (hclose : s.files.fileclose f = some files) :
  ((s.files.file f).type = .inode -> exists a, (s.files.file f).ip = some a ∧
    files.calls = s.files.calls ++
     if (s.files.file f).ref ≤ 1 then [.beginOp, .put (some a), .endOp] else []) ∧
  ((s.files.file f).type = .pipe -> 1 < (s.files.file f).ref -> files.calls = s.files.calls) := by
 rcases fileclose_some hclose with ⟨_, ⟨hmore, heq⟩ | ⟨hlast, _, pipes, _, heq⟩⟩
 · have hcalls : files.calls = s.files.calls := by
    rw [heq]
    rfl
   constructor
   · intro htype
     rcases isSome_iff_exists.mp (h.file f htype) with ⟨a, ha⟩
     refine ⟨a, ha, ?_⟩
     rw [if_neg (by omega), append_nil]
     exact hcalls
   · intro _ _
     exact hcalls
 constructor
 · intro htype
   rcases isSome_iff_exists.mp (h.file f htype) with ⟨a, ha⟩
   refine ⟨a, ha, ?_⟩
   rw [if_pos hlast, heq, ← ha]
   rfl
 · intro _ hmore
   omega

theorem boot_targets (a : Nat) : Exactly (fun h => Files.boot.target h = some a)
  (if a = rootInodeNo then 2 else 0) := by
 have hfile : forall f, Files.boot.target (.file f) = none := by
  intro f
  unfold Files.target
  simp only
  rw [if_neg (fun hand => nomatch hand.right)]
 have hcwd : forall p, Files.boot.target (.cwd p) = some a -> p = 0 ∧ a = rootInodeNo := by
  intro p hp
  unfold Files.target at hp
  simp only at hp
  split at hp
  · rename_i hlive
    have hzero : p = 0 := of_decide_eq_true hlive
    rw [hzero] at hp
    exact ⟨hzero, (some.inj hp).symm⟩
  · cases hp
 by_cases ha : a = rootInodeNo
 · rw [if_pos ha]
   refine ⟨{.cwd 0, .root}, ?_, rfl⟩
   intro h
   rw [Finset.mem_insert, Finset.mem_singleton, ha]
   constructor
   · rintro (heq | heq)
     all_goals
      rw [heq]
      rfl
   intro htarget
   cases h with
   | file f =>
    rw [hfile] at htarget
    cases htarget
   | cwd p =>
    rw [ha] at hcwd
    rw [(hcwd p htarget).left]
    exact .inl rfl
   | root => exact .inr rfl
 rw [if_neg ha]
 apply Exactly.zero
 intro h htarget
 cases h with
 | file f =>
  rw [hfile] at htarget
  cases htarget
 | cwd p => exact ha (hcwd p htarget).right
 | root => exact ha (some.inj htarget).symm

theorem boot_founded (rc : Nat -> Int) : (FileRefs.mk Files.boot rc).Founded := by
 refine ⟨⟨[], Files.boot_sound⟩, ?_, ?_⟩
 · nofun
 intro p hp
 have hzero : p = 0 := of_decide_eq_true hp
 rw [hzero]
 rfl

end FileRefs

/--
If no pipe loses its last descriptor, then what is missing from the counts of the inodes
stays as it is.  `fileclose` puts back the inode of a file with its last reference, and
nothing for a pipe.
-/
theorem inode_refs_of_reaches {missing : Nat -> Int} {start s : FileRefs}
  (hstart : start.Founded) (hcount : start.Referenced missing)
  (hrun : fileRefsSystem.Reaches (fun s l => s.files.Shared l) start s) :
  s.Referenced missing ∧ forall f files, s.files.fileclose f = some files ->
    ((s.files.file f).type = FileType.inode -> exists a, (s.files.file f).ip = some a ∧
      files.calls = s.files.calls ++
        if (s.files.file f).ref ≤ 1 then
          [InodeCall.beginOp, InodeCall.put (some a), InodeCall.endOp] else []) ∧
    ((s.files.file f).type = FileType.pipe -> 1 < (s.files.file f).ref ->
      files.calls = s.files.calls) := by
 rcases FileRefs.founded_of_reaches hstart hcount hrun with ⟨hfounded, hreferenced⟩
 exact ⟨hreferenced, fun f files hclose => hfounded.fileclose_calls hclose⟩

/-- The first process has the root as its directory without a reference of its own. -/
theorem inode_refs_first_open : exists s : FileRefs,
    fileRefsSystem.Reachable (fun s l => s.files.Shared l) s ∧ s.rc 2 = 1 ∧
    s.Referenced (fun a => if a = rootInodeNo then 1 else 0) := by
 have hcount : FileRefs.boot.Referenced (fun a => if a = rootInodeNo then 1 else 0) := by
  intro a
  have htargets := FileRefs.boot_targets a
  change Exactly _ ((if a = rootInodeNo then 1 else 0) + (if a = rootInodeNo then 1 else 0))
  by_cases ha : a = rootInodeNo
  · rw [if_pos ha] at htargets ⊢
    exact htargets
  · rw [if_neg ha] at htargets ⊢
    exact htargets
 have hopen : exists s, fileRefsSystem.step FileRefs.boot (.openat 0 (some 2) 0) = some s ∧
  s.rc 2 = 1 := by
  decide +kernel
 rcases hopen with ⟨s, hstep, hone⟩
 have hshared : boot.Shared (.openat 0 (some 2) 0) := trivial
 have hrun : fileRefsSystem.Reaches (fun s l => s.files.Shared l) FileRefs.boot s :=
  .tail (.refl _) hshared hstep
 exact ⟨s, ⟨_, rfl, hrun⟩, hone,
  (inode_refs_of_reaches (FileRefs.boot_founded _) hcount hrun).left⟩

/-!
A file is opened twice, and the first of the two is closed.  Its slot becomes the read
end of a pipe; closing the read end gives up the reference of the file that is still
open.
-/

theorem pipe_puts_stale_inode :
  exists s, fileRefsSystem.Reachable TransitionSystem.unguarded s ∧ s.rc 2 = 0 ∧
    (s.files.file 1).type = FileType.inode ∧ (s.files.file 1).ip = some 2 ∧
    s.files.calls = [InodeCall.beginOp, InodeCall.put (some 2), InodeCall.endOp] ∧
    ¬ Exactly (fun h => s.files.target h = some 2) (s.rc 2) := by
 have hboot : fileRefsSystem.initial FileRefs.boot := rfl
 rcases TransitionSystem.exists_reachable_of_execute fileRefsSystem TransitionSystem.unguarded hboot
  [.openat 0 (some 2) 0, .openat 0 (some 2) 0, .close 0 0,
   .pipe2 0 (some 7), .close 0 0]
  (fun s => s.rc 2 = 0 ∧ (s.files.file 1).type = .inode ∧
   (s.files.file 1).ip = some 2 ∧ s.files.calls = [.beginOp, .put (some 2), .endOp])
  (by decide +kernel) with ⟨s, hreach, hzero, htype, hip, hcalls⟩
 refine ⟨s, hreach, hzero, htype, hip, hcalls, ?_⟩
 intro hexact
 have htarget : s.files.target (.file 1) = some 2 := by
  unfold Files.target
  simp only
  rw [if_pos ⟨by decide, htype⟩]
  exact hip
 have hpos := hexact.pos htarget
 omega

end OSLab.Fs
