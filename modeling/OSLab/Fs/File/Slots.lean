import OSLab.Foundation.Custody
import OSLab.Fs.File.Table

/-!
# Slots and descriptors

Every system call is a sequence of a few moves: a free slot and a free descriptor
become an open file, a descriptor is copied, a descriptor is closed, and so on.  A
condition on the slots that become a pipe, and on those that lose a descriptor, may be
added to the moves.  A slot that is taken and not yet, or never, given a descriptor is
lost; the moves keep a list of the lost slots.  For all other slots `ref` is the number
of descriptors that point to the slot.
-/

namespace OSLab.Fs
open Foundation Function Custody
namespace Files
variable (s : Files)

def Exact (f : Nat) : Prop :=
 Exactly (fun k => s.fds k = some f) (s.file f).ref ∧ ((s.file f).type = .none ↔ (s.file f).ref = 0)

def Lost (f : Nat) : Prop := (s.file f).ref = 1 ∧ forall k, s.fds k ≠ some f

structure Sound (lost : List Nat) (s : Files) : Prop where
 entry : forall k f, s.fds k = some f -> f < nfile ∧ k.2 < nofile ∧ s.live k.1 = true
 exact : forall f, f < nfile -> f ∉ lost -> s.Exact f
 missing : forall f, f ∈ lost -> f < nfile ∧ s.Lost f
 nodup : lost.Nodup

def Free (f : Nat) : Prop := f < nfile ∧ (s.file f).ref = 0

def Vacant (k : Pid × Nat) : Prop := k.2 < nofile ∧ s.live k.1 = true ∧ s.fds k = none

/-!
# Moves
-/

def openFile (f : Nat) (k : Pid × Nat) (ip : Nat) (omode : BitVec 32) : Files :=
 { s with
   file := update s.file f (opened { s.file f with ref := 1 } ip omode)
   fds := update s.fds k (some f)
   calls := s.calls ++ [.beginOp, .got ip, .lock ip, .unlock ip, .endOp] }

def refuse (ip : Nat) : Files :=
 s.ask [.beginOp, .got ip, .lock ip, .unlock ip, .put (some ip), .endOp]

def enter (p : Pid) (ip : Nat) : Files :=
 { s with
   cwd := update s.cwd p (some ip)
   calls := s.calls ++ [.beginOp, .got ip, .lock ip, .unlock ip, .put (s.cwd p), .endOp] }

def addProc (p child : Pid) : Files :=
 { s with
   live := update s.live child true
   cwd := update s.cwd child (s.cwd p)
   calls := s.calls ++ [.share (s.cwd p)] }

def removeProc (p : Pid) : Files :=
 { s with
   live := update s.live p false
   cwd := update s.cwd p none
   calls := s.calls ++ [.beginOp, .put (s.cwd p), .endOp] }

/-- Conditions on two slots that become a pipe, and on a slot that loses a descriptor. -/
structure Terms where
 takes : Files -> Nat -> Prop
 pipes : Files -> Nat -> Nat -> Prop
 closes : Files -> Nat -> Prop

def anyTerms : Terms where
 takes := fun _ _ => True
 pipes := fun _ _ _ => True
 closes := fun _ _ => True

inductive Move (terms : Terms) :
  List Nat -> Files -> List Nat -> Files -> Prop where
 | opens {lost : List Nat} {s : Files} {f ip : Nat} {k : Pid × Nat} {omode : BitVec 32}
  (hf : s.Free f) (htype : (s.file f).type = .none) (hk : s.Vacant k)
  (hterms : terms.takes s f) : Move terms lost s lost (s.openFile f k ip omode)
 | refuses {lost : List Nat} {s : Files} {ip : Nat} : Move terms lost s lost (s.refuse ip)
 | misses {lost : List Nat} {s : Files} : Move terms lost s lost (s.ask [.beginOp, .endOp])
 | copies {lost : List Nat} {s : Files} {f : Nat} {j k : Pid × Nat}
  (hj : s.fds j = some f) (hk : s.Vacant k) :
  Move terms lost s lost ((s.filedup f).setFd k (some f))
 | closes {lost : List Nat} {s next : Files} {f : Nat} {k : Pid × Nat}
  (hk : s.fds k = some f) (hnext : (s.setFd k none).fileclose f = some next)
  (hterms : terms.closes s f) : Move terms lost s lost next
 | takes {lost : List Nat} {s : Files} {f : Nat} (hf : s.Free f) (hterms : terms.takes s f) :
  Move terms lost s (f :: lost) (s.take f)
 | pipes {lost : List Nat} {s : Files} {f0 f1 pi : Nat} (h0 : f0 ∈ lost) (h1 : f1 ∈ lost)
  (hne : f0 ≠ f1) (htype0 : (s.file f0).type = .none)
  (htype1 : (s.file f1).type = .none) (hpi : s.pipes pi = none)
  (hterms : terms.pipes s f0 f1) :
  Move terms lost s lost (s.initPipe f0 f1 pi)
 | gives {lost : List Nat} {s : Files} {f : Nat} {k : Pid × Nat} (hf : f ∈ lost)
  (htype : (s.file f).type ≠ .none) (hk : s.Vacant k) :
  Move terms lost s (lost.erase f) (s.setFd k (some f))
 | enters {lost : List Nat} {s : Files} {p : Pid} {ip : Nat} (hp : s.live p = true) :
  Move terms lost s lost (s.enter p ip)
 | begins {lost : List Nat} {s : Files} {p child : Pid} (hp : s.live p = true)
  (hchild : s.live child = false) : Move terms lost s lost (s.addProc p child)
 | ends {lost : List Nat} {s : Files} {p : Pid} (hp : s.live p = true)
  (hnone : forall i, s.fds (p, i) = none) : Move terms lost s lost (s.removeProc p)

inductive Moves (terms : Terms) :
  List Nat -> Files -> List Nat -> Files -> Prop where
 | refl (lost : List Nat) (s : Files) : Moves terms lost s lost s
 | tail {lost lost₁ lost₂ : List Nat} {s s₁ s₂ : Files} :
  Moves terms lost s lost₁ s₁ -> Move terms lost₁ s₁ lost₂ s₂ -> Moves terms lost s lost₂ s₂

variable {terms : Terms} {lost lost' : List Nat} {s next : Files}
 {f g : Nat} {k : Pid × Nat}

theorem moves_one (h : Move terms lost s lost' next) : Moves terms lost s lost' next :=
 .tail (.refl lost s) h

theorem moves_trans {lost₁ : List Nat} {s₁ : Files} (h : Moves terms lost s lost₁ s₁)
  (h' : Moves terms lost₁ s₁ lost' next) : Moves terms lost s lost' next := by
 induction h' with
 | refl => exact h
 | tail _ hmove ih => exact .tail (ih h) hmove

/-!
# The counts
-/

theorem Exact.ref_nonneg (h : s.Exact f) : 0 ≤ (s.file f).ref := by
 rcases h.left with ⟨holders, _, hcard⟩
 omega

theorem Exact.ref_pos (h : s.Exact f) (hk : s.fds k = some f) : 1 ≤ (s.file f).ref := h.left.pos hk

theorem Exact.type_ne (h : s.Exact f) (hk : s.fds k = some f) : (s.file f).type ≠ .none := by
 intro htype
 have hzero := h.right.mp htype
 have hpos := h.ref_pos hk
 omega

section
variable (h : Sound lost s)
include h

theorem Sound.exact_of_entry (hk : s.fds k = some f) : s.Exact f := by
 apply h.exact f (h.entry k f hk).left
 intro hlost
 exact (h.missing f hlost).right.right k hk

theorem Sound.notMem_of_free (hf : s.Free f) : f ∉ lost := by
 intro hlost
 have hone := (h.missing f hlost).right.left
 rw [hf.right] at hone
 cases hone

theorem Sound.type_of_free (hf : s.Free f) : (s.file f).type = .none :=
 (h.exact f hf.left (h.notMem_of_free hf)).right.mpr hf.right

theorem Sound.unreferenced (hf : s.Free f) (k : Pid × Nat) : s.fds k ≠ some f := by
 intro hk
 have hpos := (h.exact_of_entry hk).ref_pos hk
 rw [hf.right] at hpos
 omega
end

theorem Exact.congr (h : s.Exact g) (hfile : next.file g = s.file g)
  (hfds : forall k, next.fds k = some g ↔ s.fds k = some g) : next.Exact g := by
 unfold Exact
 rw [hfile]
 exact ⟨h.left.congr hfds, h.right⟩

theorem Lost.congr (h : s.Lost g) (hfile : next.file g = s.file g)
  (hfds : forall k, next.fds k = some g ↔ s.fds k = some g) : next.Lost g := by
 unfold Lost
 rw [hfile]
 exact ⟨h.left, fun k hk => h.right k ((hfds k).mp hk)⟩

theorem Sound.congr (h : Sound lost s) (hfile : next.file = s.file) (hfds : next.fds = s.fds)
  (hlive : forall k f, s.fds k = some f -> next.live k.1) : Sound lost next := by
 constructor
 · intro k f hk
   rw [hfds] at hk
   exact ⟨(h.entry k f hk).left, (h.entry k f hk).right.left, hlive k f hk⟩
 · intro f hf hlost
   exact (h.exact f hf hlost).congr (by rw [hfile]) (fun k => by rw [hfds])
 · intro f hf
   exact ⟨(h.missing f hf).left,
    (h.missing f hf).right.congr (by rw [hfile]) (fun k => by rw [hfds])⟩
 · exact h.nodup

theorem fds_fill (hk : s.fds k = none) (hfds : next.fds = update s.fds k (some f))
  (j : Pid × Nat) (hg : g ≠ f) : next.fds j = some g ↔ s.fds j = some g := by
 rw [hfds, update_some_iff]
 constructor
 · rintro (⟨_, heq⟩ | ⟨_, hold⟩)
   · exact absurd heq hg
   · exact hold
 intro hold
 right
 refine ⟨?_, hold⟩
 intro hj
 rw [hj, hk] at hold
 cases hold

theorem Sound.fill {file : File} (h : Sound lost s) (hk : s.Vacant k) (hf : f < nfile)
  (hfile : next.file = update s.file f file)
  (hfds : next.fds = update s.fds k (some f)) (hlive : next.live = s.live)
  (hexact : next.Exact f) : Sound (lost.erase f) next := by
 have hother : forall g, g ≠ f -> next.file g = s.file g := by
  intro g hg
  rw [hfile]
  exact update_of_ne hg _ _
 constructor
 · intro j g hj
   rw [hfds, update_some_iff] at hj
   rw [hlive]
   rcases hj with ⟨hjk, hgf⟩ | ⟨_, hold⟩
   · rw [hjk, hgf]
     exact ⟨hf, hk.left, hk.right.left⟩
   · exact h.entry j g hold
 · intro g hg hlost
   by_cases hgf : g = f
   · rw [hgf]
     exact hexact
   have hnot : g ∉ lost := fun hmem => hlost ((List.mem_erase_of_ne hgf).mpr hmem)
   exact (h.exact g hg hnot).congr (hother g hgf) (fun j => fds_fill hk.right.right hfds j hgf)
 · intro g hg
   have hgf : g ≠ f := by
    rintro rfl
    exact h.nodup.not_mem_erase hg
   have hbefore := h.missing g (List.mem_of_mem_erase hg)
   exact ⟨hbefore.left, hbefore.right.congr (hother g hgf)
    (fun j => fds_fill hk.right.right hfds j hgf)⟩
 · exact h.nodup.erase f

theorem Exact.fill {file : File} (h : s.Exact f) (hk : s.fds k = none)
  (hfile : next.file f = file) (hfds : next.fds = update s.fds k (some f))
  (href : file.ref = (s.file f).ref + 1) (htype : file.type ≠ .none) :
  next.Exact f := by
 have hnonneg := h.ref_nonneg
 unfold Exact
 rw [hfile, href]
 constructor
 · refine h.left.insert (x := k) ?_ ?_
   · rw [hk]
     nofun
   intro j
   rw [hfds, update_some_iff]
   constructor
   · rintro (⟨hjk, _⟩ | ⟨_, hold⟩)
     · exact .inl hjk
     · exact .inr hold
   intro hcases
   by_cases hjk : j = k
   · exact .inl ⟨hjk, rfl⟩
   rcases hcases with heq | hold
   · exact absurd heq hjk
   · exact .inr ⟨hjk, hold⟩
 constructor
 · intro hnone
   exact absurd hnone htype
 · intro hzero
   omega

section
variable (h : Sound lost s)
include h

theorem Sound.opens {ip : Nat} {omode : BitVec 32} (hf : s.Free f)
  (hk : s.Vacant k) : Sound lost (s.openFile f k ip omode) := by
 have hnot := h.notMem_of_free hf
 have hexact := h.exact f hf.left hnot
 rw [← List.erase_of_not_mem hnot]
 apply h.fill hk hf.left
 · rfl
 · rfl
 · rfl
 apply hexact.fill hk.right.right
 · exact update_self ..
 · rfl
 · rw [hf.right]
   rfl
 · nofun

theorem Sound.copies {j : Pid × Nat} (hj : s.fds j = some f)
  (hk : s.Vacant k) : Sound lost ((s.filedup f).setFd k (some f)) := by
 have hexact := h.exact_of_entry hj
 have hnot : f ∉ lost := fun hlost => (h.missing f hlost).right.right j hj
 rw [← List.erase_of_not_mem hnot]
 apply h.fill hk (h.entry j f hj).left
 · rfl
 · rfl
 · rfl
 apply hexact.fill hk.right.right
 · exact update_self ..
 · rfl
 · rfl
 · exact hexact.type_ne hj

theorem Sound.gives (hf : f ∈ lost) (htype : (s.file f).type ≠ .none) (hk : s.Vacant k) :
  Sound (lost.erase f) (s.setFd k (some f)) := by
 rcases h.missing f hf with ⟨hrange, hone, hnone⟩
 apply h.fill hk hrange
 · exact (update_eq_self f s.file).symm
 · rfl
 · rfl
 constructor
 · change Exactly _ (s.file f).ref
   rw [hone]
   refine (Exactly.zero hnone).insert (x := k) (hnone k) ?_
   intro j
   change update s.fds k (some f) j = some f ↔ _
   rw [update_some_iff]
   constructor
   · rintro (⟨hjk, _⟩ | ⟨_, hold⟩)
     · exact .inl hjk
     · exact absurd hold (hnone j)
   rintro (hjk | hold)
   · exact .inl ⟨hjk, rfl⟩
   · exact absurd hold (hnone j)
 change (s.file f).type = .none ↔ (s.file f).ref = 0
 rw [hone]
 exact ⟨fun heq => absurd heq htype, nofun⟩

theorem Sound.takes (hf : s.Free f) : Sound (f :: lost) (s.take f) := by
 have hother : forall g, g ≠ f -> (s.take f).file g = s.file g := fun g hg => update_of_ne hg _ _
 constructor
 · exact h.entry
 · intro g hg hlost
   rw [List.mem_cons, not_or] at hlost
   exact (h.exact g hg hlost.right).congr (hother g hlost.left) (fun _ => Iff.rfl)
 · intro g hg
   rcases List.mem_cons.mp hg with hgf | hold
   · rw [hgf]
     refine ⟨hf.left, ?_, h.unreferenced hf⟩
     change (update s.file f _ f).ref = 1
     rw [update_self]
   have hgf : g ≠ f := by
    rintro rfl
    exact h.notMem_of_free hf hold
   exact ⟨(h.missing g hold).left,
    (h.missing g hold).right.congr (hother g hgf) (fun _ => Iff.rfl)⟩
 · exact List.nodup_cons.mpr ⟨h.notMem_of_free hf, h.nodup⟩
end

/-!
# Closing
-/

end Files

namespace PipeEnds

def shut (ends : PipeEnds) (writable : Bool) : Option PipeEnds :=
 let ends := if writable then { ends with writeopen := false } else { ends with readopen := false }
 if ends.writeopen = false ∧ ends.readopen = false then none else some ends

end PipeEnds

namespace Files
variable {terms : Terms} {lost lost' : List Nat} {s next : Files}
 {f g : Nat} {k : Pid × Nat}

theorem pipeClose_eq {pi : Nat} {ends : PipeEnds} (hpi : s.pipes pi = some ends) (writable : Bool) :
  s.pipeClose (some pi) writable =
    some { s with pipes := update s.pipes pi (ends.shut writable) } := by
 unfold pipeClose PipeEnds.shut
 simp only [Option.bind_eq_bind, Option.bind_some, hpi]
 by_cases hboth : (if writable = true then { ends with writeopen := false } else
  { ends with readopen := false }).writeopen = false ∧
  (if writable = true then { ends with writeopen := false } else
   { ends with readopen := false }).readopen = false
 · rw [if_pos hboth, if_pos hboth]
 · rw [if_neg hboth, if_neg hboth]

theorem pipeClose_some {pi : Option Nat} {writable : Bool}
  (h : s.pipeClose pi writable = some next) :
  exists a ends, pi = some a ∧ s.pipes a = some ends ∧
    next = { s with pipes := update s.pipes a (ends.shut writable) } := by
 cases pi with
 | none => cases h
 | some a =>
  cases hpi : s.pipes a with
  | none =>
   unfold pipeClose at h
   simp [hpi] at h
  | some ends =>
   rw [pipeClose_eq hpi] at h
   exact ⟨a, ends, rfl, hpi, (Option.some.inj h).symm⟩

def ShutPipes (s : Files) (f : Nat) (pipes : Nat -> Option PipeEnds) : Prop :=
 ((s.file f).type = .pipe ∧ exists pi ends, (s.file f).pipe = some pi ∧ s.pipes pi = some ends ∧
  pipes = update s.pipes pi (ends.shut (s.file f).writable)) ∨
  ((s.file f).type ≠ .pipe ∧ pipes = s.pipes)

/-- The state after the last close of a file. -/
def lastClosed (s : Files) (f : Nat) (pipes : Nat -> Option PipeEnds) : Files :=
 { s with
   file := update s.file f { s.file f with ref := 0, type := .none }
   pipes := pipes
   calls := s.calls ++ [.beginOp, .put (s.file f).ip, .endOp] }

theorem fileclose_more (htype : (s.file f).type ≠ .none) (hmore : 1 < (s.file f).ref) :
  s.fileclose f = some (s.setFile f { s.file f with ref := (s.file f).ref - 1 }) := by
 unfold fileclose fileRelease
 rw [if_neg htype, if_neg (by omega)]
 rfl

theorem fileRelease_last (htype : (s.file f).type ≠ .none) (hlast : (s.file f).ref ≤ 1) :
  s.fileRelease f = some (some { s.file f with ref := (s.file f).ref - 1 },
   s.setFile f { s.file f with ref := 0, type := .none }) := by
 unfold fileRelease
 rw [if_neg htype, if_pos (by omega)]

theorem fileRelease_some {temp : Option File} (h : s.fileRelease f = some (temp, next)) :
  (s.file f).type ≠ .none ∧
   (1 < (s.file f).ref ∧ temp = none ∧
     next = s.setFile f { s.file f with ref := (s.file f).ref - 1 } ∨
    (s.file f).ref ≤ 1 ∧ temp = some { s.file f with ref := (s.file f).ref - 1 } ∧
     next = s.setFile f { s.file f with ref := 0, type := .none }) := by
 unfold fileRelease at h
 split at h
 · cases h
 rename_i htype
 refine ⟨htype, ?_⟩
 split at h
 · cases h
   exact .inr ⟨by omega, rfl, rfl⟩
 · cases h
   exact .inl ⟨by omega, rfl, rfl⟩

theorem fileFinish_some {temp : File} (h : s.fileFinish f temp = some next) :
  exists closed, next = closed.ask [.beginOp, .put temp.ip, .endOp] ∧
   (temp.type = .pipe ∧ s.pipeClose (s.file f).pipe (s.file f).writable = some closed ∨
    temp.type ≠ .pipe ∧ closed = s) := by
 unfold fileFinish at h
 rcases Option.bind_eq_some_iff.mp h with ⟨closed, hclosed, hput⟩
 split at hput
 · cases hput
 cases hput
 refine ⟨closed, rfl, ?_⟩
 split at hclosed
 · rename_i hpipe
   exact .inl ⟨hpipe, hclosed⟩
 · rename_i hpipe
   cases hclosed
   exact .inr ⟨hpipe, rfl⟩

theorem fileclose_last (htype : (s.file f).type ≠ .none) (hlast : (s.file f).ref ≤ 1) :
  s.fileclose f = (s.setFile f { s.file f with ref := 0, type := .none }).fileFinish f
   { s.file f with ref := (s.file f).ref - 1 } := by
 unfold fileclose
 rw [fileRelease_last htype hlast]
 rfl

theorem freed_file (s : Files) (f : Nat) :
  (s.setFile f { s.file f with ref := 0, type := .none }).file f =
   { s.file f with ref := 0, type := .none } := update_self ..

theorem fileclose_eq {pipes : Nat -> Option PipeEnds} (htype : (s.file f).type ≠ .none)
  (hlast : (s.file f).ref ≤ 1) (hip : (s.file f).ip.isSome) (h : s.ShutPipes f pipes) :
  s.fileclose f = some (s.lastClosed f pipes) := by
 have hnone : (s.file f).ip.isNone = false := by rw [← Option.not_isSome, hip]; rfl
 rw [fileclose_last htype hlast]
 unfold fileFinish
 rw [freed_file]
 rcases h with ⟨hpipe, pi, ends, hfile, hpi, heq⟩ | ⟨hpipe, heq⟩
 · have hclose := pipeClose_eq (s := s.setFile f { s.file f with ref := 0, type := .none }) hpi
    (s.file f).writable
   rw [← hfile] at hclose
   dsimp only
   rw [if_pos hpipe, hclose, Option.bind_some, hnone, if_neg Bool.false_ne_true, heq]
   rfl
 dsimp only
 rw [if_neg hpipe, Option.bind_some, hnone, if_neg Bool.false_ne_true, heq]
 rfl

theorem fileclose_some (h : s.fileclose f = some next) : (s.file f).type ≠ .none ∧
      (1 < (s.file f).ref ∧ next = s.setFile f { s.file f with ref := (s.file f).ref - 1 } ∨
        (s.file f).ref ≤ 1 ∧ (s.file f).ip.isSome ∧ exists pipes, s.ShutPipes f pipes ∧
          next = s.lastClosed f pipes) := by
 have htype : (s.file f).type ≠ .none := by
  intro hnone
  unfold fileclose fileRelease at h
  rw [if_pos hnone] at h
  cases h
 refine ⟨htype, ?_⟩
 by_cases hmore : 1 < (s.file f).ref
 · rw [fileclose_more htype hmore] at h
   exact .inl ⟨hmore, (Option.some.inj h).symm⟩
 have hlast : (s.file f).ref ≤ 1 := by omega
 refine .inr ⟨hlast, ?_⟩
 have hfinish := h
 rw [fileclose_last htype hlast] at hfinish
 unfold fileFinish at hfinish
 rw [freed_file] at hfinish
 rcases Option.bind_eq_some_iff.mp hfinish with ⟨closed, hclosed, hput⟩
 have hip : (s.file f).ip.isSome := by
  cases hsome : (s.file f).ip with
  | some ip => rfl
  | none =>
   rw [hsome] at hput
   cases hput
 refine ⟨hip, ?_⟩
 have hshut : exists pipes, s.ShutPipes f pipes := by
  by_cases hpipe : (s.file f).type = .pipe
  · dsimp only at hclosed
    rw [if_pos hpipe] at hclosed
    rcases pipeClose_some hclosed with ⟨pi, ends, hfile, hpi, _⟩
    exact ⟨_, .inl ⟨hpipe, pi, ends, hfile, hpi, rfl⟩⟩
  · exact ⟨_, .inr ⟨hpipe, rfl⟩⟩
 rcases hshut with ⟨pipes, hshut⟩
 rw [fileclose_eq htype hlast hip hshut] at h
 exact ⟨pipes, hshut, (Option.some.inj h).symm⟩

theorem Exact.drop {file : File} (h : s.Exact f) (hk : s.fds k = some f)
  (hfile : next.file f = file) (hfds : next.fds = update s.fds k none)
  (href : file.ref = (s.file f).ref - 1)
  (htype : file.type = .none ↔ file.ref = 0) : next.Exact f := by
 unfold Exact
 rw [hfile]
 refine ⟨?_, htype⟩
 rw [href]
 refine h.left.erase (x := k) hk ?_
 intro j
 rw [hfds]
 exact update_none_iff s.fds k j f

theorem Sound.drop {file : File} (h : Sound lost s) (hk : s.fds k = some f)
  (hfile : next.file = update s.file f file)
  (hfds : next.fds = update s.fds k none) (hlive : next.live = s.live)
  (hexact : next.Exact f) : Sound lost next := by
 have hpoints : forall g j, g ≠ f -> (next.fds j = some g ↔ s.fds j = some g) := by
  intro g j hg
  rw [hfds, update_none_iff]
  constructor
  · intro hboth
    exact hboth.right
  intro hold
  refine ⟨?_, hold⟩
  intro hjk
  rw [hjk, hk] at hold
  exact hg (Option.some.inj hold).symm
 have hother : forall g, g ≠ f -> next.file g = s.file g := by
  intro g hg
  rw [hfile]
  exact update_of_ne hg _ _
 constructor
 · intro j g hj
   rw [hfds, update_none_iff] at hj
   rw [hlive]
   exact h.entry j g hj.right
 · intro g hg hlost
   by_cases hgf : g = f
   · rw [hgf]
     exact hexact
   · exact (h.exact g hg hlost).congr (hother g hgf) (fun j => hpoints g j hgf)
 · intro g hg
   have hgf : g ≠ f := by
    intro hgf
    rw [hgf] at hg
    exact (h.missing f hg).right.right k hk
   exact ⟨(h.missing g hg).left,
    (h.missing g hg).right.congr (hother g hgf) (fun j => hpoints g j hgf)⟩
 · exact h.nodup

theorem Sound.release {temp : Option File} (h : Sound lost s) (hk : s.fds k = some f)
  (hnext : (s.setFd k none).fileRelease f = some (temp, next)) : Sound lost next := by
 have hexact := h.exact_of_entry hk
 have hpos := hexact.ref_pos hk
 rcases fileRelease_some hnext with ⟨htype, ⟨hmore, _, rfl⟩ | ⟨hlast, _, rfl⟩⟩
 · change 1 < (s.file f).ref at hmore
   refine h.drop hk rfl rfl rfl (hexact.drop hk (update_self ..) rfl rfl ⟨?_, ?_⟩)
   · intro hnone
     exact absurd hnone htype
   · intro hzero
     change (s.file f).ref - 1 = 0 at hzero
     omega
 change (s.file f).ref ≤ 1 at hlast
 refine h.drop hk rfl rfl rfl (hexact.drop hk (update_self ..) rfl ?_ ⟨fun _ => rfl, fun _ => rfl⟩)
 change (0 : Int) = (s.file f).ref - 1
 omega

theorem Sound.closes (h : Sound lost s) (hk : s.fds k = some f)
  (hnext : (s.setFd k none).fileclose f = some next) : Sound lost next := by
 rcases Option.bind_eq_some_iff.mp hnext with ⟨⟨temp, released⟩, hrelease, hrest⟩
 have hsound := h.release hk hrelease
 cases temp with
 | none =>
  cases hrest
  exact hsound
 | some temp =>
  -- what is left of the call changes the pipes and the record of calls only
  rcases fileFinish_some hrest with ⟨closed, rfl, ⟨_, hclosed⟩ | ⟨_, rfl⟩⟩
  · rcases pipeClose_some hclosed with ⟨pi, ends, _, _, rfl⟩
    exact hsound.congr rfl rfl (fun k f hk => (hsound.entry k f hk).right.right)
  · exact hsound.congr rfl rfl (fun k f hk => (hsound.entry k f hk).right.right)

variable {f0 f1 pi : Nat}

theorem initPipe_file_of_ne (h0 : g ≠ f0) (h1 : g ≠ f1) :
  (s.initPipe f0 f1 pi).file g = s.file g := by
 change update (update s.file f0 _) f1 _ g = s.file g
 rw [update_of_ne h1, update_of_ne h0]

theorem initPipe_read (hne : f0 ≠ f1) : (s.initPipe f0 f1 pi).file f0 = readEnd (s.file f0) pi := by
 change update (update s.file f0 _) f1 _ f0 = _
 rw [update_of_ne hne, update_self]

theorem initPipe_write (hne : f0 ≠ f1) :
  (s.initPipe f0 f1 pi).file f1 = writeEnd (s.file f1) pi := by
 change update (update s.file f0 _) f1 (writeEnd (update s.file f0 _ f1) pi) f1 = _
 rw [update_self, update_of_ne hne.symm]

theorem Sound.pipes (h : Sound lost s) (h0 : f0 ∈ lost) (h1 : f1 ∈ lost)
  (hne : f0 ≠ f1) : Sound lost (s.initPipe f0 f1 pi) := by
 exact { h with
  exact := by
   intro g hg hlost
   have hg0 : g ≠ f0 := fun heq => hlost (heq ▸ h0)
   have hg1 : g ≠ f1 := fun heq => hlost (heq ▸ h1)
   exact (h.exact g hg hlost).congr (initPipe_file_of_ne hg0 hg1) (fun _ => Iff.rfl)
  missing := by
   intro g hg
   rcases h.missing g hg with ⟨hrange, hone, hnone⟩
   refine ⟨hrange, ?_, hnone⟩
   by_cases hg1 : g = f1
   · rw [hg1, initPipe_write hne]
     rw [hg1] at hone
     exact hone
   by_cases hg0 : g = f0
   · rw [hg0, initPipe_read hne]
     rw [hg0] at hone
     exact hone
   rw [initPipe_file_of_ne hg0 hg1]
   exact hone }

theorem Sound.move (h : Sound lost s) (hmove : Move terms lost s lost' next) :
  Sound lost' next := by
 cases hmove with
 | opens hf htype hk => exact h.opens hf hk
 | refuses | misses | enters => exact h.congr rfl rfl (fun k f hk => (h.entry k f hk).right.right)
 | copies hj hk => exact h.copies hj hk
 | closes hk hnext => exact h.closes hk hnext
 | takes hf => exact h.takes hf
 | pipes h0 h1 hne => exact h.pipes h0 h1 hne
 | gives hf htype hk => exact h.gives hf htype hk
 | begins hp hchild =>
  rename_i p child
  apply h.congr
  · rfl
  · rfl
  intro k f hk
  have hlive := (h.entry k f hk).right.right
  change update s.live child true k.1 = true
  by_cases heq : k.1 = child
  · rw [heq, update_self]
  rw [update_of_ne heq]
  exact hlive
 | ends hp hnone =>
  rename_i p
  apply h.congr
  · rfl
  · rfl
  intro k f hk
  change update s.live p false k.1 = true
  have heq : k.1 ≠ p := by
   intro heq
   have hempty := hnone k.2
   rw [← heq] at hempty
   rw [hk] at hempty
   cases hempty
  rw [update_of_ne heq]
  exact (h.entry k f hk).right.right

theorem Sound.moves (h : Sound lost s) (hmoves : Moves terms lost s lost' next) :
  Sound lost' next := by
 induction hmoves with
 | refl => exact h
 | tail _ hmove ih => exact (ih h).move hmove

end OSLab.Fs.Files
