import OSLab.Fs.File.Slots

/-!
# System calls as moves

What each system call on files does, as a sequence of moves.  Only `pipe2` leaves lost
slots behind: when it gets one slot but no second one, and when it gets two slots but
no descriptors for both.
-/

namespace OSLab.Fs.Files
open Function List Option
variable {terms : Terms} {lost : List Nat} {s next : Files} {f : Nat}
 {p : Pid} {r : Int} {test : Nat -> Bool}

theorem firstIndex_some {bound i : Nat} (h : firstIndex test bound = some i) : i < bound ∧ test i :=
 ⟨mem_range.mp (mem_of_find?_eq_some h), find?_some h⟩

theorem firstIndex_none {bound i : Nat}
  (h : firstIndex test bound = none) (hi : i < bound) : test i = false := by
 have hnot := find?_eq_none.mp h i (mem_range.mpr hi)
 rw [Bool.not_eq_true] at hnot
 exact hnot

theorem free_of_freeSlot (h : s.freeSlot = some f) : s.Free f := by
 have hfirst := firstIndex_some h
 exact ⟨hfirst.left, of_decide_eq_true hfirst.right⟩

theorem vacant_of_freeFd {fd : Nat} (hp : s.live p) (h : s.freeFd p = some fd) :
  s.Vacant (p, fd) := by
 have hfirst := firstIndex_some h
 exact ⟨hfirst.left, hp, isNone_iff_eq_none.mp hfirst.right⟩

theorem filealloc_of_some (h : s.freeSlot = some f) : s.filealloc = (some f, s.take f) := by
 unfold filealloc
 rw [h]

theorem filealloc_of_none (h : s.freeSlot = none) : s.filealloc = (none, s) := by
 unfold filealloc
 rw [h]

theorem fdalloc_of_some {fd : Nat} (h : s.freeFd p = some fd) :
  s.fdalloc p f = (some fd, s.setFd (p, fd) (some f)) := by
 unfold fdalloc
 rw [h]

theorem fdalloc_of_none (h : s.freeFd p = none) : s.fdalloc p f = (none, s) := by
 unfold fdalloc
 rw [h]

def SameTables (s next : Files) : Prop := next.file = s.file ∧ next.fds = s.fds

theorem sameTables_refl (s : Files) : s.SameTables s := ⟨rfl, rfl⟩

/-!
# Calls that lose nothing
-/

theorem dup_moves {fd : Int} (hp : s.live p) (h : s.dup p fd = some (r, next)) :
  Moves terms lost s lost next ∧ (r = -1 -> s.SameTables next) := by
 unfold dup at h
 cases hfile : s.fd2file p fd with
 | none =>
  rw [hfile] at h
  cases h
  exact ⟨.refl lost s, fun _ => sameTables_refl s⟩
 | some f =>
  rw [hfile] at h
  simp only at h
  have hentry : exists k, s.fds k = some f := by
   unfold fd2file at hfile
   split at hfile
   · exact ⟨_, hfile⟩
   · cases hfile
  rcases hentry with ⟨j, hj⟩
  cases hfd : s.freeFd p with
  | none =>
   rw [fdalloc_of_none hfd] at h
   cases h
   exact ⟨.refl lost s, fun _ => sameTables_refl s⟩
  | some fd' =>
   rw [fdalloc_of_some hfd] at h
   cases h
   constructor
   · exact moves_one (.copies hj (vacant_of_freeFd hp hfd))
   · intro hminus
     omega

theorem close_moves {fd : Int} (hterms : forall f, s.fds (p, fd.toNat) = some f -> terms.closes s f)
  (h : s.close p fd = some (r, next)) :
  Moves terms lost s lost next ∧ (r = -1 -> s.SameTables next) := by
 unfold close at h
 split at h
 · cases hentry : s.fds (p, fd.toNat) with
   | none =>
    rw [hentry] at h
    cases h
   | some f =>
    rw [hentry] at h
    rcases map_eq_some_iff.mp h with ⟨closed, hclosed, ⟨⟩⟩
    constructor
    · exact moves_one (.closes hentry hclosed (hterms f hentry))
    · intro hminus
      omega
 cases h
 exact ⟨.refl lost s, fun _ => sameTables_refl s⟩

theorem fileclose_of_none (h : (s.file f).type = .none) : s.fileclose f = none := by
 unfold fileclose fileRelease
 rw [if_pos h]
 rfl

theorem take_type (s : Files) (f g : Nat) : ((s.take f).file g).type = (s.file g).type := by
 change (update s.file f { s.file f with ref := 1 } g).type = (s.file g).type
 by_cases hg : g = f
 · rw [hg, update_self]
 · rw [update_of_ne hg]

theorem ask_ask (s : Files) (calls more : List InodeCall) :
  (s.ask calls).ask more = s.ask (calls ++ more) := by
 unfold ask
 rw [append_assoc]

theorem openFile_eq (s : Files) (f ip : Nat) (k : Pid × Nat) (omode : BitVec 32) :
  (((((s.ask [.beginOp, .got ip, .lock ip]).take f).setFd k (some f)).ask
    [.unlock ip, .endOp]).setFile f (opened
      (((((s.ask [.beginOp, .got ip, .lock ip]).take f).setFd k (some f)).ask
        [.unlock ip, .endOp]).file f) ip omode)) = s.openFile f k ip omode := by
 unfold setFile setFd take setFile ask openFile
 simp only [Function.update_idem, update_self, append_assoc, cons_append, nil_append]

theorem openat_moves {found : Option Nat} {omode : BitVec 32} (hs : Sound lost s)
  (hp : s.live p) (hterms : forall f, s.freeSlot = some f -> terms.takes s f)
  (h : s.openat p found omode = some (r, next)) :
  Moves terms lost s lost next ∧ (r = -1 -> s.SameTables next) := by
 unfold openat at h
 cases found with
 | none =>
  cases h
  exact ⟨moves_one .misses, fun _ => sameTables_refl s⟩
 | some ip =>
  simp only at h
  cases hslot : s.freeSlot with
  | none =>
   rw [filealloc_of_none (s := s.ask [.beginOp, .got ip, .lock ip]) hslot] at h
   cases h
   refine ⟨moves_one ?_, fun _ => sameTables_refl s⟩
   rw [ask_ask]
   exact .refuses
  | some f =>
   have hfree := free_of_freeSlot hslot
   have htype := hs.type_of_free hfree
   rw [filealloc_of_some (s := s.ask [.beginOp, .got ip, .lock ip]) hslot] at h
   simp only at h
   cases hfd : s.freeFd p with
   | none =>
    -- there is no descriptor, and the slot has no type yet
    rw [fdalloc_of_none (s := (s.ask [.beginOp, .got ip, .lock ip]).take f) hfd] at h
    simp only at h
    rw [fileclose_of_none (s := (s.ask [.beginOp, .got ip, .lock ip]).take f)
     ((take_type _ f f).trans htype)] at h
    cases h
   | some fd =>
    rw [fdalloc_of_some (s := (s.ask [.beginOp, .got ip, .lock ip]).take f) hfd] at h
    cases h
    constructor
    · rw [openFile_eq]
      exact moves_one (.opens hfree htype (vacant_of_freeFd hp hfd) (hterms f hslot))
    · intro hminus
      omega

theorem enter_eq (s : Files) (p : Pid) (ip : Nat) :
  { (s.ask [.beginOp, .got ip, .lock ip, .unlock ip]).ask [.put (s.cwd p), .endOp] with
    cwd := update s.cwd p (some ip) } = s.enter p ip := by
 unfold ask enter
 rw [append_assoc]
 rfl

theorem chdir_moves {found : Option (Nat × Bool)} (hp : s.live p)
  (h : s.chdir p found = some (r, next)) :
  Moves terms lost s lost next ∧ (r = -1 -> s.SameTables next) := by
 unfold chdir at h
 split at h
 · cases h
   exact ⟨moves_one .misses, fun _ => sameTables_refl s⟩
 rename_i ip isDirectory
 split at h
 · cases h
   constructor
   · rw [enter_eq]
     exact moves_one (.enters hp)
   · intro hminus
     omega
 cases h
 refine ⟨moves_one ?_, fun _ => sameTables_refl s⟩
 rw [ask_ask]
 exact .refuses

/-!
# Processes
-/

theorem fork_moves_loop {child : Pid} (items : List Nat)
  (hnodup : items.Nodup) (hrange : forall i, i ∈ items -> i < nofile)
  (hlive : s.live child) (hnone : forall i, i ∈ items -> s.fds (child, i) = none) :
  Moves terms lost s lost (items.foldl (copyFd p child) s) := by
 induction items generalizing s with
 | nil => exact .refl lost s
 | cons i rest ih =>
  rw [foldl_cons]
  rw [nodup_cons] at hnodup
  have hrest : forall j, j ∈ rest -> j < nofile := fun j hj => hrange j (mem_cons_of_mem i hj)
  have hleft : forall j, j ∈ rest -> s.fds (child, j) = none :=
   fun j hj => hnone j (mem_cons_of_mem i hj)
  cases hentry : s.fds (p, i) with
  | none =>
   rw [show copyFd p child s i = s by unfold copyFd; rw [hentry]]
   exact ih hnodup.right hrest hlive hleft
  | some f =>
   rw [show copyFd p child s i = (s.filedup f).setFd (child, i) (some f) by
    unfold copyFd; rw [hentry]]
   have hvacant : s.Vacant (child, i) := ⟨hrange i mem_cons_self, hlive, hnone i mem_cons_self⟩
   apply moves_trans (moves_one (.copies hentry hvacant))
   refine ih hnodup.right hrest hlive ?_
   intro j hj
   change update s.fds (child, i) (some f) (child, j) = none
   rw [update_of_ne]
   · exact hleft j hj
   intro heq
   rw [(Prod.mk.inj heq).right] at hj
   exact hnodup.left hj

theorem fork_eq (s : Files) (p child : Pid) :
  s.fork p child = (range nofile).foldl (copyFd p child) (s.addProc p child) := by
 rfl

theorem fork_moves {child : Pid} (hs : Sound lost s) (hp : s.live p)
  (hchild : s.live child = false) : Moves terms lost s lost (s.fork p child) := by
 rw [fork_eq]
 apply moves_trans (moves_one (.begins hp hchild))
 apply fork_moves_loop (range nofile) nodup_range
 · intro i hi
   exact mem_range.mp hi
 · exact update_self ..
 intro i _
 cases hentry : s.fds (child, i) with
 | none => exact hentry
 | some f =>
  rw [(hs.entry (child, i) f hentry).right.right] at hchild
  cases hchild

theorem fileclose_setFd {k : Pid × Nat} {x : Option Nat} (h : s.fileclose f = some next) :
  (s.setFd k x).fileclose f = some (next.setFd k x) := by
 rcases fileclose_some h with ⟨htype, ⟨hmore, heq⟩ | ⟨hlast, hip, pipes, hshut, heq⟩⟩
 · rw [fileclose_more (s := s.setFd k x) htype hmore, heq]
   rfl
 rw [fileclose_eq (s := s.setFd k x) htype hlast hip hshut, heq]
 rfl

theorem fileclose_file (h : s.fileclose f = some next) (g : Nat) :
  (next.file g).ip = (s.file g).ip ∧ ((next.file g).type = .pipe -> (s.file g).type = .pipe) := by
 rcases fileclose_some h with ⟨_, ⟨_, rfl⟩ | ⟨_, _, pipes, _, rfl⟩⟩
 · by_cases hg : g = f
   · rw [hg, show (s.setFile f _).file f = _ from update_self ..]
     exact ⟨rfl, id⟩
   · rw [show (s.setFile f _).file g = s.file g from update_of_ne hg ..]
     exact ⟨rfl, id⟩
 · by_cases hg : g = f
   · rw [hg, show (s.lastClosed f pipes).file f = _ from update_self ..]
     exact ⟨rfl, fun hbad => nomatch hbad⟩
   · rw [show (s.lastClosed f pipes).file g = s.file g from update_of_ne hg ..]
     exact ⟨rfl, id⟩

theorem fileclose_kept (h : s.fileclose f = some next) :
  next.fds = s.fds ∧ next.live = s.live ∧ next.cwd = s.cwd := by
 rcases fileclose_some h with ⟨_, ⟨_, heq⟩ | ⟨_, _, pipes, _, heq⟩⟩
 all_goals
  rw [heq]
  exact ⟨rfl, rfl, rfl⟩

structure Emptied (p : Pid) (n : Nat) (s next : Files) : Prop where
 emptied : forall i, i < n -> next.fds (p, i) = none
 later : forall i, n ≤ i -> next.fds (p, i) = s.fds (p, i)
 other : forall k, k.1 ≠ p -> next.fds k = s.fds k
 live : next.live = s.live
 cwd : next.cwd = s.cwd
 file : forall g, (next.file g).ip = (s.file g).ip ∧
  ((next.file g).type = .pipe -> (s.file g).type = .pipe)

theorem emptied_zero (p : Pid) (s : Files) : Emptied p 0 s s :=
 ⟨fun _ hi => absurd hi (Nat.not_lt_zero _), fun _ _ => rfl, fun _ _ => rfl, rfl, rfl,
  fun _ => ⟨rfl, id⟩⟩

theorem Emptied.succ {n : Nat} {mid : Files} (h : Emptied p n s mid)
  (hfds : next.fds = update mid.fds (p, n) none) (hlive : next.live = mid.live)
  (hcwd : next.cwd = mid.cwd) (hfile : forall g, (next.file g).ip = (mid.file g).ip ∧
    ((next.file g).type = .pipe -> (mid.file g).type = .pipe)) : Emptied p (n + 1) s next := by
 have hother : forall i, i ≠ n -> next.fds (p, i) = mid.fds (p, i) := by
  intro i hi
  rw [hfds, update_of_ne (fun heq => hi (Prod.mk.inj heq).right)]
 constructor
 · intro i hi
   by_cases heq : i = n
   · rw [hfds, heq, update_self]
   rw [hother i heq]
   exact h.emptied i (by omega)
 · intro i hi
   rw [hother i (by omega)]
   exact h.later i (by omega)
 · intro k hk
   rw [hfds, update_of_ne (fun heq => hk (by rw [heq]))]
   exact h.other k hk
 · exact hlive.trans h.live
 · exact hcwd.trans h.cwd
 · intro g
   exact ⟨(hfile g).left.trans (h.file g).left, (h.file g).right ∘ (hfile g).right⟩

def closeFirst (p : Pid) (n : Nat) (s : Files) : Option Files := (range n).foldlM (closeFd p) s

theorem closeFirst_succ (p : Pid) (n : Nat) (s : Files) :
  s.closeFirst p (n + 1) = (s.closeFirst p n).bind (fun mid => mid.closeFd p n) := by
 unfold closeFirst
 rw [range_succ, foldlM_append]
 cases (range n).foldlM (closeFd p) s with
 | none => rfl
 | some mid =>
  change ([n].foldlM (closeFd p) mid) = mid.closeFd p n
  rw [foldlM_cons]
  cases mid.closeFd p n <;> rfl

theorem closeFirst_moves (terms : Terms) (lost : List Nat) {n : Nat}
  (hterms : forall m mid f, m < n -> s.closeFirst p m = some mid -> mid.fds (p, m) = some f ->
    terms.closes mid f) (h : s.closeFirst p n = some next) :
  Moves terms lost s lost next ∧ Emptied p n s next := by
 induction n generalizing next with
 | zero =>
  rw [← some.inj h]
  exact ⟨.refl lost s, emptied_zero p s⟩
 | succ n ih =>
  rw [closeFirst_succ] at h
  rcases bind_eq_some_iff.mp h with ⟨mid, hmid, hlast⟩
  rcases ih (fun m mid f hm => hterms m mid f (by omega)) hmid with ⟨hmoves, hempty⟩
  unfold closeFd at hlast
  cases hentry : mid.fds (p, n) with
  | none =>
   rw [hentry] at hlast
   rw [← some.inj hlast]
   refine ⟨hmoves, hempty.succ ?_ rfl rfl (fun _ => ⟨rfl, id⟩)⟩
   rw [← hentry, update_eq_self]
  | some f =>
   rw [hentry] at hlast
   rcases map_eq_some_iff.mp hlast with ⟨closed, hclosed, heq⟩
   rcases fileclose_kept hclosed with ⟨hfds, hlive, hcwd⟩
   rw [← heq]
   constructor
   · exact .tail hmoves (.closes hentry (fileclose_setFd hclosed)
      (hterms n mid f (by omega) hmid hentry))
   refine hempty.succ ?_ hlive hcwd (fun g => fileclose_file hclosed g)
   rw [← hfds]
   rfl

/-- A file that another process has open keeps a descriptor in every round. -/
theorem Sound.shared_round {m : Nat} {mid : Files} {k : Pid × Nat} (hs : Sound lost s)
  (hmid : s.closeFirst p m = some mid) (hf : mid.fds (p, m) = some f) (hk : k.1 ≠ p)
  (hother : s.fds k = some f) : 1 < (mid.file f).ref := by
 rcases closeFirst_moves anyTerms lost (fun _ _ _ _ _ _ => trivial) hmid with ⟨hmoves, hempty⟩
 have hleft : mid.fds k = some f := by
  rw [hempty.other k hk]
  exact hother
 have hexact := (hs.moves hmoves).exact_of_entry hf
 have htwo := hexact.left.two_le hf hleft (fun heq => hk (by rw [← heq]))
 omega

theorem exit_moves (hs : Sound lost s) (hp : s.live p)
  (hterms : forall m mid f, s.closeFirst p m = some mid -> mid.fds (p, m) = some f ->
    terms.closes mid f) (h : s.exit p = some next) : Moves terms lost s lost next := by
 rcases map_eq_some_iff.mp h with ⟨closed, hclosed, heq⟩
 rcases closeFirst_moves terms lost (fun m mid f _ => hterms m mid f) hclosed with ⟨hmoves, hempty⟩
 have hnone : forall i, closed.fds (p, i) = none := by
  intro i
  by_cases hi : i < nofile
  · exact hempty.emptied i hi
  rw [hempty.later i (by omega)]
  cases hentry : s.fds (p, i) with
  | none => rfl
  | some f => exact absurd (hs.entry (p, i) f hentry).right.left hi
 have hlive : closed.live p := by
  rw [hempty.live]
  exact hp
 have hnext : closed.removeProc p = next := by
  rw [← heq]
  unfold removeProc ask
  rw [hempty.live, hempty.cwd]
 rw [← hnext]
 exact moves_trans hmoves (moves_one (.ends hlive hnone))

/-!
# Pipes
-/

theorem not_free_of_take {f0 f1 : Nat} (h : (s.take f0).Free f1) : f0 ≠ f1 := by
 intro heq
 have hzero := h.right
 rw [← heq] at hzero
 change (update s.file f0 { s.file f0 with ref := 1 } f0).ref = 0 at hzero
 rw [update_self] at hzero
 cases hzero

theorem take_file_of_ne {g : Nat} (hg : g ≠ f) : (s.take f).file g = s.file g := update_of_ne hg _ _

/-- The conditions hold of two slots that are taken and become a pipe. -/
structure Terms.MetByPair (terms : Terms) (s : Files) (f0 f1 : Nat) : Prop where
 first : terms.takes s f0
 second : terms.takes (s.take f0) f1
 pipes : terms.pipes ((s.take f0).take f1) f0 f1

theorem pipeAlloc_moves {f0 f1 pi : Nat} (hs : Sound lost s) (hf0 : s.Free f0)
  (hf1 : (s.take f0).Free f1) (hpi : s.pipes pi = none) (hterms : terms.MetByPair s f0 f1) :
  Moves terms lost s (f1 :: f0 :: lost) (((s.take f0).take f1).initPipe f0 f1 pi) := by
 have hne := not_free_of_take hf1
 have htype0 := hs.type_of_free hf0
 have htype1 : (s.file f1).type = .none := by
  rw [← take_type s f0 f1]
  exact (hs.takes hf0).type_of_free hf1
 apply moves_trans (moves_one (.takes hf0 hterms.first))
 apply moves_trans (moves_one (.takes hf1 hterms.second))
 apply moves_one
 apply Move.pipes
 · exact mem_cons_of_mem f1 mem_cons_self
 · exact mem_cons_self
 · exact hne
 · rw [take_type, take_type]
   exact htype0
 · rw [take_type, take_type]
   exact htype1
 · exact hpi
 · exact hterms.pipes

inductive Pipe2 (s : Files) (p : Pid) (memory : Option Nat) : Int -> Files -> Prop where
 | noSlot (hslot : s.freeSlot = none) : Pipe2 s p memory (-1) s
 | oneSlot {f0 : Nat} (hf0 : s.freeSlot = some f0) (hf1 : (s.take f0).freeSlot = none) :
  Pipe2 s p memory (-1) (s.take f0)
 | noFd {f0 f1 pi : Nat} (hf0 : s.freeSlot = some f0) (hf1 : (s.take f0).freeSlot = some f1)
  (hmemory : memory = some pi) (hfd0 : s.freeFd p = none) :
  Pipe2 s p memory (-1) (((s.take f0).take f1).initPipe f0 f1 pi)
 | oneFd {f0 f1 pi fd0 : Nat} {closed : Int × Files} (hf0 : s.freeSlot = some f0)
  (hf1 : (s.take f0).freeSlot = some f1) (hmemory : memory = some pi)
  (hfd0 : s.freeFd p = some fd0) (hfd1 : (s.setFd (p, fd0) (some f0)).freeFd p = none)
  (hclosed : ((((s.take f0).take f1).initPipe f0 f1 pi).setFd (p, fd0)
   (some f0)).close p fd0 = some closed) :
  Pipe2 s p memory (-1) closed.2
 | done {f0 f1 pi fd0 fd1 : Nat} (hf0 : s.freeSlot = some f0)
  (hf1 : (s.take f0).freeSlot = some f1) (hmemory : memory = some pi)
  (hfd0 : s.freeFd p = some fd0)
  (hfd1 : (s.setFd (p, fd0) (some f0)).freeFd p = some fd1) :
  Pipe2 s p memory 0 (((((s.take f0).take f1).initPipe f0 f1 pi).setFd (p, fd0)
   (some f0)).setFd (p, fd1) (some f1))

variable {memory : Option Nat}

theorem pipe2_cases (hs : Sound lost s)
  (h : s.pipe2 p memory = some (r, next)) : Pipe2 s p memory r next := by
 unfold pipe2 pipeAlloc at h
 cases hf0 : s.freeSlot with
 | none =>
  rw [filealloc_of_none hf0] at h
  simp only [filealloc_of_none hf0] at h
  cases h
  exact .noSlot hf0
 | some f0 =>
  rw [filealloc_of_some hf0] at h
  simp only at h
  cases hf1 : (s.take f0).freeSlot with
  | none =>
   rw [filealloc_of_none hf1] at h
   cases h
   exact .oneSlot hf0 hf1
  | some f1 =>
   rw [filealloc_of_some hf1] at h
   cases memory with
   | none =>
    -- the slots have no type yet, so they cannot be closed
    have htype := hs.type_of_free (free_of_freeSlot hf0)
    simp only [fileclose_of_none (s := (s.take f0).take f1)
     (((take_type _ f1 f0).trans (take_type s f0 f0)).trans htype)] at h
    cases h
   | some pi =>
    simp only at h
    cases hfd0 : s.freeFd p with
    | none =>
     rw [fdalloc_of_none (s := ((s.take f0).take f1).initPipe f0 f1 pi) hfd0] at h
     simp only at h
     rw [fdalloc_of_none (s := ((s.take f0).take f1).initPipe f0 f1 pi) hfd0] at h
     cases h
     exact .noFd hf0 hf1 rfl hfd0
    | some fd0 =>
     rw [fdalloc_of_some (s := ((s.take f0).take f1).initPipe f0 f1 pi) hfd0] at h
     simp only at h
     cases hfd1 : (s.setFd (p, fd0) (some f0)).freeFd p with
     | none =>
      rw [fdalloc_of_none (s := (((s.take f0).take f1).initPipe f0 f1 pi).setFd (p, fd0)
        (some f0)) hfd1] at h
      rcases map_eq_some_iff.mp h with ⟨closed, hclosed, ⟨⟩⟩
      exact .oneFd hf0 hf1 rfl hfd0 hfd1 hclosed
     | some fd1 =>
      rw [fdalloc_of_some (s := (((s.take f0).take f1).initPipe f0 f1 pi).setFd (p, fd0)
        (some f0)) hfd1] at h
      cases h
      exact .done hf0 hf1 rfl hfd0 hfd1

theorem pipe2_gives {f0 f1 pi fd0 : Nat} (hs : Sound lost s) (hp : s.live p)
  (hf0 : s.Free f0) (hf1 : (s.take f0).Free f1) (hpi : s.pipes pi = none)
  (hterms : terms.MetByPair s f0 f1) (hfd0 : s.freeFd p = some fd0) :
  Moves terms lost s (f1 :: lost)
    ((((s.take f0).take f1).initPipe f0 f1 pi).setFd (p, fd0) (some f0)) := by
 have hne := not_free_of_take hf1
 have herase : (f1 :: f0 :: lost).erase f0 = f1 :: lost := by
  rw [erase_cons_tail (by simpa using hne.symm), erase_cons_head]
 rw [← herase]
 apply moves_trans (pipeAlloc_moves hs hf0 hf1 hpi hterms)
 apply moves_one
 apply Move.gives (mem_cons_of_mem f1 mem_cons_self)
 · rw [initPipe_read hne]
   nofun
 · exact vacant_of_freeFd hp hfd0

/-- The conditions hold of the slots that `pipe2` takes, and of the one that it may close. -/
structure Terms.MetByPipe2 (terms : Terms) (s : Files) (p : Pid) (memory : Option Nat) :
  Prop where
 takes : forall f0, s.freeSlot = some f0 -> terms.takes s f0
 pipes : forall f0 f1, s.freeSlot = some f0 -> (s.take f0).freeSlot = some f1 ->
  terms.MetByPair s f0 f1
 closes : forall f0 f1 pi fd0, s.freeSlot = some f0 -> (s.take f0).freeSlot = some f1 ->
  memory = some pi -> s.freeFd p = some fd0 ->
  (s.setFd (p, fd0) (some f0)).freeFd p = none ->
  terms.closes ((((s.take f0).take f1).initPipe f0 f1 pi).setFd (p, fd0) (some f0)) f0

theorem Pipe2.moves (h : Pipe2 s p memory r next) (hs : Sound lost s)
  (hp : s.live p) (hpi : forall pi, memory = some pi -> s.pipes pi = none)
  (hterms : terms.MetByPipe2 s p memory) :
  exists lost', Moves terms lost s lost' next ∧ (r = 0 ∨ s.freeSlot = none -> lost' = lost) ∧
    (s.freeSlot = none -> s.SameTables next) := by
 have hfree : forall {f} {P : Prop}, s.freeSlot = some f -> s.freeSlot = none -> P := by
  intro f P hf hnone
  rw [hf] at hnone
  cases hnone
 have hfail : forall {f} {P : Prop}, s.freeSlot = some f ->
   (-1 : Int) = 0 ∨ s.freeSlot = none -> P :=
  fun hf hor => hor.elim nofun (hfree hf)
 cases h with
 | noSlot hslot => exact ⟨lost, .refl lost s, fun _ => rfl, fun _ => sameTables_refl s⟩
 | oneSlot hf0 hf1 => 
  exact ⟨_, moves_one (.takes (free_of_freeSlot hf0) (hterms.takes _ hf0)), hfail hf0, hfree hf0⟩
 | noFd hf0 hf1 hmemory hfd0 =>
  exact ⟨_, pipeAlloc_moves hs (free_of_freeSlot hf0) (free_of_freeSlot hf1)
   (hpi _ hmemory) (hterms.pipes _ _ hf0 hf1), hfail hf0, hfree hf0⟩
 | oneFd hf0 hf1 hmemory hfd0 hfd1 hclosed =>
  rename_i f0 f1 pi fd0 closed
  have hgives := pipe2_gives hs hp (free_of_freeSlot hf0) (free_of_freeSlot hf1)
   (hpi _ hmemory) (hterms.pipes _ _ hf0 hf1) hfd0
  refine ⟨_, moves_trans hgives (close_moves ?_ hclosed).left, hfail hf0, hfree hf0⟩
  intro f hf
  change update s.fds (p, fd0) (some f0) (p, fd0) = some f at hf
  rw [update_self] at hf
  rw [← some.inj hf]
  exact hterms.closes f0 f1 pi fd0 hf0 hf1 hmemory hfd0 hfd1
 | done hf0 hf1 hmemory hfd0 hfd1 =>
  rename_i f0 f1 pi fd0 fd1
  have hgives := pipe2_gives hs hp (free_of_freeSlot hf0) (free_of_freeSlot hf1)
   (hpi _ hmemory) (hterms.pipes _ _ hf0 hf1) hfd0
  have hne := not_free_of_take (free_of_freeSlot hf1)
  have hmore : Move terms (f1 :: lost)
   ((((s.take f0).take f1).initPipe f0 f1 pi).setFd (p, fd0) (some f0))
   ((f1 :: lost).erase f1)
   (((((s.take f0).take f1).initPipe f0 f1 pi).setFd (p, fd0) (some f0)).setFd (p, fd1)
    (some f1)) := by
   apply Move.gives mem_cons_self
   · change ((((s.take f0).take f1).initPipe f0 f1 pi).file f1).type ≠ FileType.none
     rw [initPipe_write hne]
     nofun
   · exact vacant_of_freeFd (s := s.setFd (p, fd0) (some f0)) hp hfd1
  rw [erase_cons_head] at hmore
  exact ⟨lost, .tail hgives hmore, fun _ => rfl, hfree hf0⟩

/-!
# Every call
-/

def FileLabel.keeps (r : Int) (s : Files) : FileLabel -> Prop
 | .pipe2 _ _ => r = 0 ∨ s.freeSlot = none
 | _ => True

def Terms.Met (terms : Terms) (s : Files) : FileLabel -> Prop
 | .openat _ _ _ => forall f, s.freeSlot = some f -> terms.takes s f
 | .close p fd => forall f, s.fds (p, fd.toNat) = some f -> terms.closes s f
 | .pipe2 p memory => terms.MetByPipe2 s p memory
 | .exit p => forall m mid f, s.closeFirst p m = some mid ->
  mid.fds (p, m) = some f -> terms.closes mid f
 | _ => True

theorem anyTerms_met (s : Files) (l : FileLabel) : anyTerms.Met s l := by
 cases l with
 | openat p found omode => exact fun _ _ => trivial
 | pipe2 p memory =>
  exact ⟨fun _ _ => trivial, fun _ _ _ _ => ⟨trivial, trivial, trivial⟩,
   fun _ _ _ _ _ _ _ _ _ => trivial⟩
 | close p fd => exact fun _ _ => trivial
 | exit p => exact fun _ _ _ _ _ => trivial
 | _ => trivial

theorem call_moves {l : FileLabel} (hs : Sound lost s) (hpossible : s.possible l)
  (hterms : terms.Met s l) (h : s.call l = some (r, next)) :
  exists lost', Moves terms lost s lost' next ∧
    (FileLabel.keeps r s l -> lost' = lost ∧ (r = -1 -> s.SameTables next)) := by
 unfold possible at hpossible
 rw [Bool.and_eq_true] at hpossible
 have hlive := hpossible.left
 have hextra := hpossible.right
 cases l with
 | openat p found omode =>
  change s.openat p found omode = some (r, next) at h
  have hmoves : Moves terms lost s lost next ∧ _ := openat_moves hs hlive hterms h
  exact ⟨lost, hmoves.left, fun _ => ⟨rfl, hmoves.right⟩⟩
 | dup p fd =>
  have hmoves : Moves terms lost s lost next ∧ _ := dup_moves hlive h
  exact ⟨lost, hmoves.left, fun _ => ⟨rfl, hmoves.right⟩⟩
 | close p fd =>
  have hmoves : Moves terms lost s lost next ∧ _ := close_moves hterms h
  exact ⟨lost, hmoves.left, fun _ => ⟨rfl, hmoves.right⟩⟩
 | pipe2 p memory =>
  have hfree : forall pi, memory = some pi -> s.pipes pi = none := by
   intro pi hmemory
   rw [hmemory] at hextra
   exact isNone_iff_eq_none.mp hextra
  change s.pipe2 p memory = some (r, next) at h
  rcases (pipe2_cases hs h).moves hs hlive hfree hterms with ⟨lost', hmoves, hkeeps, hsame⟩
  refine ⟨lost', hmoves, fun hr => ⟨hkeeps hr, ?_⟩⟩
  intro hminus
  rcases hr with hzero | hnone
  · rw [hzero] at hminus
    cases hminus
  · exact hsame hnone
 | chdir p found =>
  have hmoves : Moves terms lost s lost next ∧ _ := chdir_moves hlive h
  exact ⟨lost, hmoves.left, fun _ => ⟨rfl, hmoves.right⟩⟩
 | fork p child =>
  have hchild : s.live child = false := by simpa using hextra
  rcases Prod.mk.inj (some.inj h) with ⟨hr, hnext⟩
  rw [← hnext]
  refine ⟨lost, fork_moves hs hlive hchild, fun _ => ⟨rfl, ?_⟩⟩
  intro hminus
  omega
 | exit p =>
  unfold call at h
  simp only at h
  split at h
  · cases h
  rcases map_eq_some_iff.mp h with ⟨closed, hclosed, heq⟩
  rcases Prod.mk.inj heq with ⟨hr, hnext⟩
  rw [← hnext]
  refine ⟨lost, exit_moves hs hlive hterms hclosed, fun _ => ⟨rfl, ?_⟩⟩
  intro hminus
  omega

end OSLab.Fs.Files
