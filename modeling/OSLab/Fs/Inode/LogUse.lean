import OSLab.Fs.Inode.Operations

/-!
# What a call takes from the log

A call takes from the budget of its operation one entry for each block that it adds to
the log, and it adds no block twice.  What it does depends on the budget in one way only:
if that is smaller than the number of these blocks, `cache_sync` panics.
-/

namespace OSLab.Fs
open Foundation Program List

structure Logged {result : Type} (prog : FsProgram result) (s : FsState) (x : result)
  (next : FsState) (added : List Nat) : Prop where
 header : next.header = s.header ++ added
 nodup : s.header.Nodup -> next.header.Nodup
 budget : forall rm, prog { s with rm := rm } =
  if added.length ≤ rm then .ok (x, { next with rm := rm - added.length })
  else .error .logFull

def Logs {result : Type} (prog : FsProgram result) : Prop :=
 forall s x next, prog s = .ok (x, next) -> exists added, Logged prog s x next added

variable {result other : Type} {prog : FsProgram result} {s next : FsState} {x : result}

theorem logged_same (hheader : next.header = s.header)
  (hbudget : forall rm, prog { s with rm := rm } = .ok (x, { next with rm := rm })) :
  exists added, Logged prog s x next added := by
 refine ⟨[], ?_, ?_, fun rm => ?_⟩
 · rw [hheader, append_nil]
 · rw [hheader]
   exact id
 rw [hbudget, length_nil, if_pos (Nat.zero_le rm)]
 rfl

theorem Logs.bind {rest : result -> FsProgram other} (h : Logs prog)
  (hrest : forall x, Logs (rest x)) : Logs (prog >>= rest) := by
 intro s y next hrun
 rcases bind_eq_ok hrun with ⟨x, mid, hfirst, hsecond⟩
 rcases h s x mid hfirst with ⟨first, hlogged⟩
 rcases hrest x mid y next hsecond with ⟨second, hlogged'⟩
 refine ⟨first ++ second, ?_, fun hnodup => hlogged'.nodup (hlogged.nodup hnodup), fun rm => ?_⟩
 · rw [hlogged'.header, hlogged.header, append_assoc]
 have hrun' := hlogged.budget rm
 rw [length_append]
 by_cases hle : first.length ≤ rm
 · rw [if_pos hle] at hrun'
   rw [bind_ok hrun', hlogged'.budget]
   by_cases hmore : second.length ≤ rm - first.length
   · rw [if_pos hmore, if_pos (by omega), Nat.sub_sub]
   · rw [if_neg hmore, if_neg (by omega)]
 rw [if_neg hle] at hrun'
 rw [bind_error hrun', if_neg (by omega)]

theorem Logged.length_le {added : List Nat} (h : Logged prog s x next added)
  (hrun : prog s = .ok (x, next)) : added.length ≤ s.rm := by
 by_contra hmany
 have hstops := h.budget s.rm
 rw [if_neg hmany] at hstops
 cases hrun.symm.trans hstops

theorem Logs.meets (h : Logs prog) : prog.Meets s always (fun _ next => exists added,
    next.header = s.header ++ added ∧ (s.header.Nodup -> next.header.Nodup) ∧
      added.length ≤ s.rm) := by
 unfold Meets
 cases hrun : prog s with
 | error why => trivial
 | ok result =>
  rcases h s _ _ hrun with ⟨added, hlogged⟩
  exact ⟨added, hlogged.header, hlogged.nodup, hlogged.length_le hrun⟩

theorem logs_pure (x : result) : Logs (pure x) := by
 intro s _ _ hrun
 cases hrun
 exact logged_same rfl (fun _ => rfl)

theorem logs_stop (why : Stop) : Logs (stop why : FsProgram result) := nofun

theorem logs_read (f : FsState -> result) (hf : forall s rm, f { s with rm := rm } = f s) :
  Logs (read f) := by
 intro s _ _ hrun
 cases hrun
 exact logged_same rfl (fun rm => congrArg (fun x => Except.ok (x, _)) (hf s rm))

theorem logs_change (f : FsState -> FsState) (hheader : forall s, (f s).header = s.header)
  (hrm : forall s rm, f { s with rm := rm } = { f s with rm := rm }) : Logs (change f) := by
 intro s _ _ hrun
 cases hrun
 exact logged_same (hheader s) (fun rm => congrArg (fun s => Except.ok ((), s)) (hrm s rm))

theorem logs_require (why : Stop) (test : FsState -> Prop) [DecidablePred test]
  (htest : forall s rm, test s -> test { s with rm := rm }) : Logs (require why test) := by
 intro s _ _ hrun
 unfold require at hrun
 split at hrun
 · rename_i hs
   cases hrun
   exact logged_same rfl (fun rm => if_pos (htest s rm hs))
 · cases hrun

theorem cacheSync_eq (no : Nat) (s : FsState) : cacheSync true no s =
    if no ∈ s.header then .ok ((), s)
    else if 0 < s.rm then .ok ((), { s with header := s.header ++ [no], rm := s.rm - 1 })
    else .error .logFull := by
 unfold cacheSync
 rw [if_pos rfl, bind_ok (x := s.header) rfl]
 by_cases hno : no ∈ s.header
 · rw [if_pos hno, if_pos hno]
   rfl
 rw [if_neg hno, if_neg hno]
 by_cases hrm : 0 < s.rm
 · have hgoes : require Stop.logFull (fun s : FsState => 0 < s.rm) s = .ok ((), s) := if_pos hrm
   rw [if_pos hrm, bind_ok hgoes]
   rfl
 · have hstops : require Stop.logFull (fun s : FsState => 0 < s.rm) s = .error .logFull :=
    if_neg hrm
   rw [if_neg hrm, bind_error hstops]

theorem logs_cacheSync (ctx : Bool) (no : Nat) : Logs (cacheSync ctx no) := by
 cases ctx with
 | false => exact logs_pure ()
 | true =>
  intro s _ next hrun
  rw [cacheSync_eq] at hrun
  by_cases hno : no ∈ s.header
  · rw [if_pos hno] at hrun
    cases hrun
    refine logged_same rfl (fun rm => ?_)
    rw [cacheSync_eq]
    exact if_pos hno
  rw [if_neg hno] at hrun
  split at hrun
  · cases hrun
    refine ⟨[no], rfl, fun hnodup => ?_, fun rm => ?_⟩
    · apply Nodup.append hnodup (nodup_singleton no)
      rw [disjoint_singleton]
      exact hno
    rw [cacheSync_eq]
    exact if_neg hno
  · cases hrun

theorem logs_cacheAcquire (no : Nat) : Logs (cacheAcquire no) :=
 (logs_require _ _ fun _ _ h => h).bind fun _ => logs_change _ (fun _ => rfl) fun _ _ => rfl

theorem logs_cacheRelease (no : Nat) : Logs (cacheRelease no) :=
 logs_change _ (fun _ => rfl) fun _ _ => rfl

theorem logs_blockData (no : Nat) : Logs (blockData no) := logs_read _ fun _ _ => rfl

theorem logs_storeBlock (ctx : Bool) (no : Nat) (data : BlockData) :
  Logs (storeBlock ctx no data) := by
 have hwrite : Logs (writeData no data) := logs_change _ (fun _ => rfl) fun _ _ => rfl
 exact hwrite.bind fun _ => (logs_cacheSync ctx no).bind fun _ => logs_cacheRelease no

variable (sb : SuperBlock)

theorem logs_allocLoop (ctx : Bool) (indices : List Nat) : Logs (allocLoop sb ctx indices) := by
 induction indices with
 | nil => exact logs_stop _
 | cons index rest ih =>
  refine (logs_cacheAcquire _).bind fun _ => (logs_blockData _).bind fun bitmap => ?_
  split
  · refine (logs_blockData _).bind fun _ => (logs_storeBlock _ _ _).bind fun _ => ?_
    exact (logs_cacheAcquire _).bind fun _ => (logs_storeBlock _ _ _).bind fun _ => logs_pure _
  · exact (logs_cacheRelease _).bind fun _ => ih

theorem logs_inodeMap (ctx : Bool) (e : InodeEntry) (offset : Nat) :
  Logs (inodeMap sb ctx e offset) := by
 have halloc : Logs (cacheAlloc sb ctx) := logs_allocLoop sb ctx _
 have htable : Logs (mapTable sb ctx e) := by
  unfold mapTable
  split
  · exact halloc.bind fun _ => logs_pure _
  · exact logs_pure _
 have hslot : forall table, Logs (mapSlot sb ctx (offset - inodeNumDirect) table) := by
  intro table
  refine (logs_cacheAcquire _).bind fun _ => (logs_blockData _).bind fun data => ?_
  split
  · refine halloc.bind fun _ => (logs_blockData _).bind fun _ => ?_
    exact (logs_storeBlock _ _ _).bind fun _ => logs_pure _
  · exact (logs_cacheRelease _).bind fun _ => logs_pure _
 unfold inodeMap
 split
 · split
   · exact halloc.bind fun _ => logs_pure _
   · exact logs_pure _
 split
 · exact htable.bind hslot
 · exact logs_stop _

theorem logs_writeLoop (ctx : Bool) (src : Nat -> UInt8) (count fuel : Nat)
  (e : InodeEntry) (offset haveWrite : Nat) (modified : Bool) :
  Logs (writeLoop sb ctx src count fuel e offset haveWrite modified) := by
 induction fuel generalizing e offset haveWrite modified with
 | zero =>
  unfold writeLoop
  split
  · exact logs_stop _
  · exact logs_pure _
 | succ fuel ih =>
  unfold writeLoop
  split
  · refine (logs_inodeMap _ _ _ _).bind fun _ => (logs_cacheAcquire _).bind fun _ => ?_
    exact (logs_blockData _).bind fun _ => (logs_storeBlock _ _ _).bind fun _ => ih _ _ _ _
  · exact logs_pure _

theorem logs_inodeSync (ctx : Bool) (inode : Inode) (doWrite : Bool) :
  Logs (inodeSync sb ctx inode doWrite) := by
 refine (logs_cacheAcquire _).bind fun _ => (logs_blockData _).bind fun _ => ?_
 split
 · exact (logs_storeBlock _ _ _).bind fun _ => logs_pure _
 split
 all_goals
  exact (logs_cacheRelease _).bind fun _ => logs_pure _

theorem logs_inodeWrite (ctx : Bool) (inode : Inode) (src : Nat -> UInt8)
  (offset count : UInt64) : Logs (inodeWrite sb ctx inode src offset count) := by
 have hassert : forall (test : Prop) [Decidable test], Logs (require .failed fun _ => test) :=
  fun _ _ => logs_require _ _ fun _ _ h => h
 refine (hassert _).bind fun _ => (hassert _).bind fun _ => ?_
 refine (hassert _).bind fun _ => (hassert _).bind fun _ => ?_
 refine (logs_writeLoop _ _ _ _ _ _ _ _ _).bind fun _ => ?_
 split
 · exact (logs_inodeSync _ _ _ _).bind fun _ => logs_pure _
 · exact logs_pure _

end OSLab.Fs
