import OSLab.Fs.File.Counts

/-!
# The life of a pipe

If the slots that become a pipe are not left over from files with other permissions, and
no slot is taken while its end is being closed, then the flags of a pipe tell which of its
ends are open, and the pipe is freed when the second of them is closed.
-/

namespace OSLab.Fs
open Foundation Function Files
namespace PipeEnds
variable (ends : PipeEnds)

def isOpen : PipeSide -> Bool
 | .read => ends.readopen
 | .write => ends.writeopen

def clear : PipeSide -> PipeEnds
 | .read => { ends with readopen := false }
 | .write => { ends with writeopen := false }

theorem clear_self (side : PipeSide) : (ends.clear side).isOpen side = false := by
 cases side <;> rfl

theorem clear_other (side : PipeSide) :
  (ends.clear side).isOpen side.other = ends.isOpen side.other := by
 cases side <;> rfl

theorem shut_side (side : PipeSide) : ends.shut (decide (side = .write)) =
    if ends.isOpen side.other = true then some (ends.clear side) else none := by
 rcases ends with ⟨readopen, writeopen⟩
 cases side <;> cases readopen <;> cases writeopen <;> rfl

end PipeEnds

theorem sides_ne {side side' : PipeSide} (h : side ≠ side') : side' = side.other := by
 cases side <;> cases side'
 · exact absurd rfl h
 · rfl
 · rfl
 · exact absurd rfl h

/-!
# Ends and pipes

The slots that are ends of pipes, each with its pipe and its side.
-/

@[ext] structure EndTable where
 endOf : Nat -> Option (Nat × PipeSide)
 pipes : Nat -> Option PipeEnds

namespace EndTable
variable {t : EndTable} {f f0 f1 pi : Nat} {side : PipeSide} {ends : PipeEnds}

structure Fit (t : EndTable) : Prop where
 unique : forall f g k, t.endOf f = some k -> t.endOf g = some k -> f = g
 flag : forall pi ends side, t.pipes pi = some ends ->
  (ends.isOpen side = true ↔ exists f, t.endOf f = some (pi, side))
 allocated : forall pi, t.pipes pi ≠ none ↔ exists f side, t.endOf f = some (pi, side)

def close (t : EndTable) (f pi : Nat) (side : PipeSide) (ends : PipeEnds) : EndTable where
 endOf := update t.endOf f none
 pipes := update t.pipes pi
  (if ends.isOpen side.other = true then some (ends.clear side) else none)

def add (t : EndTable) (f0 f1 pi : Nat) : EndTable where
 endOf := update (update t.endOf f0 (some (pi, .read))) f1 (some (pi, .write))
 pipes := update t.pipes pi (some { readopen := true, writeopen := true })

theorem Fit.close (h : t.Fit) (hf : t.endOf f = some (pi, side)) (hpi : t.pipes pi = some ends) :
  (t.close f pi side ends).Fit := by
 have hleft : forall k, (exists g, (t.close f pi side ends).endOf g = some k) ↔
  (exists g, t.endOf g = some k) ∧ k ≠ (pi, side) := by
  intro k
  constructor
  · rintro ⟨g, hg⟩
    rcases of_update hg with ⟨_, hbad⟩ | ⟨hne, hg⟩
    · cases hbad
    · exact ⟨⟨g, hg⟩, fun heq => hne (h.unique g f k hg (heq ▸ hf))⟩
  rintro ⟨⟨g, hg⟩, hk⟩
  refine ⟨g, update_eq_iff.mpr (.inr ⟨?_, hg⟩)⟩
  rintro rfl
  exact hk (Option.some.inj (hg.symm.trans hf))
 have hother : side.other ≠ side := by cases side <;> nofun
 constructor
 · intro g g' k hg hg'
   rcases of_update hg with ⟨_, hbad⟩ | ⟨_, hg⟩
   · cases hbad
   rcases of_update hg' with ⟨_, hbad⟩ | ⟨_, hg'⟩
   · cases hbad
   exact h.unique g g' k hg hg'
 · intro pi' x side' hx
   rw [hleft]
   rcases of_update hx with ⟨rfl, hclosed⟩ | ⟨hne, hx⟩
   · rcases of_guard hclosed with ⟨_, rfl⟩
     by_cases hside : side' = side
     · rw [hside, PipeEnds.clear_self]
       exact ⟨nofun, fun hboth => absurd rfl hboth.right⟩
     rw [sides_ne (fun heq => hside heq.symm), PipeEnds.clear_other, h.flag pi' ends _ hpi]
     exact (and_iff_left fun heq => hother (Prod.mk.inj heq).right).symm
   · rw [h.flag pi' x side' hx]
     exact (and_iff_left fun heq => hne (Prod.mk.inj heq).left).symm
 · intro pi'
   rw [exists_comm]
   simp only [hleft]
   by_cases hpi' : pi' = pi
   · rw [hpi', show (t.close f pi side ends).pipes pi = _ from update_self .., ite_ne_right_iff]
     constructor
     · rintro ⟨hopen, _⟩
       exact ⟨side.other, (h.flag pi ends _ hpi).mp hopen,
        fun heq => hother (Prod.mk.inj heq).right⟩
     rintro ⟨side', hends, hk⟩
     have hside : side' = side.other := sides_ne (fun heq => hk (by rw [heq]))
     rw [hside] at hends
     exact ⟨(h.flag pi ends _ hpi).mpr hends, nofun⟩
   rw [show (t.close f pi side ends).pipes pi' = _ from update_of_ne hpi' _ _, h.allocated,
    exists_comm]
   exact exists_congr fun side' =>
    (and_iff_left fun heq => hpi' (Prod.mk.inj heq).left).symm

theorem Fit.add (h : t.Fit) (hne : f0 ≠ f1) (h0 : t.endOf f0 = none) (h1 : t.endOf f1 = none)
  (hpi : t.pipes pi = none) : (t.add f0 f1 pi).Fit := by
 have hends : forall g k, (t.add f0 f1 pi).endOf g = some k ↔
  g = f0 ∧ k = (pi, .read) ∨ g = f1 ∧ k = (pi, .write) ∨ t.endOf g = some k := by
  intro g k
  change update (update t.endOf f0 _) f1 _ g = some k ↔ _
  rw [Foundation.update_eq_iff, Foundation.update_eq_iff]
  grind
 have hold : forall g pi' side', t.endOf g = some (pi', side') -> pi' ≠ pi := by
  rintro g pi' side' hg rfl
  exact (h.allocated pi').mpr ⟨g, side', hg⟩ hpi
 constructor
 · intro g g' k hg hg'
   rcases k with ⟨pi', side'⟩
   rw [hends] at hg hg'
   have hunique := h.unique g g' (pi', side')
   have hg₀ := hold g pi' side'
   have hg₁ := hold g' pi' side'
   grind
 · intro pi' x side' hx
   simp only [hends]
   rcases of_update hx with ⟨rfl, hopen⟩ | ⟨hne', hx⟩
   · cases hopen
     cases side' with
     | read => exact ⟨fun _ => ⟨f0, .inl ⟨rfl, rfl⟩⟩, fun _ => rfl⟩
     | write => exact ⟨fun _ => ⟨f1, .inr (.inl ⟨rfl, rfl⟩)⟩, fun _ => rfl⟩
   rw [h.flag pi' x side' hx]
   grind
 · intro pi'
   simp only [hends]
   by_cases hpi' : pi' = pi
   · rw [hpi', show (t.add f0 f1 pi).pipes pi = _ from update_self ..]
     exact ⟨fun _ => ⟨f0, .read, .inl ⟨rfl, rfl⟩⟩, nofun⟩
   rw [show (t.add f0 f1 pi).pipes pi' = _ from update_of_ne hpi' _ _, h.allocated]
   grind

end EndTable

namespace Files

structure IsEnd (s : Files) (f pi : Nat) (side : PipeSide) : Prop where
 type : (s.file f).type = .pipe
 pipe : (s.file f).pipe = some pi
 role : s.role f = side

instance (s : Files) (f pi : Nat) (side : PipeSide) : Decidable (s.IsEnd f pi side) :=
 decidable_of_iff (_ ∧ _ ∧ _) ⟨fun h => ⟨h.left, h.right.left, h.right.right⟩,
  fun h => ⟨h.type, h.pipe, h.role⟩⟩

variable {lost lost' : List Nat} {s next : Files} {f g pi : Nat} {busy busy' : Nat -> Prop}

/-!
# The ends in the file table

Between the release of `ftable.lock` and `pipeClose` a slot is free although its end of
the pipe is still open.  Such slots are `busy`.
-/

def Ending (s : Files) (busy : Nat -> Prop) (f : Nat) : Prop := (s.file f).type = .pipe ∨ busy f

open Classical in
noncomputable def ends (s : Files) (busy : Nat -> Prop) : EndTable where
 endOf := fun f =>
  if s.Ending busy f then (s.file f).pipe.map fun pi => (pi, s.role f) else none
 pipes := s.pipes

structure Directed (s : Files) (f : Nat) : Prop where
 pipe : (s.file f).pipe ≠ none
 readable : (s.file f).readable = decide (s.role f = .read)
 writable : (s.file f).writable = decide (s.role f = .write)

structure Even (s : Files) (busy : Nat -> Prop) : Prop where
 directed : forall f, s.Ending busy f -> s.Directed f
 fit : (s.ends busy).Fit
 free : forall f, busy f -> s.Free f

theorem endOf_eq_iff {side : PipeSide} : (s.ends busy).endOf f = some (pi, side) ↔
  s.Ending busy f ∧ (s.file f).pipe = some pi ∧ s.role f = side := by
 unfold ends
 dsimp only
 by_cases hf : s.Ending busy f
 · rw [if_pos hf]
   cases (s.file f).pipe <;> simp [hf]
 · simp [hf]

theorem endOf_of_not (hf : ¬ s.Ending busy f) : (s.ends busy).endOf f = none := if_neg hf

/-- What a slot says about the end that it is. -/
def view (s : Files) (g : Nat) : Option Nat × Bool × Bool × PipeSide :=
 ((s.file g).pipe, (s.file g).readable, (s.file g).writable, s.role g)

def Keeps (s : Files) (busy : Nat -> Prop) (next : Files) (busy' : Nat -> Prop) (g : Nat) : Prop :=
 (next.Ending busy' g ↔ s.Ending busy g) ∧ (s.Ending busy g -> next.view g = s.view g)

theorem keeps_of_eq (hfile : next.file g = s.file g) (hrole : next.role g = s.role g)
  (hbusy : busy' g ↔ busy g) : Keeps s busy next busy' g := by
 unfold Keeps Ending view
 rw [hfile, hrole, hbusy]
 exact ⟨Iff.rfl, fun _ => rfl⟩

theorem keeps_update {file : File} (hfile : next.file = update s.file f file)
  (hrole : next.role = s.role) (hf : Keeps s busy next busy f) (g : Nat) :
  Keeps s busy next busy g := by
 by_cases hg : g = f
 · rw [hg]
   exact hf
 refine keeps_of_eq ?_ (congrFun hrole g) Iff.rfl
 rw [hfile, update_of_ne hg]

theorem Keeps.endOf (h : Keeps s busy next busy' g) :
  (next.ends busy').endOf g = (s.ends busy).endOf g := by
 by_cases hg : s.Ending busy g
 · have hview := h.right hg
   unfold ends view at *
   dsimp only
   rw [if_pos hg, if_pos (h.left.mpr hg), (Prod.mk.inj hview).left,
    (Prod.mk.inj (Prod.mk.inj (Prod.mk.inj hview).right).right).right]
 · rw [endOf_of_not hg, endOf_of_not (fun hend => hg (h.left.mp hend))]

theorem Keeps.directed (h : Keeps s busy next busy' g) (hg : next.Ending busy' g)
  (hdirected : s.Directed g) : next.Directed g := by
 have hview := h.right (h.left.mp hg)
 simp only [view, Prod.mk.injEq] at hview
 rcases hview with ⟨hpipe, hreadable, hwritable, hrole⟩
 constructor
 · rw [hpipe]
   exact hdirected.pipe
 · rw [hreadable, hrole]
   exact hdirected.readable
 · rw [hwritable, hrole]
   exact hdirected.writable

section
variable {f0 f1 : Nat}

theorem initPipe_role_of_ne (h0 : g ≠ f0) (h1 : g ≠ f1) :
  (s.initPipe f0 f1 pi).role g = s.role g := by
 change update (update s.role f0 _) f1 _ g = s.role g
 rw [update_of_ne h1, update_of_ne h0]

theorem initPipe_role_read (hne : f0 ≠ f1) : (s.initPipe f0 f1 pi).role f0 = .read := by
 change update (update s.role f0 _) f1 _ f0 = _
 rw [update_of_ne hne, update_self]

theorem initPipe_role_write : (s.initPipe f0 f1 pi).role f1 = .write := update_self ..
end

section
variable (h : s.Even busy)
include h

theorem Even.keeps (hkeeps : forall g, Keeps s busy next busy' g) (hpipes : next.pipes = s.pipes)
  (hfree : forall g, busy' g -> next.Free g) : next.Even busy' := by
 refine ⟨?_, ?_, hfree⟩
 · intro g hg
   exact (hkeeps g).directed hg (h.directed g ((hkeeps g).left.mp hg))
 have heq : next.ends busy' = s.ends busy := EndTable.ext (funext fun g => (hkeeps g).endOf) hpipes
 rw [heq]
 exact h.fit

theorem Even.shut {ends : PipeEnds} (hf : s.Ending busy f) : ends.shut (s.file f).writable =
    if ends.isOpen (s.role f).other = true then some (ends.clear (s.role f)) else none := by
 rw [(h.directed f hf).writable]
 exact ends.shut_side (s.role f)

theorem Even.closes {ends : PipeEnds} (hf : s.Ending busy f) (hpipe : (s.file f).pipe = some pi)
  (hpi : s.pipes pi = some ends) (hothers : forall g, g ≠ f -> Keeps s busy next busy' g)
  (hgone : ¬ next.Ending busy' f)
  (hpipes : next.pipes = update s.pipes pi (ends.shut (s.file f).writable))
  (hfree : forall g, busy' g -> next.Free g) : next.Even busy' := by
 refine ⟨?_, ?_, hfree⟩
 · intro g hg
   have hkeeps := hothers g (fun heq => hgone (heq ▸ hg))
   exact hkeeps.directed hg (h.directed g (hkeeps.left.mp hg))
 have heq : next.ends busy' = (s.ends busy).close f pi (s.role f) ends := by
  refine EndTable.ext (funext fun g => ?_) ?_
  · change _ = update (s.ends busy).endOf f none g
    by_cases hg : g = f
    · rw [hg, update_self, endOf_of_not hgone]
    · rw [update_of_ne hg, (hothers g hg).endOf]
  · unfold EndTable.close
    rw [← h.shut hf]
    exact hpipes
 rw [heq]
 exact h.fit.close (endOf_eq_iff.mpr ⟨hf, hpipe, rfl⟩) hpi

def Fresh (s : Files) (f0 f1 : Nat) : Prop :=
 (s.file f0).writable = false ∧ (s.file f1).readable = false

theorem Even.pipes {f0 f1 : Nat} (hne : f0 ≠ f1) (h0 : ¬ s.Ending busy f0)
  (h1 : ¬ s.Ending busy f1) (hpi : s.pipes pi = none) (hfresh : s.Fresh f0 f1) :
  (s.initPipe f0 f1 pi).Even busy := by
 have hothers : forall g, g ≠ f0 -> g ≠ f1 -> Keeps s busy (s.initPipe f0 f1 pi) busy g :=
  fun g hg0 hg1 => keeps_of_eq (initPipe_file_of_ne hg0 hg1) (initPipe_role_of_ne hg0 hg1) Iff.rfl
 have hread : (s.initPipe f0 f1 pi).file f0 = readEnd (s.file f0) pi := initPipe_read hne
 have hwrite : (s.initPipe f0 f1 pi).file f1 = writeEnd (s.file f1) pi := initPipe_write hne
 refine ⟨?_, ?_, ?_⟩
 · intro g hg
   by_cases hg0 : g = f0
   · rw [hg0]
     constructor
     · rw [hread]
       nofun
     · rw [hread, initPipe_role_read hne]
       rfl
     · rw [hread, initPipe_role_read hne]
       exact hfresh.left
   by_cases hg1 : g = f1
   · rw [hg1]
     constructor
     · rw [hwrite]
       nofun
     · rw [hwrite, initPipe_role_write]
       exact hfresh.right
     · rw [hwrite, initPipe_role_write]
       rfl
   have hkeeps := hothers g hg0 hg1
   exact hkeeps.directed hg (h.directed g (hkeeps.left.mp hg))
 · have heq : (s.initPipe f0 f1 pi).ends busy = (s.ends busy).add f0 f1 pi := by
    refine EndTable.ext (funext fun g => ?_) rfl
    change _ = update (update (s.ends busy).endOf f0 _) f1 _ g
    by_cases hg1 : g = f1
    · rw [hg1, update_self, endOf_eq_iff]
      refine ⟨.inl ?_, ?_, initPipe_role_write⟩ <;> rw [hwrite] <;> rfl
    rw [update_of_ne hg1]
    by_cases hg0 : g = f0
    · rw [hg0, update_self, endOf_eq_iff]
      refine ⟨.inl ?_, ?_, initPipe_role_read hne⟩ <;> rw [hread] <;> rfl
    · rw [update_of_ne hg0, (hothers g hg0 hg1).endOf]
   rw [heq]
   exact h.fit.add hne (endOf_of_not h0) (endOf_of_not h1) hpi
 · intro g hg
   have hg0 : g ≠ f0 := by
    rintro rfl
    exact h0 (.inr hg)
   have hg1 : g ≠ f1 := by
    rintro rfl
    exact h1 (.inr hg)
   refine ⟨(h.free g hg).left, ?_⟩
   rw [initPipe_file_of_ne hg0 hg1]
   exact (h.free g hg).right

theorem Even.free_update {file : File} (hf : ¬ busy f) (hfile : next.file = update s.file f file)
  (g : Nat) (hg : busy g) : next.Free g := by
 refine ⟨(h.free g hg).left, ?_⟩
 rw [hfile, update_of_ne]
 · exact (h.free g hg).right
 rintro rfl
 exact hf hg

/-- A change of one slot that is no end before and after. -/
theorem Even.plain {file : File} (hf : ¬ s.Ending busy f) (hfile : next.file = update s.file f file)
  (htype : file.type ≠ .pipe) (hrole : next.role = s.role) (hpipes : next.pipes = s.pipes) :
  next.Even busy := by
 have hbusy : ¬ busy f := fun hbusy => hf (.inr hbusy)
 refine h.keeps (keeps_update hfile hrole ⟨?_, fun hend => absurd hend hf⟩) hpipes
  (h.free_update hbusy hfile)
 refine iff_of_false ?_ hf
 rintro (hbad | hbad)
 · rw [hfile, update_self] at hbad
   exact htype hbad
 · exact hbusy hbad

/-- A change of the reference count of a slot. -/
theorem Even.counts {ref : Int} (hf : ¬ busy f)
  (hfile : next.file = update s.file f { s.file f with ref := ref })
  (hrole : next.role = s.role) (hpipes : next.pipes = s.pipes) : next.Even busy := by
 refine h.keeps (keeps_update hfile hrole ?_) hpipes (h.free_update hf hfile)
 unfold Keeps Ending view
 rw [hfile, update_self, hrole]
 exact ⟨Iff.rfl, fun _ => rfl⟩

theorem Even.same (hfile : next.file = s.file) (hrole : next.role = s.role)
  (hpipes : next.pipes = s.pipes) : next.Even busy := by
 refine h.keeps (fun g => keeps_of_eq (congrFun hfile g) (congrFun hrole g) Iff.rfl) hpipes ?_
 intro g hg
 unfold Free
 rw [hfile]
 exact h.free g hg

theorem Even.fileclose (hf : ¬ busy f) (hnext : s.fileclose f = some next) : next.Even busy := by
 rcases fileclose_some hnext with ⟨_, ⟨_, rfl⟩ | ⟨_, _, pipes, hshut, rfl⟩⟩
 · exact h.counts hf rfl rfl rfl
 rcases hshut with ⟨htype, pi, ends, hpipe, hpi, hpipes⟩ | ⟨htype, hpipes⟩
 · have hfile : (s.lastClosed f pipes).file = update s.file f _ := rfl
   refine h.closes (.inl htype) hpipe hpi ?_ ?_ hpipes (h.free_update hf hfile)
   · intro g hg
     refine keeps_of_eq ?_ rfl Iff.rfl
     rw [hfile, update_of_ne hg]
   · rintro (hbad | hbad)
     · rw [hfile, update_self] at hbad
       cases hbad
     · exact hf hbad
 · exact h.plain (fun hend => hend.elim htype hf) rfl nofun rfl hpipes

/-!
# Moves
-/

def freshTerms (busy : Nat -> Prop) : Terms where
 takes := fun _ f => ¬ busy f
 pipes := Fresh
 closes := fun _ _ => True

theorem Even.not_busy (hs : Sound lost s) {k : Pid × Nat} (hk : s.fds k = some f) : ¬ busy f :=
 fun hf => hs.unreferenced (h.free f hf) k hk

theorem Even.move (hs : Sound lost s) (hmove : Move (freshTerms busy) lost s lost' next) :
  next.Even busy := by
 cases hmove with
 | opens hf htype hk hterms =>
  refine h.plain ?_ rfl nofun rfl rfl
  rintro (hbad | hbad)
  · rw [htype] at hbad
    cases hbad
  · exact hterms hbad
 | refuses | misses | gives | enters | begins | ends => exact h.same rfl rfl rfl
 | copies hj hk => exact h.counts (h.not_busy hs hj) rfl rfl rfl
 | takes hf hterms => exact h.counts hterms rfl rfl rfl
 | closes hk hnext hclosed =>
  rename_i f k
  have hset : (s.setFd k none).Even busy := h.same rfl rfl rfl
  exact hset.fileclose (h.not_busy hs hk) hnext
 | pipes h0 h1 hne htype0 htype1 hpi hfresh =>
  have hnot : forall {f}, f ∈ lost -> (s.file f).type = .none -> ¬ s.Ending busy f := by
   rintro f hf htype (hbad | hbad)
   · rw [htype] at hbad
     cases hbad
   · exact hs.notMem_of_free (h.free f hbad) hf
  exact h.pipes hne (hnot h0 htype0) (hnot h1 htype1) hpi hfresh

theorem Even.moves (hs : Sound lost s) (hmoves : Moves (freshTerms busy) lost s lost' next) :
  next.Even busy := by
 induction hmoves with
 | refl => exact h
 | tail hprefix hmove ih => exact (ih h hs).move (hs.moves hprefix) hmove
end

/-- The slots that `pipeAlloc` takes have no permissions from an earlier use that matter. -/
def Unstale (s : Files) : FileLabel -> Prop
 | .pipe2 _ _ => forall f0 f1, s.freeSlot = some f0 ->
  (s.take f0).freeSlot = some f1 -> s.Fresh f0 f1
 | _ => True

theorem take_flags (s : Files) (f g : Nat) : ((s.take f).file g).readable = (s.file g).readable ∧
    ((s.take f).file g).writable = (s.file g).writable := by
 by_cases hg : g = f
 · rw [hg]
   change (update s.file f { s.file f with ref := 1 } f).readable = _ ∧
    (update s.file f { s.file f with ref := 1 } f).writable = _
   rw [update_self]
   exact ⟨rfl, rfl⟩
 rw [take_file_of_ne hg]
 exact ⟨rfl, rfl⟩

theorem Fresh.take {f0 f1 : Nat} (h : s.Fresh f0 f1) (f : Nat) : (s.take f).Fresh f0 f1 := by
 unfold Fresh
 rw [(take_flags s f f0).right, (take_flags s f f1).left]
 exact h

end Files

/-!
# Closes that overlap with other calls

The calls of the files, and closes in two steps.  A process that is in the second half of
`fileclose` makes no other call.  The loop of `exit` over the descriptors is a sequence of
closes.
-/

structure Closings where
 files : Files
 closing : Pid -> Option (Nat × File)

inductive CloseLabel where
 | call (l : FileLabel)
 | release (p : Pid) (fd : Nat)
 | finish (p : Pid)

namespace Closings

def step (s : Closings) : CloseLabel -> Option Closings
 | .call l =>
  if (s.closing l.caller).isNone then
   (s.files.step l).map fun files => { s with files := files }
  else
   none
 | .release p fd =>
  if s.files.live p && (s.closing p).isNone then
   (s.files.fds (p, fd)).bind fun f =>
    ((s.files.setFd (p, fd) none).fileRelease f).map fun released =>
     { files := released.2
       closing := update s.closing p (released.1.map fun temp => (f, temp)) }
  else
   none
 | .finish p =>
  (s.closing p).bind fun record =>
   (s.files.fileFinish record.1 record.2).map fun files =>
    { files := files, closing := update s.closing p none }

def boot : Closings where
 files := Files.boot
 closing := fun _ => none

/-- The slot is free, but `pipeClose` of its end is still to come. -/
def Shutting (s : Closings) (f : Nat) : Prop :=
 exists p temp, s.closing p = some (f, temp) ∧ temp.type = .pipe

/-- The slot is an end of the pipe, open or about to be closed. -/
structure IsEnd (s : Closings) (f pi : Nat) (side : PipeSide) : Prop where
 type : (s.files.file f).type = .pipe ∨ s.Shutting f
 pipe : (s.files.file f).pipe = some pi
 role : s.files.role f = side

/-- No slot is taken while its end is about to be closed. -/
def Apart (s : Closings) : FileLabel -> Prop
 | .openat _ _ _ => forall f, s.files.freeSlot = some f -> ¬ s.Shutting f
 | .pipe2 _ _ => forall f0, s.files.freeSlot = some f0 -> ¬ s.Shutting f0 ∧
  forall f1, (s.files.take f0).freeSlot = some f1 -> ¬ s.Shutting f1
 | _ => True

def Careful (s : Closings) : CloseLabel -> Prop
 | .call l => s.files.Unstale l ∧ s.Apart l
 | _ => True

end Closings

def closingSystem : TransitionSystem Closings CloseLabel where
 initial := fun s => s = Closings.boot
 step := Closings.step

namespace Closings

structure Tidy (s : Closings) : Prop where
 sound : exists lost, Files.Sound lost s.files
 even : s.files.Even s.Shutting
 once : forall p q f temp temp', s.closing p = some (f, temp) -> temp.type = .pipe ->
  s.closing q = some (f, temp') -> temp'.type = .pipe -> p = q

variable {s next : Closings} {f pi : Nat} {side : PipeSide} {p : Pid}

theorem isEnd_iff : s.IsEnd f pi side ↔ (s.files.ends s.Shutting).endOf f = some (pi, side) := by
 rw [endOf_eq_iff]
 exact ⟨fun h => ⟨h.type, h.pipe, h.role⟩, fun h => ⟨h.left, h.right.left, h.right.right⟩⟩

theorem Tidy.call {l : FileLabel} (h : s.Tidy) (hcareful : s.Careful (.call l))
  (hstep : s.step (.call l) = some next) : next.Tidy := by
 rcases h.sound with ⟨lost, hsound⟩
 unfold Closings.step at hstep
 dsimp only at hstep
 split at hstep
 · rcases Option.map_eq_some_iff.mp hstep with ⟨files, hfiles, rfl⟩
   have hpossible := possible_of_step hfiles
   unfold Files.step at hfiles
   rw [if_pos hpossible] at hfiles
   rcases Option.map_eq_some_iff.mp hfiles with ⟨⟨r, files'⟩, hcall, hsame⟩
   change files' = files at hsame
   rw [hsame] at hcall
   have hquiet : Files.Sound lost ({ s.files with calls := [] } : Files) :=
    hsound.congr rfl rfl (fun k f hk => (hsound.entry k f hk).right.right)
   have hterms : (freshTerms s.Shutting).Met ({ s.files with calls := [] } : Files) l := by
    cases l with
    | openat p found omode => exact hcareful.right
    | pipe2 p memory =>
     refine ⟨fun f0 hf0 => (hcareful.right f0 hf0).left, ?_, fun _ _ _ _ _ _ _ _ _ => trivial⟩
     intro f0 f1 hf0 hf1
     have hfresh : ({ s.files with calls := [] } : Files).Fresh f0 f1 :=
      hcareful.left f0 f1 hf0 hf1
     exact ⟨(hcareful.right f0 hf0).left, (hcareful.right f0 hf0).right f1 hf1,
      (hfresh.take f0).take f1⟩
    | close p fd => exact fun _ _ => trivial
    | exit p => exact fun _ _ _ _ _ => trivial
    | _ => trivial
   have hpossible' : ({ s.files with calls := [] } : Files).possible l := by
    cases l <;> exact hpossible
   rcases call_moves hquiet hpossible' hterms hcall with ⟨lost', hmoves, _⟩
   have heven : ({ s.files with calls := [] } : Files).Even s.Shutting := h.even.same rfl rfl rfl
   exact ⟨⟨lost', hquiet.moves hmoves⟩, heven.moves hquiet hmoves, h.once⟩
 · cases hstep

section
variable {temp : Option File} (hclosing : next.closing =
  update s.closing p (temp.map fun temp => (f, temp)))
include hclosing

theorem shutting_release (hnone : s.closing p = none) (g : Nat) :
  next.Shutting g ↔ s.Shutting g ∨ g = f ∧ exists file, temp = some file ∧ file.type = .pipe := by
 unfold Shutting
 rw [hclosing]
 constructor
 · rintro ⟨q, file, hq, htype⟩
   rcases of_update hq with ⟨_, hrecord⟩ | ⟨_, hbefore⟩
   · rcases Option.map_eq_some_iff.mp hrecord with ⟨_, htemp, hsame⟩
     cases hsame
     exact .inr ⟨rfl, file, htemp, htype⟩
   · exact .inl ⟨q, file, hbefore, htype⟩
 rintro (⟨q, file, hq, htype⟩ | ⟨rfl, file, rfl, htype⟩)
 · refine ⟨q, file, ?_, htype⟩
   rw [update_of_ne]
   · exact hq
   rintro rfl
   rw [hnone] at hq
   cases hq
 · exact ⟨p, file, update_self .., htype⟩

theorem Tidy.once_release (h : s.Tidy) (hnot : ¬ s.Shutting f) {q q' : Pid} {g : Nat}
  {file file' : File} (hq : next.closing q = some (g, file)) (htype : file.type = .pipe)
  (hq' : next.closing q' = some (g, file')) (htype' : file'.type = .pipe) : q = q' := by
 rw [hclosing] at hq hq'
 -- a slot with an open descriptor is not one that another process is closing
 have hnew : forall {q : Pid} {file file' : File}, s.closing q = some (g, file) ->
  file.type = .pipe -> temp.map (fun temp => (f, temp)) = some (g, file') -> False := by
  intro q file file' hq htype hrecord
  rcases Option.map_eq_some_iff.mp hrecord with ⟨_, _, hsame⟩
  cases hsame
  exact hnot ⟨q, file, hq, htype⟩
 rcases of_update hq with ⟨hp, hrecord⟩ | ⟨_, hbefore⟩
 · rcases of_update hq' with ⟨hp', _⟩ | ⟨_, hbefore'⟩
   · exact hp.trans hp'.symm
   · exact (hnew hbefore' htype' hrecord).elim
 rcases of_update hq' with ⟨_, hrecord⟩ | ⟨_, hbefore'⟩
 · exact (hnew hbefore htype hrecord).elim
 · exact h.once q q' g file file' hbefore htype hbefore' htype'

end

theorem release_some {fd : Nat} (hstep : s.step (.release p fd) = some next) :
  exists f temp, s.closing p = none ∧ s.files.fds (p, fd) = some f ∧
   (s.files.setFd (p, fd) none).fileRelease f = some (temp, next.files) ∧
   next.closing = update s.closing p (temp.map fun temp => (f, temp)) := by
 unfold Closings.step at hstep
 dsimp only at hstep
 split at hstep
 · rename_i hready
   rcases Option.bind_eq_some_iff.mp hstep with ⟨f, hf, hmap⟩
   rcases Option.map_eq_some_iff.mp hmap with ⟨⟨temp, files⟩, hrelease, heq⟩
   rw [← heq]
   exact ⟨f, temp, Option.isNone_iff_eq_none.mp (Bool.and_eq_true_iff.mp hready).right, hf,
    hrelease, rfl⟩
 · cases hstep

theorem Tidy.release {fd : Nat} (h : s.Tidy) (hstep : s.step (.release p fd) = some next) :
  next.Tidy := by
 rcases h.sound with ⟨lost, hsound⟩
 rcases release_some hstep with ⟨f, temp, hnone, hf, hrelease, hclosing⟩
 have hnot : ¬ s.Shutting f := h.even.not_busy hsound hf
 refine ⟨⟨lost, hsound.release hf hrelease⟩, ?_, fun _ _ _ _ _ hq htype hq' htype' =>
  h.once_release hclosing hnot hq htype hq' htype'⟩
 have hshutting := shutting_release hclosing hnone
 have hrest : next.files.role = s.files.role ∧ next.files.pipes = s.files.pipes := by
  rcases fileRelease_some hrelease with ⟨_, ⟨_, _, hfiles⟩ | ⟨_, _, hfiles⟩⟩
  · rw [hfiles]
    exact ⟨rfl, rfl⟩
  · rw [hfiles]
    exact ⟨rfl, rfl⟩
 rcases fileRelease_some hrelease with ⟨_, ⟨_, htemp, hfiles⟩ | ⟨_, htemp, hfiles⟩⟩
 · have hsame : next.Shutting = s.Shutting := by
    funext g
    rw [hshutting, htemp]
    simp
   rw [hsame]
   exact h.even.counts hnot (congrArg Files.file hfiles) hrest.left hrest.right
 have hfile : next.files.file = update s.files.file f
  { s.files.file f with ref := 0, type := .none } := congrArg Files.file hfiles
 -- the end is about to be closed now if it was one
 have hself : next.Shutting f ↔ (s.files.file f).type = .pipe := by
  rw [hshutting, htemp, or_iff_right hnot, and_iff_right rfl]
  exact ⟨fun ⟨_, heq, htype⟩ => by cases heq; exact htype, fun htype => ⟨_, rfl, htype⟩⟩
 have hothers : forall g, g ≠ f -> (next.Shutting g ↔ s.Shutting g) := by
  intro g hg
  rw [hshutting]
  exact or_iff_left fun hsame => hg hsame.left
 refine h.even.keeps ?_ hrest.right ?_
 · intro g
   by_cases hg : g = f
   · rw [hg]
     unfold Keeps Ending view
     rw [hfile, update_self, hrest.left, hself]
     exact ⟨by simp [hnot], fun _ => rfl⟩
   refine keeps_of_eq ?_ (congrFun hrest.left g) (hothers g hg)
   rw [hfile, update_of_ne hg]
 · intro g hg
   by_cases heq : g = f
   · rw [heq]
     refine ⟨(hsound.entry (p, fd) f hf).left, ?_⟩
     rw [hfile, update_self]
   have hfree := h.even.free g ((hothers g heq).mp hg)
   refine ⟨hfree.left, ?_⟩
   rw [hfile, update_of_ne heq]
   exact hfree.right

/-!
# The end of a close
-/

section
variable {temp : File} (hp : s.closing p = some (f, temp))
 (hclosing : next.closing = update s.closing p none)
include hp hclosing

theorem shutting_finish (h : s.Tidy) (g : Nat) :
  next.Shutting g ↔ s.Shutting g ∧ (temp.type = .pipe -> g ≠ f) := by
 unfold Shutting
 rw [hclosing]
 constructor
 · rintro ⟨q, file, hq, htype⟩
   rcases of_update hq with ⟨_, hbad⟩ | ⟨hne, hbefore⟩
   · cases hbad
   refine ⟨⟨q, file, hbefore, htype⟩, ?_⟩
   rintro htemp rfl
   exact hne (h.once q p g file temp hbefore htype hp htemp)
 rintro ⟨⟨q, file, hq, htype⟩, hg⟩
 refine ⟨q, file, ?_, htype⟩
 rw [update_of_ne]
 · exact hq
 rintro rfl
 rw [hp] at hq
 cases hq
 exact hg htype rfl

omit hp in
theorem Tidy.once_finish (h : s.Tidy) {q q' : Pid} {g : Nat} {file file' : File}
  (hq : next.closing q = some (g, file)) (htype : file.type = .pipe)
  (hq' : next.closing q' = some (g, file')) (htype' : file'.type = .pipe) : q = q' := by
 rw [hclosing] at hq hq'
 rcases of_update hq with ⟨_, hbad⟩ | ⟨_, hbefore⟩
 · cases hbad
 rcases of_update hq' with ⟨_, hbad⟩ | ⟨_, hbefore'⟩
 · cases hbad
 exact h.once q q' g file file' hbefore htype hbefore' htype'
end

theorem finish_some (hstep : s.step (.finish p) = some next) :
  exists f temp, s.closing p = some (f, temp) ∧ s.files.fileFinish f temp = some next.files ∧
   next.closing = update s.closing p none := by
 rcases Option.bind_eq_some_iff.mp hstep with ⟨⟨f, temp⟩, hp, hmap⟩
 rcases Option.map_eq_some_iff.mp hmap with ⟨files, hfinish, heq⟩
 rw [← heq]
 exact ⟨f, temp, hp, hfinish, rfl⟩

theorem Tidy.finish (h : s.Tidy) (hstep : s.step (.finish p) = some next) : next.Tidy := by
 rcases h.sound with ⟨lost, hsound⟩
 rcases finish_some hstep with ⟨f, temp, hp, hfinish, hclosing⟩
 have hshutting := shutting_finish hp hclosing h
 rcases fileFinish_some hfinish with ⟨closed, hnext, hclosed⟩
 have hfiles : next.files.file = s.files.file ∧ next.files.fds = s.files.fds ∧
  next.files.live = s.files.live ∧ next.files.role = s.files.role := by
  rw [hnext]
  rcases hclosed with ⟨_, hclosed⟩ | ⟨_, rfl⟩
  · rcases pipeClose_some hclosed with ⟨pi, ends, _, _, rfl⟩
    exact ⟨rfl, rfl, rfl, rfl⟩
  · exact ⟨rfl, rfl, rfl, rfl⟩
 rcases hfiles with ⟨hfile, hfds, hlive, hrole⟩
 have hsound' : Files.Sound lost next.files := by
  refine hsound.congr hfile hfds (fun k f hk => ?_)
  rw [hlive]
  exact (hsound.entry k f hk).right.right
 have hfree : forall g, next.Shutting g -> next.files.Free g := by
  intro g hg
  have hbefore := h.even.free g ((hshutting g).mp hg).left
  refine ⟨hbefore.left, ?_⟩
  rw [hfile]
  exact hbefore.right
 have hkeeps : forall g, (temp.type = .pipe -> g ≠ f) ->
  Keeps s.files s.Shutting next.files next.Shutting g := by
  intro g hg
  refine keeps_of_eq (congrFun hfile g) (congrFun hrole g) ?_
  rw [hshutting]
  exact and_iff_left hg
 refine ⟨⟨lost, hsound'⟩, ?_,
  fun _ _ _ _ _ hq htype hq' htype' => h.once_finish hclosing hq htype hq' htype'⟩
 rcases hclosed with ⟨htype, hclosed⟩ | ⟨htype, rfl⟩
 · have hbusy : s.Shutting f := ⟨p, temp, hp, htype⟩
   rcases pipeClose_some hclosed with ⟨pi, ends, hpipe, hpi, hends⟩
   refine h.even.closes (.inr hbusy) hpipe hpi (fun g hg => hkeeps g fun _ => hg) ?_ ?_ hfree
   · rintro (hbad | hbad)
     · rw [hfile, hsound.type_of_free (h.even.free f hbusy)] at hbad
       cases hbad
     · exact ((hshutting f).mp hbad).right htype rfl
   · rw [hnext, hends]
     rfl
 · exact h.even.keeps (fun g => hkeeps g fun hpipe => absurd hpipe htype)
    (by rw [hnext]; rfl) hfree

theorem not_shutting_of_none {files : Files} (f : Nat) :
  ¬ (Closings.mk files fun _ => none).Shutting f := by
 rintro ⟨_, _, hbad, _⟩
 cases hbad

theorem boot_tidy : boot.Tidy := by
 have hno : forall f, ¬ boot.files.Ending boot.Shutting f := by
  rintro f (hbad | hbad)
  · cases hbad
  · exact not_shutting_of_none f hbad
 have hnone : forall f k, (boot.files.ends boot.Shutting).endOf f ≠ some k := by
  intro f k
  rw [endOf_of_not (hno f)]
  nofun
 refine ⟨⟨[], boot_sound⟩, ⟨fun f hf => absurd hf (hno f), ⟨?_, ?_, ?_⟩, ?_⟩, ?_⟩
 · exact fun f _ k hf => absurd hf (hnone f k)
 · intro pi ends side hbad
   cases hbad
 · refine fun pi => iff_of_false (fun hpi => hpi rfl) ?_
   rintro ⟨f, side, hf⟩
   exact hnone f _ hf
 · exact fun f hf => absurd hf (not_shutting_of_none f)
 · intro p q f temp temp' hbad
   cases hbad

theorem tidy_of_reachable (hreach : closingSystem.Reachable Careful s) : s.Tidy := by
 refine TransitionSystem.reachable_invariant Tidy ?_ ?_ hreach
 · intro start hstart
   rw [show start = boot from hstart]
   exact boot_tidy
 intro s l next _ hs hcareful hstep
 cases l with
 | call l => exact hs.call hcareful hstep
 | release p fd => exact hs.release hstep
 | finish p => exact hs.finish hstep

/-- A run of whole calls. -/
theorem reachable_of_calls {files : Files} (hreach : filesSystem.Reachable Files.Unstale files) :
  closingSystem.Reachable Careful ⟨files, fun _ => none⟩ := by
 rcases hreach with ⟨start, hstart, hrun⟩
 induction hrun with
 | refl =>
  rw [show start = Files.boot from hstart]
  exact ⟨boot, rfl, .refl boot⟩
 | tail hprefix hunstale hstep ih =>
  rename_i mid next l
  have hcareful : Careful ⟨mid, fun _ => none⟩ (.call l) := by
   refine ⟨hunstale, ?_⟩
   cases l with
   | openat p found omode => exact fun f _ => not_shutting_of_none f
   | pipe2 p memory =>
    exact fun f0 _ => ⟨not_shutting_of_none f0, fun f1 _ => not_shutting_of_none f1⟩
   | _ => trivial
  have hcall : closingSystem.step ⟨mid, fun _ => none⟩ (.call l) = some ⟨next, fun _ => none⟩ := by
   change (mid.step l).map _ = _
   rw [show mid.step l = some next from hstep]
   rfl
  exact TransitionSystem.reachable_step ih hcareful hcall

/-- The pipes when the flag of one end is cleared and the pipe is freed if the other is closed. -/
def Clears (s : Closings) (pi : Nat) (side : PipeSide) (pipes : Nat -> Option PipeEnds) : Prop :=
 exists ends, s.files.pipes pi = some ends ∧ ends.isOpen side = true ∧
  pipes = update s.files.pipes pi
   (if ends.isOpen side.other = true then some (ends.clear side) else none)

theorem Tidy.clears (h : s.Tidy) (hf : s.IsEnd f pi side) : exists ends,
  s.files.pipes pi = some ends ∧
   s.Clears pi side (update s.files.pipes pi (ends.shut (s.files.file f).writable)) := by
 have hend := isEnd_iff.mp hf
 rcases Option.ne_none_iff_exists'.mp ((h.even.fit.allocated pi).mpr ⟨f, side, hend⟩) with
  ⟨ends, hends⟩
 refine ⟨ends, hends, ends, hends, (h.even.fit.flag pi ends side hends).mpr ⟨f, hend⟩, ?_⟩
 rw [h.even.shut hf.type, hf.role]

theorem Tidy.last_close (h : s.Tidy) (hf : s.IsEnd f pi side)
  (htype : (s.files.file f).type = .pipe) (hlast : (s.files.file f).ref ≤ 1)
  (hip : (s.files.file f).ip.isSome = true) :
  exists next, s.files.fileclose f = some next ∧ s.Clears pi side next.pipes := by
 rcases h.clears hf with ⟨ends, hends, hclears⟩
 have hne : (s.files.file f).type ≠ .none := by
  rw [htype]
  nofun
 have hclose := fileclose_eq hne hlast hip (.inl ⟨htype, pi, ends, hf.pipe, hends, rfl⟩)
 exact ⟨_, hclose, hclears⟩

theorem Tidy.last_finish {temp : File} (h : s.Tidy) (hp : s.closing p = some (f, temp))
  (htype : temp.type = .pipe) (hip : temp.ip.isSome = true) :
  exists pi side next, s.IsEnd f pi side ∧ s.step (.finish p) = some next ∧
    s.Clears pi side next.files.pipes := by
 have hbusy : s.Shutting f := ⟨p, temp, hp, htype⟩
 rcases Option.ne_none_iff_exists'.mp (h.even.directed f (.inr hbusy)).pipe with ⟨pi, hpipe⟩
 have hend : s.IsEnd f pi (s.files.role f) := ⟨.inr hbusy, hpipe, rfl⟩
 rcases h.clears hend with ⟨ends, hends, hclears⟩
 have hclose := pipeClose_eq (s := s.files) hends (s.files.file f).writable
 rw [← show (s.files.file f).pipe = some pi from hpipe] at hclose
 have hnone : temp.ip.isNone = false := by
  rw [Option.isNone_eq_false_iff]
  exact hip
 have hfinish : exists files, s.files.fileFinish f temp = some files ∧
  files.pipes = update s.files.pipes pi (ends.shut (s.files.file f).writable) := by
  unfold fileFinish
  rw [if_pos htype, hclose, Option.bind_some, hnone, if_neg Bool.false_ne_true]
  exact ⟨_, rfl, rfl⟩
 rcases hfinish with ⟨files, hfinish, hpipes⟩
 refine ⟨pi, s.files.role f, ⟨files, update s.closing p none⟩, hend, ?_, ?_⟩
 · change (s.closing p).bind _ = _
   rw [hp, Option.bind_some, hfinish]
   rfl
 · rw [hpipes]
   exact hclears

end Closings

namespace Files
variable {s next : Files} {f0 f1 pi : Nat}

theorem pipeAlloc_some (h : s.pipeAlloc (some pi) = some (some (f0, f1), next)) :
  s.freeSlot = some f0 ∧ (s.take f0).freeSlot = some f1 ∧
    next = ((s.take f0).take f1).initPipe f0 f1 pi := by
 unfold pipeAlloc at h
 cases hf0 : s.freeSlot with
 | none =>
  rw [filealloc_of_none hf0] at h
  cases h
 | some g0 =>
  rw [filealloc_of_some hf0] at h
  simp only at h
  cases hf1 : (s.take g0).freeSlot with
  | none =>
   rw [filealloc_of_none hf1] at h
   cases h
  | some g1 =>
   rw [filealloc_of_some hf1] at h
   cases h
   exact ⟨rfl, hf1, rfl⟩

/-- What `pipeAlloc` promises about the permissions of the two files. -/
def Oriented (s : Files) (f0 f1 : Nat) : Prop :=
 ((s.file f0).readable = true ∧ (s.file f0).writable = false) ∧
  (s.file f1).writable = true ∧ (s.file f1).readable = false

theorem pipeAlloc_oriented {p : Pid} (hunstale : s.Unstale (.pipe2 p (some pi)))
  (h : s.pipeAlloc (some pi) = some (some (f0, f1), next)) : next.Oriented f0 f1 := by
 rcases pipeAlloc_some h with ⟨hf0, hf1, heq⟩
 have hne := not_free_of_take (free_of_freeSlot hf1)
 have hfresh := ((hunstale f0 f1 hf0 hf1).take f0).take f1
 unfold Oriented
 rw [heq, initPipe_read hne, initPipe_write hne]
 exact ⟨⟨rfl, hfresh.left⟩, rfl, hfresh.right⟩

def unstaleTest (s : Files) : FileLabel -> Bool
 | .pipe2 _ _ => s.freeSlot.all fun f0 => !(s.file f0).writable &&
  (s.take f0).freeSlot.all fun f1 => !(s.file f1).readable
 | _ => true

theorem unstale_of_test {l : FileLabel} (h : s.unstaleTest l = true) : s.Unstale l := by
 cases l with
 | pipe2 p memory =>
  intro f0 f1 hf0 hf1
  unfold unstaleTest at h
  rw [hf0, Option.all_some, hf1, Option.all_some] at h
  rcases Bool.and_eq_true_iff.mp h with ⟨hwritable, hreadable⟩
  rw [Bool.not_eq_true'] at hwritable hreadable
  exact ⟨hwritable, hreadable⟩
 | _ => trivial

end Files

end OSLab.Fs
