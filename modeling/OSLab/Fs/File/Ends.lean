import OSLab.Fs.File.CallMoves

/-!
# The ends of pipes

`fileclose` closes the write end of a pipe if the file is writable and the read end
otherwise.  A slot that is used as a read end may still be writable from its use for
another file, and then the wrong end is closed and the pipe is never freed.  A pipe is
not freed while one of its ends is open in any case: as long as two slots are its ends,
both flags are set.
-/

namespace OSLab.Fs.Files
open Foundation Function

def Joins (s : Files) (f pi : Nat) : Prop :=
 (s.file f).type = .pipe ∧ (s.file f).pipe = some pi

structure Piped (s : Files) : Prop where
 held : forall f, (s.file f).type = .pipe -> exists pi ends,
  (s.file f).pipe = some pi ∧ s.pipes pi = some ends
 both : forall f g pi, f ≠ g -> s.Joins f pi -> s.Joins g pi ->
  s.pipes pi = some { readopen := true, writeopen := true }
 two : forall f g k pi, s.Joins f pi -> s.Joins g pi -> s.Joins k pi -> f = g ∨ f = k ∨ g = k

variable {terms : Terms} {lost lost' : List Nat} {s next : Files} {f f0 f1 g pi : Nat}
 {file : File}

/-- A slot that is no end or the one that it was. -/
def SameEnd (s next : Files) (g : Nat) : Prop := (next.file g).type = .pipe ->
 (s.file g).type = .pipe ∧ (next.file g).pipe = (s.file g).pipe

theorem Joins.of_same (h : next.Joins g pi) (hsame : s.SameEnd next g) : s.Joins g pi :=
 ⟨(hsame h.left).left, (hsame h.left).right.symm.trans h.right⟩

theorem Piped.same (h : s.Piped) (hsame : forall g, s.SameEnd next g)
  (hpipes : next.pipes = s.pipes) : next.Piped := by
 constructor
 · intro g hg
   rw [hpipes, (hsame g hg).right]
   exact h.held g (hsame g hg).left
 · intro f g pi hne hf hg
   rw [hpipes]
   exact h.both f g pi hne (hf.of_same (hsame f)) (hg.of_same (hsame g))
 · intro f g k pi hf hg hk
   exact h.two f g k pi (hf.of_same (hsame f)) (hg.of_same (hsame g)) (hk.of_same (hsame k))

theorem sameEnd_update (hfile : next.file = update s.file f file)
  (hf : file.type = .pipe -> file.type = (s.file f).type ∧ file.pipe = (s.file f).pipe)
  (g : Nat) : s.SameEnd next g := by
 unfold SameEnd
 rw [hfile]
 by_cases hg : g = f
 · rw [hg, update_self]
   exact fun htype => ⟨(hf htype).left.symm.trans htype, (hf htype).right⟩
 · rw [update_of_ne hg]
   exact fun htype => ⟨htype, rfl⟩

theorem sameEnd_of_eq (hfile : next.file = s.file) (g : Nat) : s.SameEnd next g := by
 unfold SameEnd
 rw [hfile]
 exact fun htype => ⟨htype, rfl⟩

/-!
# Closing an end
-/

theorem Piped.closes {ends : PipeEnds} (h : s.Piped) (hf : s.Joins f pi)
  (hpi : s.pipes pi = some ends) (hfile : next.file = update s.file f file)
  (htype : file.type = .none) (hpipes : next.pipes =
    update s.pipes pi (ends.shut (s.file f).writable)) : next.Piped := by
 have hne : forall g, (next.file g).type = .pipe -> g ≠ f := by
  rintro g hg rfl
  rw [hfile, update_self, htype] at hg
  cases hg
 have hback : forall g pi', next.Joins g pi' -> s.Joins g pi' := fun g pi' hg =>
  hg.of_same (sameEnd_update hfile (fun hbad => by cases htype.symm.trans hbad) g)
 constructor
 · intro g hg
   have hsame : next.file g = s.file g := by rw [hfile, update_of_ne (hne g hg)]
   have hbefore : (s.file g).type = .pipe := hsame ▸ hg
   rcases h.held g hbefore with ⟨pi', ends', hpi', hends'⟩
   rw [hsame, hpipes]
   by_cases heq : pi' = pi
   · -- the other end of the pipe that is closed: both flags were set
     rw [heq] at hpi'
     have hboth := h.both g f pi (hne g hg) ⟨hbefore, hpi'⟩ hf
     cases hpi.symm.trans hboth
     rw [hpi']
     cases (s.file f).writable <;> exact ⟨pi, _, rfl, update_self ..⟩
   · exact ⟨pi', ends', hpi', by rw [update_of_ne heq, hends']⟩
 · intro g k pi' hgk hg hk
   have hpi' : pi' ≠ pi := by
    rintro rfl
    rcases h.two g k f pi' (hback g _ hg) (hback k _ hk) hf with heq | heq | heq
    · exact hgk heq
    · exact hne g hg.left heq
    · exact hne k hk.left heq
   rw [hpipes, update_of_ne hpi']
   exact h.both g k pi' hgk (hback g _ hg) (hback k _ hk)
 · intro g k l pi' hg hk hl
   exact h.two g k l pi' (hback g _ hg) (hback k _ hk) (hback l _ hl)

theorem Piped.fileclose (h : s.Piped) (hnext : s.fileclose f = some next) : next.Piped := by
 rcases fileclose_some hnext with ⟨_, ⟨_, rfl⟩ | ⟨_, _, pipes, hshut, rfl⟩⟩
 · exact h.same (sameEnd_update rfl fun _ => ⟨rfl, rfl⟩) rfl
 rcases hshut with ⟨htype, pi, ends, hpipe, hpi, hpipes⟩ | ⟨_, hpipes⟩
 · exact h.closes ⟨htype, hpipe⟩ hpi rfl rfl hpipes
 · exact h.same (sameEnd_update rfl nofun) hpipes

/-!
# Making a pipe
-/

theorem Piped.of_initPipe {pi' : Nat} (h : s.Piped) (hne : f0 ≠ f1) (hpi : s.pipes pi = none)
  (hg : (s.initPipe f0 f1 pi).Joins g pi') :
  pi' = pi ∧ (g = f0 ∨ g = f1) ∨ pi' ≠ pi ∧ s.Joins g pi' := by
 rcases hg with ⟨htype, hpipe⟩
 by_cases h0 : g = f0
 · rw [h0, initPipe_read hne] at hpipe
   exact .inl ⟨(Option.some.inj hpipe).symm, .inl h0⟩
 by_cases h1 : g = f1
 · rw [h1, initPipe_write hne] at hpipe
   exact .inl ⟨(Option.some.inj hpipe).symm, .inr h1⟩
 rw [initPipe_file_of_ne h0 h1] at htype hpipe
 refine .inr ⟨?_, htype, hpipe⟩
 rcases h.held g htype with ⟨pi'', ends, hpi'', hends⟩
 cases hpipe.symm.trans hpi''
 rintro rfl
 cases hpi.symm.trans hends

theorem Piped.pipes (h : s.Piped) (hne : f0 ≠ f1) (hpi : s.pipes pi = none) :
  (s.initPipe f0 f1 pi).Piped := by
 have hopen : (s.initPipe f0 f1 pi).pipes pi = some { readopen := true, writeopen := true } :=
  update_self ..
 have hkept : forall pi', pi' ≠ pi -> (s.initPipe f0 f1 pi).pipes pi' = s.pipes pi' :=
  fun pi' hpi' => update_of_ne hpi' ..
 constructor
 · intro g hg
   by_cases h0 : g = f0
   · rw [h0, initPipe_read hne]
     exact ⟨pi, _, rfl, hopen⟩
   by_cases h1 : g = f1
   · rw [h1, initPipe_write hne]
     exact ⟨pi, _, rfl, hopen⟩
   rw [initPipe_file_of_ne h0 h1] at hg ⊢
   rcases h.held g hg with ⟨pi', ends, hpi', hends⟩
   refine ⟨pi', ends, hpi', ?_⟩
   rw [hkept, hends]
   rintro rfl
   cases hpi.symm.trans hends
 · intro f g pi' hfg hf hg
   rcases h.of_initPipe hne hpi hf with ⟨rfl, _⟩ | ⟨hpi', hf⟩
   · exact hopen
   rcases h.of_initPipe hne hpi hg with ⟨heq, _⟩ | ⟨_, hg⟩
   · exact absurd heq hpi'
   rw [hkept pi' hpi']
   exact h.both f g pi' hfg hf hg
 · intro f g k pi' hf hg hk
   have htwo := h.two f g k pi'
   have hf := h.of_initPipe hne hpi hf
   have hg := h.of_initPipe hne hpi hg
   have hk := h.of_initPipe hne hpi hk
   grind

theorem Piped.move (h : s.Piped) (hmove : Move terms lost s lost' next) : next.Piped := by
 cases hmove with
 | opens hf hk => exact h.same (sameEnd_update rfl nofun) rfl
 | refuses | misses | gives | enters | begins | ends => exact h.same (sameEnd_of_eq rfl) rfl
 | copies hj hk | takes hf => exact h.same (sameEnd_update rfl fun _ => ⟨rfl, rfl⟩) rfl
 | closes hk hnext hclosed =>
  rename_i f k
  have hset : (s.setFd k none).Piped := h.same (sameEnd_of_eq rfl) rfl
  exact hset.fileclose hnext
 | pipes _ _ hne _ _ hpi => exact h.pipes hne hpi

theorem Piped.moves (h : s.Piped) (hmoves : Moves terms lost s lost' next) : next.Piped := by
 induction hmoves with
 | refl => exact h
 | tail _ hmove ih => exact (ih h).move hmove

theorem boot_piped : boot.Piped := by
 constructor
 · nofun
 · intro f g pi _ hf _
   cases hf.left
 · intro f g k pi hf _ _
   cases hf.left

end OSLab.Fs.Files
