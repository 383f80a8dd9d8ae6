import OSLab.Foundation.RingBuffer
import OSLab.Fs.Pipe.Machine

/-!
# What goes through a pipe

One thread writes and one thread reads.  The loops of `pipeWrite` and `pipeRead`
use one index for the buffer of the caller and for the rounds of the loop, and a
round in which the call sleeps moves no byte.  A call that goes on after a sleep
has therefore lost a byte of `src` or left a hole in `dst`.  As long as no call
does so, the bytes arrive as they were sent.
-/

namespace OSLab.Fs
open Common Foundation Function TransitionSystem List PipeState

theorem pipeSize_fits : Ring.Fits 32 pipeSize where
 pos := by decide
 small := by decide
 divides := by decide

namespace PipeCall
variable (c : PipeCall)

theorem bytes_length (k : Nat) : (c.bytes k).length = k := by
 simp [bytes]

theorem bytes_succ (k : Nat) : c.bytes (k + 1) = c.bytes k ++ [c.buf k] := by
 simp [bytes, range_succ]

theorem bytes_drop {i n : Nat} (h : i < n) :
  (c.bytes n).drop i = c.buf i :: (c.bytes n).drop (i + 1) := by
 have hlength : i < (c.bytes n).length := by
  rw [c.bytes_length]
  exact h
 rw [drop_eq_getElem_cons hlength]
 simp [bytes]

theorem bytes_update {k i : Nat} (x : UInt8) (h : k ≤ i) :
  { c with buf := update c.buf i x }.bytes k = c.bytes k := by
 apply map_congr_left
 intro j hj
 have hne : j ≠ i := by
  have hlt := mem_range.mp hj
  omega
 exact update_of_ne hne _ _

end PipeCall

namespace PipeState

/-!
# Conditions on the steps
-/

def oneEach (writer reader : Tid) : PipeLabel -> Bool
 | .pipeWrite t _ n => decide (t = writer) && decide (0 < n)
 | .pipeRead t _ n => decide (t = reader) && decide (0 < n)
 | _ => true

variable (s : PipeState)

/--
No `pipeWrite` goes on after a wait or begins after an interrupted one, and no
`pipeRead` loads a byte after a wait.
-/
def steady : PipeLabel -> Bool
 | .pipeWrite _ _ _ => !s.cut
 | .run t =>
  match s.pc t with
  | .call .reacquire c => decide (c.side = .read)
  | .call .move c => decide (c.side = .write) || decide (c.i = c.moved)
  | _ => true
 | _ => true

def OneEach (writer reader : Tid) (_ : PipeState) (l : PipeLabel) : Prop :=
 oneEach writer reader l = true

instance (writer reader : Tid) (s : PipeState) (l : PipeLabel) :
  Decidable (s.OneEach writer reader l) :=
 inferInstanceAs (Decidable (_ = _))

def Steady (writer reader : Tid) (s : PipeState) (l : PipeLabel) : Prop :=
 s.OneEach writer reader l ∧ s.steady l = true

instance (writer reader : Tid) (s : PipeState) (l : PipeLabel) :
  Decidable (s.Steady writer reader l) :=
 inferInstanceAs (Decidable (_ ∧ _))

/-!
# The invariant
-/

def WritingAt (c : PipeCall) : PipePlace -> Prop
 | .move => c.i < c.n ∧ s.stored.length < s.loaded + pipeSize
 | .count =>
  c.i < c.n ∧ s.stored.length < s.loaded + pipeSize ∧
   s.pi.data (s.stored.length % pipeSize) = c.buf c.i
 | .finalRelease | .finalPost | .ret => c.i = c.n ∨ c.interrupted = true ∨ s.pi.readopen = false
 | _ => True

/-- A call of `pipeWrite`: what it has not stored yet is all that is missing. -/
structure Writing (s : PipeState) (place : PipePlace) (c : PipeCall) : Prop where
 remaining : s.pi.readopen = true -> s.sent = s.stored ++ (c.bytes c.n).drop c.i
 moved : c.moved = c.i
 within : c.i ≤ c.n
 interrupted : c.interrupted = true -> s.cut = true
 here : s.WritingAt c place

def ReadingAt (c : PipeCall) : PipePlace -> Prop
 | .move => s.loaded < s.stored.length
 | .count => s.loaded < s.stored.length ∧ s.stored[s.loaded]? = some (c.buf c.moved)
 | _ => True

/-- A call of `pipeRead`: what it has loaded stands at the beginning of `dst`. -/
structure Reading (s : PipeState) (place : PipePlace) (c : PipeCall) : Prop where
 loaded : s.received ++ c.bytes c.moved = s.stored.take s.loaded
 here : s.ReadingAt c place

structure CallInv (s : PipeState) (place : PipePlace) (c : PipeCall) : Prop where
 writing : c.side = .write -> s.Writing place c
 reading : c.side = .read -> s.Reading place c

def NoCall (side : PipeSide) : Prop :=
 forall t place c, s.pc t = .call place c -> c.side ≠ side

def party (writer reader : Tid) : PipeSide -> Tid
 | .write => writer
 | .read => reader

structure PipeInv (writer reader : Tid) (s : PipeState) : Prop where
 roles : forall t place c, s.pc t = .call place c -> t = party writer reader c.side
 ring : Ring.Holds pipeSize s.pi.data s.pi.nread s.pi.nwrite s.stored s.loaded
 calls : forall t place c, s.pc t = .call place c -> s.CallInv place c
 kept : s.pi.readopen = true -> s.stored <+: s.sent
 complete : s.pi.readopen = true -> s.cut = false -> s.NoCall .write -> s.sent = s.stored
 delivered : s.NoCall .read -> s.received = s.stored.take s.loaded

variable {writer reader : Tid} {s next : PipeState} {t : Tid}
 {place place' : PipePlace} {c c' : PipeCall}

theorem pipeInv_start : PipeInv writer reader start where
 roles := by nofun
 ring := Ring.Holds.start _
 calls := by nofun
 kept := fun _ => prefix_refl _
 complete := fun _ _ _ => rfl
 delivered := fun _ => rfl

theorem sides_differ (hinv : PipeInv writer reader s) {u : Tid}
  (ht : s.pc t = .call place c) (hu : s.pc u = .call place' c')
  (hut : u ≠ t) : c'.side ≠ c.side := by
 intro hside
 apply hut
 rw [hinv.roles u place' c' hu, hinv.roles t place c ht, hside]

variable {pc : PipePc}

theorem noCall_of_update {side : PipeSide} (hnext : next.pc = update s.pc t pc)
  (hpc : forall place c, s.pc t = .call place c -> c.side = side ->
    exists place' c', pc = .call place' c' ∧ c'.side = side)
  (hno : next.NoCall side) : s.NoCall side := by
 intro u place c hu hside
 by_cases hut : u = t
 · rw [hut] at hu
   rcases hpc place c hu hside with ⟨place', c', heq, hside'⟩
   apply hno t place' c' _ hside'
   rw [hnext, update_self, heq]
 apply hno u place c _ hside
 rw [hnext, update_of_ne hut, hu]

theorem pipeInv_change (hinv : PipeInv writer reader s) (hpc : s.pc t = .call place c)
  (hnext : next.pc = update s.pc t (.call place' c')) (hside : c'.side = c.side)
  (hring : Ring.Holds pipeSize next.pi.data next.pi.nread next.pi.nwrite
    next.stored next.loaded) (hown : next.CallInv place' c')
  (hothers : forall p x, x.side ≠ c.side -> s.CallInv p x -> next.CallInv p x)
  (hkept : next.pi.readopen -> next.stored <+: next.sent)
  (hcomplete : next.pi.readopen -> next.cut = false ->
    s.NoCall .write -> next.sent = next.stored) (hdelivered : s.NoCall .read ->
    next.received = next.stored.take next.loaded) :
  PipeInv writer reader next := by
 have hstays : forall side, next.NoCall side -> s.NoCall side := by
  intro side
  apply noCall_of_update hnext
  intro p x hx hxside
  rw [hpc] at hx
  cases hx
  exact ⟨place', c', rfl, hside.trans hxside⟩
 have hcases : forall u p x, next.pc u = .call p x ->
  (u = t ∧ p = place' ∧ x = c') ∨ (u ≠ t ∧ s.pc u = .call p x) := by
  intro u p x hu
  rw [hnext] at hu
  rcases of_update hu with ⟨hut, hu⟩ | hold
  · cases hu
    exact .inl ⟨hut, rfl, rfl⟩
  · exact .inr hold
 exact {
  roles := by
   intro u p x hu
   rcases hcases u p x hu with ⟨hut, _, hx⟩ | ⟨_, hold⟩
   · rw [hut, hx, hside]
     exact hinv.roles t place c hpc
   · exact hinv.roles u p x hold
  ring := hring
  calls := by
   intro u p x hu
   rcases hcases u p x hu with ⟨_, hp, hx⟩ | ⟨hut, hold⟩
   · rw [hp, hx]
     exact hown
   · exact hothers p x (sides_differ hinv hpc hold hut) (hinv.calls u p x hold)
  kept := hkept
  complete := fun hopen hcut hno => hcomplete hopen hcut (hstays _ hno)
  delivered := fun hno => hdelivered (hstays _ hno) }

/-!
# Statements that move no byte
-/

variable {pi : Pipe}

theorem callInv_sameRing {pc : Tid -> PipePc} (hsame : s.pi.SameRing pi) (h : s.CallInv place c) :
  { s with pi := pi, pc := pc }.CallInv place c where
 writing := by
  intro hside
  rcases h.writing hside with ⟨hremaining, hmoved, hwithin, hcut, hhere⟩
  refine ⟨?_, hmoved, hwithin, hcut, ?_⟩
  · simp only [hsame.readopen]
    exact hremaining
  have heq : { s with pi := pi, pc := pc }.WritingAt c place = s.WritingAt c place := by
   cases place <;> simp only [WritingAt, hsame.data, hsame.readopen]
  rw [heq]
  exact hhere
 reading := by
  intro hside
  rcases h.reading hside with ⟨hloaded, hhere⟩
  refine ⟨hloaded, ?_⟩
  cases place <;> exact hhere

theorem follows_side (h : PipeFollows pi c place place' c') : c'.side = c.side := by
 cases h <;> rfl

section
variable (hring : Ring.Holds pipeSize s.pi.data s.pi.nread s.pi.nwrite s.stored s.loaded)
include hring

theorem writing_follows (h : s.Writing place c) (hside : c.side = .write)
  (hsteady : place ≠ .reacquire) (hfollows : PipeFollows s.pi c place place' c') :
  s.Writing place' c' := by
 rcases h with ⟨hremaining, hmoved, hwithin, hcut, hhere⟩
 cases hfollows with
 | ready hi hready =>
  rw [hside] at hready
  simp only [PipeSide.ready, decide_eq_true_eq] at hready
  exact ⟨hremaining, hmoved, hwithin, hcut, hi, (hring.room_iff pipeSize_fits).mp hready⟩
 | finished hi => exact ⟨hremaining, hmoved, hwithin, hcut, .inl (by omega)⟩
 | peerClosed hopen =>
  rw [hside] at hopen
  exact ⟨hremaining, hmoved, hwithin, hcut, .inr (.inr hopen)⟩
 | reacquired => exact absurd rfl hsteady
 | finalReleased | finalPosted => exact ⟨hremaining, hmoved, hwithin, hcut, hhere⟩
 | _ => exact ⟨hremaining, hmoved, hwithin, hcut, trivial⟩

theorem reading_follows (h : s.Reading place c) (hside : c.side = .read)
  (hfollows : PipeFollows s.pi c place place' c') : s.Reading place' c' := by
 rcases h with ⟨hloaded, hhere⟩
 cases hfollows with
 | ready hi hready =>
  rw [hside] at hready
  simp only [PipeSide.ready, decide_eq_true_eq] at hready
  exact ⟨hloaded, (hring.item_iff pipeSize_fits).mp hready⟩
 | _ => exact ⟨hloaded, trivial⟩
end

section
variable (hinv : PipeInv writer reader s)
include hinv

theorem pipeInv_passes (hpc : s.pc t = .call place c) (hsteady : s.steady (.run t))
  (h : s.Passes t c place next) : PipeInv writer reader next := by
 rcases h with ⟨pi, place', c', hsame, hfollows, rfl⟩
 have hcall := hinv.calls t place c hpc
 have hside := follows_side hfollows
 have hown : s.CallInv place' c' := by
  constructor
  · intro hwrite
    rw [hside] at hwrite
    apply writing_follows hinv.ring (hcall.writing hwrite) hwrite _ hfollows
    rintro rfl
    simp [steady, hpc, hwrite] at hsteady
  intro hread
  rw [hside] at hread
  exact reading_follows hinv.ring (hcall.reading hread) hread hfollows
 apply pipeInv_change hinv hpc rfl hside
 · simp only [goto, hsame.data, hsame.nread, hsame.nwrite]
   exact hinv.ring
 · exact callInv_sameRing (s := s) hsame hown
 · intro p x _ hx
   exact callInv_sameRing (s := s) hsame hx
 · simp only [goto, hsame.readopen]
   exact hinv.kept
 · simp only [goto, hsame.readopen]
   exact hinv.complete
 · exact hinv.delivered

/-!
# Statements that move a byte
-/

theorem pipeInv_store (hpc : s.pc t = .call .move c)
  (hside : c.side = .write) : PipeInv writer reader (s.moveByte t c) := by
 rcases (hinv.calls t _ c hpc).writing hside with ⟨hremaining, hmoved, hwithin, hcut, hi, hroom⟩
 simp only [moveByte, hside]
 apply pipeInv_change hinv hpc rfl rfl
 · exact hinv.ring.store pipeSize_fits hroom (c.buf c.i)
 · constructor
   · intro _
     exact ⟨hremaining, hmoved, hwithin, hcut, hi, hroom,
      hinv.ring.stored pipeSize_fits (c.buf c.i)⟩
   intro hread
   rw [hside] at hread
   cases hread
 · intro p x hx hcall
   constructor
   · intro hwrite
     rw [hside] at hx
     exact absurd hwrite hx
   intro hread
   rcases hcall.reading hread with ⟨hloaded, hhere⟩
   exact ⟨hloaded, by cases p <;> exact hhere⟩
 · exact hinv.kept
 · exact hinv.complete
 · exact hinv.delivered

theorem pipeInv_load (hpc : s.pc t = .call .move c) (hside : c.side = .read) (hi : c.i = c.moved) :
  PipeInv writer reader (s.moveByte t c) := by
 rcases (hinv.calls t _ c hpc).reading hside with ⟨hloaded, hitem⟩
 simp only [moveByte, hside]
 apply pipeInv_change hinv hpc rfl hside.symm
 · exact hinv.ring
 · constructor
   · nofun
   intro _
   constructor
   · rw [← hside, c.bytes_update _ (Nat.le_of_eq hi.symm)]
     exact hloaded
   refine ⟨hitem, ?_⟩
   simp only [goto, hi, update_self]
   exact hinv.ring.front pipeSize_fits hitem
 · intro p x _ hcall
   exact callInv_sameRing (Pipe.sameRing_refl _) hcall
 · exact hinv.kept
 · exact hinv.complete
 · exact hinv.delivered

theorem pipeInv_countWrite (hpc : s.pc t = .call .count c) (hside : c.side = .write) :
  PipeInv writer reader (s.countByte t c) := by
 rcases (hinv.calls t _ c hpc).writing hside with
  ⟨hremaining, hmoved, hwithin, hcut, hi, hroom, hdata⟩
 have hsent : s.pi.readopen ->
  s.sent = (s.stored ++ [c.buf c.i]) ++ (c.bytes c.n).drop (c.i + 1) := by
  intro hopen
  rw [hremaining hopen, c.bytes_drop hi, append_assoc]
  rfl
 simp only [countByte, hside]
 apply pipeInv_change hinv hpc rfl hside.symm
 · exact hinv.ring.push hroom hdata
 · constructor
   · intro _
     exact ⟨hsent, congrArg (fun k => k + 1) hmoved, hi, hcut, trivial⟩
   · nofun
 · intro p x hx hcall
   constructor
   · intro hwrite
     rw [hside] at hx
     exact absurd hwrite hx
   intro hread
   rcases hcall.reading hread with ⟨hloaded, hhere⟩
   constructor
   · simp only [goto]
     rw [take_append_of_le_length hinv.ring.order]
     exact hloaded
   cases p with
   | move =>
    simp only [ReadingAt, goto, length_append]
    exact Nat.lt_add_right _ hhere
   | count =>
    simp only [ReadingAt, goto, length_append]
    rw [getElem?_append_left hhere.left]
    exact ⟨Nat.lt_add_right _ hhere.left, hhere.right⟩
   | _ => trivial
 · intro hopen
   rw [hsent hopen]
   exact prefix_append _ _
 · intro _ _ hno
   exact absurd hside (hno t _ c hpc)
 intro hno
 simp only [goto]
 rw [take_append_of_le_length hinv.ring.order]
 exact hinv.delivered hno

theorem pipeInv_countRead (hpc : s.pc t = .call .count c)
  (hside : c.side = .read) : PipeInv writer reader (s.countByte t c) := by
 rcases (hinv.calls t _ c hpc).reading hside with ⟨hloaded, hitem, hbyte⟩
 simp only [countByte, hside]
 apply pipeInv_change hinv hpc rfl hside.symm
 · exact hinv.ring.pop hitem
 · constructor
   · nofun
   intro _
   refine ⟨?_, trivial⟩
   simp only [goto]
   rw [take_add_one, hbyte, ← hloaded, append_assoc]
   exact congrArg (fun l => s.received ++ l) (c.bytes_succ c.moved)
 · intro p x hx hcall
   constructor
   · intro hwrite
     rcases hcall.writing hwrite with ⟨hremaining, hmoved, hwithin, hcut, hhere⟩
     refine ⟨hremaining, hmoved, hwithin, hcut, ?_⟩
     cases p with
     | move => exact ⟨hhere.left, Nat.lt_trans hhere.right (by simp [goto])⟩
     | count =>
      exact ⟨hhere.left, Nat.lt_trans hhere.right.left (by simp [goto]), hhere.right.right⟩
     | _ => exact hhere
   intro hread
   rw [hside] at hx
   exact absurd hread hx
 · exact hinv.kept
 · exact hinv.complete
 intro hno
 exact absurd hside (hno t _ c hpc)

/-!
# Beginning and end of calls
-/

theorem pipeInv_outside (hnext : next.pc = update s.pc t pc) (hout : forall p x, pc ≠ .call p x)
  (hring : Ring.Holds pipeSize next.pi.data next.pi.nread next.pi.nwrite
    next.stored next.loaded) (hothers : forall u p x, u ≠ t -> s.pc u = .call p x ->
    s.CallInv p x -> next.CallInv p x)
  (hkept : next.pi.readopen -> next.stored <+: next.sent)
  (hcomplete : next.pi.readopen -> next.cut = false ->
    next.NoCall .write -> next.sent = next.stored) (hdelivered : next.NoCall .read ->
    next.received = next.stored.take next.loaded) :
  PipeInv writer reader next := by
 have hold : forall u p x, next.pc u = .call p x -> u ≠ t ∧ s.pc u = .call p x := by
  intro u p x hu
  rw [hnext] at hu
  exact (of_update hu).resolve_left (fun hself => hout p x hself.right)
 exact {
  roles := fun u p x hu => hinv.roles u p x (hold u p x hu).right
  ring := hring
  calls := by
   intro u p x hu
   rcases hold u p x hu with ⟨hut, hu'⟩
   exact hothers u p x hut hu' (hinv.calls u p x hu')
  kept := hkept
  complete := hcomplete
  delivered := hdelivered }

theorem pipeInv_leaveWrite (hpc : s.pc t = .call .ret c)
  (hside : c.side = .write) : PipeInv writer reader (s.leave t c) := by
 rcases (hinv.calls t _ c hpc).writing hside with ⟨hremaining, _, _, hcut, hhere⟩
 simp only [leave, hside]
 refine pipeInv_outside hinv (t := t) rfl (by simp) hinv.ring ?_ hinv.kept ?_ ?_
 · intro u p x _ _ hcall
   exact callInv_sameRing (s := s) (Pipe.sameRing_refl _) hcall
 · intro hopen hwhole _
   have hall : c.i = c.n := by
    rcases hhere with hall | hinterrupted | hclosed
    · exact hall
    · rw [hcut hinterrupted] at hwhole
      cases hwhole
    rw [hopen] at hclosed
    cases hclosed
   rw [hremaining hopen, hall, drop_eq_nil_of_le (by rw [c.bytes_length]), append_nil]
 intro hno
 apply hinv.delivered
 apply noCall_of_update rfl _ hno
 intro p x hx hxside
 rw [hpc] at hx
 cases hx
 rw [hside] at hxside
 cases hxside

theorem pipeInv_leaveRead (hpc : s.pc t = .call .ret c)
  (hside : c.side = .read) : PipeInv writer reader (s.leave t c) := by
 rcases (hinv.calls t _ c hpc).reading hside with ⟨hloaded, _⟩
 simp only [leave, hside]
 refine pipeInv_outside hinv (t := t) rfl (by simp) hinv.ring ?_ hinv.kept ?_ ?_
 · intro u p x hut hu hcall
   constructor
   · intro hwrite
     rcases hcall.writing hwrite with ⟨hremaining, hmoved, hwithin, hcut, hhere⟩
     exact ⟨hremaining, hmoved, hwithin, hcut, by cases p <;> exact hhere⟩
   intro hread
   have hdiffer := sides_differ hinv hpc hu hut
   rw [hside] at hdiffer
   exact absurd hread hdiffer
 · intro hopen hcut hno
   apply hinv.complete hopen hcut
   apply noCall_of_update rfl _ hno
   intro p x hx hxside
   rw [hpc] at hx
   cases hx
   rw [hside] at hxside
   cases hxside
 intro _
 exact hloaded

theorem pipeInv_close {freed : Bool} (hpc : forall place c, s.pc t ≠ .call place c)
    (hnext : forall place c, pc ≠ .call place c)
    (hpi : pi.data = s.pi.data ∧ pi.nread = s.pi.nread ∧
      pi.nwrite = s.pi.nwrite) (hopen : pi.readopen -> s.pi.readopen) :
    PipeInv writer reader { s with
 pi := pi
 freed := freed
 pc := update s.pc t pc } := by
 rcases hpi with ⟨hdata, hnread, hnwrite⟩
 have hstays : forall side, NoCall { s with
  pi := pi, freed := freed, pc := update s.pc t pc } side ->
  s.NoCall side := by
  intro side
  apply noCall_of_update rfl
  intro p x hx
  exact absurd hx (hpc p x)
 have hclosed : s.pi.readopen = false -> pi.readopen = false := by
  intro hfalse
  cases hopens : pi.readopen with
  | false => rfl
  | true =>
   rw [hopen hopens] at hfalse
   cases hfalse
 refine pipeInv_outside hinv (t := t) rfl hnext ?_ ?_ (fun h => hinv.kept (hopen h)) ?_ ?_
 · simp only [hdata, hnread, hnwrite]
   exact hinv.ring
 · intro u p x _ _ hcall
   constructor
   · intro hwrite
     rcases hcall.writing hwrite with ⟨hremaining, hmoved, hwithin, hcut, hhere⟩
     refine ⟨fun h => hremaining (hopen h), hmoved, hwithin, hcut, ?_⟩
     cases p with
     | count =>
      simp only [WritingAt, hdata]
      exact hhere
     | finalRelease | finalPost | ret => exact hhere.imp_right (Or.imp_right hclosed)
     | _ => exact hhere
   intro hread
   rcases hcall.reading hread with ⟨hloaded, hhere⟩
   exact ⟨hloaded, by cases p <;> exact hhere⟩
 · intro hopens hcut hno
   exact hinv.complete (hopen hopens) hcut (hstays _ hno)
 intro hno
 exact hinv.delivered (hstays _ hno)

section
variable (hidle : s.pc t = .idle)
include hidle

theorem pipeInv_enter (sent : List UInt8) (hrole : t = party writer reader c.side)
  (hown : { s with sent := sent }.CallInv place c) (hothers : forall u p x, s.pc u = .call p x ->
    { s with sent := sent }.CallInv p x) (hkept : s.pi.readopen -> s.stored <+: sent)
  (hcomplete : c.side = .read -> sent = s.sent) :
  PipeInv writer reader { s.goto t place c with sent := sent } := by
 have hcases : forall u p x, update s.pc t (.call place c) u = .call p x ->
  (u = t ∧ p = place ∧ x = c) ∨ s.pc u = .call p x := by
  intro u p x hu
  rcases of_update hu with ⟨hut, hu⟩ | ⟨_, hu⟩
  · cases hu
    exact .inl ⟨hut, rfl, rfl⟩
  · exact .inr hu
 have hstays : forall side, NoCall { s.goto t place c with sent := sent } side ->
  s.NoCall side := by
  intro side
  apply noCall_of_update rfl
  intro p x hx
  rw [hidle] at hx
  cases hx
 exact {
  roles := by
   intro u p x hu
   rcases hcases u p x hu with ⟨hut, _, hx⟩ | hold
   · rw [hut, hx]
     exact hrole
   · exact hinv.roles u p x hold
  ring := hinv.ring
  calls := by
   intro u p x hu
   apply callInv_sameRing (s := { s with sent := sent }) (Pipe.sameRing_refl _)
   rcases hcases u p x hu with ⟨_, hp, hx⟩ | hold
   · rw [hp, hx]
     exact hown
   · exact hothers u p x hold
  kept := hkept
  complete := by
   intro hopen hcut hno
   have hread : c.side = .read := by
    have hnot := hno t place c (update_self ..)
    cases hside : c.side with
    | write => exact absurd hside hnot
    | read => rfl
   exact (hcomplete hread).trans (hinv.complete hopen hcut (hstays _ hno))
  delivered := fun hno => hinv.delivered (hstays _ hno) }

theorem pipeInv_pipeWrite {src : Nat -> UInt8} {n : Nat}
  (hguard : s.Steady writer reader (.pipeWrite t src n)) :
  PipeInv writer reader
    { s.goto t .acquire
        { side := .write, buf := src, n := n, i := 0, moved := 0
          interrupted := false } with
      sent := s.sent ++ (range n).map src } := by
 rcases hguard with ⟨hone, hsteady⟩
 have hwriter : t = writer := by
  simp only [OneEach, oneEach, Bool.and_eq_true, decide_eq_true_eq] at hone
  exact hone.left
 have hcut : s.cut = false := by simpa [steady] using hsteady
 have hno : s.NoCall .write := by
  intro u p x hu hside
  have hut := hinv.roles u p x hu
  rw [hside] at hut
  have heq : u = t := hut.trans hwriter.symm
  rw [heq, hidle] at hu
  cases hu
 have hsent : s.pi.readopen -> s.sent = s.stored := by
  intro hopen
  exact hinv.complete hopen hcut hno
 refine pipeInv_enter hinv hidle _ hwriter ?_ ?_ ?_ ?_
 · constructor
   · intro _
     constructor
     · intro hopen
       simp only [PipeCall.bytes, drop_zero]
       rw [hsent hopen]
     · rfl
     · exact Nat.zero_le _
     · nofun
     · trivial
   · nofun
 · intro u p x hu
   have hcall := hinv.calls u p x hu
   constructor
   · intro hwrite
     exact absurd hwrite (hno u p x hu)
   intro hread
   rcases hcall.reading hread with ⟨hloaded, hhere⟩
   exact ⟨hloaded, by cases p <;> exact hhere⟩
 · intro hopen
   rw [hsent hopen]
   exact prefix_append _ _
 · nofun

theorem pipeInv_pipeRead {dst : Nat -> UInt8} {n : Nat}
  (hguard : s.Steady writer reader (.pipeRead t dst n)) :
  PipeInv writer reader (s.goto t .acquire
      { side := .read, buf := dst, n := n, i := 0, moved := 0
        interrupted := false }) := by
 have hreader : t = reader := by
  have hone := hguard.left
  simp only [OneEach, oneEach, Bool.and_eq_true, decide_eq_true_eq] at hone
  exact hone.left
 have hno : s.NoCall .read := by
  intro u p x hu hside
  have hut := hinv.roles u p x hu
  rw [hside] at hut
  have heq : u = t := hut.trans hreader.symm
  rw [heq, hidle] at hu
  cases hu
 refine pipeInv_enter hinv hidle s.sent hreader ?_ hinv.calls hinv.kept (fun _ => rfl)
 constructor
 · nofun
 intro _
 refine ⟨?_, trivial⟩
 rw [← hinv.delivered hno]
 exact append_nil _
end

theorem pipeInv_alert (hpc : s.pc t = .call .asleep c) {sem : PipeSem} :
    PipeInv writer reader ({ s with
 pi := c.side.setSem sem s.pi
 cut := s.cut || decide (c.side = PipeSide.write) }.goto t
  PipePlace.finalRelease { c with interrupted := true }) := by
 have hsame := Pipe.sameRing_setSem c.side sem s.pi
 have hcall := hinv.calls t _ c hpc
 have hside : { c with interrupted := true }.side = c.side := rfl
 refine pipeInv_change hinv hpc rfl hside ?_ ?_ ?_ ?_ ?_ ?_
 · simp only [goto, hsame.data, hsame.nread, hsame.nwrite]
   exact hinv.ring
 · constructor
   · intro hwrite
     rcases hcall.writing hwrite with ⟨hremaining, hmoved, hwithin, _, _⟩
     refine ⟨?_, hmoved, hwithin, ?_, .inr (.inl rfl)⟩
     · simp only [goto, hsame.readopen]
       exact hremaining
     intro _
     have hwrite' : c.side = PipeSide.write := hwrite
     simp [goto, hwrite']
   · intro hread
     exact ⟨(hcall.reading hread).loaded, trivial⟩
 · intro p x hx hother
   have hbase : { s with pi := c.side.setSem sem s.pi }.CallInv p x := callInv_sameRing hsame hother
   constructor
   · intro hwrite
     rcases hbase.writing hwrite with ⟨hremaining, hmoved, hwithin, hcut, hhere⟩
     refine ⟨hremaining, hmoved, hwithin, ?_, by cases p <;> exact hhere⟩
     intro hinterrupted
     have hold : s.cut := hcut hinterrupted
     simp [goto, hold]
   intro hread
   rcases hbase.reading hread with ⟨hloaded, hhere⟩
   exact ⟨hloaded, by cases p <;> exact hhere⟩
 · simp only [goto, hsame.readopen]
   exact hinv.kept
 · simp only [goto, hsame.readopen, Bool.or_eq_false_iff]
   intro hopen hcut hno
   exact hinv.complete hopen hcut.left hno
 · exact hinv.delivered

/-!
# Runs
-/

theorem pipeInv_call (hpc : s.pc t = .call place c) (hsteady : s.steady (.run t))
  (h : s.runCall t c place = some next) : PipeInv writer reader next := by
 rcases runCall_cases h with hpasses | ⟨hplace, heq⟩ | ⟨hplace, heq⟩ | ⟨hplace, heq⟩
 · exact pipeInv_passes hinv hpc hsteady hpasses
 · subst hplace heq
   cases hside : c.side with
   | write => exact pipeInv_store hinv hpc hside
   | read =>
    have hi : c.i = c.moved := by simpa [steady, hpc, hside] using hsteady
    exact pipeInv_load hinv hpc hside hi
 · subst hplace heq
   cases hside : c.side with
   | write => exact pipeInv_countWrite hinv hpc hside
   | read => exact pipeInv_countRead hinv hpc hside
 subst hplace heq
 cases hside : c.side with
 | write => exact pipeInv_leaveWrite hinv hpc hside
 | read => exact pipeInv_leaveRead hinv hpc hside

theorem pipeInv_step {l : PipeLabel}
  (hguard : s.Steady writer reader l) (h : s.step l = some next) :
  PipeInv writer reader next := by
 cases step_moves h with
 | pipeWrite hidle => exact pipeInv_pipeWrite hinv hidle hguard
 | pipeRead hidle => exact pipeInv_pipeRead hinv hidle hguard
 | call hpc hrun => exact pipeInv_call hinv hpc hguard.right hrun
 | alert hpc => exact pipeInv_alert hinv hpc
 | close hpc hnext hpi hopen => exact pipeInv_close hinv hpc hnext hpi hopen
end

theorem pipeInv_reachable (h : Reachable pipeSystem (Steady writer reader) s) :
  PipeInv writer reader s := by
 apply reachable_invariant (PipeInv writer reader) _ _ h
 · intro s hstart
   rw [hstart]
   exact pipeInv_start
 intro s l next _ hinv hguard hstep
 exact pipeInv_step hinv hguard hstep

theorem received_of_inv (hinv : PipeInv writer reader s) : s.received <+: s.stored := by
 by_cases hno : s.NoCall .read
 · rw [hinv.delivered hno]
   exact take_prefix _ _
 simp only [NoCall, not_forall, not_not] at hno
 rcases hno with ⟨t, place, c, hpc, hside⟩
 have hloaded := ((hinv.calls t place c hpc).reading hside).loaded
 have hfirst : s.received <+: s.stored.take s.loaded := by
  rw [← hloaded]
  exact prefix_append _ _
 exact hfirst.trans ( take_prefix _ _)

/--
The data that a pipe guarantees: the bytes returned by the reads are the first
of the bytes passed to the writes, and a write that is not interrupted returns
its length.
-/
structure Integrity (s : PipeState) : Prop where
 received : s.pi.readopen = true -> s.received <+: s.sent
 returned : forall t c, s.pc t = .call .ret c -> c.side = .write -> c.interrupted = false ->
  s.pi.readopen = true -> c.moved = c.n

end PipeState

theorem pipe_integrity_of_reachable {writer reader : Tid} {s : PipeState}
  (h : Reachable pipeSystem (PipeState.Steady writer reader) s) : s.Integrity := by
 have hinv := pipeInv_reachable h
 constructor
 · intro hopen
   exact (received_of_inv hinv).trans (hinv.kept hopen)
 intro t c hpc hside hwhole hopen
 have hwriting := (hinv.calls t _ c hpc).writing hside
 rw [hwriting.moved]
 rcases hwriting.here with hall | hinterrupted | hclosed
 · exact hall
 · rw [hwhole] at hinterrupted
   cases hinterrupted
 rw [hopen] at hclosed
 cases hclosed

/-- Two bytes through the pipe. -/
theorem pipe_integrity_two_bytes : exists s : PipeState, s.sent = [97, 98] ∧ s.received = [97, 98] ∧
    s.Integrity := by
 rcases exists_reachable_of_execute pipeSystem (Steady 0 1) (show pipeSystem.initial start from rfl)
  ([.pipeWrite 0 (fun i => if i = 0 then 97 else 98) 2] ++
   replicate 11 (.run 0) ++
   [.pipeRead 1 (fun _ => 0) 2] ++
   replicate 11 (.run 1))
  (fun s => s.sent = [97, 98] ∧ s.received = [97, 98]) (by decide +kernel) with
  ⟨s, hreach, hsent, hreceived⟩
 exact ⟨s, hsent, hreceived, pipe_integrity_of_reachable hreach⟩

/-!
# A byte in the wrong place

The reader asks for two bytes of an empty pipe and sleeps.  The writer sends one
byte and wakes it.  The reader goes on with the next round of its loop, puts the
byte at `dst[1]` and returns one byte, which is what `dst[0]` was before.
-/

theorem pipe_read_leaves_hole : exists s : PipeState,
    Reachable pipeSystem (PipeState.OneEach 0 1) s ∧
    s.pi.readopen = true ∧ s.sent = [97] ∧ s.received = [0] ∧
    ¬ s.Integrity := by
 rcases exists_reachable_of_execute pipeSystem (OneEach 0 1)
  (show pipeSystem.initial start from rfl)
  ([.pipeRead 1 (fun _ => 0) 2] ++ replicate 7 (.run 1) ++
   [.pipeWrite 0 (fun _ => 97) 1] ++
   replicate 8 (.run 0) ++
   replicate 9 (.run 1))
  (fun s => s.pi.readopen = true ∧ s.sent = [97] ∧ s.received = [0]) (by decide +kernel) with
  ⟨s, hreach, hopen, hsent, hreceived⟩
 refine ⟨s, hreach, hopen, hsent, hreceived, ?_⟩
 intro hintegrity
 have hfirst := hintegrity.received hopen
 rw [hsent, hreceived] at hfirst
 revert hfirst
 decide

end OSLab.Fs
