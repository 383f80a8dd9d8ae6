import OSLab.Fs.Pipe.Closing
import OSLab.Fs.Pipe.Integrity
import Mathlib.Logic.Relation

/-!
# The locks of a pipe

A call that finds no space or no data locks its own semaphore, gives the lock of the
pipe back and posts the other semaphore.  When one call of each function does this at
the same time, each of them holds the lock that the other one waits for.  For that the
pipe has to become full after it was found empty, or empty after it was found full,
without a post in between.
-/

namespace OSLab.Fs
open Common Foundation Function TransitionSystem PipeState PipeSide PipeCall

inductive PipeLock where
 | pipe
 | sem (side : PipeSide)
 deriving DecidableEq

namespace PipePc

def wants : PipePc -> Option PipeLock
 | call .acquire _ | call .reacquire _ => some .pipe
 | call .lockSem c => some (.sem c.side)
 | call .post c => some (.sem c.side.other)
 | call .asleep c => some (.sem c.side)
 | call .finalPost c => some (.sem c.side.other)
 | closeAcquire _ => some .pipe
 | _ => none

def holds : PipePc -> List PipeLock
 | call .test _ | call .move _ | call .count _ | call .blocked _ | call .lockSem _ => [.pipe]
 | call .release c => [.pipe, .sem c.side]
 | call .post c | call .wait c => [.sem c.side]
 | call .finalRelease c => if c.interrupted then [] else [.pipe]
 | closeSet _ | closeTest => [.pipe]
 | _ => []

theorem wants_and_holds {pc : PipePc} {lock held : PipeLock} (hwants : pc.wants = some lock)
  (hholds : held ∈ pc.holds) :
  (exists c, pc = call .lockSem c) ∨ (exists c, pc = call .post c) := by
 cases pc with
 | call place c =>
  cases place with
  | lockSem => exact .inl ⟨c, rfl⟩
  | post => exact .inr ⟨c, rfl⟩
  | test | move | count | blocked | release | wait | finalRelease => cases hwants
  | _ => cases hholds
 | closeSet writable | closeTest => cases hwants
 | _ => cases hholds

end PipePc

namespace PipeState
variable (s : PipeState)

def WaitsFor (t u : Tid) : Prop :=
 exists lock, (s.pc t).wants = some lock ∧ lock ∈ (s.pc u).holds

def CyclicWait : Prop := exists t, Relation.TransGen s.WaitsFor t t

variable {s : PipeState}

theorem CyclicWait.inner (h : s.CyclicWait) :
  exists t u, s.WaitsFor t u ∧ (exists v, s.WaitsFor v t) ∧ (exists v, s.WaitsFor u v) := by
 rcases h with ⟨t, hcycle⟩
 have hin : exists v, s.WaitsFor v t := by
  cases hcycle with
  | single hedge => exact ⟨t, hedge⟩
  | tail _ hedge => exact ⟨_, hedge⟩
 rcases Relation.TransGen.head'_iff.mp hcycle with ⟨u, hedge, hrest⟩
 refine ⟨t, u, hedge, hin, ?_⟩
 rcases Relation.ReflTransGen.cases_head hrest with heq | ⟨v, hv, _⟩
 · rw [heq]
   exact ⟨u, heq ▸ hedge⟩
 · exact ⟨v, hv⟩

def Crossed (s : PipeState) : Prop :=
 exists t u c d, s.pc t = .call .post c ∧ s.pc u = .call .post d ∧ d.side = c.side.other

def OnePerSide (s : PipeState) : Prop :=
 forall t u place place' c d, s.pc t = .call place c ->
  s.pc u = .call place' d -> c.side = d.side -> t = u

theorem other_other (side : PipeSide) : side.other.other = side := by
 cases side <;> rfl

theorem cyclicWait_of_crossed (h : s.Crossed) : s.CyclicWait := by
 rcases h with ⟨t, u, c, d, ht, hu, hside⟩
 have hforth : s.WaitsFor t u := by
  refine ⟨.sem c.side.other, by rw [ht]; rfl, ?_⟩
  rw [hu, ← hside]
  exact List.mem_singleton_self _
 have hback : s.WaitsFor u t := by
  refine ⟨.sem d.side.other, by rw [hu]; rfl, ?_⟩
  rw [ht, hside, other_other]
  exact List.mem_singleton_self _
 exact ⟨t, Relation.TransGen.tail (Relation.TransGen.single hforth) hback⟩

theorem crossed_of_cyclicWait (hone : s.OnePerSide) (h : s.CyclicWait) : s.Crossed := by
 rcases h.inner with ⟨t, u, ⟨lock, hwants, hheld⟩, ⟨v, lock', _, hheld'⟩, w, lock'', hwants'', _⟩
 rcases PipePc.wants_and_holds hwants'' hheld with ⟨d, hu⟩ | ⟨d, hu⟩
 · -- the other thread holds the lock of the pipe only, for which nobody in a cycle waits
   rw [hu] at hheld
   have hlock : lock = .pipe := List.mem_singleton.mp hheld
   rcases PipePc.wants_and_holds hwants hheld' with ⟨c, ht⟩ | ⟨c, ht⟩
   all_goals
    rw [ht, hlock] at hwants
    cases hwants
 rw [hu] at hheld
 have hlock : lock = .sem d.side := List.mem_singleton.mp hheld
 rw [hlock] at hwants
 rcases PipePc.wants_and_holds hwants hheld' with ⟨c, ht⟩ | ⟨c, ht⟩
 · rw [ht] at hwants
   have hside : c.side = d.side := PipeLock.sem.inj (Option.some.inj hwants)
   have heq := hone t u _ _ c d ht hu hside
   rw [heq, hu] at ht
   cases ht
 rw [ht] at hwants
 exact ⟨t, u, c, d, ht, hu, (PipeLock.sem.inj (Option.some.inj hwants)).symm⟩

end PipeState

/-!
# Counting the bytes of two calls

Between its test and its post a call does not move bytes.  If both calls are there, the
one that came last has moved as many bytes as fit into the pipe since the test of the
other one.
-/

namespace Pipe

def unread (pi : Pipe) : Nat := (pi.nwrite - pi.nread).toNat

theorem unread_of_sameRing {pi next : Pipe} (h : pi.SameRing next) : next.unread = pi.unread := by
 unfold unread
 rw [h.nread, h.nwrite]

end Pipe

namespace PipeSide

def done (s : PipeState) : PipeSide -> Nat
 | write => s.stored.length
 | read => s.loaded

def room (pi : Pipe) : PipeSide -> Nat
 | write => pipeSize - pi.unread
 | read => pi.unread

def turn (k : Nat) : PipeSide -> Nat
 | write => pipeSize - k
 | read => k

theorem ready_iff (side : PipeSide) {pi : Pipe} (h : pi.unread ≤ pipeSize) :
  side.ready pi ↔ 0 < side.room pi := by
 cases side with
 | write =>
  unfold ready room
  unfold Pipe.unread pipeSize at *
  rw [decide_eq_true_iff]
  bv_omega
 | read =>
  unfold ready room Pipe.unread
  rw [decide_eq_true_iff]
  bv_omega

end PipeSide

namespace PipePlace

def moving : PipePlace -> Bool
 | move | count => true
 | _ => false

def turning : PipePlace -> Bool
 | blocked | lockSem | release | post => true
 | _ => false

end PipePlace

structure PipeCall.Known (c : PipeCall) (k done room : Nat) (place : PipePlace) : Prop where
 done_le : done ≤ c.i
 moving : place.moving = true -> c.i < c.n ∧ 0 < room
 turning : place.turning = true -> c.i < c.n ∧ c.side.turn k ≤ done

namespace PipeCall
variable {c : PipeCall} {k done room : Nat} {place : PipePlace}
 (hdone : done ≤ c.i) (hmoving : place.moving = false)
include hdone hmoving

theorem known_elsewhere (hturning : place.turning = false) : c.Known k done room place := by
 constructor
 · exact hdone
 · intro hplace
   rw [hmoving] at hplace
   cases hplace
 · intro hplace
   rw [hturning] at hplace
   cases hplace

theorem known_turned (hturned : c.i < c.n ∧ c.side.turn k ≤ done) : c.Known k done room place := by
 constructor
 · exact hdone
 · intro hplace
   rw [hmoving] at hplace
   cases hplace
 · intro _
   exact hturned

end PipeCall

namespace PipeState

section Tally
variable (writer reader : Tid) (k : Nat) (limit : PipeSide -> Nat)

structure Tally (s : PipeState) : Prop where
 count : s.pi.unread + s.loaded = k + s.stored.length
 within : s.pi.unread ≤ pipeSize
 calls : forall t place c, s.pc t = .call place c ->
  t = party writer reader c.side ∧ c.n = limit c.side ∧
   c.Known k (c.side.done s) (c.side.room s.pi) place
 noClose : forall t, s.pc t = .idle ∨ exists place c, s.pc t = .call place c
 both : forall t u place place' c d, s.pc t = .call place c ->
  s.pc u = .call place' d -> d.side = c.side.other ->
  place.turning = true -> place'.turning = true ->
  pipeSize ≤ s.stored.length ∨ pipeSize ≤ s.loaded

end Tally

variable {writer reader t : Tid} {k : Nat} {limit : PipeSide -> Nat} {s next : PipeState}
 {place place' : PipePlace} {c d : PipeCall}

theorem Tally.onePerSide (h : Tally writer reader k limit s) : s.OnePerSide := by
 intro t u place place' c d ht hu hside
 rw [(h.calls t place c ht).left, (h.calls u place' d hu).left, hside]

theorem done_congr (hstored : next.stored = s.stored) (hloaded : next.loaded = s.loaded)
  (side : PipeSide) : side.done next = side.done s := by
 cases side
 · exact congrArg List.length hstored
 · exact hloaded

variable {side : PipeSide}

theorem Tally.turned (hcount : s.pi.unread + s.loaded = k + s.stored.length)
  (hwithin : s.pi.unread ≤ pipeSize) (hroom : side.room s.pi = 0)
  (hother : side.other.turn k ≤ side.other.done s) :
  pipeSize ≤ s.stored.length ∨ pipeSize ≤ s.loaded := by
 cases side with
 | write =>
  left
  simp only [room, other, turn, done] at hroom hother
  omega
 | read =>
  right
  simp only [room, other, turn, done] at hroom hother
  omega

/-- The thread of a call goes on, and the quantities of the other side do not get worse. -/
structure Goes (k : Nat) (s next : PipeState) (t : Tid) (place place' : PipePlace)
  (c d : PipeCall) : Prop where
 pc : next.pc = update s.pc t (.call place' d)
 side : d.side = c.side
 n : d.n = c.n
 count : next.pi.unread + next.loaded = k + next.stored.length
 within : next.pi.unread ≤ pipeSize
 done_other : c.side.other.done next = c.side.other.done s
 room_other : c.side.other.room s.pi ≤ c.side.other.room next.pi
 done_self : c.side.done s ≤ c.side.done next
 known : d.Known k (c.side.done next) (c.side.room next.pi) place'
 turning : place'.turning = true -> place.turning = true ∨ c.side.room next.pi = 0

theorem Goes.done (h : Goes k s next t place place' c d) (side : PipeSide) :
  side.done s ≤ side.done next := by
 by_cases hside : side = c.side
 · rw [hside]
   exact h.done_self
 have hother : side = c.side.other := by
  cases hc : c.side <;> cases side <;> simp_all [other]
 rw [hother, h.done_other]

theorem Goes.full (h : Goes k s next t place place' c d)
  (hfull : pipeSize ≤ s.stored.length ∨ pipeSize ≤ s.loaded) :
  pipeSize ≤ next.stored.length ∨ pipeSize ≤ next.loaded :=
 hfull.imp (fun hle => hle.trans (h.done .write)) (fun hle => hle.trans (h.done .read))

section
variable (h : Tally writer reader k limit s)
include h

theorem Tally.goes (hpc : s.pc t = .call place c)
  (hgoes : Goes k s next t place place' c d) : Tally writer reader k limit next := by
 have hself := h.calls t place c hpc
 have hothers : forall u at_u e, u ≠ t -> s.pc u = .call at_u e -> e.side = c.side.other := by
  intro u at_u e hut hu
  cases hc : c.side <;> cases he : e.side
  · exact absurd (h.onePerSide u t _ _ e c hu hpc (he.trans hc.symm)) hut
  · rfl
  · rfl
  · exact absurd (h.onePerSide u t _ _ e c hu hpc (he.trans hc.symm)) hut
 have hcalls : forall u at_u e, next.pc u = .call at_u e ->
  u = party writer reader e.side ∧ e.n = limit e.side ∧
   e.Known k (e.side.done next) (e.side.room next.pi) at_u := by
  intro u at_u e hu
  rw [hgoes.pc] at hu
  rcases of_update hu with ⟨hut, hu⟩ | ⟨hut, hu⟩
  · cases hu
    rw [hut, hgoes.side, hgoes.n]
    exact ⟨hself.left, hself.right.left, hgoes.known⟩
  have hbefore := h.calls u at_u e hu
  have hknown := hbefore.right.right
  refine ⟨hbefore.left, hbefore.right.left, ?_⟩
  rw [hothers u at_u e hut hu] at hknown ⊢
  rw [hgoes.done_other]
  exact ⟨hknown.done_le, fun hmoving => ⟨(hknown.moving hmoving).left,
    Nat.lt_of_lt_of_le (hknown.moving hmoving).right hgoes.room_other⟩,
   hknown.turning⟩
 -- the acting thread and another one after its test
 have hwith : forall u at_u e, u ≠ t -> s.pc u = .call at_u e ->
  e.side = c.side.other -> place'.turning -> at_u.turning ->
  pipeSize ≤ next.stored.length ∨ pipeSize ≤ next.loaded := by
  intro u at_u e hut hu hside hturning hother
  rcases hgoes.turning hturning with hbefore | hroom
  · exact hgoes.full (h.both t u place at_u c e hpc hu hside hbefore hother)
  apply Tally.turned hgoes.count hgoes.within hroom
  have hturn := ((h.calls u at_u e hu).right.right.turning hother).right
  rw [hside] at hturn
  rw [hgoes.done_other]
  exact hturn
 exact { hgoes with
  calls := hcalls
  noClose := by
   intro u
   rw [hgoes.pc]
   by_cases hut : u = t
   · rw [hut, update_self]
     exact .inr ⟨place', d, rfl⟩
   rw [update_of_ne hut]
   exact h.noClose u
  both := by
   intro u v at_u at_v e f hu hv hside hturning hturning'
   rw [hgoes.pc] at hu hv
   rcases of_update hu with ⟨_, hu⟩ | ⟨hut, hu⟩
   · cases hu
     rcases of_update hv with ⟨_, hv⟩ | ⟨hvt, hv⟩
     · cases hv
       cases hd : d.side <;> rw [hd] at hside <;> cases hside
     · exact hwith v at_v f hvt hv (hothers v at_v f hvt hv) hturning hturning'
   rcases of_update hv with ⟨_, hv⟩ | ⟨_, hv⟩
   · cases hv
     exact hwith u at_u e hut hu (hothers u at_u e hut hu) hturning' hturning
   · exact hgoes.full (h.both u v at_u at_v e f hu hv hside hturning hturning') }

theorem Tally.leaves (hpc : next.pc = update s.pc t .idle) (hpi : next.pi = s.pi)
  (hstored : next.stored = s.stored) (hloaded : next.loaded = s.loaded) :
  Tally writer reader k limit next := by
 have hbefore : forall u at_u e, next.pc u = .call at_u e -> s.pc u = .call at_u e := by
  intro u at_u e hu
  rw [hpc] at hu
  rcases of_update hu with ⟨_, hu⟩ | ⟨_, hu⟩
  · cases hu
  · exact hu
 have hdone := done_congr hstored hloaded
 constructor
 · rw [hpi, hstored, hloaded]
   exact h.count
 · rw [hpi]
   exact h.within
 · intro u at_u e hu
   rw [hpi, hdone]
   exact h.calls u at_u e (hbefore u at_u e hu)
 · intro u
   rw [hpc]
   by_cases hut : u = t
   · rw [hut, update_self]
     exact .inl rfl
   rw [update_of_ne hut]
   exact h.noClose u
 · intro u v at_u at_v e f hu hv
   rw [hstored, hloaded]
   exact h.both u v at_u at_v e f (hbefore u at_u e hu) (hbefore v at_v f hv)

theorem Tally.turn_le_done (hroom : side.room s.pi = 0) : side.turn k ≤ side.done s := by
 have hcount := h.count
 cases side with
 | write | read =>
  simp only [room, turn, done] at hroom ⊢
  omega

theorem Tally.room_of_not_ready (hready : side.ready s.pi = false) : side.room s.pi = 0 := by
 apply Nat.eq_zero_of_not_pos
 intro hpos
 rw [(side.ready_iff h.within).mpr hpos] at hready
 cases hready

theorem Tally.known_follows
  (hpc : s.pc t = .call place c) (hfollows : PipeFollows s.pi c place place' d) :
  d.Known k (c.side.done s) (c.side.room s.pi) place' ∧
    (place'.turning -> place.turning ∨ c.side.room s.pi = 0) := by
 have hknown := (h.calls t place c hpc).right.right
 cases hfollows with
 | ready hi hready =>
  have hroom := (c.side.ready_iff h.within).mp hready
  exact ⟨⟨hknown.done_le, fun _ => ⟨hi, hroom⟩, nofun⟩,
   nofun⟩
 | notReady hi hready =>
  have hroom := h.room_of_not_ready hready
  exact ⟨known_turned hknown.done_le rfl ⟨hi, h.turn_le_done hroom⟩, fun _ => .inr hroom⟩
 | peerOpen _ | locked | released =>
  exact ⟨known_turned hknown.done_le rfl (hknown.turning rfl), fun _ => .inl rfl⟩
 | reacquired =>
  exact ⟨known_elsewhere (Nat.le_succ_of_le hknown.done_le) rfl rfl,
   nofun⟩
 | _ => exact ⟨known_elsewhere hknown.done_le rfl rfl, nofun⟩

theorem Tally.still (hpc : s.pc t = .call place c)
  (hnext : next.pc = update s.pc t (.call place' d))
  (hside : d.side = c.side) (hn : d.n = c.n) (hunread : next.pi.unread = s.pi.unread)
  (hstored : next.stored = s.stored) (hloaded : next.loaded = s.loaded)
  (hknown : d.Known k (c.side.done s) (c.side.room s.pi) place')
  (hturning : place'.turning -> place.turning ∨ c.side.room s.pi = 0) :
  Tally writer reader k limit next := by
 have hdone := done_congr hstored hloaded
 have hroom : forall side : PipeSide, side.room next.pi = side.room s.pi := by
  intro side
  cases side
  · exact congrArg (pipeSize - ·) hunread
  · exact hunread
 refine h.goes hpc (?_ : Goes k s next t place place' c d)
 constructor
 · exact hnext
 · exact hside
 · exact hn
 · rw [hunread, hstored, hloaded]
   exact h.count
 · rw [hunread]
   exact h.within
 · exact hdone _
 · exact Nat.le_of_eq (hroom _).symm
 · exact Nat.le_of_eq (hdone _).symm
 · rw [hdone, hroom]
   exact hknown
 · rw [hroom]
   exact hturning
end

structure Counts (s next : PipeState) (side : PipeSide) : Prop where
 done : side.done next = side.done s + 1
 done_other : side.other.done next = side.other.done s
 room : side.room next.pi + 1 = side.room s.pi
 room_other : side.other.room s.pi ≤ side.other.room next.pi
 within : next.pi.unread ≤ pipeSize
 count : forall k, s.pi.unread + s.loaded = k + s.stored.length ->
  next.pi.unread + next.loaded = k + next.stored.length

theorem countByte_counts (hwithin : s.pi.unread ≤ pipeSize) (hroom : 0 < c.side.room s.pi) :
  Counts s (s.countByte t c) c.side := by
 unfold countByte
 cases hside : c.side with
 | write =>
  rw [hside] at hroom
  simp only [room] at hroom
  have hunread : Pipe.unread { s.pi with nwrite := s.pi.nwrite + 1 } = s.pi.unread + 1 := by
   unfold Pipe.unread pipeSize at *
   bv_omega
  constructor <;>
   simp only [done, other, room, goto, hunread,
    List.length_append, List.length_singleton] <;> omega
 | read =>
  rw [hside] at hroom
  simp only [room] at hroom
  have hunread : Pipe.unread { s.pi with nread := s.pi.nread + 1 } = s.pi.unread - 1 := by
   unfold Pipe.unread at *
   bv_omega
  constructor <;>
   simp only [done, other, room, goto, hunread] <;> omega

theorem Tally.countByte (h : Tally writer reader k limit s)
  (hpc : s.pc t = .call .count c) : Tally writer reader k limit (s.countByte t c) := by
 have hknown := (h.calls t _ c hpc).right.right
 have hcounts := countByte_counts (t := t) h.within (hknown.moving rfl).right
 have hdone := hcounts.done
 refine h.goes hpc (?_ : Goes k s (s.countByte t c) t .count .test c
  { c with moved := c.moved + 1, i := c.i + 1 })
 constructor
 · unfold PipeState.countByte
   cases c.side <;> rfl
 · rfl
 · rfl
 · exact hcounts.count k h.count
 · exact hcounts.within
 · exact hcounts.done_other
 · exact hcounts.room_other
 · omega
 · apply known_elsewhere _ rfl rfl
   rw [hdone]
   exact Nat.succ_le_succ hknown.done_le
 · nofun

theorem moveByte_eq (s : PipeState) (t : Tid) (c : PipeCall) :
  exists data d, s.moveByte t c = { s with pi := { s.pi with data := data } }.goto t .count d ∧
    d.side = c.side ∧ d.n = c.n ∧ d.i = c.i := by
 unfold moveByte
 split
 · exact ⟨_, c, rfl, rfl, rfl, rfl⟩
 · exact ⟨s.pi.data, _, rfl, rfl, rfl, rfl⟩

theorem Tally.moveByte (h : Tally writer reader k limit s)
  (hpc : s.pc t = .call .move c) : Tally writer reader k limit (s.moveByte t c) := by
 have hknown := (h.calls t _ c hpc).right.right
 rcases moveByte_eq s t c with ⟨data, d, heq, hside, hn, hi⟩
 rw [heq]
 refine h.still hpc rfl hside hn rfl rfl rfl ?_ nofun
 constructor
 · rw [hi]
   exact hknown.done_le
 · rw [hi, hn]
   exact fun _ => hknown.moving rfl
 · nofun

theorem Tally.runCall (h : Tally writer reader k limit s)
  (hpc : s.pc t = .call place c) (hrun : s.runCall t c place = some next) :
  Tally writer reader k limit next := by
 rcases runCall_cases hrun with ⟨pi, place', d, hring, hfollows, hnext⟩ | hmove | hcount | hret
 · have hknown := h.known_follows hpc hfollows
   have hn : d.n = c.n := by
    cases hfollows <;> rfl
   rw [hnext]
   exact h.still hpc rfl (follows_side hfollows) hn (Pipe.unread_of_sameRing hring) rfl rfl
    hknown.left hknown.right
 · rw [hmove.left] at hpc
   rw [hmove.right]
   exact h.moveByte hpc
 · rw [hcount.left] at hpc
   rw [hcount.right]
   exact h.countByte hpc
 rw [hret.right]
 exact h.leaves (t := t) rfl rfl rfl rfl

def NoNewCall (_ : PipeState) : PipeLabel -> Prop
 | .run _ | .alert _ => True
 | _ => False

section
variable (h : Tally writer reader k limit s)
include h

theorem Tally.alert (halert : s.alert t = some next) : Tally writer reader k limit next := by
 unfold PipeState.alert at halert
 split at halert
 · rename_i c hpc
   simp only at halert
   split at halert
   · cases halert
   have hknown := (h.calls t _ c hpc).right.right
   rw [← Option.some.inj halert]
   exact h.still hpc rfl rfl rfl
    (Pipe.unread_of_sameRing (Pipe.sameRing_setSem c.side _ s.pi)) rfl rfl
    (known_elsewhere hknown.done_le rfl rfl) nofun
 · cases halert

theorem Tally.run (hrun : s.run t = some next) : Tally writer reader k limit next := by
 unfold PipeState.run at hrun
 rcases h.noClose t with hidle | ⟨place, c, hpc⟩
 · rw [hidle] at hrun
   cases hrun
 rw [hpc] at hrun
 exact h.runCall hpc hrun

theorem Tally.step {l : PipeLabel} (hguard : s.NoNewCall l) (hstep : s.step l = some next) :
  Tally writer reader k limit next := by
 unfold PipeState.step at hstep
 split at hstep
 · cases hstep
 cases l with
 | run t => exact h.run hstep
 | alert t => exact h.alert hstep
 | _ => cases hguard
end

/-!
# One call of each function
-/

def fresh (side : PipeSide) (buf : Nat -> UInt8) (n : Nat) : PipeCall where
 side := side
 buf := buf
 n := n
 i := 0
 moved := 0
 interrupted := false

def twoCalls (pi : Pipe) (writer reader : Tid) (src dst : Nat -> UInt8) (nw nr : Nat) : PipeState :=
 { start with
   pi := pi
   pc := update (update start.pc writer (.call .acquire (fresh .write src nw)))
    reader (.call .acquire (fresh .read dst nr)) }

structure Unused (pi : Pipe) : Prop where
 locked : pi.locked = false
 sem : forall side : PipeSide, (side.sem pi).locked = false
 within : pi.unread ≤ pipeSize

def lengths (nw nr : Nat) : PipeSide -> Nat
 | .write => nw
 | .read => nr

section TwoCalls
variable {pi : Pipe} {src dst : Nat -> UInt8} {nw nr : Nat}

theorem twoCalls_pc {u : Tid} (h : (twoCalls pi writer reader src dst nw nr).pc u = .call place c) :
  place = .acquire ∧ u = party writer reader c.side ∧ c.n = lengths nw nr c.side ∧ c.i = 0 := by
 unfold twoCalls at h
 simp only at h
 rcases of_update h with ⟨hr, h⟩ | ⟨_, h⟩
 · cases h
   exact ⟨rfl, hr, rfl, rfl⟩
 rcases of_update h with ⟨hw, h⟩ | ⟨_, h⟩
 · cases h
   exact ⟨rfl, hw, rfl, rfl⟩
 · cases h

theorem tally_twoCalls (h : Unused pi) : Tally writer reader pi.unread (lengths nw nr)
    (twoCalls pi writer reader src dst nw nr) := by
 constructor
 · rfl
 · exact h.within
 · intro t place c hpc
   rcases twoCalls_pc hpc with ⟨hplace, ht, hn, hi⟩
   refine ⟨ht, hn, ?_⟩
   rw [hplace]
   apply known_elsewhere _ rfl rfl
   cases c.side <;> exact Nat.zero_le _
 · intro t
   unfold twoCalls
   simp only
   by_cases hr : t = reader
   · rw [hr, update_self]
     exact .inr ⟨_, _, rfl⟩
   rw [update_of_ne hr]
   by_cases hw : t = writer
   · rw [hw, update_self]
     exact .inr ⟨_, _, rfl⟩
   rw [update_of_ne hw]
   exact .inl rfl
 · intro t u place place' c d hpc _ _ hturning
   rw [(twoCalls_pc hpc).left] at hturning
   cases hturning

structure Settled (pi : Pipe) (writer reader : Tid) (nw nr : Nat) (s : PipeState) : Prop where
 tally : Tally writer reader pi.unread (lengths nw nr) s
 resting : s.OpenForResting
 ends : forall side : PipeSide, side.peerOpen s.pi = side.peerOpen pi

theorem Settled.step (h : Settled pi writer reader nw nr s) {l : PipeLabel}
  (hguard : s.NoNewCall l) (hstep : s.step l = some next) :
  Settled pi writer reader nw nr next := by
 have hquiet : s.ClosesQuietly l := by
  intro t writable _ hpc
  rcases h.tally.noClose t with hidle | ⟨place, c, hcall⟩
  · rw [hidle] at hpc
    cases hpc
  rw [hcall] at hpc
  cases hpc
 refine ⟨h.tally.step hguard hstep, openForResting_step h.resting hquiet hstep, ?_⟩
 intro side
 rw [← h.ends side]
 unfold PipeState.step at hstep
 split at hstep
 · cases hstep
 cases l with
 | run t =>
  change s.run t = some next at hstep
  unfold run at hstep
  rcases h.tally.noClose t with hidle | ⟨place, c, hpc⟩
  · rw [hidle] at hstep
    cases hstep
  rw [hpc] at hstep
  exact (runCall_calm hstep).peerOpen side
 | alert t =>
  change s.alert t = some next at hstep
  unfold alert at hstep
  split at hstep
  · rename_i c hpc
    simp only at hstep
    split at hstep
    · cases hstep
    rw [← Option.some.inj hstep]
    cases c.side <;> cases side <;> rfl
  · cases hstep
 | _ => cases hguard

theorem settled_of_reaches (h : Unused pi)
  (hreach : Reaches pipeSystem NoNewCall (twoCalls pi writer reader src dst nw nr) s) :
  Settled pi writer reader nw nr s := by
 apply reaches_invariant (M := pipeSystem) (Settled pi writer reader nw nr) _ hreach
 · refine ⟨tally_twoCalls h, ?_, fun _ => rfl⟩
   intro side t hresting
   unfold resting at hresting
   cases hpc : (twoCalls pi writer reader src dst nw nr).pc t with
   | call place c =>
    rw [hpc, (twoCalls_pc hpc).left] at hresting
    cases hresting
   | _ =>
    rw [hpc] at hresting
    cases hresting
 intro mid l after _ hmid hguard hstep
 exact hmid.step hguard hstep

theorem Settled.crossed (h : Settled pi writer reader nw nr s) (hcrossed : s.Crossed) :
  pi.readopen ∧ pi.writeopen ∧
    (pipeSize < nw ∧ pi.unread < nr ∨ pipeSize < nr ∧ pipeSize < nw + pi.unread) := by
 have hopen : forall t c, s.pc t = .call .post c -> c.side.peerOpen pi := by
  intro t c hpc
  rw [← h.ends c.side]
  apply h.resting c.side t
  unfold PipeState.resting
  rw [hpc]
  exact decide_eq_true rfl
 have hmoved : forall t c, s.pc t = .call .post c ->
  c.side.done s < lengths nw nr c.side ∧ c.side.turn pi.unread ≤ c.side.done s := by
  intro t c hpc
  rcases h.tally.calls t _ c hpc with ⟨_, hn, hknown⟩
  have hturned := hknown.turning rfl
  rw [← hn]
  exact ⟨Nat.lt_of_le_of_lt hknown.done_le hturned.left, hturned.right⟩
 -- whichever of the two is the writer
 have hordered : exists t u c d, s.pc t = .call .post c ∧ s.pc u = .call .post d ∧
  c.side = .write ∧ d.side = .read := by
  rcases hcrossed with ⟨t, u, c, d, ht, hu, hside⟩
  cases hc : c.side with
  | write => exact ⟨t, u, c, d, ht, hu, hc, by rw [hside, hc]; rfl⟩
  | read => exact ⟨u, t, d, c, hu, ht, by rw [hside, hc]; rfl, hc⟩
 rcases hordered with ⟨t, u, c, d, ht, hu, hc, hd⟩
 have hboth := h.tally.both t u _ _ c d ht hu (by rw [hc, hd]; rfl) rfl rfl
 have htmoved := hmoved t c ht
 have humoved := hmoved u d hu
 have htopen := hopen t c ht
 have huopen := hopen u d hu
 rw [hc] at htmoved htopen
 rw [hd] at humoved huopen
 refine ⟨htopen, huopen, ?_⟩
 simp only [done, turn, lengths] at htmoved humoved
 omega

end TwoCalls

/-!
# A run into the cyclic wait
-/

theorem reaches_runCall (hfreed : s.freed = false) (hpc : s.pc t = .call place c)
  (hrun : s.runCall t c place = some next) : Reaches pipeSystem NoNewCall s next := by
 apply Reaches.tail (l := .run t) (Reaches.refl s) trivial
 change s.step (.run t) = some next
 unfold step
 rw [hfreed, if_neg Bool.false_ne_true]
 change s.run t = some next
 unfold run
 rw [hpc]
 exact hrun

theorem goto_pc (s : PipeState) (t : Tid) (place : PipePlace) (c : PipeCall) :
  (s.goto t place c).pc t = .call place c :=
 update_self ..

structure Advanced (t : Tid) (c d : PipeCall) (m : Nat) (s next : PipeState) : Prop where
 reaches : Reaches pipeSystem NoNewCall s next
 pc : next.pc t = .call .test d
 others : forall u, u ≠ t -> next.pc u = s.pc u
 freed : next.freed = s.freed
 sem : forall side : PipeSide, side.sem next.pi = side.sem s.pi
 peerOpen : forall side : PipeSide, side.peerOpen next.pi = side.peerOpen s.pi
 side : d.side = c.side
 n : d.n = c.n
 i : d.i = c.i + m
 room : c.side.room next.pi + m = c.side.room s.pi
 within : next.pi.unread ≤ pipeSize

theorem advanced_refl (hpc : s.pc t = .call .test c)
  (hwithin : s.pi.unread ≤ pipeSize) : Advanced t c c 0 s s :=
 ⟨.refl s, hpc, fun _ _ => rfl, rfl, fun _ => rfl, fun _ => rfl, rfl, rfl, rfl, rfl, hwithin⟩

theorem Advanced.trans {e : PipeCall} {m m' : Nat} {mid : PipeState}
  (h : Advanced t c d m s mid) (h' : Advanced t d e m' mid next) :
  Advanced t c e (m + m') s next := by
 have hroom := h.room
 have hroom' := h'.room
 rw [h.side] at hroom'
 constructor
 · exact reaches_trans h.reaches h'.reaches
 · exact h'.pc
 · intro u hu
   rw [h'.others u hu, h.others u hu]
 · rw [h'.freed, h.freed]
 · intro side
   rw [h'.sem side, h.sem side]
 · intro side
   rw [h'.peerOpen side, h.peerOpen side]
 · rw [h'.side, h.side]
 · rw [h'.n, h.n]
 · rw [h'.i, h.i, Nat.add_assoc]
 · omega
 · exact h'.within

theorem advanced_one (hfreed : s.freed = false) (hpc : s.pc t = .call .test c)
  (hi : c.i < c.n) (hwithin : s.pi.unread ≤ pipeSize) (hroom : 0 < c.side.room s.pi) :
  exists next d, Advanced t c d 1 s next := by
 have htest : s.runCall t c .test = some (s.goto t .move c) := by
  simp only [runCall]
  rw [if_pos hi, if_pos ((c.side.ready_iff hwithin).mpr hroom)]
 have hmove := reaches_trans (reaches_runCall hfreed hpc htest)
  (reaches_runCall hfreed (goto_pc s t .move c) rfl)
 rcases moveByte_eq (s.goto t .move c) t c with ⟨data, d, heq, hside, hn, hi'⟩
 generalize (s.goto t .move c).moveByte t c = mid at hmove heq
 have hpcMid : mid.pc t = .call .count d := by
  rw [heq]
  exact goto_pc _ t .count d
 have hcount := reaches_trans hmove (reaches_runCall (by rw [heq]; exact hfreed) hpcMid rfl)
 have hcounts : Counts mid (mid.countByte t d) d.side := by
  apply countByte_counts
  · rw [heq]
    exact hwithin
  rw [heq, hside]
  exact hroom
 rw [hside] at hcounts
 refine ⟨mid.countByte t d, { d with moved := d.moved + 1, i := d.i + 1 }, hcount, ?_, ?_, ?_,
  ?_, ?_, hside, hn, congrArg (· + 1) hi', ?_, hcounts.within⟩
 · unfold countByte
   cases d.side <;> exact update_self ..
 · intro u hu
   rw [heq]
   unfold countByte
   cases d.side <;> simp [goto, update_of_ne hu]
 · rw [heq]
   unfold countByte
   cases d.side <;> rfl
 · intro side
   rw [heq]
   unfold countByte
   cases d.side <;> cases side <;> rfl
 · intro side
   rw [heq]
   unfold countByte
   cases d.side <;> cases side <;> rfl
 · rw [hcounts.room, heq]
   rfl

theorem advanced_all (m : Nat) (hfreed : s.freed = false)
  (hpc : s.pc t = .call .test c) (hi : c.i + m ≤ c.n)
  (hwithin : s.pi.unread ≤ pipeSize) (hroom : m ≤ c.side.room s.pi) :
  exists next d, Advanced t c d m s next := by
 induction m generalizing s c with
 | zero => exact ⟨s, c, advanced_refl hpc hwithin⟩
 | succ m ih =>
  rcases advanced_one hfreed hpc (by omega) hwithin (by omega) with ⟨mid, d, hone⟩
  have hmid : mid.freed = false := by
   rw [hone.freed]
   exact hfreed
  have hleft : d.i + m ≤ d.n := by
   rw [hone.i, hone.n]
   omega
  have hspace : m ≤ d.side.room mid.pi := by
   have hspent := hone.room
   rw [hone.side]
   omega
  rcases ih hmid hone.pc hleft hone.within hspace with ⟨next, e, hrest⟩
  refine ⟨next, e, ?_⟩
  rw [Nat.add_comm m 1]
  exact hone.trans hrest

structure Posting (t : Tid) (side : PipeSide) (s next : PipeState) : Prop where
 reaches : Reaches pipeSystem NoNewCall s next
 pc : exists c, next.pc t = .call .post c ∧ c.side = side
 others : forall u, u ≠ t -> next.pc u = s.pc u
 freed : next.freed = s.freed
 locked : next.pi.locked = false
 sem : side.other.sem next.pi = side.other.sem s.pi
 peerOpen : forall side : PipeSide, side.peerOpen next.pi = side.peerOpen s.pi
 room : side.other.room next.pi = pipeSize
 within : next.pi.unread ≤ pipeSize

theorem room_other {pi : Pipe} (hwithin : pi.unread ≤ pipeSize)
  (h : side.room pi = 0) : side.other.room pi = pipeSize := by
 cases side with
 | write | read =>
  simp only [room, other] at h ⊢
  omega

theorem posting_of_turned (hfreed : s.freed = false) (hpc : s.pc t = .call .test c) (hi : c.i < c.n)
  (hwithin : s.pi.unread ≤ pipeSize) (hroom : c.side.room s.pi = 0)
  (hopen : c.side.peerOpen s.pi) (hsem : (c.side.sem s.pi).locked = false) :
  exists next, Posting t c.side s next := by
 have hready : c.side.ready s.pi = false := by
  rw [← Bool.not_eq_true, c.side.ready_iff hwithin, hroom]
  exact Nat.lt_irrefl 0
 have htest : s.runCall t c .test = some (s.goto t .blocked c) := by
  simp only [runCall]
  rw [if_pos hi, hready]
  rfl
 have hblocked : (s.goto t .blocked c).runCall t c .blocked =
  some ((s.goto t .blocked c).goto t .lockSem c) := by
  simp only [runCall]
  rw [if_pos (show c.side.peerOpen (s.goto t .blocked c).pi = true from hopen)]
 have hlock : ((s.goto t .blocked c).goto t .lockSem c).runCall t c .lockSem =
  some ({ (s.goto t .blocked c).goto t .lockSem c with
   pi := c.side.setSem { c.side.sem s.pi with locked := true } s.pi }.goto t
    .release c) := by
  simp only [runCall, lockSem]
  rw [if_neg (by
   rw [show (c.side.sem ((s.goto t .blocked c).goto t .lockSem c).pi) =
    c.side.sem s.pi from rfl, hsem]
   exact Bool.false_ne_true)]
  rfl
 have hrun := reaches_trans (reaches_trans (reaches_trans (reaches_runCall hfreed hpc htest)
  (reaches_runCall (t := t) hfreed (update_self ..) hblocked))
  (reaches_runCall (t := t) hfreed (update_self ..) hlock))
  (reaches_runCall hfreed (goto_pc _ t .release c) rfl)
 refine ⟨_, hrun, ⟨c, update_self .., rfl⟩, ?_, rfl, rfl, ?_, ?_, ?_, ?_⟩
 · intro u hu
   simp [goto, releaseLock, update_of_ne hu]
 · cases c.side <;> rfl
 · intro side
   cases c.side <;> cases side <;> rfl
 · have hother := room_other hwithin hroom
   cases hside : c.side <;> rw [hside] at hother <;> exact hother
 · cases hside : c.side <;> exact hwithin

def begun (s : PipeState) (t : Tid) (c : PipeCall) : PipeState :=
 { s with pi := { s.pi with locked := true } }.goto t .test c

theorem exists_posting (hfreed : s.freed = false)
  (hpc : s.pc t = .call .acquire c) (hlocked : s.pi.locked = false)
  (hsem : (c.side.sem s.pi).locked = false) (hopen : c.side.peerOpen s.pi)
  (hwithin : s.pi.unread ≤ pipeSize) (hi : c.i + c.side.room s.pi < c.n) :
  exists next, Posting t c.side s next := by
 have hacquire : s.runCall t c .acquire = some (s.begun t c) := by
  simp only [runCall, acquireLock]
  rw [hlocked]
  rfl
 have hfirst := reaches_runCall hfreed hpc hacquire
 have hsame : c.side.room (s.begun t c).pi = c.side.room s.pi := by
  cases c.side <;> rfl
 rcases advanced_all (s := s.begun t c) (t := t) (c.side.room s.pi) hfreed
  (update_self ..) (Nat.le_of_lt hi) hwithin (Nat.le_of_eq hsame.symm) with
  ⟨mid, d, hmid⟩
 have hempty : d.side.room mid.pi = 0 := by
  have hspent := hmid.room
  rw [hmid.side]
  omega
 have hleft : d.i < d.n := by
  rw [hmid.i, hmid.n]
  exact hi
 have hopen' : d.side.peerOpen mid.pi := by
  rw [hmid.side, hmid.peerOpen, ← hopen]
  cases c.side <;> rfl
 have hsem' : (d.side.sem mid.pi).locked = false := by
  rw [hmid.side, hmid.sem, ← hsem]
  cases c.side <;> rfl
 rcases posting_of_turned (hmid.freed.trans hfreed) hmid.pc hleft hmid.within hempty hopen'
  hsem' with ⟨next, hposting⟩
 rw [hmid.side] at hposting
 refine ⟨next, reaches_trans (reaches_trans hfirst hmid.reaches) hposting.reaches,
  hposting.pc, ?_, hposting.freed.trans hmid.freed, hposting.locked, ?_, ?_, hposting.room,
  hposting.within⟩
 · intro u hu
   rw [hposting.others u hu, hmid.others u hu]
   exact update_of_ne hu _ _
 · rw [hposting.sem, hmid.sem]
   cases c.side <;> rfl
 · intro side
   rw [hposting.peerOpen, hmid.peerOpen]
   cases side <;> rfl

theorem crossed_of_lengths {u : Tid} (hut : u ≠ t) (hfreed : s.freed = false)
  (hpc : s.pc t = .call .acquire c)
  (hpc' : s.pc u = .call .acquire d) (hside : d.side = c.side.other)
  (hunused : Unused s.pi) (hopen : forall side : PipeSide, side.peerOpen s.pi)
  (hi : c.i + c.side.room s.pi < c.n) (hi' : d.i + pipeSize < d.n) :
  exists next, Reaches pipeSystem NoNewCall s next ∧ next.Crossed := by
 rcases exists_posting hfreed hpc hunused.locked (hunused.sem _) (hopen _) hunused.within hi
  with ⟨mid, hmid⟩
 have hpcMid : mid.pc u = .call .acquire d := by
  rw [hmid.others u hut]
  exact hpc'
 have hsem : (d.side.sem mid.pi).locked = false := by
  rw [hside, hmid.sem]
  exact hunused.sem _
 have hopen' : d.side.peerOpen mid.pi := by
  rw [hmid.peerOpen]
  exact hopen _
 have hlong : d.i + d.side.room mid.pi < d.n := by
  rw [hside, hmid.room]
  exact hi'
 rcases exists_posting (hmid.freed.trans hfreed) hpcMid hmid.locked hsem hopen' hmid.within hlong
  with ⟨next, hnext⟩
 rcases hmid.pc with ⟨c', hc', hside'⟩
 rcases hnext.pc with ⟨d', hd', hside''⟩
 refine ⟨next, reaches_trans hmid.reaches hnext.reaches, t, u, c', d', ?_, hd', ?_⟩
 · rw [hnext.others t (fun heq => hut heq.symm)]
   exact hc'
 · rw [hside'', hside, hside']

end PipeState

/--
Between one call of `pipeRead` and one of `pipeWrite` there is a cyclic wait in some
interleaving exactly if both ends are open and one of the calls, after the other one
has found no data or no space, goes through a whole pipe.
-/
theorem pipe_lock_order_iff {pi : Pipe} (hunused : PipeState.Unused pi) {writer reader : Tid}
  (hne : writer ≠ reader) (src dst : Nat -> UInt8) (nw nr : Nat) :
  (forall s, Reaches pipeSystem PipeState.NoNewCall
      (PipeState.twoCalls pi writer reader src dst nw nr) s -> ¬ s.CyclicWait) ↔
    ¬ (pi.readopen = true ∧ pi.writeopen = true ∧
      (pipeSize < nw ∧ pi.unread < nr ∨ pipeSize < nr ∧ pipeSize < nw + pi.unread)) := by
 have hwriter : (twoCalls pi writer reader src dst nw nr).pc writer =
  .call .acquire (fresh .write src nw) := by
  unfold twoCalls
  simp only
  rw [update_of_ne hne, update_self]
 have hreader : (twoCalls pi writer reader src dst nw nr).pc reader =
  .call .acquire (fresh .read dst nr) :=
  update_self ..
 constructor
 · rintro hnever ⟨hread, hwrite, hlong⟩
   have hopen : forall side : PipeSide, side.peerOpen pi := by
    intro side
    cases side
    · exact hread
    · exact hwrite
   have hcrossed : exists s, Reaches pipeSystem NoNewCall
    (twoCalls pi writer reader src dst nw nr) s ∧ s.Crossed := by
    rcases hlong with ⟨hnw, hnr⟩ | ⟨hnr, hnw⟩
    · exact crossed_of_lengths hne rfl hreader hwriter rfl hunused hopen
       ((Nat.zero_add _).trans_lt hnr) ((Nat.zero_add _).trans_lt hnw)
    have hspace : pipeSize - pi.unread < nw := by
     have hwithin := hunused.within
     omega
    exact crossed_of_lengths hne.symm rfl hwriter hreader rfl hunused hopen
     ((Nat.zero_add _).trans_lt hspace) ((Nat.zero_add _).trans_lt hnr)
   rcases hcrossed with ⟨s, hreach, hs⟩
   exact hnever s hreach (cyclicWait_of_crossed hs)
 intro hlengths s hreach hcyclic
 have hsettled := settled_of_reaches hunused hreach
 exact hlengths (hsettled.crossed (crossed_of_cyclicWait hsettled.tally.onePerSide hcyclic))

theorem unused_start : Unused start.pi where
 locked := rfl
 sem := by
  intro side
  cases side <;> rfl
 within := by decide

/-- A reader and a writer of a whole pipe on an empty pipe. -/
theorem pipe_lock_order_whole_pipe : PipeState.Unused PipeState.start.pi ∧
    forall s, Reaches pipeSystem PipeState.NoNewCall
        (PipeState.twoCalls PipeState.start.pi 0 1 (fun _ => 7) (fun _ => 0) 512 512) s ->
      ¬ s.CyclicWait :=
 ⟨unused_start, (pipe_lock_order_iff unused_start (by decide) (fun _ => 7) (fun _ => 0) 512 512).mpr
   (by decide)⟩

/-!
# A deadlock

The reader asks for one byte of an empty pipe.  Between the release of the pipe's lock
and its post the writer stores 512 bytes of its 513 and finds the pipe full.
-/

theorem pipe_locks_crossed : exists s, Reaches pipeSystem PipeState.NoNewCall
      (PipeState.twoCalls PipeState.start.pi 0 1 (fun _ => 7) (fun _ => 0) 513 1) s ∧
    s.CyclicWait := by
 have hopen : forall side : PipeSide, side.peerOpen start.pi := by
  intro side
  cases side <;> rfl
 rcases crossed_of_lengths (t := 1) (u := 0)
  (s := twoCalls start.pi 0 1 (fun _ => 7) (fun _ => 0) 513 1)
  (c := fresh .read (fun _ => 0) 1)
  (d := fresh .write (fun _ => 7) 513)
  (by decide) rfl rfl rfl rfl unused_start hopen (by decide) (by decide) with
  ⟨s, hreach, hcrossed⟩
 exact ⟨s, hreach, cyclicWait_of_crossed hcrossed⟩

end OSLab.Fs
