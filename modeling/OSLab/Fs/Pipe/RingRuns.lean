import OSLab.Fs.Pipe.Integrity

/-!
# The ring of a pipe over long runs

The branches of `pipeWrite` and `pipeRead` that transfer a byte.  `nread` and `nwrite` are
never reduced and wrap at 2 ^ 32, which 512 divides.
-/

namespace OSLab.Fs
open Foundation Function TransitionSystem List PipeSide

/-- A pipe; the bytes ever stored and ever loaded are not in the source. -/
structure PipeRing where
 pi : Pipe
 stored : List UInt8
 loaded : List UInt8

inductive Transfer where
 | store (x : UInt8)
 | load

namespace PipeRing
variable (s : PipeRing)

/-- The assignments of `pipeWrite` after its test for space. -/
def store (x : UInt8) : PipeRing :=
 { s with
   pi := { s.pi with
    data := update s.pi.data (s.pi.nwrite.toNat % pipeSize) x
    nwrite := s.pi.nwrite + 1 }
   stored := s.stored ++ [x] }

/-- The assignments of `pipeRead` after its test for data. -/
def load : PipeRing :=
 { s with
   pi := { s.pi with nread := s.pi.nread + 1 }
   loaded := s.loaded ++ [s.pi.data (s.pi.nread.toNat % pipeSize)] }

def step : Transfer -> Option PipeRing
 | .store x => if write.ready s.pi then some (s.store x) else none
 | .load => if read.ready s.pi then some s.load else none

def unread : List UInt8 :=
 (range (s.pi.nwrite - s.pi.nread).toNat).map fun k =>
  s.pi.data ((s.pi.nread.toNat + k) % pipeSize)

structure Start (s : PipeRing) : Prop where
 nread : s.pi.nread = 0#32
 nwrite : s.pi.nwrite = 0#32
 stored : s.stored = []
 loaded : s.loaded = []

end PipeRing

def ringSystem : TransitionSystem PipeRing Transfer where
 initial := PipeRing.Start
 step := PipeRing.step

namespace PipeState

/-!
# The transfers of the calls

A call moves a byte and then counts it.  Seen from the ring this is one transfer.
-/

def ring (s : PipeState) : PipeRing := ⟨s.pi, s.stored, s.stored.take s.loaded⟩

variable {s : PipeState} {t : Common.Tid} {c d : PipeCall}
 (h : Ring.Holds pipeSize s.pi.data s.pi.nread s.pi.nwrite s.stored s.loaded)
include h

theorem ring_stores (hside : c.side = .write) :
  ((s.moveByte t c).countByte t c).ring = s.ring.store (c.buf c.i) := by
 simp only [moveByte, countByte, hside]
 change PipeRing.mk _ _ ((s.stored ++ [c.buf c.i]).take s.loaded) = _
 rw [take_append_of_le_length h.order]
 rfl

theorem ring_loads (hready : read.ready s.pi) (hside : c.side = .read) (hside' : d.side = .read) :
  ((s.moveByte t c).countByte t d).ring = s.ring.load := by
 simp only [ready, decide_eq_true_eq] at hready
 have hfront := h.front pipeSize_fits ((h.item_iff pipeSize_fits).mp hready)
 simp only [moveByte, countByte, hside, hside']
 change PipeRing.mk _ _ (s.stored.take (s.loaded + 1)) = _
 rw [take_add_one, hfront]
 rfl

end PipeState

namespace PipeRing

structure Inv (s : PipeRing) : Prop where
 ring : Ring.Holds pipeSize s.pi.data s.pi.nread s.pi.nwrite s.stored s.loaded.length
 loaded : s.loaded = s.stored.take s.loaded.length

variable {s next : PipeRing}

theorem step_store {x : UInt8} (hstep : s.step (.store x) = some next) :
  write.ready s.pi ∧ next = s.store x := by
 simp only [step, Option.ite_none_right_eq_some, Option.some.injEq] at hstep
 exact ⟨hstep.left, hstep.right.symm⟩

theorem step_load (hstep : s.step .load = some next) : read.ready s.pi ∧ next = s.load := by
 simp only [step, Option.ite_none_right_eq_some, Option.some.injEq] at hstep
 exact ⟨hstep.left, hstep.right.symm⟩

theorem Inv.store (h : s.Inv) (hready : write.ready s.pi) (x : UInt8) : (s.store x).Inv := by
 simp only [ready, decide_eq_true_eq] at hready
 have hroom := (h.ring.room_iff pipeSize_fits).mp hready
 have hkept := h.ring.store pipeSize_fits hroom x
 refine ⟨hkept.push hroom (h.ring.stored pipeSize_fits x), ?_⟩
 change s.loaded = (s.stored ++ [x]).take s.loaded.length
 rw [take_append_of_le_length h.ring.order]
 exact h.loaded

theorem Inv.front (h : s.Inv) (hready : read.ready s.pi) : s.loaded.length < s.stored.length ∧
    s.stored[s.loaded.length]? = some (s.pi.data (s.pi.nread.toNat % pipeSize)) := by
 simp only [ready, decide_eq_true_eq] at hready
 have hitem := (h.ring.item_iff pipeSize_fits).mp hready
 exact ⟨hitem, h.ring.front pipeSize_fits hitem⟩

theorem Inv.load (h : s.Inv) (hready : read.ready s.pi) : s.load.Inv := by
 rcases h.front hready with ⟨hitem, hfront⟩
 unfold PipeRing.load
 refine ⟨?_, ?_⟩
 · rw [length_append]
   exact h.ring.pop hitem
 rw [length_append, length_singleton, take_add_one, hfront, ← h.loaded]
 rfl

theorem inv_of_reachable (h : Reachable ringSystem unguarded s) : s.Inv := by
 apply reachable_invariant Inv _ _ h
 · intro start hstart
   refine ⟨?_, ?_⟩
   · rw [hstart.nread, hstart.nwrite, hstart.stored, hstart.loaded, length_nil]
     exact Ring.Holds.start _
   rw [hstart.loaded, hstart.stored]
   rfl
 intro mid l after _ hinv _ hstep
 change mid.step l = some after at hstep
 cases l with
 | store x =>
  rcases step_store hstep with ⟨hready, rfl⟩
  exact hinv.store hready x
 | load =>
  rcases step_load hstep with ⟨hready, rfl⟩
  exact hinv.load hready

theorem Inv.unread_eq (h : s.Inv) : s.unread = s.stored.drop s.loaded.length := by
 have hused := h.ring.used_eq pipeSize_fits
 apply ext_getElem?
 intro k
 unfold unread
 rw [hused, getElem?_drop, getElem?_map]
 by_cases hk : k < s.stored.length - s.loaded.length
 · have hslot : (s.pi.nread.toNat + k) % pipeSize = (s.loaded.length + k) % pipeSize := by
    rw [Nat.add_mod, h.ring.taken_slot pipeSize_fits, ← Nat.add_mod]
   rw [getElem?_range hk, h.ring.slots _ (by omega) (by omega), Option.map_some, hslot]
 rw [getElem?_eq_none (by rw [length_range]; omega), getElem?_eq_none (by omega)]
 rfl

end PipeRing

/--
However long the run was: at most 512 bytes are unread, they are what was stored and not
loaded, in order, the tests say whether there is room and whether there is a byte, and a
store leaves the unread bytes as they are.
-/
theorem pipe_ring_of_reachable {s : PipeRing} (h : Reachable ringSystem unguarded s) :
  (s.pi.nwrite - s.pi.nread).toNat ≤ pipeSize ∧ s.loaded ++ s.unread = s.stored ∧
    (PipeSide.write.ready s.pi = true ↔ s.unread.length < pipeSize) ∧
    (PipeSide.read.ready s.pi = true ↔ s.unread ≠ []) ∧
    (forall x next, s.step (.store x) = some next -> next.unread = s.unread ++ [x]) ∧
    forall next, s.step .load = some next -> exists x, next.loaded = s.loaded ++ [x] ∧
      s.unread = x :: next.unread := by
 have hinv := PipeRing.inv_of_reachable h
 have horder := hinv.ring.order
 have hbound := hinv.ring.bound
 have hlength : s.unread.length = s.stored.length - s.loaded.length := by
  rw [hinv.unread_eq, length_drop]
 refine ⟨?_, ?_, ?_, ?_, ?_, ?_⟩
 · rw [hinv.ring.used_eq pipeSize_fits]
   omega
 · rw [hinv.unread_eq]
   nth_rewrite 1 [hinv.loaded]
   exact take_append_drop _ _
 · unfold ready
   rw [decide_eq_true_iff, hinv.ring.room_iff pipeSize_fits]
   omega
 · unfold ready
   rw [decide_eq_true_iff, hinv.ring.item_iff pipeSize_fits, ← length_pos_iff]
   omega
 · intro x next hstep
   rcases PipeRing.step_store hstep with ⟨hready, rfl⟩
   rw [(hinv.store hready x).unread_eq, hinv.unread_eq]
   exact drop_append_of_le_length horder
 intro next hstep
 rcases PipeRing.step_load hstep with ⟨hready, rfl⟩
 rcases hinv.front hready with ⟨hitem, hfront⟩
 refine ⟨_, rfl, ?_⟩
 rw [getElem?_eq_getElem hitem, Option.some.injEq] at hfront
 rw [(hinv.load hready).unread_eq, hinv.unread_eq, drop_eq_getElem_cons hitem, hfront]
 unfold PipeRing.load
 rw [length_append]
 rfl

theorem pipe_ring_two_bytes :
  exists s, Reachable ringSystem unguarded s ∧ s.loaded = [7] ∧ s.unread = [8] ∧
    s.loaded ++ s.unread = s.stored := by
 have hstart : ringSystem.initial ⟨PipeState.start.pi, [], []⟩ := ⟨rfl, rfl, rfl, rfl⟩
 have hrun : exists s, Reachable ringSystem unguarded s ∧ s.loaded = [7] ∧ s.unread = [8] :=
  exists_reachable_with hstart [.store 7, .store 8, .load] (by decide +kernel)
 rcases hrun with ⟨s, hreach, hloaded, hunread⟩
 exact ⟨s, hreach, hloaded, hunread, (pipe_ring_of_reachable hreach).right.left⟩

end OSLab.Fs
