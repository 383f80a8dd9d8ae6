import OSLab.Foundation.TransitionSystem
import OSLab.Kernel.PidMap

/-!
# Runs of the pid allocator

`get_next_pid` looks for a clear bit in two scans, of which the second one stops before
the last position.  The count of the free pids makes it look only if there is one.
-/

namespace OSLab.Kernel
open Foundation TransitionSystem Finset PidMap

/-- A map with the pids that were returned and not freed, which are not in the source. -/
structure PidAllocator where
 map : PidMap
 live : List Nat

inductive PidLabel where
 | getNextPid
 | freePid (k : Nat)

namespace PidAllocator

def step (s : PidAllocator) : PidLabel -> Option PidAllocator
 | .getNextPid =>
  let (pid, map) := s.map.getNextPid
  some { map := map, live := if pid = -1 then s.live else pid.toNat :: s.live }
 | .freePid k => (s.map.freePid k).map fun map => { map := map, live := s.live.erase k }

structure Start (s : PidAllocator) : Prop where
 size : s.map.size.isPowerOfTwo
 clear : forall k, k < s.map.size -> s.map.page k = false
 free : s.map.nrFree = s.map.size
 live : s.live = []

def frees (s : PidAllocator) : PidLabel -> Bool
 | .getNextPid => true
 | .freePid k => s.live.contains k

end PidAllocator

def pidSystem : TransitionSystem PidAllocator PidLabel where
 initial := PidAllocator.Start
 step := PidAllocator.step

namespace PidAllocator

structure Sound (s : PidAllocator) : Prop where
 size : 0 < s.map.size
 counted : s.map.Counted
 live : forall k, k ∈ s.live ↔ k < s.map.size ∧ s.map.page k = true
 nodup : s.live.Nodup

variable {s next : PidAllocator}

theorem Start.sound (h : s.Start) : s.Sound where
 size := by
  rcases h.size with ⟨e, he⟩
  rw [he]
  exact Nat.two_pow_pos e
 counted := by
  have hall : s.map.clear = range s.map.size :=
   filter_true_of_mem (fun k hk => h.clear k (mem_range.mp hk))
  unfold Counted
  rw [h.free, hall, card_range]
 live := by
  intro k
  rw [h.live]
  constructor
  · nofun
  rintro ⟨hk, hset⟩
  rw [h.clear k hk] at hset
  cases hset
 nodup := by
  rw [h.live]
  exact List.nodup_nil

theorem Sound.take (h : s.Sound) {k : Nat} (hk : k < s.map.size) (hclear : s.map.page k = false) :
  Sound { map := s.map.take k, live := k :: s.live } where
 size := h.size
 counted := take_counted h.counted hk hclear
 live := by
  intro j
  have hj := h.live j
  by_cases heq : j = k
  · subst heq
    simp [PidMap.take, hk]
  · simp [PidMap.take, heq, hj]
 nodup := by
  refine List.nodup_cons.mpr ⟨?_, h.nodup⟩
  rw [h.live k, hclear]
  nofun

theorem Sound.free (h : s.Sound) {k : Nat} (hk : k ∈ s.live) : Sound ⟨{ s.map with
    nrFree := s.map.nrFree + 1, page := Function.update s.map.page k false },
    s.live.erase k⟩ where
 size := h.size
 counted := by
  rcases (h.live k).mp hk with ⟨hlt, hset⟩
  exact free_counted h.counted hlt hset
 live := by
  intro j
  rw [h.nodup.mem_erase_iff, h.live j]
  by_cases heq : j = k
  · simp [heq]
  · simp [heq]
 nodup := h.nodup.erase k

theorem Sound.step {l : PidLabel} (h : s.Sound) (hfrees : s.frees l)
  (hstep : s.step l = some next) : next.Sound := by
 cases l with
 | getNextPid =>
  unfold PidAllocator.step at hstep
  rcases getNextPid_cases h.size with hnone | ⟨k, hk, hclear, hsome⟩
  · simp only [hnone, if_true, Option.some.injEq] at hstep
    exact hstep ▸ h
  have hpid : (k : Int) ≠ -1 := by omega
  simp only [hsome, if_neg hpid, Option.some.injEq, Int.toNat_natCast] at hstep
  exact hstep ▸ h.take hk hclear
 | freePid k =>
  have hk : k ∈ s.live := List.contains_iff_mem.mp hfrees
  simp only [PidAllocator.step, freePid_eq ((h.live k).mp hk).left, Option.map_some,
   Option.some.injEq] at hstep
  exact hstep ▸ h.free hk

theorem sound_of_reachable (h : Reachable pidSystem (fun s l => s.frees l) s) : s.Sound :=
 reachable_invariant Sound (fun _ => Start.sound)
  (fun _ _ _ _ hsound hfrees hstep => hsound.step hfrees hstep) h

end PidAllocator

/--
At every point of a run the count is the number of clear bits, and `get_next_pid` returns
the first clear position after `pid_base` in cyclic order, if there is one.
-/
theorem pid_allocator_of_reachable {s : PidAllocator}
  (h : Reachable pidSystem (fun s l => s.frees l = true) s) :
  s.map.nrFree = s.map.clear.card ∧ (s.map.getNextPid.1 = -1 ↔ s.map.clear = ∅) ∧
    (s.map.clear ≠ ∅ -> exists k : Nat, s.map.getNextPid.1 = k ∧ s.map.First k ∧
      k < s.map.size ∧ k ∉ s.live) := by
 have hsound := PidAllocator.sound_of_reachable h
 have hfinds : s.map.clear ≠ ∅ -> exists k : Nat, s.map.getNextPid.1 = k ∧ s.map.First k ∧
  k < s.map.size ∧ k ∉ s.live := by
  intro hsome
  rcases nonempty_iff_ne_empty.mpr hsome with ⟨j, hj⟩
  rcases getNextPid_first hsound.size hsound.counted hj with ⟨hfirst, hnext⟩
  rcases mem_clear.mp hfirst.left with ⟨hlt, hclear⟩
  refine ⟨s.map.search, by rw [hnext], hfirst, hlt, ?_⟩
  rw [hsound.live, hclear]
  nofun
 refine ⟨hsound.counted, ?_, hfinds⟩
 constructor
 · intro hnone
   by_contra hsome
   rcases hfinds hsome with ⟨k, hk, _⟩
   omega
 intro hempty
 have hfree : s.map.nrFree = 0 := by rw [hsound.counted, hempty, card_empty]
 unfold getNextPid
 rw [if_pos hfree]

/-- With all pids but 0 taken, the second scan finds 0. -/
theorem pid_allocator_wraps : exists s, Reachable pidSystem (fun s l => s.frees l = true) s ∧
    (s.map.getNextPid.1 = -1 ↔ s.map.clear = ∅) ∧ s.live = [3, 2, 1] ∧
    s.map.getNextPid.1 = 0 := by
 have hstart : pidSystem.initial
  ⟨{ base := 0, size := 4, nrFree := 4, page := fun _ => false }, []⟩ :=
  ⟨⟨2, rfl⟩, fun _ _ => rfl, rfl, rfl⟩
 exact exists_reachable_also hstart [.getNextPid, .getNextPid, .getNextPid] (by decide +kernel)
  (fun _ hreach => (pid_allocator_of_reachable hreach).right.left)

/-!
# A new map

`memset` in `init_pidmap` is given the size of a pointer, so the rest of the bitmap is what
the memory held before.
-/

namespace PidMap

def calls : Nat -> PidMap -> List Int
 | 0, _ => []
 | n + 1, m => m.getNextPid.1 :: calls n m.getNextPid.2

def Gives (m : PidMap) (n : Nat) : Prop := -1 ∉ calls n m ∧ (calls n m).Nodup ∧ -1 ∈ calls (n + 1) m

variable {m : PidMap}

theorem calls_le_clear (hsize : 0 < m.size) {n : Nat} (h : -1 ∉ calls n m) : n ≤ m.clear.card := by
 induction n generalizing m with
 | zero => exact Nat.zero_le _
 | succ n ih =>
  unfold calls at h
  rcases getNextPid_cases hsize with hnone | ⟨k, hk, hclear, hsome⟩
  · rw [hnone] at h
    exact absurd List.mem_cons_self h
  rw [hsome] at h
  have hle := ih (m := m.take k) hsize (fun hmem => h (List.mem_cons_of_mem _ hmem))
  rw [take_clear] at hle
  have hcard := card_erase_add_one (mem_clear.mpr ⟨hk, hclear⟩)
  omega

theorem calls_clear (hsize : 0 < m.size) (hcounted : m.Counted) {n : Nat} (hn : m.clear.card = n) :
  (forall pid, pid ∈ calls n m -> exists k : Nat, k ∈ m.clear ∧ pid = k) ∧
    (calls n m).Nodup ∧ -1 ∈ calls (n + 1) m := by
 induction n generalizing m with
 | zero =>
  have hfree : m.nrFree = 0 := hcounted.trans hn
  simp [calls, getNextPid, hfree]
 | succ n ih =>
  rcases getNextPid_of_free hsize hcounted (by rw [hcounted]; omega) with ⟨k, hk, hclear, hnext⟩
  have hmem := mem_clear.mpr ⟨hk, hclear⟩
  have hcard := card_erase_add_one hmem
  rcases ih (m := m.take k) hsize (take_counted hcounted hk hclear)
   (by rw [take_clear]; omega) with ⟨hpids, hnodup, hlast⟩
  rw [take_clear] at hpids
  unfold calls
  rw [hnext]
  refine ⟨?_, List.nodup_cons.mpr ⟨?_, hnodup⟩, List.mem_cons_of_mem _ hlast⟩
  · intro pid hpid
    rcases List.mem_cons.mp hpid with heq | hin
    · exact ⟨k, hmem, heq⟩
    rcases hpids pid hin with ⟨j, hj, heq⟩
    exact ⟨j, mem_of_mem_erase hj, heq⟩
  intro hin
  rcases hpids _ hin with ⟨j, hj, heq⟩
  exact ne_of_mem_erase hj (Int.natCast_inj.mp heq.symm)

end PidMap

/--
A new map gives all its pids, and has all its bits clear, if and only if the memory after
its first eight bytes was clear.
-/
theorem init_pidmap_empty_iff (former : Nat -> Bool) :
  ((PidMap.init localPidMaxDefault former).Gives localPidMaxDefault ↔
    forall k, 64 ≤ k -> k < localPidMaxDefault -> former k = false) ∧
  ((PidMap.init localPidMaxDefault former).clear = range localPidMaxDefault ∧
    (PidMap.init localPidMaxDefault former).Counted ↔
    forall k, 64 ≤ k -> k < localPidMaxDefault -> former k = false) := by
 generalize hm : init localPidMaxDefault former = m
 have hsize : m.size = localPidMaxDefault := by
  rw [← hm]
  rfl
 have hpos : 0 < m.size := by
  rw [hsize]
  decide
 have hrest : m.clear = range localPidMaxDefault ->
  forall k, 64 ≤ k -> k < localPidMaxDefault -> former k = false := by
  intro hall k hlow hhigh
  have hmem : k ∈ m.clear := hall ▸ mem_range.mpr hhigh
  have hclear := (mem_clear.mp hmem).right
  rw [← hm] at hclear
  simpa [init, Nat.not_lt.mpr hlow] using hclear
 have hall : (forall k, 64 ≤ k -> k < localPidMaxDefault -> former k = false) ->
  m.clear = range localPidMaxDefault ∧ m.Counted := by
  intro hformer
  have hclear : m.clear = range localPidMaxDefault := by
   unfold clear
   rw [hsize]
   apply filter_true_of_mem
   intro k hk
   rw [← hm]
   by_cases hlow : k < 64
   · simp [init, hlow]
   · simpa [init, hlow] using hformer k (by omega) (mem_range.mp hk)
  refine ⟨hclear, ?_⟩
  unfold Counted
  rw [hclear, card_range, ← hm]
  rfl
 refine ⟨⟨?_, ?_⟩, fun h => hrest h.left, hall⟩
 · intro hgives
   apply hrest
   have hmany := calls_le_clear hpos hgives.left
   apply eq_of_subset_of_card_le
   · rw [← hsize]
     exact filter_subset _ _
   rw [card_range]
   exact hmany
 intro hformer
 rcases hall hformer with ⟨hclear, hcounted⟩
 rcases calls_clear hpos hcounted (n := localPidMaxDefault)
  (by rw [hclear, card_range]) with ⟨hpids, hnodup, hlast⟩
 refine ⟨?_, hnodup, hlast⟩
 intro hmem
 rcases hpids _ hmem with ⟨k, _, heq⟩
 omega

/-- On memory full of ones, 64 calls succeed and the next one fails. -/
theorem init_pidmap_runs_dry : (PidMap.init localPidMaxDefault (fun _ => true)).calls 65 =
    (List.range 63).map (fun k => ((k + 1 : Nat) : Int)) ++ [0, -1] := by
 decide +kernel

end OSLab.Kernel
