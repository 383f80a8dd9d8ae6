import OSLab.Foundation.TransitionSystem
import Mathlib.Data.Finset.Card
import Mathlib.Logic.Equiv.Basic

/-!
# Counted resources

Resources are handed out from a list of free ones.  One that is in use is reserved,
and then nobody holds it, or it is held, and then its count is the number of its
holders.  A pinned resource counts for more than its holders and is never free.
There may be resources that are not managed this way; nothing is said about their
counts.
-/

namespace OSLab.Foundation
open Function List Finset
variable {key res : Type}

def Exactly (holds : key -> Prop) (count : Int) : Prop :=
 exists holders : Finset key, (forall k, k ∈ holders ↔ holds k) ∧ (holders.card : Int) = count

namespace Exactly
variable {holds after : key -> Prop} {count : Int}

theorem congr (h : Exactly holds count) (hiff : forall k, after k ↔ holds k) :
  Exactly after count := by
 rcases h with ⟨holders, hall, hcard⟩
 exact ⟨holders, fun k => (hall k).trans (hiff k).symm, hcard⟩

theorem zero (hnone : forall k, ¬ holds k) : Exactly holds 0 := by
 refine ⟨∅, ?_, rfl⟩
 intro k
 constructor
 · intro hk
   exact absurd hk (notMem_empty k)
 · intro hk
   exact absurd hk (hnone k)

section
variable (h : Exactly holds count)
include h

theorem pos {k : key} (hk : holds k) : 1 ≤ count := by
 rcases h with ⟨holders, hall, hcard⟩
 have hcard_pos : 0 < holders.card := card_pos.mpr ⟨k, (hall k).mpr hk⟩
 omega

theorem eq_zero (hnone : forall k, ¬ holds k) : count = 0 := by
 rcases h with ⟨holders, hall, hcard⟩
 have hempty : holders = ∅ := by
  apply eq_empty_of_forall_notMem
  intro k hk
  exact hnone k ((hall k).mp hk)
 rw [← hcard, hempty]
 rfl

theorem exists_of_pos (hpos : 1 ≤ count) : exists k, holds k := by
 rcases h with ⟨holders, hall, hcard⟩
 have hcard_pos : 0 < holders.card := by omega
 rcases card_pos.mp hcard_pos with ⟨k, hk⟩
 exact ⟨k, (hall k).mp hk⟩

theorem two_le {j k : key} (hj : holds j) (hk : holds k) (hne : j ≠ k) : 2 ≤ count := by
 rcases h with ⟨holders, hall, hcard⟩
 have htwo : 1 < holders.card := one_lt_card.mpr ⟨j, (hall j).mpr hj, k, (hall k).mpr hk, hne⟩
 omega

theorem rename (swap : key ≃ key) : Exactly (fun k => holds (swap k)) count := by
 rcases h with ⟨holders, hall, hcard⟩
 refine ⟨holders.map swap.symm.toEmbedding, ?_, ?_⟩
 · intro k
   rw [mem_map_equiv, Equiv.symm_symm]
   exact hall (swap k)
 rw [card_map]
 exact hcard
end

variable [DecidableEq key] {x : key}

theorem insert (h : Exactly holds count) (hx : ¬ holds x)
  (hafter : forall k, after k ↔ k = x ∨ holds k) : Exactly after (count + 1) := by
 rcases h with ⟨holders, hall, hcard⟩
 have hnew : x ∉ holders := fun hmem => hx ((hall x).mp hmem)
 refine ⟨Insert.insert x holders, ?_, ?_⟩
 · intro k
   rw [mem_insert, hall k, hafter k]
 rw [card_insert_of_notMem hnew]
 omega

theorem erase (h : Exactly holds count) (hx : holds x)
  (hafter : forall k, after k ↔ k ≠ x ∧ holds k) : Exactly after (count - 1) := by
 rcases h with ⟨holders, hall, hcard⟩
 have hold : x ∈ holders := (hall x).mpr hx
 have hone := card_erase_add_one hold
 refine ⟨holders.erase x, ?_, ?_⟩
 · intro k
   rw [mem_erase, hall k, hafter k]
 · omega

end Exactly

/-!
# The books
-/

structure Custody (managed : res -> Prop) (extra : res -> Int) (count : res -> Int)
  (free : List res) (reserved : res -> Prop) (holds : key -> Option res) : Prop where
 counted : forall r, managed r -> r ∉ free ->
  Exactly (fun k => holds k = some r) (count r - extra r)
 nodup : free.Nodup
 proper : forall r, r ∈ free -> managed r ∧ extra r = 0
 unheld : forall k r, holds k = some r -> r ∉ free
 kept : forall r, reserved r -> managed r ∧ r ∉ free ∧ extra r = 0 ∧ forall k, holds k ≠ some r
 placed : forall r, managed r -> r ∈ free ∨ reserved r ∨ 0 < extra r ∨ exists k, holds k = some r
 nonneg : forall r, 0 ≤ extra r

namespace Custody
variable {managed : res -> Prop} {extra count : res -> Int} {free : List res}
 {reserved : res -> Prop} {holds : key -> Option res}

section
variable (h : Custody managed extra count free reserved holds)
include h

theorem congr {count' : res -> Int} {reserved' : res -> Prop} {holds' : key -> Option res}
  (hcount : forall r, count' r = count r) (hreserved : forall r, reserved' r ↔ reserved r)
  (hholds : forall k, holds' k = holds k) :
  Custody managed extra count' free reserved' holds' := by
 rw [funext hcount, funext hholds, show reserved' = reserved from
  funext fun r => propext (hreserved r)]
 exact h

theorem count_of_reserved {r : res} (hr : reserved r) : count r = 0 := by
 rcases h.kept r hr with ⟨hmanaged, hfree, hextra, hnone⟩
 have hzero := (h.counted r hmanaged hfree).eq_zero hnone
 omega
end

theorem reserve [DecidableEq res] {r : res} {rest : List res}
  (h : Custody managed extra count (r :: rest) reserved holds) :
  Custody managed extra (update count r 0) rest (fun q => q = r ∨ reserved q) holds := by
 have hproper := h.proper r mem_cons_self
 have hnodup := nodup_cons.mp h.nodup
 have hnone : forall k, holds k ≠ some r := by
  intro k hk
  exact h.unheld k r hk mem_cons_self
 constructor
 · intro q hq hfree
   by_cases hqr : q = r
   · rw [hqr, update_self, hproper.right]
     exact Exactly.zero hnone
   rw [update_of_ne hqr]
   apply h.counted q hq
   rw [List.mem_cons, not_or]
   exact ⟨hqr, hfree⟩
 · exact hnodup.right
 · intro q hq
   exact h.proper q (mem_cons_of_mem r hq)
 · intro k q hk hq
   exact h.unheld k q hk (mem_cons_of_mem r hq)
 · intro q hq
   rcases hq with hqr | hold
   · rw [hqr]
     exact ⟨hproper.left, hnodup.left, hproper.right, hnone⟩
   rcases h.kept q hold with ⟨hmanaged, hfree, hextra, hunheld⟩
   exact ⟨hmanaged, fun hmem => hfree (mem_cons_of_mem r hmem), hextra, hunheld⟩
 · intro q hq
   rcases h.placed q hq with hfree | hreserved | hextra | hheld
   · rcases mem_cons.mp hfree with hqr | hmem
     · exact .inr (.inl (.inl hqr))
     · exact .inl hmem
   · exact .inr (.inl (.inr hreserved))
   · exact .inr (.inr (.inl hextra))
   · exact .inr (.inr (.inr hheld))
 · exact h.nonneg

theorem reserve_all [DecidableEq res] {new rest : List res}
  (h : Custody managed extra count (new ++ rest) reserved holds) :
  Custody managed extra (fun r => if r ∈ new then 0 else count r) rest
    (fun q => q ∈ new ∨ reserved q) holds := by
 induction new generalizing count reserved with
 | nil =>
  apply h.congr
  · intro r
    exact if_neg not_mem_nil
  · intro r
    exact or_iff_right not_mem_nil
  intro k
  rfl
 | cons r more ih =>
  apply (ih h.reserve).congr
  · intro q
    by_cases hmore : q ∈ more
    · rw [if_pos hmore, if_pos (mem_cons_of_mem r hmore)]
    rw [if_neg hmore]
    by_cases hqr : q = r
    · rw [hqr, if_pos List.mem_cons_self, update_self]
    rw [update_of_ne hqr, if_neg]
    rw [List.mem_cons, not_or]
    exact ⟨hqr, hmore⟩
  · intro q
    rw [List.mem_cons]
    constructor
    · rintro ((hqr | hmore) | hold)
      · exact .inr (.inl hqr)
      · exact .inl hmore
      · exact .inr (.inr hold)
    rintro (hmore | hqr | hold)
    · exact .inl (.inr hmore)
    · exact .inl (.inl hqr)
    · exact .inr hold
  intro k
  rfl

theorem unreserve [DecidableEq res] (h : Custody managed extra count free reserved holds)
  {r : res} (hr : reserved r) :
  Custody managed extra (update count r (count r - 1)) (r :: free)
    (fun q => q ≠ r ∧ reserved q) holds := by
 rcases h.kept r hr with ⟨hmanaged, hnew, hextra, hnone⟩
 constructor
 · intro q hq hfree
   rw [List.mem_cons, not_or] at hfree
   rw [update_of_ne hfree.left]
   exact h.counted q hq hfree.right
 · exact nodup_cons.mpr ⟨hnew, h.nodup⟩
 · intro q hq
   rcases mem_cons.mp hq with hqr | hold
   · rw [hqr]
     exact ⟨hmanaged, hextra⟩
   · exact h.proper q hold
 · intro k q hk hmem
   rcases mem_cons.mp hmem with hqr | hold
   · rw [hqr] at hk
     exact hnone k hk
   · exact h.unheld k q hk hold
 · intro q hq
   rcases h.kept q hq.right with ⟨hmq, hfq, heq, hnq⟩
   refine ⟨hmq, ?_, heq, hnq⟩
   rw [List.mem_cons, not_or]
   exact ⟨hq.left, hfq⟩
 · intro q hq
   rcases h.placed q hq with hfree | hreserved | hpinned | hheld
   · exact .inl (mem_cons_of_mem r hfree)
   · by_cases hqr : q = r
     · rw [hqr]
       exact .inl mem_cons_self
     · exact .inr (.inl ⟨hqr, hreserved⟩)
   · exact .inr (.inr (.inl hpinned))
   · exact .inr (.inr (.inr hheld))
 · exact h.nonneg

theorem rename (h : Custody managed extra count free reserved holds) (swap : key ≃ key) :
    Custody managed extra count free reserved (fun k => holds (swap k)) := { h with
 counted := fun r hr hfree => (h.counted r hr hfree).rename swap
 unheld := fun k r hk => h.unheld (swap k) r hk
 kept := by
  intro r hr
  rcases h.kept r hr with ⟨hmanaged, hfree, hextra, hnone⟩
  exact ⟨hmanaged, hfree, hextra, fun k => hnone (swap k)⟩
 placed := by
  intro r hr
  rcases h.placed r hr with hfree | hreserved | hpinned | ⟨k, hk⟩
  · exact .inl hfree
  · exact .inr (.inl hreserved)
  · exact .inr (.inr (.inl hpinned))
  refine .inr (.inr (.inr ⟨swap.symm k, ?_⟩))
  rw [Equiv.apply_symm_apply]
  exact hk }

variable [DecidableEq key] {k : key} {r : res}

theorem update_some_iff (holds : key -> Option res) (k k' : key) (r q : res) :
  update holds k (some r) k' = some q ↔ (k' = k ∧ q = r) ∨ (k' ≠ k ∧ holds k' = some q) := by
 rw [update_eq_iff, Option.some_inj, eq_comm (a := r)]

theorem update_none_iff (holds : key -> Option res) (k k' : key) (q : res) :
  update holds k none k' = some q ↔ k' ≠ k ∧ holds k' = some q := by
 rw [update_eq_iff]
 exact or_iff_right (fun h => nomatch h.right)

theorem exactly_clear {count : Int} (h : Exactly (fun j => holds j = some r) count) (k : key)
  [DecidableEq res] :
  Exactly (fun j => update holds k none j = some r)
    (count - if holds k = some r then 1 else 0) := by
 by_cases hk : holds k = some r
 · rw [if_pos hk]
   exact h.erase (x := k) hk (fun j => update_none_iff holds k j r)
 rw [if_neg hk, Int.sub_zero]
 apply h.congr
 intro j
 rw [update_none_iff]
 constructor
 · intro hboth
   exact hboth.right
 intro hj
 refine ⟨?_, hj⟩
 rintro rfl
 exact hk hj

theorem exactly_repoint {count : Int} (h : Exactly (fun j => holds j = some r) count) (k : key)
  [DecidableEq res] (x : Option res) :
  Exactly (fun j => update holds k x j = some r)
    (count + (if x = some r then 1 else 0) - if holds k = some r then 1 else 0) := by
 have hclear := exactly_clear h k
 by_cases hx : x = some r
 · rw [if_pos hx, show count + 1 - (if holds k = some r then 1 else 0) =
    count - (if holds k = some r then 1 else 0) + 1 by omega, hx]
   refine hclear.insert (x := k) ?_ ?_
   · rw [update_self]
     nofun
   intro j
   by_cases hj : j = k
   · rw [hj, update_self]
     exact ⟨fun _ => .inl rfl, fun _ => rfl⟩
   rw [update_of_ne hj, update_of_ne hj]
   exact ⟨.inr, fun hor => hor.resolve_left hj⟩
 rw [if_neg hx, Int.add_zero]
 apply hclear.congr
 intro j
 by_cases hj : j = k
 · rw [hj, update_self, update_self]
   exact ⟨fun heq => absurd heq hx, nofun⟩
 · rw [update_of_ne hj, update_of_ne hj]

section
variable (h : Custody managed extra count free reserved holds)
include h

theorem hold [DecidableEq res] (hk : holds k = none) (hr : r ∉ free) :
  Custody managed extra (update count r (count r + 1)) free
    (fun q => q ≠ r ∧ reserved q) (update holds k (some r)) := by
 constructor
 · intro q hq hfree
   have hold := h.counted q hq hfree
   by_cases hqr : q = r
   · rw [hqr] at hold ⊢
     rw [update_self, show count r + 1 - extra r = count r - extra r + 1 by omega]
     refine hold.insert (x := k) ?_ ?_
     · rw [hk]
       nofun
     intro k'
     rw [update_some_iff]
     constructor
     · intro hcases
       exact hcases.imp And.left And.right
     rintro (heq | hheld)
     · exact .inl ⟨heq, rfl⟩
     · refine .inr ⟨?_, hheld⟩
       intro heq
       rw [heq, hk] at hheld
       cases hheld
   rw [update_of_ne hqr]
   apply hold.congr
   intro k'
   rw [update_some_iff]
   constructor
   · rintro (⟨_, heq⟩ | ⟨_, hheld⟩)
     · exact absurd heq hqr
     · exact hheld
   intro hheld
   refine .inr ⟨?_, hheld⟩
   intro heq
   rw [heq, hk] at hheld
   cases hheld
 · exact h.nodup
 · exact h.proper
 · intro k' q hk'
   rcases (update_some_iff holds k k' r q).mp hk' with ⟨_, hqr⟩ | ⟨_, hheld⟩
   · rw [hqr]
     exact hr
   · exact h.unheld k' q hheld
 · intro q hq
   rcases h.kept q hq.right with ⟨hmanaged, hfree, hextra, hnone⟩
   refine ⟨hmanaged, hfree, hextra, ?_⟩
   intro k' hk'
   rcases (update_some_iff holds k k' r q).mp hk' with ⟨_, hqr⟩ | ⟨_, hheld⟩
   · exact hq.left hqr
   · exact hnone k' hheld
 · intro q hq
   by_cases hqr : q = r
   · refine .inr (.inr (.inr ⟨k, ?_⟩))
     rw [hqr, update_self]
   rcases h.placed q hq with hfree | hreserved | hpinned | ⟨k', hheld⟩
   · exact .inl hfree
   · exact .inr (.inl ⟨hqr, hreserved⟩)
   · exact .inr (.inr (.inl hpinned))
   refine .inr (.inr (.inr ⟨k', ?_⟩))
   rw [update_some_iff]
   refine .inr ⟨?_, hheld⟩
   intro heq
   rw [heq, hk] at hheld
   cases hheld
 · exact h.nonneg

section
variable (hk : holds k = some r)
include hk

theorem counted_drop {q : res} (hq : managed q) (hqr : q ≠ r) (hfree : q ∉ free) :
  Exactly (fun k' => update holds k none k' = some q) (count q - extra q) := by
 apply (h.counted q hq hfree).congr
 intro k'
 rw [update_none_iff]
 constructor
 · intro hcases
   exact hcases.right
 intro hheld
 refine ⟨?_, hheld⟩
 intro heq
 rw [heq, hk] at hheld
 exact hqr (Option.some.inj hheld).symm

theorem exactly_drop (hr : managed r) :
  Exactly (fun k' => update holds k none k' = some r) (count r - 1 - extra r) := by
 have hheld := h.counted r hr (h.unheld k r hk)
 rw [show count r - 1 - extra r = count r - extra r - 1 by omega]
 refine hheld.erase (x := k) hk ?_
 intro k'
 exact update_none_iff holds k k' r

theorem placed_drop {q : res} (hq : managed q) (hqr : q ≠ r) :
  q ∈ free ∨ reserved q ∨ 0 < extra q ∨ exists k', update holds k none k' = some q := by
 rcases h.placed q hq with hfree | hreserved | hpinned | ⟨k', hheld⟩
 · exact .inl hfree
 · exact .inr (.inl hreserved)
 · exact .inr (.inr (.inl hpinned))
 refine .inr (.inr (.inr ⟨k', ?_⟩))
 rw [update_none_iff]
 refine ⟨?_, hheld⟩
 intro heq
 rw [heq, hk] at hheld
 exact hqr (Option.some.inj hheld).symm
end

theorem kept_drop (k : key) {q : res} (hq : reserved q) : managed q ∧ q ∉ free ∧ extra q = 0 ∧
    forall k', update holds k none k' ≠ some q := by
 rcases h.kept q hq with ⟨hmanaged, hfree, hextra, hnone⟩
 refine ⟨hmanaged, hfree, hextra, ?_⟩
 intro k' hk'
 exact hnone k' ((update_none_iff holds k k' q).mp hk').right

theorem drop_last [DecidableEq res]
  (hk : holds k = some r) (hr : managed r) (hlast : count r - 1 ≤ 0) :
  Custody managed extra (update count r (count r - 1)) (r :: free) reserved
    (update holds k none) := by
 have hexactly := h.exactly_drop hk hr
 have hpos := (h.counted r hr (h.unheld k r hk)).pos hk
 have hnonneg := h.nonneg r
 have hextra : extra r = 0 := by omega
 have hnone : forall k', update holds k none k' ≠ some r := by
  intro k' hk'
  have hmore := hexactly.pos hk'
  omega
 have hunreserved : forall q, reserved q -> q ≠ r := by
  intro q hq heq
  rw [heq] at hq
  exact (h.kept r hq).right.right.right k hk
 constructor
 · intro q hq hfree
   rw [List.mem_cons, not_or] at hfree
   rw [update_of_ne hfree.left]
   exact h.counted_drop hk hq hfree.left hfree.right
 · exact nodup_cons.mpr ⟨h.unheld k r hk, h.nodup⟩
 · intro q hq
   rcases mem_cons.mp hq with hqr | hold
   · rw [hqr]
     exact ⟨hr, hextra⟩
   · exact h.proper q hold
 · intro k' q hk' hmem
   rcases mem_cons.mp hmem with hqr | hold
   · rw [hqr] at hk'
     exact hnone k' hk'
   · exact h.unheld k' q ((update_none_iff holds k k' q).mp hk').right hold
 · intro q hq
   rcases h.kept_drop k hq with ⟨hmanaged, hfree, hzero, hunheld⟩
   refine ⟨hmanaged, ?_, hzero, hunheld⟩
   rw [List.mem_cons, not_or]
   exact ⟨hunreserved q hq, hfree⟩
 · intro q hq
   by_cases hqr : q = r
   · rw [hqr]
     exact .inl mem_cons_self
   · exact (h.placed_drop hk hq hqr).imp_left (mem_cons_of_mem r)
 · exact h.nonneg

theorem drop_more [DecidableEq res]
  (hk : holds k = some r) (hr : managed r) (hmore : ¬ count r - 1 ≤ 0) :
  Custody managed extra (update count r (count r - 1)) free reserved (update holds k none) := by
 have hexactly := h.exactly_drop hk hr
 constructor
 · intro q hq hfree
   by_cases hqr : q = r
   · rw [hqr, update_self]
     exact hexactly
   rw [update_of_ne hqr]
   exact h.counted_drop hk hq hqr hfree
 · exact h.nodup
 · exact h.proper
 · intro k' q hk'
   exact h.unheld k' q ((update_none_iff holds k k' q).mp hk').right
 · intro q hq
   exact h.kept_drop k hq
 · intro q hq
   by_cases hqr : q = r
   · rw [hqr]
     by_cases hpinned : 0 < extra r
     · exact .inr (.inr (.inl hpinned))
     · exact .inr (.inr (.inr (hexactly.exists_of_pos (by omega))))
   · exact h.placed_drop hk hq hqr
 · exact h.nonneg

theorem drop_unmanaged (hk : holds k = some r) (hr : ¬ managed r) :
  Custody managed extra count free reserved (update holds k none) := by
 have hne : forall q, managed q -> q ≠ r := by
  intro q hq heq
  rw [heq] at hq
  exact hr hq
 constructor
 · intro q hq hfree
   exact h.counted_drop hk hq (hne q hq) hfree
 · exact h.nodup
 · exact h.proper
 · intro k' q hk'
   exact h.unheld k' q ((update_none_iff holds k k' q).mp hk').right
 · intro q hq
   exact h.kept_drop k hq
 · intro q hq
   exact h.placed_drop hk hq (hne q hq)
 · exact h.nonneg
end

end OSLab.Foundation.Custody
