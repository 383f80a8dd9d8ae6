import OSLab.Common.RbErase
import OSLab.Foundation.TransitionSystem

/-!
# Runs of a red-black tree

Nodes are inserted, under comparisons that may differ from call to call, and nodes
that are present are erased.  The memory keeps to the rules of red-black trees under
any comparisons; under one strict order it is an ordered set.

The tree is made of the nodes themselves: `_rb_insert` clears the links of the node
that it is given before it searches, so the node must not be in the tree.
-/

namespace OSLab.Common
open Foundation TransitionSystem ColorTree Path List RbMemory

structure RbRun (ptr : Type) where
 mem : RbMemory ptr
 nodes : List ptr

inductive RbLabel (order ptr : Type) where
 | insert (o : order) (x : ptr)
 | erase (x : ptr)

namespace RbRun
variable {ptr order : Type} [DecidableEq ptr]

def fuel (s : RbRun ptr) : Nat := s.nodes.length + 1

def insert (cmp : ptr -> ptr -> Bool) (s : RbRun ptr) (x : ptr) : Option (RbRun ptr) :=
 match s.mem.rbInsert cmp s.fuel x with
 | none => none
 | some (r, mem) => some { mem := mem, nodes := if r = 0 then x :: s.nodes else s.nodes }

def erase (s : RbRun ptr) (x : ptr) : Option (RbRun ptr) :=
 if x ∈ s.nodes then
  match s.mem.rbErase s.fuel x with
  | none => none
  | some mem => some { mem := mem, nodes := s.nodes.erase x }
 else
  none

def step (cmp : order -> ptr -> ptr -> Bool) (s : RbRun ptr) :
  RbLabel order ptr -> Option (RbRun ptr)
 | .insert o x => s.insert (cmp o) x
 | .erase x => s.erase x

def Fresh (s : RbRun ptr) : RbLabel order ptr -> Prop
 | .insert _ x => x ∉ s.nodes
 | .erase _ => True

instance (s : RbRun ptr) : (l : RbLabel order ptr) -> Decidable (s.Fresh l)
 | .insert _ x => inferInstanceAs (Decidable (x ∉ s.nodes))
 | .erase _ => isTrue trivial

end RbRun

def rbSystem {ptr order : Type} [DecidableEq ptr] (cmp : order -> ptr -> ptr -> Bool) :
  TransitionSystem (RbRun ptr) (RbLabel order ptr) where
 initial := fun s => s.mem.root = none ∧ s.nodes = []
 step := RbRun.step cmp

/-!
# The invariant
-/

namespace RbRun
variable {ptr : Type} {s next : RbRun ptr} {x : ptr} {P : ColorTree ptr -> Prop}
 {lt : ptr -> ptr -> Bool}

def Keeps (P : ColorTree ptr -> Prop) (s : RbRun ptr) : Prop :=
 exists t k, s.mem.Represents t ∧ RedBlack t .black k ∧ t.toList.Perm s.nodes ∧ P t

theorem keeps_start (hroot : s.mem.root = none) (hnodes : s.nodes = []) (hP : P leaf) :
  s.Keeps P := by
 refine ⟨leaf, 0, ⟨hroot, trivial, Multiset.nodup_zero⟩, .leaf, ?_, hP⟩
 rw [hnodes]
 exact Perm.nil

variable {t : ColorTree ptr}

theorem card_of_perm (h : t.toList.Perm s.nodes) : t.nodes.card = s.nodes.length := by
 rw [card_nodes]
 exact h.length_eq

theorem notMem_of_perm (h : t.toList.Perm s.nodes) (hx : x ∉ s.nodes) : x ∉ t.nodes := by
 rw [← mem_toList]
 exact fun hmem => hx (h.subset hmem)

variable [DecidableEq ptr]

theorem rbInsert_result (lt : ptr -> ptr -> Bool) {mem : RbMemory ptr} {k fuel : Nat}
  (ht : mem.Represents t) (hrb : RedBlack t .black k) (hx : x ∉ t.nodes)
  (hfuel : t.nodes.card < fuel) :
  (exists y, locate lt x t [] = .taken y ∧ mem.rbInsert lt fuel x = some (-1, mem.clear x)) ∨
  (exists p u n next, plug p leaf = t ∧ Zoomed lt x p ∧
    mem.rbInsert lt fuel x = some (0, next) ∧ next.Represents u ∧
    RedBlack u .black n ∧ u.toList = before p ++ x :: after p) := by
 cases hlocate : locate lt x t [] with
 | taken y => exact .inl ⟨y, rfl, rbInsert_taken ht hx hfuel hlocate⟩
 | vacant p =>
  right
  rcases locate_vacant hlocate with ⟨hplug, hzoomed⟩
  change plug p leaf = t at hplug
  rw [← hplug] at hrb
  rcases insertFix_vacant (x := x) hrb with ⟨u, n, hfix, hu, hlist⟩
  rcases rbInsert_vacant ht hx hfuel hlocate hfix with ⟨next, hinsert, hnext⟩
  exact ⟨p, u, n, next, hplug, hzoomed (fun f hf => absurd hf not_mem_nil), hinsert,
   hnext, hu, hlist⟩

theorem Keeps.insert (h : s.Keeps P) (hx : x ∉ s.nodes)
  (hP : forall t p u, P t -> plug p leaf = t -> Zoomed lt x p ->
    u.toList = before p ++ x :: after p -> P u)
  (hstep : s.insert lt x = some next) : next.Keeps P := by
 rcases h with ⟨t, k, ht, hrb, hperm, ht'⟩
 have hx' := notMem_of_perm hperm hx
 have hfuel : t.nodes.card < s.fuel := by
  rw [card_of_perm hperm]
  exact Nat.lt_succ_self _
 unfold RbRun.insert at hstep
 rcases rbInsert_result lt ht hrb hx' hfuel with ⟨y, _, hinsert⟩ |
  ⟨p, u, n, mem, hplug, hzoomed, hinsert, hu, hurb, hlist⟩
 · rw [hinsert] at hstep
   cases hstep
   exact ⟨t, k, ht.clear hx', hrb, hperm, ht'⟩
 · rw [hinsert] at hstep
   cases hstep
   refine ⟨u, n, hu, hurb, ?_, hP t p u ht' hplug hzoomed hlist⟩
   have hold : t.toList = before p ++ after p := by
    rw [← hplug, toList_plug]
    change before p ++ [] ++ after p = _
    rw [append_nil]
   rw [hold] at hperm
   rw [hlist]
   exact perm_middle.trans (hperm.cons x)

theorem Keeps.erase (h : s.Keeps P)
  (hP : forall t u a b, P t -> t.toList = a ++ x :: b -> u.toList = a ++ b -> P u)
  (hstep : s.erase x = some next) : next.Keeps P := by
 rcases h with ⟨t, k, ht, hrb, hperm, ht'⟩
 have hfuel : t.nodes.card < s.fuel := by
  rw [card_of_perm hperm]
  exact Nat.lt_succ_self _
 unfold RbRun.erase at hstep
 rcases Option.ite_none_right_eq_some.mp hstep with ⟨hx, hstep⟩
 have hx' : x ∈ t.nodes := mem_toList.mp (hperm.symm.subset hx)
 rcases erase_balanced hrb hx' with ⟨u, n, a, b, herase, hurb, hold, hnew⟩
 rcases rbErase_refines ht herase hfuel with ⟨mem, hmem, hu⟩
 rw [hmem] at hstep
 cases hstep
 refine ⟨u, n, hu, hurb, ?_, hP t u a b ht' hold hnew⟩
 rw [hold] at hperm
 have hfront : (x :: (a ++ b)).Perm s.nodes := perm_middle.symm.trans hperm
 have herased := hfront.erase x
 rw [erase_cons_head] at herased
 rw [hnew]
 exact herased

end RbRun

/-!
# Balance
-/

/--
The rules of red-black trees hold in memory, where `Represents` says that every node
has the colour, the children and the parent of its node in the tree; and the functions
come to an end without following a null pointer.
-/
structure RbRun.Balanced {ptr order : Type} [DecidableEq ptr]
  (cmp : order -> ptr -> ptr -> Bool) (s : RbRun ptr) : Prop where
 rules : exists t n, s.mem.Represents t ∧ t.isRed = false ∧ t.NoRedRed ∧
  forall b, b ∈ t.blackCounts -> b = n
 inserts : forall fuel o x, s.nodes.length < fuel -> x ∉ s.nodes ->
  (s.mem.rbInsert (cmp o) fuel x).isSome
 erases : forall fuel x, s.nodes.length < fuel -> x ∈ s.nodes -> (s.mem.rbErase fuel x).isSome

theorem rbtree_balanced_of_reachable {ptr order : Type} [DecidableEq ptr]
  {cmp : order -> ptr -> ptr -> Bool} {s : RbRun ptr}
  (hreach : Reachable (rbSystem cmp) RbRun.Fresh s) : s.Balanced cmp := by
 have hkeeps : s.Keeps (fun _ => True) := by
  apply reachable_invariant (RbRun.Keeps fun _ => True) _ _ hreach
  · rintro s ⟨hroot, hnodes⟩
    exact RbRun.keeps_start hroot hnodes trivial
  intro s l next _ h hguard hstep
  cases l with
  | insert o x => exact h.insert hguard (fun _ _ _ _ _ _ _ => trivial) hstep
  | erase x => exact h.erase (fun _ _ _ _ _ _ _ => trivial) hstep
 rcases hkeeps with ⟨t, k, ht, hrb, hperm, _⟩
 constructor
 · exact ⟨t, k, ht, hrb.isRed_of_black, hrb.noRedRed, hrb.blackCounts_eq⟩
 · intro fuel o x hfuel hx
   rw [← RbRun.card_of_perm hperm] at hfuel
   rcases RbRun.rbInsert_result (cmp o) ht hrb (RbRun.notMem_of_perm hperm hx) hfuel with
    ⟨_, _, hinsert⟩ | ⟨_, _, _, _, _, _, hinsert, _⟩
   all_goals
    rw [hinsert]
    rfl
 · intro fuel x hfuel hx
   rw [← RbRun.card_of_perm hperm] at hfuel
   have hx' : x ∈ t.nodes := mem_toList.mp (hperm.symm.subset hx)
   rcases erase_balanced hrb hx' with ⟨u, _, _, _, herase, _⟩
   rcases rbErase_refines ht herase hfuel with ⟨_, hmem, _⟩
   rw [hmem]
   rfl

/-!
# Order
-/

structure RbRun.OrderedSet {ptr : Type} [DecidableEq ptr] (lt : ptr -> ptr -> Bool)
  (s : RbRun ptr) : Prop where
 sorted : exists t, s.mem.Represents t ∧ t.toList.Pairwise (fun x y => lt x y = true) ∧
  forall x, x ∈ t.toList ↔ x ∈ s.nodes
 inserts : forall fuel x, s.nodes.length < fuel -> x ∉ s.nodes ->
  exists r next, s.mem.rbInsert lt fuel x = some (r, next) ∧ (r = 0 ∨ r = -1) ∧
   (r = -1 ↔ exists y, y ∈ s.nodes ∧ Equivalent lt x y) ∧
   (r = -1 -> next.root = s.mem.root ∧ forall y, y ≠ x -> next.cell y = s.mem.cell y)
 looks_up : forall fuel x, s.nodes.length < fuel -> exists r, s.mem.rbLookup lt fuel x = some r ∧
   (forall y, r = some y -> y ∈ s.nodes ∧ Equivalent lt x y) ∧
   (r = none -> forall y, y ∈ s.nodes -> ¬ Equivalent lt x y)
 first : forall fuel, s.nodes.length < fuel ->
  exists r, s.mem.rbFirst fuel = some r ∧ (r = none ↔ s.nodes = []) ∧
   forall y, r = some y -> y ∈ s.nodes ∧ forall z, z ∈ s.nodes -> z ≠ y -> lt y z = true

namespace RbRun
variable {ptr : Type} [DecidableEq ptr] {lt : ptr -> ptr -> Bool} {s : RbRun ptr}

theorem Keeps.orderedSet (hlt : StrictOrder lt) (h : s.Keeps (ColorTree.Sorted lt)) :
  s.OrderedSet lt := by
 rcases h with ⟨t, k, ht, hrb, hperm, hsorted⟩
 have hmem : forall x, x ∈ t.toList ↔ x ∈ s.nodes := fun x => hperm.mem_iff
 constructor
 · exact ⟨t, ht, hsorted, hmem⟩
 · intro fuel x hfuel hx
   rw [← card_of_perm hperm] at hfuel
   rcases rbInsert_result lt ht hrb (notMem_of_perm hperm hx) hfuel with
    ⟨y, hlocate, hinsert⟩ | ⟨p, u, _, next, hplug, hzoomed, hinsert, _⟩
   · rcases locate_taken hlocate with ⟨hy, hxy, hyx⟩
     refine ⟨-1, _, hinsert, .inr rfl, ⟨fun _ => ⟨y, ?_, hxy, hyx⟩, fun _ => rfl⟩, ?_⟩
     · exact (hmem y).mp (mem_toList.mpr hy)
     intro _
     exact ⟨rfl, fun y hyx => cell_update_of_ne hyx⟩
   · refine ⟨0, next, hinsert, .inl rfl, ⟨fun hzero => ?_, ?_⟩, fun hzero => ?_⟩
     · cases hzero
     · rintro ⟨y, hy, hequiv⟩
       exact absurd hequiv (not_equivalent_of_vacant hlt hsorted hplug hzoomed ((hmem y).mpr hy))
     · cases hzero
 · intro fuel x hfuel
   rw [← card_of_perm hperm] at hfuel
   refine ⟨_, rbLookup_refines ht hfuel, ?_, ?_⟩
   · intro y hy
     cases hlocate : locate lt x t [] with
     | vacant p =>
      rw [hlocate] at hy
      cases hy
     | taken z =>
      rw [hlocate] at hy
      cases hy
      rcases locate_taken hlocate with ⟨hz, hxz, hzx⟩
      exact ⟨(hmem y).mp (mem_toList.mpr hz), hxz, hzx⟩
   intro hnone y hy
   cases hlocate : locate lt x t [] with
   | taken z =>
    rw [hlocate] at hnone
    cases hnone
   | vacant p =>
    rcases locate_vacant hlocate with ⟨hplug, hzoomed⟩
    exact not_equivalent_of_vacant hlt hsorted hplug
     (hzoomed (fun f hf => absurd hf not_mem_nil)) ((hmem y).mpr hy)
 · intro fuel hfuel
   rw [← card_of_perm hperm] at hfuel
   refine ⟨_, rbFirst_refines ht hfuel, ?_, ?_⟩
   · rw [head?_eq_none_iff]
     constructor
     · intro hnil
       rw [hnil] at hperm
       exact hperm.symm.eq_nil
     intro hnil
     rw [hnil] at hperm
     exact hperm.eq_nil
   intro y hy
   cases hlist : t.toList with
   | nil =>
    rw [hlist] at hy
    cases hy
   | cons z rest =>
    rw [hlist] at hy
    cases hy
    unfold ColorTree.Sorted at hsorted
    rw [hlist, pairwise_cons] at hsorted
    rw [hlist] at hmem
    refine ⟨(hmem y).mp mem_cons_self, ?_⟩
    intro w hw hne
    rcases mem_cons.mp ((hmem w).mpr hw) with rfl | hw
    · exact absurd rfl hne
    · exact hsorted.left w hw

end RbRun

theorem rbtree_ordered_set_of_reachable {ptr : Type} [DecidableEq ptr]
  {lt : ptr -> ptr -> Bool} (hlt : StrictOrder lt) {s : RbRun ptr}
  (hreach : Reachable (rbSystem (fun _ : Unit => lt)) RbRun.Fresh s) : s.OrderedSet lt := by
 apply RbRun.Keeps.orderedSet hlt
 apply reachable_invariant (RbRun.Keeps (ColorTree.Sorted lt)) _ _ hreach
 · rintro s ⟨hroot, hnodes⟩
   exact RbRun.keeps_start hroot hnodes Pairwise.nil
 intro s l next _ h hguard hstep
 cases l with
 | insert o x =>
  apply h.insert hguard _ hstep
  intro t p u ht hplug hzoomed hlist
  exact sorted_insert hlt ht hplug hzoomed hlist
 | erase x =>
  apply h.erase _ hstep
  intro t u a b ht hold hnew
  exact sorted_erase ht hold hnew

/-!
# Trees of numbers
-/

def natLt (x y : Nat) : Bool := decide (x < y)

theorem natLt_strict : StrictOrder natLt where
 irrefl := by
  intro x
  exact decide_eq_false (Nat.lt_irrefl x)
 trans := by
  intro x y z hxy hyz
  exact decide_eq_true (Nat.lt_trans (of_decide_eq_true hxy) (of_decide_eq_true hyz))

def emptyRbRun : RbRun Nat where
 mem := { cell := fun _ => ⟨none, .red, none, none⟩, root := none }
 nodes := []

theorem emptyRbRun_start : (rbSystem (fun _ : Unit => natLt)).initial emptyRbRun := ⟨rfl, rfl⟩

open RbLabel in
/-- Four insertions, the last with two colours changed, and a removal at the root. -/
theorem rbtree_balanced_after_erase :
  exists s, Reachable (rbSystem (fun _ : Unit => natLt)) RbRun.Fresh s ∧
    s.Balanced (fun _ : Unit => natLt) ∧ s.nodes = [4, 3, 1] ∧ s.mem.root = some 3 := by
 exact exists_reachable_also emptyRbRun_start
  [insert () 2, insert () 1, insert () 3, insert () 4, erase 2] (by decide +kernel)
  (fun _ => rbtree_balanced_of_reachable)

open RbLabel in
/-- The same run as one of an ordered set. -/
theorem rbtree_ordered_set_after_erase : StrictOrder natLt ∧
    exists s, Reachable (rbSystem (fun _ : Unit => natLt)) RbRun.Fresh s ∧
      s.OrderedSet natLt ∧ s.nodes = [3, 1] ∧ s.mem.rbFirst 3 = some (some 1) :=
 ⟨natLt_strict, exists_reachable_also emptyRbRun_start
  [insert () 2, insert () 1, insert () 3, erase 2] (by decide +kernel)
  (fun _ => rbtree_ordered_set_of_reachable natLt_strict)⟩

open RbLabel in
/-- The node 2, the root of a tree of three nodes, is inserted a second time. -/
theorem rbtree_insert_present_loses_children :
  exists s, Reachable (rbSystem (fun _ : Unit => natLt)) unguarded s ∧
    s.nodes = [3, 1, 2] ∧ s.mem.root = some 2 ∧ (s.mem.cell 2).left = some 1 ∧
    exists next, s.mem.rbInsert natLt 4 2 = some (-1, next) ∧
      next.root = some 2 ∧ next.cell 2 = ⟨none, Color.red, none, none⟩ := by
 rcases exists_reachable_of_execute (rbSystem (fun _ : Unit => natLt)) unguarded
  emptyRbRun_start [insert () 2, insert () 1, insert () 3]
  (fun s => s.nodes = [3, 1, 2] ∧ s.mem.root = some 2 ∧ (s.mem.cell 2).left = some 1 ∧
   exists result, result ∈ s.mem.rbInsert natLt 4 2 ∧ result.1 = -1 ∧
    result.2.root = some 2 ∧ result.2.cell 2 = ⟨none, .red, none, none⟩)
  (by decide +kernel) with ⟨s, hreach, hnodes, hroot, hleft, ⟨r, next⟩, hinsert, hr, hnext⟩
 rw [show r = -1 from hr] at hinsert
 exact ⟨s, hreach, hnodes, hroot, hleft, next, hinsert, hnext⟩

open RbLabel in
/-- The only node of a tree is inserted a second time: the root is red. -/
theorem rbtree_insert_present_reddens_root :
  exists s, Reachable (rbSystem (fun _ : Unit => natLt)) unguarded s ∧
    s.nodes = [1] ∧ s.mem.root = some 1 ∧ (s.mem.cell 1).color = Color.red := by
 exact exists_reachable_with emptyRbRun_start [insert () 1, insert () 1] (by decide +kernel)

end OSLab.Common
