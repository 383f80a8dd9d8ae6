import OSLab.Common.RbInsert

/-!
# Removal in memory

`_rb_erase` does in memory what the removal from trees does.
-/

namespace OSLab.Common
open Foundation ColorTree Path Multiset RbNode
namespace RbMemory
variable {ptr : Type} [DecidableEq ptr]

/-!
# The repair with a black sibling
-/

section Settle
variable {m : RbMemory ptr} {p : Path ptr} {side : Side} {x y z w : ptr} {c d e : Color}
 {t a b near far inner outer sibling u : ColorTree ptr} {q r v parent : Option ptr}

/--
The last rotation takes `y` up to the place of `x`; the subtree `a` changes over
from `y` to `x`, and the subtree `b`, which stays below `y`, becomes black.
-/
theorem eraseFixRotate_spec (hpath : m.HoldsPath none m.root p (some x))
  (hx : m.cell x = RbNode.branch side (top none p) c t.root v)
  (hy : m.cell y = RbNode.branch side q d a.root (some w)) (hw : b.root = some w)
  (ht : m.Holds t (some x)) (ha : m.Holds a parent) (hb : m.Holds b r)
  (hnodup : (nodes p + (x ::ₘ y ::ₘ (b.nodes + a.nodes + t.nodes))).Nodup) :
  (m.eraseFixRotate side x y w).Represents (plug p
    (branch side c (branch side .black t x a) y (b.paint .black))) := by
 let m1 := m.setChild x side.other a.root
 let m2 := m1.updateRoot a (RbNode.setParent (some x))
 let m3 := m2.setChild y side (some x)
 let m4 := m3.updateRoot b (RbNode.setParentColor (some y) .black)
 have hunfold : m.eraseFixRotate side x y w = m4.rotateSetParents x y .black := by
  have hchild : (m.cell y).child side = a.root := by rw [hy, child_branch]
  unfold eraseFixRotate
  simp only [hchild]
  change (m3.setParentColor w (some y) .black).rotateSetParents x y .black = _
  have hm4 : m4 = m3.setParentColor w (some y) .black := by
   change m3.guarded b.root _ = _
   rw [hw]
   rfl
  rw [hm4]
 have hsep := hnodup
 simp only [nodup_add, nodup_cons, mem_cons, mem_add,
  not_or, disjoint_left] at hsep
 rcases hsep with ⟨_, ⟨⟨hxy, ⟨hxb, hxa⟩, hxt⟩, ⟨⟨hyb, hya⟩, hyt⟩, ⟨hnb, hna, hba⟩, _, hbt⟩, hps⟩
 have hsame : forall u, u ≠ x -> u ≠ y -> u ∉ a.nodes -> u ∉ b.nodes -> m4.cell u = m.cell u := by
  intro u hux huy hua hub
  exact (cell_updateRoot hub).trans ((cell_update_of_ne huy).trans
   ((cell_updateRoot hua).trans (cell_update_of_ne hux)))
 have hpath4 : m4.HoldsPath none m4.root p (some x) := by
  have hroot : m4.root = m.root := root_updateRoot.trans root_updateRoot
  rw [hroot]
  apply hpath.congr
  intro u hu
  have hu' := hps hu
  exact hsame u hu'.left hu'.right.left hu'.right.right.left.right hu'.right.right.left.left
 have hx4 : m4.cell x = RbNode.branch side (top none p) c t.root a.root := by
  have hlocal : m4.cell x = (m.cell x).setChild side.other a.root :=
   (cell_updateRoot hxb).trans ((cell_update_of_ne hxy).trans
    ((cell_updateRoot hxa).trans cell_update_self))
  rw [hlocal, hx, setChild_other_branch]
 have hy4 : m4.cell y = RbNode.branch side q d (some x) (some w) := by
  have hlocal : m2.cell y = m.cell y :=
   (cell_updateRoot hya).trans (cell_update_of_ne (Ne.symm hxy))
  rw [cell_updateRoot hyb]
  change (m2.update y _).cell y = _
  rw [cell_update_self, hlocal, hy, setChild_branch]
 have ha4 : m4.Holds a (some x) := by
  have hmoved : m3.Holds a (some x) := ((ha.update hxa).setParent_root hna (some x)).update hya
  apply hmoved.congr
  intro u hu
  exact cell_updateRoot (fun h => hba h hu)
 have hb4 : m4.Holds (b.paint .black) (some y) := by
  have hkept : m3.Holds b r := by
   apply hb.congr
   intro u hu
   have hux : u ≠ x := fun h => hxb (h ▸ hu)
   have huy : u ≠ y := fun h => hyb (h ▸ hu)
   exact (cell_update_of_ne huy).trans ((cell_updateRoot (hba hu)).trans (cell_update_of_ne hux))
  exact hkept.setParentColor_root hnb (some y)
 have ht4 : m4.Holds t (some x) := by
  apply ht.congr
  intro u hu
  exact hsame u (fun h => hxt (h ▸ hu)) (fun h => hyt (h ▸ hu)) (fun h => hbt (.inr h) hu)
   (fun h => hbt (.inl h) hu)
 -- Seen from the other side, this is the rotation with `y` above `x`.
 have hrotated : (m4.rotateSetParents x y .black).Represents (plug p
  (branch side.other c (b.paint .black) y (branch side.other .black a x t))) := by
  rw [← RbNode.branch_other] at hx4 hy4
  rw [← hw, ← root_paint (c := .black)] at hy4
  apply rotateSetParents_represents hpath4 hx4 hy4 hb4 ha4 ht4
  rw [nodes_paint]
  exact hnodup
 rw [hunfold]
 rw [ColorTree.branch_other, ColorTree.branch_other] at hrotated
 exact hrotated

theorem eraseFixSettle_far (h : m.Represents (plug (⟨side, c, x, branch side d near y far⟩ :: p) t))
  (hfar : far.isRed) :
  exists next, m.eraseFixSettle side x y = some (.done next) ∧ next.Represents (plug p
      (branch side c (branch side .black t x near) y (far.paint .black))) := by
 rcases represents_plug.mp h with ⟨⟨hx, hsibling, hpath⟩, ht, hnodup⟩
 simp only [top_cons, holds_branch, root_branch] at hx hsibling ht
 rcases hsibling with ⟨hy, hnear, hfarHolds⟩
 rcases root_of_isRed hfar with ⟨w, hw⟩
 refine ⟨m.eraseFixRotate side x y w, ?_, ?_⟩
 · have hchild : (m.cell y).child side.other = some w := by rw [hy, child_other_branch, hw]
   have hwred : m.isRed (some w) := by
    rw [← hw, hfarHolds.isRed_root]
    exact hfar
   unfold eraseFixSettle
   simp only [hchild, hwred, if_true]
   rfl
 rw [hw] at hy
 apply eraseFixRotate_spec hpath hx hy hw ht hnear hfarHolds
 simp only [Path.nodes, nodes_branch, nodup_add, nodup_cons,
  mem_cons, mem_add, not_or, disjoint_left] at hnodup ⊢
 grind

theorem eraseFixSettle_near (h : m.Represents (plug
    (⟨side, c, x, branch side d (branch side e inner z outer) y far⟩ :: p) t))
  (hfar : far.isRed = false) (hred : e = .red) :
  exists next, m.eraseFixSettle side x y = some (.done next) ∧
    next.Represents (plug p (branch side c (branch side .black t x inner) z
      (branch side .black (outer.paint .black) y far))) := by
 rcases represents_plug.mp h with ⟨⟨hx, hsibling, hpath⟩, ht, hnodup⟩
 simp only [top_cons, holds_branch, root_branch] at hx hsibling ht
 rcases hsibling with ⟨hy, ⟨hz, hinner, houter⟩, hfarHolds⟩
 simp only [Path.nodes, nodes_branch, nodup_add, nodup_cons,
  mem_cons, mem_add, not_or, disjoint_left] at hnodup
 let m1 := m.setChild y side outer.root
 let m2 := m1.updateRoot outer (RbNode.setParentColor (some y) .black)
 let m3 := m2.setChild z side.other (some y)
 let m4 := m3.setChild x side.other (some z)
 have hxy : x ≠ y := by grind
 have hxz : x ≠ z := by grind
 have hyz : y ≠ z := by grind
 have hxo : x ∉ outer.nodes := by grind
 have hyo : y ∉ outer.nodes := by grind
 have hzo : z ∉ outer.nodes := by grind
 have hsame : forall w, w ≠ x -> w ≠ y -> w ≠ z -> w ∉ outer.nodes -> m4.cell w = m.cell w := by
  intro w hwx hwy hwz hwo
  exact (cell_update_of_ne hwx).trans ((cell_update_of_ne hwz).trans
   ((cell_updateRoot hwo).trans (cell_update_of_ne hwy)))
 have hkept : forall (s : ColorTree ptr) (above : Option ptr), m.Holds s above ->
  x ∉ s.nodes -> y ∉ s.nodes -> z ∉ s.nodes -> (forall w, w ∈ s.nodes -> w ∉ outer.nodes) ->
  m4.Holds s above := by
  intro s above hs hxs hys hzs hso
  apply hs.congr
  intro w hw
  exact hsame w (fun h => hxs (h ▸ hw)) (fun h => hys (h ▸ hw)) (fun h => hzs (h ▸ hw)) (hso w hw)
 have hx4 : m4.cell x = RbNode.branch side (top none p) c t.root (some z) := by
  have hlocal : m3.cell x = m.cell x :=
   (cell_update_of_ne hxz).trans ((cell_updateRoot hxo).trans (cell_update_of_ne hxy))
  change (m3.update x _).cell x = _
  rw [cell_update_self, hlocal, hx, setChild_other_branch]
 have hz4 : m4.cell z = RbNode.branch side (some y) e inner.root (some y) := by
  have hlocal : m2.cell z = m.cell z := (cell_updateRoot hzo).trans (cell_update_of_ne hyz.symm)
  change ((m2.update z _).update x _).cell z = _
  rw [cell_update_of_ne hxz.symm, cell_update_self, hlocal, hz, setChild_other_branch]
 have hy4 : m4.cell y = RbNode.branch side (some x) d outer.root far.root := by
  have hlocal : m4.cell y = (m.cell y).setChild side outer.root :=
   (cell_update_of_ne hxy.symm).trans ((cell_update_of_ne hyz).trans
    ((cell_updateRoot hyo).trans cell_update_self))
  rw [hlocal, hy, setChild_branch]
 have houter4 : m4.Holds (outer.paint .black) (some y) := by
  have hpainted : m2.Holds (outer.paint .black) (some y) :=
   (houter.update hyo).setParentColor_root (by grind) (some y)
  apply Holds.update
  · apply hpainted.update
    rw [nodes_paint]
    exact hzo
  rw [nodes_paint]
  exact hxo
 refine ⟨m4.eraseFixRotate side x z y, ?_, ?_⟩
 · have hchild : (m.cell y).child side.other = far.root := by rw [hy, child_other_branch]
   have hchild' : (m.cell y).child side = some z := by rw [hy, child_branch]
   have hchild'' : (m.cell z).child side.other = outer.root := by rw [hz, child_other_branch]
   have hzred : m.isRed (some z) := by
    change decide ((m.cell z).color = .red) = true
    rw [hz, color_branch, hred]
    rfl
   unfold eraseFixSettle
   simp only [hchild, hchild', hfarHolds.isRed_root, hfar, hzred, Bool.false_eq_true, if_false,
    if_true]
   change some (Round.done (RbMemory.eraseFixRotate side x z y _)) = _
   rw [hchild'']
   rfl
 have hpath4 : m4.HoldsPath none m4.root p (some x) := by
  have hroot : m4.root = m.root := root_updateRoot
  rw [hroot]
  apply hpath.congr
  intro w hw
  exact hsame w (by grind) (by grind) (by grind) (by grind)
 have ht4 : m4.Holds t (some x) := hkept t _ ht (by grind) (by grind) (by grind) (by grind)
 have hinner4 : m4.Holds inner (some z) :=
  hkept inner _ hinner (by grind) (by grind) (by grind) (by grind)
 have hfar4 : m4.Holds far (some y) :=
  hkept far _ hfarHolds (by grind) (by grind) (by grind) (by grind)
 have hlower4 : m4.Holds (branch side d (outer.paint .black) y far) (some x) := by
  rw [holds_branch, root_paint]
  exact ⟨hy4, houter4, hfar4⟩
 have hrotated := eraseFixRotate_spec hpath4 hx4 hz4 root_branch ht4 hinner4 hlower4 (by
  simp only [nodes_branch, nodes_paint, nodup_add, nodup_cons,
   mem_cons, mem_add, not_or, disjoint_left]
  grind)
 rw [paint_branch] at hrotated
 exact hrotated

theorem eraseFixSettle_both
  (h : m.Represents (plug (⟨side, c, x, branch side d near y far⟩ :: p) t))
  (hfar : far.isRed = false) (hnear : near.isRed = false) :
  exists next, m.eraseFixSettle side x y = some (match c, top none p with
      | .black, some above => .again (some x, above, next)
      | _, _ => .done next) ∧
    next.Represents (plug p (branch side .black t x (branch side .red near y far))) := by
 rcases represents_plug.mp h with ⟨⟨hx, hsibling, hpath⟩, ht, hnodup⟩
 simp only [top_cons, holds_branch, root_branch] at hx hsibling ht
 rcases hsibling with ⟨hy, hnearHolds, hfarHolds⟩
 simp only [Path.nodes, nodes_branch, nodup_add, nodup_cons,
  mem_cons, mem_add, not_or, disjoint_left] at hnodup
 have hxy : x ≠ y := by grind
 let m1 := m.setParentColor y (some x) .red
 have hx1 : m1.cell x = RbNode.branch side (top none p) c t.root (some y) :=
  (cell_update_of_ne hxy).trans hx
 have hy1 : m1.cell y = RbNode.branch side (some x) .red near.root far.root := by
  change (m.update y _).cell y = _
  rw [cell_update_self, hy, setParentColor_branch]
 have hunfold : m.eraseFixSettle side x y =
  some ((m.setParentColor y (some x) .red).eraseFixClimb x) := by
  have hchild : (m.cell y).child side.other = far.root := by rw [hy, child_other_branch]
  have hchild' : (m.cell y).child side = near.root := by rw [hy, child_branch]
  unfold eraseFixSettle
  simp only [hchild, hchild', hfarHolds.isRed_root, hnearHolds.isRed_root, hfar, hnear,
   Bool.false_eq_true, if_false]
 -- Both ways out write to `x` and `y` only.
 have hbuilt : forall next : RbMemory ptr, next.root = m.root ->
  (forall w, w ≠ x -> w ≠ y -> next.cell w = m.cell w) ->
  next.cell x = RbNode.branch side (top none p) .black t.root (some y) ->
  next.cell y = RbNode.branch side (some x) .red near.root far.root ->
  next.Represents (plug p (branch side .black t x (branch side .red near y far))) := by
  intro next hroot hsame hxnext hynext
  have hlist : (branch side .black t x (branch side .red near y far)).toList =
   (branch side c t x (branch side d near y far)).toList := by
   cases side <;> rfl
  apply Represents.rearranged (m := m) (p := p) h hlist
  · rw [hroot, root_branch]
    apply hpath.congr
    intro w hw
    exact hsame w (by grind) (by grind)
  rw [holds_branch, holds_branch, root_branch]
  refine ⟨hxnext, ?_, hynext, ?_, ?_⟩
  · apply ht.congr
    intro w hw
    exact hsame w (by grind) (by grind)
  · apply hnearHolds.congr
    intro w hw
    exact hsame w (by grind) (by grind)
  apply hfarHolds.congr
  intro w hw
  exact hsame w (by grind) (by grind)
 rw [hunfold]
 cases c with
 | red =>
  have hcolor : (m1.cell x).color = .red := by rw [hx1, color_branch]
  refine ⟨m1.setBlack x, congrArg some (if_pos hcolor), hbuilt _ rfl ?_ ?_ ?_⟩
  · intro w hwx hwy
    exact (cell_update_of_ne hwx).trans (cell_update_of_ne hwy)
  · change (m1.update x _).cell x = _
    rw [cell_update_self, hx1, setBlack_branch]
  · exact (cell_update_of_ne hxy.symm).trans hy1
 | black =>
  refine ⟨m1, ?_, hbuilt _ rfl ?_ hx1 hy1⟩
  · have hcolor : ¬ (m1.cell x).color = .red := by
     rw [hx1, color_branch]
     exact Color.noConfusion
    have hparent : (m1.cell x).parent = top none p := by rw [hx1, parent_branch]
    unfold eraseFixClimb
    rw [if_neg hcolor, hparent]
    cases top none p <;> rfl
  intro w _ hwy
  exact cell_update_of_ne hwy

theorem eraseFixSettle_spec {again : Bool} (h : m.Represents (plug (⟨side, c, x, sibling⟩ :: p) t))
  (hsettle : settle side c x t sibling = some (again, u)) (hy : sibling.root = some y) :
  exists next, m.eraseFixSettle side x y = some (match again, top none p with
      | true, some above => .again (some x, above, next)
      | _, _ => .done next) ∧
    next.Represents (plug p u) ∧ (again -> u.root = some x) := by
 unfold settle at hsettle
 split at hsettle
 · cases hsettle
 rename_i d near y' far hsplit
 have hsibling := split_eq_some hsplit
 rw [hsibling, root_branch] at hy
 cases hy
 rw [hsibling] at h
 split at hsettle
 · rename_i hfar
   rcases eraseFixSettle_far h hfar with ⟨next, hround, hnext⟩
   cases hsettle
   exact ⟨next, hround, hnext, nofun⟩
 rename_i hfar
 split at hsettle
 · rename_i hnear
   split at hsettle
   · cases hsettle
   rename_i e inner z outer hsplit'
   have hbranch := split_eq_some hsplit'
   rw [hbranch, isRed_branch] at hnear
   rw [hbranch] at h
   rcases eraseFixSettle_near h (Bool.eq_false_iff.mpr hfar) (of_decide_eq_true hnear)
    with ⟨next, hround, hnext⟩
   cases hsettle
   exact ⟨next, hround, hnext, nofun⟩
 rename_i hnear
 rcases eraseFixSettle_both h (Bool.eq_false_iff.mpr hfar) (Bool.eq_false_iff.mpr hnear)
  with ⟨next, hround, hnext⟩
 cases hsettle
 refine ⟨next, ?_, hnext, fun _ => root_branch⟩
 rw [hround]
 cases c with
 | red => rfl
 | black => cases top none p <;> rfl

end Settle

/-!
# The repair
-/

section Repair
variable {m : RbMemory ptr} {p : Path ptr} {f : Turn ptr} {side : Side} {x y : ptr}
 {c : Color} {t u near far : ColorTree ptr} {fuel : Nat} {again : Bool}

theorem eraseFixUnder_red
  (h : m.Represents (plug (⟨side, c, x, branch side .red near y far⟩ :: p) t))
  {w : ptr} (hw : near.root = some w) :
  exists turned : RbMemory ptr, m.eraseFixUnder side x = turned.eraseFixSettle side x w ∧
    turned.Represents (plug (⟨side, .red, x, near.paint .black⟩ ::
      ⟨side, c, y, far⟩ :: p) t) := by
 rcases represents_plug.mp h with ⟨⟨hx, hsibling, hpath⟩, ht, hnodup⟩
 simp only [top_cons, holds_branch, root_branch] at hx hsibling ht
 rcases hsibling with ⟨hy, hnear, hfar⟩
 refine ⟨m.insertFixRotate side.other x y near.root, ?_, ?_⟩
 · have hchild : (m.cell x).child side.other = some y := by rw [hx, child_other_branch]
   have hchild' : (m.cell y).child side = some w := by rw [hy, child_branch, hw]
   have hcolor : (m.cell y).color = .red := by rw [hy, color_branch]
   unfold eraseFixUnder
   rw [hchild]
   change (if (m.cell y).color = .red then _ else _) = _
   rw [if_pos hcolor, hchild', hw]
   unfold insertFixRotate
   rw [Side.other_other]
   rfl
 rw [← RbNode.branch_other] at hx hy
 have hrotated := insertFixRotate_spec hpath hx hy hfar hnear ht (by
  simp only [Path.nodes, nodes_branch, nodup_add, nodup_cons,
   mem_cons, mem_add, not_or, disjoint_left] at hnodup ⊢
  grind)
 rw [ColorTree.branch_other, ColorTree.branch_other] at hrotated
 exact hrotated

theorem eraseFixUnder_black
  (h : m.Represents (plug (⟨side, c, x, branch side .black near y far⟩ :: p) t)) :
  m.eraseFixUnder side x = m.eraseFixSettle side x y := by
 rcases represents_plug.mp h with ⟨⟨hx, hsibling, _⟩, _, _⟩
 simp only [holds_branch, root_branch] at hx hsibling
 have hchild : (m.cell x).child side.other = some y := by rw [hx, child_other_branch]
 have hcolor : ¬ (m.cell y).color = .red := by
  rw [hsibling.left, color_branch]
  exact Color.noConfusion
 unfold eraseFixUnder
 rw [hchild]
 exact if_neg hcolor

theorem eraseFixUnder_spec (h : m.Represents (plug (f :: p) t))
  (hrepair : repairBlack f t = some (again, u)) :
  exists next, m.eraseFixUnder f.side f.x = some (match again, top none p with
      | true, some above => .again (some f.x, above, next)
      | _, _ => .done next) ∧
    next.Represents (plug p u) ∧ (again -> u.root = some f.x) := by
 rcases f with ⟨side, c, x, sibling⟩
 unfold repairBlack at hrepair
 split at hrepair
 · cases hrepair
 · rename_i near y far hsplit
   have hsibling : sibling = branch side .red near y far := split_eq_some hsplit
   rw [hsibling] at h
   split at hrepair
   · cases hrepair
   rename_i again' v hsettle
   cases hrepair
   cases hnear : near with
   | leaf =>
    rw [hnear] at hsettle
    cases hsettle
   | node d l w r =>
    have hw : near.root = some w := by
     rw [hnear]
     rfl
    have hw' : (near.paint .black).root = some w := by
     rw [root_paint]
     exact hw
    rcases eraseFixUnder_red h hw with ⟨turned, hunder, hturned⟩
    rcases eraseFixSettle_spec hturned hsettle hw' with ⟨next, hround, hnext, _⟩
    rw [settle_red hsettle] at hround
    refine ⟨next, ?_, hnext, nofun⟩
    rw [hunder, hround]
 rename_i near y far hsplit
 have hsibling : sibling = branch side .black near y far := split_eq_some hsplit
 have hy : sibling.root = some y := by rw [hsibling, root_branch]
 have hunder : m.eraseFixUnder side x = m.eraseFixSettle side x y := by
  rw [hsibling] at h
  exact eraseFixUnder_black h
 rw [hunder]
 exact eraseFixSettle_spec h hrepair hy

theorem eraseFixRound_spec (h : m.Represents (plug (f :: p) t)) (hsibling : f.sibling ≠ leaf) :
  eraseFixRound (t.root, f.x, m) = m.eraseFixUnder f.side f.x := by
 rcases f with ⟨side, c, x, sibling⟩
 rcases represents_plug.mp h with ⟨⟨hx, _, _⟩, _, hnodup⟩
 simp only [Path.nodes, nodup_add, nodup_cons, mem_cons,
  mem_add, not_or, disjoint_left] at hnodup
 change (if (m.cell x).right ≠ t.root then _ else _) = _
 rw [hx]
 cases side with
 | left =>
  apply if_pos
  change sibling.root ≠ t.root
  intro hroot
  rcases root_of_ne_leaf hsibling with ⟨y, hy⟩
  have hmem := root_mem hy
  rw [hroot] at hy
  exact hnodup.right.right (.inr (.inl hmem)) (root_mem hy)
 | right => exact if_neg (not_not_intro rfl)

theorem eraseFix_refines (hfix : Path.eraseFix (f :: p) t = some u)
  (h : m.Represents (plug (f :: p) t)) (hfuel : p.length < fuel) :
  exists next, loop eraseFixRound fuel (t.root, f.x, m) = some next ∧ next.Represents u := by
 induction p generalizing f t m fuel with
 | nil =>
  rcases Nat.exists_eq_add_of_lt hfuel with ⟨rest, rfl⟩
  unfold Path.eraseFix at hfix
  cases hrepair : repairBlack f t with
  | none =>
   rw [hrepair] at hfix
   cases hfix
  | some result =>
   rcases result with ⟨again, v⟩
   rw [hrepair] at hfix
   rcases eraseFixUnder_spec h hrepair with ⟨next, hround, hnext, _⟩
   rw [← eraseFixRound_spec h (sibling_of_repairBlack hrepair)] at hround
   cases again with
   | true | false =>
    cases hfix
    exact ⟨next, loop_done hround, hnext⟩
 | cons g p ih =>
  rcases Nat.exists_eq_add_of_lt hfuel with ⟨rest, rfl⟩
  unfold Path.eraseFix at hfix
  cases hrepair : repairBlack f t with
  | none =>
   rw [hrepair] at hfix
   cases hfix
  | some result =>
   rcases result with ⟨again, v⟩
   rw [hrepair] at hfix
   rcases eraseFixUnder_spec h hrepair with ⟨next, hround, hnext, hroot⟩
   rw [← eraseFixRound_spec h (sibling_of_repairBlack hrepair)] at hround
   cases again with
   | true =>
    rw [loop_again hround, ← hroot rfl]
    apply ih hfix hnext
    rw [List.length_cons]
    omega
   | false =>
    cases hfix
    exact ⟨next, loop_done hround, hnext⟩

end Repair

/-!
# Taking a node out
-/

section Unlink
variable {m next : RbMemory ptr} {p q : Path ptr} {x y s parent : ptr} {c d : Color}
 {t u l r rest child : ColorTree ptr} {fuel : Nat} {rebalance : Option ptr}

/--
The memory and the result after `__rb_erase`: a node of colour `c` has gone from the
lower end of the path, and its only child has taken its place in the colour `d`.
-/
def Vacated (next : RbMemory ptr) (rebalance : Option ptr) (p : Path ptr) (c d : Color) :
  ColorTree ptr -> Prop
 | leaf => next.Represents (plug p leaf) ∧
  rebalance = if c = .black then top none p else none
 | node e left x right => next.Represents (plug p ((node e left x right).paint d)) ∧
  rebalance = none

theorem Vacated.finish (h : next.Vacated rebalance p c d child)
  (hvacate : vacate p c d child = some u) (hfuel : p.length < fuel) :
  exists final, (match rebalance with
    | none => some next
    | some parent => next.eraseFix fuel parent) = some final ∧ final.Represents u := by
 cases child with
 | node e left x right =>
  rcases h with ⟨hnext, hnone⟩
  cases hvacate
  rw [hnone]
  exact ⟨next, rfl, hnext⟩
 | leaf =>
  rcases h with ⟨hnext, hreb⟩
  cases c with
  | red =>
   cases hvacate
   rw [hreb]
   exact ⟨next, rfl, hnext⟩
  | black =>
   rw [hreb]
   cases p with
   | nil =>
    cases hvacate
    exact ⟨next, rfl, hnext⟩
   | cons f p =>
    apply eraseFix_refines hvacate hnext
    exact Nat.lt_of_succ_lt hfuel

theorem eraseNode_right (h : m.Represents (plug p (node c leaf x r))) :
  exists rebalance next, m.eraseNode fuel x = some (rebalance, next) ∧
    next.Vacated rebalance p c c r := by
 rcases represents_plug.mp h with ⟨hpath, ⟨hx, _, hr⟩, hnodup⟩
 change (nodes p + x ::ₘ (0 + r.nodes)).Nodup at hnodup
 rw [Multiset.zero_add, add_cons, nodup_cons] at hnodup
 rcases hnodup with ⟨hxs, hnodup⟩
 rw [mem_add, not_or] at hxs
 have hsep := hnodup
 rw [nodup_add, disjoint_left] at hsep
 rcases changeChild_spec (v := r.root) hpath hxs.left hsep.left with ⟨hchanged, hsame⟩
 have hr' : (m.changeChild x r.root (top none p)).Holds r (some x) := by
  apply hr.congr
  intro w hw
  exact hsame w (fun hmem => hsep.right.right hmem hw)
 unfold eraseNode
 rw [hx]
 cases r with
 | leaf =>
  refine ⟨_, _, rfl, ?_, rfl⟩
  rw [represents_plug]
  exact ⟨hchanged, trivial, hnodup⟩
 | node e left y right =>
  refine ⟨_, _, rfl, ?_, rfl⟩
  rw [represents_plug]
  refine ⟨?_, ?_, hnodup⟩
  · apply hchanged.update
    intro hmem
    exact hsep.right.right hmem (mem_cons_self _ _)
  · exact hr'.setParentColor_root hsep.right.left (top none p)

theorem eraseNode_left (h : m.Represents (plug p (node c l x leaf))) (hl : l ≠ leaf) :
  exists rebalance next, m.eraseNode fuel x = some (rebalance, next) ∧
    next.Vacated rebalance p c c l := by
 rcases represents_plug.mp h with ⟨hpath, ⟨hx, hleft, _⟩, hnodup⟩
 change (nodes p + x ::ₘ (l.nodes + 0)).Nodup at hnodup
 rw [Multiset.add_zero, add_cons, nodup_cons] at hnodup
 rcases hnodup with ⟨hxs, hnodup⟩
 rw [mem_add, not_or] at hxs
 have hsep := hnodup
 rw [nodup_add, disjoint_left] at hsep
 cases l with
 | leaf => exact absurd rfl hl
 | node e left y right =>
  let m1 := m.setParentColor y (top none p) c
  have hy : y ∉ nodes p := fun hmem => hsep.right.right hmem (mem_cons_self _ _)
  have hpath1 : m1.HoldsPath none m1.root p (some x) := hpath.update hy
  have hleft1 : m1.Holds (node c left y right) (top none p) :=
   hleft.setParentColor_root hsep.right.left (top none p)
  rcases changeChild_spec (v := some y) hpath1 hxs.left hsep.left with ⟨hchanged, hsame⟩
  unfold eraseNode
  rw [hx]
  refine ⟨_, _, rfl, ?_, rfl⟩
  rw [represents_plug]
  refine ⟨hchanged, ?_, hnodup⟩
  apply hleft1.congr
  intro w hw
  exact hsame w (fun hmem => hsep.right.right hmem hw)

omit [DecidableEq ptr] in
theorem successorRound_loop {f : Turn ptr} {q0 : Path ptr} {above : Option ptr} {tmp : ptr}
  (ht : m.Holds t above) (hroot : t.root = some tmp)
  (hmost : leftmost t (f :: q0) = some (q, d, s, rest)) (hfuel : t.nodes.card < fuel) :
  exists g q', q = g :: q' ∧ loop m.successorRound fuel (f.x, tmp) = some (g.x, s) := by
 induction t generalizing f q0 above tmp fuel with
 | leaf => cases hroot
 | node e left z right ihl ihr =>
  rcases card_children hfuel with ⟨k, rfl, hlfuel, _⟩
  rcases ht with ⟨hcell, hl, _⟩
  cases hroot
  cases hleft : left with
  | leaf =>
   rw [hleft] at hmost hcell
   cases hmost
   have hround : m.successorRound (f.x, s) = some (.done (f.x, s)) := by
    change (match (m.cell s).left with | none => _ | some _ => _) = _
    rw [hcell]
    rfl
   exact ⟨f, q0, rfl, loop_done hround⟩
  | node e' left' z' right' =>
   have hround : m.successorRound (f.x, z) = some (.again (z, z')) := by
    change (match (m.cell z).left with | none => _ | some _ => _) = _
    rw [hcell, hleft]
    rfl
   have hroot' : left.root = some z' := by
    rw [hleft]
    rfl
   have hmost' : leftmost left (⟨.left, e, z, right⟩ :: f :: q0) = some (q, d, s, rest) := by
    unfold leftmost at hmost
    split at hmost
    · rename_i hnone
      rw [leftmost_eq_none hnone] at hleft
      cases hleft
    rename_i found hsome
    rw [hsome]
    exact hmost
   rcases ihl hl hroot' hmost' hlfuel with ⟨g, q', hq, hloop⟩
   exact ⟨g, q', hq, (loop_again hround).trans hloop⟩

/--
The end of `__rb_erase` for a node `x` with two children.  The successor `s` has been
taken out of the right subtree, of which the path `q` is left.
-/
theorem eraseSplice_spec {start ps ls above : Option ptr}
  (hpath : m.HoldsPath none m.root p (some x))
  (hx : (m.cell x).left = l.root ∧ (m.cell x).parent = top none p ∧ (m.cell x).color = c)
  (hl : m.Holds l (some x)) (hy : l.root = some y)
  (hs : m.cell s = ⟨ps, d, start, ls⟩) (hq : m.HoldsPath (some s) start q rest.root)
  (hrest : m.Holds rest above) (hparent : top (some s) q = some parent)
  (hnodup : (Path.nodes p + (x ::ₘ s ::ₘ (l.nodes + Path.nodes q + rest.nodes))).Nodup) :
  exists rebalance next, m.eraseSplice x s parent rest.root = some (rebalance, next) ∧
    next.Vacated rebalance (q ++ ⟨.right, c, s, l⟩ :: p) d .black rest := by
 have hsep := hnodup
 simp only [nodup_add, nodup_cons, mem_cons, mem_add,
  not_or, disjoint_left] at hsep
 rcases hsep with ⟨hnp, ⟨⟨hxs, ⟨hxl, hxq⟩, hxrest⟩, ⟨⟨hsl, hsq⟩, hsrest⟩,
  ⟨hnl, hnq, hlq⟩, hnrest, hlqrest⟩, hps⟩
 let m4 := m.setChild s .left l.root
 let m5 := m4.updateRoot l (RbNode.setParent (some s))
 let m6 := m5.changeChild x (some s) (top none p)
 let m7 := m6.setParentColor s (top none p) c
 have hsp : s ∉ Path.nodes p := fun hmem => (hps hmem).right.left rfl
 have hxp : x ∉ Path.nodes p := fun hmem => (hps hmem).left rfl
 have hsame5 : forall w, w ≠ s -> w ∉ l.nodes -> m5.cell w = m.cell w := by
  intro w hws hwl
  exact (cell_updateRoot hwl).trans (cell_update_of_ne hws)
 have hs5 : m5.cell s = ⟨ps, d, start, l.root⟩ := by
  have hlocal : m5.cell s = (m.cell s).setChild .left l.root :=
   (cell_updateRoot hsl).trans cell_update_self
  rw [hlocal, hs]
  rfl
 have hl5 : m5.Holds l (some s) := (hl.update hsl).setParent_root hnl (some s)
 have hpath5 : m5.HoldsPath none m5.root p (some x) := by
  have hroot : m5.root = m.root := root_updateRoot
  rw [hroot]
  apply hpath.congr
  intro w hw
  exact hsame5 w (hps hw).right.left (hps hw).right.right.left.left
 rcases changeChild_spec (v := some s) hpath5 hxp hnp with ⟨hpath6, hsame6⟩
 have hs7 : m7.cell s = RbNode.branch .right (top none p) c start l.root := by
  change (m6.update s _).cell s = _
  rw [cell_update_self, hsame6 s hsp, hs5]
  rfl
 -- The tree, whatever is then done to the subtree at the lower end.
 have hbuilt : forall (final : RbMemory ptr) (rest' : ColorTree ptr), final.root = m6.root ->
  (forall w, w ∉ rest.nodes -> final.cell w = m7.cell w) -> rest'.root = rest.root ->
  rest'.nodes = rest.nodes -> final.Holds rest' (some parent) ->
  final.Represents (plug (q ++ ⟨.right, c, s, l⟩ :: p) rest') := by
  intro final rest' hroot hkept hrest' hnodes hholds
  have hsame7 : forall w, w ∉ rest.nodes -> w ≠ s -> final.cell w = m6.cell w := by
   intro w hwrest hws
   exact (hkept w hwrest).trans (cell_update_of_ne hws)
  rw [represents_plug, hroot, hrest']
  refine ⟨holdsPath_append.mpr ⟨start, ?_, ?_, ?_, ?_⟩, ?_, ?_⟩
  · apply hq.congr
    intro w hw
    have hws : w ≠ s := fun h => hsq (h ▸ hw)
    rw [hsame7 w (fun hmem => hlqrest (.inr hw) hmem) hws,
     hsame6 w (fun hmem => (hps hmem).right.right.left.right hw)]
    exact hsame5 w hws (fun hmem => hlq hmem hw)
  · exact (hkept s hsrest).trans hs7
  · apply hl5.congr
    intro w hw
    rw [hsame7 w (fun hmem => hlqrest (.inl hw) hmem) (fun h => hsl (h ▸ hw))]
    exact hsame6 w (fun hmem => (hps hmem).right.right.left.left hw)
  · apply hpath6.congr
    intro w hw
    exact hsame7 w (hps hw).right.right.right (hps hw).right.left
  · rw [top_append, top_cons, hparent]
    exact hholds
  rw [nodes_append, hnodes]
  simp only [Path.nodes, nodup_add, nodup_cons, mem_cons,
   mem_add, not_or, disjoint_left] at hnodup ⊢
  grind
 have hunfold : m.eraseSplice x s parent rest.root =
  some (m6.eraseRecolor s parent rest.root (m.cell x)) := by
  have hx5 : m5.cell x = m.cell x := hsame5 x hxs hxl
  have hm5 : m5 = m4.setParent y (some s) := by
   change m4.guarded l.root _ = _
   rw [hy]
   rfl
  have hbind : forall (g : ptr -> Option (Option ptr × RbMemory ptr)), (l.root >>= g) = g y := by
   intro g
   rw [hy]
   rfl
  have hm5' : (m.setChild s .left l.root).setParent y (some s) = m5 := hm5.symm
  unfold eraseSplice
  rw [hx.left, hbind, hm5']
  change some ((m5.changeChild x (some s) (m5.cell x).parent).eraseRecolor s parent rest.root
   (m5.cell x)) = some ((m5.changeChild x (some s) (top none p)).eraseRecolor s parent
   rest.root (m.cell x))
  rw [hx5, hx.right.left]
 have hm7 : m6.setParentColor s (m.cell x).parent (m.cell x).color = m7 := by
  rw [hx.right.left, hx.right.right]
 rw [hunfold]
 cases hchild : rest with
 | leaf =>
  have hcolor : (m6.cell s).color = d := by rw [hsame6 s hsp, hs5]
  refine ⟨if (m6.cell s).color = .black then some parent else none, m7,
   congrArg some (Prod.ext rfl hm7), ?_, ?_⟩
  · apply hbuilt m7 leaf rfl (fun w _ => rfl)
    · rw [hchild]
    · rw [hchild]
    · trivial
  · rw [hcolor, top_append, top_cons, hparent]
 | node e left z right =>
  refine ⟨none, m7.updateRoot rest (RbNode.setParentColor (some parent) .black), ?_, ?_, rfl⟩
  · rw [hchild]
    change some (none, RbMemory.setParentColor z _ _ (m6.setParentColor s _ _)) = _
    rw [hm7]
    rfl
  rw [← hchild]
  apply hbuilt
  · exact root_updateRoot
  · intro w hw
    exact cell_updateRoot hw
  · exact root_paint
  · exact nodes_paint
  have hrest7 : m7.Holds rest above := by
   apply hrest.congr
   intro w hw
   have hws : w ≠ s := fun h => hsrest (h ▸ hw)
   have hwm6 : m7.cell w = m6.cell w := cell_update_of_ne hws
   rw [hwm6, hsame6 w (fun hmem => (hps hmem).right.right.right hw)]
   exact hsame5 w hws (fun hmem => hlqrest (.inl hmem) hw)
  exact hrest7.setParentColor_root hnrest (some parent)

theorem eraseNode_child (h : m.Represents (plug p (node c l x (node d leaf s rest))))
  (hl : l ≠ leaf) :
  exists rebalance next, m.eraseNode fuel x = some (rebalance, next) ∧
    next.Vacated rebalance (⟨.right, c, s, l⟩ :: p) d .black rest := by
 rcases represents_plug.mp h with ⟨hpath, ⟨hx, hleft, hs, _, hrest⟩, hnodup⟩
 rcases root_of_ne_leaf hl with ⟨y, hy⟩
 have hunfold : m.eraseNode fuel x = m.eraseSplice x s s rest.root := by
  unfold eraseNode
  rw [hx, hy]
  change (match (m.cell s).left with
   | none => m.eraseSplice x s s (m.cell s).right
   | some _ => _) = _
  rw [hs]
  rfl
 rw [hunfold]
 refine eraseSplice_spec (q := []) hpath ?_ hleft hy hs rfl hrest rfl ?_
 · rw [hx]
   exact ⟨rfl, rfl, rfl⟩
 simp only [ColorTree.nodes, Path.nodes, nodup_add, nodup_cons,
  mem_cons, mem_add, not_or, disjoint_left] at hnodup ⊢
 grind

theorem eraseNode_deeper {g : Turn ptr} {z : ptr}
  (h : m.Represents (plug p (node c l x (plug (g :: q) (node d leaf s rest)))))
  (hl : l ≠ leaf) (hside : g.side = .left)
  (hz : (plug (g :: q) (node d leaf s rest)).root = some z) {tmp : ptr}
  (htmp : (m.cell z).left = some tmp)
  (hloop : loop m.successorRound fuel (z, tmp) = some (g.x, s)) :
  exists rebalance next, m.eraseNode fuel x = some (rebalance, next) ∧
    next.Vacated rebalance (g :: q ++ ⟨.right, c, s, l⟩ :: p) d .black rest := by
 rcases represents_plug.mp h with ⟨hpath, ⟨hx, hleft, hright⟩, hnodup⟩
 rcases holds_plug.mp hright with ⟨hq, hs, _, hrest⟩
 rw [hz] at hx hq
 change (nodes p + x ::ₘ (l.nodes + (plug (g :: q) (node d leaf s rest)).nodes)).Nodup
  at hnodup
 rw [nodes_plug] at hnodup
 have hzq : z ∈ nodes (g :: q) := hq.start_mem
 have hgq : g.x ∈ nodes (g :: q) := mem_cons_self _ _
 let m1 := m.setChild g.x .left rest.root
 let m2 := m1.setChild s .right (some z)
 let m3 := m2.setParent z (some s)
 have hsep := hnodup
 simp only [ColorTree.nodes, nodup_add, nodup_cons, mem_cons,
  mem_add, not_or, disjoint_left] at hsep
 have hsq : s ∉ nodes (g :: q) := by grind
 have hnq : (nodes (g :: q)).Nodup := by grind
 have hsame : forall w, w ∉ nodes (g :: q) -> w ≠ s -> m3.cell w = m.cell w := by
  intro w hwq hws
  have hwz : w ≠ z := fun h => hwq (h ▸ hzq)
  have hwg : w ≠ g.x := fun h => hwq (h ▸ hgq)
  exact (cell_update_of_ne hwz).trans ((cell_update_of_ne hws).trans (cell_update_of_ne hwg))
 have hq3 : m3.HoldsPath (some s) (some z) (g :: q) rest.root := by
  have hq1 : m1.HoldsPath (some x) (some z) (g :: q) rest.root := by
   change (m.setChild g.x .left rest.root).HoldsPath _ _ _ _
   rw [← hside]
   have hg := (nodup_cons.mp hnq).left
   rw [mem_add, not_or] at hg
   exact hq.setHole hg.left hg.right
  have hq2 : m2.HoldsPath (some x) (some z) (g :: q) rest.root := hq1.update hsq
  exact hq2.setAbove hnq
 have hs3 : m3.cell s = ⟨some g.x, d, some z, none⟩ := by
  have hsz : s ≠ z := fun h => hsq (h ▸ hzq)
  have hsg : s ≠ g.x := fun h => hsq (h ▸ hgq)
  have hlocal : m3.cell s = (m.cell s).setChild .right (some z) := by
   change ((m1.update s _).update z _).cell s = _
   rw [cell_update_of_ne hsz, cell_update_self]
   exact congrArg _ (cell_update_of_ne hsg)
  rw [hlocal, hs]
  rfl
 have hx3 : m3.cell x = m.cell x := hsame x (by grind) (by grind)
 have hkept : forall (t : ColorTree ptr) (above : Option ptr), m.Holds t above ->
  (forall w, w ∈ t.nodes -> w ∉ nodes (g :: q) ∧ w ≠ s) -> m3.Holds t above := by
  intro t above ht hw
  apply ht.congr
  intro w hmem
  exact hsame w (hw w hmem).left (hw w hmem).right
 have hpath3 : m3.HoldsPath none m3.root p (some x) := by
  have hroot : m3.root = m.root := rfl
  rw [hroot]
  apply hpath.congr
  intro w hw
  exact hsame w (by grind) (by grind)
 have hleft3 : m3.Holds l (some x) := hkept l _ hleft (by grind)
 have hrest3 : m3.Holds rest (some s) := hkept rest _ hrest (by grind)
 rcases root_of_ne_leaf hl with ⟨y, hy⟩
 have hunfold : m.eraseNode fuel x = m3.eraseSplice x s g.x rest.root := by
  have hchild2 : (m.cell s).right = rest.root := by rw [hs]
  unfold eraseNode
  rw [hx, hy]
  change (match (m.cell z).left with | none => _ | some _ => _) = _
  rw [htmp]
  change (loop m.successorRound fuel (z, tmp) >>= _) = _
  rw [hloop]
  change RbMemory.eraseSplice x s g.x (m.cell s).right _ = _
  rw [hchild2]
 rw [hunfold]
 refine eraseSplice_spec hpath3 ?_ hleft3 hy hs3 hq3 hrest3 rfl ?_
 · rw [hx3, hx]
   exact ⟨rfl, rfl, rfl⟩
 simp only [nodup_add, nodup_cons, mem_cons,
  mem_add, not_or, disjoint_left]
 grind

theorem eraseNode_two (h : m.Represents (plug p (node c l x r))) (hl : l ≠ leaf)
  (hmost : leftmost r [] = some (q, d, s, rest)) (hfuel : r.nodes.card < fuel) :
  exists rebalance next, m.eraseNode fuel x = some (rebalance, next) ∧
    next.Vacated rebalance (q ++ ⟨.right, c, s, l⟩ :: p) d .black rest := by
 cases r with
 | leaf => cases hmost
 | node cr lr z rr =>
  cases hlr : lr with
  | leaf =>
   rw [hlr] at h hmost
   cases hmost
   exact eraseNode_child h hl
  | node e left tmp right =>
   rcases leftmost_eq_some hmost with ⟨q', hq, hside, hplug⟩
   rw [List.append_nil] at hq
   rw [← hq] at hside hplug
   have hmost' : leftmost lr [⟨.left, cr, z, rr⟩] = some (q, d, s, rest) := by
    unfold leftmost at hmost
    split at hmost
    · rename_i hnone
      rw [leftmost_eq_none hnone] at hlr
      cases hlr
    rename_i found hsome
    rw [hsome]
    exact hmost
   rcases represents_plug.mp h with ⟨_, ⟨_, _, hz, hlower, _⟩, _⟩
   have htmp : lr.root = some tmp := by
    rw [hlr]
    rfl
   rcases card_children hfuel with ⟨k, hk, hlfuel, _⟩
   have hlower' : lr.nodes.card < fuel := by omega
   rcases successorRound_loop hlower htmp hmost' hlower' with ⟨g, q'', rfl, hloop⟩
   rw [← hplug] at h
   apply eraseNode_deeper h hl (hside g List.mem_cons_self) _ _ hloop
   · rw [hplug]
     rfl
   rw [hz]
   exact htmp

end Unlink

/-!
# The function
-/

section Function
variable {m : RbMemory ptr} {p : Path ptr} {x : ptr} {c : Color} {t u l r : ColorTree ptr}
 {fuel : Nat}

theorem rbErase_of_vacated {q : Path ptr} {d e : Color} {child : ColorTree ptr}
  (hvacated : exists rebalance next, m.eraseNode fuel x = some (rebalance, next) ∧
    next.Vacated rebalance q d e child)
  (hvacate : vacate q d e child = some u) (hfuel : q.length < fuel) :
  exists next, m.rbErase fuel x = some next ∧ next.Represents u := by
 rcases hvacated with ⟨rebalance, next, hnode, hnext⟩
 rcases hnext.finish hvacate hfuel with ⟨final, hfinal, hrep⟩
 refine ⟨final, ?_, hrep⟩
 unfold rbErase
 rw [hnode]
 exact hfinal

theorem eraseAt_refines (h : m.Represents (plug p (node c l x r)))
  (hat : eraseAt p c l r = some u) (hfuel : (plug p (node c l x r)).nodes.card < fuel) :
  exists next, m.rbErase fuel x = some next ∧ next.Represents u := by
 rw [nodes_plug, card_add] at hfuel
 change _ + Multiset.card (x ::ₘ (l.nodes + r.nodes)) < fuel at hfuel
 rw [card_cons, card_add] at hfuel
 have hlength := length_le_card p
 cases hl : l with
 | leaf =>
  rw [hl] at h hat
  exact rbErase_of_vacated (eraseNode_right h) hat (by omega)
 | node cl ll xl rl =>
  have hleft : l ≠ leaf := by
   rw [hl]
   nofun
  cases hr : r with
  | leaf =>
   rw [hr] at h hat
   rw [hl] at hat
   have hat' : vacate p c c l = some u := by
    rw [hl]
    exact hat
   exact rbErase_of_vacated (eraseNode_left h hleft) hat' (by omega)
  | node cr lr z rr =>
   have hright : r ≠ leaf := by
    rw [hr]
    nofun
   rw [eraseAt_two hleft hright] at hat
   cases hmost : leftmost r [] with
   | none => exact absurd (leftmost_eq_none hmost) hright
   | some found =>
    rcases found with ⟨q, d, s, rest⟩
    rw [hmost] at hat
    have hcard : (nodes q).card + 1 ≤ r.nodes.card := by
     rcases leftmost_eq_some hmost with ⟨q', hq, _, hplug⟩
     rw [← hplug, nodes_plug, hq, List.append_nil, card_add]
     change _ ≤ _ + Multiset.card (s ::ₘ (0 + rest.nodes))
     rw [card_cons]
     omega
    have hq := length_le_card q
    refine rbErase_of_vacated ?_ hat ?_
    · exact eraseNode_two h hleft hmost (by omega)
    rw [List.length_append, List.length_cons]
    omega

theorem rbErase_refines (h : m.Represents t) (herase : ColorTree.erase x t = some u)
  (hfuel : t.nodes.card < fuel) :
  exists next, m.rbErase fuel x = some next ∧ next.Represents u := by
 unfold ColorTree.erase at herase
 cases hfind : find x t [] with
 | none =>
  rw [hfind] at herase
  cases herase
 | some found =>
  rcases found with ⟨p, c, l, r⟩
  rw [hfind] at herase
  have hplug : plug p (node c l x r) = t := find_eq_some hfind
  rw [← hplug] at h hfuel
  exact eraseAt_refines h herase hfuel

end Function

end RbMemory
end OSLab.Common
