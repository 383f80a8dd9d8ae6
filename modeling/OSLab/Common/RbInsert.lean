import OSLab.Common.RbRepresents

/-!
# Insertion in memory

`_rb_insert` does in memory what the insertion on trees does.
-/

namespace OSLab.Common
open Foundation ColorTree Path Multiset RbNode
namespace RbMemory
variable {ptr : Type} [DecidableEq ptr]

/-!
# The rotation
-/

section Rotate
variable {m : RbMemory ptr} {p : Path ptr} {side : Side} {y z : ptr} {c d : Color}
 {a b uncle : ColorTree ptr} {q v parent : Option ptr}

/--
The rotation takes the tree with root `y` up to the place of `z`; the subtree `b`
changes over from `y` to `z`.
-/
theorem insertFixRotate_spec (hpath : m.HoldsPath none m.root p (some z))
  (hz : m.cell z = branch side (top none p) c v uncle.root)
  (hy : m.cell y = branch side q d a.root b.root)
  (ha : m.Holds a (some y)) (hb : m.Holds b parent) (huncle : m.Holds uncle (some z))
  (hnodup : (nodes p + (z ::ₘ y ::ₘ (a.nodes + b.nodes + uncle.nodes))).Nodup) :
  (m.insertFixRotate side z y b.root).Represents (plug p
    (branch side c a y (branch side .red (b.paint .black) z uncle))) := by
 let m1 := m.setChild z side b.root
 let m2 := m1.updateRoot b (RbNode.setParentColor (some z) .black)
 let m3 := m2.setChild y side.other (some z)
 have hunfold : m.insertFixRotate side z y b.root = m3.rotateSetParents z y .red := rfl
 have hsep := hnodup
 simp only [nodup_add, nodup_cons, mem_cons, mem_add,
  not_or, disjoint_left] at hsep
 rcases hsep with ⟨hnp, ⟨⟨hzy, ⟨hza, hzb⟩, hzu⟩, ⟨⟨hya, hyb⟩, hyu⟩, ⟨_, hnb, hab⟩, _, hu⟩, hps⟩
 -- What the three writes before the last call leave alone.
 have hsame : forall w, w ≠ z -> w ≠ y -> w ∉ b.nodes -> m3.cell w = m.cell w := by
  intro w hwz hwy hwb
  exact (cell_update_of_ne hwy).trans ((cell_updateRoot hwb).trans (cell_update_of_ne hwz))
 have hpath3 : m3.HoldsPath none m3.root p (some z) := by
  have hroot : m3.root = m.root := root_updateRoot
  rw [hroot]
  apply hpath.congr
  intro w hw
  exact hsame w (hps hw).left (hps hw).right.left (hps hw).right.right.left.right
 have hz3 : m3.cell z = branch side (top none p) c b.root uncle.root := by
  have hlocal : m3.cell z = (m.cell z).setChild side b.root :=
   (cell_update_of_ne hzy).trans ((cell_updateRoot hzb).trans cell_update_self)
  rw [hlocal, hz, setChild_branch]
 have hy3 : m3.cell y = branch side q d a.root (some z) := by
  have hlocal : m2.cell y = m.cell y :=
   (cell_updateRoot hyb).trans (cell_update_of_ne (Ne.symm hzy))
  change (m2.update y _).cell y = _
  rw [cell_update_self, hlocal, hy, setChild_other_branch]
 have hb3 : m3.Holds (b.paint .black) (some z) := by
  have hpainted : m2.Holds (b.paint .black) (some z) :=
   (hb.update hzb).setParentColor_root hnb (some z)
  apply hpainted.update
  rw [nodes_paint]
  exact hyb
 have hkept : forall (s : ColorTree ptr) (above : Option ptr), m.Holds s above ->
  z ∉ s.nodes -> y ∉ s.nodes -> (forall w, w ∈ s.nodes -> w ∉ b.nodes) ->
  m3.Holds s above := by
  intro s above hs hzs hys hsb
  apply hs.congr
  intro w hw
  exact hsame w (fun h => hzs (h ▸ hw)) (fun h => hys (h ▸ hw)) (hsb w hw)
 rw [hunfold]
 apply rotateSetParents_represents hpath3 _ hy3 (hkept a _ ha hza hya (fun w hw => hab hw)) hb3
  (hkept uncle _ huncle hzu hyu (fun w hw h => hu (.inr h) hw))
 · rw [nodes_paint]
   exact hnodup
 · rw [root_paint]
   exact hz3

end Rotate

/-!
# A round of the repair
-/

section Round
variable {m : RbMemory ptr} {p : Path ptr} {fside side : Side} {fcolor gcolor d : Color}
 {x y z : ptr} {sibling uncle t near far : ColorTree ptr}

theorem insertFixUnder_recolor
  (h : m.Represents (plug (⟨fside, fcolor, y, sibling⟩ :: ⟨side, gcolor, z, uncle⟩ :: p) t))
  (hred : uncle.isRed) :
  exists next, m.insertFixUnder side x y z = .again (z, top none p, next) ∧
    next.Represents (plug p (branch side .red
      (branch fside .black t y sibling) z (uncle.paint .black))) := by
 rcases represents_plug.mp h with ⟨⟨hy, hsibling, hz, huncle, hpath⟩, ht, hnodup⟩
 simp only [Path.nodes, nodup_add, nodup_cons, mem_cons,
  mem_add, not_or, disjoint_left] at hnodup
 let m1 := m.updateRoot uncle (RbNode.setParentColor (some z) .black)
 let m2 := m1.setParentColor y (some z) .black
 let m3 := m2.setParentColor z (top none p) .red
 have hsame : forall w, w ≠ y -> w ≠ z -> w ∉ uncle.nodes -> m3.cell w = m.cell w := by
  intro w hwy hwz hwu
  exact (cell_update_of_ne hwz).trans ((cell_update_of_ne hwy).trans (cell_updateRoot hwu))
 have hyz : y ≠ z := hnodup.left.left.right.left
 have hzu : z ∉ uncle.nodes := hnodup.left.right.right.left.left.left
 have hyu : y ∉ uncle.nodes := hnodup.left.left.right.right.left
 have hz2 : m2.cell z = RbNode.branch side (top none p) gcolor (some y) uncle.root :=
  (cell_update_of_ne hyz.symm).trans ((cell_updateRoot hzu).trans hz)
 refine ⟨m3, ?_, ?_⟩
 · have hfirst : m.isRed ((m.cell z).child side.other) := by
    rw [hz, RbNode.child_other_branch, huncle.isRed_root]
    exact hred
   unfold insertFixUnder
   simp only [hfirst, if_true]
   rw [hz, RbNode.child_other_branch]
   change Round.again (z, (m2.cell z).parent, m2.setParentColor z (m2.cell z).parent _) = _
   rw [hz2, RbNode.parent_branch]
 have hrepair : Path.repairRed ⟨fside, fcolor, y, sibling⟩ ⟨side, gcolor, z, uncle⟩ t =
  some (true, branch side .red (branch fside .black t y sibling) z
   (uncle.paint .black)) := if_pos hred
 have hfar : forall w, w ≠ y ∧ w ≠ z ∧ w ∉ uncle.nodes -> m3.cell w = m.cell w :=
  fun w hw => hsame w hw.left hw.right.left hw.right.right
 apply Represents.rearranged (m := m) (p := p) h (Path.toList_repairRed hrepair)
 · have hroot : m3.root = m.root := root_updateRoot
   rw [hroot, root_branch]
   apply hpath.congr
   intro w hw
   exact hfar w (by grind)
 rw [holds_branch, holds_branch, root_branch, root_paint]
 refine ⟨?_, ⟨?_, ?_, ?_⟩, ?_⟩
 · change (m2.update z _).cell z = _
   rw [cell_update_self, hz2, RbNode.setParentColor_branch]
 · have hy1 : m1.cell y = m.cell y := cell_updateRoot hyu
   change ((m1.update y _).update z _).cell y = _
   rw [cell_update_of_ne hyz, cell_update_self, hy1, hy, RbNode.setParentColor_branch]
 · apply ht.congr
   intro w hw
   exact hfar w (by grind)
 · apply hsibling.congr
   intro w hw
   exact hfar w (by grind)
 have hpainted : m1.Holds (uncle.paint .black) (some z) :=
  huncle.setParentColor_root hnodup.left.right.right.left.right.left (some z)
 apply Holds.update
 · apply hpainted.update
   rw [nodes_paint]
   exact hyu
 rw [nodes_paint]
 exact hzu

theorem insertFixUnder_outer
  (h : m.Represents (plug (⟨side, fcolor, y, sibling⟩ :: ⟨side, gcolor, z, uncle⟩ :: p) t))
  (hblack : uncle.isRed = false) (hx : t.root = some x) :
  exists next, m.insertFixUnder side x y z = .done next ∧
    next.Represents (plug p (branch side gcolor t y
      (branch side .red (sibling.paint .black) z uncle))) := by
 rcases represents_plug.mp h with ⟨⟨hy, hsibling, hz, huncle, hpath⟩, ht, hnodup⟩
 simp only [Path.nodes, nodup_add, nodup_cons, mem_cons,
  mem_add, not_or, disjoint_left] at hnodup
 refine ⟨m.insertFixRotate side z y sibling.root, ?_, ?_⟩
 · have hfirst : m.isRed ((m.cell z).child side.other) = false := by
    rw [hz, RbNode.child_other_branch, huncle.isRed_root]
    exact hblack
   have hsecond : (m.cell y).child side.other = sibling.root := by
    rw [hy, RbNode.child_other_branch]
   have hnot : ¬ some x = sibling.root := by
    intro hroot
    have hmem := root_mem hroot.symm
    have hmem' := root_mem hx
    grind
   unfold insertFixUnder
   simp only [hfirst, hsecond, hnot, Bool.false_eq_true, if_false]
 apply insertFixRotate_spec hpath hz hy ht hsibling huncle
 simp only [nodup_add, nodup_cons, mem_cons,
  mem_add, not_or, disjoint_left]
 grind

theorem insertFixUnder_inner (h : m.Represents (plug
    (⟨side.other, fcolor, y, sibling⟩ :: ⟨side, gcolor, z, uncle⟩ :: p) (branch side d near x far)))
  (hblack : uncle.isRed = false) :
  exists next, m.insertFixUnder side x y z = .done next ∧
    next.Represents (plug p (branch side gcolor
      (branch side .red sibling y (near.paint .black)) x
      (branch side .red (far.paint .black) z uncle))) := by
 rcases represents_plug.mp h with ⟨⟨hy, hsibling, hz, huncle, hpath⟩, ht, hnodup⟩
 simp only [Path.nodes, nodes_branch, nodup_add, nodup_cons,
  mem_cons, mem_add, not_or, disjoint_left] at hnodup
 simp only [top_cons, root_branch, holds_branch] at hy hz hsibling huncle hpath ht
 rcases ht with ⟨hxcell, hnear, hfar⟩
 let m1 := m.setChild y side.other near.root
 let m2 := m1.updateRoot near (RbNode.setParentColor (some y) .black)
 let m3 := m2.setChild x side (some y)
 let m4 := m3.setParentColor y (some x) .red
 have hsame : forall w, w ≠ x ∧ w ≠ y ∧ w ∉ near.nodes -> m4.cell w = m.cell w := by
  rintro w ⟨hwx, hwy, hwn⟩
  exact (cell_update_of_ne hwy).trans ((cell_update_of_ne hwx).trans
   ((cell_updateRoot hwn).trans (cell_update_of_ne hwy)))
 have hxy : x ≠ y := by grind
 have hxn : x ∉ near.nodes := by grind
 have hyn : y ∉ near.nodes := by grind
 have hx4 : m4.cell x = RbNode.branch side (some y) d (some y) far.root := by
  have hx2 : m2.cell x = m.cell x := (cell_updateRoot hxn).trans (cell_update_of_ne hxy)
  change ((m2.update x _).update y _).cell x = _
  rw [cell_update_of_ne hxy, cell_update_self, hx2, hxcell, RbNode.setChild_branch]
 have hy4 : m4.cell y = RbNode.branch side (some x) .red sibling.root near.root := by
  have hy2 : m2.cell y = (m.cell y).setChild side.other near.root :=
   (cell_updateRoot hyn).trans cell_update_self
  change ((m2.update x _).update y _).cell y = _
  rw [cell_update_self, cell_update_of_ne hxy.symm, hy2, hy, RbNode.branch_other,
   RbNode.setChild_other_branch, RbNode.setParentColor_branch]
 have hnear4 : m4.Holds (near.paint .black) (some y) := by
  have hpainted : m2.Holds (near.paint .black) (some y) :=
   (hnear.update hyn).setParentColor_root (by grind) (some y)
  apply Holds.update
  · apply hpainted.update
    rw [nodes_paint]
    exact hxn
  rw [nodes_paint]
  exact hyn
 refine ⟨m4.insertFixRotate side z x far.root, ?_, ?_⟩
 · have hfirst : m.isRed ((m.cell z).child side.other) = false := by
    rw [hz, RbNode.child_other_branch, huncle.isRed_root]
    exact hblack
   have hsecond : (m.cell y).child side.other = some x := by rw [hy, RbNode.child_branch]
   have hthird : (m.cell x).child side = near.root := by rw [hxcell, RbNode.child_branch]
   have hlast : (m4.cell x).child side.other = far.root := by rw [hx4, RbNode.child_other_branch]
   unfold insertFixUnder
   simp only [hfirst, hsecond, hthird, Bool.false_eq_true, if_false, if_true]
   rw [← hlast]
   rfl
 have hsibling4 : m4.Holds sibling (some y) := by
  apply hsibling.congr
  intro w hw
  exact hsame w (by grind)
 have hfar4 : m4.Holds far (some x) := by
  apply hfar.congr
  intro w hw
  exact hsame w (by grind)
 have huncle4 : m4.Holds uncle (some z) := by
  apply huncle.congr
  intro w hw
  exact hsame w (by grind)
 have hpath4 : m4.HoldsPath none m4.root p (some z) := by
  have hroot : m4.root = m.root := root_updateRoot
  rw [hroot]
  apply hpath.congr
  intro w hw
  exact hsame w (by grind)
 have hz4 : m4.cell z = RbNode.branch side (top none p) gcolor (some y) uncle.root := by
  rw [hsame z (by grind)]
  exact hz
 have hroot4 : m4.cell x = RbNode.branch side (some y) d
  (branch side .red sibling y (near.paint .black)).root far.root := by
  rw [root_branch]
  exact hx4
 have hlower4 : m4.Holds (branch side .red sibling y (near.paint .black)) (some x) := by
  rw [holds_branch, root_paint]
  exact ⟨hy4, hsibling4, hnear4⟩
 apply insertFixRotate_spec hpath4 hz4 hroot4 hlower4 hfar4 huncle4
 simp only [nodes_branch, nodes_paint, nodup_add, nodup_cons,
  mem_cons, mem_add, not_or, disjoint_left]
 grind

theorem insertFixRound_red (h : m.Represents (plug (⟨fside, .red, y, sibling⟩ ::
    ⟨side, gcolor, z, uncle⟩ :: p) t)) :
  insertFixRound (x, some y, m) = some (m.insertFixUnder side x y z) := by
 rcases represents_plug.mp h with ⟨⟨hy, _, hz, _, _⟩, _, hnodup⟩
 simp only [Path.nodes, nodup_add, nodup_cons, mem_cons,
  mem_add, not_or] at hnodup
 simp only [top_cons] at hy hz
 have hcolor : ¬ (m.cell y).color = .black := by
  rw [hy, RbNode.color_branch]
  exact Color.noConfusion
 have hparent : (m.cell y).redParent = some (some z) := by rw [hy, RbNode.redParent_branch]
 rw [insertFixRound, if_neg hcolor, hparent]
 change (if (m.cell z).right ≠ some y then _ else _) = _
 rw [hz]
 cases side with
 | left =>
  apply if_pos
  intro hroot
  exact hnodup.left.left.right.right.left (root_mem hroot)
 | right => exact if_neg (not_not_intro rfl)

theorem insertFixRound_repair {f g : Turn ptr} {u : ColorTree ptr} {again : Bool}
  (h : m.Represents (plug (f :: g :: p) t)) (hx : t.root = some x)
  (hred : f.color = .red) (hrepair : repairRed f g t = some (again, u)) :
  exists next, next.Represents (plug p u) ∧
    insertFixRound (x, some f.x, m) = some (match again with
      | true => .again (g.x, top none p, next)
      | false => .done next) ∧ (again -> u.root = some g.x) := by
 rcases f with ⟨fside, fcolor, y, sibling⟩
 rcases g with ⟨side, gcolor, z, uncle⟩
 cases hred
 rw [insertFixRound_red h]
 unfold repairRed at hrepair
 split at hrepair
 · rename_i huncle
   rcases insertFixUnder_recolor (x := x) h huncle with ⟨next, hround, hnext⟩
   cases hrepair
   exact ⟨next, hnext, congrArg some hround, fun _ => root_branch⟩
 rename_i huncle
 have hblack : uncle.isRed = false := Bool.eq_false_iff.mpr huncle
 split at hrepair
 · rename_i hside
   change fside = side at hside
   rw [hside] at h
   rcases insertFixUnder_outer h hblack hx with ⟨next, hround, hnext⟩
   cases hrepair
   exact ⟨next, hnext, congrArg some hround, nofun⟩
 rename_i hside
 have hother : fside = side.other := Side.eq_other_of_ne hside
 split at hrepair
 · cases hrepair
 rename_i d near x' far hsplit
 have ht : t = branch side d near x' far := split_eq_some hsplit
 rw [ht, root_branch] at hx
 cases hx
 rw [hother, ht] at h
 rcases insertFixUnder_inner h hblack with ⟨next, hround, hnext⟩
 cases hrepair
 exact ⟨next, hnext, congrArg some hround, nofun⟩

end Round

/-!
# The repair
-/

section Repair
variable {m : RbMemory ptr} {p : Path ptr} {t u : ColorTree ptr} {x : ptr} {fuel : Nat}

theorem insertFixRound_root {parent : Option ptr} (ht : m.Holds t parent)
  (hnodup : t.nodes.Nodup) (hx : t.root = some x) :
  exists next, insertFixRound (x, none, m) = some (.done next) ∧
    next.Represents (t.paint .black) := by
 refine ⟨_, rfl, ?_, ?_, ?_⟩
 · rw [root_paint, hx]
 · have hpainted := ht.setParentColor_root (c := .black) hnodup none
   unfold updateRoot at hpainted
   rw [hx] at hpainted
   exact hpainted.congr (fun w _ => rfl)
 rw [nodes_paint]
 exact hnodup

theorem insertFixRound_black {f : Turn ptr} (h : m.Represents (plug (f :: p) t))
  (hblack : f.color = .black) : insertFixRound (x, some f.x, m) = some (.done m) := by
 rcases represents_plug.mp h with ⟨⟨hf, _⟩, _⟩
 have hcolor : (m.cell f.x).color = .black := by
  rw [hf, color_branch]
  exact hblack
 rw [insertFixRound, if_pos hcolor]

theorem insertFix_refines (hfix : Path.insertFix p t = some u)
  (h : m.Represents (plug p t)) (hx : t.root = some x) (hfuel : p.length < fuel) :
  exists next, loop insertFixRound fuel (x, top none p, m) = some next ∧
    next.Represents u := by
 induction p, t using Path.insertFix.induct generalizing m x fuel with
 | case1 t =>
  rcases Nat.exists_eq_add_of_lt hfuel with ⟨fuel, rfl⟩
  rcases insertFixRound_root h.holds h.nodup hx with ⟨next, hround, hnext⟩
  cases hfix
  exact ⟨next, loop_done hround, hnext⟩
 | case2 f t hblack | case4 f g p t hblack =>
  rcases Nat.exists_eq_add_of_lt hfuel with ⟨fuel, rfl⟩
  rw [Path.insertFix, if_pos hblack] at hfix
  cases hfix
  exact ⟨m, loop_done (insertFixRound_black h hblack), h⟩
 | case3 f t hred =>
  rw [Path.insertFix, if_neg hred] at hfix
  cases hfix
 | case5 f g p t hred hnone =>
  rw [Path.insertFix, if_neg hred, hnone] at hfix
  cases hfix
 | case6 f g p t hred v hsome ih =>
  rcases Nat.exists_eq_add_of_lt hfuel with ⟨fuel, rfl⟩
  rw [Path.insertFix, if_neg hred, hsome] at hfix
  rcases insertFixRound_repair h hx (Color.eq_red_of_ne_black hred) hsome with
   ⟨next, hnext, hround, hroot⟩
  rw [top_cons, loop_again hround]
  apply ih hfix hnext (hroot rfl)
  rw [List.length_cons, List.length_cons]
  omega
 | case7 f g p t hred v hsome =>
  rcases Nat.exists_eq_add_of_lt hfuel with ⟨fuel, rfl⟩
  rw [Path.insertFix, if_neg hred, hsome] at hfix
  rcases insertFixRound_repair h hx (Color.eq_red_of_ne_black hred) hsome with
   ⟨next, hnext, hround, _⟩
  cases hfix
  rw [top_cons, loop_done hround]
  exact ⟨next, rfl, hnext⟩

end Repair

/-!
# The search
-/

section Search
variable {cmp : ptr -> ptr -> Bool} {m : RbMemory ptr} {x y : ptr} {t : ColorTree ptr}
 {p q : Path ptr} {parent : Option ptr} {fuel : Nat}

def linked (x : ptr) (q : Path ptr) (m : RbMemory ptr) : RbMemory ptr :=
 match q with
 | [] => m
 | f :: _ => (m.setChild f.x f.side (some x)).setParentColor x (some f.x) .red

variable {c : Color} {s : ColorTree ptr}

theorem insertTurn_leaf {side : Side} (h : (m.cell y).child side = none) :
  m.insertTurn side x y = (none, linked x (⟨side, c, y, s⟩ :: p) m) := by
 unfold insertTurn
 rw [h]
 rfl

theorem insertTurn_node {side : Side} (h : (m.cell y).child side = some z) :
  m.insertTurn side x y = (some z, m) := by
 unfold insertTurn
 rw [h]

theorem insertRound_turn (side : Side) {r : Bool × RbMemory ptr}
  (hround : insertRound cmp x (some y, m) = some (.again (m.insertTurn side x y)))
  (hchild : (m.cell y).child side = t.root)
  (hleaf : t = leaf -> r = (false, linked x (⟨side, c, y, s⟩ :: p) m))
  (hrest : t ≠ leaf -> loop (insertRound cmp x) (fuel + 1) (t.root, m) = some r) :
  loop (insertRound cmp x) (fuel + 2) (some y, m) = some r := by
 rw [loop_again hround]
 cases t with
 | leaf =>
  rw [insertTurn_leaf hchild (c := c) (s := s) (p := p), hleaf rfl]
  exact loop_done rfl
 | node d l z r' =>
  rw [insertTurn_node hchild]
  exact hrest (by
   intro h
   cases h)

omit [DecidableEq ptr] in
theorem card_children {l r : ColorTree ptr} (hfuel : (node c l y r).nodes.card < fuel) :
  exists rest, fuel = rest + 2 ∧ l.nodes.card < rest + 1 ∧ r.nodes.card < rest + 1 := by
 change card (y ::ₘ (l.nodes + r.nodes)) < fuel at hfuel
 rw [card_cons, card_add] at hfuel
 exact ⟨fuel - 2, by omega, by omega, by omega⟩

theorem insertRound_loop (cmp : ptr -> ptr -> Bool) (x : ptr) (p : Path ptr)
  (ht : m.Holds t parent) (hleaf : t ≠ leaf) (hfuel : t.nodes.card < fuel) :
  loop (insertRound cmp x) fuel (t.root, m) = some (match locate cmp x t p with
    | .vacant q => (false, linked x q m)
    | .taken _ => (true, m)) := by
 induction t generalizing p parent fuel with
 | leaf => exact absurd rfl hleaf
 | node c l y r ihl ihr =>
  rcases card_children hfuel with ⟨rest, rfl, hlfuel, hrfuel⟩
  rcases ht with ⟨hcell, hl, hr⟩
  unfold locate
  by_cases hlt : cmp x y = true
  · rw [if_pos hlt]
    apply insertRound_turn .left (c := c) (s := r) (p := p) (t := l)
    · rw [insertRound, if_pos hlt]
    · rw [hcell]
      rfl
    · rintro rfl
      rfl
    intro hleft
    exact ihl _ hl hleft hlfuel
  rw [if_neg hlt]
  by_cases hgt : cmp y x = true
  · rw [if_pos hgt]
    apply insertRound_turn .right (c := c) (s := l) (p := p) (t := r)
    · rw [insertRound, if_neg hlt, if_pos hgt]
    · rw [hcell]
      rfl
    · rintro rfl
      rfl
    intro hright
    exact ihr _ hr hright hrfuel
  rw [if_neg hgt]
  apply loop_done
  change insertRound cmp x (some y, m) = _
  rw [insertRound, if_neg hlt, if_neg hgt]

omit [DecidableEq ptr] in
theorem lookupRound_loop (ht : m.Holds t parent) (hfuel : t.nodes.card < fuel) :
  loop (m.lookupRound cmp x) fuel t.root = some (match locate cmp x t p with
    | .vacant _ => none
    | .taken y => some y) := by
 induction t generalizing p parent fuel with
 | leaf =>
  rcases Nat.exists_eq_add_of_lt hfuel with ⟨rest, rfl⟩
  exact loop_done rfl
 | node c l z r ihl ihr =>
  rcases card_children hfuel with ⟨rest, rfl, hlfuel, hrfuel⟩
  rcases ht with ⟨hcell, hl, hr⟩
  change loop _ _ (some z) = _
  unfold locate
  by_cases hlt : cmp x z = true
  · have hround : m.lookupRound cmp x (some z) = some (.again l.root) := by
     rw [lookupRound, if_pos hlt, hcell]
    rw [loop_again hround, if_pos hlt]
    exact ihl hl hlfuel
  rw [if_neg hlt]
  by_cases hgt : cmp z x = true
  · have hround : m.lookupRound cmp x (some z) = some (.again r.root) := by
     rw [lookupRound, if_neg hlt, if_pos hgt, hcell]
    rw [loop_again hround, if_pos hgt]
    exact ihr hr hrfuel
  have hround : m.lookupRound cmp x (some z) = some (.done (some z)) := by
   rw [lookupRound, if_neg hlt, if_neg hgt]
  rw [loop_done hround, if_neg hgt]

omit [DecidableEq ptr] in
theorem firstRound_loop (ht : m.Holds t parent) (hy : t.root = some y)
  (hfuel : t.nodes.card < fuel) :
  exists least, loop m.firstRound fuel y = some least ∧ t.toList.head? = some least := by
 induction t generalizing y parent fuel with
 | leaf => cases hy
 | node c l z r ihl ihr =>
  rcases card_children hfuel with ⟨rest, rfl, hlfuel, _⟩
  rcases ht with ⟨hcell, hl, _⟩
  cases hy
  cases hleft : l with
  | leaf =>
   rw [hleft] at hcell
   have hround : m.firstRound z = some (.done z) := by
    unfold firstRound
    rw [hcell]
    rfl
   exact ⟨z, loop_done hround, rfl⟩
  | node d ll w lr =>
   have hround : m.firstRound z = some (.again w) := by
    unfold firstRound
    rw [hcell, hleft]
    rfl
   have hroot : l.root = some w := by
    rw [hleft]
    rfl
   rcases ihl hl hroot hlfuel with ⟨least, hloop, hhead⟩
   refine ⟨least, ?_, ?_⟩
   · rw [loop_again hround]
     exact hloop
   rw [← hleft]
   change (l.toList ++ z :: r.toList).head? = _
   rw [List.head?_append, hhead]
   rfl

end Search

/-!
# The functions
-/

section Functions
variable {cmp : ptr -> ptr -> Bool} {m : RbMemory ptr} {x y : ptr} {t u : ColorTree ptr}
 {p q : Path ptr} {fuel : Nat}

omit [DecidableEq ptr] in
theorem rbLookup_refines (h : m.Represents t) (hfuel : t.nodes.card < fuel) :
  m.rbLookup cmp fuel x = some (match locate cmp x t [] with
    | .vacant _ => none
    | .taken y => some y) := by
 unfold rbLookup
 rw [h.root]
 exact lookupRound_loop h.holds hfuel

omit [DecidableEq ptr] in
theorem rbFirst_refines (h : m.Represents t) (hfuel : t.nodes.card < fuel) :
  m.rbFirst fuel = some t.toList.head? := by
 unfold rbFirst
 rw [h.root]
 cases ht : t with
 | leaf => rfl
 | node c l y r =>
  rw [← ht]
  have hroot : t.root = some y := by
   rw [ht]
   rfl
  rcases firstRound_loop h.holds hroot hfuel with ⟨least, hloop, hhead⟩
  rw [hroot, hhead]
  change (loop m.firstRound fuel y).bind _ = _
  rw [hloop]
  rfl

theorem Represents.clear (h : m.Represents t) (hx : x ∉ t.nodes) :
    (m.clear x).Represents t := { h with
 holds := h.holds.update hx }

theorem Represents.linked {f : Turn ptr} (h : m.Represents (plug (f :: p) leaf))
  (hx : x ∉ (plug (f :: p) leaf).nodes) (hcell : m.cell x = ⟨none, .red, none, none⟩) :
  (m.linked x (f :: p)).Represents (plug (f :: p) (node .red leaf x leaf)) := by
 rcases represents_plug.mp h with ⟨⟨hf, hsibling, hpath⟩, _, hnodup⟩
 rw [Path.nodes_plug] at hx
 have hwhole := hnodup
 have hfresh := hx
 simp only [Path.nodes, nodes_leaf, Multiset.add_zero, nodup_add,
  nodup_cons, mem_cons, mem_add, not_or] at hnodup hx
 rw [represents_plug]
 refine ⟨⟨?_, ?_, ?_⟩, ⟨?_, trivial, trivial⟩, ?_⟩
 · change ((m.update f.x _).update x _).cell f.x = _
   rw [cell_update_of_ne (Ne.symm hx.left), cell_update_self, hf, RbNode.setChild_branch]
   rfl
 · exact (hsibling.update hnodup.left.left).update hx.right.left
 · exact (hpath.update hnodup.left.right).update hx.right.right
 · change ((m.update f.x _).update x _).cell x = _
   rw [cell_update_self, cell_update_of_ne hx.left, hcell]
   rfl
 change (Path.nodes (f :: p) + x ::ₘ (0 + 0)).Nodup
 rw [add_cons, nodup_cons]
 exact ⟨hfresh, hwhole⟩

theorem insertFix_linked (h : m.Represents (plug q (node .red leaf x leaf)))
  (hfix : Path.insertFix q (node .red leaf x leaf) = some u) (hfuel : q.length < fuel) :
  exists next, m.insertFix fuel x = some next ∧ next.Represents u := by
 rcases represents_plug.mp h with ⟨_, ⟨hcell, _⟩, _⟩
 rcases insertFix_refines hfix h rfl hfuel with ⟨next, hloop, hnext⟩
 refine ⟨next, ?_, hnext⟩
 unfold insertFix
 rw [hcell]
 exact hloop

theorem insertFix_empty (hcell : m.cell x = ⟨none, .red, none, none⟩) (hfuel : 0 < fuel) :
  exists next, m.insertFix fuel x = some next ∧ next.Represents (node .black leaf x leaf) := by
 have hholds : m.Holds (node .red leaf x leaf) none := ⟨hcell, trivial, trivial⟩
 rcases insertFixRound_root hholds (nodup_singleton x) rfl with ⟨next, hround, hnext⟩
 rcases Nat.exists_eq_add_of_lt hfuel with ⟨rest, rfl⟩
 refine ⟨next, ?_, hnext⟩
 unfold insertFix
 rw [hcell]
 change loop insertFixRound (0 + rest + 1) (x, none, m) = _
 exact loop_done hround

variable (h : m.Represents t) (hx : x ∉ t.nodes) (hfuel : t.nodes.card < fuel)
include h hx hfuel

theorem rbInsert_taken (hlocate : locate cmp x t [] = .taken y) :
  m.rbInsert cmp fuel x = some (-1, m.clear x) := by
 have hleaf : t ≠ leaf := by
  rintro rfl
  cases hlocate
 have hloop := insertRound_loop cmp x [] (h.clear hx).holds hleaf hfuel
 rw [hlocate] at hloop
 unfold rbInsert
 rw [h.root, hloop]
 rfl

theorem rbInsert_vacant (hlocate : locate cmp x t [] = .vacant q)
  (hfix : Path.insertFix q (node .red leaf x leaf) = some u) :
  exists next, m.rbInsert cmp fuel x = some (0, next) ∧ next.Represents u := by
 have hcleared : (m.clear x).cell x = ⟨none, .red, none, none⟩ := cell_update_self
 -- The search has ended, and the repair follows.
 have hrest : forall (searched : RbMemory ptr),
  loop (insertRound cmp x) fuel (t.root, m.clear x) = some (false, searched) ->
  (exists next, searched.insertFix fuel x = some next ∧ next.Represents u) ->
  exists next, m.rbInsert cmp fuel x = some (0, next) ∧ next.Represents u := by
  rintro searched hloop ⟨next, hrepair, hnext⟩
  refine ⟨next, ?_, hnext⟩
  unfold rbInsert
  rw [h.root, hloop]
  change (searched.insertFix fuel x).bind _ = _
  rw [hrepair]
  rfl
 have hplug : plug q leaf = t := (locate_vacant hlocate).left
 cases q with
 | nil =>
  rw [← hplug] at hrest hfuel
  cases hfix
  rcases Nat.exists_eq_add_of_lt hfuel with ⟨rest, hrestfuel⟩
  apply hrest (m.clear x)
  · rw [hrestfuel]
    exact loop_done rfl
  · exact insertFix_empty hcleared (Nat.lt_of_le_of_lt (Nat.zero_le _) hfuel)
 | cons f p =>
  have hleaf : t ≠ leaf := by
   rintro rfl
   cases hlocate
  have hloop := insertRound_loop cmp x [] (h.clear hx).holds hleaf hfuel
  rw [hlocate] at hloop
  apply hrest _ hloop
  rw [← hplug] at h hx hfuel
  apply insertFix_linked ((h.clear hx).linked hx hcleared) hfix
  have hlength := Path.length_le_card (f :: p)
  rw [Path.nodes_plug, nodes_leaf, Multiset.add_zero] at hfuel
  exact Nat.lt_of_le_of_lt hlength hfuel

end Functions

end RbMemory
end OSLab.Common
