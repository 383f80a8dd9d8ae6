import OSLab.Common.RbTree
import OSLab.Foundation.SearchTree

/-!
# What the memory represents

The nodes in memory form a tree: every node of it has the colour, the children and
the parent that the tree gives it.  While a repair works on one place, the path above
the place and the subtrees around it are looked at separately; a write to a node
leaves every part alone that the node does not belong to.
-/

namespace OSLab.Common
open Foundation ColorTree Path Multiset RbNode
namespace RbNode
variable {ptr : Type}

def branch (side : Side) (parent : Option ptr) (color : Color) (near far : Option ptr) :
  RbNode ptr :=
 match side with
 | .left => ⟨parent, color, far, near⟩
 | .right => ⟨parent, color, near, far⟩

section Branch
variable {side : Side} {parent near far v : Option ptr} {color c : Color}

@[simp] theorem parent_branch : (branch side parent color near far).parent = parent := by
 cases side <;> rfl

@[simp] theorem color_branch : (branch side parent color near far).color = color := by
 cases side <;> rfl

@[simp] theorem child_branch : (branch side parent color near far).child side = near := by
 cases side <;> rfl

@[simp] theorem child_other_branch :
  (branch side parent color near far).child side.other = far := by
 cases side <;> rfl

@[simp] theorem setChild_branch :
  (branch side parent color near far).setChild side v = branch side parent color v far := by
 cases side <;> rfl

@[simp] theorem setChild_other_branch :
  (branch side parent color near far).setChild side.other v = branch side parent color near v := by
 cases side <;> rfl

theorem branch_other :
  branch side.other parent color near far = branch side parent color far near := by
 cases side <;> rfl

@[simp] theorem setBlack_branch :
  (branch side parent color near far).setBlack = branch side parent .black near far := by
 cases side <;> rfl

@[simp] theorem setParent_branch :
  (branch side parent color near far).setParent v = branch side v color near far := by
 cases side <;> rfl

@[simp] theorem setParentColor_branch :
  (branch side parent color near far).setParentColor v c = branch side v c near far := by
 cases side <;> rfl

@[simp] theorem redParent_branch :
  (branch side parent .red near far).redParent = some parent := by
 cases side <;> rfl

end Branch

end RbNode

namespace RbMemory
variable {ptr : Type}

def Holds (m : RbMemory ptr) : ColorTree ptr -> Option ptr -> Prop
 | .leaf, _ => True
 | .node c left x right, parent =>
  m.cell x = ⟨parent, c, right.root, left.root⟩ ∧ Holds m left (some x) ∧ Holds m right (some x)

/--
The path is in memory, from the pointer `hole` at its lower end to the pointer
`start` to its upper end, which has the parent `above`.
-/
def HoldsPath (m : RbMemory ptr) (above start : Option ptr) : Path ptr -> Option ptr -> Prop
 | [], hole => start = hole
 | f :: p, hole =>
  m.cell f.x = branch f.side (top above p) f.color hole f.sibling.root ∧
   Holds m f.sibling (some f.x) ∧ HoldsPath m above start p (some f.x)

structure Represents (m : RbMemory ptr) (t : ColorTree ptr) : Prop where
 root : m.root = t.root
 holds : m.Holds t none
 nodup : t.nodes.Nodup

section Holds
variable {m next : RbMemory ptr} {t : ColorTree ptr} {p : Path ptr}
 {above start hole parent : Option ptr}

@[simp] theorem holds_branch {side : Side} {c : Color} {near far : ColorTree ptr} {x : ptr} :
  m.Holds (branch side c near x far) parent ↔
    m.cell x = branch side parent c near.root far.root ∧
      m.Holds near (some x) ∧ m.Holds far (some x) := by
 cases side with
 | left => rfl
 | right =>
  change (_ ∧ _ ∧ _) ↔ _
  rw [and_comm (a := m.Holds near (some x))]
  rfl

theorem Holds.congr (h : m.Holds t parent)
  (hsame : forall w, w ∈ t.nodes -> next.cell w = m.cell w) : next.Holds t parent := by
 induction t generalizing parent with
 | leaf => trivial
 | node c left x right ihl ihr =>
  refine ⟨?_, ihl h.right.left ?_, ihr h.right.right ?_⟩
  · rw [hsame x (mem_cons_self x _)]
    exact h.left
  · intro w hw
    exact hsame w (mem_cons_of_mem (mem_add.mpr (.inl hw)))
  intro w hw
  exact hsame w (mem_cons_of_mem (mem_add.mpr (.inr hw)))

theorem HoldsPath.congr (h : m.HoldsPath above start p hole)
  (hsame : forall w, w ∈ nodes p -> next.cell w = m.cell w) :
  next.HoldsPath above start p hole := by
 induction p generalizing hole with
 | nil => exact h
 | cons f p ih =>
  refine ⟨?_, h.right.left.congr ?_, ih h.right.right ?_⟩
  · rw [hsame f.x (mem_cons_self _ _)]
    exact h.left
  · intro w hw
    exact hsame w (mem_cons_of_mem (mem_add.mpr (.inl hw)))
  intro w hw
  exact hsame w (mem_cons_of_mem (mem_add.mpr (.inr hw)))

theorem holds_plug : m.Holds (plug p t) above ↔
    m.HoldsPath above (plug p t).root p t.root ∧ m.Holds t (top above p) := by
 induction p generalizing t with
 | nil =>
  constructor
  · intro h
    exact ⟨rfl, h⟩
  · intro h
    exact h.right
 | cons f p ih =>
  change m.Holds (plug p (branch f.side f.color t f.x f.sibling)) above ↔ _
  rw [ih, root_branch, holds_branch]
  constructor
  · rintro ⟨hpath, hcell, ht, hsibling⟩
    exact ⟨⟨hcell, hsibling, hpath⟩, ht⟩
  · rintro ⟨⟨hcell, hsibling, hpath⟩, ht⟩
    exact ⟨hpath, hcell, ht, hsibling⟩

theorem Holds.isRed_root (h : m.Holds t parent) : m.isRed t.root = t.isRed := by
 cases t with
 | leaf => rfl
 | node c left x right =>
  change decide ((m.cell x).color = .red) = decide (c = .red)
  rw [h.left]

theorem HoldsPath.start_eq (h : m.HoldsPath above start p t.root) : start = (plug p t).root := by
 induction p generalizing t with
 | nil => exact h
 | cons f p ih =>
  apply ih
  rw [root_branch]
  exact h.right.right

theorem HoldsPath.start_mem {x : ptr} {g : Turn ptr}
  (h : m.HoldsPath above (some x) (g :: p) hole) : x ∈ nodes (g :: p) := by
 induction p generalizing g hole with
 | nil =>
  cases h.right.right
  exact mem_cons_self _ _
 | cons f p ih => exact mem_cons_of_mem (mem_add.mpr (.inr (ih h.right.right)))

theorem holdsPath_append {q : Path ptr} : m.HoldsPath above start (q ++ p) hole ↔
    exists mid, m.HoldsPath (top above p) mid q hole ∧ m.HoldsPath above start p mid := by
 induction q generalizing hole with
 | nil =>
  constructor
  · intro h
    exact ⟨hole, rfl, h⟩
  · rintro ⟨mid, rfl, h⟩
    exact h
 | cons f q ih =>
  constructor
  · rintro ⟨hcell, hsibling, hrest⟩
    rcases ih.mp hrest with ⟨mid, hq, hp⟩
    change m.cell f.x = branch f.side (top above (q ++ p)) _ _ _ at hcell
    rw [top_append] at hcell
    exact ⟨mid, ⟨hcell, hsibling, hq⟩, hp⟩
  rintro ⟨mid, ⟨hcell, hsibling, hq⟩, hp⟩
  rw [← top_append] at hcell
  exact ⟨hcell, hsibling, ih.mpr ⟨mid, hq, hp⟩⟩

theorem represents_plug : m.Represents (plug p t) ↔
    m.HoldsPath none m.root p t.root ∧ m.Holds t (top none p) ∧
      (nodes p + t.nodes).Nodup := by
 constructor
 · rintro ⟨hroot, hholds, hnodup⟩
   rw [holds_plug, ← hroot] at hholds
   rw [nodes_plug] at hnodup
   exact ⟨hholds.left, hholds.right, hnodup⟩
 rintro ⟨hpath, ht, hnodup⟩
 have hroot : m.root = (plug p t).root := hpath.start_eq
 refine ⟨hroot, ?_, ?_⟩
 · rw [holds_plug, ← hroot]
   exact ⟨hpath, ht⟩
 rw [nodes_plug]
 exact hnodup

theorem Represents.rearranged {s : ColorTree ptr} (h : m.Represents (plug p s))
  (hlist : t.toList = s.toList) (hpath : next.HoldsPath none next.root p t.root)
  (ht : next.Holds t (top none p)) : next.Represents (plug p t) := by
 rw [represents_plug]
 refine ⟨hpath, ht, ?_⟩
 rw [← nodes_plug, ← nodup_toList, toList_plug_congr hlist, nodup_toList]
 exact h.nodup

end Holds

/-!
# Writes
-/

section Writes
variable [DecidableEq ptr] {m : RbMemory ptr} {x w old new : ptr}
 {f : RbNode ptr -> RbNode ptr} {t : ColorTree ptr} {p : Path ptr}
 {above start hole parent : Option ptr} {c color : Color}

@[simp] theorem cell_update_self : (m.update x f).cell x = f (m.cell x) :=
 Function.update_self x _ _

theorem cell_update_of_ne (h : w ≠ x) : (m.update x f).cell w = m.cell w :=
 Function.update_of_ne h _ _

theorem Holds.update (h : m.Holds t parent) (hx : x ∉ t.nodes) : (m.update x f).Holds t parent := by
 apply h.congr
 intro w hw
 apply cell_update_of_ne
 rintro rfl
 exact hx hw

theorem HoldsPath.update (h : m.HoldsPath above start p hole) (hx : x ∉ nodes p) :
  (m.update x f).HoldsPath above start p hole := by
 apply h.congr
 intro w hw
 apply cell_update_of_ne
 rintro rfl
 exact hx hw

def updateRoot (t : ColorTree ptr) (f : RbNode ptr -> RbNode ptr) (m : RbMemory ptr) :
  RbMemory ptr :=
 m.guarded t.root (fun x => RbMemory.update x f)

@[simp] theorem root_updateRoot : (m.updateRoot t f).root = m.root := by
 cases t <;> rfl

theorem cell_updateRoot (h : w ∉ t.nodes) : (m.updateRoot t f).cell w = m.cell w := by
 cases t with
 | leaf => rfl
 | node c left x right =>
  apply cell_update_of_ne
  rintro rfl
  exact h (mem_cons_self _ _)

section
variable (h : m.Holds t parent) (hnodup : t.nodes.Nodup)
include h hnodup

theorem Holds.setParentColor_root
  (q : Option ptr) : (m.updateRoot t (RbNode.setParentColor q c)).Holds (t.paint c) q := by
 cases t with
 | leaf => trivial
 | node d left x right =>
  rcases nodup_cons.mp hnodup with ⟨hx, _⟩
  rw [mem_add, not_or] at hx
  refine ⟨?_, h.right.left.update hx.left, h.right.right.update hx.right⟩
  change (m.update x _).cell x = _
  rw [cell_update_self, h.left]
  rfl

theorem Holds.setParent_root
  (q : Option ptr) : (m.updateRoot t (RbNode.setParent q)).Holds t q := by
 cases t with
 | leaf => trivial
 | node d left x right =>
  rcases nodup_cons.mp hnodup with ⟨hx, _⟩
  rw [mem_add, not_or] at hx
  refine ⟨?_, h.right.left.update hx.left, h.right.right.update hx.right⟩
  change (m.update x _).cell x = _
  rw [cell_update_self, h.left]
  rfl
end

variable {v : Option ptr}

theorem HoldsPath.setHole {g : Turn ptr}
  (h : m.HoldsPath above start (g :: p) hole) (hsibling : g.x ∉ g.sibling.nodes)
  (hp : g.x ∉ nodes p) :
  (m.setChild g.x g.side v).HoldsPath above start (g :: p) v := by
 refine ⟨?_, h.right.left.update hsibling, h.right.right.update hp⟩
 change (m.update g.x _).cell g.x = _
 rw [cell_update_self, h.left, setChild_branch]

theorem HoldsPath.setAbove {g : Turn ptr}
  (h : m.HoldsPath above (some x) (g :: p) hole) (hnodup : (nodes (g :: p)).Nodup) :
  (m.setParent x v).HoldsPath v (some x) (g :: p) hole := by
 induction p generalizing g hole with
 | nil =>
  rcases h with ⟨hcell, hsibling, ⟨⟩⟩
  rcases nodup_cons.mp hnodup with ⟨hg, _⟩
  refine ⟨?_, hsibling.update (fun hmem => hg (mem_add.mpr (.inl hmem))), rfl⟩
  change (m.update g.x _).cell g.x = _
  rw [cell_update_self, hcell, setParent_branch]
  rfl
 | cons f p ih =>
  rcases h with ⟨hcell, hsibling, hrest⟩
  rcases nodup_cons.mp hnodup with ⟨hg, hnodup'⟩
  have hx : x ∈ nodes (f :: p) := hrest.start_mem
  have hne : g.x ≠ x := by
   rintro rfl
   exact hg (mem_add.mpr (.inr hx))
  have hdisjoint := (nodup_add.mp hnodup').right.right
  refine ⟨?_, hsibling.update ?_, ih hrest (nodup_add.mp hnodup').right.left⟩
  · exact (cell_update_of_ne hne).trans hcell
  intro hmem
  exact disjoint_left.mp hdisjoint hmem hx

theorem changeChild_spec (hpath : m.HoldsPath none m.root p (some old))
  (hold : old ∉ nodes p) (hnodup : (nodes p).Nodup) :
  (m.changeChild old v (top none p)).HoldsPath none
      (m.changeChild old v (top none p)).root p v ∧
    forall w, w ∉ nodes p -> (m.changeChild old v (top none p)).cell w = m.cell w := by
 cases p with
 | nil => exact ⟨rfl, fun w _ => rfl⟩
 | cons f p =>
  rcases f with ⟨side, color, x, sibling⟩
  rcases hpath with ⟨hcell, hsibling, hrest⟩
  rcases nodup_cons.mp hnodup with ⟨hx, _⟩
  rw [mem_add, not_or] at hx
  have hchange : m.changeChild old v (some x) = m.setChild x side v := by
   change (if (m.cell x).left = some old then _ else _) = _
   rw [hcell]
   cases side with
   | left => exact if_pos rfl
   | right =>
    apply if_neg
    intro hroot
    exact hold (mem_cons_of_mem (mem_add.mpr (.inl (root_mem hroot))))
  rw [top, hchange]
  refine ⟨⟨?_, hsibling.update hx.left, hrest.update hx.right⟩, ?_⟩
  · change (m.update x _).cell x = _
    rw [cell_update_self, hcell, setChild_branch]
  intro w hw
  apply cell_update_of_ne
  rintro rfl
  exact hw (mem_cons_self _ _)

theorem rotateSetParents_spec (color : Color) (hpath : m.HoldsPath none m.root p (some old))
  (hparent : (m.cell old).parent = top none p) (hne : new ≠ old)
  (hold : old ∉ nodes p) (hnew : new ∉ nodes p) (hnodup : (nodes p).Nodup) :
  (m.rotateSetParents old new color).HoldsPath none
      (m.rotateSetParents old new color).root p (some new) ∧
    (m.rotateSetParents old new color).cell new =
      (m.cell new).setParentColor (top none p) (m.cell old).color ∧
    (m.rotateSetParents old new color).cell old = (m.cell old).setParentColor (some new) color ∧
    forall w, w ∉ nodes p -> w ≠ old -> w ≠ new ->
      (m.rotateSetParents old new color).cell w = m.cell w := by
 let words := (m.setParentColor new (m.cell old).parent (m.cell old).color).setParentColor
  old (some new) color
 have hrotate : m.rotateSetParents old new color =
  words.changeChild old (some new) (top none p) := by
  rw [← hparent]
  rfl
 have hwords : words.HoldsPath none words.root p (some old) := (hpath.update hnew).update hold
 rcases changeChild_spec hwords hold hnodup (v := some new) with ⟨hchanged, hsame⟩
 rw [hrotate]
 refine ⟨hchanged, ?_, ?_, ?_⟩
 · rw [hsame new hnew]
   change ((m.update new _).update old _).cell new = _
   rw [cell_update_of_ne hne, cell_update_self, hparent]
 · rw [hsame old hold]
   change ((m.update new _).update old _).cell old = _
   rw [cell_update_self, cell_update_of_ne hne.symm]
 intro w hw hwold hwnew
 rw [hsame w hw]
 change ((m.update new _).update old _).cell w = _
 rw [cell_update_of_ne hwold, cell_update_of_ne hwnew]

theorem rotateSetParents_represents {side : Side} {y z : ptr} {d : Color}
  {a b far : ColorTree ptr} {q : Option ptr} (hpath : m.HoldsPath none m.root p (some z))
  (hz : m.cell z = branch side (top none p) c b.root far.root)
  (hy : m.cell y = branch side q d a.root (some z))
  (ha : m.Holds a (some y)) (hb : m.Holds b (some z)) (hfar : m.Holds far (some z))
  (hnodup : (nodes p + (z ::ₘ y ::ₘ (a.nodes + b.nodes + far.nodes))).Nodup) :
  (m.rotateSetParents z y color).Represents (plug p
    (branch side c a y (branch side color b z far))) := by
 have hsep := hnodup
 simp only [nodup_add, nodup_cons, mem_cons, mem_add,
  not_or, disjoint_left] at hsep
 rcases hsep with ⟨hnp, ⟨⟨hzy, ⟨hza, hzb⟩, hzf⟩, ⟨⟨hya, hyb⟩, hyf⟩, _⟩, hps⟩
 have hzp : z ∉ nodes p := fun h => (hps h).left rfl
 have hyp : y ∉ nodes p := fun h => (hps h).right.left rfl
 have hparent : (m.cell z).parent = top none p := by rw [hz, parent_branch]
 rcases rotateSetParents_spec color hpath hparent (Ne.symm hzy) hzp hyp hnp with
  ⟨hpath', hy', hz', hsame⟩
 rw [hz, hy, setParentColor_branch, color_branch] at hy'
 rw [hz, setParentColor_branch] at hz'
 rw [represents_plug]
 refine ⟨?_, ?_, ?_⟩
 · rw [root_branch]
   exact hpath'
 · rw [holds_branch, holds_branch, root_branch]
   refine ⟨hy', ?_, hz', ?_, ?_⟩
   · apply ha.congr
     intro w hw
     exact hsame w (fun h => (hps h).right.right.left.left hw) (fun h => hza (h ▸ hw))
      (fun h => hya (h ▸ hw))
   · apply hb.congr
     intro w hw
     exact hsame w (fun h => (hps h).right.right.left.right hw) (fun h => hzb (h ▸ hw))
      (fun h => hyb (h ▸ hw))
   apply hfar.congr
   intro w hw
   exact hsame w (fun h => (hps h).right.right.right hw) (fun h => hzf (h ▸ hw))
    (fun h => hyf (h ▸ hw))
 have heq : (branch side c a y (branch side color b z far)).nodes =
  z ::ₘ y ::ₘ (a.nodes + b.nodes + far.nodes) := by
  rw [nodes_branch, nodes_branch, Multiset.add_cons, Multiset.cons_swap, Multiset.add_assoc]
 rw [heq]
 exact hnodup

end Writes

end OSLab.Common.RbMemory
