import Mathlib.Data.Multiset.UnionInter

/-!
# Coloured binary trees

Binary trees with a colour at every node, and the paths that lead from a subtree up
to the root.  The children of a node can be named from either side, so that one
definition serves for a case and for its mirror image.
-/

namespace OSLab.Foundation
variable {label : Type}

inductive Side where
 | left
 | right
deriving DecidableEq

namespace Side

def other : Side -> Side
 | left => right
 | right => left

@[simp] theorem other_other (s : Side) : s.other.other = s := by
 cases s <;> rfl

theorem eq_other_of_ne {s t : Side} (h : s ≠ t) : s = t.other := by
 cases s <;> cases t <;> first | rfl | exact absurd rfl h

end Side

inductive Color where
 | red
 | black
deriving DecidableEq

theorem Color.eq_red_of_ne_black {c : Color} (h : c ≠ .black) : c = .red := by
 cases c with
 | red => rfl
 | black => exact absurd rfl h

inductive ColorTree (label : Type) where
 | leaf
 | node (color : Color) (left : ColorTree label) (x : label) (right : ColorTree label)
deriving DecidableEq

namespace ColorTree

def branch (side : Side) (color : Color) (near : ColorTree label) (x : label)
  (far : ColorTree label) : ColorTree label :=
 match side with
 | .left => node color near x far
 | .right => node color far x near

def split (side : Side) :
  ColorTree label -> Option (Color × ColorTree label × label × ColorTree label)
 | leaf => none
 | node color left x right =>
  match side with
  | .left => some (color, left, x, right)
  | .right => some (color, right, x, left)

def root : ColorTree label -> Option label
 | leaf => none
 | node _ _ x _ => some x

def isRed : ColorTree label -> Bool
 | leaf => false
 | node color _ _ _ => decide (color = .red)

def paint (color : Color) : ColorTree label -> ColorTree label
 | leaf => leaf
 | node _ left x right => node color left x right

def toList : ColorTree label -> List label
 | leaf => []
 | node _ left x right => left.toList ++ x :: right.toList

def nodes : ColorTree label -> Multiset label
 | leaf => 0
 | node _ left x right => x ::ₘ (left.nodes + right.nodes)

theorem coe_toList (t : ColorTree label) : (t.toList : Multiset label) = t.nodes := by
 induction t with
 | leaf => rfl
 | node color left x right ihl ihr =>
  change ((left.toList ++ x :: right.toList : List label) : Multiset label) = _
  rw [← Multiset.coe_add, ← Multiset.cons_coe, ihl, ihr, Multiset.add_cons]
  rfl

variable {t : ColorTree label}

theorem mem_toList {x : label} : x ∈ t.toList ↔ x ∈ t.nodes := by
 rw [← coe_toList, Multiset.mem_coe]

theorem nodup_toList : t.toList.Nodup ↔ t.nodes.Nodup := by
 rw [← coe_toList, Multiset.coe_nodup]

theorem card_nodes (t : ColorTree label) : t.nodes.card = t.toList.length := by
 rw [← coe_toList, Multiset.coe_card]

/-!
# Nodes from one side
-/

section Branch
variable {side : Side} {color : Color} {near far : ColorTree label} {x : label}

@[simp] theorem nodes_leaf : (leaf : ColorTree label).nodes = 0 := rfl

@[simp] theorem root_branch : (branch side color near x far).root = some x := by
 cases side <;> rfl

@[simp] theorem isRed_branch :
  (branch side color near x far).isRed = decide (color = .red) := by
 cases side <;> rfl

@[simp] theorem paint_branch {c : Color} :
  (branch side color near x far).paint c = branch side c near x far := by
 cases side <;> rfl

@[simp] theorem nodes_branch :
  (branch side color near x far).nodes = x ::ₘ (near.nodes + far.nodes) := by
 cases side with
 | left => rfl
 | right =>
  change x ::ₘ (far.nodes + near.nodes) = _
  rw [Multiset.add_comm]

@[simp] theorem split_branch :
  (branch side color near x far).split side = some (color, near, x, far) := by
 cases side <;> rfl

theorem branch_other : branch side.other color near x far = branch side color far x near := by
 cases side <;> rfl

theorem split_eq_some {t : ColorTree label}
  (h : t.split side = some (color, near, x, far)) : t = branch side color near x far := by
 cases t with
 | leaf => cases h
 | node c l y r => cases side <;> cases h <;> rfl

end Branch

@[simp] theorem root_paint {t : ColorTree label} {c : Color} : (t.paint c).root = t.root := by
 cases t <;> rfl

@[simp] theorem nodes_paint {t : ColorTree label} {c : Color} :
  (t.paint c).nodes = t.nodes := by
 cases t <;> rfl

@[simp] theorem toList_paint {t : ColorTree label} {c : Color} :
  (t.paint c).toList = t.toList := by
 cases t <;> rfl

theorem root_mem {x : label} (h : t.root = some x) : x ∈ t.nodes := by
 cases t with
 | leaf => cases h
 | node c l y r =>
  cases h
  exact Multiset.mem_cons_self x _

theorem root_of_ne_leaf (h : t ≠ leaf) : exists x, t.root = some x := by
 cases t with
 | leaf => exact absurd rfl h
 | node c l y r => exact ⟨y, rfl⟩

theorem root_of_isRed (h : t.isRed) : exists x, t.root = some x := by
 apply root_of_ne_leaf
 rintro rfl
 cases h

end ColorTree

open ColorTree

/-!
# Paths

A turn is a node with one of its children left out; a path lists the turns from the
place that was left out up to the root.
-/

structure Turn (label : Type) where
 side : Side
 color : Color
 x : label
 sibling : ColorTree label
deriving DecidableEq

abbrev Path (label : Type) := List (Turn label)

namespace Path

def plug : Path label -> ColorTree label -> ColorTree label
 | [], t => t
 | f :: p, t => plug p (branch f.side f.color t f.x f.sibling)

def top (above : Option label) : Path label -> Option label
 | [] => above
 | f :: _ => some f.x

@[simp] theorem top_cons {above : Option label} {f : Turn label} {p : Path label} :
    top above (f :: p) = some f.x := rfl

def nodes : Path label -> Multiset label
 | [] => 0
 | f :: p => f.x ::ₘ (f.sibling.nodes + nodes p)

def before : Path label -> List label
 | [] => []
 | f :: p =>
  match f.side with
  | .left => before p
  | .right => before p ++ (f.sibling.toList ++ [f.x])

def after : Path label -> List label
 | [] => []
 | f :: p =>
  match f.side with
  | .left => f.x :: f.sibling.toList ++ after p
  | .right => after p

variable (p : Path label)

theorem toList_plug (t : ColorTree label) :
  (plug p t).toList = before p ++ t.toList ++ after p := by
 induction p generalizing t with
 | nil => simp [plug, before, after]
 | cons f p ih =>
  rcases f with ⟨side, color, x, sibling⟩
  change (plug p _).toList = _
  rw [ih]
  cases side <;> simp [branch, toList, before, after]

theorem toList_plug_congr {p : Path label} {t u : ColorTree label}
  (h : t.toList = u.toList) : (plug p t).toList = (plug p u).toList := by
 rw [toList_plug, toList_plug, h]

theorem nodes_plug (t : ColorTree label) : (plug p t).nodes = nodes p + t.nodes := by
 induction p generalizing t with
 | nil => exact (Multiset.zero_add _).symm
 | cons f p ih =>
  change (plug p _).nodes = f.x ::ₘ (f.sibling.nodes + nodes p) + t.nodes
  rw [ih, nodes_branch, Multiset.add_cons, Multiset.cons_add]
  congr 1
  rw [Multiset.add_comm t.nodes, ← Multiset.add_assoc, Multiset.add_comm (nodes p)]

theorem plug_append (q p : Path label) (t : ColorTree label) :
  plug (q ++ p) t = plug p (plug q t) := by
 induction q generalizing t with
 | nil => rfl
 | cons f q ih => exact ih _

theorem nodes_append (q p : Path label) : nodes (q ++ p) = nodes q + nodes p := by
 induction q with
 | nil => exact (Multiset.zero_add _).symm
 | cons f q ih =>
  change f.x ::ₘ (f.sibling.nodes + nodes (q ++ p)) = f.x ::ₘ (f.sibling.nodes + nodes q) + _
  rw [ih, Multiset.cons_add, Multiset.add_assoc]

theorem top_append (above : Option label) (q p : Path label) :
  top above (q ++ p) = top (top above p) q := by
 cases q with
 | nil | cons f q => rfl

theorem length_le_card : p.length ≤ (nodes p).card := by
 induction p with
 | nil => exact Nat.zero_le _
 | cons f p ih =>
  change p.length + 1 ≤ Multiset.card (f.x ::ₘ (f.sibling.nodes + nodes p))
  rw [Multiset.card_cons, Multiset.card_add]
  omega

end Path

/-!
# Red-black trees
-/

/-- A red-black tree with the colour of its root and its number of black nodes on a path. -/
inductive RedBlack {label : Type} : ColorTree label -> Color -> Nat -> Prop where
 | leaf : RedBlack leaf .black 0
 | red {left right : ColorTree label} {x : label} {n : Nat} :
  RedBlack left .black n -> RedBlack right .black n ->
  RedBlack (node .red left x right) .red n
 | black {left right : ColorTree label} {x : label} {n : Nat} {cl cr : Color} :
  RedBlack left cl n -> RedBlack right cr n ->
  RedBlack (node .black left x right) .black (n + 1)

namespace RedBlack
variable {t near far : ColorTree label} {side : Side} {x : label}
 {c cl cr : Color} {n : Nat}

theorem red_branch (hnear : RedBlack near .black n) (hfar : RedBlack far .black n) :
  RedBlack (branch side .red near x far) .red n := by
 cases side with
 | left => exact red hnear hfar
 | right => exact red hfar hnear

theorem black_branch (hnear : RedBlack near cl n) (hfar : RedBlack far cr n) :
  RedBlack (branch side .black near x far) .black (n + 1) := by
 cases side with
 | left => exact black hnear hfar
 | right => exact black hfar hnear

theorem of_red_branch (h : RedBlack (branch side .red near x far) c n) :
  c = .red ∧ RedBlack near .black n ∧ RedBlack far .black n := by
 cases side with
 | left =>
  cases h with
  | red hl hr => exact ⟨rfl, hl, hr⟩
 | right =>
  cases h with
  | red hl hr => exact ⟨rfl, hr, hl⟩

theorem of_black_branch (h : RedBlack (branch side .black near x far) c n) :
  c = .black ∧ exists k cl cr, n = k + 1 ∧ RedBlack near cl k ∧ RedBlack far cr k := by
 cases side with
 | left =>
  cases h with
  | black hl hr => exact ⟨rfl, _, _, _, rfl, hl, hr⟩
 | right =>
  cases h with
  | black hl hr => exact ⟨rfl, _, _, _, rfl, hr, hl⟩

theorem isRed_of_red (h : RedBlack t .red n) : t.isRed := by
 cases h with
 | red => rfl

theorem isRed_of_black (h : RedBlack t .black n) : t.isRed = false := by
 cases h with
 | leaf | black => rfl

theorem paint_black (h : RedBlack t .black n) : t.paint .black = t := by
 cases h with
 | leaf | black => rfl

theorem paint_red (h : RedBlack t .red n) : RedBlack (t.paint .black) .black (n + 1) := by
 cases h with
 | red hl hr => exact black hl hr

end RedBlack

/-!
# The two rules

The rules of red-black trees in the usual words.
-/

namespace ColorTree

def NoRedRed : ColorTree label -> Prop
 | leaf => True
 | node color left _ right =>
  (color = .red -> left.isRed = false ∧ right.isRed = false) ∧ left.NoRedRed ∧ right.NoRedRed

def blackCounts : ColorTree label -> List Nat
 | leaf => [0]
 | node .red left _ right => left.blackCounts ++ right.blackCounts
 | node .black left _ right => (left.blackCounts ++ right.blackCounts).map Nat.succ

end ColorTree

namespace RedBlack
variable {t : ColorTree label} {c : Color} {n : Nat}

theorem noRedRed (h : RedBlack t c n) : t.NoRedRed := by
 induction h with
 | leaf => trivial
 | red hl hr ihl ihr => exact ⟨fun _ => ⟨hl.isRed_of_black, hr.isRed_of_black⟩, ihl, ihr⟩
 | black _ _ ihl ihr => exact ⟨fun hred => Color.noConfusion hred, ihl, ihr⟩

theorem blackCounts_eq (h : RedBlack t c n) : forall b, b ∈ t.blackCounts -> b = n := by
 induction h with
 | leaf =>
  intro b hb
  exact List.mem_singleton.mp hb
 | red _ _ ihl ihr =>
  intro b hb
  rcases List.mem_append.mp hb with hb | hb
  · exact ihl b hb
  · exact ihr b hb
 | black _ _ ihl ihr =>
  intro b hb
  rcases List.mem_map.mp hb with ⟨b', hb', rfl⟩
  rcases List.mem_append.mp hb' with hb' | hb'
  · rw [ihl b' hb']
  · rw [ihr b' hb']

end RedBlack

/--
The path belongs to a red-black tree with a black root, in which the place left out
may be taken by a tree with a root of this colour and this number of black nodes.
-/
inductive Path.Balanced {label : Type} : Path label -> Color -> Nat -> Prop where
 | nil {n : Nat} : Path.Balanced [] .black n
 | red {side : Side} {x : label} {sibling : ColorTree label} {p : Path label} {n : Nat} :
  RedBlack sibling .black n -> Path.Balanced p .red n ->
  Path.Balanced (⟨side, .red, x, sibling⟩ :: p) .black n
 | black {side : Side} {x : label} {sibling : ColorTree label} {p : Path label} {n : Nat}
  {c d : Color} :
  RedBlack sibling c n -> Path.Balanced p .black (n + 1) ->
  Path.Balanced (⟨side, .black, x, sibling⟩ :: p) d n

namespace Path
variable {p : Path label} {t : ColorTree label} {c : Color} {n : Nat}

theorem Balanced.black_of_red (h : Balanced p .red n) : Balanced p .black n := by
 cases h with
 | black hsibling hp => exact Balanced.black hsibling hp

theorem Balanced.plug (h : Balanced p c n) (ht : RedBlack t c n) :
  exists k, RedBlack (plug p t) .black k := by
 induction h generalizing t with
 | nil => exact ⟨_, ht⟩
 | red hsibling _ ih => exact ih (RedBlack.red_branch ht hsibling)
 | black hsibling _ ih => exact ih (RedBlack.black_branch ht hsibling)

theorem balanced_of_plug {k : Nat} (h : RedBlack (Path.plug p t) .black k) :
  exists c n, Balanced p c n ∧ RedBlack t c n := by
 induction p generalizing t with
 | nil => exact ⟨_, _, Balanced.nil, h⟩
 | cons f p ih =>
  rcases f with ⟨side, color, x, sibling⟩
  rcases ih h with ⟨c, n, hp, ht⟩
  cases color with
  | red =>
   rcases ht.of_red_branch with ⟨rfl, hnear, hfar⟩
   exact ⟨_, _, Balanced.red hfar hp, hnear⟩
  | black =>
   rcases ht.of_black_branch with ⟨rfl, n, cl, cr, rfl, hnear, hfar⟩
   exact ⟨_, _, Balanced.black hfar hp, hnear⟩

theorem Balanced.relabel {q : Path label} {side : Side} {color : Color} {x : label} (y : label)
  {sibling : ColorTree label} (h : Balanced (q ++ ⟨side, color, x, sibling⟩ :: p) c n) :
  Balanced (q ++ ⟨side, color, y, sibling⟩ :: p) c n := by
 induction q generalizing c n with
 | nil =>
  cases h with
  | red hsibling hp => exact Balanced.red hsibling hp
  | black hsibling hp => exact Balanced.black hsibling hp
 | cons f q ih =>
  cases h with
  | red hsibling hp => exact Balanced.red hsibling (ih hp)
  | black hsibling hp => exact Balanced.black hsibling (ih hp)

end OSLab.Foundation.Path
