import OSLab.Foundation.ColorTree

/-!
# Repairing red-black trees

Insertion and removal on coloured trees, by repairs that climb a path.  Both have a
point at which the tree may be wrong: after an insertion a red node whose parent may
be red, after a removal a subtree that is one black node short.  A repair has no
result where it would have to look at a node that is not there.
-/

namespace OSLab.Foundation
open ColorTree
variable {label : Type}

namespace Path

/-!
# Repairs after an insertion
-/

/--
One repair of a red node `t` under a red parent, the turn `f`; the turn above it
is `g`.  The result is the new subtree at the place of the grandparent, and whether
its root is again a red node that may stand under a red one.
-/
def repairRed (f g : Turn label) (t : ColorTree label) : Option (Bool × ColorTree label) :=
 if g.sibling.isRed then
  some (true, branch g.side .red (branch f.side .black t f.x f.sibling) g.x
   (g.sibling.paint .black))
 else if f.side = g.side then
  some (false, branch g.side g.color t f.x
   (branch g.side .red (f.sibling.paint .black) g.x g.sibling))
 else
  match t.split g.side with
  | none => none
  | some (_, near, x, far) =>
   some (false, branch g.side g.color (branch g.side .red f.sibling f.x (near.paint .black)) x
    (branch g.side .red (far.paint .black) g.x g.sibling))

def insertFix : Path label -> ColorTree label -> Option (ColorTree label)
 | [], t => some (t.paint .black)
 | [f], t => if f.color = .black then some (plug [f] t) else none
 | f :: g :: p, t =>
  if f.color = .black then
   some (plug (f :: g :: p) t)
  else
   match repairRed f g t with
   | none => none
   | some (true, u) => insertFix p u
   | some (false, u) => some (plug p u)

/-!
# Repairs after a removal
-/

/--
The repair of a subtree `t` that is one black node short and has a black sibling;
the parent `x` is of colour `c`.  The result is the new subtree at the place of the
parent, and whether it is still short.
-/
def settle (side : Side) (c : Color) (x : label) (t sibling : ColorTree label) :
  Option (Bool × ColorTree label) :=
 match sibling.split side with
 | none => none
 | some (_, near, y, far) =>
  if far.isRed then
   some (false, branch side c (branch side .black t x near) y (far.paint .black))
  else if near.isRed then
   match near.split side with
   | none => none
   | some (_, inner, z, outer) =>
    some (false, branch side c (branch side .black t x inner) z
     (branch side .black (outer.paint .black) y far))
  else
   some (decide (c = .black), branch side .black t x (branch side .red near y far))

def repairBlack (f : Turn label) (t : ColorTree label) : Option (Bool × ColorTree label) :=
 match f.sibling.split f.side with
 | none => none
 | some (.red, near, y, far) =>
  match settle f.side .red f.x t (near.paint .black) with
  | none => none
  | some (_, u) => some (false, branch f.side f.color u y far)
 | some (.black, _, _, _) => settle f.side f.color f.x t f.sibling

def eraseFix : Path label -> ColorTree label -> Option (ColorTree label)
 | [], t => some t
 | f :: p, t =>
  match repairBlack f t with
  | none => none
  | some (true, u) => eraseFix p u
  | some (false, u) => some (plug p u)

/-!
# What a repair keeps

The labels stay in their order.
-/

section Order
variable {f g : Turn label} {t u : ColorTree label} {p : Path label} {again : Bool}
 {side : Side} {c : Color} {x : label} {sibling : ColorTree label}

theorem toList_repairRed (h : repairRed f g t = some (again, u)) :
  u.toList = (plug [f, g] t).toList := by
 rcases f with ⟨fside, fcolor, y, fsibling⟩
 rcases g with ⟨gside, gcolor, z, uncle⟩
 unfold repairRed at h
 split at h
 · cases h
   cases fside <;> cases gside <;> simp [plug, branch, toList]
 split at h
 · rename_i _ hside
   change fside = gside at hside
   cases h
   rw [hside]
   cases gside <;> simp [plug, branch, toList]
 rename_i _ hside
 have hother : fside = gside.other := Side.eq_other_of_ne hside
 split at h
 · cases h
 rename_i color near y far hsplit
 cases h
 rw [split_eq_some hsplit, hother]
 cases gside <;> simp [plug, branch, toList, Side.other]

theorem toList_insertFix (h : insertFix p t = some u) : u.toList = (plug p t).toList := by
 induction p, t using insertFix.induct with
 | case1 t =>
  cases h
  exact toList_paint
 | case2 f t hblack | case4 f g p t hblack =>
  rw [insertFix, if_pos hblack] at h
  cases h
  rfl
 | case3 f t hred =>
  rw [insertFix, if_neg hred] at h
  cases h
 | case5 f g p t hred hnone =>
  rw [insertFix, if_neg hred, hnone] at h
  cases h
 | case6 f g p t hred v hsome ih =>
  rw [insertFix, if_neg hred, hsome] at h
  rw [ih h]
  exact toList_plug_congr (toList_repairRed hsome)
 | case7 f g p t hred v hsome =>
  rw [insertFix, if_neg hred, hsome] at h
  cases h
  exact toList_plug_congr (toList_repairRed hsome)

theorem toList_settle (h : settle side c x t sibling = some (again, u)) :
  u.toList = (branch side c t x sibling).toList := by
 unfold settle at h
 split at h
 · cases h
 rename_i color near y far hsplit
 rw [split_eq_some hsplit]
 split at h
 · cases h
   cases side <;> simp [branch, toList]
 split at h
 · split at h
   · cases h
   rename_i _ _ _ inner z outer hinner
   cases h
   rw [split_eq_some hinner]
   cases side <;> simp [branch, toList]
 cases h
 cases side <;> simp [branch, toList]

theorem toList_branch_congr {near near' far : ColorTree label}
  (h : near.toList = near'.toList) {d : Color} :
  (branch side c near x far).toList = (branch side d near' x far).toList := by
 cases side <;> simp [branch, toList, h]

theorem toList_repairBlack (h : repairBlack f t = some (again, u)) :
  u.toList = (plug [f] t).toList := by
 rcases f with ⟨side, c, x, sibling⟩
 unfold repairBlack at h
 split at h
 · cases h
 · rename_i near y far hsplit
   split at h
   · cases h
   rename_i _ v hsettle
   cases h
   change _ = (branch side c t x sibling).toList
   have hsibling : sibling = branch side .red near y far := split_eq_some hsplit
   rw [toList_branch_congr (toList_settle hsettle) (d := c), hsibling]
   cases side <;> simp [branch, toList]
 · exact toList_settle h

theorem toList_eraseFix (h : eraseFix p t = some u) : u.toList = (plug p t).toList := by
 induction p generalizing t with
 | nil =>
  cases h
  rfl
 | cons f p ih =>
  unfold eraseFix at h
  split at h
  · cases h
  · rename_i v hsome
    rw [ih h]
    exact toList_plug_congr (toList_repairBlack hsome)
  rename_i v hsome
  cases h
  exact toList_plug_congr (toList_repairBlack hsome)

theorem settle_red (h : settle side .red x t sibling = some (again, u)) : again = false := by
 unfold settle at h
 split at h
 · cases h
 split at h
 · cases h
   rfl
 split at h
 · split at h
   · cases h
   cases h
   rfl
 cases h
 rfl

theorem sibling_of_repairBlack (h : repairBlack f t = some (again, u)) : f.sibling ≠ leaf := by
 intro hleaf
 unfold repairBlack at h
 rw [hleaf] at h
 cases h

end Order

/-!
# Balance
-/

section Balance
variable {p : Path label} {t sibling : ColorTree label} {n : Nat} {side : Side} {c : Color}
 {x : label}

theorem split_of_red {s : Side} (h : RedBlack t .red n) :
  exists near x far, t = branch s .red near x far ∧
    RedBlack near .black n ∧ RedBlack far .black n := by
 cases h with
 | red hl hr =>
  cases s with
  | left => exact ⟨_, _, _, rfl, hl, hr⟩
  | right => exact ⟨_, _, _, rfl, hr, hl⟩

theorem split_of_black {s : Side} (h : RedBlack t .black (n + 1)) :
  exists near x far cl cr, t = branch s .black near x far ∧
    RedBlack near cl n ∧ RedBlack far cr n := by
 cases h with
 | black hl hr =>
  cases s with
  | left => exact ⟨_, _, _, _, _, rfl, hl, hr⟩
  | right => exact ⟨_, _, _, _, _, rfl, hr, hl⟩

/--
A red node under a red parent: the grandparent exists and is black, and what
stands there afterwards is either red and to be looked at again, or black.
-/
theorem repairRed_balanced {f g : Turn label} (hp : Balanced (f :: g :: p) .black n)
  (hred : f.color ≠ .black) (ht : RedBlack t .red n) :
  (exists u, repairRed f g t = some (true, u) ∧ RedBlack u .red (n + 1) ∧
    Balanced p .black (n + 1)) ∨
  (exists u, repairRed f g t = some (false, u) ∧ RedBlack u .black (n + 1) ∧
    Balanced p .black (n + 1)) := by
 cases hp with
 | black => exact absurd rfl hred
 | red hsibling hp =>
  cases hp with
  | black huncle hp =>
   rename_i fside y fsibling gside z uncle cu
   unfold repairRed
   cases cu with
   | red =>
    left
    refine ⟨_, if_pos huncle.isRed_of_red, ?_, hp⟩
    exact RedBlack.red_branch (RedBlack.black_branch ht hsibling) huncle.paint_red
   | black =>
    right
    simp only [huncle.isRed_of_black, Bool.false_eq_true, if_false]
    by_cases hside : fside = gside
    · rw [if_pos hside, hsibling.paint_black]
      exact ⟨_, rfl, RedBlack.black_branch ht (RedBlack.red_branch hsibling huncle), hp⟩
    rw [if_neg hside]
    rcases split_of_red (s := gside) ht with ⟨near, w, far, rfl, hnear, hfar⟩
    rw [split_branch]
    refine ⟨_, rfl, ?_, hp⟩
    rw [hnear.paint_black, hfar.paint_black]
    exact RedBlack.black_branch (RedBlack.red_branch hsibling hnear)
     (RedBlack.red_branch hfar huncle)

theorem insertFix_balanced (hp : Balanced p .black n) (ht : RedBlack t .red n) :
  exists u k, insertFix p t = some u ∧ RedBlack u .black k := by
 induction p, t using insertFix.induct generalizing n with
 | case1 t => exact ⟨_, _, rfl, ht.paint_red⟩
 | case2 f t hblack | case4 f g p t hblack =>
  rw [insertFix, if_pos hblack]
  rcases f with ⟨side, color, x, sibling⟩
  cases hblack
  cases hp with
  | black hsibling hp =>
   rcases (Balanced.black hsibling hp).plug ht with ⟨k, hk⟩
   exact ⟨_, k, rfl, hk⟩
 | case3 f t hred =>
  cases hp with
  | black => exact absurd rfl hred
  | red _ hp => cases hp
 | case5 f g p t hred hnone =>
  rcases repairRed_balanced hp hred ht with ⟨u, hsome, _⟩ | ⟨u, hsome, _⟩
  all_goals
   rw [hnone] at hsome
   cases hsome
 | case6 f g p t hred v hsome ih =>
  rw [insertFix, if_neg hred, hsome]
  rcases repairRed_balanced hp hred ht with ⟨u, hu, hrb, hbal⟩ | ⟨u, hu, _⟩
  · rw [hsome] at hu
    cases hu
    exact ih hbal hrb
  rw [hsome] at hu
  cases hu
 | case7 f g p t hred v hsome =>
  rw [insertFix, if_neg hred, hsome]
  rcases repairRed_balanced hp hred ht with ⟨u, hu, _⟩ | ⟨u, hu, hrb, hbal⟩
  · rw [hsome] at hu
    cases hu
  rw [hsome] at hu
  cases hu
  rcases hbal.plug hrb with ⟨k, hk⟩
  exact ⟨_, k, rfl, hk⟩

theorem settle_balanced (hp : Balanced (⟨side, c, x, sibling⟩ :: p) .black (n + 1))
  (hsibling : RedBlack sibling .black (n + 1)) (ht : RedBlack t .black n) :
  (exists u k, settle side c x t sibling = some (false, u) ∧ RedBlack (plug p u) .black k) ∨
  (exists u, settle side c x t sibling = some (true, u) ∧ c = .black ∧
    RedBlack u .black (n + 1) ∧ Balanced p .black (n + 2)) := by
 rcases split_of_black (s := side) hsibling with ⟨near, y, far, cn, cf, rfl, hnear, hfar⟩
 -- A new root of the colour of the parent, over trees of the height of the sibling.
 have hrotated : forall {a b : ColorTree label} {z : label}, RedBlack a .black (n + 1) ->
  RedBlack b .black (n + 1) ->
  exists k, RedBlack (plug p (branch side c a z b)) .black k := by
  intro a b z ha hb
  cases hp with
  | red _ hp => exact hp.plug (RedBlack.red_branch ha hb)
  | black _ hp => exact hp.plug (RedBlack.black_branch ha hb)
 unfold settle
 rw [split_branch]
 simp only
 cases cf with
 | red =>
  left
  rcases hrotated (z := y) (RedBlack.black_branch ht hnear) hfar.paint_red with ⟨k, hk⟩
  exact ⟨_, k, if_pos hfar.isRed_of_red, hk⟩
 | black =>
  rw [hfar.isRed_of_black]
  cases cn with
  | red =>
   left
   rw [if_pos hnear.isRed_of_red]
   rcases split_of_red (s := side) hnear with ⟨inner, z, outer, rfl, hinner, houter⟩
   rw [split_branch]
   simp only
   rw [houter.paint_black]
   rcases hrotated (z := z) (RedBlack.black_branch ht hinner)
    (RedBlack.black_branch houter hfar) with ⟨k, hk⟩
   exact ⟨_, k, rfl, hk⟩
  | black =>
   rw [hnear.isRed_of_black]
   have hnew : RedBlack (branch side .black t x (branch side .red near y far)) .black (n + 1) :=
    RedBlack.black_branch ht (RedBlack.red_branch hnear hfar)
   cases hp with
   | red _ hp =>
    left
    rcases hp.black_of_red.plug hnew with ⟨k, hk⟩
    exact ⟨_, k, rfl, hk⟩
   | black _ hp =>
    right
    exact ⟨_, rfl, rfl, hnew, hp⟩

theorem repairBlack_balanced {f : Turn label} (hp : Balanced (f :: p) .black (n + 1))
  (ht : RedBlack t .black n) :
  (exists u k, repairBlack f t = some (false, u) ∧ RedBlack (plug p u) .black k) ∨
  (exists u, repairBlack f t = some (true, u) ∧
    RedBlack u .black (n + 1) ∧ Balanced p .black (n + 2)) := by
 rcases f with ⟨side, color, x, sibling⟩
 -- With a black sibling there is nothing to turn.
 have hblack : RedBlack sibling .black (n + 1) ->
  repairBlack ⟨side, color, x, sibling⟩ t = settle side color x t sibling := by
  intro hsibling
  rcases split_of_black (s := side) hsibling with ⟨near, y, far, _, _, rfl, _, _⟩
  unfold repairBlack
  simp only [split_branch]
 cases hp with
 | red hsibling hp =>
  rw [hblack hsibling]
  rcases settle_balanced (Balanced.red hsibling hp) hsibling ht with hdone | ⟨_, _, hc, _⟩
  · exact .inl hdone
  · cases hc
 | black hsibling hp =>
  rename_i cs
  cases cs with
  | black =>
   rw [hblack hsibling]
   rcases settle_balanced (Balanced.black hsibling hp) hsibling ht with
    hdone | ⟨u, hu, _, hrest⟩
   · exact .inl hdone
   · exact .inr ⟨u, hu, hrest⟩
  | red =>
   rcases split_of_red (s := side) hsibling with ⟨near, y, far, rfl, hnear, hfar⟩
   have hturned : Balanced (⟨side, .red, x, near⟩ :: ⟨side, .black, y, far⟩ :: p) .black (n + 1) :=
    Balanced.red hnear (Balanced.black hfar hp)
   left
   unfold repairBlack
   simp only [split_branch]
   rw [hnear.paint_black]
   rcases settle_balanced hturned hnear ht with ⟨u, k, hu, hk⟩ | ⟨_, _, hc, _⟩
   · rw [hu]
     exact ⟨_, k, rfl, hk⟩
   · cases hc

theorem eraseFix_balanced (hp : Balanced p .black (n + 1)) (ht : RedBlack t .black n) :
  exists u k, eraseFix p t = some u ∧ RedBlack u .black k := by
 induction p generalizing t n with
 | nil => exact ⟨t, n, rfl, ht⟩
 | cons f p ih =>
  unfold eraseFix
  rcases repairBlack_balanced hp ht with ⟨u, k, hu, hk⟩ | ⟨u, hu, hrb, hbal⟩
  · rw [hu]
    exact ⟨_, k, rfl, hk⟩
  rw [hu]
  exact ih hbal hrb

end Balance

end OSLab.Foundation.Path
