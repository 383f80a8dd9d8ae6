import OSLab.Foundation.Rebalance

/-!
# Red-black search trees

Insertion under a comparison, removal, search and the least label.  What happens to
the shape and to the list of labels does not depend on the comparison; a strict
order keeps the list sorted.
-/

namespace OSLab.Foundation
open Foundation.Path List
variable {label : Type}

inductive Place (label : Type) where
 | vacant (p : Path label)
 | taken (x : label)

def Path.Zoomed (lt : label -> label -> Bool) (x : label) (p : Path label) : Prop :=
 forall f, f ∈ p -> match f.side with
  | .left => lt x f.x = true
  | .right => lt x f.x = false ∧ lt f.x x = true

namespace ColorTree

def locate (lt : label -> label -> Bool) (x : label) : ColorTree label -> Path label -> Place label
 | leaf, p => .vacant p
 | node c left y right, p =>
  if lt x y then
   locate lt x left (⟨.left, c, y, right⟩ :: p)
  else if lt y x then
   locate lt x right (⟨.right, c, y, left⟩ :: p)
  else
   .taken y

variable (lt : label -> label -> Bool)

def insert (x : label) (t : ColorTree label) : Option (Bool × ColorTree label) :=
 match locate lt x t [] with
 | .taken _ => some (false, t)
 | .vacant p =>
  match insertFix p (node .red leaf x leaf) with
  | none => none
  | some u => some (true, u)

def leftmost : ColorTree label -> Path label ->
  Option (Path label × Color × label × ColorTree label)
 | leaf, _ => none
 | node c left x right, p =>
  match leftmost left (⟨.left, c, x, right⟩ :: p) with
  | none => some (p, c, x, right)
  | some found => some found

/--
Takes out a node of colour `c` that has no more than one child; the child takes
its place and is painted in the colour `d`.
-/
def vacate (p : Path label) (c d : Color) : ColorTree label -> Option (ColorTree label)
 | leaf => if c = .black then eraseFix p leaf else some (plug p leaf)
 | node e left x right => some (plug p ((node e left x right).paint d))

/-- Takes out the node with these children; with two children, its successor moves up. -/
def eraseAt (p : Path label) (c : Color) (left right : ColorTree label) :
  Option (ColorTree label) :=
 match left, right with
 | leaf, right => vacate p c c right
 | left, leaf => vacate p c c left
 | left, right =>
  match leftmost right [] with
  | none => none
  | some (q, d, s, rest) => vacate (q ++ ⟨.right, c, s, left⟩ :: p) d .black rest

def find [DecidableEq label] (x : label) : ColorTree label -> Path label ->
  Option (Path label × Color × ColorTree label × ColorTree label)
 | leaf, _ => none
 | node c left y right, p =>
  if y = x then
   some (p, c, left, right)
  else
   match find x left (⟨.left, c, y, right⟩ :: p) with
   | some found => some found
   | none => find x right (⟨.right, c, y, left⟩ :: p)

def erase [DecidableEq label] (x : label) (t : ColorTree label) : Option (ColorTree label) :=
 match find x t [] with
 | none => none
 | some (p, c, left, right) => eraseAt p c left right

/-!
# Searches
-/

section Search
variable {lt : label -> label -> Bool} {x y : label} {t : ColorTree label} {p q : Path label}

theorem locate_vacant (h : locate lt x t p = .vacant q) :
  plug q leaf = plug p t ∧ (Zoomed lt x p -> Zoomed lt x q) := by
 induction t generalizing p with
 | leaf =>
  cases h
  exact ⟨rfl, id⟩
 | node c left z right ihl ihr =>
  unfold locate at h
  split at h
  · rename_i hlt
    rcases ihl h with ⟨hplug, hzoomed⟩
    refine ⟨hplug, fun hp => hzoomed ?_⟩
    intro f hf
    rcases mem_cons.mp hf with rfl | hf
    · exact hlt
    · exact hp f hf
  split at h
  · rename_i hnot hlt
    rcases ihr h with ⟨hplug, hzoomed⟩
    refine ⟨hplug, fun hp => hzoomed ?_⟩
    intro f hf
    rcases mem_cons.mp hf with rfl | hf
    · exact ⟨Bool.eq_false_iff.mpr hnot, hlt⟩
    · exact hp f hf
  · cases h

theorem locate_taken (h : locate lt x t p = .taken y) :
  y ∈ t.nodes ∧ lt x y = false ∧ lt y x = false := by
 induction t generalizing p with
 | leaf => cases h
 | node c left z right ihl ihr =>
  change y ∈ z ::ₘ (left.nodes + right.nodes) ∧ _
  rw [Multiset.mem_cons, Multiset.mem_add]
  unfold locate at h
  split at h
  · rcases ihl h with ⟨hmem, heq⟩
    exact ⟨.inr (.inl hmem), heq⟩
  split at h
  · rcases ihr h with ⟨hmem, heq⟩
    exact ⟨.inr (.inr hmem), heq⟩
  rename_i hnot hnot'
  cases h
  exact ⟨.inl rfl, Bool.eq_false_iff.mpr hnot, Bool.eq_false_iff.mpr hnot'⟩

theorem leftmost_eq_none (h : leftmost t p = none) : t = leaf := by
 cases t with
 | leaf => rfl
 | node c left z right =>
  unfold leftmost at h
  split at h
  · cases h
  · cases h

theorem leftmost_eq_some {c : Color} {rest : ColorTree label}
  (h : leftmost t p = some (q, c, x, rest)) :
  exists r, q = r ++ p ∧ (forall f, f ∈ r -> f.side = .left) ∧ plug r (node c leaf x rest) = t := by
 induction t generalizing p with
 | leaf => cases h
 | node d left z right ihl ihr =>
  unfold leftmost at h
  split at h
  · rename_i hnone
    cases h
    exact ⟨[], rfl, fun f hf => absurd hf not_mem_nil, by
     rw [leftmost_eq_none hnone]
     rfl⟩
  rename_i found hsome
  cases h
  rcases ihl hsome with ⟨r, rfl, hleft, hplug⟩
  refine ⟨r ++ [⟨.left, d, z, right⟩], ?_, ?_, ?_⟩
  · rw [append_assoc]
    rfl
  · intro f hf
    rcases mem_append.mp hf with hf | hf
    · exact hleft f hf
    · rw [mem_singleton.mp hf]
  rw [plug_append, hplug]
  rfl

theorem before_of_left (h : forall f, f ∈ p -> f.side = .left) : before p = [] := by
 induction p with
 | nil => rfl
 | cons f p ih =>
  have hf := h f mem_cons_self
  unfold before
  rw [hf]
  exact ih (fun g hg => h g (mem_cons_of_mem f hg))

variable [DecidableEq label]

theorem find_eq_some {c : Color} {left right : ColorTree label}
  (h : find x t p = some (q, c, left, right)) : plug q (node c left x right) = plug p t := by
 induction t generalizing p with
 | leaf => cases h
 | node d l z r ihl ihr =>
  unfold find at h
  split at h
  · rename_i hz
    cases h
    rw [hz]
  split at h
  · rename_i found hfound
    cases h
    exact ihl hfound
  · exact ihr h

theorem find_ne_none (h : x ∈ t.nodes) : find x t p ≠ none := by
 induction t generalizing p with
 | leaf => exact absurd h (Multiset.notMem_zero x)
 | node d l z r ihl ihr =>
  intro hnone
  unfold find at hnone
  split at hnone
  · cases hnone
  rename_i hz
  split at hnone
  · cases hnone
  rename_i hleft
  rcases Multiset.mem_cons.mp h with hx | hx
  · exact hz hx.symm
  rcases Multiset.mem_add.mp hx with hx | hx
  · exact ihl hx hleft
  · exact ihr hx hnone

end Search

/-!
# Shape and labels
-/

section Shape
variable {lt : label -> label -> Bool} {x : label} {t : ColorTree label} {p : Path label}
 {c d : Color} {left right : ColorTree label} {k : Nat}

theorem insertFix_vacant (h : RedBlack (plug p leaf) .black k) :
  exists u n, insertFix p (node .red leaf x leaf) = some u ∧
    RedBlack u .black n ∧ u.toList = before p ++ x :: after p := by
 rcases balanced_of_plug h with ⟨c, n, hp, hleaf⟩
 cases hleaf with
 | leaf =>
  rcases insertFix_balanced hp (.red .leaf .leaf) with ⟨u, m, hu, hrb⟩
  refine ⟨u, m, hu, hrb, ?_⟩
  rw [toList_insertFix hu, toList_plug]
  simp [toList]

theorem insert_new (h : RedBlack t .black k) (hnew : forall y, y ∈ t.toList -> lt x y ∨ lt y x) :
  exists u n p, insert lt x t = some (true, u) ∧ RedBlack u .black n ∧
    plug p leaf = t ∧ Zoomed lt x p ∧ u.toList = before p ++ x :: after p ∧
    u.toList.Perm (x :: t.toList) := by
 unfold insert
 cases hlocate : locate lt x t [] with
 | taken y =>
  rcases locate_taken hlocate with ⟨hy, hxy, hyx⟩
  rcases hnew y (mem_toList.mpr hy) with hlt | hlt
  · rw [hxy] at hlt
    cases hlt
  rw [hyx] at hlt
  cases hlt
 | vacant p =>
  rcases locate_vacant hlocate with ⟨hplug, hzoomed⟩
  change plug p leaf = t at hplug
  have hp := h
  rw [← hplug] at hp
  rcases insertFix_vacant (x := x) hp with ⟨u, n, hfix, hu, hlist⟩
  refine ⟨u, n, p, ?_, hu, hplug, hzoomed (fun f hf => absurd hf not_mem_nil), hlist, ?_⟩
  · dsimp only
    rw [hfix]
  rw [hlist, ← hplug, toList_plug]
  change (before p ++ x :: after p).Perm (x :: (before p ++ [] ++ after p))
  rw [append_nil]
  exact perm_middle

theorem only_child (h : RedBlack (node c leaf x right) c k) : (right = leaf ∧ c = .red ∧ k = 0) ∨
    (c = .black ∧ k = 1 ∧ (right = leaf ∨ exists y, right = node .red leaf y leaf)) := by
 cases h with
 | red hl hr =>
  cases hl with
  | leaf =>
   cases hr with
   | leaf => exact .inl ⟨rfl, rfl, rfl⟩
 | black hl hr =>
  cases hl with
  | leaf =>
   right
   refine ⟨rfl, rfl, ?_⟩
   cases hr with
   | leaf => exact .inl rfl
   | red hl hr =>
    cases hl with
    | leaf =>
     cases hr with
     | leaf => exact .inr ⟨_, rfl⟩

theorem vacate_balanced {n : Nat} (hp : Balanced p c n) (h : RedBlack (node c leaf x right) c n)
  (hd : d = c ∨ d = .black) :
  exists u k, vacate p c d right = some u ∧ RedBlack u .black k ∧
    u.toList = (plug p right).toList := by
 rcases only_child h with ⟨rfl, rfl, rfl⟩ | ⟨rfl, rfl, hright⟩
 · rcases hp.black_of_red.plug .leaf with ⟨k, hk⟩
   exact ⟨_, k, rfl, hk, rfl⟩
 have hblack : d = .black := by
  rcases hd with hd | hd
  · exact hd
  · exact hd
 rcases hright with rfl | ⟨y, rfl⟩
 · rcases eraseFix_balanced hp .leaf with ⟨u, k, hu, hk⟩
   exact ⟨u, k, hu, hk, toList_eraseFix hu⟩
 rcases hp.plug (.black .leaf .leaf) with ⟨k, hk⟩
 rw [hblack]
 exact ⟨_, k, rfl, hk, toList_plug_congr rfl⟩

theorem eraseAt_two (hleft : left ≠ leaf) (hright : right ≠ leaf) :
  eraseAt p c left right = match leftmost right [] with
    | none => none
    | some (q, d, s, rest) => vacate (q ++ ⟨.right, c, s, left⟩ :: p) d .black rest := by
 cases left with
 | leaf => exact absurd rfl hleft
 | node =>
  cases right with
  | leaf => exact absurd rfl hright
  | node => rfl

theorem eraseAt_balanced (h : RedBlack (plug p (node c left x right)) .black k) :
  exists u n, eraseAt p c left right = some u ∧ RedBlack u .black n ∧
    u.toList = before p ++ (left.toList ++ right.toList) ++ after p := by
 rcases balanced_of_plug h with ⟨c', n, hp, hnode⟩
 have hc : c' = c := by
  cases hnode with
  | red | black => rfl
 rw [hc] at hp hnode
 cases hleft : left with
 | leaf =>
  rw [hleft] at hnode
  rcases vacate_balanced hp hnode (.inl rfl) with ⟨u, m, hu, hrb, hlist⟩
  refine ⟨u, m, hu, hrb, ?_⟩
  rw [hlist, toList_plug]
  rfl
 | node cl ll xl rl =>
  cases hright : right with
  | leaf =>
   rw [hright] at hnode
   have hmirror : RedBlack (node c leaf x left) c n := by
    cases hnode with
    | red hl hr => exact .red hr hl
    | black hl hr => exact .black hr hl
   rcases vacate_balanced hp hmirror (.inl rfl) with ⟨u, m, hu, hrb, hlist⟩
   rw [hleft] at hu hlist
   refine ⟨u, m, hu, hrb, ?_⟩
   rw [hlist, toList_plug]
   simp [toList]
  | node cr lr xr rr =>
   have hleft' : left ≠ leaf := by
    rw [hleft]
    intro h
    cases h
   have hright' : right ≠ leaf := by
    rw [hright]
    intro h
    cases h
   rw [← hleft, ← hright, eraseAt_two hleft' hright']
   cases hmost : leftmost right [] with
   | none =>
    rw [leftmost_eq_none hmost] at hright
    cases hright
   | some found =>
    rcases found with ⟨q, d, s, rest⟩
    rcases leftmost_eq_some hmost with ⟨r, hq, hside, hplug⟩
    rw [append_nil] at hq
    rw [hq]
    -- The successor, seen from the root of the whole tree.
    have hwhole : RedBlack (plug (r ++ ⟨.right, c, x, left⟩ :: p)
     (node d leaf s rest)) .black k := by
     rw [plug_append, hplug]
     exact h
    rcases balanced_of_plug hwhole with ⟨d', m, hpath, hsucc⟩
    have hd : d' = d := by
     cases hsucc with
     | red | black => rfl
    rw [hd] at hpath hsucc
    rcases vacate_balanced (hpath.relabel s) hsucc (.inr rfl) with ⟨u, m, hu, hrb, hlist⟩
    refine ⟨u, m, hu, hrb, ?_⟩
    rw [hlist, plug_append]
    have hlist' : right.toList = s :: (plug r rest).toList := by
     rw [← hplug, toList_plug, toList_plug, before_of_left hside]
     rfl
    change (plug p (node c left s (plug r rest))).toList = _
    rw [toList_plug, hlist']
    rfl

theorem erase_balanced [DecidableEq label] (h : RedBlack t .black k) (hmem : x ∈ t.nodes) :
  exists u n a b, erase x t = some u ∧ RedBlack u .black n ∧
    t.toList = a ++ x :: b ∧ u.toList = a ++ b := by
 unfold erase
 cases hfind : find x t [] with
 | none => exact absurd hfind (find_ne_none hmem)
 | some found =>
  rcases found with ⟨p, c, left, right⟩
  have hplug := find_eq_some hfind
  change _ = t at hplug
  rw [← hplug] at h
  rcases eraseAt_balanced h with ⟨u, n, hu, hrb, hlist⟩
  refine ⟨u, n, before p ++ left.toList, right.toList ++ after p, hu, hrb, ?_, ?_⟩
  · rw [← hplug, toList_plug]
    simp [toList]
  rw [hlist]
  simp

end Shape

/-!
# Strict orders
-/

structure StrictOrder (lt : label -> label -> Bool) : Prop where
 irrefl : forall x, lt x x = false
 trans : forall x y z, lt x y = true -> lt y z = true -> lt x z = true

def Equivalent (lt : label -> label -> Bool) (x y : label) : Prop := lt x y = false ∧ lt y x = false

def Sorted (lt : label -> label -> Bool) (t : ColorTree label) : Prop :=
 t.toList.Pairwise (fun x y => lt x y = true)

section Order
variable {lt : label -> label -> Bool} {x y : label} {t : ColorTree label} {p : Path label}

section
variable (hlt : StrictOrder lt)
include hlt

theorem zoomed_separates (hsorted : (plug p t).Sorted lt) (hzoomed : Zoomed lt x p) :
  (forall y, y ∈ before p -> lt y x) ∧ (forall y, y ∈ after p -> lt x y) := by
 induction p generalizing t with
 | nil => exact ⟨fun y hy => absurd hy not_mem_nil, fun y hy => absurd hy not_mem_nil⟩
 | cons f p ih =>
  rcases f with ⟨side, c, z, sibling⟩
  have hz := hzoomed _ mem_cons_self
  have hrest := ih hsorted (fun g hg => hzoomed g (mem_cons_of_mem _ hg))
  change (plug p (branch side c t z sibling)).toList.Pairwise _ at hsorted
  rw [toList_plug, pairwise_append, pairwise_append] at hsorted
  have hnode := hsorted.left.right.left
  cases side with
  | left =>
   change (t.toList ++ z :: sibling.toList).Pairwise _ at hnode
   rw [pairwise_append, pairwise_cons] at hnode
   refine ⟨hrest.left, ?_⟩
   intro y hy
   rcases mem_append.mp hy with hy | hy
   · rcases mem_cons.mp hy with rfl | hy
     · exact hz
     · exact hlt.trans x z y hz (hnode.right.left.left y hy)
   · exact hrest.right y hy
  | right =>
   change (sibling.toList ++ z :: t.toList).Pairwise _ at hnode
   rw [pairwise_append] at hnode
   refine ⟨?_, hrest.right⟩
   intro y hy
   rcases mem_append.mp hy with hy | hy
   · exact hrest.left y hy
   rcases mem_append.mp hy with hy | hy
   · exact hlt.trans y z x (hnode.right.right y hy z mem_cons_self) hz.right
   rw [mem_singleton.mp hy]
   exact hz.right

variable (hsorted : t.Sorted lt) (hplug : plug p leaf = t) (hzoomed : Zoomed lt x p)
include hsorted hplug hzoomed

theorem sorted_insert {u : ColorTree label}
  (hlist : u.toList = before p ++ x :: after p) : u.Sorted lt := by
 rw [← hplug] at hsorted
 have hsplit := zoomed_separates hlt hsorted hzoomed
 unfold Sorted at hsorted ⊢
 rw [toList_plug] at hsorted
 change (before p ++ [] ++ after p).Pairwise _ at hsorted
 rw [append_nil, pairwise_append] at hsorted
 rw [hlist, pairwise_append, pairwise_cons]
 refine ⟨hsorted.left, ⟨hsplit.right, hsorted.right.left⟩, ?_⟩
 intro y hy z hz
 rcases mem_cons.mp hz with rfl | hz
 · exact hsplit.left y hy
 · exact hsorted.right.right y hy z hz

theorem not_equivalent_of_vacant (hy : y ∈ t.toList) : ¬ Equivalent lt x y := by
 rw [← hplug] at hsorted hy
 have hsplit := zoomed_separates hlt hsorted hzoomed
 rw [toList_plug] at hy
 change y ∈ before p ++ [] ++ after p at hy
 rw [append_nil] at hy
 intro hequiv
 rcases mem_append.mp hy with hy | hy
 · have hbelow := hsplit.left y hy
   rw [hequiv.right] at hbelow
   cases hbelow
 have habove := hsplit.right y hy
 rw [hequiv.left] at habove
 cases habove
end

theorem sorted_erase {u : ColorTree label} {a b : List label} (hsorted : t.Sorted lt)
  (ht : t.toList = a ++ x :: b) (hu : u.toList = a ++ b) : u.Sorted lt := by
 unfold Sorted at hsorted ⊢
 rw [ht] at hsorted
 rw [hu]
 exact hsorted.sublist (Sublist.append (Sublist.refl a) (sublist_cons_self x b))

end Order

end OSLab.Foundation.ColorTree
