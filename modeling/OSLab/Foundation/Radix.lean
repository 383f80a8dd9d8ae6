import Mathlib.Data.List.Nodup
import Mathlib.Data.List.Induction

/-!
# Trees of tables

A tree whose nodes are tables in a memory: an entry of a table is empty or leads
to another table.  A path of indices names a place in the tree.  When no table
stands at two places, a change of one table is a change at one place, and the tree
can be taken down table by table, although a table is overwritten as soon as it is
released.
-/

namespace OSLab.Foundation.Radix
open List
variable {node index : Type}

def walk (child : node -> index -> Option node) : node -> List index -> Option node
 | n, [] => some n
 | n, i :: rest => (child n i).bind fun m => walk child m rest

variable {child : node -> index -> Option node}

@[simp]
theorem walk_nil (n : node) : walk child n [] = some n := rfl

theorem walk_cons (n : node) (i : index) (rest : List index) :
  walk child n (i :: rest) = (child n i).bind fun m => walk child m rest :=
 rfl

theorem walk_append (n : node) (p q : List index) :
  walk child n (p ++ q) = (walk child n p).bind fun m => walk child m q := by
 induction p generalizing n with
 | nil => rfl
 | cons i rest ih =>
  rw [cons_append, walk_cons, walk_cons]
  cases child n i with
  | none => rfl
  | some m => exact ih m

theorem walk_concat (n : node) (p : List index) (i : index) :
  walk child n (p ++ [i]) = (walk child n p).bind fun m => child m i := by
 rw [walk_append]
 cases walk child n p with
 | none => rfl
 | some m =>
  rw [Option.bind_some, Option.bind_some, walk_cons]
  cases child m i with
  | none | some k => rfl

variable {child' : node -> index -> Option node} {depth : Nat} {n : node}

theorem walk_congr (h : forall q m, q.length < depth -> walk child n q = some m ->
    child' m = child m) {p : List index} (hp : p.length ≤ depth) :
  walk child' n p = walk child n p := by
 induction p generalizing n depth with
 | nil => rfl
 | cons i rest ih =>
  cases depth with
  | zero => cases hp
  | succ depth =>
   rw [walk_cons, walk_cons, h [] n (Nat.succ_pos depth) rfl]
   cases hchild : child n i with
   | none => rfl
   | some m =>
    refine ih ?_ (Nat.le_of_succ_le_succ hp)
    intro q k hq hwalk
    apply h (i :: q) k (Nat.succ_lt_succ hq)
    rw [walk_cons, hchild]
    exact hwalk

/-!
# No table at two places
-/

def Separate (child : node -> index -> Option node) (depth : Nat) (n : node) : Prop :=
 forall p q m, p.length ≤ depth -> q.length ≤ depth ->
  walk child n p = some m -> walk child n q = some m -> p = q

theorem separate_of_leaf (h : forall i, child n i = none) : Separate child depth n := by
 have hnil : forall p m, walk child n p = some m -> p = [] := by
  intro p m hwalk
  cases p with
  | nil => rfl
  | cons i rest =>
   rw [walk_cons, h i] at hwalk
   cases hwalk
 intro p q m _ _ hp hq
 rw [hnil p m hp, hnil q m hq]

variable {i : index} {n m : node}

theorem Separate.below (h : Separate child (depth + 1) n) (hchild : child n i = some m) :
  Separate child depth m := by
 intro p q k hp hq hwalkp hwalkq
 have hpath : i :: p = i :: q := by
  apply h (i :: p) (i :: q) k (Nat.succ_le_succ hp) (Nat.succ_le_succ hq)
  · rw [walk_cons, hchild]
    exact hwalkp
  rw [walk_cons, hchild]
  exact hwalkq
 injection hpath

theorem Separate.congr (h : Separate child depth n)
  (hsame : forall q m, q.length < depth -> walk child n q = some m -> child' m = child m) :
  Separate child' depth n := by
 intro p q m hp hq hwalkp hwalkq
 rw [walk_congr hsame hp] at hwalkp
 rw [walk_congr hsame hq] at hwalkq
 exact h p q m hp hq hwalkp hwalkq

/-!
# A new table

An empty entry of a table comes to lead to a table that was not in the tree.
-/

structure Graft (child child' : node -> index -> Option node) (n : node) (i : index)
  (new : node) : Prop where
 vacant : child n i = none
 linked : child' n i = some new
 empty : forall j, child' new j = none
 others : forall m j, m ≠ new -> (m, j) ≠ (n, i) -> child' m j = child m j

variable {place : List index} {root n new : node}

section
variable (h : Graft child child' n i new) (hsep : Separate child depth root)
 (hplace : place.length < depth) (hn : walk child root place = some n)
 (hnew : forall q, q.length ≤ depth -> walk child root q ≠ some new)
include h hsep hplace hn hnew

theorem Graft.walk_eq (p : List index) (hp : p.length ≤ depth) :
  (p = place ++ [i] -> walk child' root p = some new) ∧
    (p ≠ place ++ [i] -> walk child' root p = walk child root p) := by
 -- the last index of the path is the one that may be the new one
 induction p using reverseRecOn with
 | nil =>
  constructor
  · intro hnil
    exact absurd hnil.symm (by simp)
  · intro _
    rfl
 | append_singleton q j ih =>
  have hq : q.length < depth := by
   rw [length_append, length_singleton] at hp
   exact hp
  have hhere := ih (Nat.le_of_lt hq)
  by_cases hgraft : q = place ++ [i]
  · have hlonger : q ++ [j] ≠ place ++ [i] := by
     intro heq
     have hlen := congrArg length (heq.trans hgraft.symm)
     rw [length_append, length_singleton] at hlen
     exact absurd hlen (Nat.succ_ne_self _)
    have hold : walk child root q = none := by
     rw [hgraft, walk_concat, hn]
     exact h.vacant
    constructor
    · intro heq
      exact absurd heq hlonger
    intro _
    rw [walk_concat, walk_concat, hhere.left hgraft, hold]
    exact h.empty j
  have hsame := hhere.right hgraft
  constructor
  · intro heq
    rcases append_singleton_inj.mp heq with ⟨hqp, hji⟩
    rw [walk_concat, hsame, hqp, hn, hji]
    exact h.linked
  intro hne
  rw [walk_concat, walk_concat, hsame]
  cases hm : walk child root q with
  | none => rfl
  | some m =>
   apply h.others m j
   · rintro rfl
     exact hnew q (Nat.le_of_lt hq) hm
   intro heq
   cases heq
   have hpath := hsep q place n (Nat.le_of_lt hq) (Nat.le_of_lt hplace) hm hn
   exact hne (by rw [hpath])

theorem Graft.separate : Separate child' depth root := by
 intro p q m hp hq hwalkp hwalkq
 have hatp := h.walk_eq hsep hplace hn hnew p hp
 have hatq := h.walk_eq hsep hplace hn hnew q hq
 by_cases hpg : p = place ++ [i]
 · by_cases hqg : q = place ++ [i]
   · rw [hpg, hqg]
   rw [hatp.left hpg] at hwalkp
   rw [hatq.right hqg, ← hwalkp] at hwalkq
   exact absurd hwalkq (hnew q hq)
 by_cases hqg : q = place ++ [i]
 · rw [hatq.left hqg] at hwalkq
   rw [hatp.right hpg, ← hwalkq] at hwalkp
   exact absurd hwalkp (hnew p hp)
 rw [hatp.right hpg] at hwalkp
 rw [hatq.right hqg] at hwalkq
 exact hsep p q m hp hq hwalkp hwalkq
end

/-!
# Every table once
-/

def postorder (child : node -> index -> Option node) (indices : List index) :
  Nat -> node -> List node
 | 0, n => [n]
 | depth + 1, n =>
  (indices.flatMap fun i => (child n i).elim [] (postorder child indices depth)) ++ [n]

variable {indices : List index}

theorem mem_elim_postorder (h : m ∈ (child n i).elim [] (postorder child indices depth)) :
  exists k, child n i = some k ∧ m ∈ postorder child indices depth k := by
 cases hchild : child n i with
 | none =>
  rw [hchild] at h
  cases h
 | some k =>
  rw [hchild] at h
  exact ⟨k, rfl, h⟩

section
variable (hall : forall i, i ∈ indices)
include hall

theorem mem_postorder : m ∈ postorder child indices depth n ↔
    exists p, p.length ≤ depth ∧ walk child n p = some m := by
 induction depth generalizing n with
 | zero =>
  constructor
  · intro hmem
    refine ⟨[], Nat.le_refl 0, ?_⟩
    rw [mem_singleton.mp hmem, walk_nil]
  rintro ⟨p, hp, hwalk⟩
  cases length_eq_zero_iff.mp (Nat.le_zero.mp hp)
  injection hwalk with heq
  exact mem_singleton.mpr heq.symm
 | succ depth ih =>
  rw [postorder, mem_append, mem_flatMap, mem_singleton]
  constructor
  · rintro (⟨i, _, hbelow⟩ | heq)
    · rcases mem_elim_postorder hbelow with ⟨k, hchild, hmem⟩
      rcases ih.mp hmem with ⟨p, hp, hwalk⟩
      refine ⟨i :: p, Nat.succ_le_succ hp, ?_⟩
      rw [walk_cons, hchild]
      exact hwalk
    · exact ⟨[], Nat.zero_le _, by rw [heq, walk_nil]⟩
  rintro ⟨p, hp, hwalk⟩
  cases p with
  | nil =>
   injection hwalk with heq
   exact .inr heq.symm
  | cons i rest =>
   left
   refine ⟨i, hall i, ?_⟩
   rw [walk_cons] at hwalk
   cases hchild : child n i with
   | none =>
    rw [hchild] at hwalk
    cases hwalk
   | some k =>
    rw [hchild] at hwalk
    exact ih.mpr ⟨rest, Nat.le_of_succ_le_succ hp, hwalk⟩

theorem walk_of_mem_elim (h : m ∈ (child n i).elim [] (postorder child indices depth)) :
  exists p, (i :: p).length ≤ depth + 1 ∧ walk child n (i :: p) = some m := by
 rcases mem_elim_postorder h with ⟨k, hchild, hmem⟩
 rcases (mem_postorder hall).mp hmem with ⟨p, hp, hwalk⟩
 refine ⟨p, Nat.succ_le_succ hp, ?_⟩
 rw [walk_cons, hchild]
 exact hwalk

theorem nodup_postorder (hindices : indices.Nodup)
  (h : Separate child depth n) : (postorder child indices depth n).Nodup := by
 induction depth generalizing n with
 | zero => exact nodup_singleton n
 | succ depth ih =>
  rw [postorder]
  apply Nodup.append
  · rw [nodup_flatMap]
    constructor
    · intro i _
      cases hchild : child n i with
      | none => exact nodup_nil
      | some m => exact ih (h.below hchild)
    apply hindices.imp
    intro i j hij m hi hj
    rcases walk_of_mem_elim hall hi with ⟨p, hp, hwalkp⟩
    rcases walk_of_mem_elim hall hj with ⟨q, hq, hwalkq⟩
    have hpath := h _ _ m hp hq hwalkp hwalkq
    injection hpath with hindex
    exact hij hindex
  · exact nodup_singleton n
  intro m hmem hself
  rcases mem_flatMap.mp hmem with ⟨i, _, hi⟩
  rcases walk_of_mem_elim hall hi with ⟨p, hp, hwalkp⟩
  rw [mem_singleton.mp hself] at hwalkp
  have hpath := h _ [] n hp (Nat.zero_le _) hwalkp rfl
  cases hpath
end

theorem postorder_congr
  (h : forall q m, q.length < depth -> walk child n q = some m -> child' m = child m) :
  postorder child' indices depth n = postorder child indices depth n := by
 induction depth generalizing n with
 | zero => rfl
 | succ depth ih =>
  rw [postorder, postorder, h [] n (Nat.succ_pos depth) rfl]
  congr 1
  apply congrArg (fun f => indices.flatMap f)
  funext i
  cases hchild : child n i with
  | none => rfl
  | some m =>
   apply ih
   intro q k hq hwalk
   apply h (i :: q) k (Nat.succ_lt_succ hq)
   rw [walk_cons, hchild]
   exact hwalk

/-!
# Taking a tree down
-/

section Teardown
variable {state : Type} (kids : state -> node -> index -> Option node)
 (release : state -> node -> state) (indices : List index)

def teardown : Nat -> state -> node -> state
 | 0, s, n => release s n
 | depth + 1, s, n =>
  release (indices.foldl (fun s i => (kids s n i).elim s (teardown depth s)) s) n

variable {kids release indices}

theorem kids_foldl_release (hrelease : forall s n m, m ≠ n -> kids (release s n) m = kids s m)
  {tables : List node} {m : node} (hm : m ∉ tables) (s : state) :
  kids (tables.foldl release s) m = kids s m := by
 induction tables generalizing s with
 | nil => rfl
 | cons n rest ih =>
  rw [mem_cons, not_or] at hm
  rw [foldl_cons, ih hm.right, hrelease s n m hm.left]

def under (child : node -> index -> Option node) (indices : List index) (depth : Nat)
  (n : node) (chosen : List index) : List node :=
 chosen.flatMap fun i => (child n i).elim [] (postorder child indices depth)

theorem Separate.not_mem_under (hall : forall i, i ∈ indices) {depth : Nat} {n : node}
  (h : Separate child (depth + 1) n) {done : List index} {i : index} (hi : i ∉ done)
  {p : List index} {m : node} (hp : p.length ≤ depth + 1)
  (hwalk : walk child n p = some m) (hfirst : forall j rest, p = j :: rest -> j = i) :
  m ∉ under child indices depth n done := by
 intro hmem
 rcases mem_flatMap.mp hmem with ⟨j, hj, hbelow⟩
 rcases walk_of_mem_elim hall hbelow with ⟨q, hq, hwalkq⟩
 have hpath := h p (j :: q) m hp hq hwalk hwalkq
 rw [hfirst j q hpath] at hj
 exact hi hj

theorem teardown_eq (hall : forall i, i ∈ indices) (hindices : indices.Nodup)
  (hrelease : forall s n m, m ≠ n -> kids (release s n) m = kids s m)
  {depth : Nat} {s : state} {n : node} (h : Separate (kids s) depth n) :
  teardown kids release indices depth s n =
    (postorder (kids s) indices depth n).foldl release s := by
 induction depth generalizing s n with
 | zero => rfl
 | succ depth ih =>
  have hloop : forall done todo : List index, (done ++ todo).Nodup -> todo.foldl
    (fun s i => (kids s n i).elim s (teardown kids release indices depth s))
    ((under (kids s) indices depth n done).foldl release s) =
   (under (kids s) indices depth n (done ++ todo)).foldl release s := by
   intro done todo
   induction todo generalizing done with
   | nil =>
    intro _
    rw [append_nil]
    rfl
   | cons i rest ihrest =>
    intro hnodup
    have hnext := ihrest (done ++ [i])
    rw [append_assoc, singleton_append] at hnext
    rw [foldl_cons, ← hnext hnodup]
    congr 1
    have hi : i ∉ done := by
     have hmiddle := nodup_middle.mp hnodup
     rw [nodup_cons, mem_append, not_or] at hmiddle
     exact hmiddle.left.left
    have hkept := fun p m => h.not_mem_under hall hi (p := p) (m := m)
    have hmore : under (kids s) indices depth n (done ++ [i]) =
     under (kids s) indices depth n done ++
      (kids s n i).elim [] (postorder (kids s) indices depth) := by
     simp [under]
    rw [hmore, foldl_append]
    generalize under (kids s) indices depth n done = released at hkept ⊢
    have hself : kids (released.foldl release s) n = kids s n := by
     apply kids_foldl_release hrelease
     apply hkept [] n (Nat.zero_le _) rfl
     nofun
    rw [hself]
    cases hchild : kids s n i with
    | none => rfl
    | some m =>
     have hsame : forall q k, q.length < depth -> walk (kids s) m q = some k ->
      kids (released.foldl release s) k = kids s k := by
      intro q k hq hwalk
      apply kids_foldl_release hrelease
      apply hkept (i :: q) k (Nat.succ_le_succ (Nat.le_of_lt hq))
      · rw [walk_cons, hchild]
        exact hwalk
      intro j rest heq
      injection heq with hij
      exact hij.symm
     have hunder := ih ((h.below hchild).congr hsame)
     rw [postorder_congr hsame] at hunder
     exact hunder
  have hwhole := hloop [] indices hindices
  rw [nil_append] at hwhole
  rw [teardown, postorder, foldl_append]
  exact congrArg (fun s => release s n) hwhole

end Teardown

end OSLab.Foundation.Radix
