import Mathlib.Logic.Function.Basic
import Mathlib.Data.List.Basic

/-!
# Queues of nodes

`add_to_queue` and `fetch_from_queue` of `common/list.c`, each taken as one atomic step:
the compare-and-exchange loops end in the round in which the head has not changed.  The
link of a node is the word at its address, and the null pointer is 0.
-/

namespace OSLab.Common
open Function List

abbrev Words := Nat -> Nat

def addToQueue (words : Words) (head node : Nat) : Words × Nat :=
 (Function.update words node head, node)

def fetchFromQueue (words : Words) (head : Nat) : Nat × Nat :=
 if head = 0 then (0, 0) else (head, words head)

def Linked (words : Words) : Nat -> List Nat -> Prop
 | head, [] => head = 0
 | head, node :: rest => head = node ∧ node ≠ 0 ∧ Linked words (words node) rest

namespace Linked
variable {words words' : Words} {head node : Nat} {nodes : List Nat} (h : Linked words head nodes)
include h

theorem congr (hsame : forall a, a ∈ nodes -> words' a = words a) : Linked words' head nodes := by
 induction nodes generalizing head with
 | nil => exact h
 | cons a rest ih =>
  rcases h with ⟨hhead, hne, hrest⟩
  refine ⟨hhead, hne, ?_⟩
  rw [hsame a mem_cons_self]
  exact ih hrest (fun b hb => hsame b (mem_cons_of_mem a hb))

theorem add (hnode : node ≠ 0) (hnew : node ∉ nodes) :
  Linked (addToQueue words head node).1 (addToQueue words head node).2 (node :: nodes) := by
 refine ⟨rfl, hnode, ?_⟩
 change Linked _ (Function.update words node head node) nodes
 rw [Function.update_self]
 apply h.congr
 intro a ha
 have hne : a ≠ node := by
  rintro rfl
  exact hnew ha
 exact Function.update_of_ne hne _ _

theorem fetch (hhead : head ≠ 0) :
  exists rest, nodes = head :: rest ∧ (fetchFromQueue words head).1 = head ∧
    Linked words (fetchFromQueue words head).2 rest := by
 cases nodes with
 | nil => exact absurd h hhead
 | cons node rest =>
  rcases h with ⟨rfl, _, hrest⟩
  unfold fetchFromQueue
  rw [if_neg hhead]
  exact ⟨rest, rfl, rfl, hrest⟩

end Linked

/-!
# Queues with a length

`queue_push`, `queue_pop` and `queue_front`, which link the nodes in a ring.
-/

structure Links where
 next : Nat -> Nat
 prev : Nat -> Nat

namespace Links
variable (m : Links)

def setNext (a b : Nat) : Links := { m with next := update m.next a b }

def setPrev (a b : Nat) : Links := { m with prev := update m.prev a b }

def initListNode (a : Nat) : Links := (m.setPrev a a).setNext a a

def mergeList (a b : Nat) : Links :=
 (((m.setNext a b).setPrev b a).setNext (m.prev b) (m.next a)).setPrev (m.next a) (m.prev b)

def detachFromList (a : Nat) : Links :=
 let m := m.setNext (m.prev a) (m.next a)
 (m.setPrev (m.next a) (m.prev a)).initListNode a

end Links

structure Queue where
 links : Links
 first : Nat
 last : Nat
 sz : Nat

/-- Every node is followed by the next one of the list, and the last one by `target`. -/
def Chained (next : Nat -> Nat) : List Nat -> Nat -> Prop
 | [], _ => True
 | a :: rest, target => next a = rest.head?.getD target ∧ Chained next rest target

theorem chained_concat {next : Nat -> Nat} {front : List Nat} {last target : Nat} :
  Chained next (front ++ [last]) target ↔ Chained next front last ∧ next last = target := by
 induction front with
 | nil => simp [Chained]
 | cons a front ih =>
  have hhead : (front ++ [last]).head?.getD target = front.head?.getD last := by
   cases front <;> rfl
  rw [cons_append, Chained, Chained, ih, hhead, and_assoc]

theorem Chained.congr {next next' : Nat -> Nat} {nodes : List Nat} {target : Nat}
  (h : Chained next nodes target) (hsame : forall a, a ∈ nodes -> next' a = next a) :
  Chained next' nodes target := by
 induction nodes with
 | nil => trivial
 | cons a rest ih =>
  refine ⟨(hsame a mem_cons_self).trans h.left, ih h.right ?_⟩
  exact fun b hb => hsame b (mem_cons_of_mem a hb)

namespace Queue

def queuePush (q : Queue) (item : Nat) : Queue :=
 if q.sz = 0 then
  { links := q.links.initListNode item, first := item, last := item, sz := q.sz + 1 }
 else
  { links := (q.links.initListNode item).mergeList q.last item
    first := q.first, last := item, sz := q.sz + 1 }

def queuePop (q : Queue) : Option Queue :=
 if q.sz = 0 then none
 else if q.sz = 1 then some { q with first := 0, last := 0, sz := 0 }
 else some { q with
  links := q.links.detachFromList q.first
  first := q.links.next q.first, sz := q.sz - 1 }

def queueFront (q : Queue) : Option Nat := if q.first = 0 then none else some q.first

structure Holds (q : Queue) (nodes : List Nat) : Prop where
 size : q.sz = nodes.length
 nodup : nodes.Nodup
 null : 0 ∉ nodes
 first : q.first = nodes.head?.getD 0
 last : q.last = nodes.getLast?.getD 0
 next : Chained q.links.next nodes q.first
 prev : nodes ≠ [] -> q.links.prev q.first = q.last

variable {q : Queue} {nodes rest : List Nat} {a item : Nat}

theorem Holds.push (h : q.Holds nodes) (hitem : item ≠ 0) (hnew : item ∉ nodes) :
  (q.queuePush item).Holds (nodes ++ [item]) := by
 have hsize := h.size
 have hnull := h.null
 have hfirst := h.first
 have hnodup : (nodes ++ [item]).Nodup := nodup_append.mpr ⟨h.nodup, by simp, by grind⟩
 rcases eq_nil_or_concat' nodes with rfl | ⟨front, l, rfl⟩
 · have hpush : q.queuePush item = _ := if_pos h.size
   rw [hpush]
   constructor <;> simp [Chained, Links.initListNode, Links.setNext, Links.setPrev, *, hitem.symm]
 have hpush : q.queuePush item = _ := if_neg (by rw [hsize]; simp)
 have hlast : q.last = l := by
  rw [h.last]
  simp
 rcases chained_concat.mp h.next with ⟨hfront, hback⟩
 have hne : l ≠ item := by
  rintro rfl
  exact hnew (by simp)
 rw [hpush, hlast]
 constructor
 · simp [hsize]
 · exact hnodup
 · grind
 · rw [hfirst]
   cases front <;> rfl
 · simp
 · have hnext : forall x, ((q.links.initListNode item).mergeList l item).next x =
    if x = item then q.first else if x = l then item else q.links.next x := by
    intro x
    simp only [Links.mergeList, Links.initListNode, Links.setNext, Links.setPrev,
     Function.update_apply, hback]
    grind
   rw [chained_concat, chained_concat]
   refine ⟨⟨hfront.congr ?_, ?_⟩, ?_⟩ <;> grind
 · intro _
   simp only [Links.mergeList, Links.initListNode, Links.setNext, Links.setPrev,
    Function.update_apply, hback]
   grind

theorem Holds.pop (h : q.Holds (a :: rest)) :
  exists next, q.queuePop = some next ∧ next.Holds rest := by
 have hsize := h.size
 have hnull := h.null
 have hfirst : q.first = a := h.first
 have hnodup := h.nodup
 unfold queuePop
 rw [if_neg (by rw [hsize]; simp)]
 rcases eq_nil_or_concat' rest with rfl | ⟨front, l, rfl⟩
 · refine ⟨_, if_pos hsize, ?_⟩
   constructor <;> simp [Chained]
 refine ⟨_, if_neg (by rw [hsize]; simp), ?_⟩
 have hlast : q.last = l := by
  rw [h.last, ← cons_append, getLast?_concat]
  rfl
 have hprev := h.prev (by simp)
 rw [hlast, hfirst] at hprev
 rcases h.next with ⟨hnext, hrest⟩
 rcases chained_concat.mp hrest with ⟨hfront, hback⟩
 rw [hfirst]
 rw [hfirst] at hback
 have hla : l ≠ a := by
  rintro rfl
  simp at hnodup
 generalize hb : q.links.next a = b at *
 have hbne : b ≠ a := by
  rw [hnext]
  cases front <;> grind
 constructor
 · simp [hsize]
 · exact (nodup_cons.mp hnodup).right
 · exact fun hmem => hnull (mem_cons_of_mem a hmem)
 · rw [hnext]
   cases front <;> rfl
 · rw [hlast]
   simp
 · have hnext : forall x, (q.links.detachFromList a).next x =
    if x = a then a else if x = l then b else q.links.next x := by
    intro x
    simp only [Links.detachFromList, Links.initListNode, Links.setNext, Links.setPrev,
     Function.update_apply, hprev, hb]
   rw [chained_concat]
   refine ⟨hfront.congr ?_, ?_⟩ <;> grind
 · intro _
   rw [hlast]
   simp only [Links.detachFromList, Links.initListNode, Links.setNext, Links.setPrev,
    Function.update_apply, hprev, hb]
   grind

end Queue
end OSLab.Common
