import OSLab.Common.Queue
import OSLab.Foundation.TransitionSystem

/-!
# Requests to the SD card

`sdrw` and `sd_intr` of `driver/sd.c`.  A section under the lock of `buf_queue` is one
step, and the card raises one interrupt for every request that has been started.  The
commands, the data and the errors of the card are left out.

The handler sets the flags of a buffer and posts its semaphore before it takes the
buffer off the queue, and the caller tests the flags without the lock.
-/

namespace OSLab.Driver
open Common Foundation Function Option TransitionSystem

inductive Caller where
 | outside
 | test (b : Nat)
 | wait (b : Nat)
deriving DecidableEq

inductive Handler where
 | idle
 | transfer (b : Nat)
 | post (b : Nat)
 | pop (b : Nat)
 | start
deriving DecidableEq

namespace Handler

def buf? : Handler -> Option Nat
 | transfer b | post b | pop b => some b
 | _ => none

def finishing (h : Handler) (b : Nat) : Bool := decide (h = post b ∨ h = pop b)

end Handler

/--
The queue, for every buffer whether its flags are `B_VALID` and the tokens of its
semaphore, and the requests that the card works on.  The rest is history: the buffers
on the queue, those queued and started so far, and those that no call uses.
-/
structure Sd where
 queue : Queue
 valid : Nat -> Bool
 sem : Nat -> Nat
 caller : Nat -> Caller
 handler : Handler
 active : List Nat
 nodes : List Nat
 queued : List Nat
 started : List Nat
 free : Nat -> Bool

inductive SdLabel where
 | submit (t b : Nat)
 | run (t : Nat)
 | interrupt

namespace Sd
variable (s : Sd)

def sdStart (b : Nat) : Sd :=
 { s with active := s.active ++ [b], started := s.started ++ [b] }

/-- `sdrw` up to its loop; the flags, which its callers set before the call, are set here. -/
def submit (t b : Nat) : Option Sd :=
 if s.caller t = .outside ∧ b ≠ 0 then
  let pushed := { s with
   queue := s.queue.queuePush b
   valid := update s.valid b false
   sem := update s.sem b 0
   caller := update s.caller t (.test b)
   nodes := s.nodes ++ [b]
   queued := s.queued ++ [b]
   free := update s.free b false }
  some (if s.queue.sz = 0 then pushed.sdStart b else pushed)
 else
  none

def run (t : Nat) : Option Sd :=
 match s.caller t with
 | .outside => none
 | .test b =>
  if s.valid b then
   some { s with caller := update s.caller t .outside, free := update s.free b true }
  else
   some { s with caller := update s.caller t (.wait b) }
 | .wait b =>
  if s.sem b = 0 then
   none
  else
   some { s with
    sem := update s.sem b (s.sem b - 1), caller := update s.caller t (.test b) }

/-- `sd_intr`, which is entered while the card has a request. -/
def interrupt : Option Sd :=
 match s.handler with
 | .idle =>
  if s.active = [] then none
  else s.queue.queueFront.map fun b => { s with handler := .transfer b }
 | .transfer b =>
  some { s with
   active := s.active.tail, valid := update s.valid b true, handler := .post b }
 | .post b => some { s with sem := update s.sem b (s.sem b + 1), handler := .pop b }
 | .pop _ => s.queue.queuePop.map fun q =>
  { s with
    queue := q, nodes := s.nodes.tail, handler := if q.sz = 0 then .idle else .start }
 | .start => s.queue.queueFront.map fun b => { s.sdStart b with handler := .idle }

def step : SdLabel -> Option Sd
 | .submit t b => s.submit t b
 | .run t => s.run t
 | .interrupt => s.interrupt

structure Start (s : Sd) : Prop where
 queue : s.queue.Holds []
 caller : forall t, s.caller t = .outside
 handler : s.handler = .idle
 empty : s.active = [] ∧ s.nodes = [] ∧ s.queued = [] ∧ s.started = []

end Sd

def sdSystem : TransitionSystem Sd SdLabel where
 initial := Sd.Start
 step := Sd.step

namespace Sd
variable {s next : Sd} {t b : Nat}

/-!
# The order of requests
-/

def waiting (s : Sd) : List Nat := if s.handler = .start then s.nodes else s.nodes.tail

def onCard (s : Sd) : List Nat :=
 match s.handler with
 | .idle | .transfer _ => s.nodes.take 1
 | _ => []

structure Serving (s : Sd) : Prop where
 holds : s.queue.Holds s.nodes
 order : s.queued = s.started ++ s.waiting
 active : s.active = s.onCard
 front : forall b, s.handler.buf? = some b -> s.nodes.head? = some b
 start : s.handler = .start -> s.nodes ≠ []

theorem serving_start (h : s.Start) : s.Serving := by
 rcases h.empty with ⟨hactive, hnodes, hqueued, hstarted⟩
 constructor
 · rw [hnodes]
   exact h.queue
 · simp [waiting, h.handler, hnodes, hqueued, hstarted]
 · simp [onCard, h.handler, hnodes, hactive]
 · simp [Handler.buf?, h.handler]
 · simp [h.handler]

section
variable (h : s.Serving)
include h

theorem Serving.idle (hnodes : s.nodes = []) : s.handler = .idle := by
 have hfront := h.front
 have hstart := h.start
 cases hhandler : s.handler <;> simp_all [Handler.buf?]

theorem Serving.submit (hnew : b ∉ s.nodes) (hstep : s.submit t b = some next) : next.Serving := by
 unfold Sd.submit at hstep
 rcases ite_none_right_eq_some.mp hstep with ⟨hcond, hstep⟩
 have hpush := h.holds.push hcond.right hnew
 have hactive := h.active
 have horder := h.order
 simp only [some.injEq] at hstep
 rw [← hstep]
 by_cases hnodes : s.nodes = []
 · -- The request is the only one and is started at once.
   have hidle := h.idle hnodes
   rw [if_pos (by rw [h.holds.size, hnodes]; rfl)]
   simp only [onCard, waiting, hidle, hnodes] at hactive horder
   constructor
   · exact hpush
   · simp [sdStart, waiting, hidle, hnodes, horder]
   · simp [sdStart, onCard, hidle, hnodes, hactive]
   · simp [sdStart, Handler.buf?, hidle]
   · simp [sdStart]
 have hsize : s.queue.sz ≠ 0 := by
  rw [h.holds.size]
  exact fun hzero => hnodes (List.length_eq_zero_iff.mp hzero)
 rcases List.exists_cons_of_ne_nil hnodes with ⟨a, rest, hcons⟩
 rw [if_neg hsize]
 constructor
 · exact hpush
 · simp only [waiting] at horder ⊢
   rw [horder]
   split <;> simp [hcons]
 · simp only [onCard] at hactive ⊢
   rw [hactive]
   split <;> simp [hcons]
 · intro c hc
   have hfront := h.front c hc
   simp only [hcons] at hfront ⊢
   exact hfront
 · simp

theorem Serving.run (hstep : s.run t = some next) : next.Serving := by
 unfold Sd.run at hstep
 split at hstep
 · cases hstep
 · split at hstep <;> cases hstep <;> exact { h with }
 split at hstep
 · cases hstep
 cases hstep
 exact { h with }

theorem Serving.queueFront (hfront : s.queue.queueFront = some b) :
  exists rest, s.nodes = b :: rest := by
 have hfirst := h.holds.first
 unfold Queue.queueFront at hfront
 split at hfront
 · cases hfront
 cases hnodes : s.nodes with
 | nil | cons a rest => simp_all

theorem Serving.nodes_eq (hbuf : s.handler.buf? = some b) : exists rest, s.nodes = b :: rest :=
 List.head?_eq_some_iff.mp (h.front b hbuf)

theorem Serving.interrupt (hstep : s.interrupt = some next) : next.Serving := by
 have hholds := h.holds
 have hactive := h.active
 have horder := h.order
 unfold Sd.interrupt at hstep
 split at hstep
 · rename_i hidle
   split at hstep
   · cases hstep
   rcases map_eq_some_iff.mp hstep with ⟨b, hfront, rfl⟩
   rcases h.queueFront hfront with ⟨rest, hnodes⟩
   simp only [onCard, waiting, hidle] at hactive horder
   constructor <;> simp_all [Handler.buf?, onCard, waiting]
 case h_2 b hat | h_3 b hat =>
  cases hstep
  rcases h.nodes_eq (by rw [hat]; rfl) with ⟨rest, hnodes⟩
  simp only [onCard, waiting, hat] at hactive horder
  constructor <;> simp_all [Handler.buf?, onCard, waiting]
 · rename_i b hat
   rcases map_eq_some_iff.mp hstep with ⟨q, hpop, rfl⟩
   rcases h.nodes_eq (by rw [hat]; rfl) with ⟨rest, hnodes⟩
   rw [hnodes] at hholds
   rcases hholds.pop with ⟨after, hafter, hrest⟩
   rw [hpop] at hafter
   cases hafter
   have hsize := hrest.size
   simp only [onCard, waiting, hat] at hactive horder
   -- The next request is started by the handler if there is one.
   cases rest with
   | nil | cons c rest => constructor <;> simp_all [Handler.buf?, onCard, waiting]
 · rename_i hat
   rcases map_eq_some_iff.mp hstep with ⟨b, hfront, rfl⟩
   rcases h.queueFront hfront with ⟨rest, hnodes⟩
   simp only [onCard, waiting, hat] at hactive horder
   constructor <;> simp_all [Handler.buf?, onCard, waiting, sdStart]

theorem Serving.step {l : SdLabel}
  (hnew : forall t b, l = .submit t b -> b ∉ s.nodes) (hstep : s.step l = some next) :
  next.Serving := by
 cases l with
 | submit t b => exact h.submit (hnew t b rfl) hstep
 | run t => exact h.run hstep
 | interrupt => exact h.interrupt hstep
end

/-- `sdrw` is called with a buffer that is not on the queue. -/
def unqueued (s : Sd) : SdLabel -> Bool
 | .submit _ b => !s.nodes.contains b
 | _ => true

structure Served (s : Sd) : Prop where
 holds : s.queue.Holds s.nodes
 one : s.active.length ≤ 1
 front : s.handler = .idle -> s.queue.sz ≠ 0 -> s.active = [s.queue.first]
 order : s.queued = s.started ++ s.waiting

theorem serving_of_reachable (hreach : Reachable sdSystem (fun s l => s.unqueued l) s) :
  s.Serving := by
 apply reachable_invariant Serving _ _ hreach
 · exact fun s => serving_start
 intro s l next _ h hguard hstep
 apply h.step _ hstep
 rintro t b rfl
 simpa [unqueued] using hguard

end Sd

def bootSd : Sd where
 queue := ⟨⟨fun _ => 0, fun _ => 0⟩, 0, 0, 0⟩
 valid := fun _ => false
 sem := fun _ => 0
 caller := fun _ => .outside
 handler := .idle
 active := []
 nodes := []
 queued := []
 started := []
 free := fun _ => true

theorem bootSd_start : sdSystem.initial bootSd where
 queue := by constructor <;> simp [bootSd, Chained]
 caller := fun _ => rfl
 handler := rfl
 empty := ⟨rfl, rfl, rfl, rfl⟩

namespace Sd
variable {s next : Sd} {t b : Nat}

structure Quiet (s : Sd) : Prop extends s.Serving where
 valid : forall b, b ∈ s.nodes -> s.valid b = true -> s.handler.finishing b = true
 free : forall b, s.free b = true -> b ∉ s.nodes

def undisturbed (s : Sd) : SdLabel -> Bool
 | .submit _ b => s.free b
 | .run t =>
  match s.caller t with
  | .test b => !s.handler.finishing b
  | _ => true
 | .interrupt => true

theorem Quiet.submit (h : s.Quiet) (hfree : s.free b)
  (hstep : s.submit t b = some next) : next.Quiet := by
 have hnew := h.free b hfree
 have hserving := h.toServing.submit hnew hstep
 have hvalid := h.valid
 have hfrees := h.free
 unfold Sd.submit at hstep
 split at hstep
 · simp only [some.injEq] at hstep
   have hfields : next.nodes = s.nodes ++ [b] ∧ next.valid = update s.valid b false ∧
    next.free = update s.free b false ∧ next.handler = s.handler := by
    rw [← hstep]
    split <;> exact ⟨rfl, rfl, rfl, rfl⟩
   rcases hfields with ⟨hnodes, hvalids, hfree', hhandler⟩
   refine ⟨hserving, ?_, ?_⟩
   · rw [hnodes, hvalids, hhandler]
     grind
   rw [hnodes, hfree']
   grind
 · cases hstep

theorem Quiet.run (h : s.Quiet) (hguard : s.undisturbed (.run t))
  (hstep : s.run t = some next) : next.Quiet := by
 have hserving := h.toServing.run hstep
 unfold Sd.run at hstep
 unfold undisturbed at hguard
 split at hstep
 · cases hstep
 · rename_i b hat
   simp only [hat] at hguard
   split at hstep
   · -- The caller returns, so the handler has taken the buffer off the queue.
     rename_i hvalid
     cases hstep
     refine ⟨hserving, h.valid, ?_⟩
     intro c hc hmem
     by_cases hcb : c = b
     · rw [hcb] at hmem
       rw [h.valid b hmem hvalid] at hguard
       cases hguard
     · exact h.free c ((update_of_ne hcb _ _).symm.trans hc) hmem
   cases hstep
   exact ⟨hserving, h.valid, h.free⟩
 split at hstep
 · cases hstep
 cases hstep
 exact ⟨hserving, h.valid, h.free⟩

theorem Quiet.interrupt (h : s.Quiet) (hstep : s.interrupt = some next) : next.Quiet := by
 have hserving := h.toServing.interrupt hstep
 have hvalid := h.valid
 have hfree := h.free
 have hnodup := h.holds.nodup
 unfold Sd.interrupt at hstep
 split at hstep
 · rename_i hat
   split at hstep
   · cases hstep
   rcases map_eq_some_iff.mp hstep with ⟨b, _, rfl⟩
   refine ⟨hserving, ?_, hfree⟩
   simp_all [Handler.finishing]
 · rename_i b hat
   cases hstep
   refine ⟨hserving, ?_, hfree⟩
   intro c hc hset
   by_cases hcb : c = b
   · simp [hcb, Handler.finishing]
   have hbefore := hvalid c hc ((update_of_ne hcb _ _).symm.trans hset)
   simp [hat, Handler.finishing] at hbefore
 · rename_i b hat
   cases hstep
   refine ⟨hserving, ?_, hfree⟩
   intro c hc hset
   have hbefore := hvalid c hc hset
   simpa [hat, Handler.finishing] using hbefore
 · rename_i b hat
   rcases map_eq_some_iff.mp hstep with ⟨q, _, rfl⟩
   rcases h.nodes_eq (by rw [hat]; rfl) with ⟨rest, hnodes⟩
   refine ⟨hserving, ?_, ?_⟩
   · intro c hc hset
     simp_all [Handler.finishing]
     grind
   intro c hc hmem
   exact hfree c hc (List.mem_of_mem_tail hmem)
 rename_i hat
 rcases map_eq_some_iff.mp hstep with ⟨b, _, rfl⟩
 refine ⟨hserving, ?_, hfree⟩
 simp_all [Handler.finishing, sdStart]

theorem quiet_of_reachable
  (hreach : Reachable sdSystem (fun s l => s.undisturbed l) s) : s.Quiet := by
 apply reachable_invariant Quiet _ _ hreach
 · intro s hstart
   refine ⟨serving_start hstart, ?_, ?_⟩ <;> simp [hstart.empty]
 intro s l next _ h hguard hstep
 cases l with
 | submit t b => exact h.submit hguard hstep
 | run t => exact h.run hguard hstep
 | interrupt => exact h.interrupt hstep

end Sd

/-- A buffer whose call has returned is not on the queue, nor in the hands of `sd_intr`. -/
theorem returned_buffer_untouched {s : Sd} {b : Nat}
  (hreach : Reachable sdSystem (fun s l => s.undisturbed l = true) s)
  (hfree : s.free b = true) :
  s.queue.Holds s.nodes ∧ b ∉ s.nodes ∧ s.handler.buf? ≠ some b := by
 have h := Sd.quiet_of_reachable hreach
 refine ⟨h.holds, h.free b hfree, fun hbuf => ?_⟩
 rcases h.nodes_eq hbuf with ⟨rest, hnodes⟩
 apply h.free b hfree
 rw [hnodes]
 exact List.mem_cons_self

open SdLabel in
theorem returned_buffer_untouched_after_read :
  exists s, Reachable sdSystem (fun s l => s.undisturbed l = true) s ∧ s.queued = [10] ∧
    s.free 10 = true ∧ s.queue.Holds s.nodes ∧ 10 ∉ s.nodes ∧ s.handler.buf? ≠ some 10 := by
 rcases exists_reachable_of_execute sdSystem (fun s l => s.undisturbed l = true)
  bootSd_start ([submit 1 10, run 1] ++ List.replicate 4 interrupt ++ [run 1, run 1])
  (fun s => s.queued = [10] ∧ s.free 10 = true) (by decide +kernel) with
  ⟨s, hreach, hqueued, hfree⟩
 exact ⟨s, hreach, hqueued, hfree, returned_buffer_untouched hreach hfree⟩

open SdLabel in
/-- The caller sees the flags, and the handler is about to post the semaphore. -/
theorem returned_buffer_posted :
  exists s, Reachable sdSystem unguarded s ∧ s.free 10 = true ∧ 10 ∈ s.nodes ∧
    s.handler = .post 10 := by
 exact exists_reachable_with bootSd_start
  [submit 1 10, interrupt, interrupt, run 1] (by decide +kernel)

end OSLab.Driver
