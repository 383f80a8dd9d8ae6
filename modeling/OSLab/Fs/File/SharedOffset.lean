import OSLab.Fs.File.FileWrite

/-!
# Two writers of one open file

Two processes share an open file, and with it `f->off`.  `filewrite` works out how many
bytes it may write from the offset at its beginning, but every round writes at the offset
of that moment.  As long as the bytes that calls have still to write fit below the largest
size together, the assertion of `inode_write` holds in every round.
-/

namespace OSLab.Fs
open Foundation TransitionSystem Function

inductive Writer where
 | idle
 | loop (total nwrite : UInt64)
 | returned (nwrite : UInt64)

def Writer.left : Writer -> Nat
 | loop total nwrite => total.toNat - nwrite.toNat
 | _ => 0

/--
A regular file without holes, the offset, and the two processes.  `stored` is not in the
source: the bytes that the current call of a process has stored.  `failed` is set when an
assertion of `inode_write` fails.
-/
structure SharedFile where
 numBytes : Nat
 off : UInt64
 writer : Bool -> Writer
 stored : Bool -> Nat
 failed : Bool

inductive WriterLabel where
 | call (p : Bool) (n : UInt64)
 | round (p : Bool)

namespace SharedFile
variable (s : SharedFile)

def Asserts (count : UInt64) : Prop :=
 s.off.toNat ≤ s.numBytes ∧ (s.off + count).toNat ≤ inodeMaxBytes ∧ s.off ≤ s.off + count

instance (s : SharedFile) (count : UInt64) : Decidable (s.Asserts count) :=
 inferInstanceAs (Decidable (_ ∧ _))

/-- `inode_write` of `count` bytes at the offset, which it moves. -/
def write (p : Bool) (total nwrite count : UInt64) : SharedFile :=
 { s with
   numBytes := max s.numBytes (s.off.toNat + count.toNat)
   off := s.off + count
   writer := update s.writer p (.loop total (nwrite + count))
   stored := update s.stored p (s.stored p + count.toNat) }

def call (p : Bool) (n : UInt64) : Option SharedFile :=
 match s.writer p with
 | .loop _ _ => none
 | _ => some { s with
  writer := update s.writer p (.loop (writeTotal s.off n) 0)
  stored := update s.stored p 0 }

/-- The test of the loop of `filewrite` and, if it holds, the body. -/
def round (p : Bool) : Option SharedFile :=
 match s.writer p with
 | .loop total nwrite =>
  if nwrite < total then
   if s.Asserts (opCount (total - nwrite)) then
    some (s.write p total nwrite (opCount (total - nwrite)))
   else
    some { s with failed := true }
  else
   some { s with writer := update s.writer p (.returned nwrite) }
 | _ => none

def step : WriterLabel -> Option SharedFile
 | .call p n => s.call p n
 | .round p => s.round p

structure Start (s : SharedFile) : Prop where
 size : s.numBytes ≤ inodeMaxBytes
 off : s.off.toNat ≤ s.numBytes
 writer : forall p, s.writer p = .idle
 failed : s.failed = false

def FitsTogether : WriterLabel -> Prop
 | .call p n => s.off.toNat + (s.writer (!p)).left + (writeTotal s.off n).toNat ≤ inodeMaxBytes
 | .round _ => True

instance (s : SharedFile) : (l : WriterLabel) -> Decidable (s.FitsTogether l)
 | .call _ _ => Nat.decLe _ _
 | .round _ => isTrue trivial

end SharedFile

def sharedSystem : TransitionSystem SharedFile WriterLabel where
 initial := SharedFile.Start
 step := SharedFile.step

theorem SharedFile.write_size {sb : DiskLayout} {i : Nat} {v : Volume} {inode : Inode}
  {fs : FsState} {s : SharedFile} {src : Nat -> UInt8} {count : UInt64}
  (h : Holding sb i v inode fs) (hsize : inode.entry.numBytes.toNat = s.numBytes)
  (hasserts : s.Asserts count) (hcount : count.toNat ≤ maxOpWriteN) (p : Bool)
  (total nwrite : UInt64) :
  (writeOp sb i src s.off count).Meets fs Program.always (fun w next => w = count ∧
    exists inode', next.inodes i = some inode' ∧
      inode'.entry.numBytes.toNat = (s.write p total nwrite count).numBytes) := by
 have hfits := toNat_sum_of_le hasserts.right.right
 have hmax := hasserts.right.left
 refine Program.meets_imp (meets_writeOp h (by rw [hsize]; exact hasserts.left) hcount
  (.inr (by omega)) (.inl trivial) (.inl trivial)) ?_
 rintro w next ⟨hw, v', inode', hreplaced, _⟩
 refine ⟨hw, inode', hreplaced.found, ?_⟩
 rw [hreplaced.size, FileBytes.length_tabulate, hsize]
 rfl

namespace SharedFile
variable {s next : SharedFile} {p q : Bool}

/-!
# The invariant
-/

structure Sound (s : SharedFile) : Prop where
 size : s.numBytes ≤ inodeMaxBytes
 off : s.off.toNat ≤ s.numBytes
 room : forall p, s.off.toNat + (s.writer p).left + (s.writer (!p)).left ≤ inodeMaxBytes
 loop : forall p total nwrite, s.writer p = .loop total nwrite ->
  nwrite.toNat = s.stored p ∧ nwrite.toNat ≤ total.toNat
 returned : forall p nwrite, s.writer p = .returned nwrite -> nwrite.toNat = s.stored p
 failed : s.failed = false

theorem sound_start (h : s.Start) : s.Sound := by
 have hsize := h.size
 have hoff := h.off
 refine ⟨hsize, hoff, ?_, ?_, ?_, h.failed⟩
 · intro p
   rw [h.writer, h.writer]
   change s.off.toNat + 0 + 0 ≤ _
   omega
 · intro p total nwrite hloop
   rw [h.writer] at hloop
   cases hloop
 intro p nwrite hreturned
 rw [h.writer] at hreturned
 cases hreturned

theorem Sound.count (h : s.Sound) {total nwrite : UInt64}
  (hloop : s.writer p = .loop total nwrite) :
  (opCount (total - nwrite)).toNat ≤ total.toNat - nwrite.toNat ∧
    s.off.toNat + (opCount (total - nwrite)).toNat ≤ inodeMaxBytes ∧
    s.Asserts (opCount (total - nwrite)) := by
 have hle := (h.loop p total nwrite hloop).right
 have hroom := h.room p
 rw [hloop] at hroom
 change s.off.toNat + (total.toNat - nwrite.toNat) + _ ≤ _ at hroom
 have hcount := opCount_toNat (total - nwrite)
 rw [UInt64.toNat_sub_of_le _ _ (UInt64.le_iff_toNat_le.mpr hle)] at hcount
 have hmax : inodeMaxBytes < 2 ^ 64 := by decide
 have hsum : (s.off + opCount (total - nwrite)).toNat =
  s.off.toNat + (opCount (total - nwrite)).toNat := by
  rw [UInt64.toNat_add]
  omega
 refine ⟨by omega, by omega, h.off, by omega, ?_⟩
 rw [UInt64.le_iff_toNat_le, hsum]
 exact Nat.le_add_right _ _

theorem Sound.change (h : s.Sound) {w : Writer} {count : Nat}
  (hnext : next.writer = update s.writer p w) (hstored : next.stored = update s.stored p count)
  (hsize : next.numBytes ≤ inodeMaxBytes) (hoff : next.off.toNat ≤ next.numBytes)
  (hfailed : next.failed = false)
  (hroom : next.off.toNat + w.left + (s.writer (!p)).left ≤ inodeMaxBytes)
  (hloop : forall total nwrite, w = .loop total nwrite ->
    nwrite.toNat = count ∧ nwrite.toNat ≤ total.toNat)
  (hreturned : forall nwrite, w = .returned nwrite -> nwrite.toNat = count) :
  next.Sound := by
 have hself : next.writer p = w := by rw [hnext, update_self]
 have hother : next.writer (!p) = s.writer (!p) := by rw [hnext, update_of_ne (Bool.not_ne_self p)]
 have hcases : forall q, q = p ∨ q = !p := by
  intro q
  cases p <;> cases q <;> simp
 refine ⟨hsize, hoff, ?_, ?_, ?_, hfailed⟩
 · intro q
   rcases hcases q with rfl | rfl
   · rw [hself, hother]
     exact hroom
   rw [Bool.not_not, hself, hother, Nat.add_right_comm]
   exact hroom
 · intro q total nwrite hq
   rw [hstored]
   rcases hcases q with rfl | rfl
   · rw [update_self]
     exact hloop total nwrite (hself.symm.trans hq)
   rw [update_of_ne (Bool.not_ne_self p)]
   exact h.loop _ total nwrite (hother.symm.trans hq)
 intro q nwrite hq
 rw [hstored]
 rcases hcases q with rfl | rfl
 · rw [update_self]
   exact hreturned nwrite (hself.symm.trans hq)
 rw [update_of_ne (Bool.not_ne_self p)]
 exact h.returned _ nwrite (hother.symm.trans hq)

theorem Sound.step {l : WriterLabel} (h : s.Sound) (hguard : s.FitsTogether l)
  (hstep : s.step l = some next) : next.Sound := by
 cases l with
 | call p n =>
  have hbegin : some { s with
   writer := update s.writer p (.loop (writeTotal s.off n) 0)
   stored := update s.stored p 0 } = some next -> next.Sound := by
   rintro heq
   cases heq
   refine h.change rfl rfl h.size h.off h.failed ?_ ?_ ?_
   · have hfits : _ ≤ inodeMaxBytes := hguard
     change s.off.toNat + ((writeTotal s.off n).toNat - 0) + _ ≤ _
     omega
   · intro total nwrite hw
     cases hw
     exact ⟨rfl, Nat.zero_le _⟩
   · nofun
  change s.call p n = some next at hstep
  unfold call at hstep
  split at hstep
  · cases hstep
  · exact hbegin hstep
 | round p =>
  change s.round p = some next at hstep
  unfold round at hstep
  split at hstep
  · rename_i total nwrite hloop
    rcases h.count hloop with ⟨hle, hfits, hasserts⟩
    rcases h.loop p total nwrite hloop with ⟨hstored, _⟩
    have hroom := h.room p
    rw [hloop] at hroom
    change s.off.toNat + (total.toNat - nwrite.toNat) + _ ≤ _ at hroom
    have hoff := h.off
    have hsize := h.size
    split at hstep
    · cases hstep
      generalize opCount (total - nwrite) = count at *
      have hsum := toNat_sum_of_le hasserts.right.right
      have hwrite : (nwrite + count).toNat = nwrite.toNat + count.toNat := by
       have htotal := UInt64.toNat_lt total
       rw [UInt64.toNat_add]
       omega
      refine h.change rfl rfl ?_ ?_ h.failed ?_ ?_ ?_
      · change max s.numBytes _ ≤ _
        omega
      · change (s.off + count).toNat ≤ max s.numBytes _
        omega
      · change (s.off + count).toNat + (total.toNat - (nwrite + count).toNat) + _ ≤ _
        omega
      · intro total' nwrite' hw
        cases hw
        omega
      · nofun
    cases hstep
    refine h.change rfl (Function.update_eq_self p s.stored).symm hsize hoff h.failed ?_ ?_ ?_
    · change s.off.toNat + 0 + _ ≤ _
      omega
    · nofun
    intro nwrite' hw
    cases hw
    exact hstored
  · cases hstep

end SharedFile

/-!
# Results
-/

/--
No assertion of `inode_write` has failed, the next round of a call stays below the largest
size, and a call returns the number of bytes that it has stored.
-/
structure SharedFile.Safe (s : SharedFile) : Prop where
 asserts : s.failed = false
 fits : forall p total nwrite, s.writer p = .loop total nwrite ->
  s.off.toNat + (opCount (total - nwrite)).toNat ≤ inodeMaxBytes
 returns : forall p nwrite, s.writer p = .returned nwrite -> nwrite.toNat = s.stored p

theorem shared_offset_safe_of_reachable {s : SharedFile}
  (h : Reachable sharedSystem SharedFile.FitsTogether s) : s.Safe := by
 have hsound : s.Sound := by
  apply reachable_invariant SharedFile.Sound _ _ h
  · intro s hstart
    exact SharedFile.sound_start hstart
  intro s l next _ hs hguard hstep
  exact hs.step hguard hstep
 exact ⟨hsound.failed, fun p total nwrite hloop => (hsound.count hloop).right.left, hsound.returned⟩

def SharedFile.nearlyFull : SharedFile where
 numBytes := 71000
 off := 71000
 writer := fun _ => .idle
 stored := fun _ => 0
 failed := false

theorem SharedFile.start_nearlyFull : SharedFile.nearlyFull.Start where
 size := by decide
 off := by decide
 writer := fun _ => rfl
 failed := rfl

def Writer.value? : Writer -> Option UInt64
 | returned nwrite => some nwrite
 | _ => none

open WriterLabel in
/-- Two calls of 300 bytes at a time fit. -/
theorem shared_offset_safe_two_calls : exists s : SharedFile, s.Safe ∧ s.off = 71600 ∧
    (s.writer false).value? = some 300 ∧ (s.writer true).value? = some 300 := by
 rcases exists_reachable_of_execute sharedSystem SharedFile.FitsTogether SharedFile.start_nearlyFull
  [call false 300, call true 300, round true, round false, round true, round false]
  (fun s => s.off = 71600 ∧ (s.writer false).value? = some 300 ∧
   (s.writer true).value? = some 300) (by decide +kernel) with ⟨s, hreach, htest⟩
 exact ⟨s, shared_offset_safe_of_reachable hreach, htest⟩

open WriterLabel in
/-- Two calls of 680 bytes each take the room for one of them. -/
theorem shared_offset_fails_assertion :
  exists s, Reachable sharedSystem unguarded s ∧ s.failed = true :=
 exists_reachable_with SharedFile.start_nearlyFull
  [call false 680, call true 680, round false, round true] (by decide +kernel)

end OSLab.Fs
