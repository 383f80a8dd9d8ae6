import OSLab.Kernel.Vm

/-!
# The user stack that `execve` fills

The strings of `envp` and `argv` go to the top of ten new pages, and the arrays of pointers
below them.  Nothing is checked on the way.
-/

namespace OSLab.Kernel
open List

structure CString where
 chars : List UInt8
 fits : chars.length < 2 ^ 48

def CString.strlen (x : CString) : UInt64 := .ofNat x.chars.length

def CString.words (x : CString) : Nat := (x.chars.length + 8) / 8

/-- `sp`, the calls of `copyout`, and the indices written in `envp_p` and `argv_p`. -/
structure UserStack where
 sp : UInt64
 copied : List (UInt64 × UInt64)
 slots : List Nat

namespace UserStack

def push (n len : UInt64) (s : UserStack) : UserStack :=
 { s with sp := s.sp - n, copied := (s.sp - n, len) :: s.copied }

def pushString (x : CString × Nat) (s : UserStack) : UserStack :=
 let sp := s.sp - (x.1.strlen + 1)
 let sp := sp - sp % 8
 { sp := sp, copied := (sp, x.1.strlen + 1) :: s.copied, slots := x.2 :: s.slots }

variable (strings : List CString)

/-- The strings that `for(int i=argc-1;i>=0;--i)` visits, with `argc - 1` cut to an `int`. -/
def visited : List CString :=
 strings.take (((strings.length : Int) - 1).bmod 0x100000000 + 1).toNat

def pushStrings (s : UserStack) : UserStack :=
 let s := (visited strings).zipIdx.foldr pushString s
 { s with slots := strings.length :: s.slots }

def stackPageSize : Nat := 10

def stackTop (maxEnd : UInt64) : UInt64 :=
 .ofNat (pageBase maxEnd.toNat + pageSize + stackPageSize * pageSize)

def arraySize (argv : List CString) : UInt64 := (.ofNat argv.length + 1) * 8

def exec (top : UInt64) (argv envp : List CString) : UserStack :=
 push 8 8 (push (arraySize argv) (arraySize argv) (push (arraySize argv) (arraySize argv)
  (pushStrings argv (push 8 8 (pushStrings envp (push 16 8 ⟨top, [], []⟩))))))

/-!
# What is used of the stack
-/

def words (strings : List CString) : Nat := ((visited strings).map CString.words).sum

/-- `sp` is so many bytes below the top, and what was copied stands between them. -/
structure Uses (top : UInt64) (s : UserStack) (used : Nat) : Prop where
 sp : s.sp = top - .ofNat used
 aligned : used % 8 = 0
 copied : forall c, c ∈ s.copied ->
  exists n, c.1 = top - .ofNat n ∧ c.2.toNat ≤ n ∧ n ≤ used

variable {top : UInt64} {s : UserStack} {used : Nat}

theorem toNat_below (top : UInt64) (n : Nat) :
  (top - .ofNat n).toNat = (2 ^ 64 - n % 2 ^ 64 + top.toNat) % 2 ^ 64 := by
 rw [UInt64.toNat_sub, UInt64.toNat_ofNat']

section
variable (h : Uses top s used)
include h

theorem uses_copy {n : Nat} {len : UInt64} {slots : List Nat}
  (hn : n % 8 = 0) (hlen : len.toNat ≤ n) :
  Uses top ⟨top - .ofNat (used + n), (top - .ofNat (used + n), len) :: s.copied, slots⟩
    (used + n) := by
 have haligned := h.aligned
 refine ⟨rfl, by omega, ?_⟩
 intro c hc
 rcases mem_cons.mp hc with rfl | hold
 · exact ⟨used + n, rfl, Nat.le_add_left_of_le hlen, Nat.le_refl _⟩
 rcases h.copied c hold with ⟨m, hat, hm, hused⟩
 exact ⟨m, hat, hm, Nat.le_add_right_of_le hused⟩

theorem Uses.push (n len : UInt64) (hn : n.toNat % 8 = 0)
  (hlen : len.toNat ≤ n.toNat) : Uses top (push n len s) (used + n.toNat) := by
 have hsp : s.sp - n = top - .ofNat (used + n.toNat) := by
  have hn64 := n.toNat_lt
  apply UInt64.toNat_inj.mp
  rw [h.sp, UInt64.toNat_sub, toNat_below, toNat_below]
  omega
 unfold UserStack.push
 rw [hsp]
 exact uses_copy h hn hlen

theorem Uses.pushString (htop : top.toNat % 16 = 0) (x : CString × Nat) :
  Uses top (pushString x s) (used + 8 * x.1.words) := by
 have hfits := x.1.fits
 have haligned := h.aligned
 have hlen : (x.1.strlen + 1).toNat = x.1.chars.length + 1 := by
  unfold CString.strlen
  rw [UInt64.toNat_add, UInt64.toNat_ofNat']
  change (_ + 1) % _ = _
  omega
 have hsp : s.sp - (x.1.strlen + 1) - (s.sp - (x.1.strlen + 1)) % 8 =
  top - .ofNat (used + 8 * x.1.words) := by
  apply UInt64.toNat_inj.mp
  rw [h.sp, UInt64.toNat_sub, UInt64.toNat_mod, UInt64.toNat_sub _ (x.1.strlen + 1), toNat_below,
   toNat_below, hlen]
  change (_ - _ % 8 + _) % _ = _
  unfold CString.words
  omega
 unfold UserStack.pushString
 simp only [hsp]
 apply uses_copy h (Nat.mul_mod_right 8 _)
 rw [hlen]
 unfold CString.words
 omega

theorem Uses.pushStrings (htop : top.toNat % 16 = 0)
  (strings : List CString) : Uses top (pushStrings strings s) (used + 8 * words strings) := by
 have hfold : forall xs : List (CString × Nat), Uses top (xs.foldr UserStack.pushString s)
  (used + 8 * ((xs.map Prod.fst).map CString.words).sum) := by
  intro xs
  induction xs with
  | nil => exact h
  | cons x xs ih =>
   rw [map_cons, map_cons, sum_cons, Nat.mul_add, Nat.add_comm (8 * _), ← Nat.add_assoc]
   exact ih.pushString htop x
 have hall := hfold (visited strings).zipIdx
 rw [zipIdx_map_fst] at hall
 exact { hall with }
end

theorem arraySize_mod (argv : List CString) : (arraySize argv).toNat % 8 = 0 := by
 unfold arraySize
 rw [UInt64.toNat_mul]
 change _ * 8 % _ % _ = _
 omega

theorem uses_exec (htop : top.toNat % 16 = 0) (argv envp : List CString) :
  Uses top (exec top argv envp) (16 + 8 * words envp + 8 + 8 * words argv +
    (arraySize argv).toNat + (arraySize argv).toNat + 8) := by
 have hstart : Uses top ⟨top, [], []⟩ 0 := ⟨(UInt64.sub_zero top).symm, rfl, nofun⟩
 have henvp := (hstart.push 16 8 rfl (by decide)).pushStrings htop envp
 have hargv := (henvp.push 8 8 rfl (by decide)).pushStrings htop argv
 have harrays := (hargv.push (arraySize argv) _ (arraySize_mod argv) (Nat.le_refl _)).push
  (arraySize argv) _ (arraySize_mod argv) (Nat.le_refl _)
 exact harrays.push 8 8 rfl (by decide)

theorem stackTop_mod (maxEnd : UInt64) : (stackTop maxEnd).toNat % 16 = 0 := by
 unfold stackTop stackPageSize pageBase pageSize
 rw [UInt64.toNat_ofNat']
 omega

/-- The stack pointer is aligned exactly if the strings take an even number of words. -/
theorem exec_sp_aligned_iff (maxEnd : UInt64) (argv envp : List CString) :
    (exec (stackTop maxEnd) argv envp).sp.toNat % 16 = 0 ↔
      (words argv + words envp) % 2 = 0 := by
 have htop := stackTop_mod maxEnd
 have harray := arraySize_mod argv
 rw [(uses_exec htop argv envp).sp, toNat_below]
 omega

/-- One argument of one character and no environment. -/
theorem exec_sp_not_aligned :
    (exec (stackTop 0x402000) [⟨[97], by decide⟩] []).sp.toNat % 16 = 8 := by
 decide

/-!
# Staying in the section
-/

/-- The places of `envp_p` and `argv_p`, and the pages that were mapped for the stack. -/
def InBounds (top : UInt64) (s : UserStack) : Prop :=
 (forall i, i ∈ s.slots -> i < 32) ∧ forall c, c ∈ s.copied ->
  (top - .ofNat (stackPageSize * pageSize)).toNat ≤ c.1.toNat ∧
   c.1.toNat + c.2.toNat ≤ top.toNat

/-- These are the pages that `execve` maps for the stack before it fills them. -/
theorem mapped_of_inBounds {maxEnd : UInt64} {s : UserStack} (h : InBounds (stackTop maxEnd) s)
  (hfits : pageBase maxEnd.toNat + 11 * pageSize < 2 ^ 64) {c : UInt64 × UInt64}
  (hc : c ∈ s.copied) {addr : Nat} (hlow : c.1.toNat ≤ addr)
  (hhigh : addr < c.1.toNat + c.2.toNat) :
  vpnOf addr ∈ Vm.stackPages (pageBase maxEnd.toNat + pageSize) := by
 have hinside := h.right c hc
 unfold stackTop stackPageSize at hinside
 rw [toNat_below, UInt64.toNat_ofNat'] at hinside
 unfold pageBase pageSize at *
 apply mem_map.mpr
 refine ⟨9 - (addr / 4096 - maxEnd.toNat / 4096 - 1), mem_range.mpr (by omega), ?_⟩
 unfold vpnOf pageSize
 congr 1
 omega

theorem slots_pushStrings (s : UserStack) :
  (forall i, i ∈ (pushStrings strings s).slots -> i < 32) ↔
    strings.length < 32 ∧ forall i, i ∈ s.slots -> i < 32 := by
 have hfold : forall xs : List (CString × Nat),
  (xs.foldr pushString s).slots = xs.map Prod.snd ++ s.slots := by
  intro xs
  induction xs with
  | nil => rfl
  | cons x xs ih => exact congrArg (x.2 :: ·) ih
 change (forall i, i ∈ strings.length :: (foldr pushString s _).slots -> _) ↔ _
 rw [hfold, zipIdx_map_snd, forall_mem_cons, forall_mem_append]
 constructor
 · exact fun h => ⟨h.left, h.right.right⟩
 intro h
 refine ⟨h.left, ?_, h.right⟩
 intro i hi
 have hlt := (mem_range'_1.mp hi).right
 have hle : (visited strings).length ≤ strings.length := length_take_le' _ _
 omega

theorem words_lt {strings : List CString} (h : strings.length < 32) : words strings < 2 ^ 52 := by
 have hsum : forall xs : List CString, (xs.map CString.words).sum ≤ xs.length * 2 ^ 46 := by
  intro xs
  induction xs with
  | nil => exact Nat.le_refl _
  | cons x xs ih =>
   have hfits := x.fits
   rw [map_cons, sum_cons, length_cons]
   unfold CString.words at *
   omega
 have hall := hsum (visited strings)
 have hle : (visited strings).length ≤ strings.length := length_take_le' _ _
 unfold words
 omega

/--
The stack is filled within the arrays and the section exactly if there are at most 31
strings of either kind, the section does not go around the address space, and all of it fits.
-/
theorem exec_in_bounds_iff (maxEnd : UInt64) (argv envp : List CString) :
    InBounds (stackTop maxEnd) (exec (stackTop maxEnd) argv envp) ↔
      argv.length < 32 ∧ envp.length < 32 ∧ 10 * pageSize ≤ (stackTop maxEnd).toNat ∧
      48 + 8 * (words argv + words envp) + 16 * argv.length ≤ 10 * pageSize := by
 have hslots : (forall i, i ∈ (exec (stackTop maxEnd) argv envp).slots -> i < 32) ↔
  argv.length < 32 ∧ envp.length < 32 := by
  change (forall i, i ∈ (pushStrings argv _).slots -> _) ↔ _
  rw [slots_pushStrings]
  change _ ∧ (forall i, i ∈ (pushStrings envp _).slots -> _) ↔ _
  rw [slots_pushStrings]
  exact and_congr_right fun _ => and_iff_left nofun
 unfold InBounds
 rw [hslots, and_assoc]
 refine and_congr_right fun hargv => and_congr_right fun henvp => ?_
 have huses := uses_exec (stackTop_mod maxEnd) argv envp
 generalize stackTop maxEnd = top at huses
 have hbound := top.toNat_lt
 have harray : (arraySize argv).toNat = 8 * argv.length + 8 := by
  unfold arraySize
  rw [UInt64.toNat_mul, UInt64.toNat_add, UInt64.toNat_ofNat']
  change (_ + 1) % _ * 8 % _ = _
  omega
 have hargvWords := words_lt hargv
 have henvpWords := words_lt henvp
 rw [toNat_below]
 unfold stackPageSize pageSize
 constructor
 · intro hin
   have hlast : _ ≤ (exec top argv envp).sp.toNat ∧ (exec top argv envp).sp.toNat + 8 ≤ _ :=
    hin _ mem_cons_self
   rw [huses.sp, toNat_below] at hlast
   omega
 intro hroom c hc
 rcases huses.copied c hc with ⟨n, hat, hlen, hn⟩
 rw [hat, toNat_below]
 omega

/-- With 32 arguments the null pointer goes behind the end of `argv_p`. -/
theorem exec_out_of_bounds : ¬ InBounds (stackTop 0x402000)
      (exec (stackTop 0x402000) (replicate 32 ⟨[97], by decide⟩) []) := by
 intro h
 exact absurd (h.left 32 mem_cons_self) (by decide)

end OSLab.Kernel.UserStack
