import OSLab.Fs.File.FileWrite

/-!
# Writing to the console through a file

`filewrite` cuts a write off where the largest file would end, also on a device, where
`f->off` counts the bytes that have gone through the file in both directions.
-/

namespace OSLab.Fs

/-- `console_write`, with the bytes that it hands to the UART. -/
def consoleWrite (buf : Nat -> UInt8) (n : UInt64) : UInt64 × List UInt8 :=
 (n, (List.range n.toNat).map buf)

/-- The loop of `filewrite` on a device, with `f->off`, `nwrite` and the bytes handed on. -/
def deviceLoop (addr : Nat -> UInt8) (n : UInt64) :
  Nat -> UInt64 -> UInt64 -> List UInt8 -> Option (UInt64 × UInt64 × List UInt8)
 | 0, _, _, _ => none
 | fuel + 1, off, nwrite, out =>
  if nwrite < n then
   let (w, bytes) := consoleWrite (fun x => addr (nwrite.toNat + x)) (opCount (n - nwrite))
   deviceLoop addr n fuel (off + w) (nwrite + w) (out ++ bytes)
  else
   some (off, nwrite, out)

def filewriteDevice (f : File) (addr : Nat -> UInt8) (n : UInt64) :
  Option (Int × File × List UInt8) :=
 if f.writable = false then some (-1, f, [])
 else
  let total := writeTotal f.off n
  (deviceLoop addr total (total.toNat + 1) f.off 0 []).map fun (off, nwrite, out) =>
   (nwrite.toNat, { f with off := off }, out)

theorem deviceLoop_eq (addr : Nat -> UInt8) (n : UInt64) {fuel : Nat}
  (off nwrite : UInt64) (hle : nwrite ≤ n) (hfuel : (n - nwrite).toNat < fuel) :
  deviceLoop addr n fuel off nwrite ((List.range nwrite.toNat).map addr) =
    some (off + (n - nwrite), n, (List.range n.toNat).map addr) := by
 induction fuel generalizing off nwrite with
 | zero => exact absurd hfuel (Nat.not_lt_zero _)
 | succ fuel ih =>
  unfold deviceLoop
  have hsub := UInt64.toNat_sub_of_le _ _ hle
  split
  · rename_i hlt
    have hw := opCount_toNat (n - nwrite)
    have hmax : maxOpWriteN = 1536 := rfl
    generalize opCount (n - nwrite) = w at hw
    rw [UInt64.le_iff_toNat_le] at hle
    rw [UInt64.lt_iff_toNat_lt] at hlt
    have hsum : (nwrite + w).toNat = nwrite.toNat + w.toNat := by
     have hn := n.toNat_lt
     rw [UInt64.toNat_add, Nat.mod_eq_of_lt]
     omega
    have hle' : nwrite + w ≤ n := by
     rw [UInt64.le_iff_toNat_le, hsum]
     omega
    have hround := ih (off + w) (nwrite + w) hle' (by
     rw [UInt64.toNat_sub_of_le _ _ hle', hsum]
     omega)
    rw [hsum, List.range_add, List.map_append, List.map_map] at hround
    have hoff : off + w + (n - (nwrite + w)) = off + (n - nwrite) := by grind
    rw [hoff] at hround
    exact hround
  rename_i hge
  have heq : nwrite = n := UInt64.le_antisymm hle (UInt64.not_lt.mp hge)
  rw [heq, UInt64.sub_self, UInt64.add_zero]

theorem filewriteDevice_eq {f : File} (hwritable : f.writable) (addr : Nat -> UInt8) (n : UInt64) :
  filewriteDevice f addr n = some (((writeTotal f.off n).toNat : Int),
    { f with off := f.off + writeTotal f.off n },
    (List.range (writeTotal f.off n).toNat).map addr) := by
 have hloop := deviceLoop_eq addr (writeTotal f.off n) f.off 0
  (UInt64.zero_le) (by rw [UInt64.sub_zero]; exact Nat.lt_succ_self _)
 unfold filewriteDevice
 rw [if_neg (by rw [hwritable]; nofun)]
 change Option.map _ (deviceLoop addr _ _ f.off 0 ((List.range (0 : UInt64).toNat).map addr)) = _
 rw [hloop, UInt64.sub_zero]
 rfl

theorem writeTotal_eq_iff {off n : UInt64} :
  writeTotal off n = n ↔ n ≤ UInt64.ofNat inodeMaxBytes - off := by
 unfold writeTotal
 rw [← UInt64.toNat_inj, UInt64.le_iff_toNat_le, UInt64.toNat_min]
 exact min_eq_left_iff

/--
Whatever has gone through the file before, a write hands all its bytes to the console and
returns their number if and only if they would fit into a file from its offset on.
-/
theorem filewrite_device_iff (f : File) (addr : Nat -> UInt8) (n : UInt64) :
  (exists next, filewriteDevice f addr n =
    some ((n.toNat : Int), next, (List.range n.toNat).map addr)) ↔
  f.writable = true ∧ n ≤ UInt64.ofNat inodeMaxBytes - f.off := by
 cases hwritable : f.writable with
 | false =>
  unfold filewriteDevice
  rw [if_pos hwritable]
  constructor
  · rintro ⟨next, heq⟩
    have hfst := congrArg Prod.fst (Option.some.inj heq)
    simp only at hfst
    omega
  · nofun
 | true =>
  rw [filewriteDevice_eq hwritable]
  constructor
  · rintro ⟨next, heq⟩
    have hfst := congrArg Prod.fst (Option.some.inj heq)
    exact ⟨rfl, writeTotal_eq_iff.mp (UInt64.toNat_inj.mp (Int.natCast_inj.mp hfst))⟩
  rintro ⟨_, hfits⟩
  rw [writeTotal_eq_iff.mpr hfits]
  exact ⟨_, rfl⟩

/-- After as many bytes as fit into a file, the next byte is not written. -/
theorem filewrite_device_drops_byte : exists f next out, f.off = 0 ∧ f.writable = true ∧
    filewriteDevice f (fun _ => 65) 71680 = some (71680, next, out) ∧
    filewriteDevice next (fun _ => 65) 1 = some (0, next, []) := by
 have htotal : writeTotal 0 71680 = 71680 := by decide
 have hnone : writeTotal 71680 1 = 0 := by decide
 refine ⟨⟨.inode, 1, true, true, none, some 1, 0⟩, ⟨.inode, 1, true, true, none, some 1, 71680⟩,
  (List.range 71680).map (fun _ => 65), rfl, rfl, ?_, ?_⟩
 · rw [filewriteDevice_eq rfl, htotal]
   rfl
 · rw [filewriteDevice_eq rfl, hnone]
   rfl

end OSLab.Fs
