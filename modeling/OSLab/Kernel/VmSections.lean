import OSLab.Kernel.Vm

/-!
# The pages of sections

Which pages the loops over sections and segments visit.
-/

namespace OSLab.Kernel
open List

theorem vpnOf_toNat {addr : Nat} (h : addr < 2 ^ 48) : (vpnOf addr).toNat = addr / pageSize := by
 unfold vpnOf pageSize
 rw [BitVec.toNat_ofNat]
 omega

namespace Section

theorem page_toNat (st : Section) {i : Nat}
  (hi : i < (st.stop - pageBase st.start + (pageSize - 1)) / pageSize) :
  (vpnOf (pageBase st.start + i * pageSize)).toNat = st.start / pageSize + i ∧
    (st.start / pageSize + i) * pageSize < st.stop := by
 have hfits := st.fits
 have hstop : (st.start / pageSize + i) * pageSize < st.stop := by
  unfold pageBase pageSize at hi
  unfold pageSize
  omega
 have haddr : pageBase st.start + i * pageSize = (st.start / pageSize + i) * pageSize := by
  unfold pageBase pageSize
  omega
 refine ⟨?_, hstop⟩
 rw [haddr, vpnOf_toNat (Nat.lt_of_lt_of_le hstop hfits)]
 exact Nat.mul_div_cancel _ (by decide)

theorem mem_vpns_iff (st : Section) (v : Vpn) :
  v ∈ st.vpns ↔ st.start / pageSize ≤ v.toNat ∧ v.toNat * pageSize < st.stop := by
 unfold vpns
 rw [mem_map]
 constructor
 · rintro ⟨i, hi, heq⟩
   rcases st.page_toNat (mem_range.mp hi) with ⟨htoNat, hstop⟩
   rw [← heq, htoNat]
   exact ⟨Nat.le_add_right _ _, hstop⟩
 rintro ⟨hstart, hstop⟩
 have hi : v.toNat - st.start / pageSize <
  (st.stop - pageBase st.start + (pageSize - 1)) / pageSize := by
  unfold pageSize at hstart hstop
  unfold pageBase pageSize
  omega
 refine ⟨v.toNat - st.start / pageSize, mem_range.mpr hi, ?_⟩
 apply BitVec.eq_of_toNat_eq
 rw [(st.page_toNat hi).left]
 omega

theorem nodup_vpns (st : Section) : st.vpns.Nodup := by
 apply Nodup.map_on
 · intro i hi j hj heq
   have htoNat := congrArg BitVec.toNat heq
   rw [(st.page_toNat (mem_range.mp hi)).left, (st.page_toNat (mem_range.mp hj)).left] at htoNat
   omega
 · exact nodup_range

end Section

namespace Vm

theorem pagesFrom_zero (fuel va : Nat) : pagesFrom fuel va 0 = [] := by
 cases fuel with
 | zero => rfl
 | succ fuel => rw [pagesFrom, if_pos rfl]

theorem pagesFrom_spec (fuel : Nat) {va size : Nat} (h : va + size ≤ 2 ^ 48) :
  (pagesFrom fuel va size).Nodup ∧ forall v, v ∈ pagesFrom fuel va size ->
    va / pageSize ≤ v.toNat ∧ v.toNat * pageSize < va + size := by
 induction fuel generalizing va size with
 | zero =>
  refine ⟨nodup_nil, ?_⟩
  nofun
 | succ fuel ih =>
  rw [pagesFrom]
  by_cases hzero : size = 0
  · rw [if_pos hzero]
    refine ⟨nodup_nil, ?_⟩
    nofun
  rw [if_neg hzero]
  have hhere := vpnOf_toNat (show va < 2 ^ 48 by omega)
  generalize hsz : min (pageSize - va % pageSize) size = sz
  have hnext : va + sz + (size - sz) = va + size := by omega
  have hrest := ih (show va + sz + (size - sz) ≤ 2 ^ 48 by omega)
  -- the rest starts on the next page, or it is empty
  have hlater : forall v, v ∈ pagesFrom fuel (va + sz) (size - sz) ->
   va / pageSize < v.toNat := by
   intro v hv
   rcases hrest.right v hv with ⟨hlow, _⟩
   have hmore : size - sz ≠ 0 := by
    intro hdone
    rw [hdone, pagesFrom_zero] at hv
    cases hv
   unfold pageSize at hsz hlow ⊢
   omega
  constructor
  · rw [nodup_cons]
    refine ⟨?_, hrest.left⟩
    intro hmem
    have hlt := hlater _ hmem
    rw [hhere] at hlt
    exact absurd hlt (Nat.lt_irrefl _)
  intro v hv
  rcases mem_cons.mp hv with heq | hmem
  · rw [heq, hhere]
    unfold pageSize
    omega
  have hlow := hlater v hmem
  have hhigh := (hrest.right v hmem).right
  rw [hnext] at hhigh
  exact ⟨Nat.le_of_lt hlow, hhigh⟩

namespace Segment
variable {ph : Segment}

theorem loaded_spec (h : ph.stop ≤ 2 ^ 48) (hsize : ph.text = false -> ph.filesz ≤ ph.memsz) :
  ph.vaddr + ph.filesz ≤ ph.stop ∧ ph.loaded.Nodup ∧ forall v, v ∈ ph.loaded ->
    ph.vaddr / pageSize ≤ v.toNat ∧ v.toNat * pageSize < ph.vaddr + ph.filesz := by
 have hstop : ph.vaddr + ph.filesz ≤ ph.stop := by
  unfold stop
  cases htext : ph.text with
  | false =>
   have hle := hsize htext
   simp
   omega
  | true => simp
 exact ⟨hstop, pagesFrom_spec ph.filesz (Nat.le_trans hstop h)⟩

theorem bss_spec (ph : Segment) : ph.vaddr + ph.filesz ≤ ph.bss ∧ ph.bss % pageSize = 0 := by
 unfold bss
 simp only
 split
 · unfold pageBase pageSize
   omega
 rename_i haligned
 unfold pageBase at haligned
 unfold pageSize at haligned ⊢
 omega

theorem zeroed_spec (h : ph.stop ≤ 2 ^ 48) : ph.zeroed.Nodup ∧ forall v, v ∈ ph.zeroed ->
    ph.vaddr + ph.filesz ≤ v.toNat * pageSize ∧ ph.vaddr / pageSize ≤ v.toNat ∧
      v.toNat * pageSize < ph.stop := by
 unfold zeroed
 split
 · rename_i hcond
   have hstop : ph.stop = ph.vaddr + ph.memsz := by
    unfold stop
    rw [hcond.left]
    rfl
   have hbss := ph.bss_spec
   have hpages := pagesFrom_spec ph.memsz
    (show ph.bss + (ph.memsz - (ph.bss - ph.vaddr)) ≤ 2 ^ 48 by omega)
   refine ⟨hpages.left, ?_⟩
   intro v hv
   rcases hpages.right v hv with ⟨hlow, hhigh⟩
   unfold pageSize at *
   omega
 refine ⟨nodup_nil, ?_⟩
 nofun

end Segment

theorem stackPages_spec {start : Nat} (hstart : start % pageSize = 0)
  (h : start + 10 * pageSize ≤ 2 ^ 48) :
  (stackPages start).Nodup ∧ forall v, v ∈ stackPages start ->
    start / pageSize ≤ v.toNat ∧ v.toNat * pageSize < start + 10 * pageSize := by
 have hpage : forall i, i ∈ range 10 ->
  (vpnOf (start + (9 - i) * pageSize)).toNat = start / pageSize + (9 - i) := by
  intro i hi
  rw [mem_range] at hi
  unfold pageSize at h hstart ⊢
  rw [vpnOf_toNat (by omega)]
  unfold pageSize
  omega
 constructor
 · apply Nodup.map_on
   · intro i hi j hj heq
     have htoNat := congrArg BitVec.toNat heq
     rw [hpage i hi, hpage j hj] at htoNat
     rw [mem_range] at hi hj
     omega
   · exact nodup_range
 intro v hv
 rcases mem_map.mp hv with ⟨i, hi, heq⟩
 rw [← heq, hpage i hi]
 unfold pageSize at *
 omega

theorem stop_le_foldl {sections : List Section} {st : Section} (h : st ∈ sections) :
  st.stop ≤ sections.foldl (fun most st => max most st.stop) 0 := by
 have hfold : forall (sections : List Section) (most : Nat),
  most ≤ sections.foldl (fun most st => max most st.stop) most ∧ forall st, st ∈ sections ->
    st.stop ≤ sections.foldl (fun most st => max most st.stop) most := by
  intro sections
  induction sections with
  | nil =>
   intro most
   refine ⟨Nat.le_refl most, ?_⟩
   nofun
  | cons first rest ih =>
   intro most
   rcases ih (max most first.stop) with ⟨hmost, hrest⟩
   rw [foldl_cons]
   refine ⟨Nat.le_trans (Nat.le_max_left _ _) hmost, ?_⟩
   intro st hst
   rcases mem_cons.mp hst with heq | hmem
   · rw [heq]
     exact Nat.le_trans (Nat.le_max_right _ _) hmost
   · exact hrest st hmem
 exact (hfold sections 0).right st h

theorem le_maxEnd {s : Vm} {e : Pid} {st : Section} (h : st ∈ s.sections e) :
  st.stop ≤ s.maxEnd e :=
 stop_le_foldl h

end OSLab.Kernel.Vm
