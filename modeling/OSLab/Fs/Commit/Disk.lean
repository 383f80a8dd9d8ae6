import OSLab.Fs.Commit.System

/-!
# The disk during a commit

The entries of the header are worked through from the front: entry `i` is first
copied to its slot in the log area, then loses its pin, and is later installed at
its home.  This module says what the disk holds at every statement of
`checkpoint`.
-/

namespace OSLab.Fs
open Foundation Function LogHeader Disk Device

/-!
# Progress of a commit
-/

namespace Stage

def slots (n : Nat) : Stage -> Nat
 | idle | start => 0
 | toLog i | toLogAcquiring i | toLogHave i _ => i
 | toLogWritten i _ | toLogUnpinned i _ => i + 1
 | _ => n

def unpinned (n : Nat) : Stage -> Nat
 | idle | start => 0
 | toLog i | toLogAcquiring i | toLogHave i _ | toLogWritten i _ => i
 | toLogUnpinned i _ => i + 1
 | _ => n

def installed (n : Nat) : Stage -> Nat
 | persist i | persistRead i _ | persistAcquiring i _ | persistHave i _ _
 | persistCopied i _ => i
 | persistWritten i _ => i + 1
 | clear | done => n
 | _ => 0

def installing : Stage -> Bool
 | persist _ | persistRead _ _ | persistAcquiring _ _ | persistHave _ _ _
 | persistCopied _ _ | persistWritten _ _ => true
 | _ => false

def beforeCommit : Stage -> Bool
 | idle | start | toLog _ | toLogAcquiring _ | toLogHave _ _ | toLogWritten _ _
 | toLogUnpinned _ _ => true
 | _ => false

def leaving : Stage -> Bool
 | clear | done => true
 | _ => false

def committed : Stage -> Bool
 | clear => true
 | other => other.installing

def Within (n : Nat) : Stage -> Prop
 | toLog i => i ≤ n
 | toLogAcquiring i | toLogHave i _ | toLogWritten i _ | toLogUnpinned i _ => i < n
 | persist i => i ≤ n
 | persistRead i _ | persistAcquiring i _ | persistHave i _ _ | persistCopied i _
 | persistWritten i _ => i < n
 | _ => True

def block? : Stage -> Option (Nat × Addr)
 | toLogHave i a | toLogWritten i a | toLogUnpinned i a | persistHave i _ a
 | persistCopied i a | persistWritten i a => some (i, a)
 | _ => none

def copied? : Stage -> Option (Nat × Addr)
 | persistCopied i a | persistWritten i a => some (i, a)
 | _ => none

def buffer? : Stage -> Option (Nat × BlockData)
 | persistRead i data | persistAcquiring i data | persistHave i data _ => some (i, data)
 | _ => none

def wants? : Stage -> Option Nat
 | toLogAcquiring i | persistAcquiring i _ => some i
 | _ => none

end Stage

structure LogHeader.Extends (before after : LogHeader) (no : BlockNo) : Prop where
 old : forall i, i < before.numBlocks -> exists j, j < after.numBlocks ∧
  after.blockNo j = before.blockNo i
 new : exists j, j < after.numBlocks ∧ after.blockNo j = no
 only : forall j, j < after.numBlocks -> after.blockNo j = no ∨
  exists i, i < before.numBlocks ∧ before.blockNo i = after.blockNo j

theorem LogHeader.extends_logged {header : LogHeader} {no : BlockNo}
  (h : header.logged no) : header.Extends header no where
 old := fun i hi => ⟨i, hi, rfl⟩
 new := logged_iff.mp h
 only := fun j hj => .inr ⟨j, hj, rfl⟩

theorem LogHeader.extends_push (header : LogHeader) (no : BlockNo) :
  header.Extends (header.push no) no where
 old := by
  intro i hi
  refine ⟨i, Nat.lt_succ_of_lt hi, ?_⟩
  simp only [push]
  rw [update_of_ne (by omega)]
 new := ⟨header.numBlocks, Nat.lt_succ_self _, by simp [push]⟩
 only := by
  intro j hj
  have hle : j < header.numBlocks + 1 := hj
  simp only [push]
  by_cases hlast : j = header.numBlocks
  · exact .inl (by simp [hlast])
  refine .inr ⟨j, by omega, ?_⟩
  rw [update_of_ne hlast]

/-!
# The disk

Outside the log area the device holds, for every block, some synced contents.
Only blocks of the open batch that are not installed yet lag behind.
-/

structure DiskInv (sb : SuperBlock) (header : LogHeader) (stage : Stage)
  (disk : Disk) : Prop where
 within : stage.Within header.numBlocks
 outside : forall i, i < header.numBlocks -> ¬ sb.InLog (header.blockNo i)
 homeData : forall no, ¬ sb.InLog no -> disk.dev no = disk.cont no (disk.home no)
 homeLe : forall no, disk.home no ≤ disk.ver no
 current : forall no, ¬ sb.InLog no ->
  (forall i, stage.installed header.numBlocks ≤ i -> i < header.numBlocks ->
   header.blockNo i ≠ no) ->
  disk.home no = disk.ver no
 slots : forall i, i < stage.slots header.numBlocks ->
  disk.dev (sb.logSlot i) = disk.latest (header.blockNo i)
 buffer : forall i data, stage.buffer? = some (i, data) -> data = disk.latest (header.blockNo i)
 empty : stage.committed = false -> (decode (disk.dev sb.headerBlock)).numBlocks = 0
 size : (decode (disk.dev sb.headerBlock)).numBlocks ≤ sb.maxLogSize
 entries : forall i, i < (decode (disk.dev sb.headerBlock)).numBlocks ->
  ¬ sb.InLog ((decode (disk.dev sb.headerBlock)).blockNo i) ∧ disk.dev (sb.logSlot i) =
    disk.latest ((decode (disk.dev sb.headerBlock)).blockNo i)
 written : stage.installing = true ->
  (decode (disk.dev sb.headerBlock)).numBlocks = header.numBlocks ∧
   forall i, i < header.numBlocks ->
    (decode (disk.dev sb.headerBlock)).blockNo i = header.blockNo i

namespace DiskInv
variable {sb : LogLayout} {header : LogHeader} {stage : Stage} {disk : Disk} {no : BlockNo}

theorem dev_eq_latest (h : DiskInv sb header stage disk) (hno : ¬ sb.InLog no)
  (hcurrent : forall i, stage.installed header.numBlocks ≤ i ->
    i < header.numBlocks -> header.blockNo i ≠ no) :
  disk.dev no = disk.latest no := by
 rw [h.homeData no hno, h.current no hno hcurrent]
 rfl

theorem move_stage (h : DiskInv sb header stage disk)
    {next : Stage} (hwithin : next.Within header.numBlocks)
    (hslots : next.slots header.numBlocks ≤ stage.slots header.numBlocks)
    (hinstalled : next.installed header.numBlocks = stage.installed header.numBlocks)
    (hinstalling : next.installing -> stage.installing)
    (hcommitted : next.committed = false -> stage.committed = false)
    (hbuffer : forall i data, next.buffer? = some (i, data) ->
      data = disk.latest (header.blockNo i)) :
    DiskInv sb header next disk := { h with
 within := hwithin
 current := by
  rw [hinstalled]
  exact h.current
 slots := fun i hi => h.slots i (by omega)
 buffer := hbuffer
 empty := fun hnext => h.empty (hcommitted hnext)
 written := fun hnext => h.written (hinstalling hnext) }

theorem latest_record_same (d : Disk) (no : BlockNo) (data : BlockData) :
  (d.record no data).latest no = data := by
 simp [latest, record]

theorem latest_record_other (d : Disk) {no other : BlockNo} (data : BlockData)
  (h : other ≠ no) : (d.record no data).latest other = d.latest other := by
 simp [latest, record, h]

theorem cont_record_home {d : Disk} (hle : forall no, d.home no ≤ d.ver no)
  (no other : BlockNo) (data : BlockData) :
  (d.record no data).cont other (d.home other) = d.cont other (d.home other) := by
 by_cases hother : other = no
 · subst hother
   have hne : d.home other ≠ d.ver other + 1 := by
    have hhome := hle other
    omega
   simp [record, hne]
 · simp [record, hother]

theorem record (h : DiskInv sb header .idle disk) {next : LogHeader} (data : BlockData)
  (hno : ¬ sb.InLog no) (hextends : header.Extends next no) :
  DiskInv sb next .idle (disk.record no data) where
 within := trivial
 outside := by
  intro j hj
  rcases hextends.only j hj with heq | ⟨i, hi, heq⟩
  · rw [heq]
    exact hno
  rw [← heq]
  exact h.outside i hi
 homeData := by
  intro other hother
  rw [show (disk.record no data).home = disk.home from rfl, cont_record_home h.homeLe]
  exact h.homeData other hother
 homeLe := by
  intro other
  have hle := h.homeLe other
  by_cases heq : other = no
  · subst heq
    simp only [record, update_self]
    omega
  · simpa [Disk.record, heq] using hle
 current := by
  intro other hother hcurrent
  have hne : other ≠ no := by
   intro heq
   rcases hextends.new with ⟨j, hj, hjno⟩
   exact hcurrent j (Nat.zero_le _) hj (by rw [hjno, heq])
  have hhome := h.current other hother (by
   intro i _ hi heq
   rcases hextends.old i hi with ⟨j, hj, hji⟩
   exact hcurrent j (Nat.zero_le _) hj (by rw [hji, heq]))
  simpa [Disk.record, hne] using hhome
 slots := by
  intro i hi
  exact absurd hi (Nat.not_lt_zero i)
 buffer := by nofun
 empty := fun _ => h.empty rfl
 size := h.size
 entries := by
  intro i hi
  rw [show (disk.record no data).dev = disk.dev from rfl, h.empty rfl] at hi
  exact absurd hi (Nat.not_lt_zero i)
 written := by nofun

variable {i : Nat}

theorem slot_ne_of_outside (hi : i < sb.maxLogSize) (hno : ¬ sb.InLog no) : no ≠ sb.logSlot i := by
 rintro rfl
 exact hno (sb.logSlot_inLog hi)

theorem header_ne_of_outside (hno : ¬ sb.InLog no) : no ≠ sb.headerBlock := by
 rintro rfl
 exact hno sb.headerBlock_inLog

variable {data : BlockData}

theorem write_slot {a : Addr} (h : DiskInv sb header (.toLogHave i a) disk)
  (hsize : header.numBlocks ≤ sb.maxLogSize) (hdata : data = disk.latest (header.blockNo i)) :
  DiskInv sb header (.toLogWritten i a) (disk.writeLog (sb.logSlot i) data) := by
 have hi : i < header.numBlocks := h.within
 have hslot : i < sb.maxLogSize := by omega
 have hheader : (disk.writeLog (sb.logSlot i) data).dev sb.headerBlock = disk.dev sb.headerBlock :=
  write_other _ _ (Ne.symm (sb.logSlot_ne_headerBlock hslot))
 have hhome : forall no, ¬ sb.InLog no ->
  (disk.writeLog (sb.logSlot i) data).dev no = disk.dev no := by
  intro no hno
  exact write_other _ _ (slot_ne_of_outside hslot hno)
 have hempty := h.empty rfl
 exact { h with
  within := hi
  homeData := by
   intro no hno
   rw [hhome no hno]
   exact h.homeData no hno
  slots := by
   intro j hj
   change j < i + 1 at hj
   by_cases hji : j = i
   · subst hji
     rw [← hdata.symm]
     exact write_same _ _ _
   have hne : sb.logSlot j ≠ sb.logSlot i := by
    intro heq
    exact hji (sb.logSlot_injective (by omega) hslot heq)
   rw [show (disk.writeLog (sb.logSlot i) data).dev (sb.logSlot j) =
    disk.dev (sb.logSlot j) from write_other _ _ hne]
   exact h.slots j (by change j < i; omega)
  buffer := by nofun
  empty := by
   intro _
   rw [hheader]
   exact hempty
  size := by
   rw [hheader]
   exact h.size
  entries := by
   intro j hj
   rw [hheader, hempty] at hj
   exact absurd hj (Nat.not_lt_zero j)
  written := by
   intro hinstalling
   cases hinstalling }

theorem writeLog_header_other (hno : no ≠ sb.headerBlock) :
  (disk.writeLog sb.headerBlock data).dev no = disk.dev no :=
 write_other _ _ hno

theorem writeLog_header_same : (disk.writeLog sb.headerBlock data).dev sb.headerBlock = data :=
 write_same _ _ _

theorem write_header (h : DiskInv sb header (.toLog i) disk)
  (hsize : header.numBlocks ≤ sb.maxLogSize) (hall : ¬ i < header.numBlocks) :
  DiskInv sb header (.persist 0) (disk.writeLog sb.headerBlock header.encode) := by
 have hmax : header.numBlocks ≤ logMaxSize := Nat.le_trans hsize sb.maxLogSize_le
 have hnum := decode_encode_numBlocks header hmax
 have hno : forall j, j < header.numBlocks -> (decode header.encode).blockNo j = header.blockNo j :=
  fun j hj => decode_encode_blockNo header (by omega)
 have hslots : forall j, j < header.numBlocks ->
  (disk.writeLog sb.headerBlock header.encode).dev (sb.logSlot j) =
   disk.latest (header.blockNo j) := by
  intro j hj
  rw [writeLog_header_other (sb.logSlot_ne_headerBlock (by omega))]
  exact h.slots j (by change j < i; omega)
 exact { h with
  within := Nat.zero_le _
  homeData := by
   intro no hno'
   rw [writeLog_header_other (header_ne_of_outside hno')]
   exact h.homeData no hno'
  slots := hslots
  buffer := by nofun
  empty := by nofun
  size := by
   rw [writeLog_header_same, hnum]
   exact hsize
  entries := by
   intro j hj
   rw [writeLog_header_same, hnum] at hj
   rw [writeLog_header_same, hno j hj]
   exact ⟨h.outside j hj, hslots j hj⟩
  written := by
   intro _
   rw [writeLog_header_same]
   exact ⟨hnum, hno⟩ }

theorem install {a : Addr} (h : DiskInv sb header (.persistCopied i a) disk) :
  DiskInv sb header (.persistWritten i a)
    (disk.install (header.blockNo i) (disk.latest (header.blockNo i))) := by
 have hi : i < header.numBlocks := h.within
 have hout := h.outside i hi
 have hheader : (disk.install (header.blockNo i)
  (disk.latest (header.blockNo i))).dev sb.headerBlock =
  disk.dev sb.headerBlock :=
  write_other _ _ (Ne.symm (header_ne_of_outside hout))
 have hslot : forall j, j < header.numBlocks -> (disk.install (header.blockNo i)
   (disk.latest (header.blockNo i))).dev (sb.logSlot j) =
  disk.dev (sb.logSlot j) := by
  intro j hj
  have hsize := h.size
  rw [(h.written rfl).left] at hsize
  exact write_other _ _ (Ne.symm (slot_ne_of_outside (by omega) hout))
 exact {
  within := hi
  outside := h.outside
  homeData := by
   intro no hno
   by_cases heq : no = header.blockNo i
   · subst heq
     simp [Disk.install, Disk.latest]
   simp only [Disk.install, update_of_ne heq]
   rw [write_other _ _ heq]
   exact h.homeData no hno
  homeLe := by
   intro no
   by_cases heq : no = header.blockNo i
   · subst heq
     simp [Disk.install]
   simp only [Disk.install, update_of_ne heq]
   exact h.homeLe no
  current := by
   intro no hno hcurrent
   by_cases heq : no = header.blockNo i
   · subst heq
     simp [Disk.install]
   simp only [Disk.install, update_of_ne heq]
   apply h.current no hno
   intro j hj hjn
   by_cases hji : j = i
   · subst hji
     exact fun h' => heq h'.symm
   have hle : i ≤ j := hj
   exact hcurrent j (by change i + 1 ≤ j; omega) hjn
  slots := by
   intro j hj
   rw [hslot j hj]
   exact h.slots j hj
  buffer := by nofun
  empty := by nofun
  size := by
   rw [hheader]
   exact h.size
  entries := by
   intro j hj
   rw [hheader] at hj ⊢
   rw [(h.written rfl).left] at hj
   rw [hslot j hj]
   exact h.entries j (by rw [(h.written rfl).left]; exact hj)
  written := by
   intro _
   rw [hheader]
   exact h.written rfl }

theorem reset (h : DiskInv sb header (.persist i) disk) (hall : ¬ i < header.numBlocks) :
    DiskInv sb { header with numBlocks := 0 } .clear disk := { h with
 within := trivial
 outside := fun j hj => absurd hj (Nat.not_lt_zero j)
 current := by
  intro no hno _
  apply h.current no hno
  intro j hj hjn
  change i ≤ j at hj
  omega
 slots := fun j hj => absurd hj (Nat.not_lt_zero j)
 buffer := by nofun
 empty := by nofun
 written := by
  intro hinstalling
  cases hinstalling }

theorem clear_header (h : DiskInv sb header .clear disk) (hempty : header.numBlocks = 0) :
  DiskInv sb header .done (disk.writeLog sb.headerBlock header.encode) := by
 have hnum : (decode header.encode).numBlocks = 0 := by
  rw [decode_encode_numBlocks header (by omega), hempty]
 exact { h with
  within := trivial
  homeData := by
   intro no hno
   rw [writeLog_header_other (header_ne_of_outside hno)]
   exact h.homeData no hno
  slots := by
   intro j hj
   change j < header.numBlocks at hj
   omega
  buffer := by nofun
  empty := by
   intro _
   rw [writeLog_header_same]
   exact hnum
  size := by
   rw [writeLog_header_same, hnum]
   exact Nat.zero_le _
  entries := by
   intro j hj
   rw [writeLog_header_same, hnum] at hj
   omega
  written := by
   intro hinstalling
   cases hinstalling }

end OSLab.Fs.DiskInv
