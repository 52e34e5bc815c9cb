import Citron.Fs.Read

/-!
# The boot sector

`init` of `src/fs/fat.rs`.  The data area begins at a sector that is computed twice: from `BPB_FATSz32` for
`cluster_begin`, and from `fatsz` and the sectors of a root directory of FAT16 for the number of clusters.  The sums
and products are `u16` or `u32` and wrap; `none` is a division by zero or a file system other than FAT32.

* `BootSector`, `init`         the fields, and the file system made from them;
* `Consistent`                 every cluster that is counted lies in the data area;
* `geometry_consistent_iff`    when `init` gives such a file system.
-/

namespace Citron.Fs

/-- the value of a natural number as a `u16` -/
def u16 (n : Nat) : Nat := n % 2^16

/-- of `Fat32BootSector`, the fields that are read -/
structure BootSector where
  bytsPerSec : Nat
  secPerClus : Nat
  rsvdSecCnt : Nat
  numFATs : Nat
  rootEntCnt : Nat
  totSec16 : Nat
  fatSz16 : Nat
  totSec32 : Nat
  fatSz32 : Nat
  rootClus : Nat

namespace BootSector

/-- the fields of the packed structure -/
def ofBytes (bytes : List UInt8) : BootSector where
  bytsPerSec := le (slice 11 2 bytes)
  secPerClus := le (slice 13 1 bytes)
  rsvdSecCnt := le (slice 14 2 bytes)
  numFATs := le (slice 16 1 bytes)
  rootEntCnt := le (slice 17 2 bytes)
  totSec16 := le (slice 19 2 bytes)
  fatSz16 := le (slice 22 2 bytes)
  totSec32 := le (slice 32 4 bytes)
  fatSz32 := le (slice 36 4 bytes)
  rootClus := le (slice 44 4 bytes)

variable (bs : BootSector)

def fatsz : Nat := if bs.fatSz16 ≠ 0 then bs.fatSz16 else bs.fatSz32
def totsec : Nat := if bs.totSec16 ≠ 0 then bs.totSec16 else bs.totSec32

/-- in `u16` -/
def rootDirSectors : Nat := u16 (u16 (bs.rootEntCnt * 32) + u16 (bs.bytsPerSec + (2^16 - 1))) / bs.bytsPerSec

def fatSectors : Nat := u32 (bs.fatSz32 * bs.numFATs)
def rootDirStartSector : Nat := u32 (bs.rsvdSecCnt + bs.fatSectors)

def dataSec : Nat :=
  u32 (bs.totsec + (2^32 - u32 (u32 (bs.rsvdSecCnt + u32 (bs.numFATs * bs.fatsz)) + bs.rootDirSectors)))

def countOfClusters : Nat := bs.dataSec / bs.secPerClus

end BootSector

namespace Fat32

/-- a volume that is not read yet -/
def new (disk : Disk) : Fat32 := ⟨disk, List.replicate 512 0, 0, 0, 0, 0, 512⟩

/-- `init` of a volume; `none` is a panic -/
def init (f : Fat32) : Option Fat32 :=
  (f.disk.readSector 0 f.buffer).bind fun buffer =>
    let bs := BootSector.ofBytes buffer
    if bs.bytsPerSec = 0 then none
    else if bs.secPerClus = 0 then none
    else if bs.countOfClusters < 4085 then none
    else if bs.countOfClusters < 65525 then none
    else some { f with
      buffer
      fatBegin := bs.rsvdSecCnt
      clusterBegin := bs.rootDirStartSector
      sectorsPerCluster := bs.secPerClus
      rootDirFirstCluster := bs.rootClus
      sectorSize := bs.bytsPerSec }

end Fat32

/-! ## consistent volumes -/

/-- where the data area begins: no sum or product wraps here -/
def BootSector.dataStart (bs : BootSector) : Nat := bs.rsvdSecCnt + bs.numFATs * bs.fatsz + bs.rootDirSectors

/-- the sectors of every cluster that is counted are in the data area, and are computed without overflow -/
structure Fat32.Consistent (f : Fat32) (bs : BootSector) : Prop where
  one_le : 1 ≤ f.sectorsPerCluster
  sectorSize : 512 ≤ f.sectorSize
  clusterBegin : f.clusterBegin = bs.dataStart
  clusters : ∀ c, 2 ≤ c → c < 2^32 → c < bs.countOfClusters + 2 →
    f.sectorOfCluster c = (c - 2) * f.sectorsPerCluster + f.clusterBegin ∧ bs.dataStart ≤ f.sectorOfCluster c ∧
    f.sectorOfCluster c + (f.sectorsPerCluster - 1) < bs.totsec

/-- Sectors have 512 bytes at least, both ways to the data area agree, and it begins before the end of the volume.
The sectors of the FATs are `u32` on the left, and neither side wraps where the data area fits. -/
structure BootSector.Agrees (bs : BootSector) : Prop where
  sectorSize : 512 ≤ bs.bytsPerSec
  fats : u32 (bs.fatSz32 * bs.numFATs) = bs.numFATs * bs.fatsz + bs.rootDirSectors
  fits : bs.rsvdSecCnt + bs.numFATs * bs.fatsz + bs.rootDirSectors ≤ bs.totsec

/-! ## bounds -/

theorem le_lt (bytes : List UInt8) : le bytes < 256 ^ bytes.length := by
  induction bytes with
  | nil => exact Nat.one_pos
  | cons b bytes ih =>
    have hb : b.toNat < 256 := UInt8.toNat_lt b
    show b.toNat + 256 * le bytes < 256 ^ (bytes.length + 1)
    rw [Nat.pow_succ]
    omega

/-- the value of a field -/
theorem le_slice_lt (start len : Nat) (bytes : List UInt8) : le (slice start len bytes) < 256 ^ len :=
  Nat.lt_of_lt_of_le (le_lt _) (Nat.pow_le_pow_right (by decide) (List.length_take_le ..))

/-- the numbers of sectors are `u32` -/
structure BootSector.Bounded (bs : BootSector) : Prop where
  rsvdSecCnt : bs.rsvdSecCnt < 2^16
  totsec : bs.totsec < 2^32

theorem BootSector.bounded (bytes : List UInt8) : (ofBytes bytes).Bounded := by
  refine ⟨le_slice_lt 14 2 bytes, ?_⟩
  unfold BootSector.totsec
  split
  · exact Nat.lt_trans (le_slice_lt 19 2 bytes) (by decide)
  · exact le_slice_lt 32 4 bytes

namespace Fat32
variable {f g : Fat32}

theorem readBootsector (hbuf : f.buffer.length = 512) : f.disk.readSector 0 f.buffer = some (f.disk.sector 0) := by
  unfold Disk.readSector
  rw [if_pos (by rw [hbuf]), List.drop_of_length_le (by rw [hbuf]), List.append_nil]

/-- what `init` leaves -/
theorem init_eq (h : f.init = some g) (hbuf : f.buffer.length = 512) :
    g.sectorSize = (BootSector.ofBytes (f.disk.sector 0)).bytsPerSec ∧
    g.sectorsPerCluster = (BootSector.ofBytes (f.disk.sector 0)).secPerClus ∧
    g.clusterBegin = (BootSector.ofBytes (f.disk.sector 0)).rootDirStartSector ∧
    1 ≤ g.sectorsPerCluster ∧ 65525 ≤ (BootSector.ofBytes (f.disk.sector 0)).countOfClusters := by
  unfold init at h
  rw [readBootsector hbuf, Option.bind_some] at h
  dsimp only at h
  split at h
  · cases h
  split at h
  · cases h
  rename_i hspc
  split at h
  · cases h
  split at h
  · cases h
  rename_i hcount
  cases h
  exact ⟨rfl, rfl, rfl, Nat.pos_of_ne_zero hspc, Nat.le_of_not_lt hcount⟩

end Fat32

namespace BootSector
variable {bs : BootSector}

/-- the sectors of the data area, where it begins before the end of the volume -/
theorem dataSec_eq (hb : bs.Bounded) (hfit : bs.dataStart ≤ bs.totsec) : bs.dataSec = bs.totsec - bs.dataStart := by
  have htot := hb.totsec
  have hstart : u32 (u32 (bs.rsvdSecCnt + u32 (bs.numFATs * bs.fatsz)) + bs.rootDirSectors) = bs.dataStart := by
    unfold dataStart at hfit ⊢
    unfold u32
    rw [Nat.mod_eq_of_lt (show bs.numFATs * bs.fatsz < 2^32 by omega),
      Nat.mod_eq_of_lt (show bs.rsvdSecCnt + bs.numFATs * bs.fatsz < 2^32 by omega), Nat.mod_eq_of_lt (by omega)]
  unfold dataSec
  rw [hstart]
  unfold u32
  omega

theorem Agrees.rootDirStartSector (h : bs.Agrees) (hb : bs.Bounded) : bs.rootDirStartSector = bs.dataStart := by
  have hfit := h.fits
  have htot := hb.totsec
  unfold BootSector.rootDirStartSector fatSectors dataStart
  rw [h.fats]
  unfold u32
  rw [Nat.mod_eq_of_lt (by omega)]
  omega

end BootSector

/-- **When the geometry is consistent**: exactly when the two computations of the data area agree, it fits into the
volume, and sectors have 512 bytes at least. -/
theorem geometry_consistent_iff (disk : Disk) (f : Fat32) (h : (Fat32.new disk).init = some f) :
    f.Consistent (BootSector.ofBytes (disk.sector 0)) ↔ (BootSector.ofBytes (disk.sector 0)).Agrees := by
  obtain ⟨hsize, hspc, hbegin, hone, hcount⟩ := Fat32.init_eq h List.length_replicate
  have hb := BootSector.bounded (disk.sector 0)
  change f.sectorSize = (BootSector.ofBytes (disk.sector 0)).bytsPerSec at hsize
  change f.sectorsPerCluster = (BootSector.ofBytes (disk.sector 0)).secPerClus at hspc
  change f.clusterBegin = (BootSector.ofBytes (disk.sector 0)).rootDirStartSector at hbegin
  change 65525 ≤ (BootSector.ofBytes (disk.sector 0)).countOfClusters at hcount
  generalize BootSector.ofBytes (disk.sector 0) = bs at *
  have hrsvd := hb.rsvdSecCnt
  have htot := hb.totsec
  constructor
  · intro hc
    -- the first cluster lies below the end of the volume, and so does the beginning of the data area
    obtain ⟨-, hlow, hhigh⟩ := hc.clusters 2 le_rfl (by decide) (by omega)
    have hfit : bs.dataStart ≤ bs.totsec := by omega
    refine ⟨hsize ▸ hc.sectorSize, ?_, hfit⟩
    have hstart : bs.rootDirStartSector = bs.dataStart := hbegin.symm.trans hc.clusterBegin
    have hfats : bs.fatSectors < 2^32 := Nat.mod_lt _ (by decide)
    unfold BootSector.rootDirStartSector u32 at hstart
    unfold BootSector.dataStart at hfit hstart
    show bs.fatSectors = _
    omega
  · intro ha
    have hstart : f.clusterBegin = bs.dataStart := hbegin.trans (ha.rootDirStartSector hb)
    have hfit : bs.dataStart ≤ bs.totsec := ha.fits
    refine ⟨hone, hsize ▸ ha.sectorSize, hstart, fun c h2 hc hlt => ?_⟩
    have hdata : bs.countOfClusters * f.sectorsPerCluster ≤ bs.totsec - bs.dataStart := by
      rw [← BootSector.dataSec_eq hb hfit, hspc]
      exact Nat.div_mul_le_self ..
    have hlast : (c - 2) * f.sectorsPerCluster + f.sectorsPerCluster ≤ bs.totsec - bs.dataStart := by
      rw [← Nat.succ_mul]
      exact Nat.le_trans (Nat.mul_le_mul_right _ (by omega)) hdata
    rw [Fat32.sectorOfCluster_eq h2 hc (by omega)]
    omega

/-! ## two volumes -/

/-- a boot sector with 512-byte sectors, one in each cluster; two FATs of 1000 sectors -/
def bootBytes (rootEntCnt : UInt8) : List UInt8 :=
  Fat32.padded [0, 0, 0, 0, 0, 0, 0, 0, 0, 0, 0, 0, 2, 1, 32, 0, 2, rootEntCnt, 0, 0, 0, 0xF8, 0, 0, 0, 0, 0, 0, 0, 0, 0, 0,
    0xA0, 0x86, 1, 0, 0xE8, 3, 0, 0, 0, 0, 0, 0, 2, 0, 0, 0]

def bootDisk (rootEntCnt : UInt8) : Disk := ⟨fun _ => bootBytes rootEntCnt, fun _ => Fat32.length_padded (by simp)⟩

/-- the file system of such a boot sector -/
theorem bootDisk_init (rootEntCnt : UInt8) (h : rootEntCnt = 0 ∨ rootEntCnt = 16) :
    ∃ f, (Fat32.new (bootDisk rootEntCnt)).init = some f := by
  unfold Fat32.init
  rw [Fat32.readBootsector List.length_replicate, Option.bind_some]
  dsimp only
  obtain rfl | rfl := h
  · rw [if_neg (by decide), if_neg (by decide), if_neg (by decide), if_neg (by decide)]
    exact ⟨_, rfl⟩
  · rw [if_neg (by decide), if_neg (by decide), if_neg (by decide), if_neg (by decide)]
    exact ⟨_, rfl⟩

theorem geometry_consistent_iff_example : ∃ f, (Fat32.new (bootDisk 0)).init = some f ∧
    f.Consistent (BootSector.ofBytes ((bootDisk 0).sector 0)) := by
  obtain ⟨f, hf⟩ := bootDisk_init 0 (.inl rfl)
  exact ⟨f, hf, (geometry_consistent_iff (bootDisk 0) f hf).2 ⟨by decide, by decide, by decide⟩⟩

/-- A root directory of 16 entries, as of FAT16, takes a sector: `cluster_begin` is the sector before the data area. -/
theorem geometry_inconsistent : ¬ ∀ (disk : Disk) (f : Fat32), (Fat32.new disk).init = some f →
    f.Consistent (BootSector.ofBytes (disk.sector 0)) := by
  intro hall
  obtain ⟨f, hf⟩ := bootDisk_init 16 (.inr rfl)
  have hbegin := (hall _ f hf).clusterBegin
  rw [(Fat32.init_eq hf List.length_replicate).2.2.1] at hbegin
  exact absurd hbegin (by decide)

end Citron.Fs
