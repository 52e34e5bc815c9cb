import Citron.Fs.Read

/-!
# Logical sectors

A volume may have sectors of `m` times 512 bytes on a disk with sectors of 512.  `read_sector` reads the `m` sectors
of the disk to one place, from a number that is not scaled; `next_cluster` reads one sector of the disk.

* `Disk.bytes`            the bytes of a volume, by their numbers;
* `Accesses`              a cluster and its link are what the volume stores there;
* `logical_sectors_iff`   for every content, exactly for sectors of 512 bytes and cluster numbers below `2^30`.
-/

namespace Citron.Fs

/-! ## bytes of a volume -/

/-- a byte of the disk by its number -/
def Disk.byte (d : Disk) (n : Nat) : UInt8 := (d.sector (n / 512)).getD (n % 512) 0

def Disk.bytes (d : Disk) (start len : Nat) : List UInt8 := (List.range len).map fun i => d.byte (start + i)

namespace Disk
variable (d : Disk)

@[simp] theorem length_bytes (start len : Nat) : (d.bytes start len).length = len := by
  simp [bytes]

theorem getElem?_bytes {start len i : Nat} (h : i < len) : (d.bytes start len)[i]? = some (d.byte (start + i)) := by
  simp [bytes, h]

/-- bytes of one sector -/
theorem bytes_sector (s : Nat) {o len : Nat} (h : o + len ≤ 512) :
    d.bytes (s * 512 + o) len = slice o len (d.sector s) := by
  refine List.ext_getElem? fun i => ?_
  by_cases hi : i < len
  · have hsector : (s * 512 + o + i) / 512 = s := by omega
    have hoffset : (s * 512 + o + i) % 512 = o + i := by omega
    have hlt : o + i < (d.sector s).length := by
      rw [d.length_sector]
      omega
    rw [getElem?_bytes d hi]
    unfold byte slice
    rw [hsector, hoffset, List.getElem?_take_of_lt hi, List.getElem?_drop, List.getD_eq_getElem?_getD,
      List.getElem?_eq_getElem hlt, Option.getD_some]
  · rw [List.getElem?_eq_none (by rw [length_bytes]; omega), List.getElem?_eq_none]
    unfold slice
    rw [List.length_take]
    omega

theorem bytes_add (start len len' : Nat) :
    d.bytes start (len + len') = d.bytes start len ++ d.bytes (start + len) len' := by
  unfold bytes
  rw [List.range_add, List.map_append, List.map_map]
  congr 1
  refine List.map_congr_left fun i _ => ?_
  show d.byte _ = d.byte _
  rw [Nat.add_assoc]

/-- bytes of several sectors -/
theorem bytes_sectors (s n : Nat) : d.bytes (s * 512) (n * 512) = Fat32.sectors d (fun i => s + i) n := by
  induction n with
  | zero => rfl
  | succ n ih =>
    have hnext : s * 512 + n * 512 = (s + n) * 512 + 0 := by omega
    rw [Nat.succ_mul, bytes_add, ih, Fat32.sectors_succ, hnext, bytes_sector d (s + n) (by omega)]
    unfold slice
    rw [List.drop_zero, List.take_of_length_le (by rw [d.length_sector])]

end Disk

namespace Fat32
variable {f : Fat32} {m c : Nat}

/-- The cluster and its link, as the volume stores them.  `none` is a panic or an access outside a buffer; a link that
says "bad cluster" panics. -/
structure Accesses (f : Fat32) (c : Nat) : Prop where
  cluster : ∀ buffer : List UInt8, buffer.length = f.sectorsPerCluster * f.sectorSize →
    f.readCluster c buffer
      = some (f.disk.bytes (f.sectorOfCluster c * f.sectorSize) (f.sectorsPerCluster * f.sectorSize))
  link : (f.nextCluster c).map Prod.fst = link (le (f.disk.bytes (f.fatBegin * f.sectorSize + 4 * c) 4) &&& 0x0FFFFFFF)

/-- a volume with `m * 512` bytes in a sector, and a cluster in it; the bounds are those of the fields' types -/
structure Logical (f : Fat32) (m c : Nat) : Prop where
  sectorSize : f.sectorSize = m * 512
  pos : 1 ≤ m
  size_lt : f.sectorSize < 2^16
  one_le : 1 ≤ f.sectorsPerCluster
  spc_lt : f.sectorsPerCluster < 2^8
  fatBegin : f.fatBegin < 2^16
  buffer : f.buffer.length = 512
  two_le : 2 ≤ c
  lt : c < 2^32
  fits : (c - 2) * f.sectorsPerCluster + f.clusterBegin + f.sectorsPerCluster ≤ 2^32

def withDisk (f : Fat32) (d : Disk) : Fat32 := { f with disk := d }

theorem Logical.withDisk (h : f.Logical m c) (d : Disk) : (f.withDisk d).Logical m c :=
  ⟨h.sectorSize, h.pos, h.size_lt, h.one_le, h.spc_lt, h.fatBegin, h.buffer, h.two_le, h.lt, h.fits⟩

/-! ## sectors of 512 bytes -/

theorem rawCluster_bytes (h : f.Logical 1 c) :
    f.rawCluster c = f.disk.bytes (f.sectorOfCluster c * 512) (f.sectorsPerCluster * 512) := by
  have hone := h.one_le
  have hfits := h.fits
  have hfirst := sectorOfCluster_eq h.two_le h.lt (show (c - 2) * f.sectorsPerCluster + f.clusterBegin < 2^32 by omega)
  rw [Disk.bytes_sectors]
  refine sectors_congr f.disk fun i hi => ?_
  exact Nat.mod_eq_of_lt (by omega)

/-- the place of a link in the FAT -/
theorem fatEntry_bytes (h : f.Logical 1 c) (hc : c < 2^30) :
    f.fatEntry c = le (f.disk.bytes (f.fatBegin * 512 + 4 * c) 4) &&& 0x0FFFFFFF := by
  have hbegin := h.fatBegin
  have hoffset : u32 (c * 4) = c * 4 := Nat.mod_eq_of_lt (by omega)
  have hsector : u32 (f.fatBegin + c * 4 / 512) = f.fatBegin + c * 4 / 512 := Nat.mod_eq_of_lt (by omega)
  have hplace : f.fatBegin * 512 + 4 * c = (f.fatBegin + c * 4 / 512) * 512 + c * 4 % 512 := by omega
  unfold fatEntry fatSector
  rw [hoffset, hsector, hplace, Disk.bytes_sector _ _ (by omega)]

theorem accesses_of_small (h : f.Logical 1 c) (hc : c < 2^30) : f.Accesses c := by
  have hs : f.sectorSize = 512 := h.sectorSize
  have hspc := h.spc_lt
  refine ⟨fun buffer hb => ?_, ?_⟩
  · rw [hs] at hb ⊢
    rw [readCluster_sectors hs (by omega) (hb.trans (Nat.mul_comm ..)), rawCluster_bytes h]
  · rw [hs, nextCluster_link_eq hs h.buffer, Option.map_map, ← fatEntry_bytes h hc]
    exact congrFun Option.map_id _

/-- a link that is read from elsewhere in the FAT -/
theorem not_accesses_of_large (h : f.Logical 1 c) (hc : 2^30 ≤ c) : ¬ ∀ d : Disk, (f.withDisk d).Accesses c := by
  intro hall
  have hlt := h.lt
  have hbegin := h.fatBegin
  -- the link is the end of the chain, and all other sectors are zero
  let place := f.fatBegin + c * 4 / 512
  let d : Disk := ⟨fun n => List.replicate 512 (if n = place then 0xFF else 0), fun n => List.length_replicate⟩
  have hlink := (hall d).link
  have hs : (f.withDisk d).sectorSize = 512 := h.sectorSize
  have hread : u32 (f.fatBegin + u32 (c * 4) / 512) ≠ place := by
    show u32 (f.fatBegin + u32 (c * 4) / 512) ≠ f.fatBegin + c * 4 / 512
    unfold u32
    omega
  have hzero : (f.withDisk d).fatEntry c = 0 := by
    have hsector : (f.withDisk d).fatSector c = List.replicate 512 0 := congrArg (List.replicate 512) (if_neg hread)
    unfold fatEntry
    rw [hsector]
    unfold slice
    rw [List.drop_replicate, List.take_replicate]
    have hle : ∀ n, le (List.replicate n 0) = 0 := by
      intro n
      induction n with
      | zero => rfl
      | succ n ih =>
        show 0 + 256 * le (List.replicate n 0) = 0
        rw [ih]
    rw [hle]
    rfl
  have hstored : (f.withDisk d).disk.bytes ((f.withDisk d).fatBegin * 512 + 4 * c) 4 = List.replicate 4 0xFF := by
    have hplace : f.fatBegin * 512 + 4 * c = place * 512 + c * 4 % 512 := by
      show _ = (f.fatBegin + c * 4 / 512) * 512 + c * 4 % 512
      omega
    show d.bytes (f.fatBegin * 512 + 4 * c) 4 = _
    rw [hplace, Disk.bytes_sector d place (by omega)]
    show slice _ 4 (List.replicate 512 (if place = place then 0xFF else 0)) = _
    unfold slice
    rw [if_pos rfl, List.drop_replicate, List.take_replicate, Nat.min_eq_left (by omega)]
  rw [hs, nextCluster_link_eq hs h.buffer, hzero, hstored] at hlink
  cases hlink

/-! ## larger sectors -/

/-- what every round of a loop keeps -/
theorem foldlM_keeps {α β : Type} {step : β → α → Option β} (P : β → Prop) (l : List α)
    (hstep : ∀ a ∈ l, ∀ b b', P b → step b a = some b' → P b') : ∀ {b b' : β}, P b → l.foldlM step b = some b' → P b' := by
  induction l with
  | nil =>
    intro b b' hb h
    cases h
    exact hb
  | cons a l ih =>
    intro b b' hb h
    rw [List.foldlM_cons] at h
    obtain ⟨b₁, h₁, h⟩ := Option.bind_eq_some_iff.mp h
    exact ih (fun a ha => hstep a (List.mem_cons_of_mem _ ha)) (hstep a List.mem_cons_self b b₁ hb h₁) h

/-- all rounds of `read_sector` write the same 512 bytes -/
theorem readSector_drop {n : Nat} {buffer b : List UInt8} (h : f.readSector n buffer = some b) :
    b.drop 512 = buffer.drop 512 := by
  refine foldlM_keeps (fun b => b.drop 512 = buffer.drop 512) _ (fun i _ b b' hb hread => ?_) rfl h
  obtain ⟨-, hdrop⟩ := disk_readSector_spec hread
  exact hdrop.trans hb

/-- **The second sector of the disk is never read**: what is there in the buffer stays. -/
theorem readCluster_hole (h : f.Logical m c) (hm : 2 ≤ m) {buffer b : List UInt8}
    (hread : f.readCluster c buffer = some b) : b[512]? = buffer[512]? := by
  have hsize := h.sectorSize
  have hlt := h.size_lt
  have hspc := h.spc_lt
  refine foldlM_keeps (fun b => b[512]? = buffer[512]?) _ (fun i hi b b' hb hstep => ?_) rfl hread
  have hi : i < f.sectorsPerCluster := List.mem_range.mp hi
  dsimp only at hstep
  split at hstep
  · rename_i hstart
    obtain ⟨s, hs, rfl⟩ := Option.map_eq_some_iff.mp hstep
    have hdrop := readSector_drop hs
    by_cases hzero : i = 0
    · subst hzero
      have hb' : s.drop 512 = b.drop 512 := by simpa [u32] using hdrop
      have hhead := congrArg (·[0]?) hb'
      simp only [List.getElem?_drop, Nat.add_zero] at hhead
      simpa [u32, hhead] using hb
    · -- later sectors are further on
      have hge : f.sectorSize ≤ i * f.sectorSize := Nat.le_mul_of_pos_left _ (Nat.pos_of_ne_zero hzero)
      have hle : i * f.sectorSize ≤ 255 * f.sectorSize := Nat.mul_le_mul_right _ (by omega)
      have hexact : u32 (i * f.sectorSize) = i * f.sectorSize := Nat.mod_eq_of_lt (by omega)
      rw [hexact] at hstart ⊢
      rw [List.getElem?_append_left (by rw [List.length_take]; omega), List.getElem?_take_of_lt (by omega), hb]
  · cases hstep

theorem not_accesses_of_two_le (h : f.Logical m c) (hm : 2 ≤ m) : ¬ ∀ d : Disk, (f.withDisk d).Accesses c := by
  intro hall
  -- the volume is all ones and the buffer all zero
  let d : Disk := ⟨fun _ => List.replicate 512 1, fun _ => List.length_replicate⟩
  have hlong : 1024 ≤ f.sectorsPerCluster * f.sectorSize := by
    have hsize : 1024 ≤ f.sectorSize := by
      rw [h.sectorSize]
      omega
    exact Nat.le_trans hsize (Nat.le_mul_of_pos_left _ h.one_le)
  have hread := (hall d).cluster (List.replicate (f.sectorsPerCluster * f.sectorSize) 0) List.length_replicate
  have hhole := readCluster_hole (h.withDisk d) hm hread
  have hlt : 512 < f.sectorsPerCluster * f.sectorSize := by omega
  have hone : ∀ n, d.byte n = 1 := by
    intro n
    show (List.replicate 512 1).getD (n % 512) 0 = 1
    rw [List.getD_eq_getElem?_getD, List.getElem?_replicate, if_pos (Nat.mod_lt _ (by decide))]
    rfl
  have hbyte : (d.bytes ((f.withDisk d).sectorOfCluster c * (f.withDisk d).sectorSize)
      (f.sectorsPerCluster * f.sectorSize))[512]? = some 1 := by
    rw [Disk.getElem?_bytes d hlt, hone]
  rw [show (f.withDisk d).disk = d from rfl, show (f.withDisk d).sectorsPerCluster = f.sectorsPerCluster from rfl,
    show (f.withDisk d).sectorSize = f.sectorSize from rfl] at hhole
  rw [show (f.withDisk d).sectorSize = f.sectorSize from rfl] at hbyte
  rw [hbyte, List.getElem?_replicate, if_pos hlt] at hhole
  cases hhole

end Fat32

/-- **When clusters and links are read as the volume stores them**, whatever it stores: exactly for logical sectors of
512 bytes and cluster numbers whose links have their offsets in a `u32`. -/
theorem logical_sectors_iff (f : Fat32) (m c : Nat) (h : f.Logical m c) :
    (∀ d : Disk, (f.withDisk d).Accesses c) ↔ m = 1 ∧ c < 2^30 := by
  have hpos := h.pos
  constructor
  · intro hall
    by_cases hm : m = 1
    · subst hm
      refine ⟨rfl, Nat.lt_of_not_le fun hc => Fat32.not_accesses_of_large h hc hall⟩
    · exact absurd hall (Fat32.not_accesses_of_two_le h (by omega))
  · intro ⟨hm, hc⟩ d
    subst hm
    exact Fat32.accesses_of_small (h.withDisk d) hc

/-- a volume of one cluster in a sector, with `m * 512` bytes -/
def logicalVolume (m : Nat) : Fat32 where
  disk := ⟨fun _ => List.replicate 512 0, fun _ => List.length_replicate⟩
  buffer := List.replicate 512 0
  fatBegin := 32
  clusterBegin := 2032
  sectorsPerCluster := 1
  rootDirFirstCluster := 2
  sectorSize := m * 512

theorem logicalVolume_logical {m : Nat} (h1 : 1 ≤ m) (h : m * 512 < 2^16) : (logicalVolume m).Logical m 2 :=
  ⟨rfl, h1, h, le_rfl, show 1 < 2^8 by decide, show 32 < 2^16 by decide, List.length_replicate, le_rfl, by decide,
    show (2 - 2) * 1 + 2032 + 1 ≤ 2^32 by decide⟩

theorem logical_sectors_iff_example : (logicalVolume 1).Accesses 2 :=
  (logical_sectors_iff (logicalVolume 1) 1 2 (logicalVolume_logical le_rfl (by decide))).2 ⟨rfl, by decide⟩
    (logicalVolume 1).disk

/-- With sectors of 1024 bytes a cluster is read with a hole. -/
theorem logical_sectors_hole : ¬ ∀ (f : Fat32) (m c : Nat), f.Logical m c → f.Accesses c := by
  intro hall
  refine Fat32.not_accesses_of_two_le (logicalVolume_logical (m := 2) (by decide) (by decide)) le_rfl fun d => ?_
  exact hall _ 2 2 ((logicalVolume_logical (by decide) (by decide)).withDisk d)

end Citron.Fs
