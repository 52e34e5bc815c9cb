import Citron.Fs.Fat
import Mathlib.Data.List.Nodup
import Mathlib.Tactic.Ring

/-!
# Cluster chains

What a FAT32 volume stores: the links of the FAT, the bytes of a cluster, the bytes of a chain.  Then what
`next_cluster` and `read_cluster` read, in these terms.

* `fatEntry`, `clusterBytes`   the volume, as a function of the cluster number;
* `Chain`, `content`           a chain of clusters and its bytes;
* `readLoop_chain`             the loop of `read_at` copies the bytes of the chain from the offset on.
-/

namespace Citron.Fs

/-- a copy into a buffer -/
def fill (r : Nat) (data buffer : List UInt8) : List UInt8 :=
  buffer.take r ++ data ++ buffer.drop (r + data.length)

@[simp] theorem fill_nil (r : Nat) (buffer : List UInt8) : fill r [] buffer = buffer := by
  simp [fill]

@[simp] theorem length_fill {r : Nat} {data buffer : List UInt8} (h : r + data.length ≤ buffer.length) :
    (fill r data buffer).length = buffer.length := by
  simp only [fill, List.length_append, List.length_take, List.length_drop]
  omega

theorem fill_fill {r : Nat} {a b buffer : List UInt8} (h : r + a.length ≤ buffer.length) :
    fill (r + a.length) b (fill r a buffer) = fill r (a ++ b) buffer := by
  have hlen : (buffer.take r ++ a).length = r + a.length := by
    rw [List.length_append, List.length_take]
    omega
  unfold fill
  rw [← hlen, List.take_left, ← List.drop_drop, List.drop_left, List.drop_drop, hlen,
    List.length_append, List.append_assoc _ a b, Nat.add_assoc]

namespace Fat32
variable {f : Fat32}

/-- a volume with sectors of 512 bytes -/
structure Ready (f : Fat32) : Prop where
  sectorSize : f.sectorSize = 512
  one_le : 1 ≤ f.sectorsPerCluster
  le : f.sectorsPerCluster ≤ 128
  buffer : f.buffer.length = 512

theorem Ready.setBuffer (hf : f.Ready) {b : List UInt8} (hb : b.length = 512) : (f.setBuffer b).Ready :=
  ⟨hf.sectorSize, hf.one_le, hf.le, hb⟩

theorem Ready.clusterSize_eq (hf : f.Ready) : f.clusterSize = 512 * f.sectorsPerCluster := by
  have := hf.le
  unfold clusterSize
  rw [hf.sectorSize]
  exact Nat.mod_eq_of_lt (by omega)

theorem Ready.clusterSize_pos (hf : f.Ready) : 0 < f.clusterSize := by
  have := hf.one_le
  rw [hf.clusterSize_eq]
  omega

/-! ## the FAT -/

/-- the sector of the FAT with the entry of a cluster -/
def fatSector (f : Fat32) (cluster : Nat) : List UInt8 :=
  f.disk.sector (u32 (f.fatBegin + u32 (cluster * 4) / 512))

/-- the 28 bits of the entry of a cluster -/
def fatEntry (f : Fat32) (cluster : Nat) : Nat :=
  le (slice (u32 (cluster * 4) % 512) 4 (f.fatSector cluster)) &&& 0x0FFFFFFF

def endMark : Nat := 0x0FFFFFF8
def badMark : Nat := 0x0FFFFFF7

/-- the state after a look at the FAT -/
def looked (f : Fat32) (cluster : Nat) : Fat32 := f.setBuffer (f.fatSector cluster)

theorem Ready.looked (hf : f.Ready) (cluster : Nat) : (f.looked cluster).Ready :=
  hf.setBuffer (f.disk.length_sector _)

/-- what a link says: the end of the chain, a bad cluster, or the next cluster -/
def link (entry : Nat) : Option (Option Nat) :=
  if endMark ≤ entry then some none else if entry = badMark then none else some (some entry)

theorem nextCluster_link_eq (hs : f.sectorSize = 512) (hbuf : f.buffer.length = 512) (cluster : Nat) :
    f.nextCluster cluster = (link (f.fatEntry cluster)).map fun next => (next, f.looked cluster) := by
  have hread : f.disk.readSector (u32 (f.fatBegin + u32 (cluster * 4) / 512)) f.buffer
      = some (f.fatSector cluster) := by
    unfold Disk.readSector fatSector
    rw [if_pos (by rw [hbuf]), List.drop_of_length_le (by rw [hbuf]), List.append_nil]
  have hlen : (f.fatSector cluster).length = 512 := f.disk.length_sector _
  have hoff : ¬ (f.fatSector cluster).length < u32 (cluster * 4) % 512 + 4 := by
    rw [hlen]
    unfold u32
    omega
  unfold nextCluster
  rw [if_neg (by rw [hs]; decide)]
  dsimp only
  rw [hs, hread, Option.bind_some, if_neg hoff]
  show (if endMark ≤ f.fatEntry cluster then some (none, f.looked cluster)
    else if f.fatEntry cluster = badMark then none else some (some (f.fatEntry cluster), f.looked cluster)) = _
  unfold link
  split
  · rfl
  · split <;> rfl

theorem nextCluster_eq (hf : f.Ready) (cluster : Nat) :
    f.nextCluster cluster =
      if endMark ≤ f.fatEntry cluster then some (none, f.looked cluster)
      else if f.fatEntry cluster = badMark then none
      else some (some (f.fatEntry cluster), f.looked cluster) := by
  rw [nextCluster_link_eq hf.sectorSize hf.buffer]
  unfold link
  split
  · rfl
  · split <;> rfl

/-! ## the data region -/

/-- the bytes of `n` sectors -/
def sectors (d : Disk) (place : Nat → Nat) (n : Nat) : List UInt8 :=
  (List.range n).flatMap fun i => d.sector (place i)

theorem sectors_succ (d : Disk) (place : Nat → Nat) (n : Nat) :
    sectors d place (n + 1) = sectors d place n ++ d.sector (place n) := by
  unfold sectors
  rw [List.range_succ, List.flatMap_append, List.flatMap_singleton]

@[simp] theorem length_sectors (d : Disk) (place : Nat → Nat) (n : Nat) :
    (sectors d place n).length = 512 * n := by
  induction n with
  | zero => rfl
  | succ n ih => rw [sectors_succ, List.length_append, ih, d.length_sector, Nat.mul_succ]

theorem sectors_congr (d : Disk) {place place' : Nat → Nat} {n : Nat} (h : ∀ i < n, place i = place' i) :
    sectors d place n = sectors d place' n := by
  unfold sectors
  rw [List.flatMap_def, List.flatMap_def,
    List.map_congr_left fun i hi => congrArg d.sector (h i (List.mem_range.mp hi))]

/-- without overflow -/
theorem sectorOfCluster_eq {c : Nat} (h2 : 2 ≤ c) (hc : c < 2^32)
    (hfit : (c - 2) * f.sectorsPerCluster + f.clusterBegin < 2^32) :
    f.sectorOfCluster c = (c - 2) * f.sectorsPerCluster + f.clusterBegin := by
  have hsub : u32 (c + (2^32 - 2)) = c - 2 := by
    unfold u32
    omega
  unfold sectorOfCluster
  rw [hsub]
  unfold u32
  rw [Nat.mod_eq_of_lt (show (c - 2) * f.sectorsPerCluster < 2^32 by omega), Nat.mod_eq_of_lt hfit]

/-- the bytes that `read_cluster` reads -/
def rawCluster (f : Fat32) (cluster : Nat) : List UInt8 :=
  sectors f.disk (fun i => u32 (f.sectorOfCluster cluster + i)) f.sectorsPerCluster

theorem length_rawCluster (hf : f.Ready) (c : Nat) : (f.rawCluster c).length = f.clusterSize := by
  rw [hf.clusterSize_eq]
  exact length_sectors ..

theorem readSector_eq (hs : f.sectorSize = 512) {n : Nat} {buffer : List UInt8} (hb : 512 ≤ buffer.length) :
    f.readSector n buffer = some (f.disk.sector n ++ buffer.drop 512) := by
  unfold readSector
  rw [hs]
  show (f.disk.readSector n buffer).bind some = _
  unfold Disk.readSector
  rw [if_pos hb]
  rfl

/-- one round of `read_cluster` -/
theorem readCluster_step (hs : f.sectorSize = 512) {n s : Nat} {done buffer : List UInt8} (hn : n < 2^16)
    (hdone : done.length = 512 * n) (hb : 512 ≤ buffer.length) :
    (if u32 (n * f.sectorSize) ≤ (done ++ buffer).length then
        (f.readSector s ((done ++ buffer).drop (u32 (n * f.sectorSize)))).map
          fun b => (done ++ buffer).take (u32 (n * f.sectorSize)) ++ b
      else none)
      = some (done ++ f.disk.sector s ++ buffer.drop 512) := by
  have hstart : u32 (n * f.sectorSize) = done.length := by
    rw [hs, hdone, Nat.mul_comm]
    exact Nat.mod_eq_of_lt (by omega)
  rw [hstart, if_pos (by rw [List.length_append]; omega), List.drop_left, List.take_left,
    readSector_eq hs hb, Option.map_some, List.append_assoc]

/-- `read_cluster`, sector by sector -/
theorem readCluster_sectors (hs : f.sectorSize = 512) (hspc : f.sectorsPerCluster < 2^16) {cluster : Nat}
    {buffer : List UInt8} (hb : buffer.length = 512 * f.sectorsPerCluster) :
    f.readCluster cluster buffer = some (f.rawCluster cluster) := by
  let place := fun i => u32 (f.sectorOfCluster cluster + i)
  have hsteps : ∀ n ≤ f.sectorsPerCluster,
      (List.range n).foldlM (fun b i =>
        if u32 (i * f.sectorSize) ≤ b.length then
          (f.readSector (place i) (b.drop (u32 (i * f.sectorSize)))).map
            fun s => b.take (u32 (i * f.sectorSize)) ++ s
        else none) buffer
      = some (sectors f.disk place n ++ buffer.drop (512 * n)) := by
    intro n
    induction n with
    | zero => exact fun _ => rfl
    | succ n ih =>
      intro hn
      rw [List.range_succ, List.foldlM_append, ih (by omega), sectors_succ, Nat.mul_succ, ← List.drop_drop]
      have hstep := readCluster_step hs (show n < 2^16 by omega) (s := place n)
        (length_sectors f.disk place n) (show 512 ≤ (buffer.drop (512 * n)).length by rw [List.length_drop]; omega)
      show Option.bind _ some = _
      rw [Option.bind_fun_some]
      exact hstep
  have h := hsteps f.sectorsPerCluster le_rfl
  rw [List.drop_of_length_le (by omega), List.append_nil] at h
  exact h

theorem readCluster_eq (hf : f.Ready) {cluster : Nat} {buffer : List UInt8}
    (hb : buffer.length = f.clusterSize) : f.readCluster cluster buffer = some (f.rawCluster cluster) := by
  have hspc := hf.le
  exact readCluster_sectors hf.sectorSize (by omega) (hb.trans hf.clusterSize_eq)

theorem readTmp_eq (hf : f.Ready) {cluster : Nat} {tmp : List UInt8} (htmp : tmp.length = f.clusterSize) :
    f.readTmp cluster tmp = some (f.rawCluster cluster) := by
  unfold readTmp
  rw [List.take_of_length_le (Nat.le_of_eq htmp), List.drop_of_length_le (Nat.le_of_eq htmp), readCluster_eq hf htmp,
    Option.map_some, List.append_nil]

/-! ## chains -/

/-- the bytes of a cluster: its sectors, in order -/
def clusterBytes (f : Fat32) (cluster : Nat) : List UInt8 :=
  sectors f.disk (fun i => (cluster - 2) * f.sectorsPerCluster + f.clusterBegin + i) f.sectorsPerCluster

/-- a cluster of the data region: its number is one, and those of its sectors are `u32` -/
structure InData (f : Fat32) (cluster : Nat) : Prop where
  two_le : 2 ≤ cluster
  le : cluster ≤ 0x0FFFFFF6
  fits : (cluster - 2) * f.sectorsPerCluster + f.clusterBegin + f.sectorsPerCluster ≤ 2^32

theorem rawCluster_eq {cluster : Nat} (hc : f.InData cluster) :
    f.rawCluster cluster = f.clusterBytes cluster := by
  obtain ⟨h2, h6, hfit⟩ := hc
  refine sectors_congr f.disk fun i hi => ?_
  rw [sectorOfCluster_eq h2 (by omega) (by omega)]
  exact Nat.mod_eq_of_lt (by omega)

/-- the chain that starts at a cluster -/
inductive Chain (f : Fat32) : Nat → List Nat → Prop
  | last {c : Nat} (hc : f.InData c) (hend : endMark ≤ f.fatEntry c) : Chain f c [c]
  | link {c d : Nat} {cs : List Nat} (hc : f.InData c) (hnext : f.fatEntry c = d) (h : Chain f d cs) :
      Chain f c (c :: cs)

/-- a look at the FAT changes the buffer, not the volume -/
theorem Chain.setBuffer {c : Nat} {cs : List Nat} (h : f.Chain c cs) (b : List UInt8) :
    (f.setBuffer b).Chain c cs := by
  induction h with
  | last hc hend => exact .last ⟨hc.two_le, hc.le, hc.fits⟩ hend
  | link hc hnext _ ih => exact .link ⟨hc.two_le, hc.le, hc.fits⟩ hnext ih

theorem Chain.inData {c : Nat} {cs : List Nat} (h : f.Chain c cs) : f.InData c := by
  cases h with
  | last hc _ => exact hc
  | link hc _ _ => exact hc

/-- the FAT has one chain from a cluster -/
theorem Chain.eq {c : Nat} {cs cs' : List Nat} (h : f.Chain c cs) (h' : f.Chain c cs') : cs = cs' := by
  induction h generalizing cs' with
  | last hc hend =>
    cases h' with
    | last _ _ => rfl
    | link _ hnext h' =>
      have hle := h'.inData.le
      unfold endMark at hend
      omega
  | link hc hnext h ih =>
    cases h' with
    | last _ hend =>
      have hle := h.inData.le
      unfold endMark at hend
      omega
    | link _ hnext' h' =>
      rw [hnext] at hnext'
      cases hnext'
      rw [ih h']

/-- the chain from a cluster of the chain is the rest of it -/
theorem Chain.suffix {c d : Nat} {cs : List Nat} (h : f.Chain c cs) (hd : d ∈ cs) : ∃ ds, ds <:+ cs ∧ f.Chain d ds := by
  induction h with
  | last hc hend =>
    rw [List.mem_singleton.mp hd]
    exact ⟨_, List.suffix_rfl, .last hc hend⟩
  | link hc hnext h ih =>
    rcases List.mem_cons.mp hd with rfl | hd
    · exact ⟨_, List.suffix_rfl, .link hc hnext h⟩
    · obtain ⟨ds, hsuffix, hchain⟩ := ih hd
      exact ⟨ds, hsuffix.trans (List.suffix_cons _ _), hchain⟩

/-- no cluster twice, else the chain would not end -/
theorem Chain.nodup {c : Nat} {cs : List Nat} (h : f.Chain c cs) : cs.Nodup := by
  induction h with
  | last _ _ => exact List.nodup_singleton _
  | @link c d cs hc hnext h ih =>
    refine List.nodup_cons.mpr ⟨fun hmem => ?_, ih⟩
    obtain ⟨ds, hsuffix, hchain⟩ := h.suffix hmem
    have hle := hsuffix.length_le
    rw [hchain.eq (.link hc hnext h), List.length_cons] at hle
    exact Nat.not_succ_le_self _ hle

/-- a cluster number has 28 bits -/
theorem Chain.length_lt {c : Nat} {cs : List Nat} (h : f.Chain c cs) : cs.length < 2^28 := by
  have hsub : cs ⊆ List.range 0x0FFFFFF7 := by
    intro d hd
    obtain ⟨ds, -, hchain⟩ := h.suffix hd
    exact List.mem_range.mpr (Nat.lt_succ_of_le hchain.inData.le)
  have hle := List.Nodup.length_le_of_subset h.nodup hsub
  rw [List.length_range] at hle
  omega

def content (f : Fat32) (cs : List Nat) : List UInt8 := cs.flatMap f.clusterBytes

theorem length_clusterBytes (hf : f.Ready) (c : Nat) : (f.clusterBytes c).length = f.clusterSize := by
  rw [hf.clusterSize_eq]
  exact length_sectors ..

theorem length_content (hf : f.Ready) (cs : List Nat) :
    (f.content cs).length = cs.length * (512 * f.sectorsPerCluster) := by
  induction cs with
  | nil => exact (Nat.zero_mul _).symm
  | cons c cs ih =>
    show (f.clusterBytes c ++ f.content cs).length = _
    rw [List.length_append, ih, length_clusterBytes hf, hf.clusterSize_eq, List.length_cons]
    ring

/-! ## the loop of `read_at` -/

/-- what is copied of a cluster, and what is left to the next ones -/
theorem take_drop_append {a b : List UInt8} {o n : Nat} (ho : o ≤ a.length) :
    ((a ++ b).drop o).take n
      = slice o (min (a.length - o) n) a ++ b.take (n - min (a.length - o) n) := by
  rw [List.drop_append_of_le_length ho, List.take_append, List.length_drop]
  congr 1
  · unfold slice
    rw [List.take_eq_take_iff, List.length_drop]
    omega
  · congr 1
    omega

/-- the bytes that the loop has still to copy: `skip` clusters are passed over, then `o` bytes -/
def rest (f : Fat32) (cs : List Nat) (skip o n : Nat) : List UInt8 :=
  ((f.content cs).drop (skip * f.clusterSize + o)).take n

theorem rest_skip (hf : f.Ready) (c : Nat) (cs : List Nat) (skip o n : Nat) :
    f.rest (c :: cs) (skip + 1) o n = f.rest cs skip o n := by
  have hlen : (skip + 1) * f.clusterSize + o = (f.clusterBytes c).length + (skip * f.clusterSize + o) := by
    rw [length_clusterBytes hf, Nat.succ_mul]
    omega
  unfold rest
  show ((f.clusterBytes c ++ f.content cs).drop _).take n = _
  rw [hlen, ← List.drop_drop, List.drop_left]

theorem rest_copy (hf : f.Ready) (c : Nat) (cs : List Nat) {o : Nat} (ho : o < f.clusterSize) (n : Nat) :
    f.rest (c :: cs) 0 o n = slice o (min (f.clusterSize - o) n) (f.clusterBytes c)
      ++ f.rest cs 0 0 (n - min (f.clusterSize - o) n) := by
  unfold rest
  show ((f.clusterBytes c ++ f.content cs).drop _).take n = _
  rw [Nat.zero_mul, Nat.zero_add, take_drop_append (by rw [length_clusterBytes hf]; omega),
    length_clusterBytes hf]
  rfl

@[simp] theorem rest_nil (skip o n : Nat) : f.rest [] skip o n = [] := by
  simp [rest, content]

@[simp] theorem rest_zero (cs : List Nat) (skip o : Nat) : f.rest cs skip o 0 = [] := List.take_zero

theorem nextCluster_last (hf : f.Ready) {c : Nat} (hend : endMark ≤ f.fatEntry c) :
    f.nextCluster c = some (none, f.looked c) := by
  rw [nextCluster_eq hf, if_pos hend]

theorem nextCluster_link (hf : f.Ready) {c : Nat} (hnext : f.InData (f.fatEntry c)) :
    f.nextCluster c = some (some (f.fatEntry c), f.looked c) := by
  have h := hnext.le
  rw [nextCluster_eq hf, if_neg (by unfold endMark; omega), if_neg (by unfold badMark; omega)]

theorem offsetCluster_lt (f : Fat32) (offset : Nat) : u32 offset / f.clusterSize < 2^32 :=
  (Nat.div_le_self _ _).trans_lt (Nat.mod_lt _ (by decide))

section rounds
variable {c oc fuel o r rc : Nat} {tmp buffer : List UInt8}

/-- a round that passes over a cluster -/
theorem readLoop_skip (hlt : r < buffer.length) (hskip : rc < oc) :
    readLoop oc (fuel + 1) c o r rc tmp buffer f = (f.nextCluster c).bind fun
      | (some d, f) => readLoop oc fuel d o r (u32 (rc + 1)) tmp buffer f
      | (none, f) => some (r, buffer, f) := by
  rw [readLoop, if_pos hlt]
  exact if_pos hskip

/-- the bytes that a round copies -/
def piece (f : Fat32) (c o n : Nat) : List UInt8 := slice o (min (f.clusterSize - o) n) (f.rawCluster c)

theorem length_piece (hf : f.Ready) (c o n : Nat) :
    (f.piece c o n).length = min (f.clusterSize - o) n := by
  unfold piece slice
  rw [List.length_take, List.length_drop, length_rawCluster hf]
  omega

/-- a round that copies a cluster -/
theorem readLoop_copy (hf : f.Ready) (htmp : tmp.length = f.clusterSize) (hlt : r < buffer.length)
    (hskip : ¬ rc < oc) :
    readLoop oc (fuel + 1) c o r rc tmp buffer f = (f.nextCluster c).bind fun
      | (some d, f') => readLoop oc fuel d 0 (r + (f.piece c o (buffer.length - r)).length) (u32 (rc + 1))
          (f.rawCluster c) (fill r (f.piece c o (buffer.length - r)) buffer) f'
      | (none, f') => some (r + (f.piece c o (buffer.length - r)).length,
          fill r (f.piece c o (buffer.length - r)) buffer, f') := by
  rw [readLoop, if_pos hlt, if_neg hskip, readTmp_eq hf htmp]
  unfold fill
  rw [length_piece hf]
  rfl

end rounds

theorem readLoop_chain (cs : List Nat) : ∀ (f : Fat32) (c oc fuel o r rc : Nat) (tmp buffer : List UInt8),
    f.Ready → f.Chain c cs → o < f.clusterSize → tmp.length = f.clusterSize → r ≤ buffer.length →
    rc + cs.length < 2^32 → (oc - rc) + (buffer.length - r) < fuel →
    ∃ b, b.length = 512 ∧
      readLoop oc fuel c o r rc tmp buffer f
        = some (r + (f.rest cs (oc - rc) o (buffer.length - r)).length,
            fill r (f.rest cs (oc - rc) o (buffer.length - r)) buffer, f.setBuffer b) := by
  induction cs with
  | nil => intro f c oc fuel o r rc tmp buffer _ h; cases h
  | cons c cs ih =>
    intro f c' oc fuel o r rc tmp buffer hf h ho htmp hr hrc hfuel
    rw [List.length_cons] at hrc
    have hcount : u32 (rc + 1) = rc + 1 := Nat.mod_eq_of_lt (by omega)
    obtain rfl : c' = c := by cases h <;> rfl
    obtain ⟨fuel, rfl⟩ : ∃ n, fuel = n + 1 := ⟨fuel - 1, by omega⟩
    by_cases hlt : r < buffer.length
    · by_cases hskip : rc < oc
      · -- a cluster is passed over
        have hn : oc - rc = (oc - (rc + 1)) + 1 := by omega
        rw [hn, rest_skip hf, readLoop_skip hlt hskip, hcount]
        cases h with
        | last hc hend =>
          refine ⟨f.fatSector c', f.disk.length_sector _, ?_⟩
          rw [nextCluster_last hf hend, rest_nil, fill_nil]
          rfl
        | link hc hnext h =>
          subst hnext
          rw [nextCluster_link hf h.inData]
          exact ih _ _ _ _ _ _ _ _ _ (hf.looked _) (h.setBuffer _) ho htmp hr (by omega) (by omega)
      · -- a cluster is copied, from the offset on
        have hn : oc - rc = 0 := by omega
        have hn' : oc - (rc + 1) = 0 := by omega
        have hpiece := length_piece hf c' o (buffer.length - r)
        have hraw : f.piece c' o (buffer.length - r)
            = slice o (min (f.clusterSize - o) (buffer.length - r)) (f.clusterBytes c') := by
          unfold piece
          rw [rawCluster_eq h.inData]
        rw [hn, rest_copy hf c' cs ho, ← hraw, readLoop_copy hf htmp hlt hskip, ← hpiece, hcount]
        cases h with
        | last hc hend =>
          refine ⟨f.fatSector c', f.disk.length_sector _, ?_⟩
          rw [nextCluster_last hf hend, rest_nil, List.append_nil]
          rfl
        | link hc hnext h =>
          subst hnext
          have hfill : (fill r (f.piece c' o (buffer.length - r)) buffer).length = buffer.length :=
            length_fill (by omega)
          obtain ⟨b, hb, hloop⟩ := ih _ _ oc fuel 0 (r + (f.piece c' o (buffer.length - r)).length) (rc + 1)
            (f.rawCluster c') (fill r (f.piece c' o (buffer.length - r)) buffer) (hf.looked c')
            (h.setBuffer _) hf.clusterSize_pos (length_rawCluster hf c') (by omega) (by omega) (by omega)
          refine ⟨b, hb, ?_⟩
          rw [nextCluster_link hf h.inData]
          refine hloop.trans ?_
          rw [hfill, hn', fill_fill (by omega), List.length_append, Nat.add_assoc, Nat.sub_add_eq]
          rfl
    · refine ⟨f.buffer, hf.buffer, ?_⟩
      rw [show buffer.length - r = 0 by omega, rest_zero, fill_nil]
      unfold readLoop
      rw [if_neg hlt]
      rfl

end Fat32

end Citron.Fs
