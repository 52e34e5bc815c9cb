import Citron.Fs.FileSystem

/-!
# FAT32

`src/fs/fat.rs` over any disk with 512-byte sectors.  Fields and sector numbers are `u32`, natural numbers
with the sums and products taken modulo `2^32`.  `none` is a panic, or an access outside a buffer.  The
loops of `find_file` and `read_at` take fuel.

* `readCluster`, `nextCluster`   a cluster, and the link to the next one;
* `findFile`, `getEntryFromPath` directories;
* `readAt`, `fileSize`           the file system.
-/

namespace Citron.Fs

/-- the trait `Disk`: the sectors, each of 512 bytes -/
structure Disk where
  sector : Nat → List UInt8
  length_sector : ∀ n, (sector n).length = 512

/-- the device writes a whole sector at the front of the buffer -/
def Disk.readSector (d : Disk) (n : Nat) (buffer : List UInt8) : Option (List UInt8) :=
  if 512 ≤ buffer.length then some (d.sector n ++ buffer.drop 512) else none

/-- little endian -/
def le (bytes : List UInt8) : Nat := bytes.foldr (fun b n => b.toNat + 256 * n) 0

def slice (start len : Nat) (bytes : List UInt8) : List UInt8 := (bytes.drop start).take len

structure DirEntry where
  fileName : List UInt8
  attr : UInt8
  firstClusterHigh : Nat
  firstClusterLow : Nat
  size : Nat
deriving DecidableEq, Repr

def DirEntry.ofBytes (bytes : List UInt8) : DirEntry where
  fileName := slice 0 11 bytes
  attr := bytes.getD 11 0
  firstClusterHigh := le (slice 20 2 bytes)
  firstClusterLow := le (slice 26 2 bytes)
  size := le (slice 28 4 bytes)

/-- `(high as u32) << 16 | low as u32` -/
def DirEntry.firstCluster (e : DirEntry) : Nat := e.firstClusterHigh <<< 16 ||| e.firstClusterLow

structure LFNEntry where
  name1 : List Nat
  name2 : List Nat
  name3 : List Nat
deriving DecidableEq, Repr

/-- the `u16`s of a packed array -/
def u16s (start n : Nat) (bytes : List UInt8) : List Nat :=
  (List.range n).map fun i => le (slice (start + 2 * i) 2 bytes)

def LFNEntry.ofBytes (bytes : List UInt8) : LFNEntry where
  name1 := u16s 1 5 bytes
  name2 := u16s 14 6 bytes
  name3 := u16s 28 2 bytes

/-- `char::is_whitespace` of the characters up to `0xff` -/
def isWhitespace (b : Nat) : Bool := (9 ≤ b && b ≤ 13) || b == 0x20 || b == 0x85 || b == 0xA0

/-- one of the three loops of `lfn_to_string`; `ch as u8 as char` -/
def lfnChars (units : List Nat) : List Char :=
  units.filterMap fun ch =>
    if ch = 0xffff then none
    else if ch = 0 then none
    else if isWhitespace (ch % 256) then none
    else some (Char.ofNat (ch % 256))

def lfnToString (lfn : LFNEntry) : List Char :=
  lfnChars lfn.name1 ++ lfnChars lfn.name2 ++ lfnChars lfn.name3

def nameChars (bytes : List UInt8) : List Char :=
  (bytes.filter fun b => !isWhitespace b.toNat).map fun b => Char.ofNat b.toNat

def dirEntryName (entry : DirEntry) : List Char :=
  let res := nameChars (slice 0 8 entry.fileName)
  let ext := nameChars (slice 8 3 entry.fileName)
  if ext.length = 0 then res else res ++ '.' :: ext

structure Fat32 where
  disk : Disk
  buffer : List UInt8
  fatBegin : Nat
  clusterBegin : Nat
  sectorsPerCluster : Nat
  rootDirFirstCluster : Nat
  sectorSize : Nat

namespace Fat32

def setBuffer (f : Fat32) (b : List UInt8) : Fat32 := { f with buffer := b }

/-! ## clusters -/

-- each round writes the front of the buffer
def readSector (f : Fat32) (n : Nat) (buffer : List UInt8) : Option (List UInt8) :=
  (List.range (f.sectorSize / 512)).foldlM (fun b i => f.disk.readSector (n + i) b) buffer

def sectorOfCluster (f : Fat32) (cluster : Nat) : Nat :=
  u32 (u32 (u32 (cluster + (2^32 - 2)) * f.sectorsPerCluster) + f.clusterBegin)

def readCluster (f : Fat32) (cluster : Nat) (buffer : List UInt8) : Option (List UInt8) :=
  let firstSector := f.sectorOfCluster cluster
  (List.range f.sectorsPerCluster).foldlM (fun b i =>
    let start := u32 (i * f.sectorSize)
    if start ≤ b.length then
      (f.readSector (u32 (firstSector + i)) (b.drop start)).map fun s => b.take start ++ s
    else none) buffer

/-- the link of a cluster; `some none` at the end of the chain -/
def nextCluster (f : Fat32) (cluster : Nat) : Option (Option Nat × Fat32) :=
  if f.sectorSize = 0 then none
  else
    let fatOffset := u32 (cluster * 4)
    let fatSector := u32 (f.fatBegin + fatOffset / f.sectorSize)
    let entOffset := fatOffset % f.sectorSize
    (f.disk.readSector fatSector f.buffer).bind fun buffer =>
      if buffer.length < entOffset + 4 then none
      else
        let tableValue := le (slice entOffset 4 buffer) &&& 0x0FFFFFFF
        if 0x0FFFFFF8 ≤ tableValue then some (none, f.setBuffer buffer)
        else if tableValue = 0x0FFFFFF7 then none
        else some (some tableValue, f.setBuffer buffer)

/-! ## directories -/

/-- the place of the walk in a directory: the cluster, its bytes and the index of the entry -/
structure Cursor where
  dirCluster : Nat
  buf : List UInt8
  currIdx : Nat

def Cursor.entry (c : Cursor) : List UInt8 := slice (c.currIdx * 32) 32 c.buf

/-- `curr_idx += 1`, with the next cluster after the last entry; `some none` leaves the loop -/
def advance (f : Fat32) (c : Cursor) : Option (Option Cursor × Fat32) :=
  let currIdx := c.currIdx + 1
  if 16 ≤ currIdx then
    (f.nextCluster c.dirCluster).bind fun (next, f) =>
      match next with
      | some cluster => (f.readCluster cluster c.buf).map fun buf => (some ⟨cluster, buf, currIdx % 16⟩, f)
      | none => some (none, f)
  else some (some ⟨c.dirCluster, c.buf, currIdx⟩, f)

variable (toUppercase : List Char → List Char)

/-- the loop of `find_file`; `found` is only ever set in the round that returns -/
def findLoop (fileName : List Char) : Nat → Cursor → Fat32 → Option (Option DirEntry × Fat32)
  | 0, _, _ => none
  | fuel + 1, c, f =>
    if c.entry.getD 0 0 = 0 then some (none, f)
    else
      let isLfn := c.entry.getD 11 0 = 0x0F
      let found := isLfn ∧ lfnToString (LFNEntry.ofBytes c.entry) = fileName
      (if isLfn then f.advance c else some (some c, f)).bind fun
        | (none, f) => some (none, f)
        | (some c, f) =>
          let dirEntry := DirEntry.ofBytes c.entry
          if found then some (some dirEntry, f)
          else if dirEntryName dirEntry = toUppercase fileName then some (some dirEntry, f)
          else (f.advance c).bind fun
            | (none, f) => some (none, f)
            | (some c, f) => findLoop fileName fuel c f

def findFile (fuel dirCluster : Nat) (fileName : List Char) (f : Fat32) :
    Option (Option DirEntry × Fat32) :=
  (f.readCluster dirCluster (List.replicate 512 0)).bind fun buf =>
    findLoop toUppercase fileName fuel ⟨dirCluster, buf, 0⟩ f

/-- the components of a path, from a directory on -/
def walkPath (fuel : Nat) : List (List Char) → Nat → Option DirEntry → Fat32 →
    Option (Option DirEntry × Fat32)
  | [], _, currEntry, f => some (currEntry, f)
  | name :: names, cluster, currEntry, f =>
    if name.length = 0 then walkPath fuel names cluster currEntry f
    else (findFile toUppercase fuel cluster name f).bind fun
      | (some entry, f) => walkPath fuel names entry.firstCluster (some entry) f
      | (none, f) => some (none, f)

def getEntryFromPath (fuel : Nat) (path : String) (f : Fat32) : Option (Option DirEntry × Fat32) :=
  walkPath toUppercase fuel (path.toList.splitOn '/') f.rootDirFirstCluster none f

/-! ## reading -/

def clusterSize (f : Fat32) : Nat := u32 (f.sectorSize * f.sectorsPerCluster)

/-- `read_cluster` into the first `cluster_size` bytes of the temporary buffer -/
def readTmp (f : Fat32) (cluster : Nat) (tmpBuf : List UInt8) : Option (List UInt8) :=
  (f.readCluster cluster (tmpBuf.take f.clusterSize)).map fun s => s ++ tmpBuf.drop f.clusterSize

/-- the loop of `read_at`: the buffer and the bytes read so far; the clusters are counted in a `u32` -/
def readLoop (offsetCluster : Nat) : Nat → (cluster offsetByte readBytes readClusters : Nat) →
    (tmpBuf buffer : List UInt8) → Fat32 → Option (Nat × List UInt8 × Fat32)
  | 0, _, _, _, _, _, _, _ => none
  | fuel + 1, cluster, offsetByte, readBytes, readClusters, tmpBuf, buffer, f =>
    if readBytes < buffer.length then
      if readClusters < offsetCluster then
        (f.nextCluster cluster).bind fun
          | (some clusNum, f) =>
            readLoop offsetCluster fuel clusNum offsetByte readBytes (u32 (readClusters + 1)) tmpBuf buffer f
          | (none, f) => some (readBytes, buffer, f)
      else
        (f.readTmp cluster tmpBuf).bind fun tmpBuf =>
          let count := min (f.clusterSize - offsetByte) (buffer.length - readBytes)
          let buffer := buffer.take readBytes ++ slice offsetByte count tmpBuf ++ buffer.drop (readBytes + count)
          (f.nextCluster cluster).bind fun
            | (some clusNum, f) =>
              readLoop offsetCluster fuel clusNum 0 (readBytes + count) (u32 (readClusters + 1)) tmpBuf buffer f
            | (none, f) => some (readBytes + count, buffer, f)
    else some (readBytes, buffer, f)

/-- `read_at` after the path: the bytes of an entry -/
def readEntry (fuel : Nat) (entry : DirEntry) (buffer : List UInt8) (offset : Nat) (f : Fat32) :
    Option (Nat × List UInt8 × Fat32) :=
  if f.clusterSize = 0 then none
  else
    readLoop (u32 offset / f.clusterSize) fuel entry.firstCluster (u32 offset % f.clusterSize) 0 0
      (List.replicate (f.sectorSize * f.sectorsPerCluster) 0) buffer f

def notFound (path : String) : Error := .msg ("file does not exist: " ++ path)

/-- the number of bytes read, the buffer after it, and the state -/
def readAt (fuel : Nat) (buffer : List UInt8) (path : String) (offset : Nat) (f : Fat32) :
    Option (Except Error Nat × List UInt8 × Fat32) :=
  (getEntryFromPath toUppercase fuel path f).bind fun
    | (none, f) => some (.error (notFound path), buffer, f)
    | (some entry, f) =>
      (f.readEntry fuel entry buffer offset).map fun (readBytes, buffer, f) => (.ok readBytes, buffer, f)

def fileSize (fuel : Nat) (path : String) (f : Fat32) : Option (Except Error Nat × Fat32) :=
  (getEntryFromPath toUppercase fuel path f).map fun
    | (none, f) => (.error (notFound path), f)
    | (some entry, f) => (.ok entry.size, f)

end Fat32

end Citron.Fs
