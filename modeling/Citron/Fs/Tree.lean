import Citron.Fs.Read
import Mathlib.Data.List.TakeWhile
import Mathlib.Data.List.Find

/-!
# Paths and directory trees

What a path means on a volume with one sector per cluster and 8.3 names only, and when `get_entry_from_path` follows
it.  The code looks at no attribute: it goes on through a plain file as if it were a directory, and through a `..`
with first cluster 0, which stands for the root, to the sectors before the data region.

* `Tree`, `Tree.lookup`, `Tree.resolve`   the directories of a volume, and the entry that a path leads to;
* `getEntryFromPathWith`  the code over another `read_cluster`: `checkedReadCluster` stops on an underflow;
* `findLoopWith_scan`     the loop of `find_file` goes through the entries of the directory in order;
* `path_followed`         paths that go on only through directories with clusters of their own are followed.
-/

namespace Citron.Fs

/-! ## entries -/

namespace DirEntry

/-- a part of a name without its padding -/
def unpadded (bytes : List UInt8) : List UInt8 := (bytes.reverse.dropWhile (· = 0x20)).reverse

/-- the 8.3 name -/
def shortName (e : DirEntry) : List Char :=
  (unpadded (slice 0 8 e.fileName)).map (fun b => Char.ofNat b.toNat) ++
    (if unpadded (slice 8 3 e.fileName) = [] then []
      else '.' :: (unpadded (slice 8 3 e.fileName)).map fun b => Char.ofNat b.toNat)

def deleted (e : DirEntry) : Bool := e.fileName.getD 0 0 == 0xE5
def isLabel (e : DirEntry) : Bool := e.attr &&& 0x08 != 0
def isDir (e : DirEntry) : Bool := e.attr &&& 0x10 != 0

/-- a file or a directory -/
def live (e : DirEntry) : Bool := !e.deleted && !e.isLabel

/-- the name has no blanks but its padding, and is stored in upper case -/
structure Short (toUppercase : List Char → List Char) (e : DirEntry) : Prop where
  base : ∀ b ∈ unpadded (slice 0 8 e.fileName), isWhitespace b.toNat = false
  ext : ∀ b ∈ unpadded (slice 8 3 e.fileName), isWhitespace b.toNat = false
  upper : toUppercase e.shortName = e.shortName

end DirEntry

/-- the padding is not in a name -/
theorem nameChars_eq (bytes : List UInt8) : nameChars bytes
    = ((DirEntry.unpadded bytes).filter fun b => !isWhitespace b.toNat).map fun b => Char.ofNat b.toNat := by
  have hsplit : bytes = DirEntry.unpadded bytes ++ (bytes.reverse.takeWhile (· = 0x20)).reverse := by
    unfold DirEntry.unpadded
    rw [← List.reverse_append, List.takeWhile_append_dropWhile, List.reverse_reverse]
  have hpad : ((bytes.reverse.takeWhile (· = 0x20)).reverse).filter (fun b => !isWhitespace b.toNat) = [] := by
    refine List.filter_eq_nil_iff.mpr fun b hb => ?_
    have hb := List.mem_takeWhile_imp (List.mem_reverse.mp hb)
    rw [of_decide_eq_true hb]
    decide
  unfold nameChars
  nth_rewrite 1 [hsplit]
  rw [List.filter_append, hpad, List.append_nil]

theorem nameChars_unpadded {bytes : List UInt8} (h : ∀ b ∈ DirEntry.unpadded bytes, isWhitespace b.toNat = false) :
    nameChars bytes = (DirEntry.unpadded bytes).map fun b => Char.ofNat b.toNat := by
  rw [nameChars_eq, List.filter_eq_self.mpr fun b hb => by rw [h b hb]; rfl]

/-- a name keeps its length only if it has no blanks -/
theorem length_nameChars (bytes : List UInt8) : (nameChars bytes).length ≤ (DirEntry.unpadded bytes).length ∧
    ((nameChars bytes).length = (DirEntry.unpadded bytes).length →
      ∀ b ∈ DirEntry.unpadded bytes, isWhitespace b.toNat = false) := by
  rw [nameChars_eq, List.length_map]
  refine ⟨List.length_filter_le .., fun h b hb => ?_⟩
  simpa using List.length_filter_eq_length_iff.mp h b hb

/-- the 8.3 name has no blanks within its two parts -/
def DirEntry.Tight (e : DirEntry) : Prop :=
  (∀ b ∈ unpadded (slice 0 8 e.fileName), isWhitespace b.toNat = false) ∧
    ∀ b ∈ unpadded (slice 8 3 e.fileName), isWhitespace b.toNat = false

/-- **`dir_entry_name` gives the 8.3 name** exactly if it has no blanks. -/
theorem DirEntry.dirEntryName_eq_iff {e : DirEntry} : dirEntryName e = e.shortName ↔ e.Tight := by
  obtain ⟨hbase, hbase'⟩ := length_nameChars (slice 0 8 e.fileName)
  obtain ⟨hext, hext'⟩ := length_nameChars (slice 8 3 e.fileName)
  constructor
  · intro h
    have hlen := congrArg List.length h
    unfold dirEntryName DirEntry.shortName at hlen
    dsimp only at hlen
    by_cases hnil : unpadded (slice 8 3 e.fileName) = []
    · have hzero : (nameChars (slice 8 3 e.fileName)).length = 0 := by
        rw [hnil, List.length_nil] at hext
        omega
      rw [hzero, if_pos rfl, if_pos hnil, List.length_append, List.length_map, List.length_nil] at hlen
      exact ⟨hbase' hlen, fun b hb => absurd hb (by rw [hnil]; exact List.not_mem_nil)⟩
    · have hpos := List.length_pos_iff.mpr hnil
      by_cases hzero : (nameChars (slice 8 3 e.fileName)).length = 0
      · rw [hzero, if_pos rfl, if_neg hnil] at hlen
        simp only [List.length_append, List.length_map, List.length_cons] at hlen
        omega
      · rw [if_neg hzero, if_neg hnil] at hlen
        simp only [List.length_append, List.length_map, List.length_cons] at hlen
        exact ⟨hbase' (by omega), hext' (by omega)⟩
  · intro h
    unfold dirEntryName DirEntry.shortName
    rw [nameChars_unpadded h.1, nameChars_unpadded h.2]
    by_cases hnil : unpadded (slice 8 3 e.fileName) = []
    · rw [hnil]
      simp
    · have : (unpadded (slice 8 3 e.fileName)).length ≠ 0 := fun h => hnil (List.eq_nil_of_length_eq_zero h)
      simp [hnil, this]

theorem DirEntry.Short.dirEntryName_eq {toUppercase : List Char → List Char} {e : DirEntry} (h : e.Short toUppercase) :
    dirEntryName e = e.shortName := DirEntry.dirEntryName_eq_iff.mpr ⟨h.base, h.ext⟩

/-- the mark of a deleted entry is in its name -/
theorem DirEntry.mem_of_deleted {e : DirEntry} (h : e.deleted = true) : 'å' ∈ dirEntryName e := by
  have hhead : e.fileName.getD 0 0 = 0xE5 := by simpa [DirEntry.deleted] using h
  have hbase : 'å' ∈ nameChars (slice 0 8 e.fileName) := by
    cases hname : e.fileName with
    | nil =>
      rw [hname] at hhead
      cases hhead
    | cons b bs =>
      rw [hname] at hhead
      obtain rfl : b = 0xE5 := hhead
      unfold nameChars slice
      refine List.mem_map.mpr ⟨0xE5, List.mem_filter.mpr ⟨?_, by decide⟩, by decide⟩
      simp
  unfold dirEntryName
  dsimp only
  split
  · exact hbase
  · exact List.mem_append_left _ hbase

/-! ## directories -/

/-- the 16 entries of a sector -/
def entriesOf (sector : List UInt8) : List (List UInt8) := (List.range 16).map fun i => slice (i * 32) 32 sector

theorem entriesOf_drop (sector : List UInt8) {i : Nat} (h : i < 16) :
    (entriesOf sector).drop i = slice (i * 32) 32 sector :: (entriesOf sector).drop (i + 1) := by
  have hlen : i < (entriesOf sector).length := by simpa [entriesOf] using h
  rw [List.drop_eq_getElem_cons hlen]
  simp [entriesOf]

namespace Fat32

/-- the 32-byte records in the clusters of a directory -/
def records (f : Fat32) (cs : List Nat) : List (List UInt8) := cs.flatMap fun c => entriesOf (f.clusterBytes c)

/-- the entries of a directory, up to the end mark -/
def directory (f : Fat32) (cs : List Nat) : List DirEntry :=
  ((f.records cs).takeWhile fun r => r.getD 0 0 ≠ 0).map DirEntry.ofBytes

end Fat32

/-- The directories of a volume: their first clusters and their chains.  Every name is an 8.3 name, and a directory
entry leads to a directory, or has first cluster 0. -/
structure Tree (toUppercase : List Char → List Char) (f : Fat32) where
  dirs : Nat → Prop
  clusters : Nat → List Nat
  root : dirs f.rootDirFirstCluster
  chain : ∀ c, dirs c → f.Chain c (clusters c)
  plain : ∀ c, dirs c → ∀ e ∈ f.directory (clusters c), e.attr ≠ 0x0F
  short : ∀ c, dirs c → ∀ e ∈ f.directory (clusters c), e.live = true → e.Short toUppercase
  sub : ∀ c, dirs c → ∀ e ∈ f.directory (clusters c), e.live = true → e.isDir = true → e.firstCluster ≠ 0 →
    dirs e.firstCluster

namespace Tree
variable {toUppercase : List Char → List Char} {f : Fat32} (T : Tree toUppercase f)

/-- the file or directory of a name, whatever its case -/
def lookup (c : Nat) (name : List Char) : Option DirEntry :=
  (f.directory (T.clusters c)).find? fun e => e.live && (toUppercase e.shortName == toUppercase name)

/-- the entry that the components lead to, from the directory `c` -/
def resolve : List (List Char) → Nat → Option DirEntry
  | [], _ => none
  | [name], c => T.lookup c name
  | name :: names, c => (T.lookup c name).bind fun e =>
    if e.isDir then resolve names (if e.firstCluster = 0 then f.rootDirFirstCluster else e.firstCluster) else none

end Tree

/-- the components of a path -/
def components (path : String) : List (List Char) := (path.toList.splitOn '/').filter (·.length ≠ 0)

/-! ## the code over another `read_cluster` -/

namespace Fat32

section
variable (rc : Fat32 → Nat → List UInt8 → Option (List UInt8))

def advanceWith (f : Fat32) (c : Cursor) : Option (Option Cursor × Fat32) :=
  let currIdx := c.currIdx + 1
  if 16 ≤ currIdx then
    (f.nextCluster c.dirCluster).bind fun (next, f) =>
      match next with
      | some cluster => (rc f cluster c.buf).map fun buf => (some ⟨cluster, buf, currIdx % 16⟩, f)
      | none => some (none, f)
  else some (some ⟨c.dirCluster, c.buf, currIdx⟩, f)

variable (toUppercase : List Char → List Char)

def findLoopWith (fileName : List Char) : Nat → Cursor → Fat32 → Option (Option DirEntry × Fat32)
  | 0, _, _ => none
  | fuel + 1, c, f =>
    if c.entry.getD 0 0 = 0 then some (none, f)
    else
      let isLfn := c.entry.getD 11 0 = 0x0F
      let found := isLfn ∧ lfnToString (LFNEntry.ofBytes c.entry) = fileName
      (if isLfn then f.advanceWith rc c else some (some c, f)).bind fun
        | (none, f) => some (none, f)
        | (some c, f) =>
          let dirEntry := DirEntry.ofBytes c.entry
          if found then some (some dirEntry, f)
          else if dirEntryName dirEntry = toUppercase fileName then some (some dirEntry, f)
          else (f.advanceWith rc c).bind fun
            | (none, f) => some (none, f)
            | (some c, f) => findLoopWith fileName fuel c f

def findFileWith (fuel dirCluster : Nat) (fileName : List Char) (f : Fat32) : Option (Option DirEntry × Fat32) :=
  (rc f dirCluster (List.replicate 512 0)).bind fun buf =>
    findLoopWith rc toUppercase fileName fuel ⟨dirCluster, buf, 0⟩ f

def walkPathWith (fuel : Nat) : List (List Char) → Nat → Option DirEntry → Fat32 → Option (Option DirEntry × Fat32)
  | [], _, currEntry, f => some (currEntry, f)
  | name :: names, cluster, currEntry, f =>
    if name.length = 0 then walkPathWith fuel names cluster currEntry f
    else (findFileWith rc toUppercase fuel cluster name f).bind fun
      | (some entry, f) => walkPathWith fuel names entry.firstCluster (some entry) f
      | (none, f) => some (none, f)

def getEntryFromPathWith (fuel : Nat) (path : String) (f : Fat32) : Option (Option DirEntry × Fat32) :=
  walkPathWith rc toUppercase fuel (path.toList.splitOn '/') f.rootDirFirstCluster none f

end

/-- `read_cluster`, except that the machine stops where `cluster_num - 2` is negative -/
def checkedReadCluster (f : Fat32) (cluster : Nat) (buffer : List UInt8) : Option (List UInt8) :=
  if cluster < 2 then none else f.readCluster cluster buffer

section
variable (toUppercase : List Char → List Char)

theorem findLoopWith_readCluster (name : List Char) (fuel : Nat) :
    findLoopWith readCluster toUppercase name fuel = findLoop toUppercase name fuel := by
  induction fuel with
  | zero => rfl
  | succ fuel ih =>
    funext c f
    unfold findLoopWith findLoop
    rw [ih]
    rfl

theorem walkPathWith_readCluster (fuel : Nat) (names : List (List Char)) :
    walkPathWith readCluster toUppercase fuel names = walkPath toUppercase fuel names := by
  induction names with
  | nil => rfl
  | cons name names ih =>
    funext cluster curr f
    unfold walkPathWith walkPath findFileWith findFile
    rewrite [ih, findLoopWith_readCluster]
    rfl

theorem getEntryFromPathWith_readCluster (fuel : Nat) (path : String) (f : Fat32) :
    getEntryFromPathWith readCluster toUppercase fuel path f = getEntryFromPath toUppercase fuel path f := by
  unfold getEntryFromPathWith getEntryFromPath
  rw [walkPathWith_readCluster]

end

end Fat32

/-! ## the loop of `find_file` -/

/-- the first record of a name, up to the end mark -/
def scan (toUppercase : List Char → List Char) (name : List Char) : List (List UInt8) → Option DirEntry
  | [] => none
  | r :: rs =>
    if r.getD 0 0 = 0 then none
    else if dirEntryName (DirEntry.ofBytes r) = toUppercase name then some (DirEntry.ofBytes r)
    else scan toUppercase name rs

theorem scan_eq (toUppercase : List Char → List Char) (name : List Char) (rs : List (List UInt8)) :
    scan toUppercase name rs = ((rs.takeWhile fun r => r.getD 0 0 ≠ 0).map DirEntry.ofBytes).find?
      fun e => dirEntryName e == toUppercase name := by
  induction rs with
  | nil => rfl
  | cons r rs ih =>
    unfold scan
    by_cases hend : r.getD 0 0 = 0
    · rw [if_pos hend, List.takeWhile_cons_of_neg (by simpa using hend)]
      rfl
    · rw [if_neg hend, List.takeWhile_cons_of_pos (by simpa using hend), List.map_cons]
      by_cases hname : dirEntryName (DirEntry.ofBytes r) = toUppercase name
      · rw [if_pos hname, List.find?_cons_of_pos (by simpa using hname)]
      · rw [if_neg hname, List.find?_cons_of_neg (by simpa using hname), ih]

namespace Fat32

section
variable {toUppercase : List Char → List Char} {rc : Fat32 → Nat → List UInt8 → Option (List UInt8)}

/-- where the loop stands: at an entry of the cluster whose bytes it has, `rest` of the chain to come -/
structure Cursor.At (f : Fat32) (c : Cursor) (rest : List Nat) : Prop where
  chain : f.Chain c.dirCluster (c.dirCluster :: rest)
  buf : c.buf = f.clusterBytes c.dirCluster
  idx : c.currIdx < 16

/-- the records that are left -/
def Cursor.left (f : Fat32) (c : Cursor) (rest : List Nat) : List (List UInt8) :=
  (entriesOf c.buf).drop c.currIdx ++ f.records rest

theorem Cursor.left_eq {f : Fat32} {c : Cursor} {rest : List Nat} (h : c.At f rest) :
    c.left f rest = c.entry :: ((entriesOf c.buf).drop (c.currIdx + 1) ++ f.records rest) := by
  unfold Cursor.left
  rw [entriesOf_drop _ h.idx]
  rfl

/-- the next record, in the cluster or in the next one -/
theorem advanceWith_at {f : Fat32} {c : Cursor} {rest : List Nat} (hf : f.Ready)
    (hrc : ∀ f c buf, 2 ≤ c → rc f c buf = f.readCluster c buf) (h : c.At f rest) :
    (∃ f', f.Reads f' ∧ f.advanceWith rc c = some (none, f') ∧
      (entriesOf c.buf).drop (c.currIdx + 1) ++ f.records rest = []) ∨
    ∃ f' c' rest', f.Reads f' ∧ f.advanceWith rc c = some (some c', f') ∧ c'.At f' rest' ∧
      (entriesOf c.buf).drop (c.currIdx + 1) ++ f.records rest = c'.left f' rest' := by
  have hidx := h.idx
  by_cases hlast : 16 ≤ c.currIdx + 1
  · have hdrop : (entriesOf c.buf).drop (c.currIdx + 1) = [] := by
      refine List.drop_of_length_le ?_
      simpa [entriesOf] using hlast
    have hreads : f.Reads (f.looked c.dirCluster) :=
      ⟨f.fatSector c.dirCluster, (f.disk.length_sector _).trans hf.buffer.symm, rfl⟩
    rw [hdrop, List.nil_append]
    unfold advanceWith
    dsimp only
    rw [if_pos hlast]
    cases h.chain with
    | last hc hend =>
      rw [nextCluster_last hf hend]
      exact .inl ⟨_, hreads, rfl, rfl⟩
    | @link _ d cs hc hnext hchain =>
      subst hnext
      have hin := hchain.inData
      obtain ⟨cs', rfl⟩ : ∃ cs', rest = f.fatEntry c.dirCluster :: cs' := by
        cases hchain with
        | last _ _ => exact ⟨[], rfl⟩
        | link _ _ _ => exact ⟨_, rfl⟩
      have hbuf : c.buf.length = f.clusterSize := by rw [h.buf, length_clusterBytes hf]
      have hread : rc (f.looked c.dirCluster) (f.fatEntry c.dirCluster) c.buf
          = some (f.clusterBytes (f.fatEntry c.dirCluster)) := by
        rw [hrc _ _ _ hin.two_le, readCluster_eq (hf.looked _) hbuf]
        show some (f.rawCluster _) = _
        rw [rawCluster_eq hin]
      rw [nextCluster_link hf hin, Option.bind_some]
      dsimp only
      rw [hread]
      refine .inr ⟨_, ⟨f.fatEntry c.dirCluster, f.clusterBytes (f.fatEntry c.dirCluster), (c.currIdx + 1) % 16⟩, cs',
        hreads, rfl, ⟨hchain.setBuffer _, rfl, Nat.mod_lt _ (by decide)⟩, ?_⟩
      have hzero : (c.currIdx + 1) % 16 = 0 := by omega
      unfold Cursor.left
      rw [hzero]
      rfl
  · unfold advanceWith
    dsimp only
    rw [if_neg hlast]
    refine .inr ⟨f, ⟨c.dirCluster, c.buf, c.currIdx + 1⟩, rest, Reads.refl f, rfl, ⟨h.chain, h.buf, ?_⟩, rfl⟩
    show c.currIdx + 1 < 16
    omega

/-- **The loop goes through the records in order.** -/
theorem findLoopWith_scan {name : List Char} (hrc : ∀ f c buf, 2 ≤ c → rc f c buf = f.readCluster c buf) :
    ∀ {fuel : Nat} {f : Fat32} {c : Cursor} {rest : List Nat}, f.Ready → c.At f rest →
    (∀ r ∈ (c.left f rest).takeWhile (fun r => r.getD 0 0 ≠ 0), r.getD 11 0 ≠ 0x0F) → (c.left f rest).length < fuel →
    ∃ f', f.Reads f' ∧
      findLoopWith rc toUppercase name fuel c f = some (scan toUppercase name (c.left f rest), f') := by
  intro fuel
  induction fuel with
  | zero => intro f c rest _ _ _ h; exact absurd h (Nat.not_lt_zero _)
  | succ fuel ih =>
    intro f c rest hf hat hplain hfuel
    rw [Cursor.left_eq hat] at hplain hfuel ⊢
    unfold findLoopWith scan
    by_cases hend : c.entry.getD 0 0 = 0
    · rw [if_pos hend, if_pos hend]
      exact ⟨f, Reads.refl f, rfl⟩
    · rw [if_neg hend, if_neg hend]
      rw [List.takeWhile_cons_of_pos (by simpa using hend)] at hplain
      have hlfn : ¬ c.entry.getD 11 0 = 0x0F := hplain _ List.mem_cons_self
      dsimp only
      rw [if_neg hlfn, Option.bind_some]
      dsimp only
      rw [if_neg fun h => hlfn h.1]
      by_cases hname : dirEntryName (DirEntry.ofBytes c.entry) = toUppercase name
      · rw [if_pos hname, if_pos hname]
        exact ⟨f, Reads.refl f, rfl⟩
      · rw [if_neg hname, if_neg hname]
        obtain ⟨f', hr, hadv, hnil⟩ | ⟨f', c', rest', hr, hadv, hat', hleft⟩ := advanceWith_at hf hrc hat
        · rw [hadv, hnil]
          exact ⟨f', hr, rfl⟩
        · rw [hleft] at hplain hfuel ⊢
          rw [hadv, Option.bind_some]
          obtain ⟨f'', hr', hloop⟩ := ih (hf.reads hr) hat' (fun r h => hplain r (List.mem_cons_of_mem _ h))
            (by rw [List.length_cons] at hfuel; omega)
          exact ⟨f'', hr.trans hr', hloop⟩

end

end Fat32

/-! ## paths -/

namespace Tree
variable {toUppercase : List Char → List Char} {f : Fat32} (T : Tree toUppercase f)

/-- the volume label `e` is the first of all entries of the name -/
def Labelled (c : Nat) (name : List Char) (e : DirEntry) : Prop :=
  ∃ before after, f.directory (T.clusters c) = before ++ e :: after ∧ e.isLabel = true ∧
    dirEntryName e = toUppercase name ∧ ∀ e' ∈ before, dirEntryName e' ≠ toUppercase name

/-- no volume label comes before the files and directories of the name -/
def Unlabelled (c : Nat) (name : List Char) : Prop := ∀ e, ¬ T.Labelled c name e

/-- The components go on only through directories with clusters of their own, and hit no volume label. -/
def Direct : List (List Char) → Nat → Prop
  | [], _ => True
  | name :: names, c => T.Unlabelled c name ∧
    ∀ e, T.lookup c name = some e → names ≠ [] → e.isDir = true ∧ e.firstCluster ≠ 0 ∧ Direct names e.firstCluster

/-- The components lead to an entry with first cluster 0 and go on: an empty file, the `..` of a directory in the root,
or a volume label; or they end at a volume label. -/
def Strays : List (List Char) → Nat → Prop
  | [], _ => False
  | name :: names, c =>
    (∃ e, T.Labelled c name e ∧ (names = [] ∨ e.firstCluster = 0)) ∨
    (names ≠ [] ∧ T.Unlabelled c name ∧
      ∃ e, T.lookup c name = some e ∧ (e.firstCluster = 0 ∨ e.isDir = true ∧ Strays names e.firstCluster))

variable {T} {rc : Fat32 → Nat → List UInt8 → Option (List UInt8)}

theorem lookup_mem {c : Nat} {name : List Char} {e : DirEntry} (h : T.lookup c name = some e) :
    e ∈ f.directory (T.clusters c) ∧ e.live = true := by
  refine ⟨List.mem_of_find?_eq_some h, ?_⟩
  have h := List.find?_some h
  exact (Bool.and_eq_true_iff.mp h).1

/-- the comparison of the code finds the entry that the name stands for -/
theorem scan_lookup (hup : ∀ name, 'å' ∉ toUppercase name) {c : Nat} (hc : T.dirs c) {name : List Char}
    (hlabel : T.Unlabelled c name) : scan toUppercase name (f.records (T.clusters c)) = T.lookup c name := by
  have hmem : ∀ e ∈ f.directory (T.clusters c), e.live = true →
      (toUppercase e.shortName == toUppercase name) = (dirEntryName e == toUppercase name) := by
    intro e he hlive
    have hshort := T.short c hc e he hlive
    rw [hshort.upper, hshort.dirEntryName_eq]
  rw [scan_eq]
  show (f.directory (T.clusters c)).find? _ = _
  unfold lookup
  cases hfind : (f.directory (T.clusters c)).find? fun e => dirEntryName e == toUppercase name with
  | none =>
    refine (List.find?_eq_none.mpr fun e he => ?_).symm
    have hne := List.find?_eq_none.mp hfind e he
    intro h
    obtain ⟨hlive, hname⟩ := Bool.and_eq_true_iff.mp h
    exact hne ((hmem e he hlive).symm.trans hname)
  | some e =>
    obtain ⟨hname, before, after, hdir, hbefore⟩ := List.find?_eq_some_iff_append.mp hfind
    have hin : e ∈ f.directory (T.clusters c) := List.mem_of_find?_eq_some hfind
    -- a name in upper case does not have the mark of a deleted entry
    have hdel : e.deleted = false := Bool.eq_false_iff.mpr fun h =>
      hup name (beq_iff_eq.mp hname ▸ e.mem_of_deleted h)
    have hlab : e.isLabel = false := Bool.eq_false_iff.mpr fun h =>
      hlabel e ⟨before, after, hdir, h, beq_iff_eq.mp hname, fun e' he' => by simpa using hbefore e' he'⟩
    have hlive : e.live = true := by simp [DirEntry.live, hdel, hlab]
    refine (List.find?_eq_some_iff_append.mpr ⟨?_, before, after, hdir, fun e' he' => ?_⟩).symm
    · rw [hlive, Bool.true_and, hmem e hin hlive]
      exact hname
    · cases hlive' : e'.live with
      | false => rfl
      | true =>
        rw [Bool.true_and, hmem e' (hdir ▸ List.mem_append_left _ he') hlive']
        exact hbefore e' he'

/-- or the volume label that comes first -/
theorem scan_labelled {c : Nat} {name : List Char} {e : DirEntry} (h : T.Labelled c name e) :
    scan toUppercase name (f.records (T.clusters c)) = some e := by
  obtain ⟨before, after, hdir, -, hname, hbefore⟩ := h
  rw [scan_eq]
  exact List.find?_eq_some_iff_append.mpr
    ⟨beq_iff_eq.mpr hname, before, after, hdir, fun e' he' => by simpa using hbefore e' he'⟩

/-- `find_file` goes through the records of the directory -/
theorem findFileWith_scan (hf : f.Ready) (hspc : f.sectorsPerCluster = 1)
    (hrc : ∀ f c buf, 2 ≤ c → rc f c buf = f.readCluster c buf) {c : Nat} (hc : T.dirs c) {name : List Char}
    {fuel : Nat} (hfuel : (f.records (T.clusters c)).length < fuel) {g : Fat32} (hg : f.Reads g) :
    ∃ g', g.Reads g' ∧ Fat32.findFileWith rc toUppercase fuel c name g
      = some (scan toUppercase name (f.records (T.clusters c)), g') := by
  have hchain := T.chain c hc
  obtain ⟨rest, hcs⟩ : ∃ rest, T.clusters c = c :: rest := by
    cases hchain' : T.clusters c with
    | nil =>
      rw [hchain'] at hchain
      cases hchain
    | cons d rest =>
      rw [hchain'] at hchain
      cases hchain with
      | last _ _ => exact ⟨[], rfl⟩
      | link _ _ _ => exact ⟨rest, rfl⟩
  have hplain : ∀ r ∈ (f.records (T.clusters c)).takeWhile (fun r => r.getD 0 0 ≠ 0), r.getD 11 0 ≠ 0x0F :=
    fun r hr => T.plain c hc (DirEntry.ofBytes r) (List.mem_map_of_mem hr)
  rw [hcs] at hchain hfuel hplain ⊢
  have hgready := hf.reads hg
  have hbytes : g.clusterBytes c = f.clusterBytes c := by
    obtain ⟨b, -, rfl⟩ := hg
    rfl
  have hin := (hchain.reads hg).inData
  have hsize : g.clusterSize = 512 := by
    rw [hgready.clusterSize_eq]
    obtain ⟨b, -, rfl⟩ := hg
    show 512 * f.sectorsPerCluster = 512
    rw [hspc]
  have hread : rc g c (List.replicate 512 0) = some (f.clusterBytes c) := by
    rw [hrc _ _ _ hin.two_le, Fat32.readCluster_eq hgready (by rw [List.length_replicate, hsize]),
      Fat32.rawCluster_eq hin, hbytes]
  have hleft : (⟨c, f.clusterBytes c, 0⟩ : Fat32.Cursor).left g rest = f.records (c :: rest) := by
    obtain ⟨b, -, rfl⟩ := hg
    rfl
  have hat : (⟨c, f.clusterBytes c, 0⟩ : Fat32.Cursor).At g rest := ⟨hchain.reads hg, hbytes.symm, Nat.zero_lt_succ _⟩
  unfold Fat32.findFileWith
  rw [hread, Option.bind_some, ← hleft]
  refine Fat32.findLoopWith_scan hrc hgready hat ?_ ?_
  · rw [hleft]
    exact hplain
  · rw [hleft]
    exact hfuel

/-- **One component**: `find_file` finds the entry of the name. -/
theorem findFileWith_lookup (hf : f.Ready) (hspc : f.sectorsPerCluster = 1) (hup : ∀ name, 'å' ∉ toUppercase name)
    (hrc : ∀ f c buf, 2 ≤ c → rc f c buf = f.readCluster c buf) {c : Nat} (hc : T.dirs c) {name : List Char}
    (hlabel : T.Unlabelled c name) {fuel : Nat} (hfuel : (f.records (T.clusters c)).length < fuel) {g : Fat32}
    (hg : f.Reads g) :
    ∃ g', g.Reads g' ∧ Fat32.findFileWith rc toUppercase fuel c name g = some (T.lookup c name, g') := by
  rw [← scan_lookup hup hc hlabel]
  exact findFileWith_scan hf hspc hrc hc hfuel hg

/-- the code passes over empty components -/
theorem walkPathWith_filter {fuel : Nat} (names : List (List Char)) : ∀ {c : Nat} {curr : Option DirEntry} {g : Fat32},
    Fat32.walkPathWith rc toUppercase fuel names c curr g
      = Fat32.walkPathWith rc toUppercase fuel (names.filter (·.length ≠ 0)) c curr g := by
  induction names with
  | nil => exact rfl
  | cons name names ih =>
    intro c curr g
    by_cases hname : name.length = 0
    · rw [List.filter_cons_of_neg (by simpa using hname), Fat32.walkPathWith, if_pos hname]
      exact ih
    · rw [List.filter_cons_of_pos (by simpa using hname), Fat32.walkPathWith, Fat32.walkPathWith, if_neg hname,
        if_neg hname]
      congr 1
      funext x
      obtain ⟨oe, g⟩ := x
      cases oe with
      | none => rfl
      | some e => exact ih

theorem walkPathWith_cons {fuel : Nat} {name : List Char} (hname : name.length ≠ 0) {names : List (List Char)} {c : Nat}
    {curr oe : Option DirEntry} {g g' : Fat32}
    (h : Fat32.findFileWith rc toUppercase fuel c name g = some (oe, g')) :
    Fat32.walkPathWith rc toUppercase fuel (name :: names) c curr g = oe.elim (some (none, g'))
      fun e => Fat32.walkPathWith rc toUppercase fuel names e.firstCluster (some e) g' := by
  rw [Fat32.walkPathWith, if_neg hname, h]
  cases oe <;> rfl

theorem resolve_cons {c : Nat} {name : List Char} {names : List (List Char)} {e : DirEntry} (hne : names ≠ [])
    (hlook : T.lookup c name = some e) (hdir : e.isDir = true) (hzero : e.firstCluster ≠ 0) :
    T.resolve (name :: names) c = T.resolve names e.firstCluster := by
  obtain ⟨n, ns, rfl⟩ := List.exists_cons_of_ne_nil hne
  show (T.lookup c name).bind _ = _
  rw [hlook, Option.bind_some, if_pos hdir, if_neg hzero]

/-- **Some components**: the code comes to the entry that they lead to. -/
theorem walkPathWith_resolve (hf : f.Ready) (hspc : f.sectorsPerCluster = 1) (hup : ∀ name, 'å' ∉ toUppercase name)
    (hrc : ∀ f c buf, 2 ≤ c → rc f c buf = f.readCluster c buf) (names : List (List Char)) : names ≠ [] →
    (∀ name ∈ names, name.length ≠ 0) → ∀ {c : Nat}, T.dirs c → T.Direct names c → ∃ fuel₀, ∀ fuel, fuel₀ ≤ fuel →
    ∀ {g : Fat32} (curr : Option DirEntry), f.Reads g →
      ∃ g', Fat32.walkPathWith rc toUppercase fuel names c curr g = some (T.resolve names c, g') := by
  induction names with
  | nil => exact fun h => absurd rfl h
  | cons name names ih =>
    intro _ hlen c hc hdirect
    have hname := hlen name List.mem_cons_self
    have hlen' := fun n hn => hlen n (List.mem_cons_of_mem _ hn)
    have hfind := fun {fuel} (hle : (f.records (T.clusters c)).length < fuel) {g} (hg : f.Reads g) =>
      findFileWith_lookup hf hspc hup hrc hc hdirect.1 hle hg
    by_cases hrest : names = [] ∨ T.lookup c name = none
    · -- the last component, or one that is not there
      refine ⟨(f.records (T.clusters c)).length + 1, fun fuel hle g curr hg => ?_⟩
      obtain ⟨g', -, h⟩ := hfind hle hg
      refine ⟨g', (walkPathWith_cons hname h).trans ?_⟩
      cases hlook : T.lookup c name with
      | none =>
        have hres : T.resolve (name :: names) c = none := by
          cases names with
          | nil => exact hlook
          | cons _ _ => exact congrArg (Option.bind · _) hlook
        rw [hres]
        rfl
      | some e =>
        obtain rfl := hrest.resolve_right (by rw [hlook]; simp)
        show some (some e, g') = some (T.lookup c name, g')
        rw [hlook]
    · obtain ⟨hne, hsome⟩ := not_or.mp hrest
      obtain ⟨e, hlook⟩ := Option.ne_none_iff_exists'.mp hsome
      obtain ⟨hmem, hlive⟩ := lookup_mem hlook
      obtain ⟨hdir, hzero, hdirect'⟩ := hdirect.2 e hlook hne
      obtain ⟨fuel₀, hwalk⟩ := ih hne hlen' (T.sub c hc e hmem hlive hdir hzero) hdirect'
      refine ⟨max fuel₀ ((f.records (T.clusters c)).length + 1), fun fuel hle g curr hg => ?_⟩
      obtain ⟨g', hr, h⟩ := hfind (show (f.records (T.clusters c)).length + 1 ≤ fuel by omega) hg
      obtain ⟨g'', hwalk⟩ := hwalk fuel (by omega) (some e) (hg.trans hr)
      rw [resolve_cons hne hlook hdir hzero]
      refine ⟨g'', (walkPathWith_cons hname h).trans ?_⟩
      rw [hlook]
      exact hwalk

/-- components from cluster 0 on: the code stops on an underflow -/
theorem walkPathWith_zero {fuel : Nat} {names : List (List Char)} (hne : names ≠ [])
    (hlen : ∀ name ∈ names, name.length ≠ 0) (curr : Option DirEntry) (g : Fat32) :
    Fat32.walkPathWith Fat32.checkedReadCluster toUppercase fuel names 0 curr g = none := by
  obtain ⟨n, ns, rfl⟩ := List.exists_cons_of_ne_nil hne
  rw [Fat32.walkPathWith, if_neg (hlen n List.mem_cons_self)]
  rfl

/-- **Components that go astray**: the code does not come to the entry that they lead to. -/
theorem walkPathWith_strays (hf : f.Ready) (hspc : f.sectorsPerCluster = 1) (hup : ∀ name, 'å' ∉ toUppercase name)
    (names : List (List Char)) : (∀ name ∈ names, name.length ≠ 0) → ∀ {c : Nat}, T.dirs c → T.Strays names c →
    ∃ fuel₀, ∀ fuel, fuel₀ ≤ fuel → ∀ {g : Fat32} (curr : Option DirEntry), f.Reads g → ∀ g',
      Fat32.walkPathWith Fat32.checkedReadCluster toUppercase fuel names c curr g ≠ some (T.resolve names c, g') := by
  have hrc : ∀ (f : Fat32) c buf, 2 ≤ c → f.checkedReadCluster c buf = f.readCluster c buf :=
    fun f c buf h => if_neg (by omega)
  induction names with
  | nil => exact fun _ _ _ h => h.elim
  | cons name names ih =>
    intro hlen c hc hstrays
    have hname := hlen name List.mem_cons_self
    have hlen' := fun n hn => hlen n (List.mem_cons_of_mem _ hn)
    have hfind : ∀ {fuel g}, (f.records (T.clusters c)).length < fuel → f.Reads g → ∃ g', g.Reads g' ∧
        Fat32.findFileWith Fat32.checkedReadCluster toUppercase fuel c name g
          = some (scan toUppercase name (f.records (T.clusters c)), g') :=
      fun hle hg => findFileWith_scan hf hspc hrc hc hle hg
    obtain ⟨e, hlabel, hcase⟩ | ⟨hne, hlabel, e, hlook, hcase⟩ := hstrays
    · refine ⟨(f.records (T.clusters c)).length + 1, fun fuel hle g curr hg g' => ?_⟩
      obtain ⟨g₁, -, h⟩ := hfind hle hg
      rw [scan_labelled hlabel] at h
      rw [walkPathWith_cons hname h, Option.elim_some]
      by_cases hnil : names = []
      · -- the label is returned, which is no file and no directory
        subst hnil
        intro heq
        have hres : some e = T.lookup c name := congrArg Prod.fst (Option.some.inj heq)
        have hlive := (lookup_mem hres.symm).2
        obtain ⟨_, _, -, hlab, -⟩ := hlabel
        simp [DirEntry.live, hlab] at hlive
      · rw [hcase.resolve_left hnil, walkPathWith_zero hnil hlen']
        simp
    · obtain ⟨hmem, hlive⟩ := lookup_mem hlook
      have hscan := (scan_lookup hup hc hlabel).trans hlook
      by_cases hzero : e.firstCluster = 0
      · refine ⟨(f.records (T.clusters c)).length + 1, fun fuel hle g curr hg g' => ?_⟩
        obtain ⟨g₁, -, h⟩ := hfind hle hg
        rw [hscan] at h
        rw [walkPathWith_cons hname h, Option.elim_some, hzero, walkPathWith_zero hne hlen']
        simp
      · obtain ⟨hdir, hstrays⟩ := hcase.resolve_left hzero
        obtain ⟨fuel₀, hwalk⟩ := ih hlen' (T.sub c hc e hmem hlive hdir hzero) hstrays
        refine ⟨max fuel₀ ((f.records (T.clusters c)).length + 1), fun fuel hle g curr hg g' => ?_⟩
        obtain ⟨g₁, hr, h⟩ := hfind (show (f.records (T.clusters c)).length + 1 ≤ fuel by omega) hg
        rw [hscan] at h
        rw [walkPathWith_cons hname h, Option.elim_some, resolve_cons hne hlook hdir hzero]
        exact hwalk fuel (by omega) (some e) (hg.trans hr) g'

/-- The code returns what the path leads to, and no cluster number underflows on the way. -/
def Follows (T : Tree toUppercase f) (path : String) : Prop :=
  ∃ fuel₀, ∀ fuel, fuel₀ ≤ fuel →
    (∃ f', Fat32.getEntryFromPath toUppercase fuel path f = some (T.resolve (components path) f.rootDirFirstCluster, f')) ∧
    (∃ f', Fat32.getEntryFromPathWith Fat32.checkedReadCluster toUppercase fuel path f
      = some (T.resolve (components path) f.rootDirFirstCluster, f'))

theorem components_length {path : String} : ∀ name ∈ components path, name.length ≠ 0 := by
  intro name hname
  simpa using (List.mem_filter.mp hname).2

theorem getEntryFromPathWith_resolve (hf : f.Ready) (hspc : f.sectorsPerCluster = 1)
    (hup : ∀ name, 'å' ∉ toUppercase name) (hrc : ∀ f c buf, 2 ≤ c → rc f c buf = f.readCluster c buf) {path : String}
    (h : T.Direct (components path) f.rootDirFirstCluster) : ∃ fuel₀, ∀ fuel, fuel₀ ≤ fuel →
      ∃ f', Fat32.getEntryFromPathWith rc toUppercase fuel path f
        = some (T.resolve (components path) f.rootDirFirstCluster, f') := by
  unfold Fat32.getEntryFromPathWith
  by_cases hnil : components path = []
  · refine ⟨0, fun fuel _ => ⟨f, ?_⟩⟩
    rw [walkPathWith_filter, show (path.toList.splitOn '/').filter (·.length ≠ 0) = [] from hnil, hnil]
    rfl
  · obtain ⟨fuel₀, hwalk⟩ := walkPathWith_resolve hf hspc hup hrc (components path) hnil components_length T.root h
    refine ⟨fuel₀, fun fuel hle => ?_⟩
    rw [walkPathWith_filter]
    exact hwalk fuel hle none (Fat32.Reads.refl f)

theorem not_follows (hf : f.Ready) (hspc : f.sectorsPerCluster = 1) (hup : ∀ name, 'å' ∉ toUppercase name)
    {path : String} (h : T.Strays (components path) f.rootDirFirstCluster) : ¬ T.Follows path := by
  intro ⟨m, hm⟩
  obtain ⟨n, hn⟩ := walkPathWith_strays hf hspc hup (components path) components_length T.root h
  obtain ⟨f', hpath⟩ := (hm (max m n) (by omega)).2
  unfold Fat32.getEntryFromPathWith at hpath
  rw [walkPathWith_filter] at hpath
  exact hn (max m n) (by omega) none (Fat32.Reads.refl f) f' hpath

end Tree

/-- **Path lookup follows the directory tree** as long as the path goes on only through directories with clusters of
their own and no volume label comes before the entries of its names; it never does where the path goes on through
cluster 0 or ends at a volume label. -/
theorem path_followed (toUppercase : List Char → List Char) (hup : ∀ name, 'å' ∉ toUppercase name) (f : Fat32)
    (hf : f.Ready) (hspc : f.sectorsPerCluster = 1) (T : Tree toUppercase f) (path : String) :
    (T.Direct (components path) f.rootDirFirstCluster → T.Follows path) ∧
    (T.Strays (components path) f.rootDirFirstCluster → ¬ T.Follows path) := by
  refine ⟨fun h => ?_, Tree.not_follows hf hspc hup⟩
  obtain ⟨m, hm⟩ := Tree.getEntryFromPathWith_resolve hf hspc hup
    (fun _ _ _ _ => rfl : ∀ f c buf, 2 ≤ c → Fat32.readCluster f c buf = f.readCluster c buf) h
  obtain ⟨n, hn⟩ := Tree.getEntryFromPathWith_resolve hf hspc hup
    (fun f c buf h => if_neg (by omega) : ∀ f c buf, 2 ≤ c → Fat32.checkedReadCluster f c buf = f.readCluster c buf) h
  refine ⟨max m n, fun fuel hle => ⟨?_, hn fuel (by omega)⟩⟩
  rw [← Fat32.getEntryFromPathWith_readCluster]
  exact hm fuel (by omega)

/-! ## a volume -/

/-- upper case, of ASCII and of one letter more -/
def upperAscii (name : List Char) : List Char := name.map fun c => if c = 'å' then 'Å' else c.toUpper

theorem upperAscii_unmarked (name : List Char) : 'å' ∉ upperAscii name := by
  intro h
  obtain ⟨c, -, h⟩ := List.mem_map.mp h
  split at h
  · cases h
  · rename_i hne
    unfold Char.toUpper at h
    split at h
    · rename_i hrange
      have h1 : 97 ≤ c.val.toNat := hrange.1
      have h2 : c.val.toNat ≤ 122 := hrange.2
      have hshift : ('A'.val - 'a'.val).toNat = 2^32 - 32 := rfl
      have hmark : ('å'.val).toNat = 229 := rfl
      have hsum := congrArg (fun c : Char => c.val.toNat) h
      simp only [UInt32.toNat_add] at hsum
      omega
    · exact hne h

/-- a root directory with the directory `D` (cluster 3) and the file `A` (cluster 4); the FAT is sector 0 -/
def treeFront : Nat → List UInt8
  | 0 => [0xF8, 0xFF, 0xFF, 0x0F, 0xFF, 0xFF, 0xFF, 0x0F, 0xFF, 0xFF, 0xFF, 0x0F, 0xFF, 0xFF, 0xFF, 0x0F,
      0xFF, 0xFF, 0xFF, 0x0F]
  | 1 => [68, 32, 32, 32, 32, 32, 32, 32, 32, 32, 32, 0x10, 0, 0, 0, 0, 0, 0, 0, 0, 0, 0, 0, 0, 0, 0, 3, 0, 0, 0, 0, 0,
      65, 32, 32, 32, 32, 32, 32, 32, 32, 32, 32, 0x20, 0, 0, 0, 0, 0, 0, 0, 0, 0, 0, 0, 0, 0, 0, 4, 0, 1, 0, 0, 0]
  | 2 => [46, 32, 32, 32, 32, 32, 32, 32, 32, 32, 32, 0x10, 0, 0, 0, 0, 0, 0, 0, 0, 0, 0, 0, 0, 0, 0, 3, 0, 0, 0, 0, 0,
      46, 46, 32, 32, 32, 32, 32, 32, 32, 32, 32, 0x10, 0, 0, 0, 0, 0, 0, 0, 0, 0, 0, 0, 0, 0, 0, 0, 0, 0, 0, 0, 0]
  | 3 => [7]
  | _ => []

theorem length_treeFront : ∀ n, (treeFront n).length ≤ 512
  | 0 => by decide
  | 1 => by decide
  | 2 => by decide
  | 3 => by decide
  | _ + 4 => Nat.zero_le _

def treeVolume : Fat32 where
  disk := ⟨fun n => Fat32.padded (treeFront n), fun n => Fat32.length_padded (length_treeFront n)⟩
  buffer := List.replicate 512 0
  fatBegin := 0
  clusterBegin := 1
  sectorsPerCluster := 1
  rootDirFirstCluster := 2
  sectorSize := 512

theorem treeVolume_ready : treeVolume.Ready := ⟨rfl, le_rfl, by decide, List.length_replicate⟩

def entryD : DirEntry := ⟨[68, 32, 32, 32, 32, 32, 32, 32, 32, 32, 32], 0x10, 0, 3, 0⟩
def entryA : DirEntry := ⟨[65, 32, 32, 32, 32, 32, 32, 32, 32, 32, 32], 0x20, 0, 4, 1⟩
def entryDot : DirEntry := ⟨[46, 32, 32, 32, 32, 32, 32, 32, 32, 32, 32], 0x10, 0, 3, 0⟩
def entryDotDot : DirEntry := ⟨[46, 46, 32, 32, 32, 32, 32, 32, 32, 32, 32], 0x10, 0, 0, 0⟩

theorem treeVolume_root : treeVolume.directory [2] = [entryD, entryA] := by decide
theorem treeVolume_sub : treeVolume.directory [3] = [entryDot, entryDotDot] := by decide

/-- an entry of an 8.3 name, checked by running -/
theorem DirEntry.Short.of_check {toUppercase : List Char → List Char} {e : DirEntry}
    (h : ((DirEntry.unpadded (slice 0 8 e.fileName)).all (fun b => !isWhitespace b.toNat) &&
      (DirEntry.unpadded (slice 8 3 e.fileName)).all (fun b => !isWhitespace b.toNat) &&
      (toUppercase e.shortName == e.shortName)) = true) : e.Short toUppercase := by
  simp only [Bool.and_eq_true, List.all_eq_true, Bool.not_eq_true', beq_iff_eq] at h
  exact ⟨h.1.1, h.1.2, h.2⟩

def sampleTree : Tree upperAscii treeVolume where
  dirs c := c = 2 ∨ c = 3
  clusters c := [c]
  root := .inl rfl
  chain c hc := by
    obtain rfl | rfl := hc
    · exact .last ⟨by decide, by decide, by decide⟩ (by decide)
    · exact .last ⟨by decide, by decide, by decide⟩ (by decide)
  plain c hc := by
    obtain rfl | rfl := hc
    · rw [treeVolume_root]
      decide
    · rw [treeVolume_sub]
      decide
  short c hc e he _ := by
    obtain rfl | rfl := hc
    · rw [treeVolume_root] at he
      simp only [List.mem_cons, List.not_mem_nil, or_false] at he
      obtain rfl | rfl := he
      · exact .of_check (by decide)
      · exact .of_check (by decide)
    · rw [treeVolume_sub] at he
      simp only [List.mem_cons, List.not_mem_nil, or_false] at he
      obtain rfl | rfl := he
      · exact .of_check (by decide)
      · exact .of_check (by decide)
  sub c hc e he _ hdir hzero := by
    obtain rfl | rfl := hc
    · rw [treeVolume_root] at he
      simp only [List.mem_cons, List.not_mem_nil, or_false] at he
      obtain rfl | rfl := he
      · exact .inr rfl
      · cases hdir
    · rw [treeVolume_sub] at he
      simp only [List.mem_cons, List.not_mem_nil, or_false] at he
      obtain rfl | rfl := he
      · exact .inr rfl
      · exact absurd rfl hzero

theorem sampleTree_root (name : List Char) : sampleTree.lookup 2 name
    = [entryD, entryA].find? fun e => e.live && (upperAscii e.shortName == upperAscii name) := by
  unfold Tree.lookup
  rw [show sampleTree.clusters 2 = [2] from rfl, treeVolume_root]

theorem sampleTree_sub (name : List Char) : sampleTree.lookup 3 name
    = [entryDot, entryDotDot].find? fun e => e.live && (upperAscii e.shortName == upperAscii name) := by
  unfold Tree.lookup
  rw [show sampleTree.clusters 3 = [3] from rfl, treeVolume_sub]

theorem sampleTree_unlabelled {c : Nat} (hc : c = 2 ∨ c = 3) (name : List Char) : sampleTree.Unlabelled c name := by
  rintro e ⟨before, after, hdir, hlab, -⟩
  have he : e ∈ treeVolume.directory (sampleTree.clusters c) := by
    rw [hdir]
    exact List.mem_append_right _ List.mem_cons_self
  obtain rfl | rfl := hc
  · rw [show sampleTree.clusters 2 = [2] from rfl, treeVolume_root] at he
    simp only [List.mem_cons, List.not_mem_nil, or_false] at he
    obtain rfl | rfl := he <;> cases hlab
  · rw [show sampleTree.clusters 3 = [3] from rfl, treeVolume_sub] at he
    simp only [List.mem_cons, List.not_mem_nil, or_false] at he
    obtain rfl | rfl := he <;> cases hlab

/-- the path `d/.` leads to the directory itself -/
theorem path_followed_example : sampleTree.Follows "d/." ∧ sampleTree.resolve (components "d/.") 2 = some entryDot := by
  have hcomp : components "d/." = [['d'], ['.']] := by decide
  have h1 : sampleTree.lookup 2 ['d'] = some entryD := by rw [sampleTree_root]; decide
  have h2 : sampleTree.lookup 3 ['.'] = some entryDot := by rw [sampleTree_sub]; decide
  refine ⟨(path_followed upperAscii upperAscii_unmarked treeVolume treeVolume_ready rfl sampleTree "d/.").1 ?_, ?_⟩
  · rw [hcomp]
    refine ⟨sampleTree_unlabelled (.inl rfl) _, fun e he _ => ?_⟩
    obtain rfl := Option.some.inj (h1.symm.trans he)
    exact ⟨rfl, by decide, sampleTree_unlabelled (.inr rfl) _, fun e he hne => absurd rfl hne⟩
  · rw [hcomp]
    show (sampleTree.lookup 2 ['d']).bind _ = _
    rw [h1]
    exact h2

/-- The path `d/../a` leads to the file `A`; the code goes to cluster 0 on its way. -/
theorem path_not_followed : ¬ ∀ (toUppercase : List Char → List Char), (∀ name, 'å' ∉ toUppercase name) →
    ∀ f : Fat32, f.Ready → f.sectorsPerCluster = 1 → ∀ (T : Tree toUppercase f) (path : String), T.Follows path := by
  intro hall
  have hcomp : components "d/../a" = [['d'], ['.', '.'], ['a']] := by decide
  have h1 : sampleTree.lookup 2 ['d'] = some entryD := by rw [sampleTree_root]; decide
  have h2 : sampleTree.lookup 3 ['.', '.'] = some entryDotDot := by rw [sampleTree_sub]; decide
  refine Tree.not_follows treeVolume_ready rfl upperAscii_unmarked ?_
    (hall upperAscii upperAscii_unmarked treeVolume treeVolume_ready rfl sampleTree "d/../a")
  rw [hcomp]
  exact .inr ⟨by simp, sampleTree_unlabelled (.inl rfl) _, entryD, h1, .inr ⟨rfl, .inr ⟨by simp,
    sampleTree_unlabelled (.inr rfl) _, entryDotDot, h2, .inl rfl⟩⟩⟩

end Citron.Fs
