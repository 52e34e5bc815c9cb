import Citron.Lib.Answers
import Citron.Fs.Boot
import Citron.Fs.Chunks
import Citron.Fs.Tree

/-!
# Sessions

What the calls on open files come to on a FAT32 volume, from `init` of the volume on: a store that keeps for every
path the size and the bytes of a file.  The code keeps no bytes, it follows the path and the clusters again for every
call.

* `SessionCall`, `SessionCall.step`   the calls of `src/fs.rs`, with what they return;
* `Session`, `SessionCall.answer`     what they mean: handles on files of the store;
* `Tree.store`                        the store of a volume;
* `sessions_refine`                   the code answers as the store does, whatever the calls are.
-/

namespace Citron.Fs
open Answers

/-! ## calls -/

inductive SessionCall where
  | openFile (path : String)
  | getFileSize (fd : Word)
  | seek (fd offset : Word) (whence : Nat)
  | read (fd : Word) (len : Nat)
deriving DecidableEq, Repr

inductive Answer where
  | number (r : Except Error Word)
  | bytes (r : Except Error (List UInt8))

def SessionCall.step {σ : Type} (B : BackingFileSystem σ) : SessionCall → FileSystem σ → Option (Answer × FileSystem σ)
  | .openFile path, fs => (fs.openFile B path).map fun (r, fs) => (.number r, fs)
  | .getFileSize fd, fs => some (.number (fs.getFileSize fd), fs)
  | .seek fd offset whence, fs => some (.number (fs.seek fd offset whence).1, (fs.seek fd offset whence).2)
  | .read fd len, fs => (fs.read B fd len).map fun (r, fs) => (.bytes r, fs)

/-! ## what they mean -/

/-- a file with the bytes that can be read of it -/
structure Stored where
  size : Word
  data : List UInt8
deriving DecidableEq, Repr

structure Handle where
  path : String
  file : Stored
  offset : Word
deriving DecidableEq, Repr

structure Session where
  handles : Word → Option Handle
  next : Word

namespace Session

def new : Session := ⟨fun _ => none, 3⟩

def setHandle (s : Session) (fd : Word) (h : Handle) : Session :=
  { s with handles := fun n => if n = fd then some h else s.handles n }

/-- the handle goes to an offset from `base` -/
def move (s : Session) (fd offset : Word) (base : Handle → Word) : Answer × Session :=
  match s.handles fd with
  | none => (.number (.error .fileNotOpen), s)
  | some h => (.number (.ok (base h + offset)), s.setHandle fd { h with offset := base h + offset })

end Session

/-- the bytes from the offset on; of an offset the low 32 bits count -/
def Handle.bytes (h : Handle) (len : Nat) : List UInt8 := (h.file.data.drop (u32 h.offset.toNat)).take len

/-- the answer to a call, with the files of a store -/
def SessionCall.answer (store : String → Option Stored) : SessionCall → Session → Answer × Session
  | .openFile path, s =>
    match store path with
    | none => (.number (.error (Fat32.notFound path)), { s with next := s.next + 1 })
    | some file => (.number (.ok s.next), { s with next := s.next + 1 }.setHandle s.next ⟨path, file, 0⟩)
  | .getFileSize fd, s =>
    match s.handles fd with
    | none => (.number (.error .fileNotOpen), s)
    | some h => (.number (.ok h.file.size), s)
  | .seek fd offset whence, s =>
    if whence = 0 then s.move fd offset fun _ => 0
    else if whence = 1 then s.move fd offset (·.offset)
    else if whence = 2 then s.move fd offset (·.file.size)
    else (.number (.error .unknownOption), s)
  | .read fd len, s =>
    match s.handles fd with
    | none => (.bytes (.error .fileNotOpen), s)
    | some h => (.bytes (.ok (h.bytes len)),
        s.setHandle fd { h with offset := h.offset + BitVec.ofNat 64 (h.bytes len).length })

/-! ## the store of a volume -/

namespace Tree
variable {toUppercase : List Char → List Char} {f : Fat32} (T : Tree toUppercase f)

/-- everything with clusters has a chain of them -/
def Complete : Prop := ∀ c, T.dirs c → ∀ e ∈ f.directory (T.clusters c), e.live = true → e.firstCluster ≠ 0 →
  f.Chain e.firstCluster (T.clusters e.firstCluster)

/-- the bytes are those of the clusters, also behind the end of the file -/
def contents (e : DirEntry) : Stored :=
  ⟨BitVec.ofNat 64 e.size, if e.firstCluster = 0 then [] else f.content (T.clusters e.firstCluster)⟩

def store (path : String) : Option Stored :=
  (T.resolve (components path) f.rootDirFirstCluster).map T.contents

/-- Paths that go on only through directories with clusters of their own are opened, and a file without clusters is not
read. -/
def Proper (s : Session) : SessionCall → Prop
  | .openFile path => T.Direct (components path) f.rootDirFirstCluster
  | .getFileSize _ => True
  | .seek _ _ _ => True
  | .read fd _ => ∀ h, s.handles fd = some h → h.file.data ≠ []

variable {T}

/-- what a path leads to is an entry of a directory -/
theorem resolve_mem (names : List (List Char)) : ∀ {c : Nat} {e : DirEntry}, T.dirs c → T.resolve names c = some e →
    ∃ d, T.dirs d ∧ e ∈ f.directory (T.clusters d) ∧ e.live = true := by
  induction names with
  | nil =>
    intro c e _ h
    cases h
  | cons name names ih =>
    intro c e hc h
    cases names with
    | nil => exact ⟨c, hc, lookup_mem h⟩
    | cons name' names =>
      obtain ⟨e', hlook, h⟩ := Option.bind_eq_some_iff.mp (show (T.lookup c name).bind _ = some e from h)
      obtain ⟨hmem, hlive⟩ := lookup_mem hlook
      split at h
      · next hdir =>
        refine ih ?_ h
        split
        · exact T.root
        · next hzero => exact T.sub c hc e' hmem hlive hdir hzero
      · cases h

theorem contents_nonempty {e : DirEntry} (h : (T.contents e).data ≠ []) : e.firstCluster ≠ 0 := by
  intro hzero
  refine h ?_
  unfold contents
  rw [if_pos hzero]

end Tree

/-! ## the code -/

/-- a descriptor and a handle -/
structure Matches {toUppercase : List Char → List Char} {f : Fat32} (T : Tree toUppercase f) (file : File) (h : Handle) :
    Prop where
  path : file.path = h.path
  direct : T.Direct (components h.path) f.rootDirFirstCluster
  stored : T.store h.path = some h.file
  offset : file.offset = h.offset
  size : file.size = h.file.size

/-- the file system carries the session -/
structure Carries {toUppercase : List Char → List Char} {f : Fat32} (T : Tree toUppercase f) (fs : FileSystem Fat32)
    (s : Session) : Prop where
  volume : f.Reads fs.backing
  next : fs.currFd = s.next
  handles : ∀ fd, Option.Rel (Matches T) (fs.descTable fd) (s.handles fd)

section
variable {toUppercase : List Char → List Char} {f : Fat32} {T : Tree toUppercase f} {fs : FileSystem Fat32} {s : Session}

theorem Carries.set (h : Carries T fs s) {b : Fat32} (hb : f.Reads b) {fd : Word} {file : File} {hd : Handle}
    (hm : Matches T file hd) : Carries T (FileSystem.setFile { fs with backing := b } fd file) (s.setHandle fd hd) := by
  refine ⟨hb, h.next, fun n => ?_⟩
  show Option.Rel _ (if n = fd then _ else _) (if n = fd then _ else _)
  split
  · exact .some hm
  · exact h.handles n

/-- a descriptor is open exactly when there is a handle -/
theorem Carries.cases (h : Carries T fs s) (fd : Word) : (fs.descTable fd = none ∧ s.handles fd = none) ∨
    ∃ file hd, fs.descTable fd = some file ∧ s.handles fd = some hd ∧ Matches T file hd := by
  have hrel := h.handles fd
  cases hf : fs.descTable fd with
  | none =>
    rw [hf] at hrel
    cases hs : s.handles fd with
    | none => exact .inl ⟨rfl, rfl⟩
    | some hd =>
      rw [hs] at hrel
      cases hrel
  | some file =>
    rw [hf] at hrel
    cases hs : s.handles fd with
    | none =>
      rw [hs] at hrel
      cases hrel
    | some hd =>
      rw [hs] at hrel
      cases hrel with
      | some hm => exact .inr ⟨file, hd, rfl, rfl, hm⟩

theorem Carries.seek (h : Carries T fs s) (fd offset : Word) (whence : Nat) :
    Answer.number (fs.seek fd offset whence).1 = (SessionCall.answer T.store (.seek fd offset whence) s).1 ∧
      Carries T (fs.seek fd offset whence).2 (SessionCall.answer T.store (.seek fd offset whence) s).2 := by
  unfold FileSystem.seek SessionCall.answer Session.move
  dsimp only
  rcases h.cases fd with ⟨hf, hs⟩ | ⟨file, hd, hf, hs, hm⟩
  · rw [hf, hs]
    dsimp only
    split_ifs <;> exact ⟨rfl, h⟩
  · have hset : ∀ w, Carries T (fs.setFile fd { file with offset := w, size := hd.file.size })
        (s.setHandle fd { hd with offset := w }) :=
      fun w => h.set h.volume ⟨hm.path, hm.direct, hm.stored, rfl, rfl⟩
    rw [hf, hs]
    dsimp only
    rw [hm.offset, hm.size]
    split_ifs
    · exact ⟨rfl, hset (0 + offset)⟩
    · exact ⟨rfl, hset (hd.offset + offset)⟩
    · exact ⟨rfl, hset (hd.file.size + offset)⟩
    · exact ⟨rfl, h⟩

theorem Carries.getFileSize (h : Carries T fs s) (fd : Word) :
    (Answer.number (fs.getFileSize fd), s) = SessionCall.answer T.store (.getFileSize fd) s := by
  unfold FileSystem.getFileSize SessionCall.answer
  dsimp only
  rcases h.cases fd with ⟨hf, hs⟩ | ⟨file, hd, hf, hs, hm⟩
  · rw [hf, hs]
  · rw [hf, hs]
    dsimp only
    rw [hm.size]

/-- a read without a handle -/
theorem Carries.read_closed (h : Carries T fs s) {B : BackingFileSystem Fat32} {fd : Word} (hs : s.handles fd = none) (len : Nat) :
    SessionCall.step B (.read fd len) fs = some ((SessionCall.answer T.store (.read fd len) s).1, fs) ∧
      (SessionCall.answer T.store (.read fd len) s).2 = s := by
  have hanswer : SessionCall.answer T.store (.read fd len) s = (.bytes (.error .fileNotOpen), s) := by
    unfold SessionCall.answer
    dsimp only
    rw [hs]
  rw [hanswer]
  rcases h.cases fd with ⟨hf, -⟩ | ⟨file, hd, -, hs', -⟩
  · refine ⟨?_, rfl⟩
    show (fs.read B fd len).map _ = _
    unfold FileSystem.read
    rw [hf]
    rfl
  · cases hs.symm.trans hs'

end

section volume
variable {toUppercase : List Char → List Char} {f : Fat32} {T : Tree toUppercase f} (hf : f.Ready)
  (hspc : f.sectorsPerCluster = 1) (hup : ∀ name, 'å' ∉ toUppercase name)
include hf hspc hup

/-- a path leads to the same entry whenever it is followed -/
theorem Tree.followed {path : String} (h : T.Direct (components path) f.rootDirFirstCluster) :
    ∃ fuel₀, ∀ fuel, fuel₀ ≤ fuel → ∀ g, f.Reads g →
      ∃ g', Fat32.getEntryFromPath toUppercase fuel path g = some (T.resolve (components path) f.rootDirFirstCluster, g') ∧
        f.Reads g' := by
  obtain ⟨fuel₀, hres⟩ := Tree.getEntryFromPathWith_resolve hf hspc hup
    (fun _ _ _ _ => rfl : ∀ f c buf, 2 ≤ c → Fat32.readCluster f c buf = f.readCluster c buf) h
  refine ⟨fuel₀, fun fuel hle g hg => ?_⟩
  obtain ⟨f', hpath⟩ := hres fuel hle
  rw [Fat32.getEntryFromPathWith_readCluster] at hpath
  obtain ⟨g', hpath', -⟩ := Fat32.getEntryFromPath_reads_eq hf hg hpath
  exact ⟨g', hpath', hg.trans (Fat32.getEntryFromPath_reads hpath')⟩

theorem Tree.openFile_answer {path : String} (h : T.Direct (components path) f.rootDirFirstCluster) (s : Session) :
    ∃ fuel₀, ∀ fuel, fuel₀ ≤ fuel → ∀ fs, Carries T fs s → ∃ fs',
      SessionCall.step (Fat32.backing toUppercase fuel) (.openFile path) fs
        = some ((SessionCall.answer T.store (.openFile path) s).1, fs') ∧
      Carries T fs' (SessionCall.answer T.store (.openFile path) s).2 := by
  obtain ⟨fuel₀, hpath⟩ := Tree.followed hf hspc hup h
  refine ⟨fuel₀, fun fuel hle fs hk => ?_⟩
  obtain ⟨g, hentry, hg⟩ := hpath fuel hle fs.backing hk.volume
  have hnext : fs.currFd = s.next := hk.next
  have hkeep : Carries T { fs with backing := g, currFd := fs.currFd + 1 } { s with next := s.next + 1 } :=
    ⟨hg, by rw [hnext], hk.handles⟩
  have hsize : (Fat32.backing toUppercase fuel).fileSize path fs.backing
      = (Fat32.fileSize toUppercase fuel path fs.backing).map fun x => (x.1.map fun n => BitVec.ofNat 64 n, x.2) := rfl
  unfold SessionCall.step SessionCall.answer FileSystem.openFile Tree.store
  dsimp only
  rw [hsize]
  unfold Fat32.fileSize
  rw [hentry, Option.map_some, Option.map_some, Option.map_some, Option.map_some]
  cases hres : T.resolve (components path) f.rootDirFirstCluster with
  | none => exact ⟨_, rfl, hkeep⟩
  | some e =>
    have hstored : T.store path = some (T.contents e) := by
      unfold Tree.store
      rw [hres]
      rfl
    have hm : Matches T (File.new path s.next (BitVec.ofNat 64 e.size)) ⟨path, T.contents e, 0⟩ :=
      ⟨rfl, h, hstored, rfl, rfl⟩
    refine ⟨_, ?_, hkeep.set hg hm⟩
    rw [← hnext]
    rfl

/-- `read_at` of a file with clusters -/
theorem Tree.readAt_stored (hT : T.Complete) {hd : Handle} (hdirect : T.Direct (components hd.path) f.rootDirFirstCluster)
    (hstored : T.store hd.path = some hd.file) (hdata : hd.file.data ≠ []) (len : Nat) :
    ∃ fuel₀, ∀ fuel, fuel₀ ≤ fuel → ∀ g, f.Reads g →
      ∃ b, (Fat32.backing toUppercase fuel).readAt len hd.path hd.offset g = some (.ok (hd.bytes len), b) ∧ f.Reads b := by
  obtain ⟨e, hres, hfile⟩ := Option.map_eq_some_iff.mp hstored
  obtain ⟨d, hdir, hmem, hlive⟩ := Tree.resolve_mem (components hd.path) T.root hres
  have hne : e.firstCluster ≠ 0 := Tree.contents_nonempty (hfile ▸ hdata)
  have hchain := hT d hdir e hmem hlive hne
  obtain ⟨fuel₀, hpath⟩ := Tree.followed hf hspc hup hdirect
  refine ⟨max fuel₀ (2^32 + len), fun fuel hle g hg => ?_⟩
  obtain ⟨g', hentry, hg'⟩ := hpath fuel (by omega) g hg
  rw [hres] at hentry
  have hu : u32 hd.offset.toNat < 2^32 := Nat.mod_lt _ (by decide)
  have hdiv := Nat.div_le_self (u32 hd.offset.toNat) g'.clusterSize
  have hfuel : u32 hd.offset.toNat / g'.clusterSize + (List.replicate len (0 : UInt8)).length < fuel := by
    rw [List.length_replicate]
    omega
  obtain ⟨b, -, hread⟩ := Fat32.readEntry_chain (hf.reads hg') (hchain.reads hg') hfuel
  have hbytes : g'.bytesAt (T.clusters e.firstCluster) hd.offset.toNat len = hd.bytes len := by
    have hcontent : g'.content (T.clusters e.firstCluster) = hd.file.data := by
      rw [← hfile]
      unfold Tree.contents
      rw [if_neg hne]
      obtain ⟨b, -, rfl⟩ := hg'
      rfl
    unfold Fat32.bytesAt Handle.bytes
    rw [hcontent]
  have hat : (Fat32.backing toUppercase fuel).readAt len hd.path hd.offset g = some (.ok (hd.bytes len), g'.setBuffer b) := by
    show (Fat32.readAt toUppercase fuel (List.replicate len 0) hd.path hd.offset.toNat g).map _ = _
    rw [Fat32.readAt_resolved hentry, hread, List.length_replicate, hbytes]
    show some (Except.ok ((fill 0 _ _).take _), _) = _
    rw [Fat32.fill_zero_take]
  exact ⟨_, hat, hg.trans (Fat32.backing_readAt_reads hat)⟩

/-- a read through a handle -/
theorem Tree.read_answer (hT : T.Complete) {s : Session} {fd : Word} {hd : Handle} (hs : s.handles fd = some hd)
    (hdata : hd.file.data ≠ []) (len : Nat) : ∃ fuel₀, ∀ fuel, fuel₀ ≤ fuel → ∀ fs, Carries T fs s → ∃ fs',
      SessionCall.step (Fat32.backing toUppercase fuel) (.read fd len) fs
        = some ((SessionCall.answer T.store (.read fd len) s).1, fs') ∧
      Carries T fs' (SessionCall.answer T.store (.read fd len) s).2 := by
  by_cases hok : T.Direct (components hd.path) f.rootDirFirstCluster ∧ T.store hd.path = some hd.file
  · obtain ⟨fuel₀, hread⟩ := Tree.readAt_stored hf hspc hup hT hok.1 hok.2 hdata len
    refine ⟨fuel₀, fun fuel hle fs hk => ?_⟩
    rcases hk.cases fd with ⟨-, hs'⟩ | ⟨file, hd', hdesc, hs', hm⟩
    · cases hs.symm.trans hs'
    · obtain rfl := Option.some.inj (hs.symm.trans hs')
      obtain ⟨b, hat, hb⟩ := hread fuel hle fs.backing hk.volume
      rw [← hm.path, ← hm.offset] at hat
      unfold SessionCall.step SessionCall.answer
      dsimp only
      rw [FileSystem.read_ok hdesc hat, hs]
      refine ⟨_, rfl, hk.set hb ⟨hm.path, hm.direct, hm.stored, ?_, hm.size⟩⟩
      rw [hm.offset]
  · -- no file system of the session has such a handle
    refine ⟨0, fun fuel _ fs hk => ?_⟩
    rcases hk.cases fd with ⟨-, hs'⟩ | ⟨file, hd', -, hs', hm⟩
    · cases hs.symm.trans hs'
    · cases hs.symm.trans hs'
      exact absurd ⟨hm.direct, hm.stored⟩ hok

/-- **Every call is answered as the store says.** -/
theorem Tree.simulates (hT : T.Complete) : Simulates (fun fuel => SessionCall.step (Fat32.backing toUppercase fuel))
    (SessionCall.answer T.store) (Carries T) T.Proper := by
  intro call s hok
  cases call with
  | openFile path => exact Tree.openFile_answer hf hspc hup hok s
  | getFileSize fd =>
    refine ⟨0, fun fuel _ fs hk => ⟨fs, ?_, ?_⟩⟩
    · rw [← hk.getFileSize fd]
      rfl
    · rw [← hk.getFileSize fd]
      exact hk
  | seek fd offset whence =>
    refine ⟨0, fun fuel _ fs hk => ⟨_, ?_, (hk.seek fd offset whence).2⟩⟩
    show some (Answer.number (fs.seek fd offset whence).1, (fs.seek fd offset whence).2) = _
    rw [(hk.seek fd offset whence).1]
  | read fd len =>
    cases hs : s.handles fd with
    | none =>
      refine ⟨0, fun fuel _ fs hk => ?_⟩
      obtain ⟨hread, hstay⟩ := hk.read_closed (B := Fat32.backing toUppercase fuel) hs len
      refine ⟨fs, hread, ?_⟩
      rw [hstay]
      exact hk
    | some hd => exact Tree.read_answer hf hspc hup hT hs (hok hd hs) len

end volume

/-! ## whole sessions -/

/-- what `init` leaves can be read, with 512-byte clusters -/
theorem Fat32.init_ready {disk : Disk} {f : Fat32} (h : (Fat32.new disk).init = some f) (hsize : f.sectorSize = 512)
    (hspc : f.sectorsPerCluster = 1) : f.Ready := by
  have hbuf : f.buffer = disk.sector 0 := by
    unfold Fat32.init at h
    rw [Fat32.readBootsector List.length_replicate, Option.bind_some] at h
    dsimp only at h
    split_ifs at h
    cases h
    rfl
  refine ⟨hsize, by omega, by omega, ?_⟩
  rw [hbuf]
  exact disk.length_sector 0

/-- **Sessions.** On a volume of 512-byte clusters that `init` has accepted, with 8.3 names only and with a chain of
clusters for everything, every sequence of calls on any number of files is answered as the store of the volume answers
it. -/
theorem sessions_refine (toUppercase : List Char → List Char) (hup : ∀ name, 'å' ∉ toUppercase name) (disk : Disk)
    (f : Fat32) (hinit : (Fat32.new disk).init = some f) (hsize : f.sectorSize = 512) (hspc : f.sectorsPerCluster = 1)
    (T : Tree toUppercase f) (hT : T.Complete) (calls : List SessionCall)
    (hok : Throughout (SessionCall.answer T.store) T.Proper calls Session.new) :
    ∃ fuel₀, ∀ fuel, fuel₀ ≤ fuel → ∃ fs', run (SessionCall.step (Fat32.backing toUppercase fuel)) calls (FileSystem.new f)
      = some ((runTotal (SessionCall.answer T.store) calls Session.new).1, fs') := by
  have hf : f.Ready := Fat32.init_ready hinit hsize hspc
  obtain ⟨fuel₀, hrun⟩ := (Tree.simulates hf hspc hup hT).run calls Session.new hok
  refine ⟨fuel₀, fun fuel hle => ?_⟩
  obtain ⟨fs', hrun, -⟩ := hrun fuel hle (FileSystem.new f) ⟨Fat32.Reads.refl f, rfl, fun _ => .none⟩
  exact ⟨fs', hrun⟩

/-! ## a volume -/

/-- a bootable disk with the file `A` of one byte in the root directory: the FAT at 32, the clusters from 2032 on -/
def sessionDisk : Disk where
  sector n := if n = 0 then bootBytes 0 else if n = 32 then Fat32.padded (Fat32.sampleFront 0)
    else if n = 2032 then Fat32.padded (Fat32.sampleFront 1) else if n = 2033 then Fat32.padded (Fat32.sampleFront 2)
    else Fat32.padded []
  length_sector n := by
    split_ifs
    · exact Fat32.length_padded (by simp)
    · exact Fat32.length_padded (Fat32.length_sampleFront 0)
    · exact Fat32.length_padded (Fat32.length_sampleFront 1)
    · exact Fat32.length_padded (Fat32.length_sampleFront 2)
    · exact Fat32.length_padded (Nat.zero_le _)

def sessionVolume : Fat32 := ⟨sessionDisk, bootBytes 0, 32, 2032, 1, 2, 512⟩

theorem sessionDisk_init : (Fat32.new sessionDisk).init = some sessionVolume := by
  unfold Fat32.init
  rw [Fat32.readBootsector List.length_replicate, Option.bind_some]
  dsimp only
  rw [show (Fat32.new sessionDisk).disk.sector 0 = bootBytes 0 from rfl, if_neg (by decide), if_neg (by decide),
    if_neg (by decide), if_neg (by decide)]
  rfl

theorem sessionVolume_root : sessionVolume.directory [2] = [Fat32.sampleEntry] := by decide +kernel

theorem sessionVolume_chain {c : Nat} (hc : c = 2 ∨ c = 3) : sessionVolume.Chain c [c] := by
  obtain rfl | rfl := hc
  · exact .last ⟨by decide, by decide, by decide⟩ (by decide)
  · exact .last ⟨by decide, by decide, by decide⟩ (by decide)

def sessionTree : Tree upperAscii sessionVolume where
  dirs c := c = 2
  clusters c := [c]
  root := rfl
  chain c hc := sessionVolume_chain (.inl hc)
  plain c hc e he := by
    subst hc
    rw [sessionVolume_root] at he
    rw [List.mem_singleton.mp he]
    decide
  short c hc e he _ := by
    subst hc
    rw [sessionVolume_root] at he
    rw [List.mem_singleton.mp he]
    exact .of_check (by decide)
  sub c hc e he _ hdir := by
    subst hc
    rw [sessionVolume_root] at he
    rw [List.mem_singleton.mp he] at hdir
    cases hdir

theorem sessionTree_complete : sessionTree.Complete := by
  rintro c rfl e he - -
  rw [show sessionTree.clusters 2 = [2] from rfl, sessionVolume_root] at he
  rw [List.mem_singleton.mp he]
  exact sessionVolume_chain (.inr rfl)

/-- the file, as long as its cluster -/
def sampleFile : Stored := ⟨1, 7 :: List.replicate 511 0⟩

theorem sessionTree_store : sessionTree.store "a" = some sampleFile := by
  have hcomp : components "a" = [['a']] := by decide
  have hlook : sessionTree.lookup 2 ['a'] = some Fat32.sampleEntry := by
    unfold Tree.lookup
    rw [show sessionTree.clusters 2 = [2] from rfl, sessionVolume_root]
    decide
  have hcontent : sessionVolume.content [3] = 7 :: List.replicate 511 0 := by decide +kernel
  unfold Tree.store
  rw [hcomp]
  show (sessionTree.lookup 2 ['a']).map _ = _
  rw [hlook]
  show some (Stored.mk 1 (sessionVolume.content [3])) = _
  rw [hcontent]
  rfl

theorem sessionTree_direct : sessionTree.Direct (components "a") sessionVolume.rootDirFirstCluster := by
  rw [show components "a" = [['a']] by decide]
  refine ⟨?_, fun e _ hne => absurd rfl hne⟩
  rintro e ⟨before, after, hdir, hlab, -⟩
  have he : e ∈ sessionVolume.directory [2] := hdir ▸ List.mem_append_right _ List.mem_cons_self
  rw [sessionVolume_root] at he
  rw [List.mem_singleton.mp he] at hlab
  cases hlab

/-- a session with one handle -/
def Session.one (h : Handle) : Session := ⟨fun n => if n = 3 then some h else none, 4⟩

theorem Session.one_handles (h : Handle) : (Session.one h).handles 3 = some h := rfl

theorem Session.one_setHandle (h h' : Handle) : (Session.one h).setHandle 3 h' = Session.one h' := by
  unfold Session.setHandle Session.one
  dsimp only
  congr 1
  funext n
  by_cases hn : n = 3
  · rw [if_pos hn, if_pos hn]
  · rw [if_neg hn, if_neg hn, if_neg hn]

theorem Session.one_read (store : String → Option Stored) (h : Handle) (len : Nat) :
    SessionCall.answer store (.read 3 len) (Session.one h)
      = (.bytes (.ok (h.bytes len)), Session.one { h with offset := h.offset + BitVec.ofNat 64 (h.bytes len).length }) := by
  unfold SessionCall.answer
  dsimp only
  rw [one_handles]
  dsimp only
  rw [one_setHandle]

theorem sample_open : SessionCall.answer sessionTree.store (.openFile "a") Session.new
    = (.number (.ok 3), Session.one ⟨"a", sampleFile, 0⟩) := by
  unfold SessionCall.answer
  dsimp only
  rw [sessionTree_store]
  rfl

theorem sample_nonempty : sampleFile.data ≠ [] := List.cons_ne_nil _ _

def sampleCalls : List SessionCall := [.openFile "a", .read 3 1, .seek 3 1 0, .read 3 600]

/-- what they mean, in the store: the cluster ends after 512 bytes -/
theorem sampleCalls_answers : (runTotal (SessionCall.answer sessionTree.store) sampleCalls Session.new).1
    = [.number (.ok 3), .bytes (.ok [7]), .number (.ok 1), .bytes (.ok (List.replicate 511 0))] ∧
    Throughout (SessionCall.answer sessionTree.store) sessionTree.Proper sampleCalls Session.new := by
  have hseek : ∀ h, SessionCall.answer sessionTree.store (.seek 3 1 0) (Session.one h)
      = (.number (.ok (0 + 1)), Session.one { h with offset := 0 + 1 }) := by
    intro h
    unfold SessionCall.answer Session.move
    dsimp only
    rw [if_pos rfl, Session.one_handles]
    dsimp only
    rw [Session.one_setHandle]
  have hfirst : Handle.bytes ⟨"a", sampleFile, 0⟩ 1 = [7] := rfl
  have hlast : Handle.bytes ⟨"a", sampleFile, 0 + 1⟩ 600 = List.replicate 511 0 := by
    refine List.take_of_length_le ?_
    show (List.replicate 511 0).length ≤ 600
    rw [List.length_replicate]
    decide
  refine ⟨?_, sessionTree_direct, fun h hh => ?_, trivial, fun h hh => ?_, trivial⟩
  · unfold sampleCalls
    rw [runTotal, runTotal, runTotal, runTotal, runTotal, sample_open]
    dsimp only
    rw [Session.one_read, hfirst]
    dsimp only
    rw [hseek]
    dsimp only
    rw [Session.one_read, hlast]
    rfl
  · rw [sample_open] at hh
    cases (Session.one_handles _).symm.trans hh
    exact sample_nonempty
  · rw [sample_open] at hh
    dsimp only at hh
    rw [Session.one_read] at hh
    dsimp only at hh
    rw [hseek] at hh
    cases (Session.one_handles _).symm.trans hh
    exact sample_nonempty

/-- opened, read to the end of the cluster, and on from its second byte again -/
theorem sessions_refine_example : ∃ fuel₀, ∀ fuel, fuel₀ ≤ fuel →
    ∃ fs', run (SessionCall.step (Fat32.backing upperAscii fuel)) sampleCalls (FileSystem.new sessionVolume)
      = some ([.number (.ok 3), .bytes (.ok [7]), .number (.ok 1), .bytes (.ok (List.replicate 511 0))], fs') := by
  rw [← sampleCalls_answers.1]
  exact sessions_refine upperAscii upperAscii_unmarked sessionDisk sessionVolume sessionDisk_init rfl rfl sessionTree
    sessionTree_complete sampleCalls sampleCalls_answers.2

end Citron.Fs
