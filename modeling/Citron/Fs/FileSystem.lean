import Citron.Lib.Word

/-!
# Open files

`src/fs.rs`: descriptors over any backing file system.  A backing file system has a state of its own (a
disk, a sector buffer); `none` is a panic in it.  `read_at` fills the front of the buffer it is given, so
it is modelled by the bytes that it puts there.
-/

namespace Citron.Fs

inductive Error where
  | msg (text : String)
  | fileNotOpen
  | fileNotExist
  | unknownOption
deriving DecidableEq, Repr

/-- the trait `BackingFileSystem` -/
structure BackingFileSystem (σ : Type) where
  /-- the bytes put into a buffer of the given length -/
  readAt : Nat → String → Word → σ → Option (Except Error (List UInt8) × σ)
  fileSize : String → σ → Option (Except Error Word × σ)

structure File where
  path : String
  fd : Word
  offset : Word
  size : Word
deriving DecidableEq, Repr

def File.new (path : String) (fd size : Word) : File := ⟨path, fd, 0, size⟩

structure FileSystem (σ : Type) where
  backing : σ
  descTable : Word → Option File
  currFd : Word

namespace FileSystem
variable {σ : Type} (B : BackingFileSystem σ)

def new (backing : σ) : FileSystem σ := ⟨backing, fun _ => none, 3⟩

def setFile (fs : FileSystem σ) (fd : Word) (file : File) : FileSystem σ :=
  { fs with descTable := fun n => if n = fd then some file else fs.descTable n }

-- the descriptor is used up even when the file does not exist
def openFile (path : String) (fs : FileSystem σ) : Option (Except Error Word × FileSystem σ) :=
  let fd := fs.currFd
  let fs := { fs with currFd := fs.currFd + 1 }
  (B.fileSize path fs.backing).map fun (r, b) =>
    let fs := { fs with backing := b }
    match r with
    | .error e => (.error e, fs)
    | .ok size => (.ok fd, fs.setFile fd (File.new path fd size))

def getFileSize (fd : Word) (fs : FileSystem σ) : Except Error Word :=
  match fs.descTable fd with
  | none => .error .fileNotOpen
  | some file => .ok file.size

/-- the numbers of `SeekWhence`; the sums of `isize` wrap -/
def seek (fd offset : Word) (whence : Nat) (fs : FileSystem σ) : Except Error Word × FileSystem σ :=
  let move (base : File → Word) :=
    match fs.descTable fd with
    | none => (.error .fileNotOpen, fs)
    | some file => (.ok (base file + offset), fs.setFile fd { file with offset := base file + offset })
  if whence = 0 then move fun _ => 0
  else if whence = 1 then move (·.offset)
  else if whence = 2 then move (·.size)
  else (.error .unknownOption, fs)

def read (fd : Word) (len : Nat) (fs : FileSystem σ) :
    Option (Except Error (List UInt8) × FileSystem σ) :=
  match fs.descTable fd with
  | none => some (.error .fileNotOpen, fs)
  | some file =>
    (B.readAt len file.path file.offset fs.backing).map fun (r, b) =>
      let fs := { fs with backing := b }
      match r with
      | .error e => (.error e, fs)
      | .ok bs =>
        (.ok bs, fs.setFile fd { file with offset := file.offset + BitVec.ofNat 64 bs.length })

variable {B}

theorem read_ok {fs : FileSystem σ} {fd : Word} {len : Nat} {file : File} {bs : List UInt8} {b : σ}
    (hd : fs.descTable fd = some file)
    (hr : B.readAt len file.path file.offset fs.backing = some (.ok bs, b)) :
    fs.read B fd len = some (.ok bs, setFile { fs with backing := b } fd
      { file with offset := file.offset + BitVec.ofNat 64 bs.length }) := by
  unfold read
  rw [hd]
  dsimp only
  rw [hr]
  rfl

end FileSystem

end Citron.Fs
