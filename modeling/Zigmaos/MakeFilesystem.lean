import Zigmaos.InodeBlocksInvariant
import Zigmaos.DirectoryEntry
import Zigmaos.SuperBlock

/-!
# The image builder

`make` and the functions below it of `MakeFilesystemStep.zig`. The file it writes
is a sequence of sectors, and `freeinode` and `freeblock` count up. Where an
assertion of the builder fails there is no image. What `readStreaming` delivers
of a source file is a list of reads, none longer than the buffer.
-/
namespace Zigmaos.MakeFilesystem
open LittleEndian
open InodeBlocks (directPointerCount indirectPointerBlockIndex indirectPointerCount
  maxFileBlockCount)

def diskInodeSize : ℕ := 64
def rootInodeNumber : ℕ := 1

/-- `Inode.DiskInode`; its type is the number that stands in the image. -/
structure DiskInode where
  device : ℕ
  size : ℕ
  addrs : Fin 13 → ℕ
  type : ℕ
  linkCount : ℕ

namespace DiskInode

def zero : DiskInode := ⟨0, 0, fun _ => 0, 0, 0⟩

/-- `mem.asBytes` -/
def byte (din : DiskInode) (j : ℕ) : UInt8 :=
  if j < 4 then byteLE din.device j
  else if j < 8 then byteLE din.size (j - 4)
  else if j < 60 then byteLE (din.addrs (Fin.ofNat 13 ((j - 8) / 4))) ((j - 8) % 4)
  else if j < 62 then byteLE din.type (j - 60)
  else byteLE din.linkCount (j - 62)

/-- The inode whose bytes begin at `off`. -/
def ofBlock (b : Block) (off : ℕ) : DiskInode where
  device := b.readField off 4
  size := b.readField (off + 4) 4
  addrs i := b.readField (off + 8 + 4 * i) 4
  type := b.readField (off + 60) 2
  linkCount := b.readField (off + 62) 2

def setAddr (din : DiskInode) (i : Fin 13) (b : ℕ) : DiskInode :=
  { din with addrs := Function.update din.addrs i b }

end DiskInode

/-- `stat.FileType` -/
inductive FileType
  | dir | file | device
  deriving DecidableEq, Repr

def FileType.toNat : FileType → ℕ
  | .dir => 1
  | .file => 2
  | .device => 3

/-- The file that is written and the counters. -/
structure Image where
  sectors : ℕ → Block
  freeinode : ℕ
  freeblock : ℕ

namespace Image

def wsect (img : Image) (sec : ℕ) (buf : Block) : Image :=
  { img with sectors := Function.update img.sectors sec buf }

/-- The file ends with sector `fsSize`. -/
def rsect (img : Image) (sec : ℕ) : Option Block :=
  if sec < fsSize then some (img.sectors sec) else none

/-- Where an inode lies in its sector. -/
def inodeOffset (inodeNumber : ℕ) : ℕ := inodeNumber % SuperBlock.inodesPerBlock * diskInodeSize

def winode (img : Image) (inodeNumber : ℕ) (din : DiskInode) : Option Image :=
  let blockNumber := superBlock.getInodeBlockNumber inodeNumber
  match img.rsect blockNumber with
  | none => none
  | some buf =>
    some (img.wsect blockNumber (buf.splice (inodeOffset inodeNumber) diskInodeSize din.byte))

def rinode (img : Image) (inodeNumber : ℕ) : Option DiskInode :=
  (img.rsect (superBlock.getInodeBlockNumber inodeNumber)).map
    (fun buf => .ofBlock buf (inodeOffset inodeNumber))

def ialloc (img : Image) (fileType : FileType) : Option (ℕ × Image) :=
  let inodeNumber := img.freeinode
  ({ img with freeinode := img.freeinode + 1 }.winode inodeNumber
    { DiskInode.zero with type := fileType.toNat, linkCount := 1 }).map (inodeNumber, ·)

/-- `buf[i / 8] |= 1 << (i % 8)` -/
def setBit (buf : Block) (i : ℕ) : Block :=
  buf.splice (i / 8) 1 (fun _ => buf.byte (i / 8) ||| UInt8.ofNat (2 ^ (i % 8)))

def balloc (img : Image) (used : ℕ) : Option Image :=
  if used < blockSize * 8 then
    some (img.wsect superBlock.bmapstart ((List.range used).foldl setBit .zero))
  else none

/-- A pointer of the inode that is empty gets the next free block. -/
def fillAddr (img : Image) (din : DiskInode) (i : Fin 13) : Image × DiskInode :=
  if din.addrs i = 0 then
    ({ img with freeblock := img.freeblock + 1 }, din.setAddr i img.freeblock)
  else (img, din)

/-- The block of index `fbn` in `iappend`. -/
def iappendBlock (img : Image) (din : DiskInode) (fbn : ℕ) : Option (Image × DiskInode × ℕ) :=
  if h : fbn < directPointerCount then
    let i : Fin 13 := ⟨fbn, InodeBlocks.direct_lt h⟩
    let (img, din) := img.fillAddr din i
    some (img, din, din.addrs i)
  else
    let (img, din) := img.fillAddr din indirectPointerBlockIndex
    let num := din.addrs indirectPointerBlockIndex
    let k := fbn - directPointerCount
    match img.rsect num with
    | none => none
    | some indirect =>
      if indirect.readField (4 * k) 4 = 0 then
        let entries := indirect.writeField (4 * k) 4 img.freeblock
        some ({ img with freeblock := img.freeblock + 1 }.wsect num entries, din,
          entries.readField (4 * k) 4)
      else some (img, din, indirect.readField (4 * k) 4)

/-- The loop of `iappend`, with the data that is left. -/
def iappendLoop (img : Image) (din : DiskInode) (off : ℕ) (data : List UInt8) :
    Option (Image × DiskInode × ℕ) :=
  if data.length = 0 then some (img, din, off)
  else
    let fbn := off / blockSize
    if maxFileBlockCount ≤ fbn then none
    else
      match img.iappendBlock din fbn with
      | none => none
      | some (img, din, x) =>
        let n := min data.length ((fbn + 1) * blockSize - off)
        match img.rsect x with
        | none => none
        | some buf =>
          (img.wsect x (buf.splice (off - fbn * blockSize) n
            (fun j => (data[j]?).getD 0))).iappendLoop din (off + n) (data.drop n)
termination_by data.length
decreasing_by
  have := Nat.div_mul_le_self off blockSize
  simp only [List.length_drop, fbn, blockSize] at *
  omega

def iappend (img : Image) (inodeNumber : ℕ) (data : List UInt8) : Option Image :=
  match img.rinode inodeNumber with
  | none => none
  | some din =>
    match img.iappendLoop din din.size data with
    | none => none
    | some (img, din, off) => img.winode inodeNumber { din with size := off }

end Image

/-- A source file: the base name of its path, and what its reads deliver. -/
structure SourceFile where
  basename : Name
  reads : List (List UInt8)
  reads_le : ∀ amt ∈ reads, amt.length ≤ blockSize

namespace Image

/-- The loop over the reads of a file, until one delivers nothing. -/
def iappendReads (img : Image) (inodeNumber : ℕ) : List (List UInt8) → Option Image
  | [] => some img
  | amt :: reads =>
    if amt.length = 0 then some img
    else
      match img.iappend inodeNumber amt with
      | none => none
      | some img => img.iappendReads inodeNumber reads

/-- The name without a leading `_`, where its parts fit a directory entry. -/
def shortname : Name → Option Name
  | [] => none
  | c :: name =>
    let shortname := if c = 95 then name else c :: name
    if shortname.length ≤ maxEntryNameLength then some shortname else none

/-- The bytes of the entry that `make` fills in. -/
def entryBytes (name : Name) (inodeNumber : ℕ) : List UInt8 :=
  (DirectoryEntry.empty.withName name inodeNumber).toBytes

/-- The turn of `make` for one source file. -/
def addFile (img : Image) (f : SourceFile) : Option Image := do
  let name ← shortname f.basename
  let (inodeNumber, img) ← img.ialloc .file
  let img ← img.iappend rootInodeNumber (entryBytes name inodeNumber)
  img.iappendReads inodeNumber f.reads

def addFiles (img : Image) : List SourceFile → Option Image
  | [] => some img
  | f :: files => (img.addFile f).bind (·.addFiles files)

/-- The size of the root becomes a number of blocks, and the free map is written. -/
def finish (img : Image) : Option Image := do
  let din ← img.rinode rootInodeNumber
  let img ← img.winode rootInodeNumber
    { din with size := (din.size / blockSize + 1) * blockSize }
  img.balloc img.freeblock

end Image

/-- The sector of the super block. -/
def superBlockSector : Block :=
  ([superBlock.magic, superBlock.size, superBlock.nblocks, superBlock.ninodes, superBlock.nlog,
    superBlock.logstart, superBlock.inodestart, superBlock.bmapstart].zipIdx).foldl
    (fun b field => b.writeField (4 * field.2) 4 field.1) .zero

def blank : Image := ⟨fun _ => .zero, 1, nmeta⟩

def dot : Name := [46]
def dotdot : Name := [46, 46]

/-- The image with its root directory, before the first source file. -/
def makeRoot : Option Image := do
  let (rootino, img) ← (blank.wsect 1 superBlockSector).ialloc .dir
  guard (rootino = rootInodeNumber)
  let img ← img.iappend rootino (Image.entryBytes dot rootino)
  img.iappend rootino (Image.entryBytes dotdot rootino)

def make (files : List SourceFile) : Option Image := do
  let img ← makeRoot
  let img ← img.addFiles files
  img.finish

/-! ## The image as the kernel finds it -/

/-- `@enumFromInt`, where the builder writes only the first three. -/
def inodeType : ℕ → FileSystem.InodeType
  | 1 => .directory
  | 2 => .file
  | 3 => .device
  | _ => .free

def DiskInode.toKernel (din : DiskInode) : InodeBlocks.DiskInode :=
  ⟨inodeType din.type, din.linkCount, din.size, din.addrs⟩

namespace Image

def inode (img : Image) (inodeNumber : ℕ) : DiskInode :=
  .ofBlock (img.sectors (superBlock.getInodeBlockNumber inodeNumber)) (inodeOffset inodeNumber)

/-- The blocks below `freeblock` are in use, and an operation is outstanding. -/
def mount (img : Image) : InodeBlocks.State where
  superSize := fsSize
  nmeta := nmeta
  used b := b < img.freeblock
  blocks := img.sectors
  inodes n := if n < ninodes then (img.inode n).toKernel else .ofType .free
  outstanding := 1

/-- Every block below the size of an inode is there. -/
def NoHoles (img : Image) : Prop :=
  ∀ n < ninodes, ∀ i, i * blockSize < (img.inode n).size → img.mount.blockEntry n i ≠ 0

end Image

end Zigmaos.MakeFilesystem
