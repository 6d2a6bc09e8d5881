import Zigmaos.DiskBlock

/-!
# The super block

The fields of `superblock.zig` and the values that the image builder
`MakeFilesystemStep.make` writes into them.
-/
namespace Zigmaos

structure SuperBlock where
  magic : ℕ
  size : ℕ
  nblocks : ℕ
  ninodes : ℕ
  nlog : ℕ
  logstart : ℕ
  inodestart : ℕ
  bmapstart : ℕ
  deriving DecidableEq, Repr

namespace SuperBlock

def correctMagic : ℕ := 0x10203040

/-- 64 bytes: device, size, thirteen block addresses, type and link count. -/
def inodesPerBlock : ℕ := blockSize / 64

def getFreeMapBlockNumber (sb : SuperBlock) (blockNumber : ℕ) : ℕ :=
  blockNumber / bitmapBitsPerBlock + sb.bmapstart

def getInodeBlockNumber (sb : SuperBlock) (inodeNumber : ℕ) : ℕ :=
  inodeNumber / inodesPerBlock + sb.inodestart

end SuperBlock

namespace MakeFilesystem

def ninodes : ℕ := 200
def nbitmap : ℕ := fsSize / (blockSize * 8) + 1
def ninodeblocks : ℕ := ninodes / SuperBlock.inodesPerBlock + 1
def nlog : ℕ := logSize
def nmeta : ℕ := 2 + nlog + ninodeblocks + nbitmap

/-- The super block of the image that the build writes. -/
def superBlock : SuperBlock where
  magic := SuperBlock.correctMagic
  size := fsSize
  nblocks := fsSize - nmeta
  ninodes := ninodes
  nlog := nlog
  logstart := 2
  inodestart := 2 + nlog
  bmapstart := 2 + nlog + ninodeblocks

end MakeFilesystem

end Zigmaos
