/-
# `Mkfs.Model` — `mkfs.c`

The program that makes the first disk, on the machine where the kernel is built.
It writes the image one sector after the other, with its own `ialloc`, `balloc`
and `iappend`, and stops (`none`) where an `assert` fails or where it cannot read
a sector because the image is not that long.

An input file is what `open` and `read` give of it: its name, without the
directory, and the pieces in which it is read.
-/
import Xv6Pdx.Fs.Calls
import Xv6Pdx.Fs.Blocks

namespace Xv6Pdx.Mkfs

open Lib Bytes
open Fs (slash dot dotdot UID GID MODE)

def FSSIZE : Nat := 2000
def NINODES : Nat := 200
def nbitmap : Nat := FSSIZE / (BSIZE * 8) + 1
def ninodeblocks : Nat := NINODES / IPB + 1
def nlog : Nat := LOGSIZE
def nmeta : Nat := 2 + nlog + ninodeblocks + nbitmap
def nblocks : Nat := FSSIZE - nmeta

def sb : Superblock where
  size := FSSIZE
  nblocks := nblocks
  ninodes := NINODES
  nlog := nlog
  logstart := 2
  inodestart := 2 + nlog
  bmapstart := 2 + nlog + ninodeblocks

structure Source where
  name : List UInt8
  pieces : List (List UInt8)
  named : ∀ c ∈ name, c ≠ 0
  read : ∀ p ∈ pieces, p ≠ [] ∧ p.length ≤ BSIZE

def Source.contents (f : Source) : List UInt8 := f.pieces.flatten

def underscore : UInt8 := 95

/-- The name without a leading `_`. -/
def Source.argv (f : Source) : List UInt8 :=
  if f.name.head? = some underscore then f.name.tail else f.name

def fresh (type : Nat) : DInode :=
  { DInode.zero with type := type, nlink := 1, size := 0, uid := UID, gid := GID, mode := MODE }

/-- The image, its length in sectors, `freeinode` and `freeblock`. -/
structure Image where
  disk : Disk
  len : Nat
  freeinode : Nat
  freeblock : Nat

namespace Image

def wsect (m : Image) (sec : Nat) (buf : Block) : Image :=
  { m with disk := Function.update m.disk sec buf, len := max m.len (sec + 1) }

def rsect (m : Image) (sec : Nat) : Option Block := if sec < m.len then some (m.disk sec) else none

def winode (m : Image) (inum : Nat) (din : DInode) : Option Image := do
  let buf ← m.rsect (IBLOCK sb inum)
  some (m.wsect (IBLOCK sb inum) (putInode buf inum din))

def rinode (m : Image) (inum : Nat) : Option DInode := do
  let buf ← m.rsect (IBLOCK sb inum)
  some (inodeIn buf inum)

def ialloc (m : Image) (type : Nat) : Option (Nat × Image) := do
  let inum := m.freeinode
  let m ← { m with freeinode := m.freeinode + 1 }.winode inum (fresh type)
  some (inum, m)

def balloc (m : Image) (used : Nat) : Option Image :=
  if used < BSIZE * 8 then
    some (m.wsect sb.bmapstart ((List.range used).foldl (fun buf i => setBit buf i true) fun _ => 0))
  else none

def take (m : Image) : Nat × Image := (m.freeblock, { m with freeblock := m.freeblock + 1 })

/-- The direct block `fbn` of the inode. -/
def direct (m : Image) (din : DInode) (k : Fin (NDIRECT + 1)) : Nat × DInode × Image :=
  if din.addrs k = 0 then (m.take.1, din.setAddr k m.take.1, m.take.2) else (din.addrs k, din, m)

/-- The block `fbn` that is listed in the indirect block. -/
def listed (m : Image) (din : DInode) (j : Nat) : Option (Nat × Image) := do
  let a ← m.rsect din.indirect
  if a.word j = 0 then some (m.take.1, m.take.2.wsect din.indirect (a.setWord j m.take.1))
  else some (a.word j, m)

/-- The block `x` to which the next bytes go. -/
def target (m : Image) (din : DInode) (fbn : Nat) : Option (Nat × DInode × Image) :=
  if fbn < NDIRECT then some (m.direct din (Fin.ofNat _ fbn))
  else do
    let (_, din, m) := m.direct din (Fin.last NDIRECT)
    let (x, m) ← m.listed din (fbn - NDIRECT)
    some (x, din, m)

def n1 (off : Nat) (p : List UInt8) : Nat := min p.length ((off / BSIZE + 1) * BSIZE - off)

/-- One turn of the loop of `iappend`. -/
def turn (m : Image) (din : DInode) (off : Nat) (p : List UInt8) : Option (DInode × Image) := do
  if off / BSIZE < MAXFILE then
    let (x, din, m) ← m.target din (off / BSIZE)
    let buf ← m.rsect x
    some (din, m.wsect x (buf.patch (off - off / BSIZE * BSIZE) (p.take (n1 off p))))
  else none

/-- The loop of `iappend`; each turn writes a byte at least. -/
def appendLoop : Nat → Image → DInode → Nat → List UInt8 → Option (DInode × Nat × Image)
  | 0, m, din, off, _ => some (din, off, m)
  | fuel + 1, m, din, off, p =>
    if p = [] then some (din, off, m)
    else do
      let (din, m) ← m.turn din off p
      appendLoop fuel m din (off + n1 off p) (p.drop (n1 off p))

def iappend (m : Image) (inum : Nat) (p : List UInt8) : Option Image := do
  let din ← m.rinode inum
  let (din, off, m) ← appendLoop p.length m din din.size p
  m.winode inum { din with size := off }

end Image

/-- The directory entry that `main` makes. -/
def dirent (inum : Nat) (name : List UInt8) : List UInt8 :=
  Dirent.toBytes ⟨inum % 2 ^ 16, strncpy DIRSIZ name⟩

/-- One turn of the loop of `main`. -/
def addFile (m : Image) (f : Source) : Option Image := do
  if slash ∈ f.name then none
  else
    let (inum, m) ← m.ialloc T_FILE
    let m ← m.iappend ROOTINO (dirent inum f.argv)
    f.pieces.foldlM (fun m p => m.iappend inum p) m

/-- All sectors zero, and the super block. -/
def blank : Image where
  disk := Function.update (fun _ _ => 0) 1 sb.toBlock
  len := FSSIZE
  freeinode := 1
  freeblock := nmeta

def fixRoot (m : Image) : Option Image := do
  let din ← m.rinode ROOTINO
  m.winode ROOTINO { din with size := (din.size / BSIZE + 1) * BSIZE }

/-- The root directory, before any file is in it. -/
def makeRoot : Option Image := do
  let (root, m) ← blank.ialloc T_DIR
  if root = ROOTINO then
    let m ← m.iappend root (dirent root dot)
    m.iappend root (dirent root dotdot)
  else none

def main (files : List Source) : Option Image := do
  let m ← makeRoot
  let m ← files.foldlM addFile m
  let m ← fixRoot m
  m.balloc m.freeblock

end Xv6Pdx.Mkfs
