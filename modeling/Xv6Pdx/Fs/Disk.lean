/-
# `Fs.Disk` — the disk format of `fs.h`

What the bytes of a block mean: the super block, eight inodes to a block, the
bits of the free map, directory entries.  Each kind of value has a reading of
the bytes and a way to store it, and storing one value leaves every other value
of the block as it was.
-/
import Xv6Pdx.Log.Model

namespace Xv6Pdx

open Lib Bytes
open Function (update update_self update_of_ne)

def ROOTINO : Nat := 1
def ROOTDEV : Nat := 1
def BSIZE : Nat := 512
def NDIRECT : Nat := 10

instance (priority := high) : NeZero (NDIRECT + 1) := ⟨Nat.succ_ne_zero NDIRECT⟩

def NINDIRECT : Nat := BSIZE / 4
def MAXFILE : Nat := NDIRECT + NINDIRECT
def DIRSIZ : Nat := 14
def T_DIR : Nat := 1
def T_FILE : Nat := 2
def T_DEV : Nat := 3

/-! ## The super block -/

structure Superblock where
  size : Nat
  nblocks : Nat
  ninodes : Nat
  nlog : Nat
  logstart : Nat
  inodestart : Nat
  bmapstart : Nat
deriving DecidableEq, Repr

/-- The super block as `readsb` finds it in block 1. -/
def Superblock.read (d : Block) : Superblock where
  size := d.word 0
  nblocks := d.word 1
  ninodes := d.word 2
  nlog := d.word 3
  logstart := d.word 4
  inodestart := d.word 5
  bmapstart := d.word 6

/-- A block with nothing but the super block in it. -/
def Superblock.toBlock (sb : Superblock) : Block :=
  patch (fun _ => 0) 0 ([sb.size, sb.nblocks, sb.ninodes, sb.nlog, sb.logstart, sb.inodestart,
    sb.bmapstart].flatMap (encode 4))

/-! ## Inodes -/

/-- `struct dinode`; the fields are `short`, `ushort` or `uint`. -/
@[ext] structure DInode where
  type : Nat
  major : Nat
  minor : Nat
  nlink : Nat
  uid : Nat
  gid : Nat
  mode : Nat
  size : Nat
  addrs : Fin (NDIRECT + 1) → Nat

/-- The fields are as wide as they are declared. -/
structure DInode.Fits (d : DInode) : Prop where
  type : d.type < 2 ^ 16
  major : d.major < 2 ^ 16
  minor : d.minor < 2 ^ 16
  nlink : d.nlink < 2 ^ 16
  uid : d.uid < 2 ^ 16
  gid : d.gid < 2 ^ 16
  mode : d.mode < 2 ^ 32
  size : d.size < 2 ^ 32
  addrs : ∀ i, d.addrs i < 2 ^ 32

def DInode.bytes : Nat := 64

def IPB : Nat := BSIZE / DInode.bytes

/-- The number in the `n` bytes from place `k` on. -/
def field (bs : List UInt8) (k n : Nat) : Nat := decode ((bs.drop k).take n)

namespace DInode

def ofBytes (bs : List UInt8) : DInode where
  type := field bs 0 2
  major := field bs 2 2
  minor := field bs 4 2
  nlink := field bs 6 2
  uid := field bs 8 2
  gid := field bs 10 2
  mode := field bs 12 4
  size := field bs 16 4
  addrs := fun i => field bs (20 + i * 4) 4

def toBytes (d : DInode) : List UInt8 :=
  encode 2 d.type ++ (encode 2 d.major ++ (encode 2 d.minor ++ (encode 2 d.nlink ++
    (encode 2 d.uid ++ (encode 2 d.gid ++ (encode 4 d.mode ++ (encode 4 d.size ++
      (List.finRange (NDIRECT + 1)).flatMap fun i => encode 4 (d.addrs i))))))))

/-- All bytes zero, as after `memset`. -/
def zero : DInode := ⟨0, 0, 0, 0, 0, 0, 0, 0, fun _ => 0⟩

end DInode

theorem take_drop_flatMap {α β : Type} {l : List α} {f : α → List β} {n : Nat}
    (hf : ∀ a, (f a).length = n) {i : Nat} (hi : i < l.length) :
    ((l.flatMap f).drop (i * n)).take n = f l[i] := by
  induction l generalizing i with
  | nil => cases hi
  | cons a l ih =>
    cases i with
    | zero =>
      rw [Nat.zero_mul, List.drop_zero, List.flatMap_cons, List.take_left' (hf a)]
      rfl
    | succ i =>
      have hlen : (f a).length = n := hf a
      rw [List.flatMap_cons, Nat.succ_mul, Nat.add_comm, ← List.drop_drop,
        List.drop_left' hlen, ih (Nat.lt_of_succ_lt_succ hi)]
      rfl

theorem Superblock.read_toBlock {sb : Superblock} (h : ∀ v ∈ [sb.size, sb.nblocks, sb.ninodes,
    sb.nlog, sb.logstart, sb.inodestart, sb.bmapstart], v < 2 ^ 32) : read sb.toBlock = sb := by
  have hword : ∀ i (hi : i < 7), sb.toBlock.word i = [sb.size, sb.nblocks, sb.ninodes, sb.nlog,
      sb.logstart, sb.inodestart, sb.bmapstart].get ⟨i, hi⟩ := by
    intro i hi
    have hs : slice sb.toBlock (0 + 4 * i) 4 = _ := slice_patch_inside (by simp; omega)
    rw [Nat.zero_add, Nat.mul_comm, take_drop_flatMap (fun _ => length_encode 4 _) (by simpa)] at hs
    rw [word, Nat.mul_comm, hs, decode_encode_of_lt (n := 4) (h _ (List.getElem_mem _))]
    rfl
  simp only [read, hword 0 (by decide), hword 1 (by decide), hword 2 (by decide),
    hword 3 (by decide), hword 4 (by decide), hword 5 (by decide), hword 6 (by decide)]
  rfl

theorem field_here {n v : Nat} (h : v < 256 ^ n) (b : List UInt8) :
    field (encode n v ++ b) 0 n = v := by
  rw [field, List.drop_zero, List.take_left' (length_encode n v), decode_encode_of_lt h]

theorem field_skip {m v k : Nat} (h : m ≤ k) (b : List UInt8) (n : Nat) :
    field (encode m v ++ b) k n = field b (k - m) n := by
  obtain ⟨j, rfl⟩ := Nat.exists_eq_add_of_le h
  rw [field, ← List.drop_drop, List.drop_left' (length_encode m v), Nat.add_sub_cancel_left, field]

theorem field_lt (bs : List UInt8) (k n : Nat) : field bs k n < 256 ^ n :=
  (decode_lt _).trans_le (Nat.pow_le_pow_right (by decide) (List.length_take_le ..))

namespace DInode

theorem fits_ofBytes (bs : List UInt8) : (ofBytes bs).Fits :=
  ⟨field_lt bs 0 2, field_lt bs 2 2, field_lt bs 4 2, field_lt bs 6 2, field_lt bs 8 2,
    field_lt bs 10 2, field_lt bs 12 4, field_lt bs 16 4, fun _ => field_lt bs _ 4⟩

theorem length_toBytes (d : DInode) : d.toBytes.length = DInode.bytes := by
  simp only [toBytes, List.length_append, length_encode, List.length_flatMap, List.map_const',
    List.length_finRange, List.sum_replicate_nat]
  rfl

theorem ofBytes_toBytes {d : DInode} (h : d.Fits) : ofBytes d.toBytes = d := by
  ext i
  · simp (disch := decide) only [ofBytes, toBytes, field_here (n := 2) h.type]
  · simp (disch := decide) only [ofBytes, toBytes, field_skip, Nat.reduceSub, field_here (n := 2) h.major]
  · simp (disch := decide) only [ofBytes, toBytes, field_skip, Nat.reduceSub, field_here (n := 2) h.minor]
  · simp (disch := decide) only [ofBytes, toBytes, field_skip, Nat.reduceSub, field_here (n := 2) h.nlink]
  · simp (disch := decide) only [ofBytes, toBytes, field_skip, Nat.reduceSub, field_here (n := 2) h.uid]
  · simp (disch := decide) only [ofBytes, toBytes, field_skip, Nat.reduceSub, field_here (n := 2) h.gid]
  · simp (disch := decide) only [ofBytes, toBytes, field_skip, Nat.reduceSub, field_here (n := 4) h.mode]
  · simp (disch := decide) only [ofBytes, toBytes, field_skip, Nat.reduceSub, field_here (n := 4) h.size]
  · have hi : 20 + i.val * 4 - 2 - 2 - 2 - 2 - 2 - 2 - 4 - 4 = i.val * 4 := by omega
    simp (disch := omega) only [ofBytes, toBytes, field_skip]
    have hlt : i.val < (List.finRange (NDIRECT + 1)).length := by
      rw [List.length_finRange]
      exact i.isLt
    rw [hi, field, take_drop_flatMap (fun _ => length_encode 4 _) hlt,
      decode_encode_of_lt (n := 4) (h.addrs _), List.getElem_finRange]
    rfl

end DInode

/-! ## Where things are on the disk -/

abbrev Disk := Nat → Block

def IBLOCK (sb : Superblock) (i : Nat) : Nat := i / IPB + sb.inodestart

/-- Bits of the free map in a block. -/
def BPB : Nat := BSIZE * 8

/-- The block of the free map with the bit for block `b`. -/
def BBLOCK (sb : Superblock) (b : Nat) : Nat := b / BPB + sb.bmapstart

/-- Inode `i` in a block of inodes. -/
def inodeIn (d : Block) (i : Nat) : DInode :=
  .ofBytes (d.slice (DInode.bytes * (i % IPB)) DInode.bytes)

def putInode (d : Block) (i : Nat) (x : DInode) : Block :=
  d.patch (DInode.bytes * (i % IPB)) x.toBytes

def dinode (sb : Superblock) (disk : Disk) (i : Nat) : DInode := inodeIn (disk (IBLOCK sb i)) i

theorem inodeIn_put_self {d : Block} {i : Nat} {x : DInode} (h : x.Fits) :
    inodeIn (putInode d i x) i = x := by
  have hs := slice_patch d (DInode.bytes * (i % IPB)) x.toBytes
  rw [DInode.length_toBytes] at hs
  rw [inodeIn, putInode, hs, DInode.ofBytes_toBytes h]

theorem inodeIn_put_of_ne {d : Block} {i j : Nat} {x : DInode} (h : j % IPB ≠ i % IPB) :
    inodeIn (putInode d i x) j = inodeIn d j := by
  rw [inodeIn, putInode, slice_patch_of_disjoint, inodeIn]
  rw [DInode.length_toBytes]
  simp only [DInode.bytes]
  omega

theorem dinode_put {sb : Superblock} {disk : Disk} {i : Nat} {x : DInode} (h : x.Fits) (j : Nat) :
    dinode sb (update disk (IBLOCK sb i) (putInode (disk (IBLOCK sb i)) i x)) j
      = if j = i then x else dinode sb disk j := by
  rw [dinode]
  by_cases hb : IBLOCK sb j = IBLOCK sb i
  · rw [hb, update_self]
    split
    · next he => rw [he, inodeIn_put_self h]
    · next hne =>
      rw [inodeIn_put_of_ne, dinode, hb]
      simp only [IBLOCK, IPB, DInode.bytes, BSIZE] at hb ⊢
      omega
  · have hne : j ≠ i := by
      rintro rfl
      exact hb rfl
    rw [update_of_ne hb, if_neg hne, dinode]

/-! ## The free map -/

/-- The test `data[bi/8] & (1 << (bi%8))`. -/
def bit (d : Block) (bi : Nat) : Bool := (d (bi / 8)).toNat.testBit (bi % 8)

/-- `data[bi/8] |= 1 << (bi%8)`, or `&= ~(1 << (bi%8))`. -/
def setBit (d : Block) (bi : Nat) (v : Bool) : Block :=
  update d (bi / 8) (UInt8.ofNat (if v then (d (bi / 8)).toNat ||| 2 ^ (bi % 8)
      else (d (bi / 8)).toNat &&& (255 ^^^ 2 ^ (bi % 8))))

theorem testBit_setBit {x k j : Nat} (hj : j < 8) (v : Bool) :
    (UInt8.ofNat (if v then x ||| 2 ^ k else x &&& (255 ^^^ 2 ^ k))).toNat.testBit j
      = if j = k then v else x.testBit j := by
  have h255 : Nat.testBit 255 j = true := by
    have hall : ∀ i : Fin 8, Nat.testBit 255 i = true := by decide
    exact hall ⟨j, hj⟩
  rw [UInt8.toNat_ofNat', Nat.testBit_mod_two_pow]
  rcases eq_or_ne j k with rfl | hne
  · cases v <;> simp [hj, h255]
  · cases v <;> simp [hj, h255, hne, hne.symm]

theorem bit_setBit (d : Block) (bi bj : Nat) (v : Bool) :
    bit (setBit d bi v) bj = if bj = bi then v else bit d bj := by
  rw [bit, setBit]
  by_cases hb : bj / 8 = bi / 8
  · rw [hb, update_self, testBit_setBit (Nat.mod_lt _ (by decide))]
    split
    · rw [if_pos (by omega)]
    · rw [if_neg (by omega), bit, hb]
  · have hne : bj ≠ bi := by
      rintro rfl
      exact hb rfl
    rw [update_of_ne hb, if_neg hne, bit]

def inUse (sb : Superblock) (disk : Disk) (b : Nat) : Bool :=
  bit (disk (BBLOCK sb b)) (b % BPB)

theorem inUse_set (sb : Superblock) (disk : Disk) (b : Nat) (v : Bool) (c : Nat) :
    inUse sb (update disk (BBLOCK sb b) (setBit (disk (BBLOCK sb b)) (b % BPB) v)) c
      = if c = b then v else inUse sb disk c := by
  rw [inUse]
  by_cases hb : BBLOCK sb c = BBLOCK sb b
  · rw [hb, update_self, bit_setBit]
    split
    · next he =>
      rw [if_pos]
      simp only [BBLOCK] at hb
      have h₁ := Nat.div_add_mod c BPB
      have h₂ := Nat.div_add_mod b BPB
      rw [he, show c / BPB = b / BPB by omega] at h₁
      omega
    · next hmod =>
      have hne : c ≠ b := by
        rintro rfl
        exact hmod rfl
      rw [if_neg hne, inUse, hb]
  · have hne : c ≠ b := by
      rintro rfl
      exact hb rfl
    rw [update_of_ne hb, if_neg hne, inUse]

theorem inUse_of_ne {sb : Superblock} {disk : Disk} {b c : Nat} (h : BBLOCK sb c ≠ b)
    (d : Block) : inUse sb (update disk b d) c = inUse sb disk c := by
  rw [inUse, update_of_ne h, inUse]

/-! ## Directory entries -/

/-- `strncmp`; the strings end where the lists do, or at a NUL before. -/
def strncmp : Nat → List UInt8 → List UInt8 → Int
  | 0, _, _ => 0
  | n + 1, p, q =>
    if p.headD 0 ≠ 0 ∧ p.headD 0 = q.headD 0 then strncmp n p.tail q.tail
    else (p.headD 0).toNat - (q.headD 0).toNat

/-- The `n` bytes `strncpy` stores. -/
def strncpy : Nat → List UInt8 → List UInt8
  | 0, _ => []
  | n + 1, t => if t.headD 0 = 0 then List.replicate (n + 1) 0 else t.headD 0 :: strncpy n t.tail

def namecmp (s t : List UInt8) : Int := strncmp DIRSIZ s t

structure Dirent where
  inum : Nat
  name : List UInt8
deriving DecidableEq, Repr

namespace Dirent

def bytes : Nat := 16

def ofBytes (bs : List UInt8) : Dirent where
  inum := field bs 0 2
  name := (bs.drop 2).take DIRSIZ

def toBytes (de : Dirent) : List UInt8 := encode 2 de.inum ++ de.name

theorem length_strncpy (n : Nat) (t : List UInt8) : (strncpy n t).length = n := by
  induction n generalizing t with
  | zero => rfl
  | succ n ih =>
    rw [strncpy]
    split
    · exact List.length_replicate
    · rw [List.length_cons, ih]

theorem ofBytes_toBytes {de : Dirent} (hi : de.inum < 2 ^ 16) (hn : de.name.length = DIRSIZ) :
    ofBytes de.toBytes = de := by
  have hl : (encode 2 de.inum).length = 2 := length_encode 2 de.inum
  rw [ofBytes, toBytes, field_here (n := 2) hi, List.drop_left' hl, ← hn, List.take_length]

end Dirent

end Xv6Pdx
