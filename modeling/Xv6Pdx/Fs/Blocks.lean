/-
# `Fs.Blocks` — the blocks of the inodes

An inode has block numbers in `addrs` and, through the last of these, in its
indirect block.  `Ref` is a place for one; `DInode.block` is what is there, and
`place` is where `bmap` looks for block `bn` of a file.  What a file contains is
read off its blocks in this way.

`cur` says what the inodes are: those on the disk, or for an inode that is being
changed, what will be written there.  `owner` is then the partial map from
places to blocks, and `Consistent` says of a disk that its blocks are in order.
-/
import Xv6Pdx.Fs.Disk

namespace Xv6Pdx

open Lib Bytes
open Function (update update_self update_of_ne)

/-! ## Places -/

instance : NeZero NINDIRECT := ⟨by decide⟩

/-- A place for the number of a block: in the inode, or in the indirect block. -/
inductive Ref where
  | addr (k : Fin (NDIRECT + 1))
  | entry (j : Fin NINDIRECT)
deriving DecidableEq

def asBlock (b : Nat) : Option Nat := if b = 0 then none else some b

theorem asBlock_eq_some {b c : Nat} : asBlock b = some c ↔ b = c ∧ b ≠ 0 := by
  rw [asBlock]
  split
  · next h => simp [h]
  · next h => simp [h]

@[simp] theorem asBlock_zero : asBlock 0 = none := rfl

theorem asBlock_of_ne {b : Nat} (h : b ≠ 0) : asBlock b = some b := if_neg h

namespace DInode

/-- The number of the indirect block. -/
def indirect (d : DInode) : Nat := d.addrs (Fin.last NDIRECT)

def block (disk : Disk) (d : DInode) : Ref → Option Nat
  | .addr k => asBlock (d.addrs k)
  | .entry j => (asBlock d.indirect).bind fun b => asBlock ((disk b).word j)

def setAddr (d : DInode) (k : Fin (NDIRECT + 1)) (b : Nat) : DInode :=
  { d with addrs := update d.addrs k b }

end DInode

/-- Where `bmap` looks for block `bn`. -/
def place (bn : Nat) : Ref :=
  if bn < NDIRECT then .addr (Fin.ofNat _ bn) else .entry (Fin.ofNat _ (bn - NDIRECT))

def DInode.slot (disk : Disk) (d : DInode) (bn : Nat) : Option Nat := d.block disk (place bn)

/-- How many blocks a file of this size has. -/
def blocksFor (size : Nat) : Nat := (size + (BSIZE - 1)) / BSIZE

/-- The bytes of a file, as `readi` finds them. -/
def DInode.content (disk : Disk) (d : DInode) : Bytes := fun o =>
  match d.slot disk (o / BSIZE) with
  | none => 0
  | some b => disk b (o % BSIZE)

section Places

variable {disk : Disk} {d : DInode}

theorem place_addr {bn : Nat} (h : bn < NDIRECT) : place bn = .addr (Fin.ofNat _ bn) := if_pos h

theorem place_entry {bn : Nat} (h : ¬ bn < NDIRECT) :
    place bn = .entry (Fin.ofNat _ (bn - NDIRECT)) :=
  if_neg h

theorem val_direct {bn : Nat} (h : bn < NDIRECT) : (Fin.ofNat (NDIRECT + 1) bn).val = bn :=
  Nat.mod_eq_of_lt (Nat.lt_succ_of_lt h)

theorem val_entry {bn : Nat} (h : bn < MAXFILE) :
    (Fin.ofNat NINDIRECT (bn - NDIRECT)).val = bn - NDIRECT := by
  refine Nat.mod_eq_of_lt ?_
  simp only [MAXFILE, NINDIRECT, BSIZE, NDIRECT] at h ⊢
  omega

theorem direct_ne_last {bn : Nat} (h : bn < NDIRECT) :
    Fin.ofNat (NDIRECT + 1) bn ≠ Fin.last NDIRECT := by
  intro he
  have hv := congrArg Fin.val he
  rw [val_direct h] at hv
  exact absurd hv (Nat.ne_of_lt h)

theorem place_ne_indirect (bn : Nat) : place bn ≠ .addr (Fin.last NDIRECT) := by
  rw [place]
  split
  · next h => exact fun he => direct_ne_last h (Ref.addr.inj he)
  · simp

theorem place_injective {m n : Nat} (hm : m < MAXFILE) (hn : n < MAXFILE)
    (h : place m = place n) : m = n := by
  rw [place, place] at h
  split at h <;> split at h
  · next h₁ h₂ =>
      have hv := congrArg Fin.val (Ref.addr.inj h)
      rwa [val_direct h₁, val_direct h₂] at hv
  · cases h
  · cases h
  · next h₁ h₂ =>
      have hv := congrArg Fin.val (Ref.entry.inj h)
      rw [val_entry hm, val_entry hn] at hv
      omega

theorem indirect_setAddr {k : Fin (NDIRECT + 1)} (hk : k ≠ Fin.last NDIRECT) (b : Nat) :
    (d.setAddr k b).indirect = d.indirect :=
  update_of_ne hk.symm ..

theorem block_setAddr {k : Fin (NDIRECT + 1)} (hk : k ≠ Fin.last NDIRECT) (b : Nat) (r : Ref) :
    (d.setAddr k b).block disk r = if r = .addr k then asBlock b else d.block disk r := by
  cases r with
  | addr k' =>
    by_cases h : k' = k
    · subst h
      simp [DInode.block, DInode.setAddr]
    · simp [DInode.block, DInode.setAddr, h]
  | entry j => simp [DInode.block, DInode.setAddr, DInode.indirect, update_of_ne hk.symm]

theorem block_setIndirect {b : Nat} (hb : disk b = fun _ => 0) (hd : d.indirect = 0) (r : Ref) :
    (d.setAddr (Fin.last NDIRECT) b).block disk r =
      if r = .addr (Fin.last NDIRECT) then asBlock b else d.block disk r := by
  have hword : ∀ j : Fin NINDIRECT, (disk b).word j = 0 := by
    intro j
    rw [hb]
    rfl
  cases r with
  | addr k =>
    by_cases h : k = Fin.last NDIRECT
    · subst h
      simp [DInode.block, DInode.setAddr]
    · simp [DInode.block, DInode.setAddr, h]
  | entry j =>
    simp only [DInode.block, DInode.indirect, DInode.setAddr, update_self] at hd ⊢
    rw [hd, asBlock_zero, Option.bind_none, if_neg (by simp)]
    cases hi : asBlock b with
    | none => rfl
    | some c =>
      obtain ⟨rfl, -⟩ := asBlock_eq_some.mp hi
      rw [Option.bind_some, hword, asBlock_zero]

/-- A block that is not the indirect block is of no account. -/
theorem block_write {b : Nat} (x : Block) (hb : d.indirect = b → b = 0) (r : Ref) :
    d.block (update disk b x) r = d.block disk r := by
  cases r with
  | addr k => rfl
  | entry j =>
    simp only [DInode.block]
    cases hi : asBlock d.indirect with
    | none => rfl
    | some c =>
      obtain ⟨rfl, hne⟩ := asBlock_eq_some.mp hi
      have hcb : d.indirect ≠ b := fun he => hne (he.trans (hb he))
      simp only [Option.bind_some, update_of_ne hcb]

theorem block_setWord {j : Fin NINDIRECT} {v : Nat} (hv : v < 2 ^ 32) (hd : d.indirect ≠ 0) (r : Ref) :
    d.block (update disk d.indirect ((disk d.indirect).setWord j v)) r =
      if r = .entry j then asBlock v else d.block disk r := by
  cases r with
  | addr k => simp [DInode.block]
  | entry j' =>
    simp only [DInode.block, asBlock_of_ne hd, Option.bind_some, update_self, Ref.entry.injEq]
    by_cases h : j' = j
    · subst h
      rw [word_setWord_self hv, if_pos rfl]
    · rw [word_setWord_of_ne (fun he => h (Fin.ext he)), if_neg h]

theorem content_slot {bn k b : Nat} (hk : k < BSIZE) (hs : d.slot disk bn = some b) :
    d.content disk (bn * BSIZE + k) = disk b k := by
  have h₁ : (bn * BSIZE + k) / BSIZE = bn := by
    simp only [BSIZE] at hk ⊢
    omega
  have h₂ : (bn * BSIZE + k) % BSIZE = k := by
    simp only [BSIZE] at hk ⊢
    omega
  rw [DInode.content, h₁, h₂, hs]

end Places

/-! ## Owners -/

/-- The block that a place of an inode has; free inodes have none. -/
def owner (disk : Disk) (cur : Nat → DInode) (o : Nat × Ref) : Option Nat :=
  if (cur o.1).type = 0 then none else (cur o.1).block disk o.2

section Owners

variable {disk : Disk} {cur : Nat → DInode}

theorem owner_of_type {i : Nat} (h : (cur i).type ≠ 0) (r : Ref) :
    owner disk cur (i, r) = (cur i).block disk r := if_neg h

theorem owner_type {i b : Nat} {r : Ref} (h : owner disk cur (i, r) = some b) : (cur i).type ≠ 0 := by
  intro h0
  rw [owner, if_pos h0] at h
  cases h

theorem owner_ne_zero {o : Nat × Ref} {b : Nat} (h : owner disk cur o = some b) : b ≠ 0 := by
  obtain ⟨i, r⟩ := o
  rw [owner_of_type (owner_type h)] at h
  cases r with
  | addr k =>
    obtain ⟨rfl, hne⟩ := asBlock_eq_some.mp h
    exact hne
  | entry j =>
    obtain ⟨c, -, hc⟩ := Option.bind_eq_some_iff.mp h
    obtain ⟨rfl, hne⟩ := asBlock_eq_some.mp hc
    exact hne

theorem owner_update {i : Nat} (d : DInode) (o : Nat × Ref) : owner disk (update cur i d) o =
      if o.1 = i then (if d.type = 0 then none else d.block disk o.2) else owner disk cur o := by
  rw [owner, owner]
  by_cases h : o.1 = i
  · rw [if_pos h, h, update_self]
  · rw [if_neg h, update_of_ne h]

theorem owner_update_of_type {i : Nat} {d : DInode} (h : d.type ≠ 0) (o : Nat × Ref) :
    owner disk (update cur i d) o =
      if o.1 = i then d.block disk o.2 else owner disk cur o := by
  rw [owner_update, if_neg h]

/-- A block that is nobody's indirect block is written. -/
theorem owner_write {b : Nat} (x : Block) (hb : ∀ i, owner disk cur (i, .addr (Fin.last NDIRECT)) ≠ some b)
    (o : Nat × Ref) : owner (update disk b x) cur o = owner disk cur o := by
  rw [owner, owner]
  split
  · rfl
  · next ht =>
      refine block_write x (fun he => ?_) o.2
      by_contra hne
      refine hb o.1 ?_
      rw [owner_of_type ht, DInode.block]
      exact asBlock_eq_some.mpr ⟨he, fun h0 => hne (he.symm.trans h0)⟩

theorem owner_indirect {i : Nat} (ht : (cur i).type ≠ 0) (hi : (cur i).indirect ≠ 0) :
    owner disk cur (i, .addr (Fin.last NDIRECT)) = some (cur i).indirect := by
  rw [owner_of_type ht]
  exact asBlock_of_ne hi

/-- The indirect block of an inode is written: the others have nothing to do with it. -/
theorem owner_write_indirect {i j : Nat} {r : Ref}
    (hsingle : ∀ o o' b, owner disk cur o = some b → owner disk cur o' = some b → o = o')
    (ht : (cur i).type ≠ 0) (hi : (cur i).indirect ≠ 0) (x : Block) (hne : j ≠ i) :
    owner (update disk (cur i).indirect x) cur (j, r) = owner disk cur (j, r) := by
  rw [owner, owner]
  split
  · rfl
  · next htj =>
      refine block_write x (fun he => ?_) r
      by_contra h0
      have hj : owner disk cur _ = _ := owner_indirect htj (he.symm ▸ h0)
      rw [he] at hj
      have := hsingle _ _ _ hj (owner_indirect ht hi)
      exact hne (Prod.ext_iff.mp this).1

end Owners

/-! ## The layout of a disk -/

namespace Superblock

/-- How many inodes the inode blocks have room for. -/
def capacity (sb : Superblock) : Nat := (sb.bmapstart - sb.inodestart) * IPB

def dataStart (sb : Superblock) : Nat := sb.bmapstart + sb.size / BPB + 1

/-- Boot block, super block and log, then the inodes, then the free map, then data. -/
structure Laid (sb : Superblock) : Prop where
  inodes : 1 < sb.inodestart
  bitmap : sb.inodestart ≤ sb.bmapstart
  room : sb.ninodes ≤ sb.capacity
  data : sb.dataStart ≤ sb.size
  size : sb.size < 2 ^ 32

variable {sb : Superblock}

theorem Laid.iblock (h : sb.Laid) {i : Nat} (hi : i < sb.capacity) :
    1 < IBLOCK sb i ∧ IBLOCK sb i < sb.bmapstart := by
  have h₁ := h.inodes
  have h₂ := h.bitmap
  simp only [capacity, IPB, BSIZE, DInode.bytes, IBLOCK] at hi ⊢
  omega

theorem Laid.dataStart_gt (h : sb.Laid) : 1 < sb.dataStart ∧ sb.bmapstart < sb.dataStart := by
  have h₁ := h.inodes
  have h₂ := h.bitmap
  simp only [dataStart]
  generalize sb.size / BPB = x
  omega

theorem Laid.bblock (_ : sb.Laid) {b : Nat} (hb : b < sb.size) :
    sb.bmapstart ≤ BBLOCK sb b ∧ BBLOCK sb b < sb.dataStart := by
  have hle : b / BPB ≤ sb.size / BPB := Nat.div_le_div_right (Nat.le_of_lt hb)
  simp only [BBLOCK, dataStart]
  generalize b / BPB = x at hle ⊢
  generalize sb.size / BPB = y at hle ⊢
  omega

end Superblock

def inodes (sb : Superblock) (disk : Disk) (i : Nat) : DInode :=
  if i < sb.capacity then dinode sb disk i else .zero

section Inodes

variable {sb : Superblock} {disk disk' : Disk} {i : Nat}

theorem inodes_of_lt (hi : i < sb.capacity) : inodes sb disk i = dinode sb disk i := if_pos hi

theorem fits_inodes (sb : Superblock) (disk : Disk) (i : Nat) : (inodes sb disk i).Fits := by
  rw [inodes]
  split
  · exact DInode.fits_ofBytes _
  · exact ⟨by decide, by decide, by decide, by decide, by decide, by decide, by decide, by decide,
      fun _ => Nat.two_pow_pos 32⟩

theorem inodes_congr (hl : sb.Laid) (h : ∀ b, 1 < b → b < sb.bmapstart → disk' b = disk b) :
    inodes sb disk' = inodes sb disk := by
  funext i
  rw [inodes, inodes]
  split
  · next hi => rw [dinode, dinode, h _ (hl.iblock hi).1 (hl.iblock hi).2]
  · rfl

theorem inodes_put (hi : i < sb.capacity) {x : DInode} (hx : x.Fits) :
    inodes sb (update disk (IBLOCK sb i) (putInode (disk (IBLOCK sb i)) i x)) =
      update (inodes sb disk) i x := by
  funext j
  by_cases hj : j = i
  · subst hj
    rw [update_self, inodes_of_lt hi, dinode_put hx, if_pos rfl]
  · rw [update_of_ne hj, inodes, inodes]
    split
    · rw [dinode_put hx, if_neg hj]
    · rfl

end Inodes

/-- A file of the largest size or less has all its blocks. -/
structure DInode.Covered (disk : Disk) (d : DInode) : Prop where
  size : d.size ≤ MAXFILE * BSIZE
  slots : ∀ bn < blocksFor d.size, d.slot disk bn ≠ none

/-- The blocks of a disk are in order: each is in one place at most, all are data
blocks, the free map marks these and those before the data, and no file has holes. -/
structure Consistent (sb : Superblock) (disk : Disk) : Prop where
  single : ∀ o o' b, owner disk (inodes sb disk) o = some b →
    owner disk (inodes sb disk) o' = some b → o = o'
  range : ∀ o b, owner disk (inodes sb disk) o = some b → sb.dataStart ≤ b ∧ b < sb.size
  marked : ∀ b < sb.size, inUse sb disk b = true ↔
    b < sb.dataStart ∨ ∃ o, owner disk (inodes sb disk) o = some b
  covered : ∀ i, (inodes sb disk i).type ≠ 0 → (inodes sb disk i).Covered disk

end Xv6Pdx
