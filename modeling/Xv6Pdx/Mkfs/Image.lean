/-
# `Mkfs.Image` — the disk that `mkfs` makes

`Made` is the invariant of `main`: the blocks are in order, inode `i` is a file
with the bytes `bodies i`, and the inodes from `freeinode` on are free.
-/
import Xv6Pdx.Mkfs.Append

namespace Xv6Pdx.Mkfs

open Lib Bytes
open Function (update update_self update_of_ne update_eq_self update_idem update_apply)

/-- The disk as `main` uses it before it writes the bitmap: inodes may also be in the
block in which the bitmap will be. -/
def wide : Superblock := { sb with bmapstart := nmeta }

theorem laid : wide.Laid := ⟨by decide, by decide, by decide, by decide, by decide⟩

theorem nmeta_eq : nmeta = 59 := by decide

theorem capacity_eq : sb.capacity = 208 := by decide

theorem wide_eq : wide.capacity = 216 := by decide

/-- What `main` makes of inode `i`. -/
def kind (freeinode i : Nat) : Nat :=
  if i = 0 ∨ freeinode ≤ i then 0 else if i = ROOTINO then T_DIR else T_FILE

/-- The image while it is made: `cur` is what its inodes are. -/
structure Made (m : Image) (cur : Nat → DInode) (bodies : Nat → List UInt8) : Prop where
  sound : Sound m cur
  high : m.freeblock ≤ FSSIZE
  super : m.disk 1 = sb.toBlock
  count : 1 ≤ m.freeinode ∧ m.freeinode ≤ wide.capacity
  kinds : ∀ i, (cur i).type = kind m.freeinode i
  files : ∀ i, 1 ≤ i → i < m.freeinode → IsFile m.disk (cur i) (bodies i)

/-- The sizes are those of the files. -/
def Sized (m : Image) (bodies : Nat → List UInt8) : Prop :=
  ∀ i, 1 ≤ i → i < m.freeinode → (inodes wide m.disk i).size = (bodies i).length

section

variable {m m' : Image} {bodies : Nat → List UInt8} {inum : Nat} {d : DInode} {p : List UInt8}

theorem kind_ne_zero {n i : Nat} (h0 : 1 ≤ i) (hi : i < n) : kind n i ≠ 0 := by
  rw [kind, if_neg (by omega)]
  split <;> decide

theorem winode_spec (hi : inum < wide.capacity) (hd : d.Fits) (h : m.winode inum d = some m') :
    inodes wide m'.disk = update (inodes wide m.disk) inum d ∧
      (∀ b, b ≤ 1 ∨ nmeta ≤ b → m'.disk b = m.disk b) ∧ m'.freeinode = m.freeinode ∧
      m'.freeblock = m.freeblock ∧ m'.len = m.len := by
  obtain ⟨buf, hbuf, he⟩ := Option.bind_eq_some_iff.mp h
  obtain ⟨hlt, rfl⟩ := rsect_eq_some hbuf
  cases he
  have hib : 1 < IBLOCK sb inum ∧ IBLOCK sb inum < nmeta := laid.iblock hi
  refine ⟨inodes_put hi hd, ?_, rfl, rfl, ?_⟩
  · intro b hb
    exact update_of_ne (by omega) ..
  · show max m.len _ = m.len
    omega

/-- Storing an inode changes what `cur` says of it, and no block that somebody has. -/
theorem Sound.stored {cur : Nat → DInode} (hm : Sound m cur) {disk' : Disk}
    (hdisk : ∀ b, nmeta ≤ b → disk' b = m.disk b) (o : Nat × Ref) :
    owner disk' cur o = owner m.disk cur o := by
  obtain ⟨i, r⟩ := o
  rw [owner, owner]
  split
  · rfl
  · next ht =>
      cases r with
      | addr k => rfl
      | entry j =>
        simp only [DInode.block]
        cases hb : asBlock (cur i).indirect with
        | none => rfl
        | some b =>
          obtain ⟨rfl, h0⟩ := asBlock_eq_some.mp hb
          have := (hm.range _ _ (owner_indirect ht h0)).1
          rw [Option.bind_some, Option.bind_some, hdisk _ this]

/-- A file in the image, when the inode that is stored is not its own. -/
theorem IsFile.stored {cur : Nat → DInode} {i : Nat} {body : List UInt8} (hm : Sound m cur)
    (ht : (cur i).type ≠ 0) {disk' : Disk}
    (hdisk : ∀ b, nmeta ≤ b → disk' b = m.disk b)
    (h : IsFile m.disk (cur i) body) : IsFile disk' (cur i) body := by
  refine h.other ?_ ?_
  · intro r
    have := hm.stored hdisk (i, r)
    rwa [owner_of_type ht, owner_of_type ht] at this
  · intro r b hb
    rw [← owner_of_type ht] at hb
    exact hdisk b (hm.range _ _ hb).1

/-- What does not depend on the size is the same with another. -/
theorem update_size {α : Type} {n : Nat} (f : DInode → α) (h : f { d with size := n } = f d)
    (cur : Nat → DInode) (i j : Nat) :
    f (update cur i { d with size := n } j) = f (update cur i d j) := by
  rw [update_apply, update_apply]
  split
  · exact h
  · rfl

theorem Sound.addr_lt {cur : Nat → DInode} (hm : Sound m cur) (hfree : m.freeblock ≤ FSSIZE)
    (ht : (cur inum).type ≠ 0) (k : Fin (NDIRECT + 1)) : (cur inum).addrs k < 2 ^ 32 := by
  by_cases h0 : (cur inum).addrs k = 0
  · rw [h0]
    exact Nat.two_pow_pos 32
  · have ho : owner m.disk cur (inum, .addr k) = some ((cur inum).addrs k) := by
      rw [owner_of_type ht]
      exact asBlock_of_ne h0
    have := (hm.range _ _ ho).2
    simp only [FSSIZE] at hfree
    omega

theorem block_congr {disk : Disk} {d' : DInode} (h : d'.addrs = d.addrs) (r : Ref) :
    d'.block disk r = d.block disk r := by
  cases r with
  | addr k => simp only [DInode.block, h]
  | entry j => simp only [DInode.block, DInode.indirect, h]

/-- Nothing changes from the data on, nor in the super block. -/
theorem Made.transfer {cur cur' : Nat → DInode} (hm : Made m cur bodies)
    (hdisk : ∀ b, nmeta ≤ b → m'.disk b = m.disk b) (hone : m'.disk 1 = m.disk 1)
    (hlen : m'.len = m.len) (hfi : m'.freeinode = m.freeinode) (hfb : m'.freeblock = m.freeblock)
    (htype : ∀ i, (cur' i).type = (cur i).type)
    (haddrs : ∀ i, (cur i).type ≠ 0 → (cur' i).addrs = (cur i).addrs) : Made m' cur' bodies := by
  have howner : ∀ o, owner m'.disk cur' o = owner m.disk cur o := by
    intro o
    rw [← hm.sound.stored hdisk, owner, owner, htype]
    split
    · rfl
    · next ht => exact block_congr (haddrs _ ht) _
  refine ⟨⟨?_, ?_, ?_, ?_, ?_, ?_⟩, ?_, ?_, ?_, ?_, ?_⟩
  · exact hlen.trans hm.sound.len
  · exact hfb ▸ hm.sound.low
  · intro o o' b ho ho'
    rw [howner] at ho ho'
    exact hm.sound.single o o' b ho ho'
  · intro o b ho
    rw [howner] at ho
    exact hfb ▸ hm.sound.range o b ho
  · intro b h₁ h₂
    obtain ⟨o, ho⟩ := hm.sound.onto b h₁ (hfb ▸ h₂)
    exact ⟨o, (howner o).trans ho⟩
  · intro b hb
    rw [hdisk b (Nat.le_trans (hfb ▸ hm.sound.low) hb)]
    exact hm.sound.zero b (hfb ▸ hb)
  · exact hfb ▸ hm.high
  · exact hone.trans hm.super
  · exact hfi ▸ hm.count
  · intro i
    rw [htype, hfi]
    exact hm.kinds i
  · intro i h1 hi
    rw [hfi] at hi
    have hk : (cur i).type ≠ 0 := by
      rw [hm.kinds]
      exact kind_ne_zero h1 hi
    refine (IsFile.stored hm.sound hk hdisk (hm.files i h1 hi)).congr ?_ ?_ ?_
    · rw [DInode.indirect, DInode.indirect, haddrs i hk]
    · exact fun bn _ => block_congr (haddrs i hk) _
    · exact fun _ _ _ _ => rfl

theorem Made.store {n : Nat} (hm : Made m (update (inodes wide m.disk) inum d) bodies)
    (hi : inum < wide.capacity) (hd : d.Fits) (hn : n < 2 ^ 32)
    (h : m.winode inum { d with size := n } = some m') :
    Made m' (inodes wide m'.disk) bodies ∧ m'.freeinode = m.freeinode ∧
      inodes wide m'.disk = update (inodes wide m.disk) inum { d with size := n } := by
  have hd' : ({ d with size := n } : DInode).Fits := { hd with size := hn }
  obtain ⟨hino, hdisk, hfi, hfb, hlen⟩ := winode_spec hi hd' h
  refine ⟨hm.transfer (fun b hb => hdisk b (Or.inr hb))
    (hdisk 1 (Or.inl (Nat.le_refl 1))) hlen hfi hfb ?_ ?_, hfi, hino⟩
  · exact fun i => hino ▸ update_size DInode.type rfl ..
  · exact fun i _ => hino ▸ update_size DInode.addrs rfl ..

theorem rinode_eq (hi : inum < wide.capacity) {din : DInode} (h : m.rinode inum = some din) :
    inodes wide m.disk inum = din := by
  obtain ⟨buf, hbuf, he⟩ := Option.bind_eq_some_iff.mp h
  obtain ⟨-, rfl⟩ := rsect_eq_some hbuf
  rw [inodes_of_lt hi]
  exact Option.some.inj he

theorem iappend_spec (hm : Made m (inodes wide m.disk) bodies) (hs : Sized m bodies) (h1 : 1 ≤ inum)
    (hi : inum < m.freeinode) (h : m.iappend inum p = some m') :
    Made m' (inodes wide m'.disk) (update bodies inum (bodies inum ++ p)) ∧
      Sized m' (update bodies inum (bodies inum ++ p)) ∧
      m'.freeinode = m.freeinode := by
  obtain ⟨din, hr, h⟩ := Option.bind_eq_some_iff.mp h
  obtain ⟨⟨din', off, m₁⟩, hl, hw⟩ := Option.bind_eq_some_iff.mp h
  have hcap : inum < wide.capacity := Nat.lt_of_lt_of_le hi hm.count.2
  obtain rfl := rinode_eq hcap hr
  have htype : (inodes wide m.disk inum).type ≠ 0 := by
    rw [hm.kinds]
    exact kind_ne_zero h1 hi
  rw [hs inum h1 hi] at hl
  obtain ⟨happ, rfl⟩ := appendLoop_spec (Nat.le_refl _) hm.sound rfl htype hm.high
    (hm.files inum h1 hi) hl
  obtain ⟨a, ha⟩ := happ.fields
  -- the inodes on the disk are still those of before
  have hsame : inodes wide m₁.disk = inodes wide m.disk := by
    exact inodes_congr laid fun b h₁ h₂ => happ.low b (by omega) h₂
  have htype' : din'.type = (inodes wide m.disk inum).type := by rw [ha]
  have hmade : Made m₁ (update (inodes wide m₁.disk) inum din')
      (update bodies inum (bodies inum ++ p)) := by
    rw [hsame]
    refine ⟨happ.sound, happ.high, ?_, happ.freeinode ▸ hm.count, ?_, ?_⟩
    · rw [happ.low 1 (by decide) (by decide)]
      exact hm.super
    · intro i
      rw [happ.freeinode, ← hm.kinds]
      by_cases he : i = inum
      · subst he
        rw [update_self, htype']
      · rw [update_of_ne he]
    · intro i hi1 hi2
      by_cases he : i = inum
      · subst he
        rw [update_self, update_self]
        exact happ.file
      · rw [update_of_ne he, update_of_ne he]
        rw [happ.freeinode] at hi2
        exact happ.others i _ he (by rw [hm.kinds]; exact kind_ne_zero hi1 hi2) (hm.files i hi1 hi2)
  have hfits : din'.Fits := by
    have hf := fits_inodes wide m.disk inum
    have haddr : ∀ k, din'.addrs k < 2 ^ 32 := by
      intro k
      have := Sound.addr_lt happ.sound happ.high (by rwa [update_self, htype']) k
      rwa [update_self] at this
    rw [ha] at haddr ⊢
    exact { hf with addrs := haddr }
  have hn : (bodies inum ++ p).length < 2 ^ 32 := by
    have := happ.file.bound
    simp only [MAXFILE, NDIRECT, NINDIRECT, BSIZE] at this
    omega
  obtain ⟨hmade', hfi, hino⟩ := hmade.store hcap hfits hn hw
  rw [happ.freeinode] at hfi
  refine ⟨hmade', ?_, hfi⟩
  intro i hi1 hi2
  rw [hino, hsame]
  by_cases he : i = inum
  · subst he
    rw [update_self, update_self]
  · rw [update_of_ne he, update_of_ne he]
    exact hs i hi1 (hfi ▸ hi2)

theorem block_empty {disk : Disk} (h : ∀ k, d.addrs k = 0) (r : Ref) : d.block disk r = none := by
  cases r with
  | addr k => simp [DInode.block, h]
  | entry j => simp [DInode.block, DInode.indirect, h]

theorem isFile_nil {disk : Disk} (h : ∀ k, d.addrs k = 0) : IsFile disk d [] where
  bound := Nat.zero_le _
  slots := by
    intro bn _
    rw [DInode.slot, block_empty h]
    simp [blocksFor, BSIZE]
  indirect := fun hi => absurd (h _) hi
  bytes := by
    intro o _
    rw [DInode.content, DInode.slot, block_empty h]
    rfl

theorem ialloc_spec {type : Nat} (hm : Made m (inodes wide m.disk) bodies) (hs : Sized m bodies)
    (hcap : m.freeinode < wide.capacity) (htype : type = kind (m.freeinode + 1) m.freeinode)
    (h : m.ialloc type = some (inum, m')) :
    inum = m.freeinode ∧ Made m' (inodes wide m'.disk) (update bodies m.freeinode []) ∧
      Sized m' (update bodies m.freeinode []) ∧ m'.freeinode = m.freeinode + 1 := by
  obtain ⟨_, hw, he⟩ := Option.bind_eq_some_iff.mp h
  cases he
  refine ⟨rfl, ?_⟩
  have hfits : (fresh type).Fits := by
    have ht : type < 2 ^ 16 := by
      rw [htype, kind]
      split
      · decide
      · split <;> decide
    exact ⟨ht, (by decide : 0 < 2 ^ 16), (by decide : 0 < 2 ^ 16), (by decide : 1 < 2 ^ 16),
      (by decide : Fs.UID < 2 ^ 16), (by decide : Fs.GID < 2 ^ 16), (by decide : Fs.MODE < 2 ^ 32),
      Nat.two_pow_pos 32, fun _ => Nat.two_pow_pos 32⟩
  have hfree : (inodes wide m.disk m.freeinode).type = 0 := by
    rw [hm.kinds, kind, if_pos (Or.inr (Nat.le_refl _))]
  have howner : ∀ o, owner m.disk (update (inodes wide m.disk) m.freeinode (fresh type)) o =
      owner m.disk (inodes wide m.disk) o := by
    intro o
    rw [owner_update]
    split
    · next ho =>
        rw [block_empty fun _ => rfl, owner, ho, hfree, if_pos rfl]
        split <;> rfl
    · rfl
  have hmade : Made { m with freeinode := m.freeinode + 1 }
      (update (inodes wide m.disk) m.freeinode (fresh type))
      (update bodies m.freeinode []) := by
    refine ⟨⟨hm.sound.len, hm.sound.low, ?_, ?_, ?_, hm.sound.zero⟩, hm.high, hm.super,
      ⟨Nat.le_add_left 1 _, hcap⟩, ?_, ?_⟩
    · intro o o' b ho ho'
      exact hm.sound.single o o' b ((howner o).symm.trans ho) ((howner o').symm.trans ho')
    · exact fun o b ho => hm.sound.range o b ((howner o).symm.trans ho)
    · intro b h₁ h₂
      obtain ⟨o, ho⟩ := hm.sound.onto b h₁ h₂
      exact ⟨o, (howner o).trans ho⟩
    · intro i
      rw [update_apply]
      split
      · next hi => rw [hi]; exact htype
      · next hi =>
          rw [hm.kinds, kind, kind]
          have : m.freeinode ≤ i ↔ m.freeinode + 1 ≤ i := by omega
          simp only [this]
    · intro i h1 hi
      rw [update_apply, update_apply]
      split
      · exact isFile_nil fun _ => rfl
      · exact hm.files i h1 (by simp only at hi; omega)
  obtain ⟨hmade', hfi, hino⟩ := hmade.store hcap hfits (Nat.two_pow_pos 32) hw
  refine ⟨hmade', ?_, hfi⟩
  intro i h1 hi
  rw [hino, update_apply, update_apply]
  split
  · rfl
  · rw [hfi] at hi
    exact hs i h1 (by simp only at hi; omega)

theorem blank_spec (bodies : Nat → List UInt8) :
    Made blank (inodes wide blank.disk) bodies ∧ Sized blank bodies := by
  have hzero : ∀ b, 1 < b → blank.disk b = fun _ => 0 := by
    intro b hb
    simp only [blank]
    rw [update_of_ne (by omega)]
  have htype : ∀ i, (inodes wide blank.disk i).type = 0 := by
    intro i
    rw [inodes]
    split
    · next hi =>
        rw [dinode, hzero _ (laid.iblock hi).1]
        rfl
    · rfl
  have hnone : ∀ o b, owner blank.disk (inodes wide blank.disk) o ≠ some b := by
    intro o b ho
    rw [owner, if_pos (htype _)] at ho
    cases ho
  have hsuper : blank.disk 1 = sb.toBlock := by simp only [blank, update_self]
  refine ⟨⟨⟨rfl, Nat.le_refl _, ?_, ?_, ?_, ?_⟩, by decide, hsuper, by decide, ?_, ?_⟩, ?_⟩
  · exact fun o _ b ho => absurd ho (hnone o b)
  · exact fun o b ho => absurd ho (hnone o b)
  · exact fun b h₁ h₂ => absurd h₂ (Nat.not_lt.mpr h₁)
  · intro b hb
    refine hzero b (Nat.lt_of_lt_of_le ?_ hb)
    decide
  · intro i
    rw [htype, kind, if_pos]
    simp only [blank]
    omega
  · exact fun i h1 hi => absurd hi (Nat.not_lt.mpr h1)
  · exact fun i h1 hi => absurd hi (Nat.not_lt.mpr h1)

end

/-! ## The files -/

/-- The entries of the root directory. -/
def entries (files : List Source) : List (Nat × List UInt8) :=
  (ROOTINO, Fs.dot) :: (ROOTINO, Fs.dotdot) :: files.mapIdx fun k f => (k + 2, f.argv)

/-- What the inodes contain; inode 1 is the root. -/
def bodies (files : List Source) : Nat → List UInt8
  | 0 => []
  | 1 => (entries files).flatMap fun e => dirent e.1 e.2
  | i + 2 => ((files[i]?).map Source.contents).getD []

structure Filled (m : Image) (files : List Source) : Prop where
  made : Made m (inodes wide m.disk) (bodies files)
  sized : Sized m (bodies files)
  count : m.freeinode = files.length + 2

section

variable {m m' : Image} {files : List Source} {f : Source}

theorem entries_append (files : List Source) (f : Source) :
    entries (files ++ [f]) = entries files ++ [(files.length + 2, f.argv)] := by
  simp [entries, List.mapIdx_append]

theorem makeRoot_spec (h : makeRoot = some m) : Filled m [] := by
  rw [makeRoot] at h
  obtain ⟨⟨root, m₁⟩, ha, h⟩ := Option.bind_eq_some_iff.mp h
  obtain ⟨hmade, hsized⟩ := blank_spec fun _ => []
  obtain ⟨rfl, hmade, hsized, hfi⟩ := ialloc_spec hmade hsized (by decide) (by decide) ha
  obtain ⟨m₂, h₂, h⟩ := Option.bind_eq_some_iff.mp h
  have hone : 1 < m₁.freeinode := by
    rw [hfi]
    decide
  obtain ⟨hmade, hsized, hfi₂⟩ := iappend_spec hmade hsized (Nat.le_refl 1) hone h₂
  obtain ⟨hmade, hsized, hfi₃⟩ := iappend_spec hmade hsized (Nat.le_refl 1) (hfi₂ ▸ hone) h
  have hfi : m.freeinode = 2 := by
    rw [hfi₃, hfi₂, hfi]
    rfl
  rw [update_idem, update_self] at hmade hsized
  have hbodies : update (update (fun _ => []) blank.freeinode []) 1
      (update (fun _ => []) blank.freeinode [] 1 ++ dirent blank.freeinode Fs.dot ++
        dirent blank.freeinode Fs.dotdot) = bodies [] := by
    funext i
    match i with
    | 0 => rfl
    | 1 => rfl
    | i + 2 => rfl
  rw [hbodies] at hmade hsized
  exact ⟨hmade, hsized, hfi⟩

theorem pieces_spec {inum : Nat} (h1 : 1 ≤ inum) {pieces : List (List UInt8)} :
    ∀ {m : Image} {bs : Nat → List UInt8}, Made m (inodes wide m.disk) bs → Sized m bs →
      inum < m.freeinode → pieces.foldlM (fun m p => m.iappend inum p) m = some m' →
      Made m' (inodes wide m'.disk) (update bs inum (bs inum ++ pieces.flatten)) ∧
        Sized m' (update bs inum (bs inum ++ pieces.flatten)) ∧
        m'.freeinode = m.freeinode := by
  induction pieces with
  | nil =>
    intro m bs hmade hsized _ h
    cases h
    rw [List.flatten_nil, List.append_nil, update_eq_self]
    exact ⟨hmade, hsized, rfl⟩
  | cons p pieces ih =>
    intro m bs hmade hsized hi h
    rw [List.foldlM_cons] at h
    obtain ⟨m₁, h₁, h⟩ := Option.bind_eq_some_iff.mp h
    obtain ⟨hmade₁, hsized₁, hfi⟩ := iappend_spec hmade hsized h1 hi h₁
    have := ih hmade₁ hsized₁ (hfi ▸ hi) h
    rwa [update_idem, update_self, List.append_assoc, hfi] at this

theorem addFile_spec (hm : Filled m files) (hcap : files.length + 2 < wide.capacity)
    (h : addFile m f = some m') : Filled m' (files ++ [f]) := by
  rw [addFile] at h
  split at h
  · cases h
  obtain ⟨⟨inum, m₁⟩, ha, h⟩ := Option.bind_eq_some_iff.mp h
  have hn := hm.count
  have hkind : T_FILE = kind (m.freeinode + 1) m.freeinode := by
    rw [kind, if_neg (by omega), if_neg (by simp only [ROOTINO]; omega)]
  obtain ⟨rfl, hmade, hsized, hfi⟩ := ialloc_spec hm.made hm.sized (hn ▸ hcap) hkind ha
  obtain ⟨m₂, h₂, h⟩ := Option.bind_eq_some_iff.mp h
  obtain ⟨hmade, hsized, hfi₂⟩ := iappend_spec hmade hsized (Nat.le_refl 1) (by omega) h₂
  obtain ⟨hmade, hsized, hfi₃⟩ := pieces_spec (by omega) hmade hsized (by omega) h
  have hne : m.freeinode ≠ 1 := by omega
  have hbodies : bodies (files ++ [f]) = update (update (update (bodies files) m.freeinode []) 1
        (bodies files 1 ++ dirent m.freeinode f.argv)) m.freeinode f.contents := by
    funext i
    rw [update_apply, update_apply, update_apply, hn]
    match i with
    | 0 => rw [if_neg (by omega), if_neg (by omega), if_neg (by omega), bodies, bodies]
    | 1 =>
      rw [if_neg (by omega), if_pos rfl, bodies, bodies, entries_append, List.flatMap_append,
        List.flatMap_singleton]
    | i + 2 =>
      split
      · next hi =>
          rw [bodies, show i = files.length by omega, List.getElem?_concat_length]
          rfl
      · next hi =>
          rw [if_neg (by omega), bodies, bodies]
          rcases Nat.lt_or_gt_of_ne (show i ≠ files.length by omega) with hlt | hgt
          · rw [List.getElem?_append_left hlt]
          · rw [List.getElem?_eq_none (by simp; omega), List.getElem?_eq_none (by omega)]
  rw [update_of_ne hne, update_self, List.nil_append, update_of_ne hne.symm] at hmade hsized
  refine ⟨hbodies ▸ hmade, hbodies ▸ hsized, ?_⟩
  rw [List.length_append, List.length_singleton]
  omega

theorem files_spec {done : List Source} (hm : Filled m done)
    (hcap : (done ++ files).length + 2 ≤ wide.capacity) (h : files.foldlM addFile m = some m') :
    Filled m' (done ++ files) := by
  induction files generalizing m done with
  | nil =>
    cases h
    rwa [List.append_nil]
  | cons f files ih =>
    rw [List.foldlM_cons] at h
    obtain ⟨m₁, h₁, h⟩ := Option.bind_eq_some_iff.mp h
    rw [List.length_append, List.length_cons] at hcap
    have := ih (addFile_spec hm (by omega) h₁) (by simp; omega) h
    rwa [List.append_assoc] at this

/-! ## The end of `main` -/

theorem length_dirent (inum : Nat) (name : List UInt8) : (dirent inum name).length = Dirent.bytes := by
  rw [dirent, Dirent.toBytes, List.length_append, length_encode, Dirent.length_strncpy]
  rfl

theorem length_entries (files : List Source) : (entries files).length = files.length + 2 := by
  rw [entries, List.length_cons, List.length_cons, List.length_mapIdx]

theorem length_root (files : List Source) :
    (bodies files ROOTINO).length = Dirent.bytes * (files.length + 2) := by
  show ((entries files).flatMap fun e => dirent e.1 e.2).length = _
  rw [List.length_flatMap]
  simp only [length_dirent, List.map_const', List.sum_replicate_nat, length_entries, Nat.mul_comm]

/-- The root directory with its size rounded up, or more than that. -/
def rootSize (files : List Source) : Nat :=
  (Dirent.bytes * (files.length + 2) / BSIZE + 1) * BSIZE

theorem fixRoot_spec (hm : Filled m files) (h : fixRoot m = some m') :
    Made m' (inodes wide m'.disk) (bodies files) ∧ m'.freeinode = files.length + 2 ∧
      inodes wide m'.disk = update (inodes wide m.disk) ROOTINO
        { inodes wide m.disk ROOTINO with size := rootSize files } := by
  obtain ⟨din, hr, hw⟩ := Option.bind_eq_some_iff.mp h
  obtain rfl := rinode_eq (by decide) hr
  have hone : ROOTINO < m.freeinode := by
    rw [hm.count]
    simp only [ROOTINO]
    omega
  rw [hm.sized ROOTINO (Nat.le_refl 1) hone, length_root] at hw
  have hmade := hm.made
  rw [← update_eq_self ROOTINO (inodes wide m.disk)] at hmade
  have hsize : rootSize files < 2 ^ 32 := by
    have := (hm.made.files ROOTINO (Nat.le_refl 1) hone).bound
    rw [length_root] at this
    simp only [rootSize, Dirent.bytes, MAXFILE, NDIRECT, NINDIRECT, BSIZE] at this ⊢
    omega
  obtain ⟨hmade', hfi, hino⟩ := hmade.store (by decide) (fits_inodes ..) hsize hw
  exact ⟨hmade', hfi.trans hm.count, hino⟩

theorem bit_range (used b : Nat) :
    bit ((List.range used).foldl (fun buf i => setBit buf i true) fun _ => 0) b = decide (b < used) := by
  induction used with
  | zero => simp [bit]
  | succ used ih =>
    rw [List.range_succ, List.foldl_append, List.foldl_cons, List.foldl_nil, bit_setBit, ih]
    split
    · next he => simp [he]
    · next he =>
        refine decide_eq_decide.mpr ?_
        omega

/-- The bitmap with the blocks below `used` marked. -/
def bitmapOf (used : Nat) : Block := (List.range used).foldl (fun buf i => setBit buf i true) fun _ => 0

theorem balloc_eq {used : Nat} (h : m.balloc used = some m') :
    m' = m.wsect sb.bmapstart (bitmapOf used) := by
  rw [Image.balloc] at h
  split at h
  · exact (Option.some.inj h).symm
  · cases h

/-- The image before the bitmap is written. -/
structure Stored (m : Image) (files : List Source) : Prop where
  made : Made m (inodes wide m.disk) (bodies files)
  count : m.freeinode = files.length + 2
  root : (inodes wide m.disk ROOTINO).size = rootSize files
  sizes : ∀ k < files.length, (inodes wide m.disk (k + 2)).size = (bodies files (k + 2)).length

theorem main_stored (h : main files = some m) (hcap : files.length + 2 ≤ wide.capacity) :
    ∃ m₀, Stored m₀ files ∧ m = m₀.wsect sb.bmapstart (bitmapOf m₀.freeblock) := by
  rw [main] at h
  obtain ⟨m₀, h₀, h⟩ := Option.bind_eq_some_iff.mp h
  obtain ⟨m₁, h₁, h⟩ := Option.bind_eq_some_iff.mp h
  obtain ⟨m₂, h₂, h⟩ := Option.bind_eq_some_iff.mp h
  have hfill : Filled m₁ files := files_spec (makeRoot_spec h₀) hcap h₁
  obtain ⟨hmade, hfi, hino⟩ := fixRoot_spec hfill h₂
  refine ⟨m₂, ⟨hmade, hfi, ?_, ?_⟩, balloc_eq h⟩
  · rw [hino, update_self]
  · intro k hk
    rw [hino, update_of_ne (by simp only [ROOTINO]; omega)]
    exact hfill.sized (k + 2) (by omega) (by rw [hfill.count]; omega)

/-- The image with its bitmap, which is where inode 208 would be. -/
structure Written (m : Image) (files : List Source) : Prop where
  super : Superblock.read (m.disk 1) = sb
  few : files.length + 2 ≤ wide.capacity
  kinds : ∀ i < sb.capacity, (inodes sb m.disk i).type = kind (files.length + 2) i
  held : ∀ i, 1 ≤ i → i < files.length + 2 → i < sb.capacity →
    IsFile m.disk (inodes sb m.disk i) (bodies files i)
  root : (inodes sb m.disk ROOTINO).size = rootSize files
  sizes : ∀ k < files.length, k + 2 < sb.capacity →
    (inodes sb m.disk (k + 2)).size = (bodies files (k + 2)).length
  low : nmeta ≤ m.freeblock
  bitmap : ∀ b, bit (m.disk sb.bmapstart) b = decide (b < m.freeblock)

theorem inodes_wsect (m : Image) (buf : Block) {i : Nat} (hi : i < sb.capacity) :
    inodes sb (m.wsect sb.bmapstart buf).disk i = inodes wide m.disk i := by
  have hblock : IBLOCK sb i ≠ sb.bmapstart := by
    rw [capacity_eq] at hi
    simp only [IBLOCK, IPB, BSIZE, DInode.bytes, sb, nlog, ninodeblocks, NINODES]
    omega
  rw [inodes_of_lt hi, inodes_of_lt (by rw [capacity_eq] at hi; rw [wide_eq]; omega)]
  exact congrArg (inodeIn · i) (update_of_ne hblock _ _)

theorem Stored.data (m : Image) (buf : Block) {b : Nat} (hb : nmeta ≤ b) :
    (m.wsect sb.bmapstart buf).disk b = m.disk b :=
  update_of_ne (Nat.ne_of_gt (Nat.lt_of_lt_of_le (by decide) hb)) ..

theorem Stored.written (hs : Stored m files) :
    Written (m.wsect sb.bmapstart (bitmapOf m.freeblock)) files where
  super := by
    have hone : (m.wsect sb.bmapstart (bitmapOf m.freeblock)).disk 1 = sb.toBlock := hs.made.super
    rw [hone]
    exact Superblock.read_toBlock (by decide)
  few := hs.count ▸ hs.made.count.2
  kinds := by
    intro i hi
    rw [inodes_wsect m _ hi, hs.made.kinds, hs.count]
  held := by
    intro i h1 hi hcap
    rw [inodes_wsect m _ hcap]
    rw [← hs.count] at hi
    exact IsFile.stored hs.made.sound (by rw [hs.made.kinds]; exact kind_ne_zero h1 hi)
      (fun b => Stored.data m _) (hs.made.files i h1 hi)
  root := by
    rw [inodes_wsect m _ (by decide), hs.root]
  sizes := by
    intro k hk hcap
    rw [inodes_wsect m _ hcap, hs.sizes k hk]
  low := hs.made.sound.low
  bitmap := by
    intro b
    show bit (update m.disk _ _ _) b = _
    rw [update_self]
    exact bit_range _ b

/-- With at most 206 files no inode is where the bitmap is. -/
structure Finished (m : Image) (files : List Source) : Prop where
  written : Written m files
  made : Made m (inodes sb m.disk) (bodies files)
  count : files.length + 2 ≤ sb.capacity

theorem Stored.finished (hs : Stored m files) (hcap : files.length + 2 ≤ sb.capacity) :
    Finished (m.wsect sb.bmapstart (bitmapOf m.freeblock)) files := by
  refine ⟨hs.written, hs.made.transfer (fun b => Stored.data m _) rfl ?_ rfl rfl ?_ ?_, hcap⟩
  · show max m.len _ = m.len
    rw [hs.made.sound.len]
    decide
  · intro i
    by_cases hi : i < sb.capacity
    · rw [inodes_wsect m _ hi]
    · rw [inodes, if_neg hi, hs.made.kinds, hs.count, kind, if_pos (Or.inr (by omega))]
      rfl
  · intro i ht
    rw [inodes_wsect m _]
    by_contra hi
    exact ht (by rw [hs.made.kinds, hs.count, kind, if_pos (Or.inr (by omega))])

theorem Written.inUse (hm : Written m files) {b : Nat} (hb : b < sb.size) :
    inUse sb m.disk b = decide (b < m.freeblock) := by
  have hsize : b < BPB := Nat.lt_trans hb (by decide)
  rw [Xv6Pdx.inUse, BBLOCK, Nat.div_eq_of_lt hsize, Nat.zero_add, Nat.mod_eq_of_lt hsize]
  exact hm.bitmap b

/-- Every inode has its blocks, the root directory if its size is rounded up. -/
theorem Written.covered (hm : Written m files) (hround : (files.length + 2) % 32 ≠ 0) {i : Nat}
    (hi : (inodes sb m.disk i).type ≠ 0) : (inodes sb m.disk i).Covered m.disk := by
  have hcap : i < sb.capacity := by
    by_contra hn
    rw [inodes, if_neg hn] at hi
    exact hi rfl
  rw [hm.kinds i hcap] at hi
  have hrange : 1 ≤ i ∧ i < files.length + 2 := by
    by_contra hn
    exact hi (if_pos (by omega))
  have hfile := hm.held i hrange.1 hrange.2 hcap
  obtain ⟨hsize, hblocks⟩ : (inodes sb m.disk i).size ≤ MAXFILE * BSIZE ∧
      blocksFor (inodes sb m.disk i).size = blocksFor (bodies files i).length := by
    have hbound := hfile.bound
    obtain rfl | ⟨k, rfl⟩ : i = 1 ∨ ∃ k, i = k + 2 := by
      rcases Nat.lt_or_ge i 2 with hlt | hge
      · exact .inl (by omega)
      · exact .inr ⟨i - 2, by omega⟩
    · have hroot : (bodies files 1).length = _ := length_root files
      rw [show inodes sb m.disk 1 = inodes sb m.disk ROOTINO from rfl, hm.root]
      rw [hroot] at hbound ⊢
      simp only [rootSize, blocksFor, Dirent.bytes, MAXFILE, NDIRECT, NINDIRECT, BSIZE]
        at hbound ⊢
      omega
    · rw [hm.sizes k (by omega) hcap]
      exact ⟨hbound, rfl⟩
  refine ⟨hsize, ?_⟩
  intro bn hbn
  refine (hfile.slots bn ?_).mpr (hblocks ▸ hbn)
  simp only [blocksFor, MAXFILE, NDIRECT, NINDIRECT, BSIZE] at hbn hsize ⊢
  omega

theorem Finished.consistent (hm : Finished m files) (hround : (files.length + 2) % 32 ≠ 0) :
    Consistent sb m.disk := by
  have hdata : sb.dataStart = nmeta := by decide
  refine ⟨hm.made.sound.single, ?_, ?_, fun i => hm.written.covered hround⟩
  · intro o b ho
    have := hm.made.sound.range o b ho
    rw [hdata]
    exact ⟨this.1, Nat.lt_of_lt_of_le this.2 hm.made.high⟩
  · intro b hb
    rw [hm.written.inUse hb, decide_eq_true_iff, hdata]
    refine ⟨?_, ?_⟩
    · intro hlt
      rcases Nat.lt_or_ge b nmeta with hlow | hge
      · exact Or.inl hlow
      · exact Or.inr (hm.made.sound.onto b hge hlt)
    · rintro (hlow | ⟨o, ho⟩)
      · exact Nat.lt_of_lt_of_le hlow hm.written.low
      · exact (hm.made.sound.range o b ho).2

/-- When the entries end with a block, the root directory is said to have another one, and
has none. -/
theorem Written.hole (hm : Written m files) (hround : (files.length + 2) % 32 = 0) :
    (inodes sb m.disk ROOTINO).type = T_DIR ∧
      (files.length + 2) / 32 < blocksFor (inodes sb m.disk ROOTINO).size ∧
      (inodes sb m.disk ROOTINO).slot m.disk ((files.length + 2) / 32) = none := by
  have hfew := hm.few
  rw [wide_eq] at hfew
  refine ⟨?_, ?_, ?_⟩
  · rw [hm.kinds ROOTINO (by decide), kind, if_neg (by simp only [ROOTINO]; omega), if_pos rfl]
  · rw [hm.root]
    simp only [rootSize, blocksFor, Dirent.bytes, BSIZE]
    omega
  · have hfile := hm.held ROOTINO (Nat.le_refl 1) (by simp only [ROOTINO]; omega) (by decide)
    by_contra hne
    have := (hfile.slots _ (by simp only [MAXFILE, NDIRECT, NINDIRECT, BSIZE]; omega)).mp hne
    rw [length_root] at this
    simp only [blocksFor, Dirent.bytes, BSIZE] at this
    omega

end

end Xv6Pdx.Mkfs
