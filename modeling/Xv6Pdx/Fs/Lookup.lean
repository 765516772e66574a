/-
# `Fs.Lookup` — what a path names

`resolve` reads the directories on the disk along a path.  `namei`, run alone on a
cache that agrees with the disk, returns a reference to the inode of `resolve`, or
nothing where there is none; nothing is freed, and the disk stays as it is.

A directory that has been removed while a process was in it still has its `..`, and the
inode of that may be gone.  `ilock` panics there, and `iget` when the cache is full;
`Walks` says of the state before that a walk meets neither.
-/
import Xv6Pdx.Fs.Contents

namespace Xv6Pdx

open Lib Bytes
open Function (update_self update_of_ne)

/-! ## Directories on the disk -/

def DInode.entries (disk : Disk) (d : DInode) : List Dirent :=
  (List.range (d.size / Dirent.bytes)).map fun k => d.entryAt disk (Dirent.bytes * k)

/-- The entry is in use and has this name. -/
def Dirent.matches (name : List UInt8) (de : Dirent) : Bool :=
  decide (de.inum ≠ 0 ∧ namecmp name de.name = 0)

def Live (sb : Superblock) (disk : Disk) (n : Nat) : Prop :=
  n < sb.capacity ∧ (dinode sb disk n).type ≠ 0

/-- The inode to which the elements of a path lead from the inode `n`. -/
def resolveFrom (sb : Superblock) (disk : Disk) : List (List UInt8) → Nat → Option Nat
  | [], n => some n
  | name :: names, n =>
    if (dinode sb disk n).type = T_DIR then
      (((dinode sb disk n).entries disk).find? (Dirent.matches name)).bind fun de =>
        resolveFrom sb disk names de.inum
    else none

/-- The root exists; a directory has all its blocks and consists of whole entries.  The
inodes that the entries name are on the disk, but may be free. -/
structure Tree (sb : Superblock) (disk : Disk) : Prop where
  root : Live sb disk ROOTINO
  covered : ∀ n, Live sb disk n → (dinode sb disk n).type = T_DIR → (dinode sb disk n).Covered disk
  whole : ∀ n, Live sb disk n → (dinode sb disk n).type = T_DIR →
    Dirent.bytes ∣ (dinode sb disk n).size
  named : ∀ n, Live sb disk n → (dinode sb disk n).type = T_DIR →
    ∀ de ∈ (dinode sb disk n).entries disk, de.inum < sb.capacity

namespace Fs

open Ptable (ProcPtr)

/-- The inode at which a path begins. -/
def State.start (s : State) (me : ProcPtr) (path : List UInt8) : Option Nat :=
  if path.head? = some slash then some ROOTINO
  else (s.proc me).cwd.map fun cwd => (s.icache cwd).inum

def names (path : List UInt8) : List (List UInt8) := (elements path.length path).map Prod.fst

/-- The inode that `namei` looks for. -/
def State.resolve (s : State) (me : ProcPtr) (path : List UInt8) : Option Nat :=
  (s.start me path).bind (resolveFrom s.sb s.disk (names path))

/-! ## Where a walk can go -/

def State.Holds (s : State) (n : Nat) : Prop := ∃ ip, 0 < (s.icache ip).ref ∧ (s.icache ip).inum = n

/-- `iget` has an entry for the inode `n`, when a walk is at the inode `cur`: it has one
already, or there is a free one beside the one that `cur` may have taken. -/
def Room (s : State) (cur : Option Nat) (n : Nat) : Prop :=
  s.Holds n ∨ cur = some n ∨ ∃ ip, (s.icache ip).ref = 0 ∧
    ∀ m, cur = some m → ¬ s.Holds m → ∃ jp, jp ≠ ip ∧ (s.icache jp).ref = 0

/-- Every inode in which a name is looked up exists, and there is room for the next. -/
def Walkable (s : State) : List (List UInt8) → Nat → Prop
  | [], _ => True
  | name :: names, n => (dinode s.sb s.disk n).type ≠ 0 ∧
      ((dinode s.sb s.disk n).type = T_DIR → ∀ de,
        ((dinode s.sb s.disk n).entries s.disk).find? (Dirent.matches name) = some de →
          Room s (some n) de.inum ∧ Walkable s names de.inum)

def State.Walks (s : State) (me : ProcPtr) (path : List UInt8) : Prop :=
  (path.head? = some slash → Room s none ROOTINO) ∧
    ∀ n, s.start me path = some n → Walkable s (names path) n

/-! ## The cache between two calls -/

/-- What has been read of the entry is what the disk has, and the inode exists. -/
def Reads (s : State) (i : Inode) : Prop :=
  i.valid = true → i.toDInode = dinode s.sb s.disk i.inum ∧ i.type ≠ 0

/-- An inode is in the cache once at most. -/
structure Cached (s : State) : Prop where
  dev : ∀ ip, 0 < (s.icache ip).ref → (s.icache ip).dev = ROOTDEV
  range : ∀ ip, 0 < (s.icache ip).ref → (s.icache ip).inum < s.sb.capacity
  read : ∀ ip, 0 < (s.icache ip).ref → Reads s (s.icache ip)
  single : ∀ ip jp, 0 < (s.icache ip).ref → 0 < (s.icache jp).ref →
    (s.icache ip).inum = (s.icache jp).inum → ip = jp

/-- No inode is locked; an inode without a link is in the cache, and the current directory
of the process is. -/
structure Settled (s : State) (me : ProcPtr) : Prop extends Cached s where
  tree : Tree s.sb s.disk
  idle : ∀ ip, (s.icache ip).busy = false
  linked : ∀ n, Live s.sb s.disk n → ¬ s.Holds n → (dinode s.sb s.disk n).nlink ≠ 0
  cwd : ∃ ip, (s.proc me).cwd = some ip ∧ 0 < (s.icache ip).ref

/-- The cache when `namei` holds the references `held`, and the lock of `locked`. -/
structure Walk (s : State) (held : List InodePtr) (locked : Option InodePtr) (t : State) :
    Prop where
  rest : t = { s with icache := t.icache }
  cached : Cached t
  refs : ∀ ip, (t.icache ip).ref = (s.icache ip).ref + held.count ip
  kept : ∀ ip, 0 < (s.icache ip).ref → (t.icache ip).inum = (s.icache ip).inum
  busy : ∀ ip, (t.icache ip).busy = true ↔ locked = some ip

section

variable {s t : State} {me : ProcPtr} {ip : InodePtr} {held : List InodePtr}
  {locked : Option InodePtr}

theorem Walk.sb (h : Walk s held locked t) : t.sb = s.sb := by rw [h.rest]

theorem Walk.disk (h : Walk s held locked t) : t.disk = s.disk := by rw [h.rest]

theorem Walk.pos (h : Walk s held locked t) (hip : ip ∈ held) : 0 < (t.icache ip).ref := by
  rw [h.refs]
  exact Nat.add_pos_right _ (List.count_pos_iff.mpr hip)

theorem Settled.walk (h : Settled s me) : Walk s [] none s where
  rest := rfl
  cached := h.toCached
  refs := fun _ => rfl
  kept := fun _ _ => rfl
  busy := fun ip => by simp [h.idle ip]

theorem forall_put {P : InodePtr → Inode → Prop} {i : Inode} (hip : P ip i)
    (h : ∀ jp, jp ≠ ip → P jp (t.icache jp)) (jp : InodePtr) :
    P jp ((t.putInode ip i).icache jp) := by
  rw [State.putInode_icache]
  rcases eq_or_ne jp ip with rfl | hj
  · rwa [update_self]
  · rw [update_of_ne hj]
    exact h jp hj

theorem Cached.put (h : Cached t) {i : Inode} (hdev : i.dev = ROOTDEV)
    (hrange : i.inum < t.sb.capacity) (hread : Reads t i)
    (hsingle : ∀ jp, jp ≠ ip → 0 < (t.icache jp).ref → (t.icache jp).inum ≠ i.inum) :
    Cached (t.putInode ip i) where
  dev := forall_put (P := fun _ i => 0 < i.ref → i.dev = ROOTDEV) (fun _ => hdev)
    fun jp _ => h.dev jp
  range := forall_put (P := fun _ i => 0 < i.ref → i.inum < t.sb.capacity) (fun _ => hrange)
    fun jp _ => h.range jp
  read := forall_put (P := fun _ i => 0 < i.ref → Reads t i) (fun _ => hread) fun jp _ => h.read jp
  single := by
    intro jp kp
    simp only [State.putInode_icache]
    rcases eq_or_ne jp ip with rfl | hj <;> rcases eq_or_ne kp jp with rfl | hk
    · exact fun _ _ _ => rfl
    · rw [update_self, update_of_ne hk]
      exact fun _ href he => absurd he.symm (hsingle kp hk href)
    · exact fun _ _ _ => rfl
    · rcases eq_or_ne kp ip with rfl | hk'
      · rw [update_self, update_of_ne hj]
        exact fun href _ he => absurd he (hsingle jp hj href)
      · rw [update_of_ne hj, update_of_ne hk']
        exact h.single jp kp

/-- An entry in use is changed, and stays the entry of its inode. -/
theorem Cached.update (h : Cached t) (href : 0 < (t.icache ip).ref) {i : Inode}
    (hdev : i.dev = (t.icache ip).dev) (hinum : i.inum = (t.icache ip).inum) (hread : Reads t i) :
    Cached (t.putInode ip i) := by
  refine h.put (hdev.trans (h.dev ip href)) (hinum ▸ h.range ip href) hread ?_
  intro jp hj hjp he
  exact hj (h.single jp ip hjp href (he.trans hinum))

theorem Walk.put (h : Walk s held locked t) {i : Inode} {held' : List InodePtr}
    {locked' : Option InodePtr} (hc : Cached (t.putInode ip i))
    (href : i.ref = (s.icache ip).ref + held'.count ip)
    (hheld : ∀ jp, jp ≠ ip → held'.count jp = held.count jp)
    (hinum : 0 < (s.icache ip).ref → i.inum = (s.icache ip).inum)
    (hbusy : i.busy = true ↔ locked' = some ip)
    (hlock : ∀ jp, jp ≠ ip → (locked' = some jp ↔ locked = some jp)) :
    Walk s held' locked' (t.putInode ip i) where
  rest := by rw [State.putInode, h.rest]
  cached := hc
  refs := forall_put (P := fun jp i => i.ref = (s.icache jp).ref + held'.count jp) href
    fun jp hj => by rw [hheld jp hj, h.refs]
  kept := forall_put (P := fun jp i => 0 < (s.icache jp).ref → i.inum = (s.icache jp).inum) hinum
    fun jp _ => h.kept jp
  busy := forall_put (P := fun jp i => i.busy = true ↔ locked' = some jp) hbusy
    fun jp hj => (h.busy jp).trans (hlock jp hj).symm

/-- A change to an entry that `namei` holds, other than to the reference count. -/
theorem Walk.set (h : Walk s held locked t) (hip : ip ∈ held) {i : Inode}
    {locked' : Option InodePtr} (hdev : i.dev = (t.icache ip).dev)
    (hinum : i.inum = (t.icache ip).inum) (href : i.ref = (t.icache ip).ref) (hread : Reads t i)
    (hbusy : i.busy = true ↔ locked' = some ip)
    (hlock : ∀ jp, jp ≠ ip → (locked' = some jp ↔ locked = some jp)) :
    Walk s held locked' (t.putInode ip i) :=
  h.put (h.cached.update (h.pos hip) hdev hinum hread) (href.trans (h.refs ip)) (fun _ _ => rfl)
    (fun hs => hinum.trans (h.kept ip hs)) hbusy hlock

/-- `namei` takes one more reference to an entry in use. -/
theorem Walk.dup (h : Walk s held locked t) (href : 0 < (t.icache ip).ref) :
    Walk s (ip :: held) locked (t.putInode ip { t.icache ip with ref := (t.icache ip).ref + 1 }) := by
  refine h.put (h.cached.update href rfl rfl (h.cached.read ip href)) ?_ ?_ (h.kept ip) (h.busy ip)
    fun _ _ => Iff.rfl
  · rw [List.count_cons_self, ← Nat.add_assoc, ← h.refs]
  · exact fun jp hj => List.count_cons_of_ne (Ne.symm hj)

/-- An entry that was free is held, if there is no free one left. -/
theorem Walk.mem (h : Walk s held locked t) (hslot : t.emptySlot = none)
    (hip : (s.icache ip).ref = 0) : ip ∈ held := by
  have hne := List.find?_eq_none.mp hslot ip (List.mem_finRange ip)
  rw [decide_eq_true_eq, h.refs, hip, Nat.zero_add] at hne
  exact List.count_pos_iff.mp (Nat.pos_of_ne_zero hne)

/-- The entry was free exactly if its inode was not in the cache. -/
theorem Walk.holds_iff (h : Walk s held locked t) (hip : ip ∈ held) :
    s.Holds (t.icache ip).inum ↔ (s.icache ip).ref ≠ 0 := by
  constructor
  · rintro ⟨jp, hjp, hinum⟩
    have hjt : 0 < (t.icache jp).ref := by
      rw [h.refs]
      omega
    have he := h.cached.single jp ip hjt (h.pos hip) ((h.kept jp hjp).trans hinum)
    rw [he] at hjp
    omega
  · exact fun hne => ⟨ip, Nat.pos_of_ne_zero hne, (h.kept ip (Nat.pos_of_ne_zero hne)).symm⟩

theorem iget_ends {o : Option InodePtr} (h : Walk s o.toList locked t)
    (hlocked : ∀ jp, locked = some jp → o = some jp) {n : Nat} (hn : n < s.sb.capacity) :
    (iget ROOTDEV n).ends (fun ip t' => Room s (o.map fun jp => (t.icache jp).inum) n ∧
        Walk s (ip :: o.toList) locked t' ∧ (t'.icache ip).inum = n)
      (fun _ => ¬ Room s (o.map fun jp => (t.icache jp).inum) n) t := by
  have hmem : ∀ {jp}, jp ∈ o.toList ↔ o = some jp := Option.mem_toList
  show Prog.ends (Prog.act _ _) _ _ t
  rw [Prog.ends]
  cases hc : t.cached ROOTDEV n with
  | some ip =>
    have hip := List.find?_some hc
    simp only [decide_eq_true_eq] at hip
    refine ⟨?_, h.dup hip.1, ?_⟩
    · rcases Nat.eq_zero_or_pos (s.icache ip).ref with hs | hs
      · have hcount := h.refs ip
        have ho := hmem.mp (List.count_pos_iff.mp (by omega : 0 < o.toList.count ip))
        exact .inr (.inl (by rw [ho, ← hip.2.2]; rfl))
      · exact .inl ⟨ip, hs, (h.kept ip hs).symm.trans hip.2.2⟩
    · rw [State.putInode_icache, update_self]
      exact hip.2.2
  | none =>
    have hnone : ∀ jp, 0 < (t.icache jp).ref → (t.icache jp).inum ≠ n := by
      intro jp hjp he
      have hfind := List.find?_eq_none.mp hc jp (List.mem_finRange jp)
      simp only [decide_eq_true_eq, not_and] at hfind
      exact hfind hjp (h.cached.dev jp hjp) he
    cases hslot : t.emptySlot with
    | none =>
      rintro (⟨jp, hjp, he⟩ | he | ⟨ip, hip, hother⟩)
      · exact hnone jp (by rw [h.refs]; omega) ((h.kept jp hjp).trans he)
      · obtain ⟨jp, hjp, he⟩ := Option.map_eq_some_iff.mp he
        exact hnone jp (h.pos (hmem.mpr hjp)) he
      · have hi := h.mem hslot hip
        obtain ⟨jp, hne, hjp⟩ := hother (t.icache ip).inum (by rw [hmem.mp hi]; rfl)
          fun hholds => (h.holds_iff hi).mp hholds hip
        have hj := hmem.mp (h.mem hslot hjp)
        exact hne (Option.some.inj (hj.symm.trans (hmem.mp hi)))
    | some ip =>
      have href : (t.icache ip).ref = 0 := by simpa using List.find?_some hslot
      have hzero := h.refs ip
      rw [href] at hzero
      have hs : (s.icache ip).ref = 0 := by omega
      have hcount : o.toList.count ip = 0 := by omega
      refine ⟨?_, h.put (h.cached.put rfl (by rwa [h.sb])
        (fun hv => absurd hv Bool.false_ne_true) fun jp _ => hnone jp) ?_ ?_ ?_ ?_ ?_, ?_⟩
      · refine .inr (.inr ⟨ip, hs, fun m hm hholds => ?_⟩)
        obtain ⟨jp, hjp, rfl⟩ := Option.map_eq_some_iff.mp hm
        have hj := hmem.mpr hjp
        refine ⟨jp, ?_, not_not.mp (mt (h.holds_iff hj).mpr hholds)⟩
        rintro rfl
        exact List.count_eq_zero.mp hcount hj
      · rw [List.count_cons_self, hs, hcount]
      · exact fun jp hj => List.count_cons_of_ne (Ne.symm hj)
      · exact fun hpos => absurd hs (Nat.ne_of_gt hpos)
      · exact iff_of_false Bool.false_ne_true fun hl =>
          List.count_eq_zero.mp hcount (hmem.mpr (hlocked ip hl))
      · exact fun _ _ => Iff.rfl
      · rw [State.putInode_icache, update_self]

theorem ilock_ends (h : Walk s held none t) (hip : ip ∈ held) :
    (ilock ip).ends (fun _ t' => Walk s held (some ip) t' ∧ (t'.icache ip).valid = true ∧
      (t'.icache ip).inum = (t.icache ip).inum)
      (fun _ => (dinode s.sb s.disk (t.icache ip).inum).type = 0) t := by
  have href := h.pos hip
  have hbusy : (t.icache ip).busy = false := by
    rw [← Bool.not_eq_true, h.busy]
    nofun
  have h₁ := h.set (i := { t.icache ip with busy := true }) hip rfl rfl rfl
    (h.cached.read ip href) (iff_of_true rfl rfl) fun jp hj => by simp [Ne.symm hj]
  rw [ilock, lockInode, Prog.ends_bind, Prog.ends_bind]
  show Prog.ends (Prog.act _ _) _ _ t
  rw [Prog.ends, if_neg (by omega)]
  show Prog.ends (Prog.act _ _) _ _ t
  rw [Prog.ends, hbusy]
  show Prog.ends (loadInode ip) _ _ (t.putInode ip { t.icache ip with busy := true })
  generalize hput : t.putInode ip { t.icache ip with busy := true } = t₁ at h₁ ⊢
  have hinum : (t₁.icache ip).inum = (t.icache ip).inum := by
    rw [← hput, State.putInode_icache, update_self]
  rw [loadInode]
  show Prog.ends (if (t₁.icache ip).valid then _ else _) _ _ t₁
  split
  · next hv => exact ⟨h₁, hv, hinum⟩
  · next hv =>
      show Prog.ends (when ((dinode t₁.sb t₁.disk (t₁.icache ip).inum).type = 0) _) _ _
        (t₁.putInode ip { t₁.icache ip with
          toDInode := dinode t₁.sb t₁.disk (t₁.icache ip).inum, valid := true })
      rw [when]
      split
      · next hfree => rwa [h₁.sb, h₁.disk, hinum] at hfree
      · next hlive =>
          refine ⟨h₁.set hip rfl rfl rfl (fun _ => ⟨rfl, hlive⟩) (h₁.busy ip)
            fun _ _ => Iff.rfl, ?_, ?_⟩
          · rw [State.putInode_icache, update_self]
          · rw [State.putInode_icache, update_self, hinum]

/-- A locked inode is as it is on the disk. -/
theorem Walk.locked_read (h : Walk s held locked t) (hip : ip ∈ held)
    (hv : (t.icache ip).valid = true) :
    (t.icache ip).toDInode = dinode s.sb s.disk (t.icache ip).inum ∧
      Live s.sb s.disk (t.icache ip).inum := by
  obtain ⟨hread, htype⟩ := h.cached.read ip (h.pos hip) hv
  have hrange := h.cached.range ip (h.pos hip)
  rw [h.sb, h.disk] at hread
  rw [h.sb] at hrange
  exact ⟨hread, hrange, fun hfree => htype (by rw [hread, hfree])⟩

/-- The number is not changed with the rest of an entry. -/
theorem inum_putInode {i : Inode} (hi : i.inum = (t.icache ip).inum) (jp : InodePtr) :
    ((t.putInode ip i).icache jp).inum = (t.icache jp).inum := by
  rcases eq_or_ne jp ip with rfl | hj
  · rw [State.putInode_icache, update_self, hi]
  · rw [State.putInode_icache, update_of_ne hj]

theorem iunlock_ends {E : String → Prop} (h : Walk s held (some ip) t) (hip : ip ∈ held) :
    (iunlock ip).ends (fun _ t' => Walk s held none t' ∧
      ∀ jp, (t'.icache jp).inum = (t.icache jp).inum) E t := by
  have href := h.pos hip
  rw [iunlock, Prog.ends_bind]
  show Prog.ends (Prog.act _ _) _ _ t
  rw [Prog.ends, if_neg (by rw [(h.busy ip).mpr rfl]; simp; omega)]
  refine ⟨h.set hip rfl rfl rfl (h.cached.read ip href) (by simp) fun jp hj => ?_,
    inum_putInode rfl⟩
  simp [Ne.symm hj]

/-- A reference that `namei` has taken is never the last one to an inode without a link. -/
theorem iput_ends {E : String → Prop} (hs : Settled s me) (h : Walk s held none t)
    (hip : ip ∈ held) : (iput me ip).ends (fun _ t' => Walk s (held.erase ip) none t' ∧
      ∀ jp, (t'.icache jp).inum = (t.icache jp).inum) E t := by
  have href := h.pos hip
  have hkeep : ¬ ((t.icache ip).ref = 1 ∧ (t.icache ip).valid = true ∧ (t.icache ip).nlink = 0) := by
    rintro ⟨h1, hv, hlink⟩
    have hpos := List.count_pos_iff.mpr hip
    have hrefs := h.refs ip
    have hzero : (s.icache ip).ref = 0 := by omega
    obtain ⟨hread, hlive⟩ := h.locked_read hip hv
    rw [hread] at hlink
    exact hs.linked _ hlive (fun hholds => (h.holds_iff hip).mp hholds hzero) hlink
  rw [iput, Prog.ends_bind]
  show Prog.ends (Prog.act _ _) _ _ t
  rw [Prog.ends, if_neg hkeep]
  refine ⟨h.put (h.cached.update href rfl rfl (h.cached.read ip href)) ?_ ?_ (h.kept ip) (h.busy ip)
    fun _ _ => Iff.rfl, inum_putInode rfl⟩
  · have hpos := List.count_pos_iff.mpr hip
    show (t.icache ip).ref - 1 = _
    rw [List.count_erase_self, h.refs]
    omega
  · exact fun jp hj => List.count_erase_of_ne hj

theorem iunlockput_ends {E : String → Prop} (hs : Settled s me) (h : Walk s held (some ip) t)
    (hip : ip ∈ held) :
    (iunlockput me ip).ends (fun _ t' => Walk s (held.erase ip) none t' ∧
      ∀ jp, (t'.icache jp).inum = (t.icache jp).inum) E t := by
  refine Prog.ends_seq (iunlock_ends h hip) ?_
  rintro - t₁ ⟨h₁, hinum₁⟩
  refine Prog.ends_mono (iput_ends hs h₁ hip) ?_ (fun _ he => he)
  exact fun _ _ h₂ => ⟨h₂.1, fun jp => (h₂.2 jp).trans (hinum₁ jp)⟩

/-! ## `namei` -/

theorem lookupFrom_ends {name : List UInt8} {Q : Option (InodePtr × Nat) → State → Prop}
    {E : String → Prop} (ht : (t.icache ip).type ≠ T_DEV)
    (hcov : (t.icache ip).toDInode.Covered t.disk) (hwhole : Dirent.bytes ∣ (t.icache ip).size)
    (fuel : Nat) : ∀ (n k : Nat), n < fuel → k + n = (t.icache ip).size / Dirent.bytes →
    (∀ found, ((List.range' k n).map fun k =>
        (t.icache ip).toDInode.entryAt t.disk (Dirent.bytes * k)).find? (Dirent.matches name) =
          found →
      match found with
      | none => Q none t
      | some de => (iget (t.icache ip).dev de.inum).ends (fun jp t' => ∀ off, Q (some (jp, off)) t')
          E t) →
    (lookupFrom me ip name fuel (Dirent.bytes * k)).ends Q E t := by
  have hsize := Nat.div_mul_cancel hwhole
  induction fuel with
  | zero => exact fun n k hn => absurd hn (Nat.not_lt_zero n)
  | succ fuel ih =>
    intro n k hn hk hQ
    rw [lookupFrom]
    show Prog.ends (if Dirent.bytes * k < (t.icache ip).size then _ else _) _ _ t
    cases n with
    | zero =>
      rw [if_neg]
      · exact hQ none rfl
      · rw [← hsize, ← hk, Nat.mul_comm, Nat.add_zero]
        exact Nat.lt_irrefl _
    | succ n =>
      have hroom : Dirent.bytes * k + Dirent.bytes ≤ (t.icache ip).size := by
        rw [← hsize, ← hk, ← Nat.mul_succ, Nat.mul_comm]
        exact Nat.mul_le_mul_right _ (by omega)
      rw [if_pos (Nat.lt_of_lt_of_le (Nat.lt_add_of_pos_right (by decide)) hroom)]
      refine Prog.ends_bind.mpr (Prog.ends_of_run (readDirent_run ht hcov hroom) ?_)
      rw [List.range'_succ, List.map_cons, List.find?_cons] at hQ
      split
      · next hde =>
          rw [Dirent.matches, decide_eq_true hde] at hQ
          refine Prog.ends_seq (hQ _ rfl) ?_
          exact fun _ _ hall => hall _
      · next hde =>
          rw [Dirent.matches, decide_eq_false hde] at hQ
          rw [← Nat.mul_succ]
          exact ih n (k + 1) (by omega) (by omega) hQ

/-- `dirlookup` takes a reference to the inode of the first entry with the name. -/
theorem dirlookup_ends (hs : Settled s me) (h : Walk s [ip] (some ip) t)
    (hv : (t.icache ip).valid = true) (hdir : (t.icache ip).type = T_DIR) {name : List UInt8} :
    (dirlookup me ip name).ends (fun r t' =>
      match ((dinode s.sb s.disk (t.icache ip).inum).entries s.disk).find?
        (Dirent.matches name) with
      | none => r = none ∧ Walk s [ip] (some ip) t'
      | some de => Room s (some (t.icache ip).inum) de.inum ∧ ∃ jp off, r = some (jp, off) ∧
          Walk s [jp, ip] (some ip) t' ∧ (t'.icache jp).inum = de.inum)
      (fun _ => ∃ de, ((dinode s.sb s.disk (t.icache ip).inum).entries s.disk).find?
        (Dirent.matches name) = some de ∧ ¬ Room s (some (t.icache ip).inum) de.inum) t := by
  have hip := List.mem_singleton_self ip
  obtain ⟨hread, hlive⟩ := h.locked_read hip hv
  have hget := fun n => @iget_ends s t (some ip) (some ip) h (fun _ he => he) n
  simp only [Option.map_some] at hget
  generalize (t.icache ip).inum = n at hread hlive hget
  have hd : (dinode s.sb s.disk n).type = T_DIR := by rw [← hread, hdir]
  rw [dirlookup]
  show Prog.ends (if (t.icache ip).type ≠ T_DIR then _ else _) _ _ t
  rw [if_neg (not_not.mpr hdir), ← Nat.mul_zero Dirent.bytes]
  refine lookupFrom_ends ?_ ?_ ?_ _ ((t.icache ip).size / Dirent.bytes) 0 ?_ (Nat.zero_add _) ?_
  · rw [hdir]
    decide
  · rw [hread, h.disk]
    exact hs.tree.covered n hlive hd
  · have hdvd := hs.tree.whole n hlive hd
    rwa [← hread] at hdvd
  · exact Nat.lt_succ_of_le (Nat.div_le_self ..)
  · rintro found hfound
    rw [← List.range_eq_range', hread, h.disk] at hfound
    change ((dinode s.sb s.disk n).entries s.disk).find? (Dirent.matches name) = found at hfound
    rw [hfound]
    cases found with
    | none => exact ⟨rfl, h⟩
    | some de =>
      have hde := hs.tree.named n hlive hd de (List.mem_of_find?_eq_some hfound)
      rw [h.cached.dev ip (h.pos hip)]
      refine Prog.ends_mono (hget de.inum hde) ?_ fun _ he => ⟨de, rfl, he⟩
      exact fun jp t' hw off => ⟨hw.1, jp, off, rfl, hw.2⟩

/-- From a directory that is locked to the inode of an entry. -/
theorem descend_ends (hs : Settled s me) (h : Walk s [ip] (some ip) t)
    (hv : (t.icache ip).valid = true) (hdir : (t.icache ip).type = T_DIR) {name : List UInt8}
    {α : Type} {k : Option (InodePtr × Nat) → FsM α} {Q : α → State → Prop} {E : String → Prop}
    (hnone : ((dinode s.sb s.disk (t.icache ip).inum).entries s.disk).find?
        (Dirent.matches name) = none →
      ∀ t', Walk s [] none t' → (k none).ends Q E t')
    (hsome : ∀ de, ((dinode s.sb s.disk (t.icache ip).inum).entries s.disk).find?
        (Dirent.matches name) = some de →
      (Room s (some (t.icache ip).inum) de.inum → ∀ jp off t', Walk s [jp] none t' →
        (t'.icache jp).inum = de.inum → (k (some (jp, off))).ends Q E t') ∧
      (¬ Room s (some (t.icache ip).inum) de.inum → ∀ e, E e)) :
    (do
      let next ← dirlookup me ip name
      iunlockput me ip
      k next : FsM α).ends Q E t := by
  have hip := List.mem_singleton_self ip
  refine Prog.ends_seq (Prog.ends_mono (dirlookup_ends hs h hv hdir) (fun _ _ hr => hr) ?_) ?_
  · rintro e ⟨de, hfind, hroom⟩
    exact (hsome de hfind).2 hroom e
  intro r t₂ hr
  cases hfind : ((dinode s.sb s.disk (t.icache ip).inum).entries s.disk).find?
      (Dirent.matches name) with
  | none =>
    rw [hfind] at hr
    obtain ⟨rfl, h₂⟩ := hr
    refine Prog.ends_seq (iunlockput_ends hs h₂ hip) ?_
    rintro - t₃ ⟨h₃, -⟩
    rw [List.erase_cons_head] at h₃
    exact hnone hfind t₃ h₃
  | some de =>
    rw [hfind] at hr
    obtain ⟨hroom, jp, off, rfl, h₂, hjp⟩ := hr
    refine Prog.ends_seq (iunlockput_ends hs h₂ (List.mem_cons_of_mem _ hip)) ?_
    rintro - t₃ ⟨h₃, hsame⟩
    have herase : [jp, ip].erase ip = [jp] := by
      rcases eq_or_ne jp ip with rfl | hj
      · exact List.erase_cons_head ..
      · rw [List.erase_cons_tail (by simpa using hj), List.erase_cons_head]
    rw [herase] at h₃
    exact (hsome de hfind).1 hroom jp off t₃ h₃ ((hsame jp).trans hjp)

/-- What `namei` returns for the inode that the path names. -/
def Found (s : State) : Option Nat → Option InodePtr → State → Prop
  | none, none, t => Walk s [] none t
  | some n, some ip, t => Walk s [ip] none t ∧ (t.icache ip).inum = n
  | _, _, _ => False

theorem walkPath_ends (hs : Settled s me) : ∀ (elems : List (List UInt8 × List UInt8))
    (ip : InodePtr) (last : List UInt8) (t : State), Walk s [ip] none t →
    (walkPath me false elems ip last).ends (fun r t' =>
      Walkable s (elems.map Prod.fst) (t.icache ip).inum ∧
      Found s (resolveFrom s.sb s.disk (elems.map Prod.fst) (t.icache ip).inum)
        (r.map Prod.fst) t')
      (fun _ => ¬ Walkable s (elems.map Prod.fst) (t.icache ip).inum) t
  | [], ip, last, t, h => ⟨trivial, h, rfl⟩
  | (name, rest) :: elems, ip, last, t, h => by
    have hip := List.mem_singleton_self ip
    rw [walkPath, List.map_cons, Walkable]
    refine Prog.ends_seq (Prog.ends_mono (ilock_ends h hip) (fun _ _ h => h)
      fun _ hfree hw => hw.1 hfree) ?_
    rintro - t₁ ⟨h₁, hv, hinum⟩
    obtain ⟨hread, -, hlive⟩ := h₁.locked_read hip hv
    rw [hinum] at hread hlive
    show Prog.ends (if (t₁.icache ip).type ≠ T_DIR then _ else _) _ _ t₁
    rw [hread, resolveFrom]
    split
    · next hdir =>
        refine Prog.ends_seq (iunlockput_ends hs h₁ hip) ?_
        rintro - t₂ ⟨h₂, -⟩
        rw [List.erase_cons_head] at h₂
        exact ⟨⟨hlive, fun hd => absurd hd hdir⟩, h₂⟩
    · next hdir =>
        rw [not_not] at hdir
        rw [if_neg (by simp), if_pos hdir]
        refine descend_ends hs h₁ hv (by rw [hread, hdir]) ?_ ?_
        · intro hfind t₂ h₂
          rw [hinum] at hfind
          rw [hfind]
          exact ⟨⟨hlive, fun _ => nofun⟩, h₂⟩
        · intro de hfind
          rw [hinum] at hfind
          rw [hfind, hinum]
          refine ⟨fun hroom jp off t₂ h₂ hjp => ?_, fun hroom e hw => ?_⟩
          · have hrest := walkPath_ends hs elems jp name t₂ h₂
            rw [hjp] at hrest
            refine Prog.ends_mono hrest ?_ fun _ hno hw => hno (hw.2 hdir de rfl).2
            rintro r t' ⟨hw, hfound⟩
            refine ⟨⟨hlive, fun _ de' hde => ?_⟩, hfound⟩
            cases hde
            exact ⟨hroom, hw⟩
          · exact hroom (hw.2 hdir de rfl).1

theorem startDir_ends (hs : Settled s me) (path : List UInt8) :
    (startDir me path).ends (fun ip t => (path.head? = some slash → Room s none ROOTINO) ∧
        Walk s [ip] none t ∧ s.start me path = some (t.icache ip).inum)
      (fun _ => path.head? = some slash ∧ ¬ Room s none ROOTINO) s := by
  rw [startDir, State.start]
  split
  · next hslash =>
      refine Prog.ends_mono (iget_ends (o := none) hs.walk nofun hs.tree.root.1) ?_
        fun _ he => ⟨hslash, he⟩
      exact fun ip t h => ⟨fun _ => h.1, h.2.1, congrArg some h.2.2.symm⟩
  · next hslash =>
      obtain ⟨cwd, hcwd, href⟩ := hs.cwd
      rw [Prog.ends_bind, Prog.ends_gets, hcwd]
      refine ⟨fun hs => absurd hs hslash, hs.walk.dup href, congrArg some (Eq.symm ?_)⟩
      exact inum_putInode (i := { s.icache cwd with ref := (s.icache cwd).ref + 1 }) rfl cwd

theorem namei_ends (hs : Settled s me) (path : List UInt8) :
    (namei me path).ends (fun r t => s.Walks me path ∧ Found s (s.resolve me path) r t)
      (fun _ => ¬ s.Walks me path) s := by
  rw [namei, namex, Prog.ends_bind]
  refine Prog.ends_seq (Prog.ends_mono (startDir_ends hs path) (fun _ _ h => h)
    fun _ he hw => he.2 (hw.1 he.1)) ?_
  rintro ip t ⟨hroom, h, hstart⟩
  refine Prog.ends_mono (walkPath_ends hs _ ip [] t h) ?_ fun _ hno hw => hno (hw.2 _ hstart)
  intro r t' hr
  rw [State.resolve, hstart]
  refine ⟨⟨hroom, fun n hn => ?_⟩, hr.2⟩
  rw [hstart] at hn
  cases hn
  exact hr.1

/-! ## Transactions -/

theorem Walk.log (h : Walk s held locked t) : t.log = s.log := by rw [h.rest]

end

/-! ## A directory that has been removed -/

def pairDir (nlink block : Nat) : DInode where
  type := T_DIR
  major := 0
  minor := 0
  nlink := nlink
  uid := 0
  gid := 0
  mode := 0
  size := 32
  addrs := fun i => if i = 0 then block else 0

/-- The two entries of an empty directory. -/
def twoEntries (self parent : Nat) : Bytes :=
  Bytes.patch (fun _ => 0) 0 (Dirent.toBytes ⟨self, strncpy DIRSIZ [46]⟩ ++
    Dirent.toBytes ⟨parent, strncpy DIRSIZ [46, 46]⟩)

/-- Inode 1 is the root.  Inode 3 is a directory whose parent was inode 2, which is free. -/
def orphanDisk : Disk := fun b =>
  if b = 32 then putInode (putInode (fun _ => 0) ROOTINO (pairDir 1 34)) 3 (pairDir 0 35)
  else if b = 34 then twoEntries ROOTINO ROOTINO
  else if b = 35 then twoEntries 3 2
  else fun _ => 0

/-- The orphan is the current directory of every process. -/
def orphaned : State where
  sb := smallSb
  disk := orphanDisk
  log := ⟨⟨2, LOGSIZE, LOGSIZE_pos⟩, 0, false, ⟨0, fun _ => 0⟩⟩
  icache := fun ip =>
    if ip = first then ⟨dinode smallSb orphanDisk 3, ROOTDEV, 3, 1, false, true⟩
    else ⟨.zero, 0, 0, 0, false, false⟩
  ftable := fun _ => ⟨.none, 0, false, false, first, 0, 0⟩
  pipes := fun _ => ⟨false, false, 0, 0⟩
  proc := fun _ => ⟨.live, fun _ => none, some first, 0, 0⟩
  initproc := 0
  world := fun _ => 0
  op := fun _ => ⟨false, []⟩

theorem orphaned_live {n : Nat} (h : Live smallSb orphanDisk n) : n = ROOTINO ∨ n = 3 := by
  have hall : ∀ n < smallSb.capacity, (dinode smallSb orphanDisk n).type ≠ 0 →
      n = ROOTINO ∨ n = 3 := by decide +kernel
  exact hall n h.1 h.2

theorem orphaned_used {ip : InodePtr} (h : 0 < (orphaned.icache ip).ref) : ip = first := by
  by_contra hne
  simp [orphaned, hne] at h

theorem orphanDisk_tree : Tree smallSb orphanDisk where
  root := ⟨by decide, by decide +kernel⟩
  covered := by
    intro n hn _
    rcases orphaned_live hn with rfl | rfl <;> exact ⟨by decide +kernel, by decide +kernel⟩
  whole := by
    intro n hn _
    rcases orphaned_live hn with rfl | rfl <;> decide +kernel
  named := by
    intro n hn _
    rcases orphaned_live hn with rfl | rfl <;> decide +kernel

theorem orphaned_settled : Settled orphaned 0 where
  dev := fun ip h => by rw [orphaned_used h]; rfl
  range := fun ip h => by rw [orphaned_used h]; decide
  read := fun ip h _ => by
    rw [orphaned_used h]
    exact ⟨rfl, by decide +kernel⟩
  single := fun ip jp hi hj _ => (orphaned_used hi).trans (orphaned_used hj).symm
  tree := orphanDisk_tree
  idle := fun ip => by
    show (ite _ _ _ : Inode).busy = false
    split <;> rfl
  linked := fun n hn hfree => by
    rcases orphaned_live hn with rfl | rfl
    · decide +kernel
    · exact absurd ⟨first, by decide, rfl⟩ hfree
  cwd := ⟨first, rfl, by decide⟩

theorem orphaned_room (cur : Option Nat) (n : Nat) : Room orphaned cur n :=
  .inr (.inr ⟨⟨1, by decide⟩, by decide, fun _ _ _ => ⟨⟨2, by decide⟩, by decide, by decide⟩⟩)

end Fs

end Xv6Pdx
