/-
# `Mkfs.Agree` — the kernel reads the disk that `mkfs` has made

The kernel looks a file up in the root directory and reads it with its own
`iget`, `ilock`, `dirlookup` and `readi`, and gets the bytes that were given to
`mkfs`.

`main` gives the root directory a size of a whole number of blocks, and adds one
when there is no need to: with 30 files the directory is said to have two blocks
and has one.  It also does not count its inodes: the inode of the 207th file is
in the block that the bitmap is written over.
-/
import Xv6Pdx.Mkfs.Room
import Xv6Pdx.Fs.Reads

namespace Xv6Pdx.Mkfs

open Lib Bytes
open Ptable (ProcPtr)

/-- A file is found in the root directory and read. -/
def fetch (me : ProcPtr) (name : List UInt8) : Fs.FsM (Option (Fs.Inode × Option (List UInt8))) := do
  let dp ← Fs.iget ROOTDEV ROOTINO
  Fs.ilock dp
  let found ← Fs.dirlookup me dp name
  match found with
  | none => pure none
  | some (ip, _) => do
    Fs.ilock ip
    let i ← Fs.getInode ip
    let bytes ← Fs.readi me ip 0 i.size
    pure (some (i, bytes))

/-- The names in the root directory, as they are stored there, are different. -/
def Distinct (files : List Source) : Prop :=
  ((Fs.dot :: Fs.dotdot :: files.map Source.argv).map (strncpy DIRSIZ)).Nodup

instance (files : List Source) : Decidable (Distinct files) :=
  inferInstanceAs (Decidable (List.Nodup _))

section

variable {m : Image} {files : List Source}

theorem IsFile.slice {disk : Disk} {d : DInode} {body : List UInt8} (h : IsFile disk d body)
    {o n : Nat} (hn : o + n ≤ body.length) : (d.content disk).slice o n = (body.drop o).take n := by
  refine List.ext_getElem (by simp; omega) ?_
  intro i hi hi'
  rw [length_slice] at hi
  have hlt : o + i < body.length := by omega
  have hb := h.bytes (o + i) (Nat.lt_of_lt_of_le hlt h.bound)
  rw [List.getElem?_eq_getElem hlt] at hb
  simpa [Bytes.slice] using hb

theorem Written.type_root (hm : Written m files) : (inodes sb m.disk ROOTINO).type = T_DIR := by
  rw [hm.kinds ROOTINO (by decide), kind, if_neg (by simp only [ROOTINO]; omega), if_pos rfl]

theorem Written.type_file (hm : Written m files) {k : Nat} (hk : k < files.length)
    (hcap : k + 2 < sb.capacity) : (inodes sb m.disk (k + 2)).type = T_FILE := by
  rw [hm.kinds _ hcap, kind, if_neg (by omega), if_neg (by simp only [ROOTINO]; omega)]

theorem bodies_file {k : Nat} (hk : k < files.length) :
    bodies files (k + 2) = files[k].contents := by
  rw [bodies, List.getElem?_eq_getElem hk]
  rfl

theorem mem_entries {e : Nat × List UInt8} (he : e ∈ entries files) :
    e.1 ≠ 0 ∧ e.1 < files.length + 2 := by
  simp only [entries, List.mem_cons, List.mem_mapIdx] at he
  rcases he with rfl | rfl | ⟨k, hk, rfl⟩
  · exact ⟨by decide, by simp only [ROOTINO]; omega⟩
  · exact ⟨by decide, by simp only [ROOTINO]; omega⟩
  · exact ⟨by simp, by simp only; omega⟩

theorem map_snd_entries (files : List Source) :
    (entries files).map Prod.snd = Fs.dot :: Fs.dotdot :: files.map Source.argv := by
  have htail : (files.mapIdx fun k f => (k + 2, f.argv)).map Prod.snd = files.map Source.argv := by
    refine List.ext_getElem (by simp) ?_
    intro k h₁ h₂
    simp
  rw [entries, List.map_cons, List.map_cons, htail]

/-- The entries of the root directory are those that `main` has made. -/
theorem Written.entryAt (hm : Written m files) {k : Nat} (hk : k < (entries files).length) :
    (inodes sb m.disk ROOTINO).entryAt m.disk (Dirent.bytes * k) =
      ⟨(entries files)[k].1, strncpy DIRSIZ (entries files)[k].2⟩ := by
  have hfile := hm.held ROOTINO (Nat.le_refl 1) (by simp only [ROOTINO]; omega) (by decide)
  rw [DInode.entryAt, hfile.slice, Nat.mul_comm]
  · have hd : ((bodies files ROOTINO).drop (k * Dirent.bytes)).take Dirent.bytes =
        dirent (entries files)[k].1 (entries files)[k].2 :=
      take_drop_flatMap (f := fun e => dirent e.1 e.2) (fun e => length_dirent e.1 e.2) hk
    have hlt := (mem_entries (List.getElem_mem hk)).2
    have hfew := hm.few
    rw [wide_eq] at hfew
    rw [hd, dirent, Nat.mod_eq_of_lt (by omega)]
    exact Dirent.ofBytes_toBytes (by simp only; omega) (Dirent.length_strncpy ..)
  · rw [length_root]
    rw [length_entries] at hk
    simp only [Dirent.bytes]
    omega

/-- The name of a file is in its own entry and in no other. -/
theorem Written.names (hm : Written m files) (hd : Distinct files) {j k : Nat}
    (hj : j < (entries files).length) (hk : k < (entries files).length) :
    Fs.Names (inodes sb m.disk ROOTINO) m.disk ((entries files)[k].2.take DIRSIZ)
      (Dirent.bytes * j) ↔ j = k := by
  rw [Fs.Names, hm.entryAt hj, namecmp_strncpy, strncpy_take]
  refine ⟨fun h => ?_, ?_⟩
  · rw [Distinct, ← map_snd_entries, List.map_map] at hd
    have hlen : ∀ {i}, i < (entries files).length →
        i < ((entries files).map (strncpy DIRSIZ ∘ Prod.snd)).length := by simp
    exact (@List.Nodup.getElem_inj_iff _ _ hd _ (hlen hj) _ (hlen hk)).mp (by simpa using h.2.symm)
  · rintro rfl
    exact ⟨(mem_entries (List.getElem_mem hj)).1, rfl⟩

theorem Written.lookup_run (hm : Written m files) (hround : (files.length + 2) % 32 ≠ 0)
    (hd : Distinct files) {s : Fs.State} (hdisk : s.disk = m.disk) (dp : Fs.InodePtr)
    (hdp : (s.icache dp).toDInode = inodes sb m.disk ROOTINO) (me : ProcPtr) {k : Nat}
    (hk : k < files.length) :
    (Fs.dirlookup me dp (files[k].argv.take DIRSIZ)).run s = (do
        let ip ← Fs.iget (s.icache dp).dev (k + 2)
        pure (some (ip, Dirent.bytes * (k + 2))) : Fs.FsM _).run s := by
  have hk₂ : k + 2 < (entries files).length := by
    rw [length_entries]
    omega
  have hentry : (entries files)[k + 2] = (k + 2, files[k].argv) := by simp [entries]
  have hnames := fun j (hj : j < (entries files).length) => hm.names hd hj hk₂
  rw [hentry] at hnames
  have htype : (s.icache dp).type = T_DIR := (congrArg DInode.type hdp).trans hm.type_root
  have hsize : Dirent.bytes * (k + 2 + 1) ≤ (s.icache dp).size := by
    rw [show (s.icache dp).size = _ from congrArg DInode.size hdp, hm.root]
    simp only [rootSize, Dirent.bytes, BSIZE]
    omega
  rw [Fs.dirlookup_run htype (k := k + 2) ?_ hsize ?_ ?_]
  · rw [hdp, hdisk, hm.entryAt hk₂, hentry]
  · rw [hdp, hdisk]
    exact hm.covered hround (by rw [hm.type_root]; decide)
  · rw [hdp, hdisk]
    exact (hnames (k + 2) hk₂).mpr rfl
  · intro j hj
    rw [hdp, hdisk, hnames j (Nat.lt_trans hj hk₂)]
    exact Nat.ne_of_lt hj

/-- The kernel finds the inode that `main` has given to the file, if there is still an inode
in its place, and reads as many bytes as it says. -/
theorem Written.fetch_eq (hm : Written m files) (hround : (files.length + 2) % 32 ≠ 0)
    (hd : Distinct files) {s : Fs.State} (hdisk : s.disk = m.disk) (hsb : s.sb = sb)
    (hcache : ∀ ip, (s.icache ip).ref = 0) (me : ProcPtr) {k : Nat} (hk : k < files.length)
    (hlive : (dinode sb m.disk (k + 2)).type ≠ 0) :
    ∃ ip s', (fetch me (files[k].argv.take DIRSIZ)).run s = (do
        let bytes ← Fs.readi me ip 0 (s'.icache ip).size
        pure (some (s'.icache ip, bytes)) : Fs.FsM _).run s' ∧
      s'.disk = m.disk ∧ (s'.icache ip).toDInode = dinode sb m.disk (k + 2) := by
  have hroot : dinode s.sb s.disk ROOTINO = inodes sb m.disk ROOTINO := by
    rw [hdisk, hsb, inodes_of_lt (by decide)]
  -- the root directory is locked and read
  obtain ⟨dp, s₁, hdp, hget, hlock⟩ := Fs.iget_ilock_run (s := s) ROOTDEV
    (fun ip hip => absurd (hcache ip) (Nat.ne_of_gt hip)) ⟨⟨0, by decide⟩, hcache _⟩
    (by rw [hroot, hm.type_root]; decide)
  generalize hs₂ : s.putInode dp (s.loaded ROOTDEV ROOTINO) = s₂ at hlock
  have hdp₂ : s₂.icache dp = s.loaded ROOTDEV ROOTINO := by
    rw [← hs₂]
    exact Function.update_self ..
  have hrest : ∀ ip, ip ≠ dp → s₂.icache ip = s.icache ip := by
    intro ip hne
    rw [← hs₂]
    exact Function.update_of_ne hne ..
  have hdisk₂ : s₂.disk = m.disk := by rw [← hs₂, ← hdisk]; rfl
  have hsb₂ : s₂.sb = sb := by rw [← hs₂, ← hsb]; rfl
  -- the file is the one of its entry
  obtain ⟨ip, s₃, hip, hget', hlock'⟩ := Fs.iget_ilock_run (s := s₂) ROOTDEV
    (show ∀ ip, _ → _ ≠ k + 2 by
      intro ip hip
      by_cases he : ip = dp
      · rw [he, hdp₂]
        simp only [Fs.State.loaded, ROOTINO]
        omega
      · rw [hrest ip he, hcache ip] at hip
        cases hip)
    (by
      by_cases he : (⟨0, by decide⟩ : Fs.InodePtr) = dp
      · refine ⟨⟨1, by decide⟩, ?_⟩
        rw [hrest _ (by rw [← he]; simp), hcache]
      · exact ⟨⟨0, by decide⟩, by rw [hrest _ he, hcache]⟩)
    (by rw [hsb₂, hdisk₂]; exact hlive)
  have hlook := hm.lookup_run hround hd hdisk₂ dp
    ((congrArg Fs.Inode.toDInode hdp₂).trans hroot) me hk
  rw [show (s₂.icache dp).dev = ROOTDEV by rw [hdp₂]; rfl, Prog.run_seq hget'] at hlook
  refine ⟨ip, s₂.putInode ip (s₂.loaded ROOTDEV (k + 2)), ?_, hdisk₂, ?_⟩
  · rw [fetch, Prog.run_seq hget, Prog.run_seq hlock, Prog.run_seq hlook]
    dsimp only
    rw [Prog.run_seq hlock', Prog.run_seq Fs.getInode_run]
  · rw [show (s₂.putInode ip _).icache ip = _ from Function.update_self .., ← hdisk₂, ← hsb₂]
    rfl

/-- The kernel finds a file by its name and reads what was given to `mkfs`. -/
theorem Finished.fetch_run (hm : Finished m files) (hround : (files.length + 2) % 32 ≠ 0)
    (hd : Distinct files) {s : Fs.State} (hdisk : s.disk = m.disk) (hsb : s.sb = sb)
    (hcache : ∀ ip, (s.icache ip).ref = 0) (me : ProcPtr) {k : Nat} (hk : k < files.length) :
    ∃ i s', (fetch me (files[k].argv.take DIRSIZ)).run s =
      some (.ok (some (i, some files[k].contents), s')) ∧ i.type = T_FILE ∧ s'.disk = s.disk := by
  have hcap : k + 2 < sb.capacity := by
    have := hm.count
    omega
  have htype := hm.written.type_file hk hcap
  have hino : dinode sb m.disk (k + 2) = inodes sb m.disk (k + 2) := (inodes_of_lt hcap).symm
  obtain ⟨ip, s', hrun, hdisk', hip⟩ := hm.written.fetch_eq hround hd hdisk hsb hcache me hk
    (by rw [hino, htype]; decide)
  rw [hino] at hip
  have hbytes := hm.written.held (k + 2) (by omega) (by omega) hcap
  have hsize : (s'.icache ip).size = files[k].contents.length := by
    rw [show (s'.icache ip).size = _ from congrArg DInode.size hip,
      hm.written.sizes k hk hcap, bodies_file hk]
  have htype' : (s'.icache ip).type = T_FILE := (congrArg DInode.type hip).trans htype
  have hread : (Fs.readi me ip 0 (s'.icache ip).size).run s' =
      some (.ok (some files[k].contents, s')) := by
    have hcov : (s'.icache ip).toDInode.Covered s'.disk := by
      rw [hip, hdisk']
      exact hm.written.covered hround (by rw [htype]; decide)
    rw [Fs.readi_run (by rw [htype']; decide) hcov (by omega), hsize, hip, hdisk', hbytes.slice,
      bodies_file hk, List.drop_zero, List.take_length]
    rw [bodies_file hk, Nat.zero_add]
  refine ⟨s'.icache ip, s', ?_, htype', hdisk'.trans hdisk.symm⟩
  rw [hrun, Prog.run_seq hread]
  rfl

/-! ## More files than inodes -/

/-- Where inode 208 would be, the first bit of the bitmap makes its type odd. -/
theorem Written.type_bitmap (hm : Written m files) : (dinode sb m.disk 208).type % 2 = 1 := by
  have hbit := hm.bitmap 0
  have hlow := hm.low
  rw [nmeta_eq] at hlow
  rw [decide_eq_true (by omega)] at hbit
  have hbyte : (m.disk sb.bmapstart 0).toNat % 2 = 1 := by
    simpa [bit, Nat.testBit_zero] using hbit
  have htype : (dinode sb m.disk 208).type =
      (m.disk sb.bmapstart 0).toNat + 256 * decode [m.disk sb.bmapstart 1] := rfl
  omega

/-- The 207th file is not found as a file. -/
theorem Written.fetch_lost (hm : Written m files) (hd : Distinct files) {s : Fs.State}
    (hdisk : s.disk = m.disk) (hsb : s.sb = sb) (hcache : ∀ ip, (s.icache ip).ref = 0)
    (me : ProcPtr) (hk : 206 < files.length) {i : Fs.Inode} {bytes : Option (List UInt8)}
    {s' : Fs.State} (hrun : (fetch me (files[206].argv.take DIRSIZ)).run s =
      some (.ok (some (i, bytes), s'))) : i.type ≠ T_FILE := by
  have hfew := hm.few
  rw [wide_eq] at hfew
  have hodd := hm.type_bitmap
  obtain ⟨ip, s₁, hfetch, -, hip⟩ := hm.fetch_eq (by omega) hd hdisk hsb hcache me hk
    (show (dinode sb m.disk 208).type ≠ 0 by omega)
  rw [hfetch, Prog.run_bind] at hrun
  have hi : i = s₁.icache ip := by
    split at hrun
    · cases hrun
    · cases hrun
    · cases hrun
      rfl
  rw [hi, show (s₁.icache ip).type = _ from congrArg DInode.type hip]
  intro htype
  rw [htype] at hodd
  cases hodd

/-- The blocks are in order, and the kernel finds each file by its name and reads the bytes
that were given. -/
def Agrees (files : List Source) (disk : Disk) : Prop :=
  Consistent sb disk ∧
    (Distinct files → ∀ (s : Fs.State) (me : ProcPtr), s.disk = disk → s.sb = .read (disk 1) →
      (∀ ip, (s.icache ip).ref = 0) → ∀ k (hk : k < files.length),
        ∃ i s', (fetch me (files[k].argv.take DIRSIZ)).run s =
          some (.ok (some (i, some files[k].contents), s')) ∧ i.type = T_FILE ∧
            s'.disk = s.disk)

end

/-- A kernel that has been started on a disk and has done nothing yet. -/
def started (disk : Disk) : Fs.State where
  sb := .read (disk 1)
  disk := disk
  log := ⟨⟨sb.logstart, sb.nlog, LOGSIZE_pos⟩, 0, false, ⟨0, fun _ => 0⟩⟩
  icache := fun _ => ⟨.zero, 0, 0, 0, false, false⟩
  ftable := fun _ => ⟨.none, 0, false, false, 0, 0, 0⟩
  pipes := fun _ => ⟨false, false, 0, 0⟩
  proc := fun _ => ⟨.unused, fun _ => none, none, 0, 0⟩
  initproc := 0
  world := fun _ => 0
  op := fun _ => ⟨false, []⟩

/-- With at most 206 files the kernel reads what `mkfs` was given exactly if their number is
not 30 modulo 32.  With 207 to 214 files of different names it does not. -/
theorem image_agrees_iff {files : List Source} {m : Image} (h : main files = some m) :
    (files.length ≤ 206 → (Agrees files m.disk ↔ files.length % 32 ≠ 30)) ∧
      (206 < files.length → files.length ≤ 214 → Distinct files → ¬ Agrees files m.disk) := by
  constructor
  · intro hcount
    obtain ⟨m₀, hs, rfl⟩ := main_stored h (by rw [wide_eq]; omega)
    have hm := hs.finished (by rw [capacity_eq]; omega)
    constructor
    · rintro ⟨hcons, -⟩ hround
      obtain ⟨htype, hblocks, hnone⟩ := hm.written.hole (by omega)
      exact (hcons.covered ROOTINO (by rw [htype]; decide)).2 _ hblocks hnone
    · intro hround
      refine ⟨hm.consistent (by omega), ?_⟩
      intro hd s me hdisk hsb hcache k hk
      rw [hm.written.super] at hsb
      exact hm.fetch_run (by omega) hd hdisk hsb hcache me hk
  · rintro hmore hcount hd ⟨-, hread⟩
    obtain ⟨m₀, hs, rfl⟩ := main_stored h (by rw [wide_eq]; omega)
    have hm := hs.written
    obtain ⟨i, s', hrun, htype, -⟩ := hread hd (started _) 0 rfl rfl (fun _ => rfl) 206 hmore
    exact hm.fetch_lost hd rfl hm.super (fun _ => rfl) 0 hmore hrun htype

/-- `_cat`, with three bytes in it. -/
def cat : Source := ⟨[underscore, 99, 97, 116], [[1, 2, 3]], by decide +kernel, by decide⟩

theorem cat_agrees : ∃ m, main [cat] = some m ∧ Consistent sb m.disk ∧
    ∃ i s', (fetch ⟨0, by decide⟩ [99, 97, 116]).run (started m.disk) =
      some (.ok (some (i, some [1, 2, 3]), s')) ∧ i.type = T_FILE := by
  obtain ⟨m, h⟩ := main_total (show ∀ f ∈ [cat], f.Accepted by
    intro f hf
    rw [List.mem_singleton.mp hf]
    exact ⟨by decide, by decide⟩) (by decide) (by decide)
  obtain ⟨hcons, hread⟩ := ((image_agrees_iff h).1 (by decide)).mpr (by decide)
  obtain ⟨i, s', hrun, htype, -⟩ := hread (by decide) (started m.disk) ⟨0, by decide⟩ rfl rfl
    (fun _ => rfl) 0 (by decide)
  exact ⟨m, h, hcons, i, s', hrun, htype⟩

/-- Thirty files without contents: `a`, `b` and so on. -/
def thirty : List Source :=
  (List.finRange 30).map fun k : Fin 30 =>
    ⟨[UInt8.ofNat (97 + k)], [], by revert k; decide +kernel, by simp⟩

/-- The root directory of thirty files is said to have a second block, and has none. -/
theorem root_has_hole : ∃ m, main thirty = some m ∧ (inodes sb m.disk ROOTINO).type = T_DIR ∧
    1 < blocksFor (inodes sb m.disk ROOTINO).size ∧
    (inodes sb m.disk ROOTINO).slot m.disk 1 = none := by
  obtain ⟨m, h⟩ := main_total (show ∀ f ∈ thirty, f.Accepted by
    intro f hf
    obtain ⟨k, -, rfl⟩ := List.mem_map.mp hf
    have hname : ∀ k : Fin 30, Fs.slash ∉ [UInt8.ofNat (97 + k)] := by decide
    exact ⟨hname k, Nat.zero_le _⟩) (by decide) (by decide)
  obtain ⟨m₀, hs, rfl⟩ := main_stored h (by decide)
  exact ⟨_, h, hs.written.hole (by decide)⟩

end Xv6Pdx.Mkfs
