/-
# `Fs.Reads` — what the kernel reads of a file

Run alone, on an inode whose blocks are all there, `bmap` finds the block of
`DInode.slot` and changes nothing, `readi` returns the bytes of
`DInode.content`, and `dirlookup` takes the first entry with the name.
-/
import Xv6Pdx.Fs.Model
import Xv6Pdx.Fs.Blocks

namespace Xv6Pdx

open Lib Bytes

/-! ## Names -/

theorem strncmp_eq_zero {n : Nat} {s t : List UInt8} :
    strncmp n s t = 0 ↔ strncpy n s = strncpy n t := by
  induction n generalizing s t with
  | zero => simp [strncmp, strncpy]
  | succ n ih =>
    rw [strncmp, strncpy, strncpy]
    generalize s.headD 0 = a
    generalize t.headD 0 = b
    by_cases hab : a = b
    · subst hab
      by_cases h0 : a = 0
      · simp [h0]
      · simp [h0, ih]
    · have hne : ((a.toNat : Int) - b.toNat) ≠ 0 := by
        intro he
        exact hab (UInt8.toNat_inj.mp (by omega))
      rw [if_neg (fun h => hab h.2)]
      refine iff_of_false hne ?_
      intro he
      by_cases ha : a = 0 <;> by_cases hb : b = 0 <;> simp_all [List.replicate_succ]

theorem strncpy_take (n : Nat) (t : List UInt8) : strncpy n (t.take n) = strncpy n t := by
  induction n generalizing t with
  | zero => rfl
  | succ n ih =>
    cases t with
    | nil => rfl
    | cons a t =>
      show (if a = 0 then _ else a :: strncpy n (t.take n)) = if a = 0 then _ else a :: strncpy n t
      rw [ih]

theorem strncpy_strncpy (n : Nat) (t : List UInt8) : strncpy n (strncpy n t) = strncpy n t := by
  induction n generalizing t with
  | zero => rfl
  | succ n ih =>
    have hstep : ∀ u, strncpy (n + 1) u =
        if u.headD 0 = 0 then List.replicate (n + 1) 0 else u.headD 0 :: strncpy n u.tail :=
      fun _ => rfl
    rw [hstep t]
    split
    · rfl
    · next h => rw [hstep, List.headD_cons, List.tail_cons, if_neg h, ih]

theorem namecmp_strncpy {s t : List UInt8} :
    namecmp s (strncpy DIRSIZ t) = 0 ↔ strncpy DIRSIZ s = strncpy DIRSIZ t := by
  rw [namecmp, strncmp_eq_zero, strncpy_strncpy]

/-- The entry of a directory at `off`. -/
def DInode.entryAt (disk : Disk) (d : DInode) (off : Nat) : Dirent :=
  .ofBytes ((d.content disk).slice off Dirent.bytes)

namespace Fs

open Ptable (ProcPtr)

section

variable {s : State} {me : ProcPtr} {ip : InodePtr}

/-! ## Files -/

theorem getInode_run : (getInode ip).run s = some (.ok (s.icache ip, s)) := rfl

theorem addrOf_run {k : Fin (NDIRECT + 1)} (h : (s.icache ip).addrs k ≠ 0) :
    (addrOf me ip k).run s = some (.ok ((s.icache ip).addrs k, s)) := by
  rw [addrOf, Prog.run_seq getInode_run, if_neg h]
  rfl

theorem bmap_run {bn b : Nat} (hbn : bn < MAXFILE)
    (h : (s.icache ip).toDInode.slot s.disk bn = some b) :
    (bmap me ip bn).run s = some (.ok (b, s)) := by
  rw [DInode.slot] at h
  rw [bmap]
  split
  · next hdir =>
      rw [place_addr hdir] at h
      obtain ⟨rfl, hne⟩ := asBlock_eq_some.mp h
      exact addrOf_run hne
  · next hdir =>
      rw [place_entry hdir] at h
      obtain ⟨c, hc, hb⟩ := Option.bind_eq_some_iff.mp h
      obtain ⟨rfl, hne⟩ := asBlock_eq_some.mp hc
      obtain ⟨rfl, hword⟩ := asBlock_eq_some.mp hb
      rw [DInode.indirect] at hword ⊢
      rw [val_entry hbn] at hword ⊢
      have hlt : bn - NDIRECT < NINDIRECT := by
        simp only [MAXFILE] at hbn
        omega
      rw [if_pos hlt, Prog.run_seq (addrOf_run hne), bread, Prog.run_seq (Prog.run_gets ..),
        if_neg hword]
      rfl

theorem readLoop_run (hcov : (s.icache ip).toDInode.Covered s.disk) :
    ∀ {fuel off n : Nat}, n ≤ fuel → off + n ≤ (s.icache ip).size →
      (readLoop me ip fuel off n).run s =
        some (.ok (((s.icache ip).toDInode.content s.disk).slice off n, s)) := by
  intro fuel
  induction fuel with
  | zero =>
    intro off n hn _
    obtain rfl : n = 0 := Nat.le_zero.mp hn
    rfl
  | succ fuel ih =>
    intro off n hn hsize
    rw [readLoop]
    split
    · next h0 =>
        rw [h0]
        rfl
    · next h0 =>
        have hbn : off / BSIZE < blocksFor (s.icache ip).size := by
          simp only [blocksFor, BSIZE]
          omega
        have hmax : off / BSIZE < MAXFILE := by
          have := hcov.size
          simp only [blocksFor, BSIZE] at this hbn ⊢
          omega
        obtain ⟨b, hb⟩ := Option.ne_none_iff_exists'.mp (hcov.slots _ hbn)
        have hm : 0 < min n (BSIZE - off % BSIZE) ∧ min n (BSIZE - off % BSIZE) ≤ n ∧
            off % BSIZE + min n (BSIZE - off % BSIZE) ≤ BSIZE := by
          simp only [BSIZE]
          omega
        generalize hmin : min n (BSIZE - off % BSIZE) = m at hm
        have hslice : ((s.icache ip).toDInode.content s.disk).slice off m =
            (s.disk b).slice (off % BSIZE) m := by
          refine List.map_congr_left ?_
          intro i hi
          have hk : off % BSIZE + i < BSIZE := by
            have := List.mem_range.mp hi
            omega
          rw [← content_slot hk hb, ← Nat.add_assoc, Nat.div_add_mod']
        rw [Prog.run_seq (bmap_run hmax hb), bread, Prog.run_seq (Prog.run_gets ..)]
        dsimp only
        rw [Prog.run_seq (ih (by omega) (by omega)), Prog.run_pure, ← hslice, ← slice_add,
          Nat.add_sub_cancel' hm.2.1]

theorem readi_run {off n : Nat} (ht : (s.icache ip).type ≠ T_DEV)
    (hcov : (s.icache ip).toDInode.Covered s.disk) (hoff : off + n ≤ (s.icache ip).size) :
    (readi me ip off n).run s =
      some (.ok (some (((s.icache ip).toDInode.content s.disk).slice off n), s)) := by
  have hsize : (s.icache ip).size < 2 ^ 32 := by
    have := hcov.size
    simp only [MAXFILE, NDIRECT, NINDIRECT, BSIZE] at this
    omega
  rw [readi, Prog.run_seq getInode_run, if_neg ht, Nat.mod_eq_of_lt (by omega),
    if_neg (by omega), if_neg (by omega), Prog.run_seq (readLoop_run hcov (Nat.le_refl n) hoff)]
  rfl

/-! ## Directories -/

theorem readDirent_run {off : Nat} {msg : String} (ht : (s.icache ip).type ≠ T_DEV)
    (hcov : (s.icache ip).toDInode.Covered s.disk) (hoff : off + Dirent.bytes ≤ (s.icache ip).size) :
    (readDirent me ip off msg).run s =
      some (.ok ((s.icache ip).toDInode.entryAt s.disk off, s)) := by
  rw [readDirent, Prog.run_seq (readi_run ht hcov hoff)]
  dsimp only
  rw [if_pos (length_slice ..)]
  rfl

/-- A loop over the entries of a directory passes those that it does not look for. -/
theorem scan_run {α : Type} {loop : Nat → Nat → FsM α} {found : Inode → Nat → Dirent → FsM α}
    {done : Nat → FsM α} {p : Dirent → Prop} [DecidablePred p] {msg : String}
    (hstep : ∀ fuel off, loop (fuel + 1) off = do
      let i ← getInode ip
      if off < i.size then do
        let de ← readDirent me ip off msg
        if p de then found i off de else loop fuel (off + Dirent.bytes)
      else done off)
    (ht : (s.icache ip).type ≠ T_DEV) (hcov : (s.icache ip).toDInode.Covered s.disk) {k : Nat}
    (hk : Dirent.bytes * k ≤ (s.icache ip).size)
    (hnot : ∀ j < k, ¬ p ((s.icache ip).toDInode.entryAt s.disk (Dirent.bytes * j))) (fuel : Nat) :
    (loop (fuel + k) 0).run s = (loop fuel (Dirent.bytes * k)).run s := by
  induction k generalizing fuel with
  | zero => rfl
  | succ k ih =>
    have hroom : Dirent.bytes * k + Dirent.bytes ≤ (s.icache ip).size := hk
    have hprev : (loop (fuel + 1 + k) 0).run s = (loop (fuel + 1) (Dirent.bytes * k)).run s :=
      ih (Nat.le_of_add_right_le hroom) (fun j hj => hnot j (Nat.lt_succ_of_lt hj)) _
    rw [Nat.add_succ, ← Nat.succ_add, Nat.succ_eq_add_one, hprev, hstep, Prog.run_seq getInode_run,
      if_pos (Nat.lt_of_lt_of_le (Nat.lt_add_of_pos_right (by decide)) hroom),
      Prog.run_seq (readDirent_run ht hcov hroom), if_neg (hnot k (Nat.lt_succ_self k))]
    rfl

/-- The entry at `off` is for `name`. -/
def Names (d : DInode) (disk : Disk) (name : List UInt8) (off : Nat) : Prop :=
  (d.entryAt disk off).inum ≠ 0 ∧ namecmp name (d.entryAt disk off).name = 0

theorem dirlookup_run {name : List UInt8} {k : Nat} (ht : (s.icache ip).type = T_DIR)
    (hcov : (s.icache ip).toDInode.Covered s.disk)
    (hsize : Dirent.bytes * (k + 1) ≤ (s.icache ip).size)
    (hk : Names (s.icache ip).toDInode s.disk name (Dirent.bytes * k))
    (hfirst : ∀ j < k, ¬ Names (s.icache ip).toDInode s.disk name (Dirent.bytes * j)) :
    (dirlookup me ip name).run s = (do
        let ip' ← iget (s.icache ip).dev
          ((s.icache ip).toDInode.entryAt s.disk (Dirent.bytes * k)).inum
        pure (some (ip', Dirent.bytes * k)) : FsM _).run s := by
  have hdev : (s.icache ip).type ≠ T_DEV := by
    rw [ht]
    decide
  have hroom : Dirent.bytes * k + Dirent.bytes ≤ (s.icache ip).size := hsize
  obtain ⟨fuel, hfuel⟩ : ∃ fuel, (s.icache ip).size + 1 = fuel + 1 + k := by
    refine ⟨(s.icache ip).size - k, ?_⟩
    simp only [Dirent.bytes] at hroom
    omega
  have hpass : (lookupFrom me ip name (fuel + 1 + k) 0).run s =
      (lookupFrom me ip name (fuel + 1) (Dirent.bytes * k)).run s :=
    scan_run (fun _ _ => rfl) hdev hcov (Nat.le_of_add_right_le hroom) hfirst (fuel + 1)
  unfold Names at hk
  rw [dirlookup, Prog.run_seq getInode_run, if_neg (fun h => h ht), hfuel, hpass, lookupFrom,
    Prog.run_seq getInode_run,
    if_pos (Nat.lt_of_lt_of_le (Nat.lt_add_of_pos_right (by decide)) hroom),
    Prog.run_seq (readDirent_run hdev hcov hroom), if_pos hk]

theorem dirlookup_run_none {name : List UInt8} {n : Nat} (ht : (s.icache ip).type = T_DIR)
    (hcov : (s.icache ip).toDInode.Covered s.disk) (hsize : (s.icache ip).size = Dirent.bytes * n)
    (hnot : ∀ j < n, ¬ Names (s.icache ip).toDInode s.disk name (Dirent.bytes * j)) :
    (dirlookup me ip name).run s = some (.ok (none, s)) := by
  have hdev : (s.icache ip).type ≠ T_DEV := by
    rw [ht]
    decide
  obtain ⟨fuel, hfuel⟩ : ∃ fuel, (s.icache ip).size + 1 = fuel + 1 + n := by
    refine ⟨(s.icache ip).size - n, ?_⟩
    simp only [Dirent.bytes] at hsize
    omega
  have hpass : (lookupFrom me ip name (fuel + 1 + n) 0).run s =
      (lookupFrom me ip name (fuel + 1) (Dirent.bytes * n)).run s :=
    scan_run (fun _ _ => rfl) hdev hcov (Nat.le_of_eq hsize.symm) hnot (fuel + 1)
  rw [dirlookup, Prog.run_seq getInode_run, if_neg (fun h => h ht), hfuel, hpass, lookupFrom,
    Prog.run_seq getInode_run, if_neg (Nat.not_lt.mpr (Nat.le_of_eq hsize))]
  rfl

/-! ## The inode cache -/

/-- An inode that is not in the cache gets an entry of its own. -/
theorem iget_run (dev : Nat) {inum : Nat}
    (hnew : ∀ ip, 0 < (s.icache ip).ref → (s.icache ip).inum ≠ inum)
    (hfree : ∃ ip, (s.icache ip).ref = 0) :
    ∃ ip, (s.icache ip).ref = 0 ∧ (iget dev inum).run s = some (.ok (ip, s.putInode ip
      { s.icache ip with dev := dev, inum := inum, ref := 1, busy := false, valid := false })) := by
  have hnone : s.cached dev inum = none := by
    refine List.find?_eq_none.mpr ?_
    intro ip' _
    simp only [decide_eq_true_eq]
    exact fun h => hnew ip' h.1 h.2.2
  cases hslot : s.emptySlot with
  | none =>
    obtain ⟨ip, hip⟩ := hfree
    have := List.find?_eq_none.mp hslot ip (List.mem_finRange ip)
    simp [hip] at this
  | some ip' =>
    have href := List.find?_some hslot
    refine ⟨ip', by simpa using href, ?_⟩
    simp only [iget, Prog.atomic, Prog.run, hnone, hslot]

theorem lockInode_run (href : (s.icache ip).ref = 1) (hbusy : (s.icache ip).busy = false) :
    (lockInode ip).run s = some (.ok ((), s.putInode ip { s.icache ip with busy := true })) := by
  simp [lockInode, Prog.run_bind, Prog.atomic, Prog.run, href, hbusy]

theorem loadInode_run (hvalid : (s.icache ip).valid = false)
    (htype : (dinode s.sb s.disk (s.icache ip).inum).type ≠ 0) :
    (loadInode ip).run s = some (.ok ((), s.putInode ip { s.icache ip with
        toDInode := dinode s.sb s.disk (s.icache ip).inum, valid := true })) := by
  have hcopy : (copyInode ip (IBLOCK s.sb (s.icache ip).inum)).run s = some (.ok
      (dinode s.sb s.disk (s.icache ip).inum, s.putInode ip { s.icache ip with
        toDInode := dinode s.sb s.disk (s.icache ip).inum, valid := true })) := rfl
  rw [loadInode, Prog.run_seq getInode_run, hvalid]
  simp only [Bool.false_eq_true, if_false]
  rw [getSb, Prog.run_seq (Prog.run_gets ..), Prog.run_seq hcopy, when, if_neg htype]
  rfl

theorem ilock_run (href : (s.icache ip).ref = 1) (hbusy : (s.icache ip).busy = false)
    (hvalid : (s.icache ip).valid = false)
    (htype : (dinode s.sb s.disk (s.icache ip).inum).type ≠ 0) :
    (ilock ip).run s = some (.ok ((), s.putInode ip { s.icache ip with
        toDInode := dinode s.sb s.disk (s.icache ip).inum, busy := true, valid := true })) := by
  rw [ilock, Prog.run_seq (lockInode_run href hbusy), loadInode_run (by simpa) (by simpa)]
  simp [State.putInode]

/-- The entry of an inode that has been locked for the first time. -/
def State.loaded (s : State) (dev inum : Nat) : Inode where
  toDInode := dinode s.sb s.disk inum
  dev := dev
  inum := inum
  ref := 1
  busy := true
  valid := true

/-- An inode that is not in the cache is found and locked. -/
theorem iget_ilock_run (dev : Nat) {inum : Nat}
    (hnew : ∀ ip, 0 < (s.icache ip).ref → (s.icache ip).inum ≠ inum)
    (hfree : ∃ ip, (s.icache ip).ref = 0) (htype : (dinode s.sb s.disk inum).type ≠ 0) :
    ∃ ip s₁, (s.icache ip).ref = 0 ∧ (iget dev inum).run s = some (.ok (ip, s₁)) ∧
      (ilock ip).run s₁ = some (.ok ((), s.putInode ip (s.loaded dev inum))) := by
  obtain ⟨ip, hip, hget⟩ := iget_run dev hnew hfree
  refine ⟨ip, _, hip, hget, ?_⟩
  rw [ilock_run (by simp) (by simp) (by simp) (by simpa)]
  simp [State.putInode, State.loaded]

end

end Fs

end Xv6Pdx
