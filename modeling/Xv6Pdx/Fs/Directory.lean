/-
# `Fs.Directory` — a directory is a finite map

The entries of a directory are the slots of a table: an entry with inode number zero
is empty, and the others have their name as the key and the inode number as the value.
`dirlink` fills an empty slot or makes a new one, the end of `sys_unlink` clears one,
and `dirlookup` finds a slot by its key.
-/
import Xv6Pdx.Fs.Contents
import Xv6Pdx.Lib.Slots

namespace Xv6Pdx

open Lib Bytes

/-- A name, as it is compared: the bytes up to a NUL, at most `DIRSIZ` of them. -/
def nameKey (name : List UInt8) : List UInt8 := strncpy DIRSIZ name

/-- The key and the value of an entry. -/
def Dirent.slot (de : Dirent) : Option (List UInt8 × Nat) :=
  if de.inum = 0 then none else some (nameKey de.name, de.inum)

namespace Fs

open Ptable (ProcPtr)

def State.slots (s : State) (dp : InodePtr) : Slots (List UInt8) Nat where
  size := (s.file dp).size / Dirent.bytes
  slot := fun k => ((s.file dp).entryAt s.disk (Dirent.bytes * k)).slot

/-- A directory with all its blocks, of whole entries. -/
structure Whole (s : State) (dp : InodePtr) : Prop where
  dir : (s.file dp).type = T_DIR
  covered : (s.file dp).Covered s.disk
  whole : Dirent.bytes ∣ (s.file dp).size

/-- A directory with distinct names, in use; its blocks are its own. -/
structure IsDir (s : State) (dp : InodePtr) : Prop extends IsFile s dp, Whole s dp where
  ref : 0 < (s.icache dp).ref
  distinct : (s.slots dp).Distinct

/-- The part of `sys_unlink` that works on the directory: the entry is looked up and
overwritten with zeros; `false` if there is none. -/
def dirunlink (me : ProcPtr) (dp : InodePtr) (name : List UInt8) : FsM Bool := do
  let found ← dirlookup me dp name
  match found with
  | none => pure false
  | some (ip, off) => do
    let r ← writei me dp off (List.replicate Dirent.bytes 0)
    if r ≠ some Dirent.bytes then panic "unlink: writei"
    else do
      iput me ip
      pure true

section

variable {s s' s'' : State} {me : ProcPtr} {dp : InodePtr} {name : List UInt8} {k v : Nat}

/-! ## Looking for an entry -/

theorem Whole.not_dev (h : Whole s dp) : (s.icache dp).type ≠ T_DEV := by
  have hne : (s.file dp).type ≠ T_DEV := by
    rw [h.dir]
    decide
  exact hne

theorem Whole.size_eq (h : Whole s dp) : (s.icache dp).size = Dirent.bytes * (s.slots dp).size :=
  (Nat.mul_div_cancel' h.whole).symm

theorem Whole.lt_size (h : Whole s dp) (hk : k < (s.slots dp).size) :
    Dirent.bytes * (k + 1) ≤ (s.icache dp).size := by
  rw [h.size_eq]
  exact Nat.mul_le_mul_left _ hk

/-- An entry is for the name if its key is that of the name. -/
theorem names_iff : Names (s.file dp) s.disk name (Dirent.bytes * k) ↔
    ∃ v, (s.slots dp).slot k = some (nameKey name, v) := by
  rw [Names, namecmp, strncmp_eq_zero]
  show _ ↔ ∃ v, Dirent.slot ((s.file dp).entryAt s.disk (Dirent.bytes * k)) = _
  generalize (s.file dp).entryAt s.disk (Dirent.bytes * k) = de
  rw [Dirent.slot]
  constructor
  · rintro ⟨hne, heq⟩
    refine ⟨de.inum, ?_⟩
    rw [if_neg hne, nameKey, nameKey, heq]
  · rintro ⟨v, hv⟩
    split at hv
    · cases hv
    · next hne =>
        rw [Option.some.injEq, Prod.mk.injEq] at hv
        exact ⟨hne, hv.1.symm⟩

theorem inum_of_slot {key : List UInt8} (h : (s.slots dp).slot k = some (key, v)) :
    ((s.file dp).entryAt s.disk (Dirent.bytes * k)).inum = v := by
  change Dirent.slot _ = _ at h
  rw [Dirent.slot] at h
  split at h <;> cases h
  rfl

theorem IsDir.lookup (h : IsDir s dp) (hk : (s.slots dp).Holds k (nameKey name) v) :
    (dirlookup me dp name).run s = (do
        let ip ← iget (s.icache dp).dev v
        pure (some (ip, Dirent.bytes * k)) : FsM _).run s := by
  have hfirst : ∀ j < k, ¬ Names (s.file dp) s.disk name (Dirent.bytes * j) := by
    intro j hj hn
    obtain ⟨w, hw⟩ := names_iff.mp hn
    have he := h.distinct _ _ _ _ _ ⟨hj.trans hk.1, hw⟩ hk
    exact absurd he (Nat.ne_of_lt hj)
  have hrun : (dirlookup me dp name).run s = _ :=
    dirlookup_run h.dir h.covered (h.lt_size hk.1) (names_iff.mpr ⟨v, hk.2⟩) hfirst
  rw [hrun]
  change (do
    let ip ← iget (s.icache dp).dev ((s.file dp).entryAt s.disk (Dirent.bytes * k)).inum
    pure (some (ip, Dirent.bytes * k)) : FsM _).run s = _
  rw [inum_of_slot hk.2]

theorem Whole.lookup_none (h : Whole s dp) (hno : ¬ (s.slots dp).Has (nameKey name)) :
    (dirlookup me dp name).run s = some (.ok (none, s)) := by
  refine dirlookup_run_none h.dir h.covered h.size_eq ?_
  intro j hj hn
  obtain ⟨w, hw⟩ := names_iff.mp hn
  exact hno ⟨j, w, hj, hw⟩

/-- Where `dirlink` puts an entry: the first empty slot, or a new one. -/
structure Place (T : Slots (List UInt8) Nat) (k : Nat) : Prop where
  le : k ≤ T.size
  empty : k < T.size → T.slot k = none
  first : ∀ j < k, T.slot j ≠ none

theorem place_size {T : Slots (List UInt8) Nat} (h : ¬ T.Free) : Place T T.size where
  le := Nat.le_refl _
  empty := fun hlt => absurd hlt (Nat.lt_irrefl _)
  first := fun j hj hj' => h ⟨j, hj, hj'⟩

theorem exists_place (T : Slots (List UInt8) Nat) : ∃ k, Place T k := by
  by_cases hfree : T.Free
  · obtain ⟨hlt, hnone⟩ := Nat.find_spec hfree
    refine ⟨Nat.find hfree, Nat.le_of_lt hlt, fun _ => hnone, fun j hj hj' => ?_⟩
    exact Nat.find_min hfree hj ⟨hj.trans hlt, hj'⟩
  · exact ⟨T.size, place_size hfree⟩

theorem slot_eq_none : (s.slots dp).slot k = none ↔
    ((s.file dp).entryAt s.disk (Dirent.bytes * k)).inum = 0 := by
  show Dirent.slot _ = none ↔ _
  rw [Dirent.slot]
  split <;> simp [*]

theorem Whole.emptyFrom_run (h : Whole s dp) (hk : Place (s.slots dp) k) :
    (emptyFrom me dp ((s.icache dp).size + 1) 0).run s = some (.ok (Dirent.bytes * k, s)) := by
  have hdev := h.not_dev
  have hsize := h.size_eq
  have hle : Dirent.bytes * k ≤ (s.icache dp).size := by
    rw [hsize]
    exact Nat.mul_le_mul_left _ hk.le
  obtain ⟨fuel, hfuel⟩ : ∃ fuel, (s.icache dp).size + 1 = fuel + 1 + k := by
    refine ⟨(s.icache dp).size - k, ?_⟩
    simp only [Dirent.bytes] at hle
    omega
  have hpass : (emptyFrom me dp (fuel + 1 + k) 0).run s =
      (emptyFrom me dp (fuel + 1) (Dirent.bytes * k)).run s :=
    scan_run (fun _ _ => rfl) hdev h.covered hle
      (fun j hj h0 => hk.first j hj (slot_eq_none.mpr h0)) (fuel + 1)
  rw [hfuel, hpass, emptyFrom, Prog.run_seq getInode_run]
  rcases Nat.lt_or_eq_of_le hk.le with hlt | heq
  · have hroom : Dirent.bytes * k + Dirent.bytes ≤ (s.icache dp).size := h.lt_size hlt
    have hempty : ((s.icache dp).toDInode.entryAt s.disk (Dirent.bytes * k)).inum = 0 :=
      slot_eq_none.mp (hk.empty hlt)
    rw [if_pos (Nat.lt_of_lt_of_le (Nat.lt_add_of_pos_right (by decide)) hroom),
      Prog.run_seq (readDirent_run hdev h.covered hroom), if_pos hempty]
    rfl
  · rw [if_neg]
    · rfl
    · rw [hsize, heq]
      exact Nat.lt_irrefl _

/-! ## Writing an entry -/

/-- A written entry is in its slot, and the other slots are as before. -/
theorem Wrote.put (h : IsDir s dp) {src : List UInt8} (hlen : src.length = Dirent.bytes)
    (hk : k ≤ (s.slots dp).size) (hw : Wrote dp (Dirent.bytes * k) src s s') :
    (s.slots dp).Put k (Dirent.ofBytes src).slot (s'.slots dp) := by
  have hsize : (s.file dp).size = Dirent.bytes * (s.slots dp).size := h.size_eq
  have hentry : ∀ j, Dirent.bytes * j + Dirent.bytes ≤ (s'.file dp).size →
      (s'.slots dp).slot j = (Dirent.ofBytes
        (((s.bytes dp).patch (Dirent.bytes * k) src).slice (Dirent.bytes * j) Dirent.bytes)).slot := by
    intro j hj
    have hslice : (s'.bytes dp).slice (Dirent.bytes * j) Dirent.bytes =
        ((s.bytes dp).patch (Dirent.bytes * k) src).slice (Dirent.bytes * j) Dirent.bytes := by
      refine List.map_congr_left fun i hi => hw.bytes _ ?_
      have hi' := List.mem_range.mp hi
      have hcov := hw.file.covered.size
      omega
    show (Dirent.ofBytes ((s'.bytes dp).slice _ _)).slot = _
    rw [hslice]
  have hnew := hw.size
  rw [hlen, hsize] at hnew
  simp only [Dirent.bytes] at hnew hlen hsize hentry ⊢
  refine ⟨?_, hk, ?_, ?_⟩
  · show (s'.file dp).size / 16 = _
    rw [hnew]
    omega
  · rw [hentry k (by omega), ← hlen, slice_patch]
  · intro j hj hne
    rw [hentry j (by omega), slice_patch_of_disjoint (by omega)]
    rfl

theorem IsDir.wrote (h : IsDir s dp) {src : List UInt8} (hlen : src.length = Dirent.bytes)
    (hw : Wrote dp (Dirent.bytes * k) src s s')
    (hd : (s'.slots dp).Distinct) : IsDir s' dp where
  toIsFile := hw.file
  dir := by
    rw [hw.fields]
    exact h.dir
  whole := by
    rw [hw.size, hlen, ← Nat.mul_succ]
    rcases max_choice (s.file dp).size (Dirent.bytes * k.succ) with he | he <;> rw [he]
    · exact h.whole
    · exact Nat.dvd_mul_right ..
  ref := by
    rw [hw.frame.self]
    exact h.ref
  distinct := hd

/-! ## The inode of an entry -/

/-- The directory and the other inodes are as before. -/
structure Same (dp : InodePtr) (s s' : State) : Prop where
  sb : s'.sb = s.sb
  disk : s'.disk = s.disk
  file : s'.file dp = s.file dp
  inum : (s'.icache dp).inum = (s.icache dp).inum
  ref : 0 < (s'.icache dp).ref
  others : s'.others dp = s.others dp

/-- The reference to `ip` is not the last one to an inode that is in use. -/
def Spare (dp : InodePtr) (s : State) (ip : InodePtr) : Prop :=
  2 ≤ (s.icache ip).ref ∨ ip ≠ dp ∧ (s.icache ip).valid = false

theorem Same.trans (h : Same dp s s') (h' : Same dp s' s'') : Same dp s s'' where
  sb := h'.sb.trans h.sb
  disk := h'.disk.trans h.disk
  file := h'.file.trans h.file
  inum := h'.inum.trans h.inum
  ref := h'.ref
  others := h'.others.trans h.others

theorem Same.slots (h : Same dp s s') : s'.slots dp = s.slots dp := by
  rw [State.slots, State.slots, h.file, h.disk]

theorem Same.isDir (h : Same dp s s') (hd : IsDir s dp) : IsDir s' dp where
  type := h.file ▸ hd.type
  fits := h.file ▸ hd.fits
  inum := by
    rw [h.inum, h.sb]
    exact hd.inum
  covered := by
    rw [h.file, h.disk]
    exact hd.covered
  alone := by
    rw [h.sb, h.others, h.disk, h.file]
    exact hd.alone
  dir := h.file ▸ hd.dir
  whole := h.file ▸ hd.whole
  ref := h.ref
  distinct := h.slots ▸ hd.distinct

/-- An entry of the cache is changed in its references. -/
theorem same_put {ip : InodePtr} {i : Inode} (hi : i.toDInode = s.file ip)
    (hdp : ip = dp → i.inum = (s.icache dp).inum ∧ 0 < i.ref) (href : 0 < (s.icache dp).ref)
    (hlive : ip ≠ dp →
      (0 < i.ref ∧ i.valid = true ↔ 0 < (s.icache ip).ref ∧ (s.icache ip).valid = true)) :
    Same dp s (s.putInode ip i) := by
  have hself : (s.putInode ip i).icache ip = i := Function.update_self ..
  have hother : ∀ jp, jp ≠ ip → (s.putInode ip i).icache jp = s.icache jp :=
    fun jp hj => Function.update_of_ne hj ..
  by_cases he : ip = dp
  · subst he
    refine ⟨rfl, rfl, ?_, ?_, ?_, ?_⟩
    · rw [State.file, hself, hi]
    · rw [hself, (hdp rfl).1]
    · rw [hself]
      exact (hdp rfl).2
    · funext e
      rw [State.others, State.others, hself, (hdp rfl).1]
      refine propext (or_congr Iff.rfl (exists_congr fun jp => and_congr_right fun hj => ?_))
      rw [State.file, hother jp hj, State.file]
  · have hdp' := hother dp (Ne.symm he)
    refine ⟨rfl, rfl, ?_, ?_, ?_, ?_⟩
    · rw [State.file, hdp', State.file]
    · rw [hdp']
    · rw [hdp']
      exact href
    · funext e
      rw [State.others, State.others, hdp']
      refine propext (or_congr Iff.rfl (exists_congr fun jp => and_congr_right fun hj => ?_))
      by_cases hjp : jp = ip
      · subst hjp
        rw [State.file, hself, hi, ← and_assoc, ← and_assoc, hlive he]
      · rw [State.file, hother jp hjp, State.file]

/-- `iget` takes a reference that can be dropped again. -/
theorem iget_same (href : 0 < (s.icache dp).ref) (dev : Nat) :
    (iget dev v).ends (fun ip s' => Same dp s s' ∧ Spare dp s' ip ∧ 0 < (s'.icache ip).ref ∧
      (s'.icache ip).inum = v ∧ (s'.icache ip).dev = dev)
      (fun e => e = "iget: no inodes") s := by
  show Prog.ends (Prog.act _ _) _ _ s
  rw [Prog.ends]
  cases hc : s.cached dev v with
  | some ip =>
    have hip := List.find?_some hc
    simp only [decide_eq_true_eq] at hip
    have hself : (s.putInode ip { s.icache ip with ref := (s.icache ip).ref + 1 }).icache ip =
      { s.icache ip with ref := (s.icache ip).ref + 1 } := Function.update_self ..
    refine ⟨same_put rfl ?_ href ?_, .inl ?_, ?_, ?_, ?_⟩
    · rintro rfl
      exact ⟨rfl, Nat.succ_pos _⟩
    · exact fun _ => and_congr_left fun _ => iff_of_true (Nat.succ_pos _) hip.1
    · rw [hself]
      exact Nat.succ_le_succ hip.1
    · rw [hself]
      exact Nat.succ_pos _
    · rw [hself]
      exact hip.2.2
    · rw [hself]
      exact hip.2.1
  | none =>
    cases hs : s.emptySlot with
    | none => rfl
    | some ip =>
      have hip := List.find?_some hs
      simp only [decide_eq_true_eq] at hip
      have hne : ip ≠ dp := by
        rintro rfl
        omega
      have hself : (s.putInode ip { s.icache ip with
          dev := dev, inum := v, ref := 1, busy := false, valid := false }).icache ip = _ :=
        Function.update_self ..
      refine ⟨same_put rfl (fun he => absurd he hne) href ?_, .inr ⟨hne, ?_⟩, ?_, ?_, ?_⟩
      · intro _
        rw [hip]
        simp
      all_goals rw [hself]
      exact Nat.one_pos

theorem iput_same {ip : InodePtr} {E : String → Prop} (href : 0 < (s.icache dp).ref)
    (hspare : Spare dp s ip) (hip : 0 < (s.icache ip).ref) :
    (iput me ip).ends (fun _ s' => Same dp s s') E s := by
  have hkeep : ¬ ((s.icache ip).ref = 1 ∧ (s.icache ip).valid = true ∧
      (s.icache ip).nlink = 0) := by
    rintro ⟨h1, hv, -⟩
    rcases hspare with h2 | ⟨-, hv'⟩
    · omega
    · rw [hv'] at hv
      cases hv
  rw [iput, Prog.ends_bind]
  show Prog.ends (Prog.act _ _) _ _ s
  rw [Prog.ends, if_neg hkeep]
  refine same_put rfl ?_ href ?_
  · rintro rfl
    rcases hspare with h2 | ⟨hne, -⟩
    · exact ⟨rfl, Nat.sub_pos_of_lt h2⟩
    · exact absurd rfl hne
  · intro hne
    refine and_congr_left fun hv => ?_
    rcases hspare with h2 | ⟨-, hv'⟩
    · exact iff_of_true (Nat.sub_pos_of_lt h2) hip
    · rw [show _ = false from hv'] at hv
      cases hv

theorem Spare.frame {ip : InodePtr} (h : Spare dp s ip) (hf : Frame dp s s') : Spare dp s' ip := by
  by_cases he : ip = dp
  · subst he
    rw [Spare, hf.self]
    exact h
  · rw [Spare, hf.other ip he]
    exact h

/-! ## `dirlink` and `dirunlink` -/

/-- What `dirlink` does: nothing if the name is there, and else the name is added. -/
inductive Linked (dp : InodePtr) (name : List UInt8) (inum : Nat) (s : State) : Bool → State → Prop
  | present {s' : State} : (s.slots dp).Has (nameKey name) → Same dp s s' →
      Linked dp name inum s false s'
  | added {s' : State} {k : Nat} : ¬ (s.slots dp).Has (nameKey name) → Place (s.slots dp) k →
      (s.slots dp).Put k (some (nameKey name, inum)) (s'.slots dp) →
      Linked dp name inum s true s'

/-- What a removal does: the name is taken away, if it is there. -/
inductive Unlinked (dp : InodePtr) (name : List UInt8) (s : State) : Bool → State → Prop
  | absent : ¬ (s.slots dp).Has (nameKey name) → Unlinked dp name s false s
  | removed {s' : State} {k v : Nat} : (s.slots dp).Holds k (nameKey name) v →
      (s.slots dp).Put k none (s'.slots dp) → Unlinked dp name s true s'

/-- The directory has its largest size, and no empty entry. -/
def Full (s : State) (dp : InodePtr) : Prop :=
  ¬ (s.slots dp).Free ∧ MAXFILE * BSIZE < (s.file dp).size + Dirent.bytes

theorem length_toBytes (name : List UInt8) (inum : Nat) :
    (Dirent.toBytes ⟨inum, strncpy DIRSIZ name⟩).length = Dirent.bytes := by
  rw [Dirent.toBytes, List.length_append, length_encode, Dirent.length_strncpy]
  rfl

theorem slot_toBytes {inum : Nat} (hpos : 0 < inum) (hlt : inum < 2 ^ 16) :
    (Dirent.ofBytes (Dirent.toBytes ⟨inum, strncpy DIRSIZ name⟩)).slot =
      some (nameKey name, inum) := by
  rw [Dirent.ofBytes_toBytes hlt (Dirent.length_strncpy ..), Dirent.slot, if_neg (Nat.ne_of_gt hpos),
    nameKey, strncpy_strncpy]
  rfl

/-- `dirlink` adds the name, if it is not there.  It stops if the cache, the disk or the
log has no room, or the directory is full. -/
theorem dirlink_ends (h : IsDir s dp) {inum : Nat} (hpos : 0 < inum) (hlt : inum < 2 ^ 16) :
    (dirlink me dp name inum).ends (fun r s' => IsDir s' dp ∧ Linked dp name inum s r s')
      (fun e => e = "iget: no inodes" ∨ e ∈ stops ∨ e = "dirlink" ∧ Full s dp) s := by
  rw [dirlink, Prog.ends_bind]
  by_cases hhas : (s.slots dp).Has (nameKey name)
  · obtain ⟨k, v, hk⟩ := hhas
    rw [Prog.ends_iff_run, h.lookup hk, ← Prog.ends_iff_run]
    refine Prog.ends_seq (Prog.ends_mono (iget_same h.ref _) (fun _ _ hq => hq) ?_) ?_
    · exact fun e he => .inl he
    rintro ip s₁ ⟨hsame, hspare, hip, -, -⟩
    have h₁ := hsame.isDir h
    refine Prog.ends_seq (iput_same h₁.ref hspare hip) ?_
    intro _ s₂ hsame₂
    exact ⟨hsame₂.isDir h₁, .present ⟨k, v, hk⟩ (hsame.trans hsame₂)⟩
  · refine Prog.ends_of_run (h.lookup_none hhas) ?_
    obtain ⟨k, hk⟩ := exists_place (s.slots dp)
    refine Prog.ends_bind.mpr (Prog.ends_of_run getInode_run ?_)
    refine Prog.ends_bind.mpr (Prog.ends_of_run (h.emptyFrom_run hk) ?_)
    have hlen := length_toBytes name inum
    have hsize : (s.file dp).size = Dirent.bytes * (s.slots dp).size := h.size_eq
    have hoff : Dirent.bytes * k ≤ (s.file dp).size := by
      rw [hsize]
      exact Nat.mul_le_mul_left _ hk.le
    rcases Nat.lt_or_ge (MAXFILE * BSIZE) (Dirent.bytes * k + Dirent.bytes) with hfull | hroom
    · have hrun : (writei me dp (Dirent.bytes * k)
          (Dirent.toBytes ⟨inum, strncpy DIRSIZ name⟩)).run s = some (.ok (none, s)) := by
        refine writei_refuses h.not_dev (hoff.trans_lt h.size_lt) ?_ (.inr (.inr ?_)) <;> rw [hlen]
        · decide
        · exact hfull
      refine Prog.ends_bind.mpr (Prog.ends_of_run hrun ?_)
      rw [if_neg (by simp)]
      refine .inr (.inr ⟨rfl, ?_, by omega⟩)
      rintro ⟨j, hj, hempty⟩
      have hcov := h.covered.size
      have hkj : k ≤ j := by
        by_contra hlt
        exact hk.first j (not_le.mp hlt) hempty
      have hmul : Dirent.bytes * (k + 1) ≤ Dirent.bytes * (s.slots dp).size :=
        Nat.mul_le_mul_left _ (Nat.lt_of_le_of_lt hkj hj)
      rw [← hsize, Nat.mul_succ] at hmul
      omega
    · refine Prog.ends_seq (Prog.ends_mono (writei_ends h.toIsFile hoff (hlen.symm ▸ hroom))
        (fun _ _ hq => hq) fun e he => .inr (.inl he)) ?_
      rintro r s₁ ⟨rfl, hw⟩
      have hput := hw.put h hlen hk.le
      rw [slot_toBytes hpos hlt] at hput
      rw [if_pos (by rw [hlen])]
      exact ⟨h.wrote hlen hw (hput.fill_distinct h.distinct hhas), .added hhas hk hput⟩

theorem dirunlink_ends (h : IsDir s dp) :
    (dirunlink me dp name).ends (fun r s' => IsDir s' dp ∧ Unlinked dp name s r s')
      (fun e => e = "iget: no inodes" ∨ e ∈ stops) s := by
  rw [dirunlink, Prog.ends_bind]
  by_cases hhas : (s.slots dp).Has (nameKey name)
  · obtain ⟨k, v, hk⟩ := hhas
    rw [Prog.ends_iff_run, h.lookup hk, ← Prog.ends_iff_run]
    refine Prog.ends_seq (Prog.ends_mono (iget_same h.ref _) (fun _ _ hq => hq) ?_) ?_
    · exact fun e he => .inl he
    rintro ip s₁ ⟨hsame, hspare, hip, -, -⟩
    have h₁ := hsame.isDir h
    have hslots := hsame.slots
    have hkle : k ≤ (s₁.slots dp).size := by
      rw [hslots]
      exact Nat.le_of_lt hk.1
    have hlen : (List.replicate Dirent.bytes (0 : UInt8)).length = Dirent.bytes :=
      List.length_replicate
    have hroom : Dirent.bytes * k + Dirent.bytes ≤ (s₁.file dp).size := by
      rw [hsame.file]
      exact h.lt_size hk.1
    have hcov := h₁.covered.size
    refine Prog.ends_seq (Prog.ends_mono (writei_ends h₁.toIsFile (by omega)
      (hlen.symm ▸ hroom.trans hcov)) (fun _ _ hq => hq) fun e he => .inr he) ?_
    rintro r s₂ ⟨rfl, hw⟩
    have hput := hw.put h₁ hlen hkle
    have hzero : (Dirent.ofBytes (List.replicate Dirent.bytes 0)).slot = none := by decide
    rw [hzero, hslots] at hput
    have h₂ := h₁.wrote hlen hw (hput.clear_distinct h.distinct)
    rw [if_neg (by rw [hlen]; simp)]
    refine Prog.ends_seq (iput_same h₂.ref (hspare.frame hw.frame) ?_) ?_
    · by_cases he : ip = dp
      · subst he
        rw [hw.frame.self]
        exact hip
      · rw [hw.frame.other ip he]
        exact hip
    · intro _ s₃ hsame₃
      exact ⟨hsame₃.isDir h₂, .removed hk (hsame₃.slots ▸ hput)⟩
  · exact Prog.ends_of_run (h.lookup_none hhas) ⟨h, .absent hhas⟩

/-! ## Sequences of changes -/

inductive DirOp where
  | link (name : List UInt8) (inum : Nat)
  | unlink (name : List UInt8)

namespace DirOp

/-- The number is that of an inode, and fits in an entry. -/
def Valid : DirOp → Prop
  | link _ inum => 0 < inum ∧ inum < 2 ^ 16
  | unlink _ => True

def prog (me : ProcPtr) (dp : InodePtr) : DirOp → FsM Bool
  | link name inum => dirlink me dp name inum
  | unlink name => dirunlink me dp name

/-- What the change means for the names. -/
def apply (m : List UInt8 → Option Nat) : DirOp → List UInt8 → Option Nat
  | link name inum => if m (nameKey name) = none then Function.update m (nameKey name) (some inum) else m
  | unlink name => Function.update m (nameKey name) none

/-- The changes one after the other. -/
def runAll (me : ProcPtr) (dp : InodePtr) (ops : List DirOp) : FsM Unit :=
  ops.forM fun op => do
    let _ ← op.prog me dp
    pure ()

end DirOp

theorem Linked.stands {m : List UInt8 → Option Nat} {inum : Nat} {r : Bool}
    (hm : (s.slots dp).Stands m) (h : Linked dp name inum s r s') :
    (s'.slots dp).Stands (DirOp.apply m (.link name inum)) := by
  rw [DirOp.apply]
  cases h with
  | present hhas hsame =>
    rw [if_neg (hm.has.mp hhas), hsame.slots]
    exact hm
  | added hno hk hput =>
    rw [if_pos (not_not.mp (mt hm.has.mpr hno))]
    exact hput.fill_stands hm hno hk.empty

theorem Unlinked.stands {m : List UInt8 → Option Nat} {r : Bool} (hd : (s.slots dp).Distinct)
    (hm : (s.slots dp).Stands m) (h : Unlinked dp name s r s') :
    (s'.slots dp).Stands (DirOp.apply m (.unlink name)) := by
  rw [DirOp.apply]
  cases h with
  | absent hno =>
    rw [← not_not.mp (mt hm.has.mpr hno), Function.update_eq_self]
    exact hm
  | removed hk hput => exact hput.clear_stands hd hm hk

theorem DirOp.prog_ends (h : IsDir s dp) {m : List UInt8 → Option Nat}
    (hm : (s.slots dp).Stands m) {op : DirOp} (hop : op.Valid) :
    (op.prog me dp).ends (fun _ s' => IsDir s' dp ∧ (s'.slots dp).Stands (op.apply m))
      (fun _ => True) s := by
  cases op with
  | link name inum =>
    refine Prog.ends_mono (dirlink_ends h hop.1 hop.2) ?_ fun _ _ => trivial
    exact fun _ _ hq => ⟨hq.1, hq.2.stands hm⟩
  | unlink name =>
    refine Prog.ends_mono (dirunlink_ends h) ?_ fun _ _ => trivial
    exact fun _ _ hq => ⟨hq.1, hq.2.stands h.distinct hm⟩

theorem DirOp.runAll_ends {ops : List DirOp} : ∀ {s : State} {m : List UInt8 → Option Nat},
    IsDir s dp → (s.slots dp).Stands m → (∀ op ∈ ops, op.Valid) →
    (DirOp.runAll me dp ops).ends (fun _ s' => IsDir s' dp ∧
      (s'.slots dp).Stands (ops.foldl DirOp.apply m)) (fun _ => True) s := by
  induction ops with
  | nil => exact fun h hm _ => ⟨h, hm⟩
  | cons op ops ih =>
    intro s m h hm hops
    have hop := hops op List.mem_cons_self
    refine Prog.ends_bind.mpr (Prog.ends_seq (DirOp.prog_ends h hm hop) ?_)
    rintro - s₁ ⟨h₁, hm₁⟩
    exact ih h₁ hm₁ fun op' hmem => hops op' (List.mem_cons_of_mem _ hmem)

/-- `dirlookup` finds the inode that the name stands for, at the offset of its entry. -/
theorem IsDir.lookup_ends (h : IsDir s dp) {m : List UInt8 → Option Nat}
    (hm : (s.slots dp).Stands m) (name : List UInt8) :
    (dirlookup me dp name).ends (fun r s' =>
      match m (nameKey name) with
      | none => r = none
      | some v => ∃ ip k, r = some (ip, Dirent.bytes * k) ∧ (s.slots dp).Holds k (nameKey name) v ∧
          (s'.icache ip).inum = v ∧ (s'.icache ip).dev = (s.icache dp).dev)
      (fun e => e = "iget: no inodes") s := by
  cases hv : m (nameKey name) with
  | none =>
    refine Prog.ends_of_run (h.lookup_none ?_) rfl
    exact fun hhas => hm.has.mp hhas hv
  | some v =>
    obtain ⟨k, hk⟩ := (hm _ _).mp hv
    rw [Prog.ends_iff_run, h.lookup hk, ← Prog.ends_iff_run]
    refine Prog.ends_seq (iget_same h.ref _) ?_
    rintro ip s' ⟨-, -, -, hinum, hdev⟩
    exact ⟨ip, k, rfl, hk, hinum, hdev⟩

/-- What a `dirlink` returns, and what it leaves as it was. -/
structure LinkStep (dp : InodePtr) (name : List UInt8) (s : State) (r : Bool) (s' : State) :
    Prop where
  refused : r = false ↔ (s.slots dp).Has (nameKey name)
  unchanged : r = false → s'.file dp = s.file dp ∧ s'.disk = s.disk
  others : ∀ key, key ≠ nameKey name → ∀ k v, (s'.slots dp).Holds k key v ↔ (s.slots dp).Holds k key v
  grows : (s'.file dp).size ≠ (s.file dp).size → ¬ (s.slots dp).Free

theorem Linked.step (h : IsDir s dp) (h' : IsDir s' dp) {inum : Nat} {r : Bool}
    (hl : Linked dp name inum s r s') : LinkStep dp name s r s' := by
  cases hl with
  | present hhas hsame =>
    refine ⟨iff_of_true rfl hhas, fun _ => ⟨hsame.file, hsame.disk⟩, ?_, ?_⟩
    · intro key _ k v
      rw [hsame.slots]
    · exact fun hne => absurd (congrArg DInode.size hsame.file) hne
  | added hno hk hput =>
    refine ⟨iff_of_false Bool.noConfusion hno, nofun, ?_, ?_⟩
    · intro key hkey j v
      rename_i k
      by_cases hj : j = k
      · subst hj
        rw [hput.holds_self]
        constructor
        · intro he
          cases he
          exact absurd rfl hkey
        · rintro ⟨hlt, hs⟩
          rw [hk.empty hlt] at hs
          cases hs
      · exact hput.holds_of_ne hj
    · rintro hne ⟨j, hj, hempty⟩
      refine hne ?_
      have hkj := Nat.le_of_not_lt fun hlt => hk.first j hlt hempty
      have hsize := hput.size
      have hs : (s.file dp).size = Dirent.bytes * (s.slots dp).size := h.size_eq
      have hs' : (s'.file dp).size = Dirent.bytes * (s'.slots dp).size := h'.size_eq
      rw [hs, hs', hsize, max_eq_left]
      omega

/-- What a removal leaves as it was. -/
structure UnlinkStep (dp : InodePtr) (name : List UInt8) (s s' : State) : Prop where
  others : ∀ key, key ≠ nameKey name → ∀ k v, (s'.slots dp).Holds k key v ↔ (s.slots dp).Holds k key v
  size : (s'.file dp).size = (s.file dp).size

theorem Unlinked.step (h : IsDir s dp) (h' : IsDir s' dp) {r : Bool}
    (hu : Unlinked dp name s r s') : UnlinkStep dp name s s' := by
  cases hu with
  | absent hno => exact ⟨fun _ _ _ _ => Iff.rfl, rfl⟩
  | removed hk hput =>
    rename_i k v
    refine ⟨fun key hkey j w => ?_, ?_⟩
    · by_cases hj : j = k
      · subst hj
        rw [hput.holds_self]
        simp only [reduceCtorEq, false_iff]
        exact fun hw => hkey (hw.inj hk).1
      · exact hput.holds_of_ne hj
    · have hs : (s.file dp).size = Dirent.bytes * (s.slots dp).size := h.size_eq
      have hs' : (s'.file dp).size = Dirent.bytes * (s'.slots dp).size := h'.size_eq
      rw [hs, hs', hput.size, max_eq_left]
      exact hk.1

/-- After any changes that do not panic a directory stands for the map after these changes, and
`dirlookup`, `dirlink` and the removal of a name do what they should to it. -/
theorem directory_map (h : IsDir s dp) {m : List UInt8 → Option Nat}
    (hm : (s.slots dp).Stands m) (ops : List DirOp) (hops : ∀ op ∈ ops, op.Valid) :
    (DirOp.runAll me dp ops).ends (fun _ s' =>
      ((s'.slots dp).Distinct ∧ Dirent.bytes ∣ (s'.file dp).size) ∧
      (s'.slots dp).Stands (ops.foldl DirOp.apply m) ∧
      (∀ name, (dirlookup me dp name).ends (fun r t =>
        match ops.foldl DirOp.apply m (nameKey name) with
        | none => r = none
        | some v => ∃ ip k, r = some (ip, Dirent.bytes * k) ∧
            (s'.slots dp).Holds k (nameKey name) v ∧
            (t.icache ip).inum = v ∧ (t.icache ip).dev = (s'.icache dp).dev)
        (fun e => e = "iget: no inodes") s') ∧
      (∀ name inum, 0 < inum → inum < 2 ^ 16 →
        (dirlink me dp name inum).ends (LinkStep dp name s') (fun _ => True) s') ∧
      ∀ name, (dirunlink me dp name).ends (fun _ => UnlinkStep dp name s') (fun _ => True) s')
      (fun _ => True) s := by
  refine Prog.ends_mono (DirOp.runAll_ends h hm hops) ?_ fun _ _ => trivial
  rintro - s' ⟨h', hm'⟩
  refine ⟨⟨h'.distinct, h'.whole⟩, hm', h'.lookup_ends hm', fun name inum hpos hlt => ?_, fun name => ?_⟩
  · refine Prog.ends_mono (dirlink_ends h' hpos hlt) ?_ fun _ _ => trivial
    exact fun _ _ hq => hq.2.step h' hq.1
  · refine Prog.ends_mono (dirunlink_ends h') ?_ fun _ _ => trivial
    exact fun _ _ hq => hq.2.step h' hq.1

end

/-! ## A directory with one entry -/

/-- The file of one block as a directory; its entry is empty. -/
def smallDir : DInode := { smallFile with type := T_DIR, size := Dirent.bytes }

def oneDir : State :=
  { oneFile 0 with
    icache := fun ip => if ip = first then ⟨smallDir, 1, 1, 1, true, true⟩
      else ⟨.zero, 0, 0, 0, false, false⟩ }

theorem oneDir_others (e : DInode) : ¬ oneDir.others first e := by
  rintro (⟨j, -, rfl, ht⟩ | ⟨jp, hj, href, -⟩)
  · exact ht (small_type j)
  · simp [oneDir, hj] at href

theorem oneDir_empty (k : Nat) (h : k < (oneDir.slots first).size) :
    (oneDir.slots first).slot k = none := by
  obtain rfl : k = 0 := Nat.lt_one_iff.mp h
  rfl

theorem oneDir_isDir : IsDir oneDir first where
  type := .inr rfl
  fits := ⟨by decide, by decide, by decide, by decide, by decide, by decide, by decide, by decide,
    small_fits.addrs⟩
  inum := (by decide : 1 < smallSb.capacity)
  covered := by
    have hslots : ∀ bn < blocksFor smallDir.size, smallDir.slot smallDisk bn ≠ none := by decide
    exact ⟨(by decide : smallDir.size ≤ MAXFILE * BSIZE), hslots⟩
  alone := (small_alone oneDir_others).of_addrs rfl
  dir := rfl
  whole := Nat.dvd_refl _
  ref := Nat.one_pos
  distinct := by
    rintro i j key v w ⟨hi, hv⟩
    rw [oneDir_empty i hi] at hv
    cases hv

/-- Two names are linked, the first a second time, and it is then removed. -/
def someOps : List DirOp := [.link [97] 1, .link [98] 2, .link [97] 3, .unlink [97]]

theorem some_linked : ∃ s', (DirOp.runAll 0 first someOps).run oneDir = some (.ok ((), s')) ∧
    (s'.slots first).Distinct ∧ (s'.slots first).Has (nameKey [98]) ∧
    ¬ (s'.slots first).Has (nameKey [97]) ∧
    (dirlink 0 first [98] 4).ends (fun r t => r = false ∧ t.disk = s'.disk) (fun _ => True) s' := by
  have hm : (oneDir.slots first).Stands fun _ => none := by
    refine fun key v => ⟨nofun, ?_⟩
    rintro ⟨i, hi, hv⟩
    rw [oneDir_empty i hi] at hv
    cases hv
  have hvalid : ∀ op ∈ someOps, op.Valid := by
    rintro op (_ | ⟨_, _ | ⟨_, _ | ⟨_, _ | ⟨_, ⟨⟩⟩⟩⟩⟩)
    · exact ⟨by decide, by decide⟩
    · exact ⟨by decide, by decide⟩
    · exact ⟨by decide, by decide⟩
    · trivial
  have hends : (DirOp.runAll 0 first someOps).ends _ _ oneDir :=
    directory_map oneDir_isDir hm _ hvalid
  rcases Prog.ends_iff_run.mp hends with ⟨_, s', hrun, ⟨hd, -⟩, hm', -, hlink, -⟩ | ⟨e, hrun, -⟩
  · have hhas : (s'.slots first).Has (nameKey [98]) := hm'.has.mpr (by decide)
    refine ⟨s', hrun, hd, hhas, fun ha => hm'.has.mp ha (by decide), ?_⟩
    refine Prog.ends_mono (hlink [98] 4 (by decide) (by decide)) ?_ fun _ he => he
    intro r t hl
    exact ⟨hl.refused.mpr hhas, (hl.unchanged (hl.refused.mpr hhas)).2⟩
  · cases hrun

end Fs

end Xv6Pdx
