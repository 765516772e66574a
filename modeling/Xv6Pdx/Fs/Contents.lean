/-
# `Fs.Contents` — a file is an array of bytes

`writei` goes through the blocks of a range and allocates those that are missing;
`readi` goes through them in the same way.  The programs are run alone here, on an
inode whose blocks are its own.  `writei` ends by returning, or in a panic of `balloc`
or of the log.
-/
import Xv6Pdx.Fs.Alone
import Xv6Pdx.Fs.Reads

namespace Xv6Pdx

open Lib Bytes
open Function (update update_self update_of_ne update_eq_self)

namespace Fs

open Ptable (ProcPtr)

/-! ## `balloc` and `bmap` -/

/-- Where `writei` may stop: the disk is full, the log is full, or there is no
transaction. -/
def stops : List String :=
  ["balloc: out of blocks", "too big a transaction", "log_write outside of trans"]

/-- Nothing is changed but the disk, the log and the inode `ip` on its way to the disk. -/
structure Frame (ip : InodePtr) (s s' : State) : Prop where
  sb : s'.sb = s.sb
  ftable : s'.ftable = s.ftable
  pipes : s'.pipes = s.pipes
  proc : s'.proc = s.proc
  initproc : s'.initproc = s.initproc
  world : s'.world = s.world
  other : ∀ jp, jp ≠ ip → s'.icache jp = s.icache jp
  self : s'.icache ip = { s.icache ip with toDInode := (s'.icache ip).toDInode }

def State.file (s : State) (ip : InodePtr) : DInode := (s.icache ip).toDInode

def State.bytes (s : State) (ip : InodePtr) : Bytes := (s.file ip).content s.disk

/-- The blocks of the file may have become more; its bytes are the same. -/
structure Mapped (others : DInode → Prop) (ip : InodePtr) (s s' : State) : Prop where
  frame : Frame ip s s'
  kept : Kept s.sb others s.disk (s.file ip) s'.disk (s'.file ip)
  bytes : s'.bytes ip = s.bytes ip

section

variable {others : DInode → Prop} {s s' s'' : State} {me : ProcPtr} {ip : InodePtr}

theorem Frame.refl (ip : InodePtr) (s : State) : Frame ip s s :=
  ⟨rfl, rfl, rfl, rfl, rfl, rfl, fun _ _ => rfl, rfl⟩

theorem Frame.trans (h : Frame ip s s') (h' : Frame ip s' s'') : Frame ip s s'' where
  sb := h'.sb.trans h.sb
  ftable := h'.ftable.trans h.ftable
  pipes := h'.pipes.trans h.pipes
  proc := h'.proc.trans h.proc
  initproc := h'.initproc.trans h.initproc
  world := h'.world.trans h.world
  other := fun jp hj => (h'.other jp hj).trans (h.other jp hj)
  self := by rw [h'.self, h.self]

/-- The disk, the log and the inode change. -/
def State.grow (s : State) (ip : InodePtr) (disk : Disk) (l : Log) (op : ProcPtr → Op)
    (d : DInode) : State :=
  { s with
    disk := disk
    log := l
    op := op
    icache := update s.icache ip { s.icache ip with toDInode := d } }

@[simp] theorem State.file_grow (ip : InodePtr) (disk : Disk) (l : Log) (op : ProcPtr → Op)
    (d : DInode) : (s.grow ip disk l op d).file ip = d := by
  simp [State.grow, State.file]

@[simp] theorem State.inum_grow (ip : InodePtr) (disk : Disk) (l : Log) (op : ProcPtr → Op)
    (d : DInode) : ((s.grow ip disk l op d).icache ip).inum = (s.icache ip).inum := by
  simp [State.grow]

theorem Frame.grow (ip : InodePtr) (disk : Disk) (l : Log) (op : ProcPtr → Op) (d : DInode) :
    Frame ip s (s.grow ip disk l op d) := by
  refine ⟨rfl, rfl, rfl, rfl, rfl, rfl, fun jp hj => update_of_ne hj .., ?_⟩
  simp [State.grow]

theorem State.grow_self (ip : InodePtr) (disk : Disk) (l : Log) (op : ProcPtr → Op) :
    s.grow ip disk l op (s.file ip) = { s with disk := disk, log := l, op := op } := by
  simp [State.grow, State.file]

theorem Mapped.refl (h : Alone s.sb others s.disk (s.file ip)) : Mapped others ip s s :=
  ⟨.refl ip s, .refl h, rfl⟩

theorem Mapped.gain (h : Alone s.sb others s.disk (s.file ip)) {r : Ref} {b : Nat} {disk : Disk}
    {d : DInode} (g : Gain s.sb s.disk (s.file ip) r b disk d) (l : Log) (op : ProcPtr → Op) :
    Mapped others ip s (s.grow ip disk l op d) where
  frame := .grow ip disk l op d
  kept := by
    rw [State.file_grow]
    exact g.kept h
  bytes := by
    rw [State.bytes, State.file_grow]
    exact g.content h

theorem Mapped.trans (h : Mapped others ip s s') (h' : Mapped others ip s' s'') :
    Mapped others ip s s'' where
  frame := h.frame.trans h'.frame
  kept := h.kept.trans (h.frame.sb ▸ h'.kept)
  bytes := h'.bytes.trans h.bytes

theorem logWrite_ends (b : Nat) : (logWrite me b).ends
    (fun _ s' => ∃ l op, s' = { s with log := l, op := op }) (fun e => e ∈ stops) s := by
  rw [logWrite, Prog.ends_bind]
  show Prog.ends (Prog.act _ _) _ _ s
  rw [Prog.ends]
  cases hc : s.log.check with
  | error e =>
    show e ∈ stops
    rw [Log.check] at hc
    split_ifs at hc <;> cases hc <;> simp [stops]
  | ok u => exact ⟨_, _, rfl⟩

theorem withBlock_ends {α : Type} {Q : α → State → Prop} {E : String → Prop} {b : Nat} {a : α}
    {d : Block} {f : Block → Except String (α × Block)} (hf : f (s.disk b) = .ok (a, d))
    (hq : Q a (s.putBlock b d)) : (withBlock b f).ends Q E s := by
  show Prog.ends (Prog.act _ _) _ _ s
  rw [Prog.ends, hf]
  exact hq

theorem bzero_ends (b : Nat) : (bzero me b).ends (fun _ s' => ∃ l op, s' =
    { s with disk := update s.disk b fun _ => 0, log := l, op := op })
    (fun e => e ∈ stops) s := by
  rw [bzero]
  refine Prog.ends_bind.mpr (withBlock_ends rfl ?_)
  refine Prog.ends_mono (logWrite_ends b) ?_ (fun _ he => he)
  rintro _ _ ⟨l, op, rfl⟩
  exact ⟨l, op, rfl⟩

theorem takeFree_some {sb : Superblock} {b c : Nat} {d d' : Block}
    (h : takeFree sb b d = (some c, d')) :
    ∃ bi, c = b + bi ∧ bi < BPB ∧ c < sb.size ∧ bit d bi = false ∧ d' = setBit d bi true := by
  rw [takeFree] at h
  split at h
  · cases h
  · next bi hfind =>
      cases h
      have hmem := List.mem_range.mp (List.mem_of_find?_eq_some hfind)
      have hbit := List.find?_some hfind
      refine ⟨bi, rfl, by omega, by omega, by simpa using hbit, rfl⟩

theorem takeFree_none {sb : Superblock} {b : Nat} {d d' : Block}
    (h : takeFree sb b d = (none, d')) : d' = d := by
  rw [takeFree] at h
  split at h
  · cases h
    rfl
  · cases h

/-- What `balloc` returns was free; it is marked and cleared. -/
theorem ballocFrom_ends (hlow : ∀ b < s.sb.dataStart, inUse s.sb s.disk b = true) :
    ∀ ks : List Nat, (ballocFrom me s.sb ks).ends (fun b s' =>
      (s.sb.dataStart ≤ b ∧ b < s.sb.size ∧ inUse s.sb s.disk b = false) ∧
      ∃ l op, s' = { s with disk := allocate s.sb s.disk b, log := l, op := op })
      (fun e => e ∈ stops) s
  | [] => by
    show _ ∈ stops
    simp [stops]
  | k :: ks => by
    rw [ballocFrom, Prog.ends_bind]
    cases htake : takeFree s.sb (k * BPB) (s.disk (BBLOCK s.sb (k * BPB))) with
    | mk found d' =>
      refine withBlock_ends (a := found) (d := d') (by rw [htake]) ?_
      cases found with
      | none =>
        have hsame : s.putBlock (BBLOCK s.sb (k * BPB)) d' = s := by
          rw [takeFree_none htake, State.putBlock, update_eq_self]
        rw [hsame]
        exact ballocFrom_ends hlow ks
      | some b =>
        obtain ⟨bi, rfl, hbi, hsize, hbit, rfl⟩ := takeFree_some htake
        have hpos : 0 < BPB := by decide
        have hblock : BBLOCK s.sb (k * BPB + bi) = BBLOCK s.sb (k * BPB) := by
          rw [BBLOCK, BBLOCK, Nat.mul_comm, Nat.mul_add_div hpos, Nat.div_eq_of_lt hbi,
            Nat.mul_div_cancel_left _ hpos]
          rfl
        have hmod : (k * BPB + bi) % BPB = bi := by
          rw [Nat.mul_add_mod', Nat.mod_eq_of_lt hbi]
        have hfree : inUse s.sb s.disk (k * BPB + bi) = false := by
          rw [inUse, hblock, hmod]
          exact hbit
        have hdata : s.sb.dataStart ≤ k * BPB + bi := by
          by_contra hlt
          rw [hlow _ (not_le.mp hlt)] at hfree
          cases hfree
        refine Prog.ends_seq (logWrite_ends _) ?_
        rintro _ _ ⟨l, op, rfl⟩
        refine Prog.ends_seq (bzero_ends _) ?_
        rintro _ _ ⟨l', op', rfl⟩
        refine ⟨⟨hdata, hsize, hfree⟩, l', op', ?_⟩
        rw [allocate, hblock, hmod]
        rfl

theorem balloc_ends (hlow : ∀ b < s.sb.dataStart, inUse s.sb s.disk b = true) :
    (balloc me).ends (fun b s' =>
      (s.sb.dataStart ≤ b ∧ b < s.sb.size ∧ inUse s.sb s.disk b = false) ∧
      ∃ l op, s' = { s with disk := allocate s.sb s.disk b, log := l, op := op })
      (fun e => e ∈ stops) s :=
  ballocFrom_ends hlow _

theorem addrOf_ends (h : Alone s.sb others s.disk (s.file ip)) (k : Fin (NDIRECT + 1)) :
    (addrOf me ip k).ends (fun b s' => Mapped others ip s s' ∧ (s'.file ip).addrs k = b ∧ b ≠ 0)
      (fun e => e ∈ stops) s := by
  rw [addrOf]
  show Prog.ends (if (s.file ip).addrs k = 0 then _ else _) _ _ s
  split
  · next hk =>
      refine Prog.ends_seq (balloc_ends h.low) ?_
      rintro b _ ⟨hb, l, op, rfl⟩
      have hds := h.laid.dataStart_gt
      refine ⟨.gain h (gain_addr h hk hb) l op, ?_, ?_⟩
      · show ((s.grow ip _ l op ((s.file ip).setAddr k b)).file ip).addrs k = b
        rw [State.file_grow]
        exact update_self ..
      · show b ≠ 0
        omega
  · next hk => exact ⟨.refl h, rfl, hk⟩

theorem Mapped.alone (h : Mapped others ip s s') : Alone s'.sb others s'.disk (s'.file ip) :=
  h.frame.sb ▸ h.kept.alone

theorem bmap_ends (h : Alone s.sb others s.disk (s.file ip)) {bn : Nat} (hbn : bn < MAXFILE) :
    (bmap me ip bn).ends (fun b s' => Mapped others ip s s' ∧
      (s'.file ip).slot s'.disk bn = some b) (fun e => e ∈ stops) s := by
  rw [bmap]
  split
  · next hdir =>
      refine Prog.ends_mono (addrOf_ends h _) ?_ (fun _ he => he)
      rintro b s' ⟨hmap, hk, hne⟩
      refine ⟨hmap, ?_⟩
      rw [DInode.slot, place_addr hdir, DInode.block, hk]
      exact asBlock_of_ne hne
  · next hdir =>
      have hlt : bn - NDIRECT < NINDIRECT := by
        simp only [MAXFILE] at hbn
        omega
      rw [if_pos hlt]
      refine Prog.ends_seq (addrOf_ends h _) ?_
      rintro ind s₁ ⟨hmap, rfl, hne⟩
      have h₁ := hmap.alone
      have hind : (s₁.file ip).indirect ≠ 0 := hne
      have hslot : (s₁.file ip).slot s₁.disk bn =
          asBlock ((s₁.disk (s₁.file ip).indirect).word (bn - NDIRECT)) := by
        rw [DInode.slot, place_entry hdir, DInode.block, asBlock_of_ne hind, Option.bind_some,
          val_entry hbn]
      show Prog.ends (if (s₁.disk (s₁.file ip).indirect).word (bn - NDIRECT) = 0 then _ else _)
        _ _ s₁
      split
      · next hword =>
          refine Prog.ends_seq (balloc_ends h₁.low) ?_
          rintro b _ ⟨hb, l, op, rfl⟩
          have hj : (s₁.disk (s₁.file ip).indirect).word
              (Fin.ofNat NINDIRECT (bn - NDIRECT)).val = 0 := by rw [val_entry hbn, hword]
          have hgain := gain_entry h₁ hind hj hb
          rw [val_entry hbn] at hgain
          refine Prog.ends_bind.mpr (withBlock_ends rfl ?_)
          refine Prog.ends_seq (logWrite_ends _) ?_
          rintro _ _ ⟨l', op', rfl⟩
          have hres := Mapped.gain h₁ hgain l' op'
          rw [State.grow_self] at hres
          refine ⟨hmap.trans hres, ?_⟩
          have hblock := hgain.block (place bn)
          rw [if_pos (place_entry hdir)] at hblock
          exact hblock
      · next hword =>
          refine ⟨hmap, ?_⟩
          rw [hslot]
          exact asBlock_of_ne hword

/-! ## `writei` -/

/-- What has been written up to now. -/
structure Written (others : DInode → Prop) (ip : InodePtr) (off : Nat) (src : List UInt8)
    (s s' : State) : Prop where
  frame : Frame ip s s'
  kept : Kept s.sb others s.disk (s.file ip) s'.disk (s'.file ip)
  bytes : ∀ o, o / BSIZE < MAXFILE → s'.bytes ip o = (s.bytes ip).patch off src o
  slots : ∀ o, off ≤ o → o < off + src.length → (s'.file ip).slot s'.disk (o / BSIZE) ≠ none

theorem Written.nil (h : Alone s.sb others s.disk (s.file ip)) (off : Nat) :
    Written others ip off [] s s where
  frame := .refl ip s
  kept := .refl h
  bytes := fun o _ => by rw [patch_nil]
  slots := fun o h₁ h₂ => absurd h₂ (Nat.not_lt.mpr h₁)

theorem Written.append {off k : Nat} {as bs : List UInt8} (hk : off + as.length = k)
    (h : Written others ip off as s s') (h' : Written others ip k bs s' s'') :
    Written others ip off (as ++ bs) s s'' where
  frame := h.frame.trans h'.frame
  kept := h.kept.trans (h.frame.sb ▸ h'.kept)
  bytes := by
    intro o ho
    rw [h'.bytes o ho, patch_append, hk]
    exact patch_congr (h.bytes o ho) ..
  slots := by
    intro o h₁ h₂
    rw [List.length_append] at h₂
    rcases Nat.lt_or_ge o k with hlt | hge
    · exact h'.kept.slots _ (h.slots o h₁ (by omega))
    · exact h'.slots o hge (by omega)

theorem block_written (h : Alone s.sb others s.disk (s.file ip)) {off b : Nat} {src : List UInt8}
    (hmax : off / BSIZE < MAXFILE) (hroom : off % BSIZE + src.length ≤ BSIZE)
    (hb : (s.file ip).slot s.disk (off / BSIZE) = some b) (l : Log) (op : ProcPtr → Op) :
    Written others ip off src s { s with
      disk := update s.disk b ((s.disk b).patch (off % BSIZE) src)
      log := l
      op := op } := by
  obtain ⟨hkept, hcontent⟩ := h.write hmax hb ((s.disk b).patch (off % BSIZE) src)
  have hoff := Nat.div_add_mod' off BSIZE
  have hslot : ∀ o, off ≤ o → o < off + src.length → o / BSIZE = off / BSIZE := by
    intro o h₁ h₂
    simp only [BSIZE] at hroom ⊢
    omega
  refine ⟨⟨rfl, rfl, rfl, rfl, rfl, rfl, fun _ _ => rfl, rfl⟩, hkept, ?_, ?_⟩
  · intro o ho
    refine (hcontent o ho).trans ?_
    split
    · next he =>
        have hbyte : s.bytes ip o = s.disk b (o % BSIZE) := by
          rw [State.bytes, DInode.content, he, hb]
        have ho' := Nat.div_add_mod' o BSIZE
        rw [he] at ho'
        rw [patch, patch, hbyte]
        have hiff : o % BSIZE < off % BSIZE ↔ o < off := by omega
        have hsub : o % BSIZE - off % BSIZE = o - off := by omega
        simp only [hiff, hsub]
    · next he =>
        rcases Nat.lt_or_ge o off with hlt | hge
        · rw [patch_of_lt hlt]
          rfl
        · rw [patch_of_ge]
          · rfl
          · by_contra hlt
            exact he (hslot o hge (not_le.mp hlt))
  · intro o h₁ h₂
    rw [hslot o h₁ h₂]
    exact hkept.slots _ (by rw [hb]; simp)

theorem Mapped.written (hm : Mapped others ip s s') {off : Nat} {src : List UInt8}
    (hw : Written others ip off src s' s'') : Written others ip off src s s'' where
  frame := hm.frame.trans hw.frame
  kept := hm.kept.trans (hm.frame.sb ▸ hw.kept)
  bytes := fun o ho => by rw [hw.bytes o ho, hm.bytes]
  slots := hw.slots

theorem writeLoop_ends : ∀ (fuel off : Nat) (src : List UInt8) (s : State),
    Alone s.sb others s.disk (s.file ip) → src.length ≤ fuel →
    off + src.length ≤ MAXFILE * BSIZE →
    (writeLoop me ip fuel off src).ends (fun _ s' => Written others ip off src s s')
      (fun e => e ∈ stops) s := by
  intro fuel
  induction fuel with
  | zero =>
    intro off src s h hfuel _
    obtain rfl := List.length_eq_zero_iff.mp (Nat.le_zero.mp hfuel)
    exact .nil h off
  | succ fuel ih =>
    intro off src s h hfuel hmax
    rw [writeLoop]
    split
    · next hnil =>
        subst hnil
        exact .nil h off
    · next hne =>
        have hpos := List.length_pos_iff.mpr hne
        have hbn : off / BSIZE < MAXFILE := by
          simp only [BSIZE] at hmax ⊢
          omega
        have hm : 0 < min src.length (BSIZE - off % BSIZE) ∧
            min src.length (BSIZE - off % BSIZE) ≤ src.length ∧
            off % BSIZE + min src.length (BSIZE - off % BSIZE) ≤ BSIZE := by
          simp only [BSIZE]
          omega
        refine Prog.ends_seq (bmap_ends h hbn) ?_
        rintro b s₁ ⟨hmap, hb⟩
        dsimp only
        generalize hmin : min src.length (BSIZE - off % BSIZE) = m at hm
        have hlen : (src.take m).length = m := List.length_take_of_le hm.2.1
        refine Prog.ends_bind.mpr (withBlock_ends rfl ?_)
        refine Prog.ends_seq (logWrite_ends _) ?_
        rintro _ _ ⟨l, op, rfl⟩
        have hw := hmap.written (block_written hmap.alone hbn (by rw [hlen]; exact hm.2.2) hb l op)
        have halone : Alone s.sb others _ _ := hw.kept.alone
        rw [← hw.frame.sb] at halone
        refine Prog.ends_mono (ih (off + m) (src.drop m) _ halone ?_ ?_) ?_ (fun _ he => he)
        · rw [List.length_drop]
          omega
        · rw [List.length_drop]
          omega
        · intro _ s₂ hw₂
          have hres := Written.append (by rw [hlen]) hw hw₂
          rwa [List.take_append_drop] at hres

end

/-! ## Files -/

/-- The other inodes: those on the disk, and those in the cache. -/
def State.others (s : State) (ip : InodePtr) (e : DInode) : Prop :=
  (∃ j, j ≠ (s.icache ip).inum ∧ e = inodes s.sb s.disk j ∧ e.type ≠ 0) ∨
    ∃ jp, jp ≠ ip ∧ 0 < (s.icache jp).ref ∧ (s.icache jp).valid = true ∧ e = s.file jp

/-- A file or a directory with all the blocks that its size needs, which are its own. -/
structure IsFile (s : State) (ip : InodePtr) : Prop where
  type : (s.file ip).type = T_FILE ∨ (s.file ip).type = T_DIR
  fits : (s.file ip).Fits
  inum : (s.icache ip).inum < s.sb.capacity
  covered : (s.file ip).Covered s.disk
  alone : Alone s.sb (s.others ip) s.disk (s.file ip)

/-- The file has been written: `src` is at `off`, and the size is as large as that
needs; nothing of other inodes has changed. -/
structure Wrote (ip : InodePtr) (off : Nat) (src : List UInt8) (s s' : State) : Prop where
  file : IsFile s' ip
  frame : Frame ip s s'
  fields : s'.file ip = { s.file ip with size := (s'.file ip).size, addrs := (s'.file ip).addrs }
  size : (s'.file ip).size = max (s.file ip).size (off + src.length)
  bytes : ∀ o < MAXFILE * BSIZE, s'.bytes ip o = (s.bytes ip).patch off src o
  others : ∀ e, s.others ip e → s'.others ip e ∧ e.content s'.disk = e.content s.disk

section

variable {s s' s'' : State} {me : ProcPtr} {ip : InodePtr}

theorem IsFile.not_dev (h : IsFile s ip) : (s.icache ip).type ≠ T_DEV := by
  have hne : (s.file ip).type ≠ T_DEV := by
    rcases h.type with ht | ht <;> rw [ht] <;> decide
  exact hne

theorem IsFile.size_lt (h : IsFile s ip) : (s.file ip).size < 2 ^ 32 :=
  h.covered.size.trans_lt (by decide)

theorem Written.covered {others : DInode → Prop} {off : Nat} {src : List UInt8}
    (hw : Written others ip off src s s') (hcov : (s.file ip).Covered s.disk)
    (hoff : off ≤ (s.file ip).size) :
    ∀ bn < blocksFor (max (s.file ip).size (off + src.length)),
      (s'.file ip).slot s'.disk bn ≠ none := by
  intro bn hbn
  rcases Nat.lt_or_ge bn (blocksFor (s.file ip).size) with hlt | hge
  · exact hw.kept.slots bn (hcov.slots bn hlt)
  · have hdiv : bn * BSIZE / BSIZE = bn := Nat.mul_div_cancel _ (by decide)
    rw [← hdiv]
    refine hw.slots _ ?_ ?_
    · simp only [blocksFor, BSIZE] at hge ⊢
      omega
    · simp only [blocksFor, BSIZE] at hbn hge ⊢
      omega

/-- The other inodes are the same after a write to this one. -/
theorem others_congr (hf : Frame ip s s')
    (hin : ∀ j, j ≠ (s.icache ip).inum → inodes s.sb s'.disk j = inodes s.sb s.disk j) :
    s'.others ip = s.others ip := by
  funext e
  have hinum : (s'.icache ip).inum = (s.icache ip).inum := by rw [hf.self]
  rw [State.others, State.others, hinum, hf.sb]
  refine propext (or_congr ?_ ?_)
  · refine exists_congr fun j => and_congr_right fun hj => ?_
    rw [hin j hj]
  · refine exists_congr fun jp => and_congr_right fun hj => ?_
    rw [State.file, State.file, hf.other jp hj]

/-- The block numbers are as wide as they are declared. -/
theorem addrs_lt {sb : Superblock} {others : DInode → Prop} {disk : Disk} {d : DInode}
    (h : Alone sb others disk d) (k : Fin (NDIRECT + 1)) : d.addrs k < 2 ^ 32 := by
  rcases Nat.eq_zero_or_pos (d.addrs k) with h0 | hpos
  · rw [h0]
    exact Nat.two_pow_pos 32
  · have hb : d.block disk (.addr k) = some (d.addrs k) := asBlock_of_ne (by omega)
    exact (h.own _ _ hb).2.1.trans h.laid.size

/-- The state after the loop, and with the size put right. -/
theorem Written.wrote (h : IsFile s ip) {off : Nat} {src : List UInt8}
    (hw : Written (s.others ip) ip off src s s') (hoff : off ≤ (s.file ip).size)
    (hmax : off + src.length ≤ MAXFILE * BSIZE) (hf : Frame ip s s'')
    (hfile : s''.file ip = { s'.file ip with size := max (s.file ip).size (off + src.length) })
    (hdisk : ∀ c, s.sb.bmapstart ≤ c → s''.disk c = s'.disk c)
    (hin : ∀ j, j ≠ (s.icache ip).inum → inodes s.sb s''.disk j = inodes s.sb s.disk j) :
    Wrote ip off src s s'' := by
  have hothers := others_congr hf hin
  have haddrs : (s''.file ip).addrs = (s'.file ip).addrs := by rw [hfile]
  have hsize : (s''.file ip).size = max (s.file ip).size (off + src.length) := by rw [hfile]
  have halone : Alone s.sb (s.others ip) s''.disk (s''.file ip) :=
    (hw.kept.alone.congr hdisk).of_addrs haddrs
  obtain ⟨hself, hforeign⟩ := hw.kept.alone.content_congr hdisk
  have hblock : ∀ r, (s''.file ip).block s''.disk r = (s'.file ip).block s'.disk r := by
    intro r
    rw [block_of_addrs haddrs]
    refine block_congr (fun c hc => hdisk c ?_) r
    have hds := h.alone.laid.dataStart_gt
    have hle := (hw.kept.alone.own _ c hc).1
    omega
  have hfields : s''.file ip = { s.file ip with
      size := max (s.file ip).size (off + src.length)
      addrs := (s''.file ip).addrs } := by
    rw [hfile, hw.kept.fields]
  have hle : max (s.file ip).size (off + src.length) ≤ MAXFILE * BSIZE :=
    max_le h.covered.size hmax
  refine ⟨⟨?_, ?_, ?_, ⟨?_, ?_⟩, ?_⟩, hf, hsize.symm ▸ hfields, hsize, ?_, ?_⟩
  · rw [hfields]
    exact h.type
  · have hfits := h.fits
    rw [hfields]
    exact ⟨hfits.type, hfits.major, hfits.minor, hfits.nlink, hfits.uid, hfits.gid, hfits.mode,
      hle.trans_lt (by decide), fun k => addrs_lt halone k⟩
  · rw [hf.self, hf.sb]
    exact h.inum
  · rw [hsize]
    exact hle
  · intro bn hbn
    rw [hsize] at hbn
    rw [DInode.slot, hblock]
    exact hw.covered h.covered hoff bn hbn
  · rw [hothers, hf.sb]
    exact halone
  · intro o ho
    have hdiv : o / BSIZE < MAXFILE := Nat.div_lt_of_lt_mul (Nat.mul_comm .. ▸ ho)
    rw [← hw.bytes o hdiv, State.bytes, content_of_addrs haddrs, hself]
    rfl
  · intro e he
    rw [hothers]
    exact ⟨he, (hforeign e he).trans (hw.kept.foreign e he)⟩

theorem iupdate_ends : (iupdate me ip).ends (fun _ s' => ∃ l op, s' = { s with
    disk := update s.disk (IBLOCK s.sb (s.icache ip).inum)
      (putInode (s.disk (IBLOCK s.sb (s.icache ip).inum)) (s.icache ip).inum (s.file ip))
    log := l
    op := op }) (fun e => e ∈ stops) s := by
  simp only [iupdate, getInode, getSb, Prog.ends_bind, Prog.ends_gets]
  refine withBlock_ends rfl ?_
  refine Prog.ends_mono (logWrite_ends _) ?_ (fun _ he => he)
  rintro _ _ ⟨l, op, rfl⟩
  exact ⟨l, op, rfl⟩

theorem writei_ends (h : IsFile s ip) {off : Nat} {src : List UInt8}
    (hoff : off ≤ (s.file ip).size) (hmax : off + src.length ≤ MAXFILE * BSIZE) :
    (writei me ip off src).ends (fun r s' => r = some src.length ∧ Wrote ip off src s s')
      (fun e => e ∈ stops) s := by
  have hlt : off + src.length < 2 ^ 32 := hmax.trans_lt (by decide)
  have hoff' : ¬ (off > (s.icache ip).size ∨ (off + src.length) % 2 ^ 32 < off) := by
    rw [not_or, Nat.mod_eq_of_lt hlt]
    exact ⟨not_lt.mpr hoff, by omega⟩
  have hmax' : ¬ (off + src.length) % 2 ^ 32 > MAXFILE * BSIZE := by
    rw [Nat.mod_eq_of_lt hlt]
    exact not_lt.mpr hmax
  rw [writei]
  show Prog.ends (if (s.icache ip).type = T_DEV then _ else _) _ _ s
  rw [if_neg h.not_dev, if_neg hoff', if_neg hmax']
  refine Prog.ends_seq (writeLoop_ends _ off src s h.alone (Nat.le_refl _) hmax) ?_
  intro _ s₁ hw
  have hsize : (s₁.file ip).size = (s.file ip).size := by rw [hw.kept.fields]
  have hinodes : ∀ j, inodes s.sb s₁.disk j = inodes s.sb s.disk j :=
    fun j => congrFun (inodes_congr h.alone.laid fun c _ hc => hw.kept.head c hc) j
  have hfits : ({ s₁.file ip with size := off + src.length } : DInode).Fits := by
    have hf := h.fits
    rw [hw.kept.fields]
    exact ⟨hf.type, hf.major, hf.minor, hf.nlink, hf.uid, hf.gid, hf.mode, hlt,
      fun k => addrs_lt hw.kept.alone k⟩
  have hinum : (s₁.icache ip).inum = (s.icache ip).inum := by rw [hw.frame.self]
  show Prog.ends (when (0 < src.length ∧ off + src.length > (s₁.file ip).size) _ >>= _) _ _ s₁
  rw [when]
  split
  · next hgrow =>
      rw [hsize] at hgrow
      refine Prog.ends_bind.mpr (Prog.ends_bind.mpr ?_)
      show Prog.ends (iupdate me ip) _ _ (s₁.grow ip s₁.disk s₁.log s₁.op
        { s₁.file ip with size := off + src.length })
      refine Prog.ends_mono iupdate_ends ?_ (fun _ he => he)
      rintro _ _ ⟨l, op, rfl⟩
      have hib := h.alone.laid.iblock h.inum
      rw [State.inum_grow, State.file_grow, hinum]
      refine ⟨rfl, hw.wrote h hoff hmax (hw.frame.trans (Frame.grow ip _ l op _)) ?_ ?_ ?_⟩
      · refine (State.file_grow ip _ l op _).trans ?_
        rw [max_eq_right (Nat.le_of_lt hgrow.2)]
      · intro c hc
        refine update_of_ne ?_ ..
        show c ≠ IBLOCK s₁.sb _
        rw [hw.frame.sb]
        omega
      · intro j hj
        show inodes s.sb (update s₁.disk (IBLOCK s₁.sb _) (putInode (s₁.disk
          (IBLOCK s₁.sb _)) _ _)) j = _
        rw [hw.frame.sb, inodes_put h.inum hfits, update_of_ne hj]
        exact hinodes j
  · next hgrow =>
      refine ⟨rfl, hw.wrote h hoff hmax hw.frame ?_ (fun _ _ => rfl) fun j _ => hinodes j⟩
      have hmaxsize : max (s.file ip).size (off + src.length) = (s₁.file ip).size := by
        rw [hsize] at hgrow ⊢
        omega
      rw [hmaxsize]

theorem writei_refuses (ht : (s.icache ip).type ≠ T_DEV) {off : Nat} {src : List UInt8}
    (hoff : off < 2 ^ 32) (hlen : src.length < 2 ^ 32)
    (hbad : (s.file ip).size < off ∨ 2 ^ 32 ≤ off + src.length ∨
      MAXFILE * BSIZE < off + src.length) :
    (writei me ip off src).run s = some (.ok (none, s)) := by
  rw [writei, Prog.run_seq getInode_run, if_neg ht]
  by_cases hwrap : off > (s.icache ip).size ∨ (off + src.length) % 2 ^ 32 < off
  · rw [if_pos hwrap]
    rfl
  · have hbig : (off + src.length) % 2 ^ 32 > MAXFILE * BSIZE := by
      rw [not_or] at hwrap
      rcases hbad with hb | hb | hb
      · exact absurd hb hwrap.1
      · omega
      · rw [Nat.mod_eq_of_lt]
        · exact hb
        · omega
    rw [if_neg hwrap, if_pos hbig]
    rfl

end

/-! ## A file of one byte -/

def first : InodePtr := ⟨0, by decide⟩

def smallSb : Superblock := ⟨140, 106, 8, 30, 2, 32, 33⟩

/-- Blocks 0 to 34 are in use: 34 is the first data block. -/
def smallDisk : Disk := fun b =>
  if b = 33 then fun i => if i < 4 then 255 else if i = 4 then 7 else 0 else fun _ => 0

/-- A file of one byte in the data block. -/
def smallFile : DInode where
  type := T_FILE
  major := 0
  minor := 0
  nlink := 1
  uid := 0
  gid := 0
  mode := 0
  size := 1
  addrs := fun k => if k = 0 then 34 else 0

/-- The file is inode 1, and a transaction has logged some blocks. -/
def oneFile (logged : Nat) : State where
  sb := smallSb
  disk := smallDisk
  log := ⟨⟨2, LOGSIZE, LOGSIZE_pos⟩, 1, false, ⟨logged, fun i => 100 + i⟩⟩
  icache := fun ip =>
    if ip = first then ⟨smallFile, 1, 1, 1, true, true⟩ else ⟨.zero, 0, 0, 0, false, false⟩
  ftable := fun _ => ⟨.none, 0, false, false, first, 0, 0⟩
  pipes := fun _ => ⟨false, false, 0, 0⟩
  proc := fun _ => ⟨.unused, fun _ => none, none, 0, 0⟩
  initproc := 0
  world := fun _ => 0
  op := fun _ => ⟨true, []⟩

theorem small_laid : smallSb.Laid :=
  ⟨by decide, by decide, by decide, by decide, by decide⟩

theorem small_type (j : Nat) : (inodes smallSb smallDisk j).type = 0 := by
  have hall : ∀ j < 8, (dinode smallSb smallDisk j).type = 0 := by decide
  rw [inodes]
  split
  · next hj => exact hall j hj
  · rfl

theorem small_block {b : Nat} {r : Ref} (h : smallFile.block smallDisk r = some b) :
    r = .addr 0 ∧ b = 34 := by
  cases r with
  | addr k =>
    rcases eq_or_ne k 0 with rfl | hk
    · cases h
      exact ⟨rfl, rfl⟩
    · have haddr : smallFile.addrs k = 0 := if_neg hk
      rw [DInode.block, haddr] at h
      cases h
  | entry j => cases h

theorem small_alone {others : DInode → Prop} (h : ∀ e, ¬ others e) :
    Alone smallSb others smallDisk smallFile where
  laid := small_laid
  low := by decide
  own := by
    intro r b hb
    obtain ⟨-, rfl⟩ := small_block hb
    exact ⟨by decide, by decide, by decide⟩
  single := by
    intro r r' b h₁ h₂
    rw [(small_block h₁).1, (small_block h₂).1]
  foreign := fun e he => (h e he).elim

theorem small_fits : smallFile.Fits :=
  ⟨by decide, by decide, by decide, by decide, by decide, by decide, by decide, by decide,
    by decide⟩

end Fs

end Xv6Pdx
