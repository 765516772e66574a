/-
# `Mkfs.Append` — `iappend` keeps the image in order

`iappend` works on a copy of the inode and stores it at the end, so what the
inodes are (`cur`) is the disk with that copy in the place of the old one.
`Sound` says that the blocks from `nmeta` up to `freeblock` are each in exactly
one place and those from there on are still zero; `IsFile` says that an inode has
the blocks it needs for its bytes, no others, and these bytes in them.
-/
import Xv6Pdx.Mkfs.Model

namespace Xv6Pdx.Mkfs

open Lib Bytes
open Function (update update_self update_of_ne update_eq_self update_idem)

/-- The blocks that have been handed out. -/
structure Sound (m : Image) (cur : Nat → DInode) : Prop where
  len : m.len = FSSIZE
  low : nmeta ≤ m.freeblock
  single : ∀ o o' b, owner m.disk cur o = some b → owner m.disk cur o' = some b → o = o'
  range : ∀ o b, owner m.disk cur o = some b → nmeta ≤ b ∧ b < m.freeblock
  onto : ∀ b, nmeta ≤ b → b < m.freeblock → ∃ o, owner m.disk cur o = some b
  zero : ∀ b, m.freeblock ≤ b → m.disk b = fun _ => 0

/-- The inode has these bytes, and no blocks that it does not need for them. -/
structure IsFile (disk : Disk) (d : DInode) (body : List UInt8) : Prop where
  bound : body.length ≤ MAXFILE * BSIZE
  slots : ∀ bn < MAXFILE, d.slot disk bn ≠ none ↔ bn < blocksFor body.length
  indirect : d.indirect ≠ 0 → NDIRECT < blocksFor body.length
  bytes : ∀ o < MAXFILE * BSIZE, d.content disk o = body[o]?.getD 0

section

variable {m m' : Image} {cur : Nat → DInode} {d d' din din' : DInode} {inum off : Nat}
  {body p : List UInt8} {disk disk' : Disk}

theorem IsFile.congr (h : IsFile disk d body) (hi : d'.indirect = d.indirect)
    (hslot : ∀ bn < MAXFILE, d'.slot disk' bn = d.slot disk bn)
    (hdata : ∀ bn b, bn < MAXFILE → d.slot disk bn = some b → disk' b = disk b) :
    IsFile disk' d' body := by
  refine ⟨h.bound, ?_, ?_, ?_⟩
  · intro bn hbn
    rw [hslot bn hbn]
    exact h.slots bn hbn
  · rw [hi]
    exact h.indirect
  · intro o ho
    have hbn : o / BSIZE < MAXFILE := by
      simp only [BSIZE] at ho ⊢
      omega
    rw [← h.bytes o ho, DInode.content, DInode.content, hslot _ hbn]
    cases hs : d.slot disk (o / BSIZE) with
    | none => rfl
    | some b =>
      show disk' b _ = disk b _
      rw [hdata _ b hbn hs]

/-- Only the blocks in the indirect block's places are looked up on the disk. -/
theorem IsFile.other (h : IsFile disk d body) (hblock : ∀ r, d.block disk' r = d.block disk r)
    (hdata : ∀ r b, d.block disk r = some b → disk' b = disk b) : IsFile disk' d body :=
  h.congr rfl (fun _ _ => hblock _) fun _ b _ hb => hdata _ b hb

theorem rsect_eq_some {sec : Nat} {buf : Block} (h : m.rsect sec = some buf) :
    sec < m.len ∧ m.disk sec = buf := by
  rw [Image.rsect] at h
  split at h
  · next hlt => exact ⟨hlt, Option.some.inj h⟩
  · cases h

/-! ## Taking a block -/

theorem Sound.attach (hm : Sound m cur) {cur' : Nat → DInode} {o : Nat × Ref}
    (hnone : owner m.disk cur o = none)
    (howner : ∀ o', owner m'.disk cur' o' =
      if o' = o then some m.freeblock else owner m.disk cur o')
    (hlen : m'.len = m.len) (hfree : m'.freeblock = m.freeblock + 1)
    (hzero : ∀ b, m.freeblock < b → m'.disk b = m.disk b) : Sound m' cur' := by
  have hfresh : ∀ o', owner m.disk cur o' ≠ some m.freeblock := by
    intro o' ho
    exact absurd (hm.range o' _ ho).2 (Nat.lt_irrefl _)
  refine ⟨hlen.trans hm.len, by have := hm.low; omega, ?_, ?_, ?_, ?_⟩
  · intro o₁ o₂ b h₁ h₂
    rw [howner] at h₁ h₂
    split at h₁ <;> split at h₂
    · next e₁ e₂ => rw [e₁, e₂]
    · exact absurd (h₂.trans h₁.symm) (hfresh o₂)
    · exact absurd (h₁.trans h₂.symm) (hfresh o₁)
    · exact hm.single o₁ o₂ b h₁ h₂
  · intro o₁ b h₁
    rw [howner] at h₁
    rw [hfree]
    split at h₁
    · cases h₁
      exact ⟨hm.low, Nat.lt_succ_self _⟩
    · have := hm.range o₁ b h₁
      omega
  · intro b hlow hb
    rw [hfree] at hb
    by_cases he : b = m.freeblock
    · exact ⟨o, by rw [howner, if_pos rfl, he]⟩
    · obtain ⟨o', ho'⟩ := hm.onto b hlow (by omega)
      refine ⟨o', ?_⟩
      rw [howner, if_neg, ho']
      rintro rfl
      rw [hnone] at ho'
      cases ho'
  · intro b hb
    rw [hfree] at hb
    rw [hzero b (by omega), hm.zero b (by omega)]

/-- `direct` leaves a block in the place, an old one or the next one. -/
theorem direct_spec (hm : Sound m cur) (hcur : cur inum = din) (htype : din.type ≠ 0)
    {k : Fin (NDIRECT + 1)} {x : Nat} (h : m.direct din k = (x, din', m')) :
    Sound m' (update cur inum din') ∧ m'.disk = m.disk ∧ m'.freeinode = m.freeinode ∧
      (∃ b, din' = din.setAddr k b) ∧ x ≠ 0 ∧
      (∀ r, din'.block m.disk r = if r = .addr k then some x else din.block m.disk r) ∧
      (din.block m.disk (.addr k) = some x ∧ m' = m ∨
        din.block m.disk (.addr k) = none ∧ x = m.freeblock ∧ m'.freeblock = m.freeblock + 1) := by
  subst hcur
  rw [Image.direct] at h
  split at h
  · next h0 =>
      cases h
      have hnone : (cur inum).block m.disk (.addr k) = none := by rw [DInode.block, h0]; rfl
      have hpos : m.freeblock ≠ 0 := by
        have := hm.low
        simp only [nmeta, nlog, LOGSIZE, MAXOPBLOCKS] at this
        omega
      have hblock : ∀ r, ((cur inum).setAddr k m.freeblock).block m.disk r =
          if r = .addr k then some m.freeblock else (cur inum).block m.disk r := by
        intro r
        rw [← asBlock_of_ne hpos]
        by_cases hk : k = Fin.last NDIRECT
        · subst hk
          exact block_setIndirect (hm.zero _ (Nat.le_refl _)) h0 r
        · exact block_setAddr hk _ r
      refine ⟨?_, rfl, rfl, ⟨_, rfl⟩, hpos, hblock, Or.inr ⟨hnone, rfl, rfl⟩⟩
      refine hm.attach (o := (inum, .addr k)) (by rw [owner_of_type htype, hnone]) ?_ rfl rfl
        fun _ _ => rfl
      rintro ⟨i, r⟩
      have htype' : ((cur inum).setAddr k m.freeblock).type ≠ 0 := htype
      show owner m.disk (update cur inum ((cur inum).setAddr k m.freeblock)) (i, r) = _
      rw [owner_update_of_type htype']
      by_cases hi : i = inum
      · subst hi
        rw [if_pos rfl, hblock, owner_of_type htype]
        simp
      · have hne : ¬ ((i, r) = (inum, Ref.addr k)) := fun he => hi (Prod.ext_iff.mp he).1
        rw [if_neg hi, if_neg hne]
  · next h0 =>
      cases h
      have hsome : (cur inum).block m.disk (.addr k) = some ((cur inum).addrs k) := asBlock_of_ne h0
      refine ⟨by rwa [update_eq_self], rfl, rfl, ⟨(cur inum).addrs k, ?_⟩, h0, ?_,
        Or.inl ⟨hsome, rfl⟩⟩
      · rw [DInode.setAddr, update_eq_self]
      · intro r
        split
        · next hr => rw [hr, hsome]
        · rfl

theorem listed_spec (hm : Sound m cur) (hcur : cur inum = din) (htype : din.type ≠ 0)
    (hi : din.indirect ≠ 0) (hfree : m.freeblock < 2 ^ 32) {j : Fin NINDIRECT} {x : Nat}
    (h : m.listed din j = some (x, m')) :
    Sound m' cur ∧ m'.freeinode = m.freeinode ∧ x ≠ 0 ∧
      (∀ r, din.block m'.disk r = if r = .entry j then some x else din.block m.disk r) ∧
      (∀ b, b ≠ din.indirect → m'.disk b = m.disk b) ∧
      (∀ i r, i ≠ inum → owner m'.disk cur (i, r) = owner m.disk cur (i, r)) ∧
      (din.block m.disk (.entry j) = some x ∧ m' = m ∨
        din.block m.disk (.entry j) = none ∧ x = m.freeblock ∧ m'.freeblock = m.freeblock + 1) := by
  subst hcur
  have hentry : (cur inum).block m.disk (.entry j) =
      asBlock ((m.disk (cur inum).indirect).word j) := by
    rw [DInode.block, asBlock_of_ne hi, Option.bind_some]
  rw [Image.listed, Image.rsect] at h
  split at h
  · next hlt =>
      simp only [Option.bind_eq_bind, Option.bind_some] at h
      split at h
      · next h0 =>
          cases h
          have hpos : m.freeblock ≠ 0 := by
            have := hm.low
            simp only [nmeta, nlog, LOGSIZE, MAXOPBLOCKS] at this
            omega
          have hnone : (cur inum).block m.disk (.entry j) = none := by rw [hentry, h0]; rfl
          have hdisk : (m.take.2.wsect (cur inum).indirect
              ((m.disk (cur inum).indirect).setWord j m.take.1)).disk =
              update m.disk (cur inum).indirect
                ((m.disk (cur inum).indirect).setWord j m.freeblock) := rfl
          have hblock : ∀ r, (cur inum).block (update m.disk (cur inum).indirect
              ((m.disk (cur inum).indirect).setWord j m.freeblock)) r =
              if r = .entry j then some m.freeblock else (cur inum).block m.disk r := by
            intro r
            rw [← asBlock_of_ne hpos]
            exact block_setWord hfree hi r
          refine ⟨?_, rfl, hpos, ?_, ?_, ?_, Or.inr ⟨hnone, rfl, rfl⟩⟩
          · refine hm.attach (o := (inum, .entry j)) (by rw [owner_of_type htype, hnone]) ?_ ?_ rfl ?_
            · rintro ⟨i, r⟩
              rw [hdisk]
              by_cases hin : i = inum
              · subst hin
                rw [owner_of_type htype, owner_of_type htype, hblock]
                simp
              · have hne : ¬ ((i, r) = (inum, Ref.entry j)) := fun he => hin (Prod.ext_iff.mp he).1
                rw [owner_write_indirect hm.single htype hi _ hin, if_neg hne]
            · show max m.len _ = m.len
              omega
            · intro b hb
              have hown := (hm.range _ _ (owner_indirect htype hi)).2
              rw [hdisk, update_of_ne (by omega)]
          · exact hblock
          · intro b hb
            rw [hdisk, update_of_ne hb]
          · intro i r hne
            rw [hdisk]
            exact owner_write_indirect hm.single htype hi _ hne
      · next h0 =>
          cases h
          have hsome := hentry.trans (asBlock_of_ne h0)
          refine ⟨hm, rfl, h0, ?_, fun _ _ => rfl, fun _ _ _ => rfl, Or.inl ⟨hsome, rfl⟩⟩
          intro r
          split
          · next hr => rw [hr, hsome]
          · rfl
  · cases h

/-! ## A turn of the loop -/

/-- What `target` does: the block of the file at `fbn` is `x`. -/
structure Targeted (m m' : Image) (cur : Nat → DInode) (inum : Nat) (din din' : DInode) (fbn x : Nat) :
    Prop where
  sound : Sound m' (update cur inum din')
  freeinode : m'.freeinode = m.freeinode
  fields : ∃ a, din' = { din with addrs := a }
  slot : ∀ bn < MAXFILE, din'.slot m'.disk bn = if bn = fbn then some x else din.slot m.disk bn
  disk : ∀ b, b ≠ din'.indirect → m'.disk b = m.disk b
  fresh : din.slot m.disk fbn = none → m'.disk x = fun _ => 0
  kept : ∀ b, din.slot m.disk fbn = some b → b = x
  indirect : din'.indirect ≠ 0 → din.indirect ≠ 0 ∨ NDIRECT ≤ fbn
  others : ∀ i r, i ≠ inum → owner m'.disk (update cur inum din') (i, r) = owner m.disk cur (i, r)
  freeblock : m'.freeblock = m.freeblock ∨ m'.freeblock = x + 1
  few : m'.freeblock ≤ m.freeblock + 2

theorem target_spec (hm : Sound m cur) (hcur : cur inum = din) (htype : din.type ≠ 0) {fbn x : Nat}
    (hfbn : fbn < MAXFILE) (hfree : m.freeblock ≤ FSSIZE)
    (h : m.target din fbn = some (x, din', m')) :
    Targeted m m' cur inum din din' fbn x := by
  rw [Image.target] at h
  split at h
  · next hdir =>
      obtain ⟨hs, hdisk, hino, ⟨b, rfl⟩, hx, hblock, hnew⟩ :=
        direct_spec hm hcur htype (Option.some.inj h)
      have hk := direct_ne_last hdir
      have hplace := place_addr hdir
      have htype' : (din.setAddr (Fin.ofNat (NDIRECT + 1) fbn) b).type ≠ 0 := htype
      refine ⟨hs, hino, ⟨_, rfl⟩, ?_, fun b _ => congrFun hdisk b, ?_, ?_, ?_, ?_, ?_, ?_⟩
      · intro bn hbn
        rw [hdisk, DInode.slot, DInode.slot, hblock, ← hplace]
        by_cases he : bn = fbn
        · rw [he, if_pos rfl, if_pos rfl]
        · rw [if_neg he, if_neg fun hp => he (place_injective hbn hfbn hp)]
      · intro hnone
        rw [DInode.slot, hplace] at hnone
        rcases hnew with ⟨hsome, -⟩ | ⟨-, rfl, -⟩
        · rw [hnone] at hsome
          cases hsome
        · rw [hdisk, hm.zero _ (Nat.le_refl _)]
      · intro b hsome
        rw [DInode.slot, hplace] at hsome
        rcases hnew with ⟨hx, -⟩ | ⟨hnone, -, -⟩
        · rw [hsome] at hx
          exact Option.some.inj hx
        · rw [hsome] at hnone
          cases hnone
      · rw [indirect_setAddr hk]
        exact Or.inl
      · intro i r hne
        rw [hdisk, owner_update_of_type htype', if_neg hne]
      · rcases hnew with ⟨-, rfl⟩ | ⟨-, rfl, hf⟩
        · exact Or.inl rfl
        · exact Or.inr hf
      · rcases hnew with ⟨-, rfl⟩ | ⟨-, -, hf⟩ <;> omega
  · next hdir =>
      cases hd : m.direct din (Fin.last NDIRECT) with
      | mk y rest =>
        obtain ⟨din₁, m₁⟩ := rest
        obtain ⟨hs, hdisk, hino, ⟨b, hb⟩, hy, hblock, hnew⟩ := direct_spec hm hcur htype hd
        rw [hd] at h
        simp only [Option.bind_eq_bind] at h
        obtain ⟨⟨x₂, m₂⟩, hl, he⟩ := Option.bind_eq_some_iff.mp h
        cases he
        have hi : din'.indirect ≠ 0 := by
          have := hblock (.addr (Fin.last NDIRECT))
          rw [if_pos rfl] at this
          exact (asBlock_eq_some.mp this).2
        have hplace := place_entry hdir
        have hval := val_entry hfbn
        have hcur₁ : update cur inum din' inum = din' := update_self ..
        have htype₁ : din'.type ≠ 0 := by rw [hb]; exact htype
        have hfree₁ : m₁.freeblock ≤ m.freeblock + 1 := by
          rcases hnew with ⟨-, rfl⟩ | ⟨-, -, hf⟩ <;> omega
        rw [← hval] at hl
        obtain ⟨hs₂, hino₂, hx, hblock₂, hdisk₂, hother₂, hnew₂⟩ := listed_spec hs hcur₁ htype₁ hi
          (by simp only [FSSIZE] at hfree; omega) hl
        have hold : ∀ o, din.slot m.disk fbn = o →
            din'.block m₁.disk (.entry (Fin.ofNat NINDIRECT (fbn - NDIRECT))) = o := by
          intro o ho
          rw [DInode.slot, hplace] at ho
          rw [hdisk, hblock, if_neg (by simp), ho]
        refine ⟨hs₂, hino₂.trans hino, ⟨_, hb⟩, ?_, ?_, ?_, ?_, ?_, ?_, ?_, ?_⟩
        · intro bn hbn
          rw [DInode.slot, DInode.slot, hblock₂, ← hplace, hdisk, hblock,
            if_neg (place_ne_indirect bn)]
          by_cases he : bn = fbn
          · rw [he, if_pos rfl, if_pos rfl]
          · rw [if_neg he, if_neg fun hp => he (place_injective hbn hfbn hp)]
        · intro b hb
          rw [hdisk₂ b hb, hdisk]
        · intro hnone
          rcases hnew₂ with ⟨hsome, -⟩ | ⟨-, rfl, -⟩
          · rw [hold none hnone] at hsome
            cases hsome
          · have hne : m₁.freeblock ≠ din'.indirect := by
              have := (hs.range _ _ (owner_indirect (by rw [hcur₁]; exact htype₁)
                (by rw [hcur₁]; exact hi))).2
              rw [hcur₁] at this
              omega
            rw [hdisk₂ _ hne, hs.zero _ (Nat.le_refl _)]
        · intro b hb
          rcases hnew₂ with ⟨hx₂, -⟩ | ⟨hnone, -, -⟩
          · rw [hold _ hb] at hx₂
            exact Option.some.inj hx₂
          · rw [hold _ hb] at hnone
            cases hnone
        · exact fun _ => Or.inr (by omega)
        · intro i r hne
          rw [hother₂ i r hne, hdisk, owner_update_of_type htype₁, if_neg hne]
        · rcases hnew₂ with ⟨hsome, hm₂⟩ | ⟨-, hx₂, hf⟩
          · rcases hnew with ⟨-, rfl⟩ | ⟨hnone, -, -⟩
            · exact Or.inl (congrArg Image.freeblock hm₂)
            · -- a new indirect block has no entries
              rw [hdisk, hblock, if_neg (by simp), DInode.block,
                show asBlock din.indirect = none from hnone] at hsome
              cases hsome
          · exact Or.inr (hf.trans (congrArg (· + 1) hx₂.symm))
        · show m₂.freeblock ≤ _
          rcases hnew₂ with ⟨-, rfl⟩ | ⟨-, -, hf⟩ <;> omega

/-- What `turn` does: more bytes at the end. -/
structure Appended (m m' : Image) (cur : Nat → DInode) (inum : Nat) (din din' : DInode)
    (body : List UInt8) : Prop where
  sound : Sound m' (update cur inum din')
  high : m'.freeblock ≤ FSSIZE
  freeinode : m'.freeinode = m.freeinode
  fields : ∃ a, din' = { din with addrs := a }
  file : IsFile m'.disk din' body
  low : ∀ b, 0 < b → b < nmeta → m'.disk b = m.disk b
  others : ∀ i body, i ≠ inum → (cur i).type ≠ 0 → IsFile m.disk (cur i) body →
    IsFile m'.disk (cur i) body

theorem n1_le (off : Nat) (p : List UInt8) :
    Image.n1 off p ≤ p.length ∧ off % BSIZE + Image.n1 off p ≤ BSIZE := by
  simp only [Image.n1, BSIZE]
  omega

theorem n1_pos (off : Nat) (hp : p ≠ []) : 0 < Image.n1 off p := by
  have := List.length_pos_of_ne_nil hp
  simp only [Image.n1, BSIZE]
  omega

theorem Targeted.old {x fbn : Nat} (hT : Targeted m m' cur inum din din' fbn x)
    (hfile : IsFile m.disk din body) (hfbn : fbn < MAXFILE) (hx : x ≠ din'.indirect) {k : Nat}
    (hk : k < BSIZE) : m'.disk x k = body[fbn * BSIZE + k]?.getD 0 := by
  have hlt : fbn * BSIZE + k < MAXFILE * BSIZE := by
    simp only [BSIZE] at hk ⊢
    omega
  rw [← hfile.bytes _ hlt]
  cases hs : din.slot m.disk fbn with
  | none =>
    have hdiv : (fbn * BSIZE + k) / BSIZE = fbn := by
      simp only [BSIZE] at hk ⊢
      omega
    rw [hT.fresh hs, DInode.content, hdiv, hs]
  | some b =>
    obtain rfl := hT.kept b hs
    rw [content_slot hk hs, hT.disk b hx]

section

variable {x fbn : Nat} (hT : Targeted m m' cur inum din din' fbn x) (htype : din.type ≠ 0)

include hT htype

theorem Targeted.type_ne : (update cur inum din' inum).type ≠ 0 := by
  obtain ⟨a, ha⟩ := hT.fields
  rw [update_self, ha]
  exact htype

theorem Targeted.owner_slot (bn : Nat) :
    owner m'.disk (update cur inum din') (inum, place bn) = din'.slot m'.disk bn := by
  rw [owner_of_type (hT.type_ne htype), update_self]
  rfl

theorem Targeted.mine (hfbn : fbn < MAXFILE) :
    owner m'.disk (update cur inum din') (inum, place fbn) = some x := by
  rw [hT.owner_slot htype, hT.slot _ hfbn, if_pos rfl]

theorem Targeted.owner_indirect (h0 : din'.indirect ≠ 0) :
    owner m'.disk (update cur inum din') (inum, .addr (Fin.last NDIRECT)) = some din'.indirect := by
  have hind : owner m'.disk _ _ = _ :=
    Xv6Pdx.owner_indirect (hT.type_ne htype) (by rw [update_self]; exact h0)
  rwa [update_self] at hind

theorem Targeted.ne_indirect (hfbn : fbn < MAXFILE) : x ≠ din'.indirect := by
  have hmine := hT.mine htype hfbn
  intro he
  have hind := hT.owner_indirect htype (he ▸ owner_ne_zero hmine)
  rw [← he] at hind
  exact place_ne_indirect _ (Prod.ext_iff.mp (hT.sound.single _ _ _ hmine hind)).2

/-! The block `x` is written to. -/

theorem Targeted.owner_wsect (hfbn : fbn < MAXFILE) (buf : Block) (o : Nat × Ref) :
    owner (m'.wsect x buf).disk (update cur inum din') o =
      owner m'.disk (update cur inum din') o := by
  refine owner_write _ (fun i hi => ?_) o
  exact place_ne_indirect _ (Prod.ext_iff.mp (hT.sound.single _ _ _ (hT.mine htype hfbn) hi)).2

/-- Blocks in other places than `fbn` are as they were before the turn. -/
theorem Targeted.other (hfbn : fbn < MAXFILE) (buf : Block) {o : Nat × Ref} {b : Nat}
    (ho : o ≠ (inum, place fbn)) (hi : o ≠ (inum, .addr (Fin.last NDIRECT)))
    (hb : owner m'.disk (update cur inum din') o = some b) :
    (m'.wsect x buf).disk b = m.disk b := by
  have hx : b ≠ x := by
    rintro rfl
    exact ho (hT.sound.single _ _ _ hb (hT.mine htype hfbn))
  have hind : b ≠ din'.indirect := by
    rintro rfl
    exact hi (hT.sound.single _ _ _ hb (hT.owner_indirect htype (owner_ne_zero hb)))
  rw [← hT.disk b hind]
  exact update_of_ne hx ..

theorem Targeted.sound_wsect (hfbn : fbn < MAXFILE) (hx : x < m'.len) (buf : Block) :
    Sound (m'.wsect x buf) (update cur inum din') where
  len := by
    show max m'.len (x + 1) = FSSIZE
    have := hT.sound.len
    omega
  low := hT.sound.low
  single := by
    intro o o' b h₁ h₂
    rw [hT.owner_wsect htype hfbn] at h₁ h₂
    exact hT.sound.single o o' b h₁ h₂
  range := by
    intro o b h₁
    rw [hT.owner_wsect htype hfbn] at h₁
    exact hT.sound.range o b h₁
  onto := by
    intro b h₁ h₂
    obtain ⟨o, ho⟩ := hT.sound.onto b h₁ h₂
    exact ⟨o, (hT.owner_wsect htype hfbn buf o).trans ho⟩
  zero := by
    intro b hb
    have hlt := (hT.sound.range _ _ (hT.mine htype hfbn)).2
    have hb' : m'.freeblock ≤ b := hb
    rw [← hT.sound.zero b hb']
    exact update_of_ne (by omega) ..

theorem Targeted.low_wsect (hfbn : fbn < MAXFILE) (buf : Block) {b : Nat} (h0 : 0 < b)
    (hb : b < nmeta) : (m'.wsect x buf).disk b = m.disk b := by
  have hlow := (hT.sound.range _ _ (hT.mine htype hfbn)).1
  rw [← hT.disk b]
  · exact update_of_ne (by omega) ..
  · rintro rfl
    have := (hT.sound.range _ _ (hT.owner_indirect htype (by omega))).1
    omega

theorem Targeted.others_wsect (hfbn : fbn < MAXFILE) (buf : Block) {i : Nat} (hne : i ≠ inum)
    (hti : (cur i).type ≠ 0) (hf : IsFile m.disk (cur i) body) :
    IsFile (m'.wsect x buf).disk (cur i) body := by
  have howner : ∀ r, (cur i).block m.disk r = owner m'.disk (update cur inum din') (i, r) := by
    intro r
    rw [hT.others i r hne, owner_of_type hti]
  refine hf.other ?_ ?_
  · intro r
    rw [howner, ← hT.owner_wsect htype hfbn buf, owner_of_type (by rwa [update_of_ne hne]),
      update_of_ne hne]
  · intro r b hb
    rw [howner] at hb
    exact hT.other htype hfbn buf (fun he => hne (Prod.ext_iff.mp he).1)
      (fun he => hne (Prod.ext_iff.mp he).1) hb

end

/-- The file has the bytes that it had, and behind them those that are copied to `x`. -/
theorem Targeted.content {x : Nat} {new : List UInt8}
    (hT : Targeted m m' cur inum din din' (body.length / BSIZE) x) (htype : din.type ≠ 0)
    (hfile : IsFile m.disk din body) (hfbn : body.length / BSIZE < MAXFILE)
    (hroom : body.length % BSIZE + new.length ≤ BSIZE) {disk' : Disk}
    (hdisk : disk' = (m'.wsect x ((m'.disk x).patch (body.length % BSIZE) new)).disk)
    (hslot : ∀ bn < MAXFILE, din'.slot disk' bn =
      if bn = body.length / BSIZE then some x else din.slot m.disk bn)
    {o : Nat} (ho : o < MAXFILE * BSIZE) :
    din'.content disk' o = (body ++ new)[o]?.getD 0 := by
  have hbn : o / BSIZE < MAXFILE := by
    simp only [BSIZE] at ho ⊢
    omega
  rw [DInode.content, hslot _ hbn]
  by_cases he : o / BSIZE = body.length / BSIZE
  · have hold := hT.old hfile hfbn (hT.ne_indirect htype hfbn)
      (Nat.mod_lt o (by decide : 0 < BSIZE))
    have hdiv := Nat.div_add_mod' o BSIZE
    have hdiv' := Nat.div_add_mod' body.length BSIZE
    rw [← he, hdiv] at hold
    rw [← he] at hdiv'
    rw [if_pos he, hdisk]
    show update m'.disk x _ x (o % BSIZE) = _
    rw [update_self, patch, hold]
    split
    · next hlt => rw [List.getElem?_append_left (by omega)]
    · next hge =>
        have hnone : body[o]? = none := List.getElem?_eq_none (by omega)
        rw [List.getElem?_append_right (by omega), hnone,
          show o % BSIZE - body.length % BSIZE = o - body.length by omega]
        rfl
  · have hrest : (body ++ new)[o]?.getD 0 = body[o]?.getD 0 := by
      by_cases hlt : o < body.length
      · rw [List.getElem?_append_left hlt]
      · have hfar : body.length + new.length ≤ o := by
          simp only [BSIZE] at he hroom
          omega
        rw [List.getElem?_eq_none (by simpa using hfar), List.getElem?_eq_none (by omega)]
    rw [if_neg he, hrest, ← hfile.bytes o ho, DInode.content]
    cases hs : din.slot m.disk (o / BSIZE) with
    | none => rfl
    | some b =>
      have hb : owner m'.disk (update cur inum din') (inum, place (o / BSIZE)) = some b := by
        rw [hT.owner_slot htype, hT.slot _ hbn, if_neg he, hs]
      rw [hdisk]
      refine congrFun (hT.other htype hfbn _ ?_ ?_ hb) _
      · exact fun heq => he (place_injective hbn hfbn (Prod.ext_iff.mp heq).2)
      · exact fun heq => place_ne_indirect _ (Prod.ext_iff.mp heq).2

theorem Targeted.isFile {x : Nat} {new : List UInt8}
    (hT : Targeted m m' cur inum din din' (body.length / BSIZE) x) (htype : din.type ≠ 0)
    (hfile : IsFile m.disk din body) (hfbn : body.length / BSIZE < MAXFILE)
    (hpos : 0 < new.length) (hroom : body.length % BSIZE + new.length ≤ BSIZE) :
    IsFile (m'.wsect x ((m'.disk x).patch (body.length % BSIZE) new)).disk din' (body ++ new) := by
  have hslot : ∀ bn < MAXFILE,
      din'.slot (m'.wsect x ((m'.disk x).patch (body.length % BSIZE) new)).disk bn =
      if bn = body.length / BSIZE then some x else din.slot m.disk bn := by
    intro bn hbn
    rw [← hT.slot bn hbn, ← hT.owner_slot htype, ← hT.owner_wsect htype hfbn,
      owner_of_type (hT.type_ne htype), update_self]
    rfl
  refine
    { bound := ?bound, slots := ?slots, indirect := ?indirect
      bytes := fun o ho => hT.content htype hfile hfbn hroom rfl hslot ho }
  case bound =>
    rw [List.length_append]
    simp only [MAXFILE, NINDIRECT, NDIRECT, BSIZE] at hfbn hroom ⊢
    omega
  case slots =>
    intro bn hbn
    have hold := hfile.slots bn hbn
    rw [hslot bn hbn, List.length_append]
    split
    · next he =>
        simp only [blocksFor, BSIZE] at he hroom ⊢
        simp only [ne_eq, reduceCtorEq, not_false_eq_true, true_iff]
        omega
    · next he =>
        rw [hold]
        simp only [blocksFor, BSIZE] at he hroom ⊢
        omega
  case indirect =>
    intro h0
    rw [List.length_append]
    rcases hT.indirect h0 with hi | hi
    · have := hfile.indirect hi
      simp only [blocksFor, BSIZE] at this ⊢
      omega
    · simp only [blocksFor, BSIZE] at hi hroom ⊢
      omega

theorem Targeted.append {x : Nat} {new : List UInt8}
    (hT : Targeted m m' cur inum din din' (body.length / BSIZE) x) (htype : din.type ≠ 0)
    (hfree : m.freeblock ≤ FSSIZE)
    (hfile : IsFile m.disk din body) (hfbn : body.length / BSIZE < MAXFILE) (hx : x < m'.len)
    (hpos : 0 < new.length) (hroom : body.length % BSIZE + new.length ≤ BSIZE) :
    Appended m (m'.wsect x ((m'.disk x).patch (body.length - body.length / BSIZE * BSIZE) new))
      cur inum din din' (body ++ new) := by
  have hq : body.length - body.length / BSIZE * BSIZE = body.length % BSIZE := by
    simp only [BSIZE]
    omega
  rw [hq]
  have hhigh : m'.freeblock ≤ FSSIZE := by
    have := hT.sound.len
    rcases hT.freeblock with hf | hf <;> omega
  exact
    { sound := hT.sound_wsect htype hfbn hx _
      high := hhigh
      freeinode := hT.freeinode
      fields := hT.fields
      file := hT.isFile htype hfile hfbn hpos hroom
      low := fun b h0 hb => hT.low_wsect htype hfbn _ h0 hb
      others := fun i body' hne hti hf => hT.others_wsect htype hfbn _ hne hti hf }

theorem turn_spec (hm : Sound m cur) (hcur : cur inum = din) (htype : din.type ≠ 0)
    (hfree : m.freeblock ≤ FSSIZE) (hfile : IsFile m.disk din body) (hp : p ≠ [])
    (h : m.turn din body.length p = some (din', m')) :
    Appended m m' cur inum din din' (body ++ p.take (Image.n1 body.length p)) := by
  rw [Image.turn] at h
  split at h
  · next hfbn =>
      obtain ⟨⟨x, din₁, m₁⟩, ht, h⟩ := Option.bind_eq_some_iff.mp h
      have hT := target_spec hm hcur htype hfbn hfree ht
      obtain ⟨buf, hbuf, he⟩ := Option.bind_eq_some_iff.mp h
      obtain ⟨hx, rfl⟩ := rsect_eq_some hbuf
      cases he
      have hlen : Image.n1 body.length p = (p.take (Image.n1 body.length p)).length := by
        rw [List.length_take, Nat.min_eq_left (n1_le _ p).1]
      have hpos := n1_pos body.length hp
      have hroom := (n1_le body.length p).2
      generalize p.take (Image.n1 body.length p) = new at hlen ⊢
      rw [hlen] at hpos hroom
      exact hT.append htype hfree hfile hfbn hx hpos hroom
  · cases h

/-! ## The loop -/

theorem Appended.refl (hm : Sound m cur) (hcur : cur inum = din) (hfree : m.freeblock ≤ FSSIZE)
    (hfile : IsFile m.disk din body) : Appended m m cur inum din din body where
  sound := by rwa [← hcur, update_eq_self]
  high := hfree
  freeinode := rfl
  fields := ⟨_, rfl⟩
  file := hfile
  low := fun _ _ _ => rfl
  others := fun _ _ _ _ hf => hf

theorem Appended.trans {m₁ : Image} {din₁ : DInode} {body₁ : List UInt8}
    (h₁ : Appended m m₁ cur inum din din₁ body₁)
    (h₂ : Appended m₁ m' (update cur inum din₁) inum din₁ din' body) :
    Appended m m' cur inum din din' body where
  sound := by simpa only [update_idem] using h₂.sound
  high := h₂.high
  freeinode := h₂.freeinode.trans h₁.freeinode
  fields := by
    obtain ⟨a, rfl⟩ := h₁.fields
    obtain ⟨a', rfl⟩ := h₂.fields
    exact ⟨a', rfl⟩
  file := h₂.file
  low := fun b h0 hb => (h₂.low b h0 hb).trans (h₁.low b h0 hb)
  others := by
    intro i body' hne ht hf
    have := h₂.others i body' hne (by rwa [update_of_ne hne])
    rw [update_of_ne hne] at this
    exact this (h₁.others i body' hne ht hf)

theorem appendLoop_spec {fuel off' : Nat} : ∀ {m : Image} {cur : Nat → DInode} {din : DInode}
    {body p : List UInt8}, p.length ≤ fuel → Sound m cur → cur inum = din → din.type ≠ 0 →
    m.freeblock ≤ FSSIZE → IsFile m.disk din body →
    Image.appendLoop fuel m din body.length p = some (din', off', m') →
    Appended m m' cur inum din din' (body ++ p) ∧ off' = (body ++ p).length := by
  induction fuel with
  | zero =>
    intro m cur din body p hp hm hcur _ hfree hfile h
    obtain rfl : p = [] := List.length_eq_zero_iff.mp (Nat.le_zero.mp hp)
    cases h
    rw [List.append_nil]
    exact ⟨.refl hm hcur hfree hfile, rfl⟩
  | succ fuel ih =>
    intro m cur din body p hp hm hcur htype hfree hfile h
    rw [Image.appendLoop] at h
    split at h
    · next hnil =>
        subst hnil
        cases h
        rw [List.append_nil]
        exact ⟨.refl hm hcur hfree hfile, rfl⟩
    · next hne =>
        obtain ⟨⟨din₁, m₁⟩, ht, h⟩ := Option.bind_eq_some_iff.mp h
        have h₁ := turn_spec hm hcur htype hfree hfile hne ht
        obtain ⟨a, ha⟩ := h₁.fields
        have hpos := n1_pos body.length hne
        have hle := (n1_le body.length p).1
        have hlen : body.length + Image.n1 body.length p =
            (body ++ p.take (Image.n1 body.length p)).length := by
          rw [List.length_append, List.length_take, Nat.min_eq_left hle]
        dsimp only at h
        rw [hlen] at h
        obtain ⟨h₂, hoff⟩ := ih (by rw [List.length_drop]; omega) h₁.sound
          (update_self ..) (by rw [ha]; exact htype) h₁.high h₁.file h
        rw [List.append_assoc, List.take_append_drop] at h₂ hoff
        exact ⟨h₁.trans h₂, hoff⟩

end

end Xv6Pdx.Mkfs
