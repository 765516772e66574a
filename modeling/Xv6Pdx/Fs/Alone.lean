/-
# `Fs.Alone` — the blocks of one file

A file whose blocks are its own (`Alone`) gains a block in an empty place (`Gain`);
the new block is zero, so the bytes of the file are what they were, and those of
every other inode are untouched (`Kept`).  Writing into one of its blocks then
changes the bytes of the file, and nothing else.
-/
import Xv6Pdx.Fs.Blocks

namespace Xv6Pdx

open Lib Bytes
open Function (update update_self update_of_ne)

/-! ## The blocks of one inode -/

/-- The place of the indirect block. -/
def Ref.ind : Ref := .addr (Fin.last NDIRECT)

def Taken (sb : Superblock) (disk : Disk) (b : Nat) : Prop :=
  sb.dataStart ≤ b ∧ b < sb.size ∧ inUse sb disk b = true

/-- The blocks of `d` are data blocks in use, each in one place, and not of the inodes
`others`. -/
structure Alone (sb : Superblock) (others : DInode → Prop) (disk : Disk) (d : DInode) : Prop where
  laid : sb.Laid
  low : ∀ b < sb.dataStart, inUse sb disk b = true
  own : ∀ r b, d.block disk r = some b → Taken sb disk b
  single : ∀ r r' b, d.block disk r = some b → d.block disk r' = some b → r = r'
  foreign : ∀ e, others e → ∀ r b, e.block disk r = some b →
    Taken sb disk b ∧ ∀ r', d.block disk r' ≠ some b

/-- The free map marks block `b`, and the block is cleared. -/
def allocate (sb : Superblock) (disk : Disk) (b : Nat) : Disk :=
  update (update disk (BBLOCK sb b) (setBit (disk (BBLOCK sb b)) (b % BPB) true)) b fun _ => 0

/-- The empty place `r` of `d` gets the block `b`, which was free and is now clear. -/
structure Gain (sb : Superblock) (disk : Disk) (d : DInode) (r : Ref) (b : Nat) (disk' : Disk)
    (d' : DInode) : Prop where
  empty : d.block disk r = none
  free : sb.dataStart ≤ b ∧ b < sb.size ∧ inUse sb disk b = false
  fields : d' = { d with addrs := d'.addrs }
  block : ∀ r', d'.block disk' r' = if r' = r then some b else d.block disk r'
  clear : disk' b = fun _ => 0
  data : ∀ c, sb.dataStart ≤ c → c ≠ b → (∀ j, r = .entry j → c ≠ d.indirect) → disk' c = disk c
  head : ∀ c < sb.bmapstart, disk' c = disk c
  marks : ∀ c < sb.size, inUse sb disk' c = if c = b then true else inUse sb disk c

/-- What a step of `writei` leaves: the inodes, the blocks that the file had, and the
bytes of other inodes. -/
structure Kept (sb : Superblock) (others : DInode → Prop) (disk : Disk) (d : DInode)
    (disk' : Disk) (d' : DInode) : Prop where
  alone : Alone sb others disk' d'
  head : ∀ c < sb.bmapstart, disk' c = disk c
  fields : d' = { d with addrs := d'.addrs }
  slots : ∀ bn, d.slot disk bn ≠ none → d'.slot disk' bn ≠ none
  foreign : ∀ e, others e → e.content disk' = e.content disk

section

variable {sb : Superblock} {others : DInode → Prop} {disk disk' disk'' : Disk}
  {d d' d'' : DInode} {r : Ref} {b : Nat}

theorem inUse_data (hl : sb.Laid) {x : Nat} (hx : sb.dataStart ≤ x) (c : Block) {y : Nat}
    (hy : y < sb.size) : inUse sb (update disk x c) y = inUse sb disk y := by
  have := hl.bblock hy
  exact inUse_of_ne (by omega) c

theorem taken_data (hl : sb.Laid) {x : Nat} (hx : sb.dataStart ≤ x) (c : Block) (y : Nat) :
    Taken sb (update disk x c) y ↔ Taken sb disk y := by
  refine and_congr_right fun _ => and_congr_right fun hy => ?_
  rw [inUse_data hl hx c hy]

theorem Kept.refl (h : Alone sb others disk d) : Kept sb others disk d disk d :=
  ⟨h, fun _ _ => rfl, rfl, fun _ h => h, fun _ _ => rfl⟩

theorem Kept.trans (h : Kept sb others disk d disk' d') (h' : Kept sb others disk' d' disk'' d'') :
    Kept sb others disk d disk'' d'' where
  alone := h'.alone
  head := fun c hc => (h'.head c hc).trans (h.head c hc)
  fields := by rw [h'.fields, h.fields]
  slots := fun bn hb => h'.slots bn (h.slots bn hb)
  foreign := fun e he => (h'.foreign e he).trans (h.foreign e he)

theorem indirect_block {e : DInode} (h : e.indirect ≠ 0) : e.block disk .ind = some e.indirect :=
  asBlock_of_ne h

theorem block_ne_zero {e : DInode} (h : e.block disk r = some b) : b ≠ 0 := by
  cases r with
  | addr k => exact fun h0 => (asBlock_eq_some.mp h).2 ((asBlock_eq_some.mp h).1.trans h0)
  | entry j =>
    obtain ⟨c, -, hc⟩ := Option.bind_eq_some_iff.mp h
    exact fun h0 => (asBlock_eq_some.mp hc).2 ((asBlock_eq_some.mp hc).1.trans h0)

/-- The blocks of an inode are found in the inode and in its indirect block only. -/
theorem block_congr {e : DInode} (h : ∀ c, e.block disk .ind = some c → disk' c = disk c)
    (r : Ref) : e.block disk' r = e.block disk r := by
  cases r with
  | addr k => rfl
  | entry j =>
    simp only [DInode.block]
    cases hi : asBlock e.indirect with
    | none => rfl
    | some c => rw [Option.bind_some, Option.bind_some, h c hi]

theorem content_congr {e : DInode} (h : ∀ r c, e.block disk r = some c → disk' c = disk c) :
    e.content disk' = e.content disk := by
  funext o
  rw [DInode.content, DInode.content, DInode.slot, DInode.slot, block_congr (h .ind)]
  split
  · rfl
  · next c hc => rw [h _ c hc]

namespace Gain

variable (g : Gain sb disk d r b disk' d')

include g

theorem ne_of_taken {c : Nat} (hc : Taken sb disk c) : c ≠ b := by
  rintro rfl
  have hused := hc.2.2
  rw [g.free.2.2] at hused
  cases hused

/-- A data block in use stays, with what is in it, unless it is the indirect block. -/
theorem stays {c : Nat} (hc : Taken sb disk c) (hne : ∀ j, r = .entry j → c ≠ d.indirect) :
    disk' c = disk c :=
  g.data c hc.1 (g.ne_of_taken hc) hne

theorem taken {c : Nat} (hc : Taken sb disk c) : Taken sb disk' c := by
  refine ⟨hc.1, hc.2.1, ?_⟩
  rw [g.marks c hc.2.1, hc.2.2]
  exact ite_self _

theorem foreign_stays (h : Alone sb others disk d) {e : DInode} (he : others e) {r' : Ref} {c : Nat}
    (hc : e.block disk r' = some c) : disk' c = disk c := by
  obtain ⟨htaken, hnot⟩ := h.foreign e he r' c hc
  refine g.stays htaken fun j _ hi => ?_
  have hne : d.indirect ≠ 0 := hi ▸ block_ne_zero hc
  exact hnot .ind (hi ▸ indirect_block hne)

theorem foreign_block (h : Alone sb others disk d) {e : DInode} (he : others e) (r' : Ref) :
    e.block disk' r' = e.block disk r' :=
  block_congr (fun _ hc => g.foreign_stays h he hc) r'

theorem alone (h : Alone sb others disk d) : Alone sb others disk' d' where
  laid := h.laid
  low := by
    intro c hc
    rw [g.marks c (hc.trans_le h.laid.data), h.low c hc]
    exact ite_self _
  own := by
    intro r' c hc
    rw [g.block] at hc
    split at hc
    · cases hc
      refine ⟨g.free.1, g.free.2.1, ?_⟩
      rw [g.marks b g.free.2.1, if_pos rfl]
    · exact g.taken (h.own r' c hc)
  single := by
    intro r₁ r₂ c h₁ h₂
    rw [g.block] at h₁ h₂
    split at h₁ <;> split at h₂
    · next e₁ e₂ => rw [e₁, e₂]
    · cases h₁
      exact (g.ne_of_taken (h.own _ _ h₂) rfl).elim
    · cases h₂
      exact (g.ne_of_taken (h.own _ _ h₁) rfl).elim
    · exact h.single r₁ r₂ c h₁ h₂
  foreign := by
    intro e he r' c hc
    rw [g.foreign_block h he] at hc
    obtain ⟨htaken, hnot⟩ := h.foreign e he r' c hc
    refine ⟨g.taken htaken, fun r₁ h₁ => ?_⟩
    rw [g.block] at h₁
    split at h₁
    · cases h₁
      exact g.ne_of_taken htaken rfl
    · exact hnot r₁ h₁

/-- The bytes of the file are what they were: a missing block reads as zeros. -/
theorem content (h : Alone sb others disk d) : d'.content disk' = d.content disk := by
  funext o
  rw [DInode.content, DInode.content, DInode.slot, DInode.slot, g.block]
  by_cases hr : place (o / BSIZE) = r
  · rw [if_pos hr, hr, g.empty]
    show disk' b (o % BSIZE) = 0
    rw [g.clear]
  · rw [if_neg hr]
    cases hc : d.block disk (place (o / BSIZE)) with
    | none => rfl
    | some c =>
      have hstay : disk' c = disk c := by
        refine g.stays (h.own _ c hc) fun j _ hi => ?_
        have hne : d.indirect ≠ 0 := hi ▸ block_ne_zero hc
        exact place_ne_indirect _ (h.single _ _ c hc (hi ▸ indirect_block hne))
      show disk' c _ = disk c _
      rw [hstay]

theorem kept (h : Alone sb others disk d) : Kept sb others disk d disk' d' where
  alone := g.alone h
  head := g.head
  fields := g.fields
  slots := by
    intro bn hbn
    rw [DInode.slot, g.block]
    split
    · simp
    · exact hbn
  foreign := fun _ he => content_congr fun _ _ hc => g.foreign_stays h he hc

end Gain

/-! ## Steps of the disk -/

section

variable (hl : sb.Laid)

include hl

theorem allocate_data {c : Nat} (hb : b < sb.size) (hc : sb.dataStart ≤ c) (hne : c ≠ b) :
    allocate sb disk b c = disk c := by
  have hbb := hl.bblock hb
  rw [allocate, update_of_ne hne, update_of_ne (by omega)]

theorem allocate_head {c : Nat} (hb : b < sb.size) (hd : sb.dataStart ≤ b) (hc : c < sb.bmapstart) :
    allocate sb disk b c = disk c := by
  have hbb := hl.bblock hb
  have hds := hl.dataStart_gt
  rw [allocate, update_of_ne (by omega), update_of_ne (by omega)]

theorem allocate_marks {c : Nat} (hd : sb.dataStart ≤ b) (hc : c < sb.size) :
    inUse sb (allocate sb disk b) c = if c = b then true else inUse sb disk c := by
  rw [allocate, inUse_data hl hd _ hc, inUse_set]

end

/-- The places of the file are not in what `allocate` changes. -/
theorem block_allocate (h : Alone sb others disk d)
    (hb : sb.dataStart ≤ b ∧ b < sb.size ∧ inUse sb disk b = false) (r : Ref) :
    d.block (allocate sb disk b) r = d.block disk r := by
  refine block_congr (fun c hc => ?_) r
  have htaken := h.own .ind c hc
  refine allocate_data h.laid hb.2.1 htaken.1 ?_
  rintro rfl
  have hused := htaken.2.2
  rw [hb.2.2] at hused
  cases hused

theorem asBlock_data (hl : sb.Laid) (hb : sb.dataStart ≤ b) : asBlock b = some b := by
  have hds := hl.dataStart_gt
  exact asBlock_of_ne (by omega)

theorem gain_addr (h : Alone sb others disk d) {k : Fin (NDIRECT + 1)} (hk : d.addrs k = 0)
    (hb : sb.dataStart ≤ b ∧ b < sb.size ∧ inUse sb disk b = false) :
    Gain sb disk d (.addr k) b (allocate sb disk b) (d.setAddr k b) where
  empty := by
    rw [DInode.block, hk]
    rfl
  free := hb
  fields := rfl
  block := by
    intro r'
    have hclear : allocate sb disk b b = fun _ => 0 := update_self ..
    rw [← asBlock_data h.laid hb.1, ← block_allocate h hb]
    by_cases hlast : k = Fin.last NDIRECT
    · subst hlast
      exact block_setIndirect hclear hk r'
    · exact block_setAddr hlast b r'
  clear := update_self ..
  data := fun c hc hne _ => allocate_data h.laid hb.2.1 hc hne
  head := fun c hc => allocate_head h.laid hb.2.1 hb.1 hc
  marks := fun c hc => allocate_marks h.laid hb.1 hc

theorem gain_entry (h : Alone sb others disk d) {j : Fin NINDIRECT} (hd : d.indirect ≠ 0)
    (hj : (disk d.indirect).word j = 0)
    (hb : sb.dataStart ≤ b ∧ b < sb.size ∧ inUse sb disk b = false) :
    Gain sb disk d (.entry j) b (update (allocate sb disk b) d.indirect
      ((allocate sb disk b d.indirect).setWord j b)) d := by
  have hind := h.own .ind _ (indirect_block hd)
  have hds := h.laid.dataStart_gt
  have hne : b ≠ d.indirect := by
    rintro rfl
    have hused := hind.2.2
    rw [hb.2.2] at hused
    cases hused
  refine ⟨?_, hb, rfl, ?_, ?_, ?_, ?_, ?_⟩
  · rw [DInode.block, asBlock_of_ne hd, Option.bind_some, hj]
    rfl
  · intro r'
    rw [← asBlock_data h.laid hb.1, ← block_allocate h hb]
    exact block_setWord (hb.2.1.trans h.laid.size) hd r'
  · rw [update_of_ne hne]
    exact update_self ..
  · intro c hc hcb hci
    rw [update_of_ne (hci j rfl), allocate_data h.laid hb.2.1 hc hcb]
  · intro c hc
    have hci := hind.1
    rw [update_of_ne (by omega), allocate_head h.laid hb.2.1 hb.1 hc]
  · intro c hc
    rw [inUse_data h.laid hind.1 _ hc, allocate_marks h.laid hb.1 hc]

/-- A block of the file is written: its bytes change, and nothing else. -/
theorem Alone.write (h : Alone sb others disk d) {bn : Nat} (hbn : bn < MAXFILE)
    (hb : d.slot disk bn = some b) (x : Block) :
    Kept sb others disk d (update disk b x) d ∧
    ∀ o, o / BSIZE < MAXFILE → d.content (update disk b x) o =
      if o / BSIZE = bn then x (o % BSIZE) else d.content disk o := by
  have htaken := h.own _ b hb
  have hds := h.laid.dataStart_gt
  have hblock : ∀ r', d.block (update disk b x) r' = d.block disk r' := by
    refine block_congr fun c hc => update_of_ne ?_ ..
    rintro rfl
    exact place_ne_indirect bn (h.single _ _ _ hb hc)
  have hforeign : ∀ e, others e → ∀ r' c, e.block disk r' = some c →
      update disk b x c = disk c := by
    intro e he r' c hc
    refine update_of_ne ?_ ..
    rintro rfl
    exact (h.foreign e he r' _ hc).2 _ hb
  have htaken' : ∀ c, Taken sb (update disk b x) c ↔ Taken sb disk c :=
    taken_data h.laid htaken.1 x
  refine ⟨⟨⟨h.laid, ?_, ?_, ?_, ?_⟩, ?_, rfl, ?_, ?_⟩, ?_⟩
  · intro c hc
    rw [inUse_data h.laid htaken.1 x (hc.trans_le h.laid.data)]
    exact h.low c hc
  · intro r' c hc
    rw [hblock] at hc
    exact (htaken' c).mpr (h.own r' c hc)
  · intro r₁ r₂ c h₁ h₂
    rw [hblock] at h₁ h₂
    exact h.single r₁ r₂ c h₁ h₂
  · intro e he r' c hc
    rw [block_congr (fun c hc => hforeign e he _ c hc)] at hc
    obtain ⟨ht, hnot⟩ := h.foreign e he r' c hc
    refine ⟨(htaken' c).mpr ht, fun r₁ h₁ => ?_⟩
    rw [hblock] at h₁
    exact hnot r₁ h₁
  · intro c hc
    have hle := htaken.1
    exact update_of_ne (by omega) ..
  · intro bn' hbn'
    rwa [DInode.slot, hblock]
  · exact fun e he => content_congr (hforeign e he)
  · intro o ho
    rw [DInode.content, DInode.content, DInode.slot, DInode.slot, hblock]
    by_cases hbn' : o / BSIZE = bn
    · rw [if_pos hbn', hbn']
      have hs : d.block disk (place bn) = some b := hb
      rw [hs]
      show update disk b x b _ = _
      rw [update_self]
    · rw [if_neg hbn']
      split
      · rfl
      · next c hc =>
          have hcb : c ≠ b := by
            rintro rfl
            exact hbn' (place_injective ho hbn (h.single _ _ _ hc hb))
          rw [update_of_ne hcb]

theorem Alone.congr (h : Alone sb others disk d)
    (hsame : ∀ c, sb.bmapstart ≤ c → disk' c = disk c) : Alone sb others disk' d := by
  have hds := h.laid.dataStart_gt
  have hdata : ∀ c, Taken sb disk c → disk' c = disk c :=
    fun c hc => hsame c (by have := hc.1; omega)
  have hused : ∀ c < sb.size, inUse sb disk' c = inUse sb disk c := by
    intro c hc
    rw [inUse, inUse, hsame _ (h.laid.bblock hc).1]
  have htaken : ∀ c, Taken sb disk c → Taken sb disk' c :=
    fun c hc => ⟨hc.1, hc.2.1, (hused c hc.2.1).trans hc.2.2⟩
  have hblock : ∀ r, d.block disk' r = d.block disk r :=
    block_congr fun c hc => hdata c (h.own _ c hc)
  refine ⟨h.laid, ?_, ?_, ?_, ?_⟩
  · intro c hc
    rw [hused c (hc.trans_le h.laid.data)]
    exact h.low c hc
  · intro r c hc
    rw [hblock] at hc
    exact htaken c (h.own r c hc)
  · intro r r' c h₁ h₂
    rw [hblock] at h₁ h₂
    exact h.single r r' c h₁ h₂
  · intro e he r c hc
    rw [block_congr fun c hc => hdata c (h.foreign e he _ c hc).1] at hc
    obtain ⟨ht, hnot⟩ := h.foreign e he r c hc
    refine ⟨htaken c ht, fun r' h' => ?_⟩
    rw [hblock] at h'
    exact hnot r' h'

theorem Alone.content_congr (h : Alone sb others disk d)
    (hsame : ∀ c, sb.bmapstart ≤ c → disk' c = disk c) :
    d.content disk' = d.content disk ∧ ∀ e, others e → e.content disk' = e.content disk := by
  have hds := h.laid.dataStart_gt
  have hdata : ∀ c, Taken sb disk c → disk' c = disk c :=
    fun c hc => hsame c (by have := hc.1; omega)
  exact ⟨Xv6Pdx.content_congr fun r c hc => hdata c (h.own r c hc),
    fun e he => Xv6Pdx.content_congr fun r c hc => hdata c (h.foreign e he r c hc).1⟩

theorem block_of_addrs (haddrs : d'.addrs = d.addrs) (r : Ref) :
    d'.block disk r = d.block disk r := by
  cases r with
  | addr k => rw [DInode.block, haddrs, DInode.block]
  | entry j => rw [DInode.block, DInode.indirect, haddrs, DInode.block, DInode.indirect]

theorem Alone.of_addrs (h : Alone sb others disk d) (haddrs : d'.addrs = d.addrs) :
    Alone sb others disk d' := by
  have hblock : ∀ r, d'.block disk r = d.block disk r := block_of_addrs haddrs
  refine ⟨h.laid, h.low, ?_, ?_, ?_⟩
  · intro r c hc
    exact h.own r c (hblock r ▸ hc)
  · intro r r' c h₁ h₂
    exact h.single r r' c (hblock r ▸ h₁) (hblock r' ▸ h₂)
  · intro e he r c hc
    obtain ⟨ht, hnot⟩ := h.foreign e he r c hc
    exact ⟨ht, fun r' h' => hnot r' (hblock r' ▸ h')⟩

theorem content_of_addrs (haddrs : d'.addrs = d.addrs) : d'.content disk = d.content disk := by
  funext o
  rw [DInode.content, DInode.content, DInode.slot, DInode.slot, block_of_addrs haddrs]

end

end Xv6Pdx
