/-
# `Vm.Grow` — `allocuvm` and `growproc`

`allocuvm` maps the pages of a range, each to a page of zeros.  If `kalloc` has no page for
the data, everything that was mapped is freed again.  If it has no page for a page table,
`mappages` fails, and `allocuvm` does not look: the data page is lost, its number is not
mapped, and the loop goes on.  So the call is exact exactly if the first request that `kalloc`
refuses is not for a page table.

`growproc` takes the result 0 of `deallocuvm` for an error, so that a process that gives all
its memory back keeps its size and has no pages; and the unsigned sum of the size and a
negative number below it is a large one, for which `deallocuvm` does nothing.
-/
import Xv6Pdx.Vm.Dealloc

namespace Xv6Pdx.Vm

open Lib Bytes
open Mem (Page Layout PGSIZE NPDENTRIES NPTENTRIES PHYSTOP PGROUNDUP PGROUNDDOWN)

/-- The flags of a page of user memory. -/
def userFlags : Nat := PTE_W ||| PTE_U ||| PTE_P

/-- The loop of `allocuvm` is at page `k`; `hand'` has the pages that were lost. -/
structure Grown (lay : Layout) (d : Page) (first k : Nat) (m : Memory) (hand : List Page)
    (m' : Memory) (hand' : List Page) : Prop where
  maps : Maps lay d m hand m' hand'
  old : ∀ n < NPAGES, ¬ (first ≤ n ∧ n < k) → m'.map d n = m.map d n
  new : ∀ n, first ≤ n → n < k → ∀ w, m'.map d n = some w →
    ∃ p ∈ m.free, w = mkPte p userFlags ∧ m'.ram p = fun _ => 0

/-- All that the loop has asked for was there; or a page table was refused first, and the page
for which it was is lost. -/
inductive Account (d : Page) (first k : Nat) (m : Memory) (hand : List Page) (m' : Memory)
    (hand' : List Page) : Prop
  | all (hand : hand' = hand) (entered : Entered true d (k - first) first m m')
    (full : ∀ n, first ≤ n → n < k → m'.map d n ≠ none)
  | lost (refused : m.refused (requests true (m.tabled d) (k - first) first) = some .table)
    (gap : ∃ n, first ≤ n ∧ n < k ∧ m'.map d n = none) (page : ∃ p ∈ m.free, p ∈ hand')

section

variable {lay : Layout} {m m₁ m' : Memory} {d : Page} {hand hand₁ hand' : List Page}
  {first k last : Nat} {E : String → Prop}

theorem Grown.refl (h : Space lay m d hand) (first : Nat) :
    Grown lay d first first m hand m hand where
  maps := .refl h
  old := fun _ _ _ => rfl
  new := fun _ h₁ h₂ => absurd h₂ (not_lt.mpr h₁)

theorem Grown.noise (h : Grown lay d first k m hand m₁ hand₁) (hram : m'.ram = m₁.ram)
    (hfree : m'.free = m₁.free) (hcr3 : m'.cr3 = m₁.cr3) :
    Grown lay d first k m hand m' hand₁ where
  maps := h.maps.trans (.noise h.maps.space hram hfree hcr3)
  old := by
    rw [map_of_ram hram]
    exact h.old
  new := by
    rw [map_of_ram hram, hram]
    exact h.new

/-- The loop of `deallocuvm` begins well, as tables stay. -/
theorem Grown.starts (h : Grown lay d first k m hand m' hand')
    (hstart : first % NPTENTRIES = 0 ∨ m.table d (first / NPTENTRIES) ≠ none) :
    m'.Meets d first last := by
  refine meets_of_start last (hstart.imp_right fun htable => ?_)
  obtain ⟨t, ht⟩ := Option.ne_none_iff_exists'.mp htable
  rw [h.maps.table _ t ht]
  nofun

/-- Pages of zeros are not written when more is mapped. -/
theorem Grown.new_of_maps (h : Grown lay d first k m hand m₁ hand₁)
    (hmaps : Maps lay d m₁ hand₁ m' hand') (hk : k ≤ USERPAGES) {n w : Nat} (h₁ : first ≤ n)
    (h₂ : n < k) (hw : m₁.map d n = some w) :
    ∃ p ∈ m.free, w = mkPte p userFlags ∧ m'.ram p = fun _ => 0 := by
  obtain ⟨p, hp, rfl, hzero⟩ := h.new n h₁ h₂ w hw
  have hpage : m₁.page d n = some p := by
    rw [Memory.page, hw, Option.map_some, pageOf_mkPte p (by decide)]
  obtain ⟨-, hfree, hd, ht⟩ := h.maps.space.page_valid (by omega) hpage
  refine ⟨p, hp, rfl, (hmaps.data p ?_ hd ht).trans hzero⟩
  exact fun hmem => hfree (List.mem_append_right _ hmem)

theorem Grown.add (h : Grown lay d first k m hand m₁ hand₁) (hk : k < USERPAGES)
    (hfirst : first ≤ k) {p : Page} (hp : p ∈ m.free) (hzero : m'.ram p = fun _ => 0)
    (hmaps : Maps lay d m₁ hand₁ m' hand₁)
    (hmap : ∀ n < NPAGES, m'.map d n = if n = k then some (mkPte p userFlags) else m₁.map d n) :
    Grown lay d first (k + 1) m hand m' hand₁ where
  maps := h.maps.trans hmaps
  old := by
    intro n hn hout
    rw [hmap n hn, if_neg (by omega), h.old n hn (by omega)]
  new := by
    intro n h₁ h₂ w hw
    have hn : n < NPAGES := Nat.lt_of_le_of_lt (Nat.le_of_lt_succ h₂) (hk.trans (by decide))
    rw [hmap n hn] at hw
    by_cases he : n = k
    · rw [if_pos he] at hw
      cases hw
      exact ⟨p, hp, rfl, hzero⟩
    · rw [if_neg he] at hw
      exact h.new_of_maps hmaps hk.le h₁ (by omega) hw

/-- There was no page for the table; the data page is lost. -/
theorem Grown.lose (h : Grown lay d first k m hand m₁ hand₁) (hk : k < USERPAGES)
    (hmaps : Maps lay d m₁ hand₁ m' hand') (hnone : m₁.map d k = none)
    (hmap : ∀ n < NPAGES, m'.map d n = m₁.map d n) : Grown lay d first (k + 1) m hand m' hand' where
  maps := h.maps.trans hmaps
  old := by
    intro n hn hout
    rw [hmap n hn, h.old n hn (by omega)]
  new := by
    intro n h₁ h₂ w hw
    rw [hmap n (Nat.lt_of_le_of_lt (Nat.le_of_lt_succ h₂) (hk.trans (by decide)))] at hw
    refine h.new_of_maps hmaps hk.le h₁ (Nat.lt_of_le_of_ne (Nat.le_of_lt_succ h₂) ?_) hw
    rintro rfl
    rw [hnone] at hw
    cases hw

/-- What was refused in a part of the loop was refused in the whole. -/
theorem refused_longer {data : Bool} {a b k : Nat} (hab : a ≤ b) {r : Request}
    (h : m.refused (requests data (m.tabled d) a k) = some r) :
    m.refused (requests data (m.tabled d) b k) = some r := by
  rw [← Nat.add_sub_cancel' hab, requests_add]
  exact refused_append h _

theorem Account.add (h : Account d first k m hand m₁ hand₁) (hk : k < USERPAGES)
    (hfirst : first ≤ k) {p : Page} (hent : Entered true d 1 k m₁ m')
    (hmap : ∀ n < NPAGES, m'.map d n = if n = k then some (mkPte p userFlags) else m₁.map d n) :
    Account d first (k + 1) m hand m' hand₁ := by
  have hpages : USERPAGES < NPAGES := by decide
  cases h with
  | all hhand hent₁ hfull =>
    refine .all hhand ?_ fun n h₁ h₂ => ?_
    · rw [Nat.succ_sub hfirst]
      exact hent₁.trans (by rwa [Nat.add_sub_cancel' hfirst])
    · rw [hmap n (by omega)]
      split
      · nofun
      · exact hfull n h₁ (by omega)
  | lost href hgap hpage =>
    obtain ⟨n, h₁, h₂, hnone⟩ := hgap
    refine .lost (refused_longer (by omega) href) ⟨n, h₁, by omega, ?_⟩ hpage
    rw [hmap n (by omega), if_neg (by omega), hnone]

theorem Account.lose (h : Account d first k m hand m₁ hand₁) (hk : k < USERPAGES)
    (hfirst : first ≤ k) {p : Page} (hp : p ∈ m.free)
    (href : m₁.refused (requests true (m₁.tabled d) 1 k) = some .table)
    (hnone : m₁.map d k = none) (hmap : ∀ n < NPAGES, m'.map d n = m₁.map d n) :
    Account d first (k + 1) m hand m' (p :: hand₁) := by
  have hpages : USERPAGES < NPAGES := by decide
  refine .lost ?_ ⟨k, hfirst, Nat.lt_succ_self k, ?_⟩ ⟨p, hp, List.mem_cons_self⟩
  · cases h with
    | all _ hent _ =>
      rw [Nat.succ_sub hfirst, Nat.succ_eq_add_one, hent.refused 1, Nat.add_sub_cancel' hfirst]
      exact href
    | lost href' _ _ => exact refused_longer (by omega) href'
  · rw [hmap k (by omega), hnone]

/-- The loop is over: whether a page table was refused is known from the state before. -/
theorem Account.missing (h : Account d first k m hand m' hand') :
    (hand' = hand ∧ (∀ n, first ≤ n → n < k → m'.map d n ≠ none) ∧
      m.refused (requests true (m.tabled d) (k - first) first) = none) ∨
    (m.refused (requests true (m.tabled d) (k - first) first) = some .table ∧
      ∃ n, first ≤ n ∧ n < k ∧ m'.map d n = none) := by
  cases h with
  | all hhand hent hfull => exact .inl ⟨hhand, hfull, hent.served.refused_self⟩
  | lost href hgap _ => exact .inr ⟨href, hgap⟩

theorem Account.stop (h : Account d first k m hand m₁ hand₁) (hfirst : first ≤ k) (hk : k < last)
    (hzero : m₁.supply = 0) :
    (hand₁ = hand ∧ m.refused (requests true (m.tabled d) (last - first) first) = some .page) ∨
    (m.refused (requests true (m.tabled d) (last - first) first) = some .table ∧
      ∃ p ∈ m.free, p ∈ hand₁) := by
  cases h with
  | all hhand hent _ =>
    refine .inl ⟨hhand, refused_longer (a := k - first + 1) (by omega) ?_⟩
    rw [hent.refused 1, Memory.refused, hzero]
    rfl
  | lost href _ hpage => exact .inr ⟨refused_longer (by omega) href, hpage⟩

theorem Grown.undo (h : Grown lay d first k m hand m₁ hand₁) (hk : k ≤ last)
    (hlast : last ≤ USERPAGES) (hblank : ∀ n, first ≤ n → n < last → m.map d n = none)
    (hf : Freed lay d (fun n => first ≤ n ∧ n < last) m₁ hand₁ m') :
    Maps lay d m hand m' hand₁ ∧ ∀ n < NPAGES, m'.map d n = m.map d n := by
  have hpages : USERPAGES ≤ NPAGES := by decide
  -- the pages that are freed have been taken from the list
  have htaken : ∀ n, first ≤ n ∧ n < last → ∀ p, m₁.page d n = some p → p ∈ m.free := by
    intro n hn p hp
    obtain ⟨w, hw, rfl⟩ := Option.map_eq_some_iff.mp hp
    by_cases hlt : n < k
    · obtain ⟨q, hq, rfl, -⟩ := h.new n hn.1 hlt w hw
      rwa [pageOf_mkPte q (by decide)]
    · rw [h.old n (by omega) (by omega), hblank n hn.1 hn.2] at hw
      cases hw
  have htable : ∀ i, m'.table d i = m₁.table d i := table_congr hf.dir
  refine ⟨⟨hf.space, h.maps.step.trans hf.step, ?_, ?_, ?_, ?_⟩, ?_⟩
  · intro p hp
    obtain ⟨l, hl, hmem⟩ := hf.freed
    rw [hl, List.mem_append, hmem] at hp
    rcases hp with ⟨n, hn, hpage⟩ | hp
    · exact htaken n hn p hpage
    · exact h.maps.sub p hp
  · intro q hq hd ht
    refine (hf.data q (fun i hi hi' => ?_) fun n hn hpage => hq (htaken n hn q hpage)).trans
      (h.maps.data q hq hd ht)
    rcases h.maps.old i q hi' with hold | hfree
    · exact ht i hi hold
    · exact hq hfree
  · exact fun i t ht => (htable i).trans (h.maps.table i t ht)
  · exact fun i t ht => h.maps.old i t ((htable i).symm.trans ht)
  · intro n hn
    by_cases hin : first ≤ n ∧ n < last
    · rw [hf.gone n hin, hblank n hin.1 hin.2]
    · rw [map_of_leaf (hf.kept n hn hin), h.old n hn (by omega)]

/-! ## `allocuvm` -/

/-- `allocuvm` has nothing mapped that was not before; a page may be lost. -/
structure GivenUp (lay : Layout) (d : Page) (first last : Nat) (m : Memory) (hand : List Page)
    (m' : Memory) (hand' : List Page) : Prop where
  maps : Maps lay d m hand m' hand'
  same : ∀ n < NPAGES, m'.map d n = m.map d n
  why : (hand' = hand ∧
      m.refused (requests true (m.tabled d) (last - first) first) = some .page) ∨
    (m.refused (requests true (m.tabled d) (last - first) first) = some .table ∧
      ∃ p ∈ m.free, p ∈ hand')

theorem allocLoop_ends {oldsz newsz : Nat} (hold : oldsz ≤ newsz) (hnew : newsz < KERNBASE)
    (hstart : first % NPTENTRIES = 0 ∨ m.table d (first / NPTENTRIES) ≠ none)
    (hfirst : pagesFor oldsz = first) (hlast : pagesFor newsz = last)
    (hblank : ∀ n, first ≤ n → n < last → m.map d n = none) :
    ∀ (fuel k : Nat) (m₁ : Memory) (hand₁ : List Page), last ≤ k + fuel → first ≤ k → k ≤ last →
      Grown lay d first k m hand m₁ hand₁ → Account d first k m hand m₁ hand₁ →
      (allocLoop lay d oldsz newsz fuel (PGSIZE * k)).ends (fun r m' => ∃ hand',
        (r = newsz ∧ Grown lay d first last m hand m' hand' ∧
          Account d first last m hand m' hand') ∨
        (r = 0 ∧ oldsz < newsz ∧ GivenUp lay d first last m hand m' hand')) E m₁ := by
  have hmax : last ≤ USERPAGES := hlast ▸ pagesFor_le hnew.le
  have hpages : USERPAGES ≤ NPAGES := by decide
  intro fuel
  induction fuel with
  | zero =>
    intro k m₁ hand₁ hfuel _ hk h hacc
    obtain rfl : k = last := by omega
    exact ⟨hand₁, .inl ⟨rfl, h, hacc⟩⟩
  | succ fuel ih =>
    intro k m₁ hand₁ hfuel hge hk h hacc
    rw [allocLoop]
    by_cases hlt : k < last
    · have hnone : m₁.map d k = none := by
        rw [h.old k (by omega) (by omega)]
        exact hblank k hge hlt
      rw [if_pos ((lt_pagesFor newsz k).mpr (hlast ▸ hlt)), Prog.ends_bind]
      refine kalloc_ends (fun luck hzero => ?_) fun p l luck hl hsupply => ?_
      · have h' : Grown lay d first k m hand { m₁ with luck := luck } hand₁ := h.noise rfl rfl rfl
        have hlt' : oldsz < newsz := by
          by_contra hge'
          have he : oldsz = newsz := by omega
          rw [he, hlast] at hfirst
          omega
        refine Prog.ends_seq (deallocuvm_ends h'.maps.space hlt' hnew.le ?_) ?_
        · rw [hfirst]
          exact h'.starts hstart
        · rintro _ m' ⟨-, hf⟩
          rw [hfirst, hlast] at hf
          obtain ⟨hmaps, hsame⟩ := h'.undo hk hmax hblank hf
          exact ⟨hand₁, .inr ⟨rfl, hlt', hmaps, hsame, hacc.stop hge hlt hzero⟩⟩
      · have hp : p ∈ m.free := h.maps.sub p (hl ▸ List.mem_cons_self)
        have hnext : PGSIZE * k + PGSIZE = PGSIZE * (k + 1) := rfl
        refine Prog.ends_bind.mpr (Prog.ends_modify.mpr (Prog.ends_seq
          (addPage_ends h.maps.space hl hsupply (fun _ => 0) (by omega) hnone (by decide)) ?_))
        rintro ok m' ⟨hzero, hres⟩
        rw [hnext]
        cases ok with
        | false =>
          obtain ⟨hmaps, href, hmap⟩ := hres
          exact ih (k + 1) m' _ (by omega) (by omega) hlt (h.lose (by omega) hmaps hnone hmap)
            (hacc.lose (by omega) hge hp href hnone hmap)
        | true =>
          obtain ⟨hmaps, hent, hmap⟩ := hres
          exact ih (k + 1) m' _ (by omega) (by omega) hlt
            (h.add (by omega) hge hp hzero hmaps hmap) (hacc.add (by omega) hge hent hmap)
    · obtain rfl : k = last := by omega
      rw [if_neg fun h' => hlt (hlast ▸ (lt_pagesFor newsz k).mp h')]
      exact ⟨hand₁, .inl ⟨rfl, h, hacc⟩⟩

/-- Exactly the user pages below the size are mapped. -/
def Memory.Exact (m : Memory) (d : Page) (sz : Nat) : Prop :=
  ∀ n < USERPAGES, m.map d n ≠ none ↔ n < pagesFor sz

/-- Behind a page that is mapped there is a table, or another one begins. -/
theorem starts_of_below {k : Nat} (h : ∀ n < k, m.map d n ≠ none) :
    k % NPTENTRIES = 0 ∨ m.table d (k / NPTENTRIES) ≠ none := by
  by_cases halign : k % NPTENTRIES = 0
  · exact .inl halign
  · have hsame : k / NPTENTRIES = (k - 1) / NPTENTRIES := by
      simp only [NPTENTRIES] at halign ⊢
      omega
    have hpos : 0 < k := Nat.pos_of_ne_zero fun he => halign (by rw [he]; rfl)
    refine .inr fun hnone => h (k - 1) (by omega) (map_of_table ?_)
    rw [← hsame, hnone]

theorem Memory.Exact.below {sz : Nat} (h : m.Exact d sz) (hsz : sz ≤ KERNBASE) :
    ∀ n < pagesFor sz, m.map d n ≠ none :=
  fun n hn => (h n (hn.trans_le (pagesFor_le hsz))).mpr hn

theorem Memory.Exact.blank {sz last : Nat} (h : m.Exact d sz) (hlast : last ≤ USERPAGES) :
    ∀ n, pagesFor sz ≤ n → n < last → m.map d n = none := by
  intro n h₁ h₂
  by_contra hne
  exact absurd ((h n (by omega)).mp hne) (not_lt.mpr h₁)

/-- An address space has no more pages than the memory. -/
theorem Space.pages_le (h : Space lay m d hand) {k : Nat} (hk : k ≤ USERPAGES)
    (hmap : ∀ n < k, m.map d n ≠ none) : k ≤ PHYSTOP / PGSIZE := by
  have hpage : ∀ n < k, ∃ p, m.page d n = some p := by
    intro n hn
    obtain ⟨w, hw⟩ := Option.ne_none_iff_exists'.mp (hmap n hn)
    exact ⟨pageOf w, by rw [Memory.page, hw]; rfl⟩
  have hcard := Finset.card_le_card_of_injOn (s := Finset.range k)
    (t := Finset.range (PHYSTOP / PGSIZE)) (fun n => (m.page d n).getD 0) ?_ ?_
  · rwa [Finset.card_range, Finset.card_range] at hcard
  · intro n hn
    obtain ⟨p, hp⟩ := hpage n (Finset.mem_range.mp hn)
    have hv := (h.page_valid ((Finset.mem_range.mp hn).trans_le hk) hp).1
    rw [Finset.coe_range, Set.mem_Iio]
    show (m.page d n).getD 0 < _
    rw [hp]
    exact hv.2.1
  · intro n hn j hj he
    have hn' := Finset.mem_range.mp hn
    have hj' := Finset.mem_range.mp hj
    obtain ⟨p, hp⟩ := hpage n hn'
    obtain ⟨q, hq⟩ := hpage j hj'
    simp only [hp, hq, Option.getD_some] at he
    exact h.page_inj (hn'.trans_le hk) (hj'.trans_le hk) hp (he ▸ hq)

theorem Memory.Exact.lt_KERNBASE {sz : Nat} (h : Space lay m d hand) (hexact : m.Exact d sz) :
    sz < KERNBASE := by
  have hle := h.pages_le (k := min (pagesFor sz) USERPAGES) (Nat.min_le_right ..) fun n hn =>
    (hexact n (by omega)).mpr (by omega)
  simp only [pagesFor, PGSIZE, USERPAGES, PHYSTOP, KERNBASE] at *
  omega

theorem allocuvm_ends (h : Space lay m d hand) {oldsz newsz : Nat} (hexact : m.Exact d oldsz)
    (hold : oldsz ≤ newsz) (hnew : newsz < KERNBASE) :
    (allocuvm lay d oldsz newsz).ends (fun r m' => ∃ hand',
      (r = newsz ∧ Grown lay d (pagesFor oldsz) (pagesFor newsz) m hand m' hand' ∧
        Account d (pagesFor oldsz) (pagesFor newsz) m hand m' hand') ∨
      (r = 0 ∧ oldsz < newsz ∧
        GivenUp lay d (pagesFor oldsz) (pagesFor newsz) m hand m' hand')) E m := by
  have hmono : pagesFor oldsz ≤ pagesFor newsz := by
    simp only [pagesFor, PGSIZE]
    omega
  have hfuel : pagesFor newsz ≤ pagesFor oldsz + (newsz / PGSIZE + 1) := by
    simp only [pagesFor, PGSIZE]
    omega
  have hstart : Entered true d (pagesFor oldsz - pagesFor oldsz) (pagesFor oldsz) m m := by
    rw [Nat.sub_self]
    exact ⟨(Nat.zero_add _).symm, rfl⟩
  rw [allocuvm, if_neg (not_le.mpr hnew), if_neg (not_lt.mpr hold), PGROUNDUP_eq (by omega)]
  exact allocLoop_ends hold hnew (starts_of_below (hexact.below (by omega))) rfl rfl
    (hexact.blank (pagesFor_le hnew.le)) _ _ m hand hfuel (Nat.le_refl _) hmono (.refl h _)
    (.all rfl hstart fun _ h₁ h₂ => absurd h₂ (not_lt.mpr h₁))

/-- Where the same is mapped, what was taken is back on the free list or is a table. -/
theorem Maps.returned (h₀ : Space lay m d hand) (h : Maps lay d m hand m' hand)
    (hmap : ∀ n < NPAGES, m'.map d n = m.map d n) {p : Page} (hp : p ∈ m.free) :
    p ∈ m'.free ∨ ∃ i < NPDENTRIES, m'.table d i = some p := by
  have hpmem : p ∈ hand ++ m.free := List.mem_append_right _ hp
  rcases (h.step.pool p).mpr (.inl hpmem) with hmem | ⟨a, ha⟩
  · refine (List.mem_append.mp hmem).elim (fun hhand => ?_) .inl
    exact absurd hp (h₀.hand_apart hhand).1
  · cases a with
    | dir =>
      cases ha
      exact absurd hpmem h₀.dir_valid.2
    | table i =>
      rw [Memory.holds] at ha
      split at ha
      · next hi => exact .inr ⟨i, hi, ha⟩
      · cases ha
    | page n =>
      rw [Memory.holds] at ha
      split at ha
      · next hn =>
          rw [Memory.page, hmap n (hn.trans (by decide))] at ha
          exact absurd hpmem (h₀.page_valid hn ha).2.1
      · cases ha

theorem Space.hand_lost (h : Space lay m d hand) {p : Page} (hp : p ∈ hand) :
    ¬ (p ∈ m.free ∨ ∃ i < NPDENTRIES, m.table d i = some p) := by
  obtain ⟨hfree, -, htable⟩ := h.hand_apart hp
  rintro (hmem | ⟨i, hi, ht⟩)
  · exact hfree hmem
  · exact htable i hi ht

/-- `allocuvm` is exact: with the new size, the pages of the range are mapped, each to a page of
its own with zeros; with 0, the same is mapped, and what was taken is free again or a table. -/
def AllocExact (lay : Layout) (m : Memory) (d : Page) (oldsz newsz : Nat) : Prop :=
  ∃ r m', (allocuvm lay d oldsz newsz).run m = some (.ok (r, m')) ∧ (r = newsz ∨ r = 0) ∧
    (r = newsz →
      (∀ n, InRange oldsz newsz n → ∃ p ∈ m.free, m'.map d n = some (mkPte p userFlags) ∧
        m'.ram p = fun _ => 0) ∧
      (∀ n k p, n < USERPAGES → k < USERPAGES → m'.page d n = some p →
        m'.page d k = some p → n = k) ∧
      ∀ n < NPAGES, ¬ InRange oldsz newsz n → m'.map d n = m.map d n) ∧
    (r = 0 → (∀ n < NPAGES, m'.map d n = m.map d n) ∧
      ∀ p ∈ m.free, p ∈ m'.free ∨ ∃ i < NPDENTRIES, m'.table d i = some p)

/-- What `allocuvm` asks `kalloc` for. -/
def allocRequests (m : Memory) (d : Page) (oldsz newsz : Nat) : List Request :=
  requests true (m.tabled d) (pagesFor newsz - pagesFor oldsz) (pagesFor oldsz)

/-- `allocuvm` is exact exactly if what `kalloc` refuses first is not a page table. -/
theorem allocuvm_exact_iff (h : Space lay m d []) {oldsz newsz : Nat} (hexact : m.Exact d oldsz)
    (hold : oldsz ≤ newsz) (hnew : newsz < KERNBASE) :
    AllocExact lay m d oldsz newsz ↔
      m.refused (allocRequests m d oldsz newsz) ≠ some .table := by
  have hrange : ∀ n, InRange oldsz newsz n ↔ pagesFor oldsz ≤ n ∧ n < pagesFor newsz :=
    fun n => inRange_iff (by omega)
  rcases Prog.ends_iff_run.mp (allocuvm_ends (E := fun _ => False) h hexact hold hnew) with
    ⟨r, m', hrun, hand', hres⟩ | ⟨_, _, hfalse⟩
  swap
  · exact hfalse.elim
  rcases hres with ⟨rfl, hgrown, hacc⟩ | ⟨rfl, hlt, hgiven⟩
  · rcases hacc.missing with ⟨rfl, hfull, href⟩ | ⟨href, n, h₁, h₂, hnone⟩
    · have hsome : m.refused (allocRequests m d oldsz r) ≠ some .table := by
        rw [allocRequests, href]
        nofun
      refine ⟨fun _ => hsome, fun _ => ⟨r, m', hrun, .inl rfl, fun _ => ⟨fun n hn => ?_, ?_, ?_⟩,
        fun hzero => ?_⟩⟩
      · obtain ⟨h₁, h₂⟩ := (hrange n).mp hn
        obtain ⟨w, hw⟩ := Option.ne_none_iff_exists'.mp (hfull n h₁ h₂)
        obtain ⟨p, hp, rfl, hram⟩ := hgrown.new n h₁ h₂ w hw
        exact ⟨p, hp, hw, hram⟩
      · exact fun n k p hn hk hp hp' => hgrown.maps.space.page_inj hn hk hp hp'
      · exact fun n hn hout => hgrown.old n hn ((hrange n).not.mp hout)
      · have hmap : ∀ n < NPAGES, m'.map d n = m.map d n := by
          intro n hn
          refine hgrown.old n hn fun hin => ?_
          have hpages : pagesFor r = 0 := by rw [hzero]; rfl
          omega
        exact ⟨hmap, fun p hp => hgrown.maps.returned h hmap hp⟩
    · -- the page without a table is not mapped
      refine ⟨fun hex => ?_, fun hne => absurd href hne⟩
      obtain ⟨r', m'', hrun', -, hall, -⟩ := hex
      rw [hrun] at hrun'
      cases hrun'
      obtain ⟨p, -, hmap, -⟩ := (hall rfl).1 n ((hrange n).mpr ⟨h₁, h₂⟩)
      rw [hnone] at hmap
      cases hmap
  · rcases hgiven.why with ⟨rfl, href⟩ | ⟨href, p, hp, hhand⟩
    · have hsome : m.refused (allocRequests m d oldsz newsz) ≠ some .table := by
        rw [allocRequests, href]
        nofun
      refine ⟨fun _ => hsome, fun _ => ⟨0, m', hrun, .inr rfl, fun he => by omega, fun _ =>
        ⟨hgiven.same, fun p hp => hgiven.maps.returned h hgiven.same hp⟩⟩⟩
    · -- the page of memory is in the hand for ever
      refine ⟨fun hex => ?_, fun hne => absurd href hne⟩
      obtain ⟨r', m'', hrun', -, -, hback⟩ := hex
      rw [hrun] at hrun'
      cases hrun'
      exact absurd ((hback rfl).2 p hp) (hgiven.maps.space.hand_lost hhand)

end

/-! ### An empty process -/

theorem emptyDir_space {f : List Page} (hf : Spare (300 :: f)) :
    Space smallKernel (emptyDir f) 300 [] ∧ (emptyDir f).Exact 300 0 := by
  obtain ⟨h, -, hmap, -⟩ := Space.empty (d := 300) (m := emptyDir f) rfl hf.1 hf.valid
  refine ⟨h, fun n _ => ?_⟩
  rw [hmap n]
  exact ⟨fun hne => absurd rfl hne, fun hlt => absurd hlt (Nat.not_lt_zero n)⟩

/-- Two pages are asked for.  There is one for the first and one for its table; then there is
none, and the page of memory is free again. -/
theorem allocuvm_second : Space smallKernel (emptyDir [301, 302]) 300 [] ∧
    (emptyDir [301, 302]).Exact 300 0 ∧
    (emptyDir [301, 302]).refused (allocRequests (emptyDir [301, 302]) 300 0 (2 * PGSIZE)) =
      some .page ∧
    AllocExact smallKernel (emptyDir [301, 302]) 300 0 (2 * PGSIZE) := by
  obtain ⟨h, hexact⟩ := emptyDir_space (f := [301, 302]) (by decide)
  have href : (emptyDir [301, 302]).refused
      (allocRequests (emptyDir [301, 302]) 300 0 (2 * PGSIZE)) = some .page := by decide +kernel
  refine ⟨h, hexact, href, (allocuvm_exact_iff h hexact (Nat.zero_le _) (by decide)).mpr ?_⟩
  rw [href]
  nofun

/-- One page is free: it is taken for the data, and there is none for the table.  The size is
returned, but the page is not mapped, and it is lost. -/
theorem allocuvm_loses : Space smallKernel (emptyDir [301]) 300 [] ∧
    (emptyDir [301]).Exact 300 0 ∧ 0 ≤ PGSIZE ∧ PGSIZE < KERNBASE ∧ InRange 0 PGSIZE 0 ∧
    ∃ m', (allocuvm smallKernel 300 0 PGSIZE).run (emptyDir [301]) = some (.ok (PGSIZE, m')) ∧
      m'.map 300 0 = none ∧ m'.free = [] := by
  obtain ⟨h, hexact⟩ := emptyDir_space (f := [301]) (by decide)
  refine ⟨h, hexact, by decide, by decide, ⟨by decide, by decide⟩, _, rfl, rfl, rfl⟩

/-! ## `growproc` -/

structure Task where
  mem : Memory
  sz : Nat
  pgdir : Page

abbrev TaskM := Prog Task String

def Task.vm {α : Type} (p : VmM α) : TaskM α := p.on Task.mem fun s m => { s with mem := m }

/-- `proc->sz = sz; switchuvm(proc)`. -/
def setSize (sz : Nat) : TaskM Int := do
  Prog.modify fun s => { s with sz := sz, mem := { s.mem with cr3 := s.pgdir } }
  pure 0

/-- `growproc`; the argument is an `int`, the sum is a `uint`. -/
def growproc (lay : Layout) (n : BitVec 32) : TaskM Int := do
  let p ← Prog.gets id
  let newsz := (p.sz + n.toNat) % 2 ^ 32
  if 0 < n.toInt then do
    let sz ← Task.vm (allocuvm lay p.pgdir p.sz newsz)
    if sz = 0 then pure (-1) else setSize sz
  else if n.toInt < 0 then do
    let sz ← Task.vm (deallocuvm lay p.pgdir p.sz newsz)
    if sz = 0 then pure (-1) else setSize sz
  else setSize p.sz

theorem Task.ends_vm {α : Type} {p : VmM α} {Q : α → Task → Prop} {E : String → Prop} {s : Task} :
    (Task.vm p).ends Q E s ↔ p.ends (fun a m => Q a { s with mem := m }) E s.mem := by
  unfold Task.vm
  apply Prog.ends_on
  · exact fun _ _ => rfl
  · exact fun _ _ _ => rfl
  · exact fun _ => rfl

/-- What `growproc` does if it is well. -/
structure Resized (s : Task) (n : Int) (s' : Task) : Prop where
  size : (s'.sz : Int) = s.sz + n
  bound : s'.sz < KERNBASE
  remain : n ≤ 0 → s'.mem.Exact s.pgdir s'.sz ∧
    ∀ k < pagesFor s'.sz, s'.mem.map s.pgdir k = s.mem.map s.pgdir k

/-- The size and what is mapped are as before. -/
def Task.Same (s s' : Task) : Prop :=
  s'.sz = s.sz ∧ ∀ k < NPAGES, s'.mem.map s.pgdir k = s.mem.map s.pgdir k

section

variable {lay : Layout} {s : Task} {hand : List Page} {n : BitVec 32} {E : String → Prop}

theorem map_switch (m : Memory) (p : Page) : Memory.map { m with cr3 := p } = m.map :=
  map_of_ram rfl

theorem growproc_more (h : Space lay s.mem s.pgdir hand) (hexact : s.mem.Exact s.pgdir s.sz)
    (hn : 0 < n.toInt) : (growproc lay n).ends (fun r s' => s'.pgdir = s.pgdir ∧
      (r = 0 ∧ Resized s n.toInt s' ∨ r = -1 ∧ s.Same s')) E s := by
  have hsz := hexact.lt_KERNBASE h
  have hint := n.toInt_eq_toNat_cond
  have hlt := n.isLt
  have hnew : (s.sz + n.toNat) % 2 ^ 32 = s.sz + n.toNat := by
    simp only [KERNBASE] at hsz
    omega
  rw [growproc, Prog.ends_bind, Prog.ends_gets]
  dsimp only [id]
  rw [if_pos hn, hnew, Prog.ends_bind, Task.ends_vm]
  by_cases hmax : s.sz + n.toNat < KERNBASE
  · refine Prog.ends_mono (allocuvm_ends h hexact (Nat.le_add_right ..) hmax) ?_ (fun _ he => he)
    rintro r m' ⟨hand', ⟨rfl, -⟩ | ⟨rfl, -, hgiven⟩⟩
    · rw [if_neg (by omega)]
      refine ⟨rfl, .inl ⟨rfl, ?_, hmax, ?_⟩⟩
      · show ((s.sz + n.toNat : Nat) : Int) = _
        omega
      · omega
    · exact ⟨rfl, .inr ⟨rfl, rfl, hgiven.same⟩⟩
  · rw [allocuvm, if_pos (not_lt.mp hmax)]
    exact ⟨rfl, .inr ⟨rfl, rfl, fun _ _ => rfl⟩⟩

theorem growproc_less (h : Space lay s.mem s.pgdir hand) (hexact : s.mem.Exact s.pgdir s.sz)
    (hneg : n.toInt < 0) (hpos : 0 < (s.sz : Int) + n.toInt) :
    (growproc lay n).ends (fun r s' => s'.pgdir = s.pgdir ∧ r = 0 ∧ Resized s n.toInt s') E s := by
  have hsz := hexact.lt_KERNBASE h
  have hint := n.toInt_eq_toNat_cond
  have hlt := n.isLt
  obtain ⟨newsz, hnew⟩ : ∃ k : Nat, k = (s.sz + n.toNat) % 2 ^ 32 := ⟨_, rfl⟩
  have hsum : (newsz : Int) = s.sz + n.toInt := by
    simp only [KERNBASE] at hsz
    omega
  have hle : pagesFor newsz ≤ pagesFor s.sz := by
    simp only [pagesFor, PGSIZE]
    omega
  have hbelow := hexact.below hsz.le
  have hmeets : s.mem.Meets s.pgdir (pagesFor newsz) (pagesFor s.sz) :=
    meets_of_start _ (starts_of_below fun k hk => hbelow k (by omega))
  rw [growproc, Prog.ends_bind, Prog.ends_gets]
  dsimp only [id]
  rw [if_neg (by omega), if_pos hneg, ← hnew, Prog.ends_bind, Task.ends_vm]
  refine Prog.ends_mono (deallocuvm_ends h (by omega) hsz.le hmeets) ?_ (fun _ he => he)
  rintro r m' ⟨rfl, hf⟩
  rw [if_neg (by omega)]
  have hpages : pagesFor s.sz ≤ USERPAGES := pagesFor_le hsz.le
  have hUN : USERPAGES ≤ NPAGES := by decide
  refine ⟨rfl, rfl, hsum, (by omega : r < KERNBASE), fun _ => ⟨?_, ?_⟩⟩
  · intro k hk
    rw [map_switch]
    by_cases hin : pagesFor r ≤ k ∧ k < pagesFor s.sz
    · rw [hf.gone k hin]
      exact ⟨fun hne => absurd rfl hne, fun hlt => absurd hlt (not_lt.mpr hin.1)⟩
    · rw [map_of_leaf (hf.kept k (by omega) hin), hexact k hk]
      show _ ↔ k < pagesFor r
      omega
  · intro k hk
    have hk : k < pagesFor r := hk
    rw [map_switch]
    exact map_of_leaf (hf.kept k (by omega) (by omega))

/-- The process gives back all its memory: the pages are gone, but the result is -1. -/
theorem growproc_all (h : Space lay s.mem s.pgdir hand) (hexact : s.mem.Exact s.pgdir s.sz)
    (hpos : 0 < s.sz) (hsum : (s.sz : Int) + n.toInt = 0) :
    (growproc lay n).ends (fun r s' => r = -1 ∧ s'.mem.map s.pgdir 0 = none) E s := by
  have hsz := hexact.lt_KERNBASE h
  have hint := n.toInt_eq_toNat_cond
  have hlt := n.isLt
  have hnew : (s.sz + n.toNat) % 2 ^ 32 = 0 := by
    simp only [KERNBASE] at hsz
    omega
  have hfirst : 0 < pagesFor s.sz := (lt_pagesFor s.sz 0).mp hpos
  rw [growproc, Prog.ends_bind, Prog.ends_gets]
  dsimp only [id]
  rw [if_neg (by omega), if_pos (by omega), hnew, Prog.ends_bind, Task.ends_vm]
  refine Prog.ends_mono (deallocuvm_ends h hpos hsz.le
    (meets_of_start _ (.inl (by decide)))) ?_ (fun _ he => he)
  rintro r m' ⟨rfl, hf⟩
  exact ⟨rfl, hf.gone 0 ⟨Nat.le_refl 0, hfirst⟩⟩

/-- It gives back more than it has: `deallocuvm` sees a larger size and does nothing. -/
theorem growproc_beyond (h : Space lay s.mem s.pgdir hand) (hexact : s.mem.Exact s.pgdir s.sz)
    (hpos : 0 < s.sz) (hsum : (s.sz : Int) + n.toInt < 0) :
    (growproc lay n).ends (fun r s' => r = 0 ∧ s'.sz = s.sz) E s := by
  have hsz := hexact.lt_KERNBASE h
  have hint := n.toInt_eq_toNat_cond
  have hlt := n.isLt
  have hnew : s.sz ≤ (s.sz + n.toNat) % 2 ^ 32 := by
    simp only [KERNBASE] at hsz
    omega
  rw [growproc, Prog.ends_bind, Prog.ends_gets]
  dsimp only [id]
  rw [if_neg (by omega), if_pos (by omega), Prog.ends_bind, Task.ends_vm, deallocuvm, if_pos hnew]
  show Prog.ends (if s.sz = 0 then _ else _) _ E _
  rw [if_neg hpos.ne']
  exact ⟨rfl, rfl⟩

/-- `growproc` changes the size by `n`, or changes nothing. -/
def GrowsClean (lay : Layout) (s : Task) (n : BitVec 32) : Prop :=
  ∃ r s', (growproc lay n).run s = some (.ok (r, s')) ∧ s'.pgdir = s.pgdir ∧
    (r = 0 ∧ Resized s n.toInt s' ∨ r = -1 ∧ s.Same s')

theorem GrowsClean.result {P : Int → Task → Prop} (h : GrowsClean lay s n)
    (hends : (growproc lay n).ends P (fun _ => False) s) :
    ∃ r s', P r s' ∧ (r = 0 ∧ Resized s n.toInt s' ∨ r = -1 ∧ s.Same s') := by
  obtain ⟨r, s', hrun, -, hres⟩ := h
  rcases Prog.ends_iff_run.mp hends with ⟨r', s'', hrun', hP⟩ | ⟨_, _, hfalse⟩
  · rw [hrun] at hrun'
    cases hrun'
    exact ⟨r, s', hP, hres⟩
  · exact hfalse.elim

/-- `growproc` changes the size, or nothing, exactly if the process does not give all its memory
back, or more than it has. -/
theorem growproc_clean_iff (h : Space lay s.mem s.pgdir hand) (hexact : s.mem.Exact s.pgdir s.sz)
    (n : BitVec 32) :
    GrowsClean lay s n ↔ 0 ≤ n.toInt ∨ 0 < (s.sz : Int) + n.toInt ∨ s.sz = 0 := by
  constructor
  · intro hclean
    by_contra hn
    rw [not_or, not_or] at hn
    obtain ⟨hneg, hsum, hne⟩ := hn
    have hpos : 0 < s.sz := Nat.pos_of_ne_zero hne
    rcases Int.lt_or_eq_of_le (not_lt.mp hsum) with hlt | hzero
    · obtain ⟨r, s', ⟨rfl, hsz⟩, ⟨-, hres⟩ | ⟨hr, -⟩⟩ :=
        hclean.result (growproc_beyond h hexact hpos hlt)
      · have hsize := hres.size
        rw [hsz] at hsize
        omega
      · cases hr
    · obtain ⟨r, s', ⟨rfl, hgone⟩, ⟨hr, -⟩ | ⟨-, hsame⟩⟩ :=
        hclean.result (growproc_all h hexact hpos hzero)
      · cases hr
      · rw [hsame.2 0 (by decide)] at hgone
        exact (hexact 0 (by decide)).mpr ((lt_pagesFor s.sz 0).mp hpos) hgone
  intro hn
  have hends : (growproc lay n).ends (fun r s' => s'.pgdir = s.pgdir ∧
      (r = 0 ∧ Resized s n.toInt s' ∨ r = -1 ∧ s.Same s')) (fun _ => False) s := by
    rcases lt_trichotomy 0 n.toInt with hpos | hzero | hneg
    · exact growproc_more h hexact hpos
    · have hlt := n.isLt
      rw [growproc, Prog.ends_bind, Prog.ends_gets]
      dsimp only [id]
      rw [if_neg (by omega), if_neg (by omega)]
      refine ⟨rfl, .inl ⟨rfl, ?_, hexact.lt_KERNBASE h, fun _ => ⟨?_, ?_⟩⟩⟩
      · show (s.sz : Int) = _
        omega
      · intro k hk
        rw [map_switch]
        exact hexact k hk
      · intro k _
        rw [map_switch]
    · rcases hn with hge | hsum | hempty
      · omega
      · refine Prog.ends_mono (growproc_less h hexact hneg hsum) ?_ (fun _ he => he)
        exact fun r s' hres => ⟨hres.1, .inl hres.2⟩
      · rw [growproc, Prog.ends_bind, Prog.ends_gets]
        dsimp only [id]
        rw [if_neg (by omega), if_pos hneg, Prog.ends_bind, Task.ends_vm, deallocuvm,
          if_pos (by rw [hempty]; exact Nat.zero_le _), hempty]
        exact ⟨rfl, .inr ⟨rfl, hempty.symm ▸ rfl, fun _ _ => rfl⟩⟩
  rcases Prog.ends_iff_run.mp hends with ⟨r, s', hrun, hres⟩ | ⟨_, _, hfalse⟩
  · exact ⟨r, s', hrun, hres⟩
  · exact hfalse.elim

end

/-! ### A process of one page -/

def onePage : Task := { mem := withPage 0 [], sz := PGSIZE, pgdir := 300 }

theorem onePage_exact : onePage.mem.Exact onePage.pgdir onePage.sz := by
  intro n hn
  have hmap := (withPage_space (i := 0) (f := []) (by decide) (by decide)).2.2 n (hn.trans (by decide))
  have hone : pagesFor PGSIZE = 1 := by decide
  show (withPage 0 []).map 300 n ≠ none ↔ n < pagesFor PGSIZE
  rw [hmap, hone]
  split
  · simp only [ne_eq, reduceCtorEq, not_false_eq_true, true_iff]
    omega
  · simp only [ne_eq, not_true_eq_false, false_iff]
    omega

/-- It gives back half a page. -/
theorem growproc_half : Space smallKernel onePage.mem onePage.pgdir [] ∧
    onePage.mem.Exact onePage.pgdir onePage.sz ∧
    GrowsClean smallKernel onePage (BitVec.ofInt 32 (-2048)) := by
  have hspace : Space smallKernel onePage.mem onePage.pgdir [] :=
    (withPage_space (i := 0) (f := []) (by decide) (by decide)).1
  exact ⟨hspace, onePage_exact,
    (growproc_clean_iff hspace onePage_exact _).mpr (.inr (.inl (by decide)))⟩

/-- All its memory, given back: the page is freed, but the result is -1 and the size is kept.
More than that: the result is 0, and nothing has changed. -/
theorem growproc_unclean : Space smallKernel onePage.mem onePage.pgdir [] ∧
    onePage.mem.Exact onePage.pgdir onePage.sz ∧ onePage.mem.map 300 0 ≠ none ∧
    (∃ s', (growproc smallKernel (BitVec.ofInt 32 (-4096))).run onePage = some (.ok (-1, s')) ∧
      s'.sz = PGSIZE ∧ s'.mem.map 300 0 = none) ∧
    ∃ s', (growproc smallKernel (BitVec.ofInt 32 (-8192))).run onePage = some (.ok (0, s')) ∧
      s'.sz = PGSIZE := by
  have hspace : Space smallKernel onePage.mem onePage.pgdir [] :=
    (withPage_space (i := 0) (f := []) (by decide) (by decide)).1
  refine ⟨hspace, onePage_exact, ?_, ⟨_, rfl, rfl, by decide +kernel⟩, _, rfl, rfl⟩
  exact (onePage_exact 0 (by decide)).mpr (by decide)

end Xv6Pdx.Vm
