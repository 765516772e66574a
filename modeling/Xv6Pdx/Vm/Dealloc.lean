/-
# `Vm.Dealloc` — `deallocuvm`

The loop frees the pages of a range of page numbers, one by one, and where a table is
missing goes on by as many pages as a table has.  From the middle of a missing table
that leads into the middle of the next one: its first pages stay mapped
(`deallocuvm_skips`).  It meets a page exactly if it has come into a table that is there
before it or at it; everything in range is freed exactly if it meets all the pages there.
-/
import Xv6Pdx.Vm.Build

namespace Xv6Pdx.Vm

open Lib Bytes
open Mem (Page Layout PGSIZE NPDENTRIES NPTENTRIES PHYSTOP PGROUNDUP PGROUNDDOWN)

/-- The pages at the numbers in `S` have been freed. -/
structure Freed (lay : Layout) (d : Page) (S : Nat → Prop) (m : Memory) (hand : List Page)
    (m' : Memory) : Prop where
  space : Space lay m' d hand
  step : Step d m hand m' hand
  dir : m'.ram d = m.ram d
  gone : ∀ n, S n → m'.map d n = none
  kept : ∀ n < NPAGES, ¬ S n → m'.leaf d n = m.leaf d n
  freed : ∃ l, m'.free = l ++ m.free ∧ ∀ p, p ∈ l ↔ ∃ n, S n ∧ m.page d n = some p
  data : ∀ q, (∀ i < NPDENTRIES, m.table d i ≠ some q) → (∀ n, S n → m.page d n ≠ some q) →
    m'.ram q = m.ram q

section

variable {lay : Layout} {m m' m'' : Memory} {d : Page} {hand : List Page} {S T : Nat → Prop}
  {E : String → Prop}

theorem page_none {n : Nat} (h : m.map d n = none) : m.page d n = none := by
  rw [Memory.page, h]
  rfl

theorem Freed.nothing (h : Space lay m d hand) (hS : ∀ n, S n → m.map d n = none) :
    Freed lay d S m hand m where
  space := h
  step := .refl d m hand
  dir := rfl
  gone := hS
  kept := fun _ _ _ => rfl
  freed := by
    refine ⟨[], rfl, fun p => ⟨nofun, ?_⟩⟩
    rintro ⟨n, hn, hp⟩
    rw [page_none (hS n hn)] at hp
    cases hp
  data := fun _ _ _ => rfl

theorem Freed.extend (h : Freed lay d T m hand m') (hsub : ∀ n, T n → S n)
    (hS : ∀ n, S n → ¬ T n → n < NPAGES ∧ m.map d n = none) : Freed lay d S m hand m' where
  space := h.space
  step := h.step
  dir := h.dir
  gone := by
    intro n hn
    by_cases hT : T n
    · exact h.gone n hT
    · obtain ⟨hlt, hnone⟩ := hS n hn hT
      rw [map_of_leaf (h.kept n hlt hT), hnone]
  kept := fun n hn hout => h.kept n hn fun hT => hout (hsub n hT)
  freed := by
    obtain ⟨l, hl, hmem⟩ := h.freed
    refine ⟨l, hl, fun p => (hmem p).trans ⟨?_, ?_⟩⟩
    · rintro ⟨n, hn, hp⟩
      exact ⟨n, hsub n hn, hp⟩
    · rintro ⟨n, hn, hp⟩
      refine ⟨n, ?_, hp⟩
      by_contra hT
      rw [page_none (hS n hn hT).2] at hp
      cases hp
  data := fun q ht hp => h.data q ht fun n hn => hp n (hsub n hn)

theorem kfree_run {p : Page} (h : Valid lay p) : (kfree lay p).run m =
    some (.ok ((), { m.fill p 1 with free := p :: m.free })) := by
  have hin : ¬ (p < lay.kend ∨ PHYSTOP / PGSIZE ≤ p) := by
    rw [not_or]
    exact ⟨not_lt.mpr h.1, not_le.mpr h.2.1⟩
  show Prog.run (Prog.act _ _) m = _
  rw [Prog.run, if_neg hin]
  rfl

theorem Freed.cons (h : Space lay m d hand) {n t w : Nat} (hn : n < USERPAGES)
    (ht : m.table d (n / NPTENTRIES) = some t) (hmap : m.map d n = some w) {m₁ : Memory}
    (hm₁ : m₁ = Memory.setEntry { m.fill (pageOf w) 1 with free := pageOf w :: m.free } t
      (n % NPTENTRIES) 0) (h₁ : Space lay m₁ d hand → Freed lay d T m₁ hand m')
    (hT : ∀ k, T k → k < NPAGES ∧ k ≠ n) (hS : ∀ k, S k ↔ k = n ∨ T k) :
    Freed lay d S m hand m' := by
  have hn' : n < NPAGES := hn.trans (by decide)
  obtain ⟨hspace, hstep, htable, hleaf, hmap₁, hother⟩ := h.unmap hn ht hmap hm₁
  have hpage : m.page d n = some (pageOf w) := by
    rw [Memory.page, hmap]
    rfl
  have hpage₁ : ∀ k, T k → m₁.page d k = m.page d k := by
    intro k hk
    obtain ⟨hlt, hne⟩ := hT k hk
    rw [Memory.page, Memory.page, hmap₁ k hlt, if_neg hne]
  have hdt : d ≠ t := (h.table_valid (div_lt_NPDENTRIES hn') ht).2.2.symm
  have hdp : d ≠ pageOf w := (h.page_valid hn hpage).2.2.1.symm
  have hf := h₁ hspace
  refine ⟨hf.space, hstep.trans hf.step, hf.dir.trans (hother d hdt hdp), ?_, ?_, ?_, ?_⟩
  · intro k hk
    by_cases hTk : T k
    · exact hf.gone k hTk
    · obtain rfl : k = n := ((hS k).mp hk).resolve_right hTk
      rw [map_of_leaf (hf.kept k hn' hTk), hmap₁ k hn', if_pos rfl]
  · intro k hk hout
    have hne : k ≠ n := fun he => hout ((hS k).mpr (.inl he))
    rw [hf.kept k hk fun hTk => hout ((hS k).mpr (.inr hTk)), hleaf k hk, if_neg hne]
  · obtain ⟨l, hl, hmem⟩ := hf.freed
    refine ⟨l ++ [pageOf w], ?_, fun p => ?_⟩
    · rw [hl, hm₁, List.append_assoc]
      rfl
    · rw [List.mem_append, List.mem_singleton, hmem]
      constructor
      · rintro (⟨k, hk, hp⟩ | rfl)
        · exact ⟨k, (hS k).mpr (.inr hk), (hpage₁ k hk).symm.trans hp⟩
        · exact ⟨n, (hS n).mpr (.inl rfl), hpage⟩
      · rintro ⟨k, hk, hp⟩
        rcases (hS k).mp hk with rfl | hTk
        · rw [hpage] at hp
          cases hp
          exact .inr rfl
        · exact .inl ⟨k, hTk, (hpage₁ k hTk).trans hp⟩
  · intro q hq hq'
    refine (hf.data q (fun i hi => ?_) fun k hk => ?_).trans (hother q ?_ ?_)
    · rw [htable]
      exact hq i hi
    · rw [hpage₁ k hk]
      exact hq' k ((hS k).mpr (.inr hk))
    · rintro rfl
      exact hq _ (div_lt_NPDENTRIES hn') ht
    · rintro rfl
      exact hq' n ((hS n).mpr (.inl rfl)) hpage

/-! ## The loop -/

/-- The loop, begun at page `k`, has come into a table that is there when it is at page `n`:
where tables are missing, it is at pages `k`, `k + NPTENTRIES` and so on. -/
def Memory.Met (m : Memory) (d : Page) (k n : Nat) : Prop :=
  ∃ i, k / NPTENTRIES ≤ i ∧ NPTENTRIES * i + k % NPTENTRIES ≤ n ∧ m.table d i ≠ none

/-- The loop, from page `k` on, meets every page that is mapped. -/
def Memory.Meets (m : Memory) (d : Page) (k last : Nat) : Prop :=
  ∀ n, k ≤ n → n < last → m.map d n ≠ none → m.Met d k n

theorem map_of_table {n : Nat} (h : m.table d (n / NPTENTRIES) = none) : m.map d n = none := by
  rw [Memory.map, Memory.leaf, h]
  rfl

theorem map_of_entry {n t : Nat} (h : m.table d (n / NPTENTRIES) = some t) :
    m.map d n = if has (m.entry t (n % NPTENTRIES)) PTE_P
      then some (m.entry t (n % NPTENTRIES)) else none := by
  rw [Memory.map, Memory.leaf, h, Option.map_some, Option.filter_some]
  simp only [decide_eq_true_eq]

theorem table_of_map {n : Nat} (h : m.map d n ≠ none) : m.table d (n / NPTENTRIES) ≠ none :=
  fun hnone => h (map_of_table hnone)

/-- From the first page of a table on, or in a table that is there, every page is met. -/
theorem meets_of_start {k : Nat} (last : Nat)
    (h : k % NPTENTRIES = 0 ∨ m.table d (k / NPTENTRIES) ≠ none) : m.Meets d k last := by
  intro n hk _ hmap
  rcases h with halign | htable
  · refine ⟨n / NPTENTRIES, Nat.div_le_div_right hk, ?_, table_of_map hmap⟩
    rw [halign]
    exact Nat.mul_div_le n NPTENTRIES
  · refine ⟨k / NPTENTRIES, Nat.le_refl _, ?_, htable⟩
    rwa [Nat.div_add_mod]

theorem met_skip {k n : Nat} (ht : m.table d (k / NPTENTRIES) = none) :
    m.Met d k n ↔ k + NPTENTRIES ≤ n ∧ m.Met d (k + NPTENTRIES) n := by
  have hdiv : (k + NPTENTRIES) / NPTENTRIES = k / NPTENTRIES + 1 :=
    Nat.add_div_right k (by decide)
  simp only [Memory.Met, hdiv, Nat.add_mod_right]
  constructor
  · rintro ⟨i, hi, hn, htable⟩
    have hlt : k / NPTENTRIES + 1 ≤ i :=
      Nat.lt_of_le_of_ne hi fun he => htable (he ▸ ht)
    refine ⟨?_, i, hlt, hn, htable⟩
    simp only [NPTENTRIES] at hlt hn ⊢
    omega
  · rintro ⟨-, i, hi, hn, htable⟩
    exact ⟨i, by omega, hn, htable⟩

theorem start_next {k t : Nat} (ht : m.table d (k / NPTENTRIES) = some t) :
    (k + 1) % NPTENTRIES = 0 ∨ m.table d ((k + 1) / NPTENTRIES) ≠ none := by
  by_cases halign : (k + 1) % NPTENTRIES = 0
  · exact .inl halign
  · have hsame : (k + 1) / NPTENTRIES = k / NPTENTRIES := by
      simp only [NPTENTRIES] at halign ⊢
      omega
    refine .inr ?_
    rw [hsame, ht]
    exact Option.some_ne_none t

/-- If all the pages that are mapped are met, all are gone. -/
theorem Freed.all {k last : Nat} (hlast : last ≤ NPAGES) (hmeets : m.Meets d k last)
    (h : Freed lay d (fun n => (k ≤ n ∧ n < last) ∧ m.Met d k n) m hand m') :
    Freed lay d (fun n => k ≤ n ∧ n < last) m hand m' := by
  refine h.extend (fun n hn => hn.1) fun n hn hout => ⟨by omega, ?_⟩
  by_contra hmap
  exact hout ⟨hn, hmeets n hn.1 hn.2 hmap⟩

theorem deallocLoop_ends {oldsz last : Nat} (hlast : ∀ n, PGSIZE * n < oldsz ↔ n < last)
    (hmax : last ≤ USERPAGES) : ∀ (fuel k : Nat) (m : Memory), Space lay m d hand →
    last ≤ k + fuel →
    (deallocLoop lay d oldsz fuel (PGSIZE * k)).ends
      (fun _ m' => Freed lay d (fun n => (k ≤ n ∧ n < last) ∧ m.Met d k n) m hand m') E m := by
  have hpages : USERPAGES ≤ NPAGES := by decide
  intro fuel
  induction fuel with
  | zero =>
    intro k m h hfuel
    exact .nothing h fun n hn => by omega
  | succ fuel ih =>
    intro k m h hfuel
    rw [deallocLoop]
    by_cases hk : k < last
    · have hku : k < USERPAGES := by omega
      have hkp : k < NPAGES := by omega
      rw [if_pos ((hlast k).mpr hk)]
      refine Prog.ends_bind.mpr (Prog.ends_of_run (walk_run hkp) ?_)
      cases ht : m.table d (k / NPTENTRIES) with
      | none =>
        have hnext : PGSIZE * k + (NPTENTRIES - 1) * PGSIZE + PGSIZE =
            PGSIZE * (k + NPTENTRIES) := by
          simp only [PGSIZE, NPTENTRIES]
          omega
        rw [Option.map_none]
        dsimp only
        rw [hnext]
        refine Prog.ends_mono (ih _ m h (by simp only [NPTENTRIES]; omega)) ?_ (fun _ he => he)
        intro _ m' hf
        refine hf.extend (fun n hn => ?_) fun n hn hout => ?_
        · exact ⟨⟨by omega, hn.1.2⟩, (met_skip ht).mpr ⟨hn.1.1, hn.2⟩⟩
        · obtain ⟨hge, hmet⟩ := (met_skip ht).mp hn.2
          exact absurd ⟨⟨hge, hn.1.2⟩, hmet⟩ hout
      | some t =>
        have hnext : PGSIZE * k + PGSIZE = PGSIZE * (k + 1) := rfl
        have hmap := map_of_entry ht
        have hin : ∀ n, (k ≤ n ∧ n < last) ∧ m.Met d k n ↔ n = k ∨ k + 1 ≤ n ∧ n < last := by
          intro n
          have hmet : k ≤ n → m.Met d k n := fun hn =>
            ⟨_, Nat.le_refl _, by rwa [Nat.div_add_mod], by rw [ht]; exact Option.some_ne_none _⟩
          constructor
          · omega
          · intro hn
            have hle : k ≤ n := by omega
            exact ⟨⟨hle, by omega⟩, hmet hle⟩
        rw [Option.map_some]
        dsimp only
        rw [Prog.ends_bind, Prog.ends_gets, hnext]
        generalize m.entry t (k % NPTENTRIES) = w at hmap ⊢
        by_cases hP : has w PTE_P
        · rw [if_pos hP] at hmap
          have hpage : m.page d k = some (pageOf w) := by
            rw [Memory.page, hmap]
            rfl
          obtain ⟨hvalid, -⟩ := h.page_valid hku hpage
          rw [if_pos hP, if_neg hvalid.2.2, Prog.ends_bind]
          refine Prog.ends_of_run (kfree_run hvalid) ?_
          rw [Prog.ends_bind, Prog.ends_modify]
          obtain ⟨hspace, -, htable, -⟩ := h.unmap hku ht hmap rfl
          refine Prog.ends_mono (ih (k + 1) _ hspace (by omega)) ?_ (fun _ he => he)
          intro _ m' hf
          have hall := hf.all (by omega) (meets_of_start last (start_next ((htable _).trans ht)))
          exact .cons h hku ht hmap rfl (fun _ => hall) (fun n hn => by omega) hin
        · rw [if_neg hP] at hmap
          rw [if_neg hP]
          refine Prog.ends_mono (ih (k + 1) m h (by omega)) ?_ (fun _ he => he)
          intro _ m' hf
          have hall := hf.all (by omega) (meets_of_start last (start_next ht))
          refine hall.extend (fun n hn => (hin n).mpr (.inr hn)) fun n hn hout => ?_
          obtain rfl := ((hin n).mp hn).resolve_right hout
          exact ⟨hkp, hmap⟩
    · rw [if_neg fun hlt => hk ((hlast k).mp hlt)]
      exact .nothing h fun n hn => by omega

/-! ## `deallocuvm` -/

def pagesFor (sz : Nat) : Nat := (sz + (PGSIZE - 1)) / PGSIZE

theorem PGROUNDUP_eq {sz : Nat} (h : sz ≤ KERNBASE) : PGROUNDUP sz = PGSIZE * pagesFor sz := by
  simp only [PGROUNDUP, pagesFor, PGSIZE, KERNBASE] at *
  omega

theorem lt_pagesFor (sz n : Nat) : PGSIZE * n < sz ↔ n < pagesFor sz := by
  simp only [pagesFor, PGSIZE]
  omega

theorem pagesFor_le {sz : Nat} (h : sz ≤ KERNBASE) : pagesFor sz ≤ USERPAGES := by
  simp only [pagesFor, PGSIZE, KERNBASE, USERPAGES] at *
  omega

theorem deallocuvm_met (h : Space lay m d hand) {oldsz newsz : Nat} (hnew : newsz < oldsz)
    (hold : oldsz ≤ KERNBASE) :
    (deallocuvm lay d oldsz newsz).ends (fun r m' => r = newsz ∧
      Freed lay d (fun n => (pagesFor newsz ≤ n ∧ n < pagesFor oldsz) ∧
        m.Met d (pagesFor newsz) n) m hand m') E m := by
  rw [deallocuvm, if_neg (not_le.mpr hnew), PGROUNDUP_eq (by omega)]
  have hfuel : pagesFor oldsz ≤ pagesFor newsz + (oldsz / PGSIZE + 1) := by
    simp only [pagesFor, PGSIZE]
    omega
  refine Prog.ends_seq (deallocLoop_ends (fun n => lt_pagesFor oldsz n) (pagesFor_le hold) _ _ m h
    hfuel) ?_
  intro _ m' hf
  exact ⟨rfl, hf⟩

theorem deallocuvm_ends (h : Space lay m d hand) {oldsz newsz : Nat} (hnew : newsz < oldsz)
    (hold : oldsz ≤ KERNBASE) (hmeets : m.Meets d (pagesFor newsz) (pagesFor oldsz)) :
    (deallocuvm lay d oldsz newsz).ends (fun r m' => r = newsz ∧
      Freed lay d (fun n => pagesFor newsz ≤ n ∧ n < pagesFor oldsz) m hand m') E m := by
  refine Prog.ends_mono (deallocuvm_met h hnew hold) ?_ (fun _ he => he)
  rintro r m' ⟨hr, hf⟩
  exact ⟨hr, hf.all ((pagesFor_le hold).trans (by decide)) hmeets⟩

/-- The page at this number is in the range. -/
def InRange (newsz oldsz n : Nat) : Prop := PGROUNDUP newsz ≤ PGSIZE * n ∧ PGSIZE * n < oldsz

theorem inRange_iff {newsz oldsz n : Nat} (h : newsz ≤ KERNBASE) :
    InRange newsz oldsz n ↔ pagesFor newsz ≤ n ∧ n < pagesFor oldsz := by
  rw [InRange, PGROUNDUP_eq h, lt_pagesFor]
  exact and_congr_left' (Nat.mul_le_mul_left_iff (by decide))

/-- `deallocuvm` frees everything in range: nothing there is present, each page that was has been
put on the free list once, every other entry is as before, and the result is the new size. -/
def FreesRange (lay : Layout) (m : Memory) (d : Page) (oldsz newsz : Nat) : Prop :=
  ∃ m', (deallocuvm lay d oldsz newsz).run m = some (.ok (newsz, m')) ∧
    (∀ n, InRange newsz oldsz n → m'.map d n = none) ∧
    (∃ l, m'.free = l ++ m.free ∧ l.Nodup ∧
      ∀ p, p ∈ l ↔ ∃ n, InRange newsz oldsz n ∧ m.page d n = some p) ∧
    (∀ n < NPAGES, ¬ InRange newsz oldsz n → m'.leaf d n = m.leaf d n) ∧
    m'.ram d = m.ram d

/-- `deallocuvm` frees everything in range exactly if each page that is present there has one of
the pages `k`, `k + NPTENTRIES`, ... at its place or before it, in a table that is present. -/
theorem deallocuvm_frees_iff (h : Space lay m d hand) {oldsz newsz : Nat} (hnew : newsz < oldsz)
    (hold : oldsz ≤ KERNBASE) : FreesRange lay m d oldsz newsz ↔
      ∀ n, InRange newsz oldsz n → m.map d n ≠ none → m.Met d (pagesFor newsz) n := by
  have hsz : newsz < KERNBASE := by omega
  have hin : ∀ n, InRange newsz oldsz n ↔ pagesFor newsz ≤ n ∧ n < pagesFor oldsz :=
    fun n => inRange_iff hsz.le
  have hpages : pagesFor oldsz ≤ NPAGES := (pagesFor_le hold).trans (by decide)
  rcases Prog.ends_iff_run.mp (deallocuvm_met (E := fun _ => False) h hnew hold) with
    ⟨r, m', hrun, rfl, hmet⟩ | ⟨_, _, hfalse⟩
  · refine ⟨?_, fun hmeets => ?_⟩
    · rintro ⟨m'', hrun', hgone, -⟩ n hn hmap
      rw [hrun] at hrun'
      cases hrun'
      by_contra hnot
      have hlt : n < NPAGES := ((hin n).mp hn).2.trans_le hpages
      rw [← map_of_leaf (hmet.kept n hlt fun hS => hnot hS.2)] at hmap
      exact hmap (hgone n hn)
    · have hf := hmet.all hpages fun n h₁ h₂ => hmeets n ((hin n).mpr ⟨h₁, h₂⟩)
      obtain ⟨l, hl, hmem⟩ := hf.freed
      have hnodup : (hand ++ (l ++ m.free)).Nodup := hl ▸ hf.space.ledger.nodup
      refine ⟨m', hrun, ?_, ⟨l, hl, ?_, ?_⟩, ?_, hf.dir⟩
      · exact fun n hn => hf.gone n ((hin n).mp hn)
      · exact (List.nodup_append.mp (List.nodup_append.mp hnodup).2.1).1
      · intro p
        rw [hmem]
        exact exists_congr fun n => and_congr_left' (hin n).symm
      · exact fun n hn hout => hf.kept n hn fun hrange => hout ((hin n).mpr hrange)
  · exact hfalse.elim

/-! ## `freevm` -/

/-- Tables in a list of places have been freed. -/
structure TablesFreed (d : Page) (l : List Nat) (m : Memory) (hand : List Page) (m' : Memory) :
    Prop where
  dir : m'.ram d = m.ram d
  nodup : (hand ++ m'.free).Nodup
  freed : ∀ p, p ∈ m'.free ↔ p ∈ m.free ∨ ∃ i ∈ l, m.table d i = some p
  frame : ∀ q, (∀ i ∈ l, m.table d i ≠ some q) → m'.ram q = m.ram q
  cr3 : m'.cr3 = m.cr3

theorem freeTables_ends : ∀ (l : List Nat) (m : Memory), l.Nodup → (hand ++ m.free).Nodup →
    (∀ i ∈ l, ∀ t, m.table d i = some t → Valid lay t ∧ t ∉ hand ++ m.free ∧ t ≠ d) →
    (∀ i ∈ l, ∀ j ∈ l, ∀ t, m.table d i = some t → m.table d j = some t → i = j) →
    (l.forM (freeTable lay d)).ends (fun _ m' => TablesFreed d l m hand m') E m
  | [], m, _, hnd, _, _ =>
    ⟨rfl, hnd, fun p => ⟨.inl, fun h => h.elim id fun ⟨_, hi, _⟩ => nomatch hi⟩, fun _ _ => rfl,
      rfl⟩
  | i :: l, m, hl, hnd, hvalid, hinj => by
    obtain ⟨hi, hl⟩ := List.nodup_cons.mp hl
    have hvalid' := fun j hj => hvalid j (List.mem_cons_of_mem i hj)
    have hinj' := fun j hj k hk => hinj j (List.mem_cons_of_mem i hj) k (List.mem_cons_of_mem i hk)
    show ((freeTable lay d i) >>= fun _ => l.forM (freeTable lay d)).ends _ E m
    rw [freeTable, Prog.ends_bind, Prog.ends_bind, Prog.ends_gets]
    by_cases hP : has (m.entry d i) PTE_P
    · have ht : m.table d i = some (pageOf (m.entry d i)) := if_pos hP
      rw [if_pos hP]
      generalize pageOf (m.entry d i) = t at ht
      obtain ⟨hv, hout, hne⟩ := hvalid i List.mem_cons_self t ht
      refine Prog.ends_of_run (kfree_run hv) ?_
      generalize hm₁ : ({ m.fill t 1 with free := t :: m.free } : Memory) = m₁
      have hram : ∀ q, q ≠ t → m₁.ram q = m.ram q := by
        intro q hq
        rw [← hm₁]
        exact put_of_ne hq _
      have hfree : m₁.free = t :: m.free := by rw [← hm₁]
      have htable : ∀ j, m₁.table d j = m.table d j := table_congr (hram d hne.symm)
      have hperm : (t :: (hand ++ m.free)).Perm (hand ++ m₁.free) := by
        rw [hfree]
        exact List.perm_middle.symm
      have hnew : ∀ j ∈ l, m.table d j ≠ some t := by
        intro j hj hj'
        exact hi (hinj i List.mem_cons_self j (List.mem_cons_of_mem i hj) t ht hj' ▸ hj)
      refine Prog.ends_mono (freeTables_ends l m₁ hl
        (hperm.nodup_iff.mp (List.nodup_cons.mpr ⟨hout, hnd⟩)) ?_ ?_) ?_ (fun _ he => he)
      · intro j hj t' ht'
        rw [htable] at ht'
        obtain ⟨hv', hout', hne'⟩ := hvalid' j hj t' ht'
        refine ⟨hv', fun hmem => ?_, hne'⟩
        rcases List.mem_cons.mp (hperm.mem_iff.mpr hmem) with rfl | hmem
        · exact hnew j hj ht'
        · exact hout' hmem
      · intro j hj k hk t' hj' hk'
        rw [htable] at hj' hk'
        exact hinj' j hj k hk t' hj' hk'
      · intro _ m' h
        refine ⟨h.dir.trans (hram d hne.symm), h.nodup, fun p => ?_, fun q hq => ?_, ?_⟩
        · rw [h.freed, hfree, List.exists_mem_cons_iff, List.mem_cons, ht, Option.some_inj]
          simp only [htable]
          tauto
        · refine (h.frame q fun j hj => ?_).trans (hram q ?_)
          · rw [htable]
            exact hq j (List.mem_cons_of_mem i hj)
          · rintro rfl
            exact hq i List.mem_cons_self ht
        · rw [h.cr3, ← hm₁]
          rfl
    · have hnone : m.table d i = none := if_neg hP
      rw [if_neg hP]
      show (l.forM (freeTable lay d)).ends _ E m
      refine Prog.ends_mono (freeTables_ends l m hl hnd hvalid' hinj') ?_ (fun _ he => he)
      intro _ m' h
      refine ⟨h.dir, h.nodup, fun p => ?_, ?_, h.cr3⟩
      · rw [h.freed, List.exists_mem_cons_iff]
        simp [hnone]
      · exact fun q hq => h.frame q fun j hj => hq j (List.mem_cons_of_mem i hj)

/-- Without user pages, an address space is the directory and its tables. -/
theorem pool_of_blank (h : ∀ n < USERPAGES, m.map d n = none) (p : Page) : m.Pool d hand p ↔
    p ∈ hand ++ m.free ∨ p = d ∨ ∃ i < NPDENTRIES, m.table d i = some p := by
  refine or_congr_right ⟨?_, ?_⟩
  · rintro ⟨a, ha⟩
    cases a with
    | dir =>
      cases ha
      exact .inl rfl
    | table i =>
      rw [Memory.holds] at ha
      split at ha
      · next hi => exact .inr ⟨i, hi, ha⟩
      · cases ha
    | page n =>
      rw [Memory.holds] at ha
      split at ha
      · next hn =>
          rw [page_none (h n hn)] at ha
          cases ha
      · cases ha
  · rintro (rfl | ⟨i, hi, ht⟩)
    · exact ⟨.dir, rfl⟩
    · exact ⟨.table i, (if_pos hi).trans ht⟩

/-- `freevm` gives every page of the address space back. -/
theorem freevm_ends (h : Space lay m d hand) :
    (freevm lay (some d)).ends (fun _ m' => (hand ++ m'.free).Nodup ∧
      (∀ p, p ∈ hand ++ m'.free ↔ m.Pool d hand p) ∧
      (∀ q, ¬ m.Pool d hand q → m'.ram q = m.ram q) ∧ m'.cr3 = m.cr3) E m := by
  rw [freevm]
  have hmeets : m.Meets d (pagesFor 0) (pagesFor KERNBASE) := meets_of_start _ (.inl (by decide))
  refine Prog.ends_seq (deallocuvm_ends h (by decide) (Nat.le_refl KERNBASE) hmeets) ?_
  intro _ m₁ hres
  have hf := hres.2
  have hnodup : (List.range NPDENTRIES).Nodup := List.nodup_range
  have hmem : ∀ i, i ∈ List.range NPDENTRIES ↔ i < NPDENTRIES := fun i => List.mem_range
  -- of the list only these two facts are used
  generalize List.range NPDENTRIES = l at hnodup hmem ⊢
  refine Prog.ends_seq (freeTables_ends l m₁ hnodup hf.space.ledger.nodup
    (fun i hi t ht => hf.space.table_valid ((hmem i).mp hi) ht)
    fun i hi j hj t ht ht' => hf.space.table_inj ((hmem i).mp hi) ((hmem j).mp hj) ht ht') ?_
  intro _ m₂ hfreed
  have hpool : ∀ p, m₁.Pool d hand p ↔
      p ∈ hand ++ m₁.free ∨ p = d ∨ ∃ i < NPDENTRIES, m₁.table d i = some p :=
    pool_of_blank fun n hn => hf.gone n ⟨Nat.zero_le n, Nat.lt_of_lt_of_eq hn (by decide)⟩
  obtain ⟨hdv, hdout⟩ := hf.space.dir_valid
  have hd : d ∉ hand ++ m₂.free := by
    rw [List.mem_append, hfreed.freed, ← or_assoc, ← List.mem_append, not_or]
    refine ⟨hdout, ?_⟩
    rintro ⟨i, hi, ht⟩
    exact (hf.space.table_valid ((hmem i).mp hi) ht).2.2 rfl
  refine Prog.ends_of_run (kfree_run hdv) ?_
  have hperm : (d :: (hand ++ m₂.free)).Perm (hand ++ d :: m₂.free) := List.perm_middle.symm
  refine ⟨hperm.nodup_iff.mp (List.nodup_cons.mpr ⟨hd, hfreed.nodup⟩), ?_, ?_, ?_⟩
  · intro p
    rw [← hf.step.pool p, hpool, ← hperm.mem_iff, List.mem_cons, List.mem_append, hfreed.freed,
      List.mem_append]
    simp only [hmem]
    tauto
  · intro q hq
    have hq₁ : ¬ (q ∈ hand ++ m₁.free ∨ q = d ∨ ∃ i < NPDENTRIES, m₁.table d i = some q) :=
      fun hmem => hq ((hf.step.pool q).mp ((hpool q).mpr hmem))
    rw [not_or, not_or] at hq₁
    refine (put_of_ne hq₁.2.1 _).trans ((hfreed.frame q fun i hi ht => ?_).trans
      (hf.step.frame q hq))
    exact hq₁.2.2 ⟨i, (hmem i).mp hi, ht⟩
  · exact hfreed.cr3.trans hf.step.cr3

end

/-! ## A directory with one page -/

def smallKernel : Layout where
  kend := 300
  data := KERNBASE + 0x110000
  low := by decide
  high := by decide

/-- Pages behind the kernel, each once. -/
def Spare (l : List Page) : Prop := l.Nodup ∧ ∀ p ∈ l, 300 ≤ p ∧ p < PHYSTOP / PGSIZE

instance (l : List Page) : Decidable (Spare l) := inferInstanceAs (Decidable (_ ∧ _))

theorem Spare.valid {l : List Page} (h : Spare l) : ∀ p ∈ l, Valid smallKernel p := by
  intro p hp
  obtain ⟨hge, hlt⟩ := h.2 p hp
  exact ⟨hge, hlt, (Nat.lt_of_lt_of_le (by decide : 0 < 300) hge).ne'⟩

/-- Page 300 is an empty directory; the free list is given. -/
def emptyDir (free : List Page) : Memory :=
  { free := free, ram := fun _ _ => 0, luck := fun _ => true, cr3 := 300 }

/-- A table is entered in the directory. -/
def withTable (i : Nat) (free : List Page) : Memory :=
  ((emptyDir free).fill 301 0).setEntry 300 i (mkPte 301 (PTE_P ||| PTE_W ||| PTE_U))

/-- And a page as the first one of the table. -/
def withPage (i : Nat) (free : List Page) : Memory :=
  (withTable i free).setEntry 301 0 (mkPte 302 (PTE_W ||| PTE_U ||| PTE_P))

section

variable {i : Nat} {f : List Page} (hfree : Spare (300 :: 301 :: 302 :: f))

include hfree

theorem withTable_space (hi : i < NPDENTRIES) :
    Space smallKernel (withTable i (302 :: f)) 300 [] ∧
      (∀ j, (withTable i (302 :: f)).table 300 j = if j = i then some 301 else none) ∧
      ∀ k < NPAGES, (withTable i (302 :: f)).map 300 k = none := by
  obtain ⟨h, -, hmap, htable⟩ :=
    Space.empty (d := 300) (m := emptyDir (301 :: 302 :: f)) rfl hfree.1 hfree.valid
  obtain ⟨h₁, -⟩ := h.take (l := 302 :: f) rfl (fun _ => true)
  obtain ⟨h₂, -, htable₂, hmap₂, -⟩ := h₁.newTable hi (htable i) rfl
  refine ⟨h₂, fun j => (htable₂ j).trans ?_, fun k hk => (hmap₂ k hk).trans (hmap k)⟩
  exact congrArg (fun x => if j = i then some 301 else x) (htable j)

theorem withPage_space (hi : i < 512) : Space smallKernel (withPage i f) 300 [] ∧
    (∀ j, (withPage i f).table 300 j = if j = i then some 301 else none) ∧
    ∀ k < NPAGES, (withPage i f).map 300 k =
      if k = 1024 * i then some (mkPte 302 (PTE_W ||| PTE_U ||| PTE_P)) else none := by
  have hn : 1024 * i < USERPAGES := by
    simp only [USERPAGES]
    omega
  obtain ⟨h, htable, hmap⟩ := withTable_space hfree (i := i) (hi.trans (by decide))
  have hdiv : 1024 * i / NPTENTRIES = i := Nat.mul_div_cancel_left i (by decide)
  have hm : withPage i f = Memory.setEntry { withTable i (302 :: f) with free := f } 301
      (1024 * i % NPTENTRIES) (mkPte 302 (PTE_W ||| PTE_U ||| PTE_P)) := by
    rw [show 1024 * i % NPTENTRIES = 0 from Nat.mul_mod_right 1024 i]
    rfl
  have ht : (withTable i (302 :: f)).table 300 (1024 * i / NPTENTRIES) = some 301 := by
    rw [htable, if_pos hdiv]
  obtain ⟨h₁, -⟩ := h.take (l := f) rfl (fun _ => true)
  obtain ⟨h₂, -, htable₂, hmap₂, -⟩ := h₁.enter hn ht (hmap _ (hn.trans (by decide)))
    (by decide) (by decide) hm
  refine ⟨h₂, fun j => (htable₂ j).trans (htable j), fun k hk => (hmap₂ k hk).trans ?_⟩
  exact congrArg (fun x => if k = 1024 * i then _ else x) (hmap k hk)

end

/-- From the first page of the missing table, the loop frees the page. -/
theorem sparse_freed : Space smallKernel (withPage 1 []) 300 [] ∧
    (withPage 1 []).page 300 1024 = some 302 ∧
    FreesRange smallKernel (withPage 1 []) 300 (PGSIZE * 1025) 0 := by
  obtain ⟨hspace, -, hmap⟩ := withPage_space (i := 1) (f := []) (by decide) (by decide)
  refine ⟨hspace, ?_, (deallocuvm_frees_iff hspace (by decide) (by decide)).mpr ?_⟩
  · rw [Memory.page, hmap 1024 (by decide), if_pos rfl, Option.map_some,
      pageOf_mkPte 302 (by decide)]
  · intro n hn hne
    obtain ⟨h₁, h₂⟩ := (inRange_iff (by decide)).mp hn
    exact meets_of_start (pagesFor (PGSIZE * 1025)) (.inl (by decide)) n h₁ h₂ hne

/-- From its second page, the loop goes on to the second page of the next table. -/
theorem deallocuvm_skips : Space smallKernel (withPage 1 []) 300 [] ∧ PGSIZE < PGSIZE * 1025 ∧
    PGSIZE * 1025 ≤ KERNBASE ∧ InRange PGSIZE (PGSIZE * 1025) 1024 ∧
    (withPage 1 []).page 300 1024 = some 302 ∧
    (deallocuvm smallKernel 300 (PGSIZE * 1025) PGSIZE).run (withPage 1 []) =
      some (.ok (PGSIZE, withPage 1 [])) := by
  obtain ⟨hspace, htable, hmap⟩ := withPage_space (i := 1) (f := []) (by decide) (by decide)
  have hpage : (withPage 1 []).page 300 1024 = some 302 := by
    rw [Memory.page, hmap 1024 (by decide), if_pos rfl, Option.map_some,
      pageOf_mkPte 302 (by decide)]
  refine ⟨hspace, by decide, by decide, ⟨by decide, by decide⟩, hpage, ?_⟩
  have hwalk : (walkpgdir 300 PGSIZE false).run (withPage 1 []) = some (.ok (none, withPage 1 [])) := by
    have h := walk_run (m := withPage 1 []) (d := 300) (n := 1) (by decide)
    rwa [htable] at h
  have hround : PGROUNDUP PGSIZE = PGSIZE := by decide
  have hloop : ∀ fuel, (deallocLoop smallKernel 300 (PGSIZE * 1025) (fuel + 2) PGSIZE).run
      (withPage 1 []) = some (.ok ((), withPage 1 [])) := by
    intro fuel
    rw [deallocLoop, if_pos (by decide), Prog.run_seq hwalk]
    show Prog.run (deallocLoop ..) (withPage 1 []) = _
    rw [deallocLoop, if_neg (by decide)]
    rfl
  rw [deallocuvm, if_neg (by decide), hround]
  exact Prog.run_seq (hloop 1024)

end Xv6Pdx.Vm
