/-
# `Vm.Copy` — `copyuvm`

The child is made of pages that were free, and the parent has none of these, so that the
loop reads in the parent what was there before the call.  If `kalloc` fails on the way, the
child is given back; a data page for which there was no page table is lost, and so is a
directory for which there was no kernel page table.
-/
import Xv6Pdx.Vm.Grow

namespace Xv6Pdx.Vm

open Lib Bytes
open Mem (Page Layout PGSIZE NPDENTRIES NPTENTRIES PHYSTOP PGROUNDUP PGROUNDDOWN)

/-- The loop of `copyuvm` is at page `k`. -/
structure Copied (lay : Layout) (pg d : Page) (m : Memory) (k : Nat) (m' : Memory) : Prop where
  fresh : Fresh lay m m' d []
  rest : ∀ n < NPAGES, k ≤ n → m'.map d n = kernelMap (kmap lay) n
  copy : ∀ n < k, ∃ w p, m.map pg n = some w ∧ m'.map d n = some (mkPte p (PTE_FLAGS w)) ∧
    m'.ram p = m.ram (pageOf w)

section

variable {lay : Layout} {m m₀ m₁ m' : Memory} {pg d : Page} {hand hand' : List Page} {k : Nat}
  {E : String → Prop}

/-! ## The parent -/

theorem Space.pages (h : Space lay m pg hand) : m.Pages lay := by
  refine ⟨(List.nodup_append.mp h.ledger.nodup).2.1, fun p hp => h.valid p (.inl ?_)⟩
  exact List.mem_append_right _ hp

theorem Fresh.parent (h : Space lay m pg hand) (hf : Fresh lay m m' d hand') {a : Slot} {q : Page}
    (ha : m.holds pg a = some q) : m'.ram q = m.ram q :=
  hf.frame q fun hq => h.ledger.apart a q ha (List.mem_append_right _ hq)

theorem Fresh.parent_dir (h : Space lay m pg hand) (hf : Fresh lay m m' d hand') :
    m'.ram pg = m.ram pg :=
  hf.parent h (a := .dir) rfl

theorem Fresh.parent_leaf (h : Space lay m pg hand) (hf : Fresh lay m m' d hand') {n : Nat}
    (hn : n < NPAGES) : m'.leaf pg n = m.leaf pg n :=
  leaf_congr (hf.parent_dir h)
    (fun i hi _ ht => hf.parent h (a := .table i) ((if_pos hi).trans ht)) hn

/-! ## The loop -/

theorem flags_or_P {w : Nat} (h : has w PTE_P) : PTE_FLAGS w ||| PTE_P = PTE_FLAGS w := by
  rw [has_P] at h
  have hodd : PTE_FLAGS w % 2 = 1 := by
    simp only [PTE_FLAGS, PGSIZE]
    omega
  have hor := Nat.shiftLeft_add_eq_or_of_lt (i := 1) (by decide : 1 < 2 ^ 1) (PTE_FLAGS w / 2)
  have hself : PTE_FLAGS w = (PTE_FLAGS w / 2) <<< 1 ||| 1 := by
    rw [← hor, Nat.shiftLeft_eq]
    omega
  rw [hself, PTE_P, Nat.or_assoc, Nat.or_self]

theorem flags_lt (w : Nat) : PTE_FLAGS w < PGSIZE := Nat.mod_lt _ (by decide)

theorem Copied.add (h : Copied lay pg d m k m₁) (hk : k < USERPAGES) {w : Nat} {p : Page}
    (hw : m.map pg k = some w) (hP : has w PTE_P) (hdata : m'.ram p = m.ram (pageOf w))
    (hmaps : Maps lay d m₁ [] m' [])
    (hmap : ∀ n < NPAGES, m'.map d n =
      if n = k then some (mkPte p (PTE_FLAGS w ||| PTE_P)) else m₁.map d n) :
    Copied lay pg d m (k + 1) m' where
  fresh := h.fresh.maps hmaps
  rest := by
    intro n hn hge
    rw [hmap n hn, if_neg (by omega)]
    exact h.rest n hn (by omega)
  copy := by
    intro n hn
    have hn' : n < USERPAGES := by omega
    by_cases he : n = k
    · subst he
      refine ⟨w, p, hw, ?_, hdata⟩
      rw [hmap n (hn'.trans (by decide)), if_pos rfl, flags_or_P hP]
    · obtain ⟨w', q, hw', hq, hcopy⟩ := h.copy n (by omega)
      have hpage : m₁.page d n = some q := by
        rw [Memory.page, hq, Option.map_some, pageOf_mkPte q (flags_lt w')]
      obtain ⟨-, hfree, hd, ht⟩ := h.fresh.space.page_valid hn' hpage
      refine ⟨w', q, hw', ?_, (hmaps.data q hfree hd ht).trans hcopy⟩
      rw [hmap n (hn'.trans (by decide)), if_neg he, hq]

/-- The loop, begun in `m₀` and to go to page `k`, fails: a page may be lost. -/
structure Failed (lay : Layout) (d : Page) (m m₀ : Memory) (k : Nat) (m' : Memory)
    (hand : List Page) : Prop where
  fresh : Fresh lay m m' d hand
  why : (hand = [] ∧ m₀.refused (requests true (m₀.tabled d) k 0) = some .page) ∨
    (m₀.refused (requests true (m₀.tabled d) k 0) = some .table ∧ ∃ p, p ∈ hand)

theorem copyLoop_ends (h : Space lay m pg hand) (hdata : lay.data % PGSIZE = 0) {sz : Nat}
    (hmax : pagesFor sz ≤ USERPAGES) (hsz : ∀ n < pagesFor sz, m.map pg n ≠ none) :
    ∀ (fuel k : Nat) (m₁ : Memory), pagesFor sz ≤ k + fuel → k ≤ pagesFor sz →
      Copied lay pg d m k m₁ → Entered true d k 0 m₀ m₁ →
      (copyLoop d pg sz fuel (PGSIZE * k)).ends (fun ok m' =>
        if ok = true then Copied lay pg d m (pagesFor sz) m' ∧ Entered true d (pagesFor sz) 0 m₀ m'
        else ∃ hand', Failed lay d m m₀ (pagesFor sz) m' hand') E m₁ := by
  have hpages : USERPAGES ≤ NPAGES := by decide
  intro fuel
  induction fuel with
  | zero =>
    intro k m₁ hfuel hk hc hent
    obtain rfl : k = pagesFor sz := by omega
    exact ⟨hc, hent⟩
  | succ fuel ih =>
    intro k m₁ hfuel hk hc hent
    rw [copyLoop]
    by_cases hlt : k < pagesFor sz
    · have hkp : k < NPAGES := by omega
      rw [if_pos ((lt_pagesFor sz k).mpr hlt), Prog.ends_bind]
      refine Prog.ends_of_run (walk_run hkp) ?_
      obtain ⟨w, hw⟩ := Option.ne_none_iff_exists'.mp (hsz k hlt)
      have hw₁ : m₁.map pg k = some w := (map_of_leaf (hc.fresh.parent_leaf h hkp)).trans hw
      cases ht : m₁.table pg (k / NPTENTRIES) with
      | none =>
        rw [map_of_table ht] at hw₁
        cases hw₁
      | some t =>
        have hentry := map_of_entry ht
        rw [hw₁] at hentry
        split at hentry
        · next hP =>
            cases hentry
            have hnone : m₁.map d k = none := by
              rw [hc.rest k hkp (Nat.le_refl k)]
              exact kernelMap_low (kmap_ascending hdata) (by omega)
            have hpage : m.holds pg (.page k) = some (pageOf (m₁.entry t (k % NPTENTRIES))) := by
              rw [Memory.holds, if_pos (by omega), Memory.page, hw]
              rfl
            rw [Option.map_some]
            dsimp only
            rw [Prog.ends_bind, Prog.ends_gets, if_pos hP, Prog.ends_bind]
            generalize m₁.entry t (k % NPTENTRIES) = w at *
            have hwhy : ∀ {r}, m₁.refused (requests true (m₁.tabled d) 1 k) = some r →
                m₀.refused (requests true (m₀.tabled d) (pagesFor sz) 0) = some r := by
              intro r href
              refine refused_longer hlt ?_
              rw [Nat.succ_eq_add_one, hent.refused 1, Nat.zero_add]
              exact href
            refine kalloc_ends (fun luck hzero => ?_) fun p l luck hl hsupply => ?_
            · refine ⟨[], hc.fresh.maps (.noise hc.fresh.space rfl rfl rfl),
                .inl ⟨rfl, hwhy ?_⟩⟩
              rw [Memory.refused, hzero]
              rfl
            · refine Prog.ends_bind.mpr (Prog.ends_modify.mpr (Prog.ends_seq
                (addPage_ends hc.fresh.space hl hsupply (m₁.ram (pageOf w)) (by omega) hnone
                  (flags_lt w)) ?_))
              rintro ok m₂ ⟨hram, hres⟩
              cases ok with
              | false =>
                obtain ⟨hmaps, href, -⟩ := hres
                exact ⟨[p], hc.fresh.maps hmaps, .inr ⟨hwhy href, p, List.mem_cons_self⟩⟩
              | true =>
                obtain ⟨hmaps, hent₁, hmap⟩ := hres
                have hsame : m₂.ram p = m.ram (pageOf w) :=
                  hram.trans (hc.fresh.parent h hpage)
                exact ih (k + 1) m₂ (by omega) hlt (hc.add (by omega) hw hP hsame hmaps hmap)
                  (hent.trans (by rwa [Nat.zero_add]))
        · cases hentry
    · obtain rfl : k = pagesFor sz := by omega
      rw [if_neg fun h' => hlt ((lt_pagesFor sz _).mp h')]
      exact ⟨hc, hent⟩

/-! ## `copyuvm` -/

/-- What `copyuvm` asks `kalloc` for: the kernel half, and then a page of memory for each page
of the parent, with the tables. -/
def copyRequests (lay : Layout) (sz : Nat) : List Request :=
  setupRequests lay ++ requests true (fun _ => false) (pagesFor sz) 0

/-- There is no child, as `kalloc` refused `r`. -/
structure NoCopy (m m' : Memory) (r : Request) : Prop where
  frame : ∀ q, q ∉ m.free → m'.ram q = m.ram q
  cr3 : m'.cr3 = m.cr3
  free : GivenBack m m' r

theorem copyuvm_ends (h : Space lay m pg hand) (hdata : lay.data % PGSIZE = 0) {sz : Nat}
    (hmax : pagesFor sz ≤ USERPAGES) (hsz : ∀ n < pagesFor sz, m.map pg n ≠ none) :
    (copyuvm lay pg sz).ends (fun r m' =>
      match r with
      | none => ∃ q, m.refused (copyRequests lay sz) = some q ∧ NoCopy m m' q
      | some d => m.refused (copyRequests lay sz) = none ∧
          Copied lay pg d m (pagesFor sz) m') E m := by
  have hfuel : pagesFor sz ≤ 0 + (sz / PGSIZE + 1) := by
    simp only [pagesFor, PGSIZE]
    omega
  rw [copyuvm]
  refine Prog.ends_seq (setupkvm_ends h.pages hdata) ?_
  rintro (_ | d) m₁ hres
  · obtain ⟨hframe, hcr3, q, href, hback⟩ := hres
    exact ⟨q, refused_append href _, hframe, hcr3, hback⟩
  · obtain ⟨hfresh, hserved, htabled, hmap⟩ := hres
    have hstart : Copied lay pg d m 0 m₁ :=
      ⟨hfresh, fun n hn _ => hmap n hn, fun n hn => absurd hn (Nat.not_lt_zero n)⟩
    have hreq : requests true (m₁.tabled d) (pagesFor sz) 0 =
        requests true (fun _ => false) (pagesFor sz) 0 :=
      requests_congr true _ _ _ _ htabled (by omega)
    refine Prog.ends_seq (copyLoop_ends h hdata hmax hsz _ 0 m₁ hfuel (Nat.zero_le _) hstart
      ⟨(Nat.zero_add _).symm, rfl⟩) ?_
    rintro ok m₂ hres
    cases ok with
    | true =>
      obtain ⟨hcopied, hent⟩ := hres
      have hent' := hent.served
      rw [hreq] at hent'
      exact ⟨(hserved.trans hent').refused_self, hcopied⟩
    | false =>
      obtain ⟨hand', hfail⟩ := hres
      refine Prog.ends_seq (freevm_ends hfail.fresh.space) ?_
      rintro _ m₃ ⟨hnodup, hpool, hframe, hcr3⟩
      have hwhy := hfail.why
      rw [hreq, ← hserved.refused] at hwhy
      have hkept : ∀ q, q ∉ m.free → m₃.ram q = m.ram q := fun q hq =>
        (hframe q fun hp => hq ((hfail.fresh.pool q).mp hp)).trans (hfail.fresh.frame q hq)
      have hcr3' : m₃.cr3 = m.cr3 := hcr3.trans hfail.fresh.cr3
      rcases hwhy with ⟨rfl, href⟩ | ⟨href, p, hp⟩
      · exact ⟨.page, href, hkept, hcr3', hnodup, fun p => (hpool p).trans (hfail.fresh.pool p)⟩
      · refine ⟨.table, href, hkept, hcr3', p, ?_, fun hfree => ?_⟩
        · exact (hfail.fresh.pool p).mp (.inl (List.mem_append_left _ hp))
        · exact (List.nodup_append.mp hnodup).2.2 p hp p hfree rfl

/-- The user pages below a size are present. -/
def Memory.Present (m : Memory) (d : Page) (sz : Nat) : Prop :=
  ∀ n < USERPAGES, n < pagesFor sz → m.map d n ≠ none

theorem Memory.Present.pages_le {sz : Nat} (hpres : m.Present pg sz) (h : Space lay m pg hand) :
    pagesFor sz ≤ USERPAGES := by
  have hle := h.pages_le (k := min (pagesFor sz) USERPAGES) (Nat.min_le_right ..) fun n hn =>
    hpres n (by omega) (by omega)
  simp only [PGSIZE, USERPAGES, PHYSTOP] at *
  omega

/-- The child has a copy of every page and shares none; the parent is as before.  The data of
the kernel begins at a page (`kernel.ld`). -/
theorem copyuvm_faithful (h : Space lay m pg hand) (hdata : lay.data % PGSIZE = 0) {sz : Nat}
    (hpres : m.Present pg sz) :
    ∃ r m', (copyuvm lay pg sz).run m = some (.ok (r, m')) ∧ ∀ d, r = some d →
      (∀ n < pagesFor sz, ∃ w p, m.map pg n = some w ∧
        m'.map d n = some (mkPte p (PTE_FLAGS w)) ∧ m'.ram p = m.ram (pageOf w) ∧
        (∀ a, m.holds pg a ≠ some p) ∧ ∀ a, a ≠ .page n → m'.holds d a ≠ some p) ∧
      (∀ n < NPAGES, USERPAGES ≤ n → m'.map d n = kernelMap (kmap lay) n) ∧
      (∀ n < USERPAGES, pagesFor sz ≤ n → m'.map d n = none) ∧
      (∀ n < NPAGES, m'.leaf pg n = m.leaf pg n) ∧
      ∀ a q, m.holds pg a = some q → m'.ram q = m.ram q := by
  have hmax := hpres.pages_le h
  rcases Prog.ends_iff_run.mp (copyuvm_ends (E := fun _ => False) h hdata hmax fun n hn =>
    hpres n (by omega) hn) with ⟨r, m', hrun, hres⟩ | ⟨_, _, hfalse⟩
  · refine ⟨r, m', hrun, ?_⟩
    rintro d rfl
    have hres : Copied lay pg d m (pagesFor sz) m' := hres.2
    refine ⟨fun n hn => ?_, fun n hn hge => hres.rest n hn (by omega), fun n hn hge => ?_,
      fun n hn => hres.fresh.parent_leaf h hn, fun a q ha => hres.fresh.parent h ha⟩
    · obtain ⟨w, p, hw, hmap, hram⟩ := hres.copy n hn
      have hslot : m'.holds d (.page n) = some p := by
        rw [Memory.holds, if_pos (by omega), Memory.page, hmap, Option.map_some,
          pageOf_mkPte p (flags_lt w)]
      refine ⟨w, p, hw, hmap, hram, fun a ha => ?_, fun a hne ha => ?_⟩
      · have hfree : p ∈ m.free := (hres.fresh.pool p).mp (.inr ⟨_, hslot⟩)
        exact h.ledger.apart a p ha (List.mem_append_right _ hfree)
      · exact hne (hres.fresh.space.ledger.single a _ p ha hslot)
    · rw [hres.rest n (hn.trans (by decide)) hge]
      exact kernelMap_low (kmap_ascending hdata) hn
  · exact hfalse.elim

/-- There is a copy, if there is a page for every request. -/
theorem copyuvm_some (h : Space lay m pg hand) (hdata : lay.data % PGSIZE = 0) {sz : Nat}
    (hpres : m.Present pg sz) (hall : m.refused (copyRequests lay sz) = none) {r : Option Page}
    (hrun : (copyuvm lay pg sz).run m = some (.ok (r, m'))) : ∃ d, r = some d := by
  have hends := copyuvm_ends (E := fun _ => False) h hdata (hpres.pages_le h) fun n hn =>
    hpres n (hn.trans_le (hpres.pages_le h)) hn
  rcases Prog.ends_iff_run.mp hends with ⟨r', m'', hrun', hres⟩ | ⟨_, _, hfalse⟩
  · rw [hrun] at hrun'
    cases hrun'
    cases r with
    | some d => exact ⟨d, rfl⟩
    | none =>
      obtain ⟨q, href, -⟩ := hres
      rw [hall] at href
      cases href
  · exact hfalse.elim

end

theorem length_requests_le (T : Nat → Bool) : ∀ n k, (requests false T n k).length ≤
    (k + n) / NPTENTRIES + (if T (k / NPTENTRIES) then 0 else 1) - k / NPTENTRIES := by
  intro n
  induction n generalizing T with
  | zero =>
    intro k
    exact Nat.zero_le _
  | succ n ih =>
    intro k
    have hrest := ih (Function.update T (k / NPTENTRIES) true) (k + 1)
    rw [Function.update_apply] at hrest
    have hlen : (requests false T (n + 1) k).length =
        (if T (k / NPTENTRIES) then 0 else 1) +
          (requests false (Function.update T (k / NPTENTRIES) true) n (k + 1)).length := by
      rw [requests, if_neg Bool.false_ne_true, List.nil_append, List.length_append]
      congr 1
      split <;> rfl
    rw [hlen]
    -- the next page has the same table, which is there now, or the next one
    have hcase : (k + 1) / NPTENTRIES = k / NPTENTRIES ∨
        (k + 1) / NPTENTRIES = k / NPTENTRIES + 1 := by
      simp only [NPTENTRIES]
      omega
    have hsum : k + 1 + n = k + (n + 1) := by omega
    have hle : (k + 1) / NPTENTRIES ≤ (k + (n + 1)) / NPTENTRIES :=
      Nat.div_le_div_right (by omega)
    rw [hsum] at hrest
    rcases hcase with hsame | hnext
    · rw [if_pos hsame, if_pos rfl] at hrest
      omega
    · split at hrest <;> split at hrest <;> omega

theorem length_kernelRequests_le (ks : List Kmap) : ∀ T, (kernelRequests T ks).length ≤
    (ks.map fun k => (k.first + k.pages) / NPTENTRIES + 1 - k.first / NPTENTRIES).sum := by
  induction ks with
  | nil => exact fun _ => Nat.le_refl 0
  | cons k ks ih =>
    intro T
    rw [kernelRequests, List.length_append, List.map_cons, List.sum_cons]
    refine Nat.add_le_add ((length_requests_le T k.pages k.first).trans ?_) (ih _)
    split <;> omega

theorem supply_all (m : Memory) (h : m.luck = fun _ => true) : m.supply = m.free.length := by
  rw [Memory.supply, h]
  induction m.free with
  | nil => rfl
  | cons p l ih =>
    rw [supplyOf, if_pos rfl, ih]
    rfl

/-- A process of one page; another hundred are free. -/
def roomy : Memory := withPage 0 (List.range' 303 100)

theorem roomy_space : Space smallKernel roomy 300 [] ∧ ∀ n < NPAGES, roomy.map 300 n =
    if n = 0 then some (mkPte 302 userFlags) else none := by
  obtain ⟨h, -, hmap⟩ := withPage_space (i := 0) (f := List.range' 303 100) (by decide +kernel)
    (by decide)
  exact ⟨h, hmap⟩

theorem roomy_serves : roomy.refused (copyRequests smallKernel PGSIZE) = none := by
  refine List.getElem?_eq_none ?_
  have huser : (requests true (fun _ => false) (pagesFor PGSIZE) 0).length = 2 := by decide
  have hfree : roomy.free.length = 100 := List.length_range'
  rw [supply_all roomy rfl, hfree, copyRequests, List.length_append, huser, setupRequests,
    List.length_cons]
  have hle := length_kernelRequests_le (kmap smallKernel) fun _ => false
  have hsum : ((kmap smallKernel).map fun k => (k.first + k.pages) / NPTENTRIES + 1 -
      k.first / NPTENTRIES).sum ≤ 97 := by decide +kernel
  omega

/-- Its memory is copied. -/
theorem copyuvm_onePage : ∃ d m', Space smallKernel roomy 300 [] ∧ roomy.Present 300 PGSIZE ∧
    (copyuvm smallKernel 300 PGSIZE).run roomy = some (.ok (some d, m')) ∧
    (∃ p, m'.map d 0 = some (mkPte p userFlags) ∧ m'.ram p = roomy.ram 302 ∧ p ≠ 302) ∧
    m'.map d 1 = none := by
  obtain ⟨h, hmap⟩ := roomy_space
  have hone : pagesFor PGSIZE = 1 := by decide
  have hpres : roomy.Present 300 PGSIZE := by
    intro n hn hlt
    rw [hone, Nat.lt_one_iff] at hlt
    rw [hmap n (hn.trans (by decide)), if_pos hlt]
    nofun
  obtain ⟨r, m', hrun, hall⟩ := copyuvm_faithful h (by decide) hpres
  obtain ⟨d, rfl⟩ := copyuvm_some h (by decide) hpres roomy_serves hrun
  obtain ⟨hcopy, -, hrest, -⟩ := hall d rfl
  obtain ⟨w, p, hw, hp, hram, hne, -⟩ := hcopy 0 (by decide)
  rw [hmap 0 (by decide), if_pos rfl] at hw
  cases hw
  have hpage : roomy.holds 300 (.page 0) = some 302 := by
    rw [Memory.holds, if_pos (by decide), Memory.page, hmap 0 (by decide), if_pos rfl,
      Option.map_some, pageOf_mkPte 302 (by decide)]
  have hflags : PTE_FLAGS (mkPte 302 userFlags) = userFlags := by decide
  rw [pageOf_mkPte 302 (by decide)] at hram
  rw [hflags] at hp
  refine ⟨d, m', h, hpres, hrun, ⟨p, hp, hram, ?_⟩, hrest 1 (by decide) (by decide)⟩
  rintro rfl
  exact hne _ hpage

end Xv6Pdx.Vm
