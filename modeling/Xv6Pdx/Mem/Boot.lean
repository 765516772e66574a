/-
# `Mem.Boot` — the machine starts and forks

With memory enough `main` returns, and so does a `fork` of the first process:
`setupkvm` builds its directory upwards, page by page, from pages of the list,
and never comes to an entry that is already there.
-/
import Xv6Pdx.Mem.Vm

namespace Xv6Pdx.Mem

open Lib
open Ptable (ProcPtr)
open Function (update update_self update_of_ne update_idem)

section

variable {lay : Layout} {s : State} {p np : ProcPtr}

/-! ## A directory that is being built -/

/-- A directory that is being built from pages of `s₀.freelist`, up to the virtual page `v`. -/
structure Building (s₀ : State) (d : Page) (spare v : Nat) (s : State) : Prop where
  rest : s = { s₀ with freelist := s.freelist, pde := s.pde, pte := s.pte }
  outside : ∀ x, x ∉ s₀.freelist → s.pde x = s₀.pde x ∧ s.pte x = s₀.pte x
  sub : s.freelist ⊆ s₀.freelist
  dir : d ∈ s₀.freelist
  user : ∀ i : Fin NPDENTRIES, i.val < 512 → s.pde d i = none
  -- no table behind the one for `v`, and no entry from `v` on in that one
  above : ∀ i : Fin NPDENTRIES, v / 1024 < i.val → s.pde d i = none
  here : ∀ i t, i.val = v / 1024 → s.pde d i = some t →
    t ∈ s₀.freelist ∧ ∀ j : Fin NPTENTRIES, v % 1024 ≤ j.val → s.pte t j = none
  -- a page for each table that is still to come, and `spare` more
  room : spare + (1023 - v / 1024) ≤ s.freelist.length
  next : ∀ i, i.val = v / 1024 → s.pde d i = none → spare + (1024 - v / 1024) ≤ s.freelist.length

theorem Building.proc {s₀ : State} {d spare v : Nat} (h : Building s₀ d spare v s) :
    s.proc = s₀.proc := by rw [h.rest]

theorem Building.skip {s₀ : State} {d spare v w : Nat} (h : Building s₀ d spare v s) (hvw : v ≤ w) :
    Building s₀ d spare w s := by
  have hdiv : v / 1024 ≤ w / 1024 := Nat.div_le_div_right hvw
  have hroom := h.room
  refine ⟨h.rest, h.outside, h.sub, h.dir, h.user, fun i hi => h.above i (by omega), ?_,
    by omega, ?_⟩
  · intro i t hi ht
    rcases Nat.lt_or_ge (v / 1024) i.val with hlt | hge
    · rw [h.above i hlt] at ht
      cases ht
    · obtain ⟨hmem, hpte⟩ := h.here i t (by omega) ht
      exact ⟨hmem, fun j hj => hpte j (by omega)⟩
  · intro i hi hnone
    rcases Nat.lt_or_ge (v / 1024) i.val with hlt | hge
    · omega
    · have := h.next i (by omega) hnone
      omega

/-- An entry is set, in a table whose entries from here on are blank. -/
theorem Building.setPte {s₀ : State} {d spare v t : Nat} {i : Fin NPDENTRIES}
    {j : Fin NPTENTRIES} (h : Building s₀ d spare v s) (hi : i.val = v / 1024)
    (hj : j.val = v % 1024) (ht : s.pde d i = some t) (e : Option Page) :
    Building s₀ d spare (v + 1) (s.setPte t j e) := by
  obtain ⟨hmem, hpte⟩ := h.here i t hi ht
  have hroom := h.room
  have hat : ∀ i', i'.val = v / 1024 → i' = i := fun i' hi' => Fin.ext (hi'.trans hi.symm)
  refine Building.mk ?_ ?_ h.sub h.dir h.user (fun i hi => h.above i (by omega)) ?_
    (show _ ≤ s.freelist.length by omega) ?_
  · rw [h.rest]
    rfl
  · intro x hx
    show _ ∧ update s.pte t _ x = _
    rw [update_of_ne (ne_of_mem_of_not_mem hmem hx).symm]
    exact h.outside x hx
  · intro i' t' hi' ht'
    rw [State.setPte_pde] at ht'
    rcases Nat.lt_or_ge (v / 1024) i'.val with hlt | hge
    · rw [h.above i' hlt] at ht'
      cases ht'
    · rw [hat i' (by omega), ht] at ht'
      cases ht'
      refine ⟨hmem, fun j' hj' => ?_⟩
      rw [State.setPte_pte, update_self, update_of_ne (by rintro rfl; omega)]
      exact hpte j' (by omega)
  · intro i' hi' hnone
    rw [State.setPte_pde] at hnone
    show _ ≤ s.freelist.length
    rcases Nat.lt_or_ge (v / 1024) i'.val with hlt | hge
    · omega
    · rw [hat i' (by omega), ht] at hnone
      cases hnone

/-- `walkpgdir` takes a page for a table. -/
theorem Building.newTable {s₀ : State} {d spare v t : Nat} {l : List Page} {i : Fin NPDENTRIES}
    (h : Building s₀ d spare v s) (hlow : 512 * 1024 ≤ v) (hi : i.val = v / 1024)
    (hnone : s.pde d i = none) (hl : s.freelist = t :: l) :
    Building s₀ d spare v (((s.setFree l).clearTable t).setPde d i (some t)) := by
  have hnext := h.next i hi hnone
  have hlt : i.val < 1024 := i.isLt
  have hsub := h.sub
  rw [hl] at hnext hsub
  have ht : t ∈ s₀.freelist := hsub List.mem_cons_self
  have hat : ∀ i', i'.val = v / 1024 → i' = i := fun i' hi' => Fin.ext (hi'.trans hi.symm)
  simp only [List.length_cons] at hnext
  refine Building.mk ?_ ?_ (fun x hx => hsub (List.mem_cons_of_mem t hx)) h.dir ?_ ?_ ?_
    (show _ ≤ l.length by omega) ?_
  · rw [h.rest]
    rfl
  · intro x hx
    show update s.pde d _ x = _ ∧ update s.pte t _ x = _
    rw [update_of_ne (ne_of_mem_of_not_mem h.dir hx).symm,
      update_of_ne (ne_of_mem_of_not_mem ht hx).symm]
    exact h.outside x hx
  · intro i' hi'
    rw [State.setPde_pde, update_self, update_of_ne (by rintro rfl; omega)]
    exact h.user i' hi'
  · intro i' hi'
    rw [State.setPde_pde, update_self, update_of_ne (by rintro rfl; omega)]
    exact h.above i' hi'
  · intro i' t' hi' ht'
    rw [hat i' hi', State.setPde_pde, update_self, update_self] at ht'
    cases ht'
    exact ⟨ht, fun j _ => by simp⟩
  · intro i' hi' hnone'
    rw [hat i' hi', State.setPde_pde, update_self, update_self] at hnone'
    cases hnone'

theorem Building.turn {s₀ : State} {d spare v pa : Nat} (h : Building s₀ d spare v s)
    (hlow : 512 * 1024 ≤ v) (hhigh : v < 2 ^ 20) : (mapTurn d (v * PGSIZE) pa).ends
      (fun ok s' => ok = true ∧ Building s₀ d spare (v + 1) s') (fun _ => False) s := by
  have hi : (PDX (v * PGSIZE)).val = v / 1024 := by
    simp only [PDX, Fin.val_ofNat, PGSIZE, NPTENTRIES]
    omega
  have hj : (PTX (v * PGSIZE)).val = v % 1024 := by
    simp only [PTX, Fin.val_ofNat, PGSIZE]
    omega
  show Prog.ends (Prog.act _ _) _ _ s
  rw [Prog.ends, State.walk]
  cases hpde : s.pde d (PDX (v * PGSIZE)) with
  | some t =>
    have hnone := (h.here _ t hi hpde).2 (PTX (v * PGSIZE)) (by omega)
    simp only [hnone, Option.isSome_none, Bool.false_eq_true, if_false]
    exact ⟨rfl, h.setPte hi hj hpde _⟩
  | none =>
    have hnext := h.next _ hi hpde
    cases hl : s.freelist with
    | nil =>
      rw [hl] at hnext
      simp only [List.length_nil] at hnext
      omega
    | cons t l =>
      have hset := (h.newTable hlow hi hpde hl).setPte (t := t) hi hj (by simp) (some pa)
      simp only [if_true, State.setPde_pte, State.clearTable_pte, update_self, Option.isSome_none,
        Bool.false_eq_true, if_false]
      exact ⟨rfl, hset⟩

theorem Building.loop {s₀ : State} {d spare : Nat} : ∀ {n v pa : Nat} {s : State},
    Building s₀ d spare v s → 512 * 1024 ≤ v → v + n ≤ 2 ^ 20 →
    (mapLoop d n (v * PGSIZE) pa).ends
      (fun ok s' => ok = true ∧ Building s₀ d spare (v + n) s') (fun _ => False) s := by
  intro n
  induction n with
  | zero => exact fun h _ _ => ⟨rfl, h⟩
  | succ n ih =>
    intro v pa s h hlow hhigh
    refine Prog.ends_seq (h.turn hlow (by omega)) ?_
    rintro ok s₁ ⟨rfl, h₁⟩
    rw [if_pos rfl]
    cases n with
    | zero => exact ⟨rfl, h₁⟩
    | succ n =>
      have hmod : (v * PGSIZE + PGSIZE) % 2 ^ 32 = (v + 1) * PGSIZE := by
        simp only [PGSIZE]
        omega
      have hnext := @ih (v + 1) (pa + 1) s₁ h₁ (by omega) (by omega)
      rwa [← hmod, Nat.add_right_comm] at hnext

/-- A segment of `kmap`, at the page `v` and of `n` pages. -/
theorem Building.pages {s₀ : State} {d spare v n pa : Nat} (h : Building s₀ d spare v s)
    (hlow : 512 * 1024 ≤ v) (hn : 0 < n) (hhigh : v + n ≤ 2 ^ 20) :
    (mappages d (v * PGSIZE) (n * PGSIZE) pa).ends
      (fun ok s' => ok = true ∧ Building s₀ d spare (v + n) s') (fun _ => False) s := by
  have hdown : PGROUNDDOWN (v * PGSIZE) = v * PGSIZE := by
    simp only [PGROUNDDOWN, PGSIZE]
    omega
  have hcount : (PGROUNDDOWN (v * PGSIZE + n * PGSIZE - 1) - v * PGSIZE) / PGSIZE + 1 = n := by
    simp only [PGROUNDDOWN, PGSIZE]
    omega
  rw [mappages, hdown, hcount]
  exact h.loop hlow hhigh

/-! ## The start of the machine -/

/-- The kernel ends in page 304, and its data begins 0x112000 behind `KERNBASE`. -/
def smallKernel : Layout := ⟨304, KERNBASE + 0x112000, by decide, by decide⟩

theorem setupkvm_ends (spare : Nat) (hfree : spare + 513 ≤ s.freelist.length) :
    (setupkvm smallKernel).ends (fun r s' => ∃ d, r = some d ∧ Building s d spare (2 ^ 20) s')
      (fun _ => False) s := by
  rw [setupkvm]
  show Prog.ends (Prog.act _ _) _ _ s
  rw [Prog.ends]
  cases hl : s.freelist with
  | nil =>
    rw [hl] at hfree
    cases hfree
  | cons d l =>
    rw [hl] at hfree
    have h₀ : Building s d spare (0x80000 * 1) ((s.setFree l).clearDir d) := by
      have hd : d ∈ s.freelist := hl ▸ List.mem_cons_self
      simp only [List.length_cons] at hfree
      refine Building.mk rfl ?_ ?_ hd ?_ ?_ ?_ ?_ ?_
      · intro x hx
        show update s.pde d _ x = _ ∧ _
        rw [update_of_ne (ne_of_mem_of_not_mem hd hx).symm]
        exact ⟨rfl, rfl⟩
      · rw [hl]
        exact List.subset_cons_self d l
      · exact fun i _ => by simp
      · exact fun i _ => by simp
      · intro i t _ ht
        simp at ht
      · show _ ≤ l.length
        omega
      · intro i _ _
        show _ ≤ l.length
        omega
    show Prog.ends (mapKernel d (kmap smallKernel) >>= fun ok => pure (if ok then some d else none))
      _ _ ((s.setFree l).clearDir d)
    refine Prog.ends_seq (P := fun ok s' => ok = true ∧ Building s d spare (2 ^ 20) s') ?_ ?_
    · refine Prog.ends_seq (h₀.pages (n := 256) (by decide) (by decide) (by decide)) ?_
      rintro _ s₁ ⟨rfl, h₁⟩
      refine Prog.ends_seq (h₁.pages (n := 18) (by decide) (by decide) (by decide)) ?_
      rintro _ s₂ ⟨rfl, h₂⟩
      refine Prog.ends_seq (h₂.pages (n := 57070) (by decide) (by decide) (by decide)) ?_
      rintro _ s₃ ⟨rfl, h₃⟩
      -- from the end of memory up to the devices nothing is mapped
      refine Prog.ends_seq ((h₃.skip (w := 0xFE000) (by decide)).pages (n := 8192) (by decide)
        (by decide) (by decide)) ?_
      rintro _ s₄ ⟨rfl, h₄⟩
      exact ⟨rfl, h₄⟩
    · rintro _ s' ⟨rfl, h'⟩
      exact ⟨d, rfl, h'⟩

theorem freerange_ends {x y : Nat} (hx : lay.kend ≤ x) (hy : y ≤ PHYSTOP / PGSIZE) :
    (freerange lay x y).ends
      (fun _ s' => s' = s.setFree ((List.range' x (y - x)).reverse ++ s.freelist))
      (fun _ => False) s := by
  have hall : ∀ z ∈ List.range' x (y - x), ¬ (z < lay.kend ∨ PHYSTOP / PGSIZE ≤ z) := by
    intro z hz
    have := List.mem_range'_1.mp hz
    omega
  rw [freerange]
  generalize List.range' x (y - x) = l at hall
  induction l generalizing s with
  | nil => exact rfl
  | cons z l ih =>
    show Prog.ends (Prog.act _ _) _ _ s
    rw [Prog.ends, State.kfree, if_neg (hall z List.mem_cons_self)]
    refine Prog.ends_mono (ih (s := s.setFree (z :: s.freelist)) fun z' hz' =>
      hall z' (List.mem_cons_of_mem z hz')) ?_ fun _ he => he
    rintro - s' rfl
    simp [State.setFree]

/-- The first page of a directory without a table in the user half. -/
theorem mappages_first {d t x : Page} {l : List Page} (hd : s.pde d (PDX 0) = none)
    (hl : s.freelist = t :: l) : (mappages d 0 PGSIZE x).ends (fun ok s' => ok = true ∧
      s' = (((s.setFree l).clearTable t).setPde d (PDX 0) (some t)).setPte t (PTX 0) (some x))
      (fun _ => False) s := by
  rw [mappages_one (by decide) (by decide)]
  show Prog.ends (Prog.act _ _) _ _ s
  rw [Prog.ends, State.walk, hd, hl]
  simp only [if_true, State.setPde_pte, State.clearTable_pte, update_self, Option.isSome_none,
    Bool.false_eq_true, if_false]
  exact ⟨rfl, rfl⟩

/-- The process runs, and `x` is its one page. -/
structure Runs (s : State) (p : ProcPtr) (d t x : Page) : Prop where
  state : (s.proc p).state = .live
  sz : (s.proc p).sz = PGSIZE
  pgdir : (s.proc p).pgdir = some d
  pde : s.pde d (PDX 0) = some t
  pte : s.pte t (PTX 0) = some x

theorem Runs.owns {d t x : Page} (h : Runs s p d t x) :
    own s (fun _ => none) (.pgdir (.proc p)) = some d ∧
    own s (fun _ => none) (.table (.proc p) (PDX 0)) = some t ∧
    own s (fun _ => none) (.user (.proc p) (PDX 0) (PTX 0)) = some x := by
  have hdir : dirOf s (fun _ => none) (.proc p) = some (d, 0) := by
    simp [dirOf, Proc.dir, h.state, h.pgdir]
  have hlow : (PDX 0).val < userEntries := PDX_user (by decide)
  simp [own, tableOf, hdir, h.pde, h.pte, hlow]

theorem allocproc_ends {k : Page} {l : List Page} (hp : (s.proc p).state = .unused)
    (hl : s.freelist = k :: l) : (allocproc p).ends (fun ok s' => ok = true ∧
      s' = (s.setFree l).setProc p { s.proc p with state := .embryo, kstack := some k })
      (fun _ => False) s := by
  rw [allocproc]
  show Prog.ends (Prog.act _ _) _ _ s
  rw [Prog.ends, if_pos hp]
  show Prog.ends (Prog.act _ _) _ _ (s.setProc p _)
  rw [Prog.ends, State.setProc_freelist, hl]
  refine ⟨rfl, ?_⟩
  simp [State.setProc, State.setFree, update_idem]

theorem kalloc_ends {x : Page} {l : List Page} (hl : s.freelist = x :: l) :
    kalloc.ends (fun r s' => r = some x ∧ s' = s.setFree l) (fun _ => False) s := by
  show Prog.ends (Prog.act _ _) _ _ s
  rw [Prog.ends, hl]
  exact ⟨rfl, rfl⟩

/-- A page of the directory that `setupkvm` has built, and a table for it. -/
theorem Building.two {s₀ : State} {d spare v : Nat} (h : Building s₀ d (spare + 2) v s) :
    ∃ x t l, s.freelist = x :: t :: l ∧ spare ≤ l.length ∧ s.pde d (PDX 0) = none ∧
      t ∈ s₀.freelist := by
  have hroom := h.room
  match hl : s.freelist with
  | [] | [_] =>
    rw [hl] at hroom
    simp only [List.length_nil, List.length_cons] at hroom
    omega
  | x :: t :: l =>
    rw [hl] at hroom
    simp only [List.length_cons] at hroom
    exact ⟨x, t, l, rfl, by omega, h.user _ (by decide), h.sub (hl ▸ by simp)⟩

theorem userinit_ends (hp : (s.proc p).state = .unused) (hfree : 1100 ≤ s.freelist.length) :
    (userinit smallKernel p).ends (fun _ s' => (∃ d t x, Runs s' p d t x) ∧
      (∀ q, q ≠ p → s'.proc q = s.proc q) ∧ 520 ≤ s'.freelist.length) (fun _ => False) s := by
  obtain ⟨k, l, hl⟩ := List.exists_cons_of_length_pos (by omega : 0 < s.freelist.length)
  rw [hl, List.length_cons] at hfree
  refine Prog.ends_seq (allocproc_ends hp hl) ?_
  rintro _ _ ⟨rfl, rfl⟩
  refine Prog.ends_seq (setupkvm_ends 522 (show _ ≤ l.length by omega)) ?_
  rintro _ s₁ ⟨d, rfl, h₁⟩
  obtain ⟨x, t, l', hl', hlen, hd, -⟩ := h₁.two
  refine Prog.ends_seq (kalloc_ends hl') ?_
  rintro _ _ ⟨rfl, rfl⟩
  refine Prog.ends_seq (mappages_first hd rfl) ?_
  rintro _ _ ⟨rfl, rfl⟩
  refine ⟨⟨d, t, x, ⟨?_, ?_, ?_, ?_, ?_⟩⟩, ?_, ?_⟩ <;> simp [hlen]
  intro q hq
  rw [update_of_ne hq]
  show s₁.proc q = _
  rw [h₁.proc]
  exact update_of_ne hq ..

theorem main_runs : ∃ s, (main smallKernel 0 0).run blank = some (.ok ((), s)) ∧
    (∃ d t x, Runs s 0 d t x) ∧ (s.proc 1).state = .unused ∧ 520 ≤ s.freelist.length := by
  have hset := @setupkvm_ends
  have huser := @userinit_ends
  have hkend : smallKernel.kend = 304 := rfl
  -- nothing below may compute the free list
  generalize smallKernel = lay at hset huser hkend ⊢
  have hmain : (main lay 0 0).ends (fun _ s => (∃ d t x, Runs s 0 d t x) ∧
      (s.proc 1).state = .unused ∧ 520 ≤ s.freelist.length) (fun _ => False) blank := by
    rw [main]
    refine Prog.ends_seq (freerange_ends (Nat.le_refl _) (by decide)) ?_
    rintro - _ rfl
    refine Prog.ends_seq (P := fun _ s' => s'.proc = blank.proc) ?_ ?_
    · refine Prog.ends_seq (hset 0 ?_) ?_
      · rw [State.setFree_freelist, List.length_append, List.length_reverse, List.length_range']
        omega
      · rintro _ s₁ ⟨d, rfl, h₁⟩
        exact h₁.proc
    intro _ s₁ hproc
    refine Prog.ends_seq (P := fun _ s' => s' = s₁) rfl ?_
    rintro _ s₁ rfl
    refine Prog.ends_seq (freerange_ends (by omega) (Nat.le_refl _)) ?_
    rintro - _ rfl
    refine Prog.ends_mono (huser ?_ ?_) ?_ fun _ he => he
    · show (s₁.proc 0).state = _
      rw [hproc]
      rfl
    · rw [State.setFree_freelist, List.length_append, List.length_reverse, List.length_range']
      simp only [PHYSTOP, PGSIZE]
      omega
    · rintro _ s₂ ⟨hr, hother, hlen⟩
      refine ⟨hr, ?_, hlen⟩
      rw [hother 1 (by decide)]
      show (s₁.proc 1).state = _
      rw [hproc]
      rfl
  obtain ⟨_, s, hrun, h⟩ := Prog.run_of_ends hmain
  exact ⟨s, hrun, h⟩

/-! ## `fork` -/

/-- One page is copied. -/
theorem copyuvm_ends {d t x : Page} (hpde : s.pde d (PDX 0) = some t)
    (hpte : s.pte t (PTX 0) = some x) (hd : d ∉ s.freelist) (ht : t ∉ s.freelist)
    (hfree : 515 ≤ s.freelist.length) :
    (copyuvm smallKernel d PGSIZE).ends (fun r s' => ∃ d' t' y, r = some d' ∧ s'.proc = s.proc ∧
      s'.pde d = s.pde d ∧ s'.pte t = s.pte t ∧ s'.pde d' (PDX 0) = some t' ∧
      s'.pte t' (PTX 0) = some y) (fun _ => False) s := by
  refine Prog.ends_seq (setupkvm_ends 2 (show _ ≤ s.freelist.length by omega)) ?_
  rintro _ s₁ ⟨d', rfl, h₁⟩
  obtain ⟨y, t', l, hl, -, hd', ht'⟩ := h₁.two
  obtain ⟨hsame, -⟩ := h₁.outside d hd
  obtain ⟨-, hsame'⟩ := h₁.outside t ht
  have hcopy : (copyLoop d' d PGSIZE (PGSIZE / PGSIZE + 1) 0).ends (fun ok s' => ok = true ∧
      s' = ((((s₁.setFree (t' :: l)).setFree l).clearTable t').setPde d' (PDX 0) (some t')).setPte
        t' (PTX 0) (some y)) (fun _ => False) s₁ := by
    show Prog.ends (copyLoop d' d PGSIZE (1 + 1) 0) _ _ s₁
    rw [copyLoop, if_pos (by decide)]
    refine Prog.ends_seq (P := fun _ s' => s' = s₁) ?_ ?_
    · rw [mapped]
      simp only [Prog.ends_bind, Prog.ends_gets, State.walk, hsame, hpde, Option.map_some, hsame',
        hpte]
      rfl
    rintro _ _ rfl
    refine Prog.ends_seq (kalloc_ends hl) ?_
    rintro _ _ ⟨rfl, rfl⟩
    refine Prog.ends_seq (mappages_first hd' rfl) ?_
    rintro _ _ ⟨rfl, rfl⟩
    rw [if_pos rfl, copyLoop, if_neg (by decide)]
    exact ⟨rfl, rfl⟩
  refine Prog.ends_seq hcopy ?_
  rintro _ _ ⟨rfl, rfl⟩
  refine ⟨d', t', y, rfl, h₁.proc, ?_, ?_, ?_, ?_⟩
  · show update s₁.pde d' _ d = _
    rw [update_of_ne (ne_of_mem_of_not_mem h₁.dir hd).symm, hsame]
  · show update (update s₁.pte t' _) t' _ t = _
    rw [update_of_ne (ne_of_mem_of_not_mem ht' ht).symm,
      update_of_ne (ne_of_mem_of_not_mem ht' ht).symm, hsame']
  · simp
  · simp

theorem fork_ends {d t x : Page} (hr : Runs s p d t x) (hne : np ≠ p)
    (hnp : (s.proc np).state = .unused) (hd : d ∉ s.freelist) (ht : t ∉ s.freelist)
    (hfree : 520 ≤ s.freelist.length) :
    (fork smallKernel p np).ends (fun _ s' => Runs s' p d t x ∧ ∃ d' t' y, Runs s' np d' t' y)
      (fun _ => False) s := by
  obtain ⟨k, l, hl⟩ := List.exists_cons_of_length_pos (by omega : 0 < s.freelist.length)
  rw [hl] at hd ht hfree
  rw [List.length_cons] at hfree
  refine Prog.ends_seq (allocproc_ends hnp hl) ?_
  rintro _ _ ⟨rfl, rfl⟩
  generalize hs₁ : (s.setFree l).setProc np _ = s₁
  have hme : s₁.proc p = s.proc p := by
    rw [← hs₁]
    exact update_of_ne hne.symm ..
  have hfree₁ : s₁.freelist = l := by rw [← hs₁]; rfl
  have hpde : s₁.pde = s.pde := by rw [← hs₁]; rfl
  have hpte : s₁.pte = s.pte := by rw [← hs₁]; rfl
  refine Prog.ends_seq (P := fun r s' => r = d ∧ s' = s₁) ?_ ?_
  · rw [myDir, getProc, Prog.ends_bind, Prog.ends_gets, hme, hr.pgdir]
    exact ⟨rfl, rfl⟩
  rintro _ s₁ ⟨rfl, rfl⟩
  rw [getProc, Prog.ends_bind, Prog.ends_gets, hme, hr.sz]
  refine Prog.ends_seq (copyuvm_ends (s := s₁) (t := t) (x := x) ?_ ?_ ?_ ?_ ?_) ?_
  · rw [hpde, hr.pde]
  · rw [hpte, hr.pte]
  · rw [hfree₁]
    exact fun h => hd (List.mem_cons_of_mem k h)
  · rw [hfree₁]
    exact fun h => ht (List.mem_cons_of_mem k h)
  · rw [hfree₁]
    omega
  · rintro _ s₂ ⟨d', t', y, rfl, hproc, hsame, hsame', hpde', hpte'⟩
    have hme₂ : s₂.proc p = s.proc p := by rw [hproc, hme]
    refine ⟨⟨?_, ?_, ?_, ?_, ?_⟩, d', t', y, ⟨?_, ?_, ?_, ?_, ?_⟩⟩
    all_goals simp [hne.symm, hme₂, hr.state, hr.sz, hr.pgdir, hsame, hsame', hpde, hpte,
      hr.pde, hr.pte, hpde', hpte']

end

end Xv6Pdx.Mem
