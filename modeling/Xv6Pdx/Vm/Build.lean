/-
# `Vm.Build` — `mappages` and `setupkvm`

`mappages` enters pages that are in the hand, or stops when there is no page for a table;
nothing that was mapped before changes.  `setupkvm` makes a directory whose kernel half is
the kernel map.
-/
import Xv6Pdx.Vm.Space
import Xv6Pdx.Lib.Prog

namespace Xv6Pdx.Vm

open Lib Bytes
open Mem (Page Layout PGSIZE NPDENTRIES NPTENTRIES EXTMEM PHYSTOP DEVSPACE KERNLINK PGROUNDUP
  PGROUNDDOWN)

/-- What a call of `kalloc` is for: a page of memory or a page table. -/
inductive Request where
  | page
  | table
deriving DecidableEq, Repr

def supplyOf : (Nat → Bool) → List Page → Nat
  | _, [] => 0
  | luck, _ :: l => if luck 0 then supplyOf (fun i => luck (i + 1)) l + 1 else 0

/-- How many calls of `kalloc` find a page before the first one that does not. -/
def Memory.supply (m : Memory) : Nat := supplyOf m.luck m.free

/-- The first of the requests that `kalloc` refuses. -/
def Memory.refused (m : Memory) (l : List Request) : Option Request := l[m.supply]?

/-- The tables that a directory has. -/
def Memory.tabled (m : Memory) (d : Page) (i : Nat) : Bool := (m.table d i).isSome

/-- The requests when `n` pages from number `k` on are entered in a directory with the tables `T`:
for each a page of memory, if `data`, and a table where there is none. -/
def requests (data : Bool) (T : Nat → Bool) : Nat → Nat → List Request
  | 0, _ => []
  | n + 1, k => (if data then [.page] else []) ++ ((if T (k / NPTENTRIES) then [] else [.table]) ++
      requests data (Function.update T (k / NPTENTRIES) true) n (k + 1))

/-- The tables that the directory has then. -/
def entered (T : Nat → Bool) : Nat → Nat → Nat → Bool
  | 0, _ => T
  | n + 1, k => entered (Function.update T (k / NPTENTRIES) true) n (k + 1)

def Served (l : List Request) (m m' : Memory) : Prop := m.supply = l.length + m'.supply

/-- `n` pages from number `k` on have been entered, and all that was asked for was there. -/
structure Entered (data : Bool) (d : Page) (n k : Nat) (m m' : Memory) : Prop where
  served : Served (requests data (m.tabled d) n k) m m'
  tabled : m'.tabled d = entered (m.tabled d) n k

/-- Entries and tables have been made from free pages; what was there is as before. -/
structure Maps (lay : Layout) (d : Page) (m : Memory) (hand : List Page) (m' : Memory)
    (hand' : List Page) : Prop where
  space : Space lay m' d hand'
  step : Step d m hand m' hand'
  sub : ∀ p ∈ m'.free, p ∈ m.free
  data : ∀ q, q ∉ m.free → q ≠ d → (∀ i < NPDENTRIES, m.table d i ≠ some q) → m'.ram q = m.ram q
  table : ∀ i t, m.table d i = some t → m'.table d i = some t
  old : ∀ i t, m'.table d i = some t → m.table d i = some t ∨ t ∈ m.free

section

variable {lay : Layout} {m m' m'' : Memory} {d : Page} {hand hand' hand'' : List Page}
  {E : String → Prop}

theorem Maps.refl (h : Space lay m d hand) : Maps lay d m hand m hand where
  space := h
  step := .refl d m hand
  sub := fun _ hp => hp
  data := fun _ _ _ _ => rfl
  table := fun _ _ ht => ht
  old := fun _ _ ht => .inl ht

theorem Maps.trans (h : Maps lay d m hand m' hand') (h' : Maps lay d m' hand' m'' hand'') :
    Maps lay d m hand m'' hand'' where
  space := h'.space
  step := h.step.trans h'.step
  sub := fun p hp => h.sub p (h'.sub p hp)
  data := by
    intro q hq hd ht
    refine (h'.data q (fun hp => hq (h.sub q hp)) hd fun i hi hi' => ?_).trans (h.data q hq hd ht)
    rcases h.old i q hi' with hold | hfree
    · exact ht i hi hold
    · exact hq hfree
  table := fun i t ht => h'.table i t (h.table i t ht)
  old := by
    intro i t ht
    rcases h'.old i t ht with hold | hfree
    · exact h.old i t hold
    · exact .inr (h.sub t hfree)

theorem Maps.noise (h : Space lay m d hand) (hram : m'.ram = m.ram) (hfree : m'.free = m.free)
    (hcr3 : m'.cr3 = m.cr3) : Maps lay d m hand m' hand := by
  obtain ⟨hspace, hstep⟩ := h.congr hram hfree hcr3
  refine ⟨hspace, hstep, fun p hp => hfree ▸ hp, fun q _ _ _ => congrFun hram q, ?_, ?_⟩
  · intro i t ht
    rw [table_of_ram hram]
    exact ht
  · intro i t ht
    rw [table_of_ram hram] at ht
    exact .inl ht

theorem Maps.take (h : Space lay m d hand) {p : Page} {l : List Page} (hl : m.free = p :: l)
    (luck : Nat → Bool) :
    Maps lay d m hand { m with free := l, luck := luck } (p :: hand) := by
  obtain ⟨hspace, hstep⟩ := h.take hl luck
  exact ⟨hspace, hstep, fun q hq => hl ▸ List.mem_cons_of_mem p hq, fun _ _ _ _ => rfl,
    fun _ _ ht => ht, fun _ _ ht => .inl ht⟩

theorem Maps.takePut (h : Space lay m d hand) {p : Page} {l : List Page} (hl : m.free = p :: l)
    (luck : Nat → Bool) (x : Bytes) {m' : Memory}
    (hm' : m' = Memory.put { m with free := l, luck := luck } p x) :
    Maps lay d m hand m' (p :: hand) ∧ (∀ k < NPAGES, m'.map d k = m.map d k) ∧
      ∀ i, m'.table d i = m.table d i := by
  have htake := Maps.take h hl luck
  obtain ⟨hspace, hstep, htable, hmap⟩ := htake.space.putHand List.mem_cons_self x
  rw [← hm'] at hspace hstep htable hmap
  have hmap' : ∀ k, Memory.map { m with free := l, luck := luck } d k = m.map d k :=
    congrFun (congrFun (map_of_ram rfl) d)
  refine ⟨⟨hspace, htake.step.trans hstep, ?_, ?_, fun i t ht => (htable i).trans ht,
    fun i t ht => .inl ((htable i).symm.trans ht)⟩, fun k hk => (hmap k hk).trans (hmap' k),
    htable⟩
  · rw [hm']
    exact htake.sub
  · intro q hq _ _
    rw [hm']
    refine put_of_ne ?_ x
    rintro rfl
    exact hq (hl ▸ List.mem_cons_self)

theorem Maps.enter {i t : Nat} (hspace : Space lay m' d hand') (hstep : Step d m hand m' hand')
    (hi : i < NPDENTRIES) (ht : m.table d i = some t) (hfree : m'.free = m.free)
    (htable : ∀ j, m'.table d j = m.table d j) (hother : ∀ q, q ≠ t → m'.ram q = m.ram q) :
    Maps lay d m hand m' hand' where
  space := hspace
  step := hstep
  sub := fun _ hp => hfree ▸ hp
  data := by
    intro q _ _ hq
    refine hother q ?_
    rintro rfl
    exact hq i hi ht
  table := fun j t' ht' => (htable j).trans ht'
  old := fun j t' ht' => .inl ((htable j).symm.trans ht')

/-! ## What `kalloc` is asked for -/

theorem supply_take {p : Page} {l : List Page} (hl : m.free = p :: l) (hluck : m.luck 0 = true) :
    m.supply = Memory.supply { m with free := l, luck := fun i => m.luck (i + 1) } + 1 := by
  rw [Memory.supply, hl, supplyOf, if_pos hluck]
  rfl

theorem kalloc_ends {Q : Option Page → Memory → Prop}
    (hnone : ∀ luck, m.supply = 0 → Q none { m with luck := luck })
    (hsome : ∀ p l luck, m.free = p :: l →
      m.supply = Memory.supply { m with free := l, luck := luck } + 1 →
      Q (some p) { m with free := l, luck := luck }) :
    kalloc.ends Q E m := by
  rw [kalloc]
  show Prog.ends (Prog.act _ _) _ _ m
  rw [Prog.ends]
  cases hluck : m.luck 0 with
  | false =>
    refine hnone _ ?_
    rw [Memory.supply]
    cases m.free with
    | nil => rfl
    | cons p l => exact if_neg (by rw [hluck]; exact Bool.false_ne_true)
  | true =>
    cases hl : m.free with
    | nil =>
      have hzero : m.supply = 0 := by
        rw [Memory.supply, hl]
        rfl
      have h := hnone (fun i => m.luck (i + 1)) hzero
      rw [hl] at h
      exact h
    | cons p l => exact hsome p l _ hl (supply_take hl hluck)

theorem Served.refused {l : List Request} (h : Served l m m') (l' : List Request) :
    m.refused (l ++ l') = m'.refused l' := by
  rw [Memory.refused, h, List.getElem?_append_right (Nat.le_add_right ..), Nat.add_sub_cancel_left]
  rfl

theorem Served.trans {l l' : List Request} (h : Served l m m') (h' : Served l' m' m'') :
    Served (l ++ l') m m'' := by
  rw [Served, List.length_append, h, h', Nat.add_assoc]

theorem refused_append {l : List Request} {r : Request} (h : m.refused l = some r)
    (l' : List Request) : m.refused (l ++ l') = some r := by
  rw [Memory.refused, List.getElem?_append_left (List.getElem?_eq_some_iff.mp h).1]
  exact h

theorem refused_cons (h : m.supply = m'.supply + 1) (r : Request) (l : List Request) :
    m.refused (r :: l) = m'.refused l := by
  rw [Memory.refused, h]
  rfl

theorem Served.refused_self {l : List Request} (h : Served l m m') : m.refused l = none := by
  rw [Memory.refused, h]
  exact List.getElem?_eq_none (Nat.le_add_right ..)

theorem requests_add (data : Bool) (b : Nat) : ∀ (a : Nat) (T : Nat → Bool) (k : Nat),
    requests data T (a + b) k = requests data T a k ++ requests data (entered T a k) b (k + a)
  | 0, T, k => by rw [Nat.zero_add]; rfl
  | a + 1, T, k => by
    rw [Nat.add_right_comm, requests, requests_add data b a, requests, entered,
      Nat.add_right_comm k 1 a, Nat.add_assoc k a 1]
    simp only [List.append_assoc]

theorem entered_add (b : Nat) : ∀ (a : Nat) (T : Nat → Bool) (k : Nat),
    entered T (a + b) k = entered (entered T a k) b (k + a)
  | 0, T, k => by rw [Nat.zero_add]; rfl
  | a + 1, T, k => by
    rw [Nat.add_right_comm, entered, entered_add b a, entered, Nat.add_right_comm k 1 a,
      Nat.add_assoc k a 1]

theorem entered_low {i : Nat} : ∀ (n : Nat) (T : Nat → Bool) (k : Nat), i < k / NPTENTRIES →
    entered T n k i = T i
  | 0, _, _, _ => rfl
  | n + 1, T, k, h => by
    have hnext : i < (k + 1) / NPTENTRIES := h.trans_le (Nat.div_le_div_right (Nat.le_succ k))
    rw [entered, entered_low n _ _ hnext, Function.update_of_ne (Nat.ne_of_lt h)]

theorem requests_congr (data : Bool) {u : Nat} : ∀ (n : Nat) (T T' : Nat → Bool) (k : Nat),
    (∀ i, NPTENTRIES * i < u → T i = T' i) → k + n ≤ u →
    requests data T n k = requests data T' n k
  | 0, _, _, _, _, _ => rfl
  | n + 1, T, T', k, h, hk => by
    have hlow : NPTENTRIES * (k / NPTENTRIES) < u := (Nat.mul_div_le k _).trans_lt (by omega)
    rw [requests, requests, h _ hlow, requests_congr data (u := u) n _ _ (k + 1) ?_ (by omega)]
    intro i hi
    rcases eq_or_ne i (k / NPTENTRIES) with rfl | hne
    · rw [Function.update_self, Function.update_self]
    · rw [Function.update_of_ne hne, Function.update_of_ne hne, h i hi]

theorem Entered.trans {data : Bool} {a b k : Nat} (h : Entered data d a k m m')
    (h' : Entered data d b (k + a) m' m'') : Entered data d (a + b) k m m'' := by
  refine ⟨?_, ?_⟩
  · rw [requests_add, ← h.tabled]
    exact h.served.trans h'.served
  · rw [entered_add, ← h.tabled]
    exact h'.tabled

theorem Entered.refused {data : Bool} {a k : Nat} (h : Entered data d a k m m') (b : Nat) :
    m.refused (requests data (m.tabled d) (a + b) k) =
      m'.refused (requests data (m'.tabled d) b (k + a)) := by
  rw [requests_add, h.served.refused, h.tabled]

theorem Entered.congr {data : Bool} {n k : Nat} (h : Entered data d n k m m')
    (htable : ∀ i, m''.table d i = m'.table d i) (hsupply : m''.supply = m'.supply) :
    Entered data d n k m m'' := by
  refine ⟨?_, ?_⟩
  · rw [Served, hsupply]
    exact h.served
  · rw [← h.tabled]
    exact funext fun i => congrArg Option.isSome (htable i)

/-! ## `walkpgdir` -/

theorem PDX_page {n : Nat} (hn : n < NPAGES) : PDX (PGSIZE * n) = n / NPTENTRIES := by
  simp only [PDX, PGSIZE, NPTENTRIES, NPDENTRIES, NPAGES] at *
  omega

theorem PTX_page (n : Nat) : PTX (PGSIZE * n) = n % NPTENTRIES := by
  rw [PTX, Nat.mul_div_cancel_left n (by decide)]

/-- `walkpgdir` without allocation looks for the table. -/
theorem walk_run {n : Nat} (hn : n < NPAGES) : (walkpgdir d (PGSIZE * n) false).run m =
    some (.ok ((m.table d (n / NPTENTRIES)).map fun t => (t, n % NPTENTRIES), m)) := by
  rw [walkpgdir, PDX_page hn, PTX_page, Prog.run_seq (Prog.run_gets ..), Memory.table]
  split <;> rfl

theorem walk_ends (h : Space lay m d hand) {n : Nat} (hn : n < NPAGES) :
    (walkpgdir d (PGSIZE * n) true).ends (fun r m' => Maps lay d m hand m' hand ∧
      (∀ k < NPAGES, m'.map d k = m.map d k) ∧
      match r with
      | none => m.refused (requests false (m.tabled d) 1 n) = some .table
      | some (t, i) => Entered false d 1 n m m' ∧ i = n % NPTENTRIES ∧
          m'.table d (n / NPTENTRIES) = some t) E m := by
  rw [walkpgdir, PDX_page hn, PTX_page, Prog.ends_bind, Prog.ends_gets]
  split
  · next hP =>
      have ht : m.table d (n / NPTENTRIES) = some (pageOf (m.entry d (n / NPTENTRIES))) := if_pos hP
      have hT : m.tabled d (n / NPTENTRIES) = true := congrArg Option.isSome ht
      refine ⟨.refl h, fun _ _ => rfl, ⟨?_, ?_⟩, rfl, ht⟩
      · simp [Served, requests, hT]
      · exact (Function.update_eq_self_iff.mpr hT.symm).symm
  · next hP =>
      have hnone : m.table d (n / NPTENTRIES) = none := if_neg hP
      have hreq : requests false (m.tabled d) 1 n = [.table] := by
        have hT : m.tabled d (n / NPTENTRIES) = false := congrArg Option.isSome hnone
        simp [requests, hT]
      rw [if_neg (by decide), Prog.ends_bind]
      refine kalloc_ends (fun luck hzero => ?_) fun t l luck hl hsupply => ?_
      · refine ⟨.noise h rfl rfl rfl, fun _ _ => congrFun (congrFun (map_of_ram rfl) d) _, ?_⟩
        show m.refused _ = _
        rw [hreq, Memory.refused, hzero]
        rfl
      · have htake := Maps.take h hl luck
        obtain ⟨hspace, hstep, htable, hmap, hother⟩ := htake.space.newTable
          (div_lt_NPDENTRIES hn) hnone rfl
        refine ⟨⟨hspace, htake.step.trans hstep, htake.sub, ?_, ?_, ?_⟩, hmap, ⟨?_, ?_⟩, rfl, ?_⟩
        · intro q hq hd _
          refine hother q ?_ hd
          rintro rfl
          exact hq (hl ▸ List.mem_cons_self)
        · intro i t' ht'
          refine (htable i).trans ((if_neg ?_).trans ht')
          rintro rfl
          rw [hnone] at ht'
          cases ht'
        · intro i t' ht'
          rw [htable] at ht'
          split at ht'
          · cases ht'
            exact .inr (hl ▸ List.mem_cons_self)
          · exact .inl ht'
        · rw [hreq, Served, hsupply, Nat.add_comm]
          rfl
        · funext i
          rw [Memory.tabled, htable, entered, entered, Function.update_apply]
          split <;> rfl
        · exact (htable _).trans (if_pos rfl)

/-! ## `mappages` -/

/-- One turn of the loop at a page number that is not mapped: there is no page for a table, or
the entry is made. -/
theorem mapLoop_step (h : Space lay m d hand) {n : Nat} (hn : n < NPAGES)
    (hnone : m.map d n = none) {perm k : Nat} {pa : Page} {Q : Bool → Memory → Prop}
    (hfail : ∀ m', Maps lay d m hand m' hand → (∀ k < NPAGES, m'.map d k = m.map d k) →
      m.refused (requests false (m.tabled d) 1 n) = some .table → Q false m')
    (hok : ∀ m₁ t, Maps lay d m hand m₁ hand → (∀ k < NPAGES, m₁.map d k = m.map d k) →
      Entered false d 1 n m m₁ → m₁.table d (n / NPTENTRIES) = some t →
      (mapLoop d perm k ((PGSIZE * n + PGSIZE) % 2 ^ 32) (pa + 1)).ends Q E
        (m₁.setEntry t (n % NPTENTRIES) (mkPte pa (perm ||| PTE_P)))) :
    (mapLoop d perm (k + 1) (PGSIZE * n) pa).ends Q E m := by
  rw [mapLoop]
  refine Prog.ends_seq (walk_ends h hn) ?_
  rintro (_ | ⟨t, i⟩) m₁ ⟨hmaps, hmap, hres⟩
  · exact hfail m₁ hmaps hmap hres
  · obtain ⟨hent, rfl, ht⟩ := hres
    dsimp only
    rw [Prog.ends_bind, Prog.ends_gets, if_neg]
    · exact hok m₁ t hmaps hmap hent ht
    · intro hP
      have hmapped : m₁.map d n = some (m₁.entry t (n % NPTENTRIES)) := by
        rw [Memory.map, Memory.leaf, ht, Option.map_some]
        exact if_pos (by simpa using hP)
      rw [hmap n hn, hnone] at hmapped
      cases hmapped

theorem mapLoop_eq {k n : Nat} (hn : 0 < n) (hk : k + n ≤ NPAGES) (pa : Page) (perm : Nat) :
    mappages d (PGSIZE * k) (PGSIZE * n) pa perm = mapLoop d perm n (PGSIZE * k) pa := by
  have hlast : PGROUNDDOWN (PGSIZE * k + PGSIZE * n + (2 ^ 32 - 1)) = PGSIZE * (k + n - 1) := by
    simp only [PGROUNDDOWN, PGSIZE, NPAGES] at hk ⊢
    omega
  have hfirst : PGROUNDDOWN (PGSIZE * k) = PGSIZE * k := by
    simp only [PGROUNDDOWN, PGSIZE, NPAGES] at hk ⊢
    omega
  have hcount : (PGSIZE * (k + n - 1) + 2 ^ 32 - PGSIZE * k) % 2 ^ 32 / PGSIZE + 1 = n := by
    simp only [PGSIZE, NPAGES] at hk ⊢
    omega
  rw [mappages, hlast, hfirst, hcount]

theorem perm_lt {perm : Nat} (h : perm < PGSIZE) : perm ||| PTE_P < PGSIZE :=
  Nat.or_lt_two_pow h (by decide : PTE_P < 2 ^ 12)

theorem perm_has (perm : Nat) : has (perm ||| PTE_P) PTE_P := by
  rw [has_P, Nat.or_mod_two_eq_one]
  exact .inr rfl

theorem mapPage_ends {p : Page} (h : Space lay m d (p :: hand)) {n : Nat} (hn : n < USERPAGES)
    (hnone : m.map d n = none) {perm : Nat} (hperm : perm < PGSIZE) :
    (mappages d (PGSIZE * n) PGSIZE p perm).ends (fun ok m' =>
      if ok = true then Maps lay d m (p :: hand) m' hand ∧ Entered false d 1 n m m' ∧
        ∀ k < NPAGES, m'.map d k = if k = n then some (mkPte p (perm ||| PTE_P)) else m.map d k
      else Maps lay d m (p :: hand) m' (p :: hand) ∧
        m.refused (requests false (m.tabled d) 1 n) = some .table ∧
        ∀ k < NPAGES, m'.map d k = m.map d k) E m := by
  have hn' : n + 1 ≤ NPAGES := Nat.lt_of_lt_of_le hn (by decide)
  have hloop : mappages d (PGSIZE * n) PGSIZE p perm = mapLoop d perm 1 (PGSIZE * n) p :=
    mapLoop_eq Nat.one_pos hn' p perm
  rw [hloop]
  refine mapLoop_step h hn' hnone ?_ ?_
  · intro m' hmaps hmap href
    exact ⟨hmaps, href, hmap⟩
  · intro m₁ t hmaps hmap hent ht
    have hnone₁ : m₁.map d n = none := (hmap n hn').trans hnone
    obtain ⟨hspace, hstep, htable, hmap', hother⟩ :=
      hmaps.space.enter hn ht hnone₁ (perm_lt hperm) (perm_has perm) rfl
    have henter := Maps.enter hspace hstep (div_lt_NPDENTRIES hn') ht rfl htable hother
    refine ⟨hmaps.trans henter, hent.congr htable rfl, ?_⟩
    intro k hk
    rw [hmap' k hk, hmap k hk]

theorem addPage_ends (h : Space lay m d hand) {p : Page} {l : List Page} (hl : m.free = p :: l)
    {luck : Nat → Bool} (hsupply : m.supply = Memory.supply { m with free := l, luck := luck } + 1)
    (x : Bytes) {n : Nat} (hn : n < USERPAGES) (hnone : m.map d n = none) {perm : Nat}
    (hperm : perm < PGSIZE) :
    (mappages d (PGSIZE * n) PGSIZE p perm).ends (fun ok m' => m'.ram p = x ∧
      if ok = true then Maps lay d m hand m' hand ∧ Entered true d 1 n m m' ∧
        ∀ k < NPAGES, m'.map d k = if k = n then some (mkPte p (perm ||| PTE_P)) else m.map d k
      else Maps lay d m hand m' (p :: hand) ∧
        m.refused (requests true (m.tabled d) 1 n) = some .table ∧
        ∀ k < NPAGES, m'.map d k = m.map d k) E
      (Memory.put { m with free := l, luck := luck } p x) := by
  obtain ⟨htake, hmap, htable⟩ := Maps.takePut h hl luck x rfl
  have hp : p ∈ p :: hand := List.mem_cons_self
  have hapart := htake.space.hand_apart hp
  have hT : Memory.tabled (Memory.put { m with free := l, luck := luck } p x) d = m.tabled d :=
    funext fun i => congrArg Option.isSome (htable i)
  have hreq : requests true (m.tabled d) 1 n = .page :: requests false (m.tabled d) 1 n := rfl
  have hsup : m.supply = Memory.supply (Memory.put { m with free := l, luck := luck } p x) + 1 :=
    hsupply
  refine Prog.ends_mono (mapPage_ends htake.space hn ((hmap n (hn.trans (by decide))).trans hnone)
    hperm) ?_ (fun _ he => he)
  rintro ok m' hres
  cases ok with
  | false =>
    obtain ⟨hmaps, href, hmap'⟩ := hres
    refine ⟨(hmaps.data p hapart.1 hapart.2.1 hapart.2.2).trans (put_self p x),
      htake.trans hmaps, ?_, fun k hk => (hmap' k hk).trans (hmap k hk)⟩
    rw [hT] at href
    rw [hreq, refused_cons hsup]
    exact href
  | true =>
    obtain ⟨hmaps, hent, hmap'⟩ := hres
    refine ⟨(hmaps.data p hapart.1 hapart.2.1 hapart.2.2).trans (put_self p x),
      htake.trans hmaps, ⟨?_, hT ▸ hent.tabled⟩, fun k hk => (hmap' k hk).trans ?_⟩
    · have hserved := hent.served
      rw [hT] at hserved
      rw [hreq, Served, hsup, hserved, List.length_cons]
      omega
    · rw [hmap k hk]

theorem mapRange_ends {perm : Nat} (hperm : perm < PGSIZE) : ∀ (n k pa : Nat)
    (m : Memory), Space lay m d hand → USERPAGES ≤ k → k + n ≤ NPAGES → pa + n ≤ NPAGES →
    (∀ j, k ≤ j → j < k + n → m.map d j = none) →
    (mapLoop d perm n (PGSIZE * k) pa).ends (fun ok m' => Maps lay d m hand m' hand ∧
      (∀ j < NPAGES, j < k ∨ k + n ≤ j → m'.map d j = m.map d j) ∧
      if ok = true then Entered false d n k m m' ∧
        ∀ j, k ≤ j → j < k + n → m'.map d j = some (mkPte (pa + (j - k)) (perm ||| PTE_P))
      else m.refused (requests false (m.tabled d) n k) = some .table) E m := by
  intro n
  induction n with
  | zero =>
    intro k pa m h _ _ _ _
    exact ⟨.refl h, fun _ _ _ => rfl, ⟨(Nat.zero_add _).symm, rfl⟩,
      fun j h₁ h₂ => absurd h₂ (not_lt.mpr h₁)⟩
  | succ n ih =>
    intro k pa m h hk hkn hpa hnone
    have hk' : k < NPAGES := by omega
    refine mapLoop_step h hk' (hnone k (Nat.le_refl k) (by omega)) ?_ ?_
    · intro m' hmaps hmap href
      refine ⟨hmaps, fun j hj _ => hmap j hj, ?_⟩
      rw [Nat.add_comm n 1, requests_add]
      exact refused_append href _
    · intro m₁ t hmaps hmap hent ht
      have hw : mkPte pa (perm ||| PTE_P) < 2 ^ 32 := mkPte_lt (by omega) (perm_lt hperm)
      have hP : has (mkPte pa (perm ||| PTE_P)) PTE_P :=
        (has_P_mkPte pa (perm_lt hperm)).mpr (perm_has perm)
      obtain ⟨hspace, hstep, htable, hmap', hother⟩ :=
        hmaps.space.enterKernel hk' hk ht hw hP rfl
      have henter := hmaps.trans (.enter hspace hstep (div_lt_NPDENTRIES hk') ht rfl htable hother)
      replace hent := hent.congr htable rfl
      -- behind the last page the address wraps, and the loop is over
      rcases Nat.eq_zero_or_pos n with rfl | hpos
      · refine ⟨henter, ?_, hent, ?_⟩
        · intro j hj hout
          rw [hmap' j hj, if_neg (by omega), hmap j hj]
        · intro j h₁ h₂
          obtain rfl : j = k := by omega
          rw [hmap' j hk', if_pos rfl, Nat.sub_self, Nat.add_zero]
      · have hva : (PGSIZE * k + PGSIZE) % 2 ^ 32 = PGSIZE * (k + 1) := by
          simp only [PGSIZE, NPAGES] at hkn ⊢
          omega
        rw [hva]
        refine Prog.ends_mono
          (ih (k + 1) (pa + 1) _ hspace (by omega) (by omega) (by omega) ?_) ?_ (fun _ he => he)
        · intro j h₁ h₂
          rw [hmap' j (by omega), if_neg (by omega), hmap j (by omega)]
          exact hnone j (by omega) (by omega)
        · rintro ok m₂ ⟨hmaps₂, hout, hres⟩
          refine ⟨henter.trans hmaps₂, ?_, ?_⟩
          · intro j hj hne
            rw [hout j hj (by omega), hmap' j hj, if_neg (by omega), hmap j hj]
          · cases ok with
            | false =>
              rw [Nat.add_comm n 1, hent.refused n]
              exact hres
            | true =>
              refine ⟨Nat.add_comm 1 n ▸ hent.trans hres.1, ?_⟩
              intro j h₁ h₂
              rcases Nat.lt_or_ge k j with hlt | hge
              · have hshift : pa + 1 + (j - (k + 1)) = pa + (j - k) := by omega
                rw [hres.2 j hlt (by omega), hshift]
              · obtain rfl : j = k := by omega
                rw [hout j hk' (by omega), hmap' j hk', if_pos rfl, Nat.sub_self, Nat.add_zero]

/-! ## `setupkvm` -/

def Kmap.first (k : Kmap) : Nat := k.virt / PGSIZE

def Kmap.pages (k : Kmap) : Nat := (k.physEnd + 2 ^ 32 - k.physStart) % 2 ^ 32 / PGSIZE

/-- The entry that a range makes for a page number. -/
def Kmap.entry (k : Kmap) (n : Nat) : Option Nat :=
  if k.first ≤ n ∧ n < k.first + k.pages then
    some (mkPte (k.physStart / PGSIZE + (n - k.first)) (k.perm ||| PTE_P))
  else none

def kernelMap (ks : List Kmap) (n : Nat) : Option Nat := ks.findSome? (·.entry n)

/-- The requests for the tables of the kernel half. -/
def kernelRequests : (Nat → Bool) → List Kmap → List Request
  | _, [] => []
  | T, k :: ks =>
    requests false T k.pages k.first ++ kernelRequests (entered T k.pages k.first) ks

/-- Ranges of whole pages, one behind the other, from page `lo` on. -/
def Ascending : Nat → List Kmap → Prop
  | _, [] => True
  | lo, k :: ks => k.virt % PGSIZE = 0 ∧ (k.physEnd + 2 ^ 32 - k.physStart) % 2 ^ 32 % PGSIZE = 0 ∧
      0 < k.pages ∧ lo ≤ k.first ∧ k.first + k.pages ≤ NPAGES ∧
      k.physStart / PGSIZE + k.pages ≤ NPAGES ∧ k.perm < PGSIZE ∧
      Ascending (k.first + k.pages) ks

theorem kmap_ascending (hdata : lay.data % PGSIZE = 0) : Ascending USERPAGES (kmap lay) := by
  have hlow := lay.low
  have hhigh := lay.high
  simp only [kmap, Ascending, Kmap.first, Kmap.pages, PGSIZE, KERNLINK, KERNBASE, EXTMEM, PHYSTOP,
    DEVSPACE, USERPAGES, NPAGES, PTE_W, true_and, and_true] at *
  omega

theorem kernelMap_low {lo : Nat} {ks : List Kmap} (h : Ascending lo ks) {n : Nat} (hn : n < lo) :
    kernelMap ks n = none := by
  induction ks generalizing lo with
  | nil => rfl
  | cons k ks ih =>
    obtain ⟨-, -, -, hfirst, -, -, -, hasc⟩ := h
    rw [kernelMap, List.findSome?_cons, Kmap.entry, if_neg (by omega)]
    exact ih hasc (by omega)

theorem mapKernel_ends : ∀ (ks : List Kmap) (lo : Nat) (m : Memory), Space lay m d hand →
    USERPAGES ≤ lo → Ascending lo ks → (∀ j, lo ≤ j → j < NPAGES → m.map d j = none) →
    (mapKernel d ks).ends (fun ok m' => Maps lay d m hand m' hand ∧
      (∀ j < NPAGES, j < lo → m'.map d j = m.map d j) ∧
      if ok = true then Served (kernelRequests (m.tabled d) ks) m m' ∧
        (∀ i < lo / NPTENTRIES, m'.tabled d i = m.tabled d i) ∧
        ∀ j < NPAGES, lo ≤ j → m'.map d j = kernelMap ks j
      else m.refused (kernelRequests (m.tabled d) ks) = some .table) E m
  | [], lo, m, h, _, _, hblank =>
    ⟨.refl h, fun _ _ _ => rfl, (Nat.zero_add _).symm, fun _ _ => rfl,
      fun j hj hlo => hblank j hlo hj⟩
  | k :: ks, lo, m, h, hlo, hasc, hblank => by
    obtain ⟨hvirt, hsize, hpos, hfirst, hend, hphys, hperm, hasc⟩ := hasc
    have hva : k.virt = PGSIZE * k.first :=
      (Nat.mul_div_cancel' (Nat.dvd_of_mod_eq_zero hvirt)).symm
    have hsz : (k.physEnd + 2 ^ 32 - k.physStart) % 2 ^ 32 = PGSIZE * k.pages :=
      (Nat.mul_div_cancel' (Nat.dvd_of_mod_eq_zero hsize)).symm
    rw [mapKernel, hva, hsz, mapLoop_eq hpos hend]
    refine Prog.ends_seq (mapRange_ends hperm _ _ _ m h (by omega) hend hphys ?_) ?_
    · exact fun j h₁ h₂ => hblank j (by omega) (by omega)
    · rintro ok m₁ ⟨hmaps, hout, hres⟩
      cases ok with
      | false => exact ⟨hmaps, fun j hj hlt => hout j hj (by omega), refused_append hres _⟩
      | true =>
        obtain ⟨hent, hin⟩ := hres
        rw [if_pos rfl]
        refine Prog.ends_mono (mapKernel_ends ks _ m₁ hmaps.space (by omega) hasc ?_) ?_
          (fun _ he => he)
        · intro j h₁ h₂
          rw [hout j h₂ (by omega)]
          exact hblank j (by omega) h₂
        · rintro ok m₂ ⟨hmaps₂, hlow, hres⟩
          refine ⟨hmaps.trans hmaps₂, ?_, ?_⟩
          · intro j hj hlt
            rw [hlow j hj (by omega), hout j hj (by omega)]
          · cases ok with
            | false =>
              rw [if_neg (by decide), kernelRequests, hent.served.refused, ← hent.tabled]
              exact hres
            | true =>
              obtain ⟨hserved, htabled, hmap⟩ := hres
              refine ⟨hent.served.trans (hent.tabled ▸ hserved), fun i hi => ?_, ?_⟩
              · have hle : lo / NPTENTRIES ≤ k.first / NPTENTRIES := Nat.div_le_div_right hfirst
                have hle' : lo / NPTENTRIES ≤ (k.first + k.pages) / NPTENTRIES :=
                  Nat.div_le_div_right (by omega)
                rw [htabled i (hi.trans_le hle'), hent.tabled, entered_low _ _ _ (hi.trans_le hle)]
              intro j hj hlo'
              rw [kernelMap, List.findSome?_cons, Kmap.entry]
              by_cases hrange : k.first ≤ j ∧ j < k.first + k.pages
              · rw [if_pos hrange, hlow j hj hrange.2, hin j hrange.1 hrange.2]
              · rw [if_neg hrange]
                show _ = kernelMap ks j
                rcases Nat.lt_or_ge j (k.first + k.pages) with hlt | hge
                · rw [hlow j hj hlt, hout j hj (by omega), hblank j hlo' hj, kernelMap_low hasc hlt]
                · exact hmap j hj hge

/-- The free list has pages that `kalloc` can give, each once. -/
def Memory.Pages (lay : Layout) (m : Memory) : Prop :=
  m.free.Nodup ∧ ∀ p ∈ m.free, Valid lay p

theorem Space.empty (hzero : m.ram d = fun _ => 0) (hnodup : (d :: m.free).Nodup)
    (hvalid : ∀ p ∈ d :: m.free, Valid lay p) : Space lay m d [] ∧
      (∀ p, m.Pool d [] p ↔ p ∈ d :: m.free) ∧ (∀ n, m.map d n = none) ∧
      ∀ i, m.table d i = none := by
  have htable : ∀ i, m.table d i = none := by
    intro i
    rw [Memory.table, Memory.entry, hzero, word_zero]
    exact if_neg (not_has_zero _)
  have hmap : ∀ n, m.map d n = none := by
    intro n
    rw [Memory.map, Memory.leaf, htable]
    rfl
  have hholds : ∀ a p, m.holds d a = some p → a = .dir ∧ p = d := by
    intro a p ha
    cases a with
    | dir =>
      cases ha
      exact ⟨rfl, rfl⟩
    | table i =>
      rw [Memory.holds, htable, ite_self] at ha
      cases ha
    | page n =>
      rw [Memory.holds, Memory.page, hmap, Option.map_none, ite_self] at ha
      cases ha
  have hpool : ∀ p, m.Pool d [] p ↔ p ∈ d :: m.free := by
    intro p
    rw [Memory.Pool, List.nil_append, List.mem_cons]
    constructor
    · rintro (hp | ⟨a, ha⟩)
      · exact .inr hp
      · exact .inl (hholds a p ha).2
    · rintro (rfl | hp)
      · exact .inr ⟨.dir, rfl⟩
      · exact .inl hp
  refine ⟨⟨⟨(List.nodup_cons.mp hnodup).2, ?_, ?_⟩, fun p hp => hvalid p ((hpool p).mp hp)⟩,
    hpool, hmap, htable⟩
  · intro a p ha
    obtain ⟨-, rfl⟩ := hholds a p ha
    exact (List.nodup_cons.mp hnodup).1
  · intro a b p ha hb
    rw [(hholds a p ha).1, (hholds b p hb).1]

/-- An address space has been made of pages that were free in `m`; no other page has been
touched. -/
structure Fresh (lay : Layout) (m m' : Memory) (d : Page) (hand : List Page) : Prop where
  space : Space lay m' d hand
  pool : ∀ p, m'.Pool d hand p ↔ p ∈ m.free
  frame : ∀ q, q ∉ m.free → m'.ram q = m.ram q
  cr3 : m'.cr3 = m.cr3

theorem Fresh.maps (h : Fresh lay m m' d hand) (hmaps : Maps lay d m' hand m'' hand') :
    Fresh lay m m'' d hand' where
  space := hmaps.space
  pool := fun p => (hmaps.step.pool p).trans (h.pool p)
  frame := fun q hq =>
    (hmaps.step.frame q fun hp => hq ((h.pool q).mp hp)).trans (h.frame q hq)
  cr3 := hmaps.step.cr3.trans h.cr3

/-- What `setupkvm` asks for: the directory and the tables of the kernel half. -/
def setupRequests (lay : Layout) : List Request :=
  .page :: kernelRequests (fun _ => false) (kmap lay)

/-- A call has failed because `kalloc` refused `r`; all that was taken has been given back,
unless it was a page table. -/
def GivenBack (m m' : Memory) (r : Request) : Prop :=
  match r with
  | .page => m'.free.Nodup ∧ ∀ p, p ∈ m'.free ↔ p ∈ m.free
  | .table => ∃ p ∈ m.free, p ∉ m'.free

theorem setupkvm_ends (h : m.Pages lay) (hdata : lay.data % PGSIZE = 0) :
    (setupkvm lay).ends (fun r m' =>
      match r with
      | none => (∀ q, q ∉ m.free → m'.ram q = m.ram q) ∧ m'.cr3 = m.cr3 ∧
          ∃ q, m.refused (setupRequests lay) = some q ∧ GivenBack m m' q
      | some d => Fresh lay m m' d [] ∧ Served (setupRequests lay) m m' ∧
          (∀ i, NPTENTRIES * i < USERPAGES → m'.tabled d i = false) ∧
          ∀ n < NPAGES, m'.map d n = kernelMap (kmap lay) n) E m := by
  rw [setupkvm, Prog.ends_bind]
  refine kalloc_ends (fun luck hzero => ⟨fun _ _ => rfl, rfl, .page, ?_, h.1, fun _ => Iff.rfl⟩)
    fun d l luck hl hsupply => ?_
  · rw [Memory.refused, hzero]
    rfl
  have hnodup : (d :: l).Nodup := hl ▸ h.1
  obtain ⟨hspace, hpool, hmap, htable⟩ := Space.empty (d := d)
    (m := Memory.fill { m with free := l, luck := luck } d 0) (put_self d _) hnodup
    (fun p hp => h.2 p (hl.symm ▸ hp))
  have hT : Memory.tabled (Memory.fill { m with free := l, luck := luck } d 0) d = fun _ => false :=
    funext fun i => congrArg Option.isSome (htable i)
  refine Prog.ends_bind.mpr (Prog.ends_modify.mpr (Prog.ends_seq
    (mapKernel_ends (kmap lay) USERPAGES _ hspace (Nat.le_refl _) (kmap_ascending hdata)
      fun n _ _ => hmap n) ?_))
  rintro ok m' ⟨hmaps, hlow, hres⟩
  rw [hT] at hres
  have hd : d ∈ m.free := hl ▸ List.mem_cons_self
  have hfresh : Fresh lay m m' d [] := by
    refine Fresh.maps ⟨hspace, fun p => hl ▸ hpool p, fun q hq => put_of_ne ?_ _, rfl⟩ hmaps
    rintro rfl
    exact hq hd
  cases ok with
  | false =>
    -- the directory is lost
    exact ⟨hfresh.frame, hfresh.cr3, .table, (refused_cons hsupply ..).trans hres, d, hd,
      fun hd' => hfresh.space.dir_valid.2 (List.mem_append_right _ hd')⟩
  | true =>
    obtain ⟨hserved, htabled, hkernel⟩ := hres
    refine ⟨hfresh, ?_, fun i hi => htabled i ?_, fun n hn => ?_⟩
    · rw [Served, hsupply, setupRequests, List.length_cons]
      have hserved : Memory.supply { m with free := l, luck := luck } = _ := hserved
      omega
    · simp only [NPTENTRIES, USERPAGES] at hi ⊢
      omega
    · rcases Nat.lt_or_ge n USERPAGES with hlt | hge
      · rw [hlow n hn hlt, hmap, kernelMap_low (kmap_ascending hdata) hlt]
      · exact hkernel n hn hge

end

end Xv6Pdx.Vm
