/-
# `Vm.Space` — the pages of an address space

The directory, its tables and the pages of the user half are the slots of an address
space.  `Space` says that no page is in two slots, and that none is on the free list or
in the hand of a function that is just going to enter it.  The functions of `vm.c` move
pages between the free list, the hand and the slots; they neither lose a page nor touch
one that is none of these (`Step`).
-/
import Xv6Pdx.Vm.Model
import Xv6Pdx.Lib.Ledger

namespace Xv6Pdx.Vm

open Lib Bytes
open Mem (Page Layout PGSIZE NPDENTRIES NPTENTRIES PHYSTOP)

/-! ## Entries -/

/-- Pages of the address space, and those of the user half. -/
def NPAGES : Nat := 2 ^ 20
def USERPAGES : Nat := 2 ^ 19

theorem mkPte_eq {f : Nat} (p : Page) (hf : f < PGSIZE) : mkPte p f = p * PGSIZE + f := by
  have h := Nat.shiftLeft_add_eq_or_of_lt (i := 12) hf p
  rw [Nat.shiftLeft_eq] at h
  exact h.symm

theorem pageOf_mkPte {f : Nat} (p : Page) (hf : f < PGSIZE) : pageOf (mkPte p f) = p := by
  rw [mkPte_eq p hf, pageOf, Nat.mul_comm, Nat.mul_add_div (by decide), Nat.div_eq_of_lt hf,
    Nat.add_zero]

theorem mkPte_lt {p f : Nat} (hp : p < NPAGES) (hf : f < PGSIZE) : mkPte p f < 2 ^ 32 := by
  rw [mkPte_eq p hf]
  simp only [NPAGES, PGSIZE] at *
  omega

theorem has_two_pow (w k : Nat) : has w (2 ^ k) ↔ w / 2 ^ k % 2 = 1 := by
  rw [has, Nat.and_two_pow, Nat.testBit_eq_decide_div_mod_eq]
  by_cases h : w / 2 ^ k % 2 = 1 <;> simp [h]

theorem has_P (w : Nat) : has w PTE_P ↔ w % 2 = 1 := by
  have h := has_two_pow w 0
  rwa [Nat.pow_zero, Nat.div_one] at h

theorem has_P_mkPte {f : Nat} (p : Page) (hf : f < PGSIZE) :
    has (mkPte p f) PTE_P ↔ has f PTE_P := by
  rw [has_P, has_P, mkPte_eq p hf]
  simp only [PGSIZE]
  omega

theorem not_has_zero (f : Nat) : ¬ has 0 f := by
  rw [has, Nat.zero_and]
  exact fun h => h rfl

/-! ## What a directory has -/

namespace Memory

/-- The table in a place of the directory. -/
def table (m : Memory) (d : Page) (i : Nat) : Option Page :=
  if has (m.entry d i) PTE_P then some (pageOf (m.entry d i)) else none

/-- The entry for a page number, if its table is there. -/
def leaf (m : Memory) (d : Page) (n : Nat) : Option Nat :=
  (m.table d (n / NPTENTRIES)).map fun t => m.entry t (n % NPTENTRIES)

/-- The entry for a page number that is mapped. -/
def map (m : Memory) (d : Page) (n : Nat) : Option Nat := (m.leaf d n).filter (has · PTE_P)

def page (m : Memory) (d : Page) (n : Nat) : Option Page := (m.map d n).map pageOf

end Memory

/-- The places for pages in an address space. -/
inductive Slot where
  | dir
  | table (i : Nat)
  | page (n : Nat)
deriving DecidableEq

def Memory.holds (m : Memory) (d : Page) : Slot → Option Page
  | .dir => some d
  | .table i => if i < NPDENTRIES then m.table d i else none
  | .page n => if n < USERPAGES then m.page d n else none

/-- A page that the directory has, that is free, or that is in the hand. -/
def Memory.Pool (m : Memory) (d : Page) (hand : List Page) (p : Page) : Prop :=
  p ∈ hand ++ m.free ∨ ∃ a, m.holds d a = some p

def Valid (lay : Layout) (p : Page) : Prop := lay.kend ≤ p ∧ p < PHYSTOP / PGSIZE ∧ p ≠ 0

structure Space (lay : Layout) (m : Memory) (d : Page) (hand : List Page) : Prop where
  ledger : Ledger (m.holds d) (hand ++ m.free)
  valid : ∀ p, m.Pool d hand p → Valid lay p

/-- Pages have been moved; no other page has been touched. -/
structure Step (d : Page) (m : Memory) (hand : List Page) (m' : Memory) (hand' : List Page) :
    Prop where
  pool : ∀ p, m'.Pool d hand' p ↔ m.Pool d hand p
  frame : ∀ q, ¬ m.Pool d hand q → m'.ram q = m.ram q
  cr3 : m'.cr3 = m.cr3

section

variable {lay : Layout} {m m' m'' : Memory} {d : Page} {hand hand' hand'' : List Page}

theorem Step.refl (d : Page) (m : Memory) (hand : List Page) : Step d m hand m hand :=
  ⟨fun _ => Iff.rfl, fun _ _ => rfl, rfl⟩

theorem Step.trans (h : Step d m hand m' hand') (h' : Step d m' hand' m'' hand'') :
    Step d m hand m'' hand'' where
  pool := fun p => (h'.pool p).trans (h.pool p)
  frame := fun q hq => (h'.frame q fun hp => hq ((h.pool q).mp hp)).trans (h.frame q hq)
  cr3 := h'.cr3.trans h.cr3

theorem Valid.lt {p : Page} (h : Valid lay p) : p < NPAGES := h.2.1.trans (by decide)

/-! ### Slots -/

theorem Space.table_valid (h : Space lay m d hand) {i t : Nat} (hi : i < NPDENTRIES)
    (ht : m.table d i = some t) : Valid lay t ∧ t ∉ hand ++ m.free ∧ t ≠ d := by
  have hold : m.holds d (.table i) = some t := (if_pos hi).trans ht
  refine ⟨h.valid t (.inr ⟨_, hold⟩), h.ledger.apart _ t hold, ?_⟩
  rintro rfl
  cases h.ledger.single _ .dir t hold rfl

theorem Space.dir_valid (h : Space lay m d hand) : Valid lay d ∧ d ∉ hand ++ m.free :=
  ⟨h.valid d (.inr ⟨.dir, rfl⟩), h.ledger.apart .dir d rfl⟩

theorem Space.table_inj (h : Space lay m d hand) {i j t : Nat} (hi : i < NPDENTRIES)
    (hj : j < NPDENTRIES) (ht : m.table d i = some t) (ht' : m.table d j = some t) : i = j := by
  have he := h.ledger.single (.table i) (.table j) t ((if_pos hi).trans ht) ((if_pos hj).trans ht')
  cases he
  rfl

theorem Space.page_valid (h : Space lay m d hand) {n p : Nat} (hn : n < USERPAGES)
    (hp : m.page d n = some p) : Valid lay p ∧ p ∉ hand ++ m.free ∧ p ≠ d ∧
      ∀ i < NPDENTRIES, m.table d i ≠ some p := by
  have hold : m.holds d (.page n) = some p := (if_pos hn).trans hp
  refine ⟨h.valid p (.inr ⟨_, hold⟩), h.ledger.apart _ p hold, ?_, ?_⟩
  · rintro rfl
    cases h.ledger.single _ .dir p hold rfl
  · intro i hi ht
    cases h.ledger.single _ (.table i) p hold ((if_pos hi).trans ht)

theorem Space.page_inj (h : Space lay m d hand) {n k p : Nat} (hn : n < USERPAGES)
    (hk : k < USERPAGES) (hp : m.page d n = some p) (hp' : m.page d k = some p) : n = k := by
  have he := h.ledger.single (.page n) (.page k) p ((if_pos hn).trans hp) ((if_pos hk).trans hp')
  cases he
  rfl

theorem Space.hand_apart (h : Space lay m d hand) {p : Page} (hp : p ∈ hand) :
    p ∉ m.free ∧ p ≠ d ∧ ∀ i < NPDENTRIES, m.table d i ≠ some p := by
  have hmem : p ∈ hand ++ m.free := List.mem_append_left _ hp
  refine ⟨fun hfree => ?_, ?_, fun i hi ht => (h.table_valid hi ht).2.1 hmem⟩
  · exact (List.nodup_append.mp h.ledger.nodup).2.2 p hp p hfree rfl
  · rintro rfl
    exact h.dir_valid.2 hmem

/-! ### Memory that the directory does not see -/

theorem table_congr (hd : m'.ram d = m.ram d) (i : Nat) : m'.table d i = m.table d i := by
  rw [Memory.table, Memory.table, Memory.entry, Memory.entry, hd]

theorem div_lt_NPDENTRIES {n : Nat} (hn : n < NPAGES) : n / NPTENTRIES < NPDENTRIES := by
  simp only [NPAGES, NPTENTRIES, NPDENTRIES] at *
  omega

/-- The entries are the same if the directory and its tables are. -/
theorem leaf_congr (hd : m'.ram d = m.ram d)
    (ht : ∀ i < NPDENTRIES, ∀ t, m.table d i = some t → m'.ram t = m.ram t) {n : Nat}
    (hn : n < NPAGES) : m'.leaf d n = m.leaf d n := by
  rw [Memory.leaf, Memory.leaf, table_congr hd]
  cases h : m.table d (n / NPTENTRIES) with
  | none => rfl
  | some t =>
    simp only [Option.map_some, Memory.entry]
    rw [ht _ (div_lt_NPDENTRIES hn) t h]

theorem map_of_leaf {n : Nat} (h : m'.leaf d n = m.leaf d n) : m'.map d n = m.map d n := by
  rw [Memory.map, Memory.map, h]

theorem holds_congr (ht : ∀ i < NPDENTRIES, m'.table d i = m.table d i)
    (hp : ∀ n < USERPAGES, m'.map d n = m.map d n) (a : Slot) : m'.holds d a = m.holds d a := by
  cases a with
  | dir => rfl
  | table i =>
    simp only [Memory.holds]
    split
    · next hi => exact ht i hi
    · rfl
  | page n =>
    simp only [Memory.holds]
    split
    · next hn => rw [Memory.page, Memory.page, hp n hn]
    · rfl

theorem table_of_ram (h : m'.ram = m.ram) : m'.table = m.table := by
  funext e i
  exact table_congr (congrFun h e) i

theorem map_of_ram (h : m'.ram = m.ram) : m'.map = m.map := by
  funext e n
  rw [Memory.map, Memory.map, Memory.leaf, Memory.leaf, table_of_ram h]
  simp only [Memory.entry, h]

theorem holds_of_ram (h : m'.ram = m.ram) : m'.holds d = m.holds d :=
  funext fun a => holds_congr (fun i _ => congrFun (congrFun (table_of_ram h) d) i)
    (fun n _ => congrFun (congrFun (map_of_ram h) d) n) a

theorem Space.same (h : Space lay m d hand) (hholds : m'.holds d = m.holds d)
    (hfree : m'.free = m.free) :
    Space lay m' d hand ∧ ∀ q, m'.Pool d hand q ↔ m.Pool d hand q := by
  have hpool : ∀ q, m'.Pool d hand q ↔ m.Pool d hand q := by
    intro q
    rw [Memory.Pool, Memory.Pool, hfree, hholds]
  refine ⟨⟨?_, fun q hq => h.valid q ((hpool q).mp hq)⟩, hpool⟩
  rw [hfree, hholds]
  exact h.ledger

theorem Space.congr (h : Space lay m d hand) (hram : m'.ram = m.ram) (hfree : m'.free = m.free)
    (hcr3 : m'.cr3 = m.cr3) : Space lay m' d hand ∧ Step d m hand m' hand := by
  obtain ⟨hspace, hpool⟩ := h.same (holds_of_ram hram) hfree
  exact ⟨hspace, hpool, fun q _ => congrFun hram q, hcr3⟩

theorem put_self (p : Page) (x : Bytes) : (m.put p x).ram p = x := Function.update_self ..

theorem put_of_ne {p q : Page} (h : q ≠ p) (x : Bytes) : (m.put p x).ram q = m.ram q :=
  Function.update_of_ne h ..

/-! ### What can happen to a page -/

theorem Space.take (h : Space lay m d hand) {p : Page} {l : List Page} (hl : m.free = p :: l)
    (luck : Nat → Bool) : Space lay { m with free := l, luck := luck } d (p :: hand) ∧
      Step d m hand { m with free := l, luck := luck } (p :: hand) := by
  have hperm : (hand ++ m.free).Perm (p :: hand ++ l) := by
    rw [hl]
    exact List.perm_middle
  have hpool : ∀ q, Memory.Pool { m with free := l, luck := luck } d (p :: hand) q ↔
      m.Pool d hand q := fun q => or_congr hperm.mem_iff.symm Iff.rfl
  exact ⟨⟨h.ledger.perm hperm, fun q hq => h.valid q ((hpool q).mp hq)⟩, hpool, fun _ _ => rfl, rfl⟩

theorem Space.putHand (h : Space lay m d hand) {p : Page} (hp : p ∈ hand) (x : Bytes) :
    Space lay (m.put p x) d hand ∧ Step d m hand (m.put p x) hand ∧
      (∀ i, (m.put p x).table d i = m.table d i) ∧
      ∀ k < NPAGES, (m.put p x).map d k = m.map d k := by
  obtain ⟨-, hd, ht⟩ := h.hand_apart hp
  have htable : ∀ i, (m.put p x).table d i = m.table d i := table_congr (put_of_ne hd.symm x)
  have hmap : ∀ k < NPAGES, (m.put p x).map d k = m.map d k := by
    refine fun k hk => map_of_leaf (leaf_congr (put_of_ne hd.symm x) (fun i hi t ht' => ?_) hk)
    refine put_of_ne ?_ x
    rintro rfl
    exact ht i hi ht'
  have hholds : (m.put p x).holds d = m.holds d :=
    funext (holds_congr (fun i _ => htable i) fun n hn => hmap n (hn.trans (by decide)))
  obtain ⟨hspace, hpool⟩ := h.same hholds rfl
  refine ⟨hspace, ⟨hpool, fun q hq => put_of_ne ?_ x, rfl⟩, htable, hmap⟩
  rintro rfl
  exact hq (.inl (List.mem_append_left _ hp))

theorem Space.fillSlot {p : Page} (h : Space lay m d (p :: hand)) {a : Slot}
    (hempty : m.holds d a = none)
    (hholds : ∀ b, m'.holds d b = if b = a then some p else m.holds d b)
    (hfree : m'.free = m.free) (hframe : ∀ q, ¬ m.Pool d (p :: hand) q → m'.ram q = m.ram q)
    (hcr3 : m'.cr3 = m.cr3) : Space lay m' d hand ∧ Step d m (p :: hand) m' hand := by
  have hpool : ∀ q, m'.Pool d hand q ↔ m.Pool d (p :: hand) q := by
    intro q
    rw [Memory.Pool, Memory.Pool, hfree, List.cons_append, List.mem_cons]
    constructor
    · rintro (hq | ⟨b, hb⟩)
      · exact .inl (.inr hq)
      · rw [hholds] at hb
        split at hb
        · cases hb
          exact .inl (.inl rfl)
        · exact .inr ⟨b, hb⟩
    · rintro ((rfl | hq) | ⟨b, hb⟩)
      · exact .inr ⟨a, (hholds _).trans (if_pos rfl)⟩
      · exact .inl hq
      · refine .inr ⟨b, (hholds b).trans ((if_neg ?_).trans hb)⟩
        rintro rfl
        rw [hempty] at hb
        cases hb
  refine ⟨⟨?_, fun q hq => h.valid q ((hpool q).mp hq)⟩, hpool, hframe, hcr3⟩
  rw [hfree]
  refine h.ledger.take a fun b q hb => ?_
  rw [hholds] at hb
  split at hb
  · next he =>
      cases hb
      exact .inr ⟨he, rfl⟩
  · exact .inl hb

theorem Space.newTable {t : Page} (h : Space lay m d (t :: hand)) {i : Nat} (hi : i < NPDENTRIES)
    (hnone : m.table d i = none) {m' : Memory}
    (hm' : m' = (m.fill t 0).setEntry d i (mkPte t (PTE_P ||| PTE_W ||| PTE_U))) :
    Space lay m' d hand ∧ Step d m (t :: hand) m' hand ∧
      (∀ j, m'.table d j = if j = i then some t else m.table d j) ∧
      (∀ n < NPAGES, m'.map d n = m.map d n) ∧
      ∀ q, q ≠ t → q ≠ d → m'.ram q = m.ram q := by
  obtain ⟨-, hdfree⟩ := h.dir_valid
  have hdt : d ≠ t := by
    rintro rfl
    exact hdfree List.mem_cons_self
  have htv : Valid lay t := h.valid t (.inl List.mem_cons_self)
  have hflags : PTE_P ||| PTE_W ||| PTE_U < PGSIZE := by decide
  have hother : ∀ q, q ≠ t → q ≠ d → m'.ram q = m.ram q := by
    intro q hqt hqd
    rw [hm', Memory.setEntry, put_of_ne hqd, Memory.fill, put_of_ne hqt]
  have hself : m'.ram t = fun _ => 0 := by
    rw [hm', Memory.setEntry, put_of_ne hdt.symm, Memory.fill, put_self]
  have hdir : m'.ram d = (m.ram d).setWord i (mkPte t (PTE_P ||| PTE_W ||| PTE_U)) := by
    rw [hm', Memory.setEntry, put_self, Memory.fill, put_of_ne hdt]
  have htable : ∀ j, m'.table d j = if j = i then some t else m.table d j := by
    intro j
    rw [Memory.table, Memory.entry, hdir]
    by_cases hj : j = i
    · rw [hj, word_setWord_self (mkPte_lt htv.lt hflags), if_pos, if_pos rfl, pageOf_mkPte t hflags]
      rw [has_P_mkPte t hflags]
      decide
    · rw [word_setWord_of_ne hj, if_neg hj, Memory.table, Memory.entry]
  have hmap : ∀ n < NPAGES, m'.map d n = m.map d n := by
    intro n hn
    rw [Memory.map, Memory.map, Memory.leaf, Memory.leaf, htable]
    split
    · next hni =>
        rw [hni, hnone, Option.map_some, Memory.entry, hself, word_zero]
        rfl
    · cases ht : m.table d (n / NPTENTRIES) with
      | none => rfl
      | some t' =>
        obtain ⟨-, hfree, hne⟩ := h.table_valid (div_lt_NPDENTRIES hn) ht
        have htt : t' ≠ t := by
          rintro rfl
          exact hfree List.mem_cons_self
        rw [Option.map_some, Option.map_some, Memory.entry, Memory.entry, hother t' htt hne]
  have hholds : ∀ a, m'.holds d a = if a = .table i then some t else m.holds d a := by
    intro a
    cases a with
    | dir => rfl
    | table j =>
      simp only [Memory.holds, htable, Slot.table.injEq]
      by_cases hj : j = i
      · rw [if_pos hj, if_pos hj, if_pos (hj ▸ hi)]
      · rw [if_neg hj, if_neg hj]
    | page n =>
      simp only [Memory.holds, reduceCtorEq, if_false]
      split
      · next hn => rw [Memory.page, Memory.page, hmap n (hn.trans (by decide))]
      · rfl
  have hempty : m.holds d (.table i) = none := (if_pos hi).trans hnone
  have hframe : ∀ q, ¬ m.Pool d (t :: hand) q → m'.ram q = m.ram q := by
    intro q hq
    refine hother q ?_ ?_
    · rintro rfl
      exact hq (.inl List.mem_cons_self)
    · rintro rfl
      exact hq (.inr ⟨.dir, rfl⟩)
  obtain ⟨hspace, hstep⟩ := h.fillSlot hempty hholds (by rw [hm']; rfl) hframe (by rw [hm']; rfl)
  exact ⟨hspace, hstep, htable, hmap, hother⟩

theorem setLeaf {n t w : Nat} (ht : m.table d (n / NPTENTRIES) = some t) (htd : t ≠ d)
    (hinj : ∀ j < NPDENTRIES, m.table d j = some t → j = n / NPTENTRIES) (hw : w < 2 ^ 32)
    {m' : Memory} (hm' : m' = m.setEntry t (n % NPTENTRIES) w) :
    (∀ j, m'.table d j = m.table d j) ∧
      (∀ k < NPAGES, m'.leaf d k = if k = n then some w else m.leaf d k) ∧
      ∀ q, q ≠ t → m'.ram q = m.ram q := by
  have hother : ∀ q, q ≠ t → m'.ram q = m.ram q := by
    intro q hq
    rw [hm', Memory.setEntry, put_of_ne hq]
  have hself : m'.ram t = (m.ram t).setWord (n % NPTENTRIES) w := by
    rw [hm', Memory.setEntry, put_self]
  have htable : ∀ j, m'.table d j = m.table d j := table_congr (hother d (Ne.symm htd))
  refine ⟨htable, fun k hk => ?_, hother⟩
  rw [Memory.leaf, Memory.leaf, htable]
  split
  · next hkn => rw [hkn, ht, Option.map_some, Memory.entry, hself, word_setWord_self hw]
  · next hkn =>
      cases ht' : m.table d (k / NPTENTRIES) with
      | none => rfl
      | some t' =>
        rw [Option.map_some, Option.map_some, Memory.entry, Memory.entry]
        by_cases he : t' = t
        · subst he
          have hdiv := hinj _ (div_lt_NPDENTRIES hk) ht'
          rw [hself, word_setWord_of_ne]
          intro hmod
          simp only [NPTENTRIES] at hdiv hmod
          omega
        · rw [hother t' he]

theorem Space.setLeaf (h : Space lay m d hand) {n t w : Nat} (hn : n < NPAGES)
    (ht : m.table d (n / NPTENTRIES) = some t) (hw : w < 2 ^ 32) {m' : Memory}
    (hm' : m' = m.setEntry t (n % NPTENTRIES) w) :
    (∀ j, m'.table d j = m.table d j) ∧
      (∀ k < NPAGES, m'.leaf d k = if k = n then some w else m.leaf d k) ∧
      ∀ q, q ≠ t → m'.ram q = m.ram q :=
  Vm.setLeaf ht (h.table_valid (div_lt_NPDENTRIES hn) ht).2.2
    (fun _ hj hj' => h.table_inj hj (div_lt_NPDENTRIES hn) hj' ht) hw hm'

theorem Space.enter {p : Page} (h : Space lay m d (p :: hand)) {n t f : Nat} (hn : n < USERPAGES)
    (ht : m.table d (n / NPTENTRIES) = some t) (hnone : m.map d n = none) (hf : f < PGSIZE)
    (hP : has f PTE_P) {m' : Memory} (hm' : m' = m.setEntry t (n % NPTENTRIES) (mkPte p f)) :
    Space lay m' d hand ∧ Step d m (p :: hand) m' hand ∧
      (∀ j, m'.table d j = m.table d j) ∧
      (∀ k < NPAGES, m'.map d k = if k = n then some (mkPte p f) else m.map d k) ∧
      ∀ q, q ≠ t → m'.ram q = m.ram q := by
  have hn' : n < NPAGES := hn.trans (by decide)
  have hpv : Valid lay p := h.valid p (.inl List.mem_cons_self)
  obtain ⟨htable, hleaf, hother⟩ := h.setLeaf hn' ht (mkPte_lt hpv.lt hf) hm'
  have hmap : ∀ k < NPAGES, m'.map d k = if k = n then some (mkPte p f) else m.map d k := by
    intro k hk
    rw [Memory.map, hleaf k hk]
    split
    · exact if_pos (by simpa using (has_P_mkPte p hf).mpr hP)
    · rfl
  have hempty : m.holds d (.page n) = none := by
    rw [Memory.holds, if_pos hn, Memory.page, hnone]
    rfl
  have hholds : ∀ a, m'.holds d a = if a = .page n then some p else m.holds d a := by
    intro a
    cases a with
    | dir => rfl
    | table j => simp only [Memory.holds, htable, reduceCtorEq, if_false]
    | page k =>
      simp only [Memory.holds, Slot.page.injEq]
      by_cases hk : k < USERPAGES
      · rw [if_pos hk, if_pos hk, Memory.page, hmap k (hk.trans (by decide))]
        split
        · rw [Option.map_some, pageOf_mkPte p hf]
        · rfl
      · have hkn : k ≠ n := fun he => hk (he ▸ hn)
        rw [if_neg hk, if_neg hk, if_neg hkn]
  have hframe : ∀ q, ¬ m.Pool d (p :: hand) q → m'.ram q = m.ram q := by
    intro q hq
    refine hother q ?_
    rintro rfl
    exact hq (.inr ⟨.table _, (if_pos (div_lt_NPDENTRIES hn')).trans ht⟩)
  obtain ⟨hspace, hstep⟩ := h.fillSlot hempty hholds (by rw [hm']; rfl) hframe (by rw [hm']; rfl)
  exact ⟨hspace, hstep, htable, hmap, hother⟩

theorem Space.enterKernel (h : Space lay m d hand) {n t w : Nat} (hn : n < NPAGES)
    (hk : USERPAGES ≤ n) (ht : m.table d (n / NPTENTRIES) = some t) (hw : w < 2 ^ 32)
    (hP : has w PTE_P) {m' : Memory} (hm' : m' = m.setEntry t (n % NPTENTRIES) w) :
    Space lay m' d hand ∧ Step d m hand m' hand ∧ (∀ j, m'.table d j = m.table d j) ∧
      (∀ k < NPAGES, m'.map d k = if k = n then some w else m.map d k) ∧
      ∀ q, q ≠ t → m'.ram q = m.ram q := by
  obtain ⟨htable, hleaf, hother⟩ := h.setLeaf hn ht hw hm'
  have hmap : ∀ k < NPAGES, m'.map d k = if k = n then some w else m.map d k := by
    intro k hk
    rw [Memory.map, hleaf k hk]
    split
    · exact if_pos (by simpa using hP)
    · rfl
  have hholds : m'.holds d = m.holds d := by
    funext a
    refine holds_congr (fun i _ => htable i) (fun k hk' => ?_) a
    rw [hmap k (hk'.trans (by decide)), if_neg (Nat.ne_of_lt (hk'.trans_le hk))]
  obtain ⟨hspace, hpool⟩ := h.same hholds (by rw [hm']; rfl)
  refine ⟨hspace, ⟨hpool, fun q hq => hother q ?_, ?_⟩, htable, hmap, hother⟩
  · rintro rfl
    exact hq (.inr ⟨.table _, (if_pos (div_lt_NPDENTRIES hn)).trans ht⟩)
  · rw [hm']
    rfl

/-- A page of the user half is freed and its entry cleared. -/
theorem Space.unmap (h : Space lay m d hand) {n t w : Nat} (hn : n < USERPAGES)
    (ht : m.table d (n / NPTENTRIES) = some t) (hmap : m.map d n = some w) {m' : Memory}
    (hm' : m' = Memory.setEntry { m.fill (pageOf w) 1 with free := pageOf w :: m.free } t
      (n % NPTENTRIES) 0) :
    Space lay m' d hand ∧ Step d m hand m' hand ∧ (∀ j, m'.table d j = m.table d j) ∧
      (∀ k < NPAGES, m'.leaf d k = if k = n then some 0 else m.leaf d k) ∧
      (∀ k < NPAGES, m'.map d k = if k = n then none else m.map d k) ∧
      ∀ q, q ≠ t → q ≠ pageOf w → m'.ram q = m.ram q := by
  have hn' : n < NPAGES := hn.trans (by decide)
  have hpage : m.page d n = some (pageOf w) := by
    rw [Memory.page, hmap]
    rfl
  generalize pageOf w = p at hpage hm'
  obtain ⟨-, hpfree, hpd, hpt⟩ := h.page_valid hn hpage
  have hpt' : t ≠ p := fun he => hpt _ (div_lt_NPDENTRIES hn') (he ▸ ht)
  obtain ⟨-, -, htd⟩ := h.table_valid (div_lt_NPDENTRIES hn') ht
  have hother : ∀ q, q ≠ t → q ≠ p → m'.ram q = m.ram q := by
    intro q hqt hqp
    rw [hm', Memory.setEntry, put_of_ne hqt]
    exact put_of_ne hqp _
  -- the junk in the page is not seen through the directory
  generalize hm₁ : ({ m.fill p 1 with free := p :: m.free } : Memory) = m₁ at hm'
  have hram : ∀ q, q ≠ p → m₁.ram q = m.ram q := by
    intro q hq
    rw [← hm₁]
    exact put_of_ne hq _
  have htable₁ : ∀ j, m₁.table d j = m.table d j := table_congr (hram d hpd.symm)
  have hleaf₁ : ∀ k < NPAGES, m₁.leaf d k = m.leaf d k := by
    refine fun k hk => leaf_congr (hram d hpd.symm) (fun i hi t' ht' => hram t' ?_) hk
    rintro rfl
    exact hpt i hi ht'
  obtain ⟨htable, hleaf, -⟩ := Vm.setLeaf ((htable₁ _).trans ht) htd
    (fun j hj hj' => h.table_inj hj (div_lt_NPDENTRIES hn') ((htable₁ j).symm.trans hj') ht)
    (by decide) hm'
  have hleaf' : ∀ k < NPAGES, m'.leaf d k = if k = n then some 0 else m.leaf d k := by
    intro k hk
    rw [hleaf k hk, hleaf₁ k hk]
  have hmap' : ∀ k < NPAGES, m'.map d k = if k = n then none else m.map d k := by
    intro k hk
    rw [Memory.map, hleaf' k hk]
    split <;> rfl
  have htable' : ∀ j, m'.table d j = m.table d j := fun j => (htable j).trans (htable₁ j)
  have hholds : ∀ a, m'.holds d a = if a = .page n then none else m.holds d a := by
    intro a
    cases a with
    | dir => rfl
    | table j => simp only [Memory.holds, htable', reduceCtorEq, if_false]
    | page k =>
      simp only [Memory.holds, Slot.page.injEq]
      by_cases hk : k < USERPAGES
      · rw [if_pos hk, if_pos hk, Memory.page, hmap' k (hk.trans (by decide))]
        split
        · rfl
        · rfl
      · rw [if_neg hk, if_neg hk]
        split <;> rfl
  have hold : m.holds d (.page n) = some p := (if_pos hn).trans hpage
  have hfree : m'.free = p :: m.free := by
    rw [hm', ← hm₁]
    rfl
  have hperm : (p :: (hand ++ m.free)).Perm (hand ++ m'.free) := by
    rw [hfree]
    exact List.perm_middle.symm
  have hpool : ∀ q, m'.Pool d hand q ↔ m.Pool d hand q := by
    intro q
    rw [Memory.Pool, Memory.Pool, ← hperm.mem_iff, List.mem_cons]
    constructor
    · rintro ((rfl | hq) | ⟨a, ha⟩)
      · exact .inr ⟨_, hold⟩
      · exact .inl hq
      · rw [hholds] at ha
        split at ha
        · cases ha
        · exact .inr ⟨a, ha⟩
    · rintro (hq | ⟨a, ha⟩)
      · exact .inl (.inr hq)
      · by_cases he : a = .page n
        · rw [he, hold] at ha
          cases ha
          exact .inl (.inl rfl)
        · exact .inr ⟨a, (hholds a).trans ((if_neg he).trans ha)⟩
  refine ⟨⟨?_, fun q hq => h.valid q ((hpool q).mp hq)⟩, ⟨hpool, fun q hq => hother q ?_ ?_, ?_⟩,
    htable', hleaf', hmap', hother⟩
  · refine Ledger.perm (h.ledger.give hold ?_ fun a q ha => ?_) hperm
    · rw [hholds, if_pos rfl]
      nofun
    · rw [hholds] at ha
      split at ha
      · cases ha
      · exact ha
  · rintro rfl
    exact hq (.inr ⟨.table _, (if_pos (div_lt_NPDENTRIES hn')).trans ht⟩)
  · rintro rfl
    exact hq (.inr ⟨_, hold⟩)
  · rw [hm', ← hm₁]
    rfl

end

end Xv6Pdx.Vm
