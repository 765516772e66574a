/-
# `Vm.Copyout` — `copyout`

`copyout` writes page by page, as long as `uva2ka` finds a page that the user has.  `uva2ka`
does not look whether there is a page table: for an address whose table is missing it reads
the word at address 0 of the process that runs, and may take it for an entry
(`copyout_stray`).  It is exact, and reads no such word, exactly if the tables that it meets
are there.
-/
import Xv6Pdx.Vm.Dealloc

namespace Xv6Pdx.Vm

open Lib Bytes
open Mem (Page Layout PGSIZE NPDENTRIES NPTENTRIES PHYSTOP PGROUNDUP PGROUNDDOWN)

namespace Memory

def User (m : Memory) (d : Page) (a : Nat) : Prop :=
  a < 2 ^ 32 ∧ ∃ w, m.map d (a / PGSIZE) = some w ∧ has w PTE_U

/-- The place of an address in memory. -/
def loc (m : Memory) (d : Page) (a : Nat) : Option (Page × Nat) :=
  (m.page d (a / PGSIZE)).map fun p => (p, a % PGSIZE)

/-- The kernel half is not for the user. -/
def KernelOnly (m : Memory) (d : Page) : Prop :=
  ∀ n < NPAGES, USERPAGES ≤ n → ∀ w, m.map d n = some w → ¬ has w PTE_U

/-- There is a table for every page that the loop of `copyout` looks at. -/
def Covered (m : Memory) (d : Page) (va len : Nat) : Prop :=
  ∀ i < len, va + i < 2 ^ 32 → (∀ j < i, m.User d (va + j)) →
    m.table d (PDX (va + i)) ≠ none

end Memory

/-- The bytes have been written at the address, and nothing else. -/
structure Wrote (d : Page) (va : Nat) (bs : List UInt8) (m m' : Memory) : Prop where
  only : m' = { m with ram := m'.ram }
  table : ∀ i, m'.table d i = m.table d i
  leaf : ∀ n < NPAGES, m'.leaf d n = m.leaf d n
  user : ∀ i < bs.length, m.User d (va + i)
  bytes : ∀ i b, bs[i]? = some b → ∀ q j, m.loc d (va + i) = some (q, j) → m'.ram q j = b
  frame : ∀ q j, (∀ i < bs.length, m.loc d (va + i) ≠ some (q, j)) → m'.ram q j = m.ram q j

section

variable {lay : Layout} {m m₁ m' : Memory} {d : Page} {hand : List Page} {va : Nat}
  {bs : List UInt8} {E : String → Prop} {null : VmM Nat}

theorem Wrote.nil (d : Page) (va : Nat) (m : Memory) : Wrote d va [] m m where
  only := rfl
  table := fun _ => rfl
  leaf := fun _ _ => rfl
  user := nofun
  bytes := nofun
  frame := fun _ _ _ => rfl

theorem page_lt {a : Nat} (h : a < 2 ^ 32) : a / PGSIZE < NPAGES := by
  simp only [PGSIZE, NPAGES]
  omega

theorem Wrote.map (h : Wrote d va bs m m') {n : Nat} (hn : n < NPAGES) : m'.map d n = m.map d n :=
  map_of_leaf (h.leaf n hn)

theorem Wrote.user_iff (h : Wrote d va bs m m') (a : Nat) : m'.User d a ↔ m.User d a := by
  refine and_congr_right fun ha => ?_
  rw [h.map (page_lt ha)]

theorem Wrote.loc (h : Wrote d va bs m m') {a : Nat} (ha : a < 2 ^ 32) :
    m'.loc d a = m.loc d a := by
  rw [Memory.loc, Memory.loc, Memory.page, Memory.page, h.map (page_lt ha)]

theorem Wrote.kernelOnly (h : Wrote d va bs m m') (hk : m.KernelOnly d) : m'.KernelOnly d := by
  intro n hn hge w hw
  rw [h.map hn] at hw
  exact hk n hn hge w hw

theorem Wrote.space (h : Wrote d va bs m m') (hs : Space lay m d hand) : Space lay m' d hand := by
  have hholds : m'.holds d = m.holds d :=
    funext (holds_congr (fun i _ => h.table i) fun n hn => h.map (hn.trans (by decide)))
  refine (hs.same hholds ?_).1
  rw [h.only]

theorem Memory.User.lt (h : m.User d va) (hk : m.KernelOnly d) : va / PGSIZE < USERPAGES := by
  obtain ⟨hva, w, hw, hU⟩ := h
  by_contra hge
  exact hk _ (page_lt hva) (not_lt.mp hge) w hw hU

theorem Space.loc_inj (h : Space lay m d hand) {a b : Nat} (ha : a / PGSIZE < USERPAGES)
    (hb : b / PGSIZE < USERPAGES) {x : Page × Nat} (hx : m.loc d a = some x)
    (hy : m.loc d b = some x) : a = b := by
  obtain ⟨p, hp, rfl⟩ := Option.map_eq_some_iff.mp hx
  obtain ⟨q, hq, he⟩ := Option.map_eq_some_iff.mp hy
  rw [Prod.mk.injEq] at he
  have hdiv := h.page_inj ha hb hp (he.1 ▸ hq)
  rw [← Nat.div_add_mod a PGSIZE, ← Nat.div_add_mod b PGSIZE, hdiv, he.2]

theorem Wrote.append (hs : Space lay m d hand) (hk : m.KernelOnly d) {as : List UInt8}
    (h : Wrote d va as m m₁) (h' : Wrote d (va + as.length) bs m₁ m') :
    Wrote d va (as ++ bs) m m' := by
  have huser : ∀ i < bs.length, m.User d (va + as.length + i) :=
    fun i hi => (h.user_iff _).mp (h'.user i hi)
  have hloc : ∀ i < bs.length, m₁.loc d (va + as.length + i) = m.loc d (va + as.length + i) :=
    fun i hi => h.loc (huser i hi).1
  refine ⟨?_, fun i => (h'.table i).trans (h.table i), fun n hn => (h'.leaf n hn).trans (h.leaf n hn),
    ?_, ?_, ?_⟩
  · rw [h'.only, h.only]
  · intro i hi
    rw [List.length_append] at hi
    rcases Nat.lt_or_ge i as.length with hlt | hge
    · exact h.user i hlt
    · have hu := huser (i - as.length) (by omega)
      rwa [show va + as.length + (i - as.length) = va + i by omega] at hu
  · intro i b hb q j hq
    rcases Nat.lt_or_ge i as.length with hlt | hge
    · rw [List.getElem?_append_left hlt] at hb
      -- what is written behind is elsewhere
      refine (h'.frame q j fun k hk' hk'' => ?_).trans (h.bytes i b hb q j hq)
      have he := hs.loc_inj ((h.user i hlt).lt hk) ((huser k hk').lt hk) hq
        ((hloc k hk').symm.trans hk'')
      omega
    · rw [List.getElem?_append_right hge] at hb
      have hlt : i - as.length < bs.length := (List.getElem?_eq_some_iff.mp hb).1
      refine h'.bytes _ b hb q j ((hloc _ hlt).trans ?_)
      rwa [show va + as.length + (i - as.length) = va + i by omega]
  · intro q j hout
    rw [List.length_append] at hout
    refine (h'.frame q j fun i hi hi' => ?_).trans (h.frame q j fun i hi => hout i (by omega))
    rw [hloc i hi, Nat.add_assoc] at hi'
    exact hout (as.length + i) (by omega) hi'

theorem Wrote.chunk (hs : Space lay m d hand) (hk : m.KernelOnly d) {w : Nat} (hva : va < 2 ^ 32)
    (hw : m.map d (va / PGSIZE) = some w) (hU : has w PTE_U)
    (hlen : va % PGSIZE + bs.length ≤ PGSIZE) :
    Wrote d va bs m (m.put (pageOf w) ((m.ram (pageOf w)).patch (va % PGSIZE) bs)) := by
  have hpage : m.page d (va / PGSIZE) = some (pageOf w) := by
    rw [Memory.page, hw]
    rfl
  have hn : va / PGSIZE < USERPAGES := Memory.User.lt ⟨hva, w, hw, hU⟩ hk
  obtain ⟨-, -, hd, ht⟩ := hs.page_valid hn hpage
  generalize pageOf w = p at hpage hd ht
  have hdiv : ∀ i < bs.length, (va + i) / PGSIZE = va / PGSIZE ∧
      (va + i) % PGSIZE = va % PGSIZE + i := by
    intro i hi
    simp only [PGSIZE] at hlen ⊢
    omega
  have hloc : ∀ i < bs.length, m.loc d (va + i) = some (p, va % PGSIZE + i) := by
    intro i hi
    rw [Memory.loc, (hdiv i hi).1, (hdiv i hi).2, hpage]
    rfl
  refine ⟨rfl, table_congr (put_of_ne hd.symm _), ?_, ?_, ?_, ?_⟩
  · refine fun n hn' => leaf_congr (put_of_ne hd.symm _) (fun i hi t ht' => put_of_ne ?_ _) hn'
    rintro rfl
    exact ht i hi ht'
  · intro i hi
    refine ⟨?_, w, ?_, hU⟩
    · have hlt := (hdiv i hi).1
      simp only [PGSIZE, USERPAGES] at hlt hn
      omega
    · rw [(hdiv i hi).1, hw]
  · intro i b hb q j hq
    rw [hloc i (List.getElem?_eq_some_iff.mp hb).1] at hq
    cases hq
    rw [put_self, patch, if_neg (by omega), Nat.add_sub_cancel_left, hb]
    rfl
  · intro q j hout
    by_cases hq : q = p
    · subst hq
      rw [put_self]
      by_cases hin : va % PGSIZE ≤ j ∧ j < va % PGSIZE + bs.length
      · refine absurd ?_ (hout (j - va % PGSIZE) (by omega))
        rw [hloc _ (by omega), Nat.add_sub_cancel' hin.1]
      · rcases Nat.lt_or_ge j (va % PGSIZE) with hlt | hge
        · exact patch_of_lt hlt
        · exact patch_of_ge (by omega)
    · rw [put_of_ne hq]

/-! ## The loop -/

theorem uva2ka_run {n : Nat} (hn : n < NPAGES) {t : Page}
    (ht : m.table d (n / NPTENTRIES) = some t) : (uva2ka null d (PGSIZE * n)).run m =
      some (.ok ((m.map d n).bind fun w => if has w PTE_U then some (pageOf w) else none, m)) := by
  rw [uva2ka, Prog.run_seq (walk_run hn), ht]
  have hmap := map_of_entry ht
  show Prog.run ((Prog.gets fun m => m.entry t (n % NPTENTRIES)) >>= _) m = _
  rw [Prog.run_seq (Prog.run_gets ..), hmap]
  by_cases hP : has (m.entry t (n % NPTENTRIES)) PTE_P
  · by_cases hU : has (m.entry t (n % NPTENTRIES)) PTE_U <;> simp [hP, hU]
  · simp [hP]

/-- Where the table is missing, the null pointer is read. -/
theorem uva2ka_null {n : Nat} (hn : n < NPAGES) (ht : m.table d (n / NPTENTRIES) = none)
    (hnull : null.ends (fun _ _ => False) E m) {Q : Option Page → Memory → Prop} :
    (uva2ka null d (PGSIZE * n)).ends Q E m := by
  rw [uva2ka, Prog.ends_bind]
  refine Prog.ends_of_run (walk_run hn) ?_
  rw [ht]
  exact Prog.ends_seq hnull fun _ _ hfalse => hfalse.elim

theorem PDX_eq {a : Nat} (h : a < 2 ^ 32) : PDX a = a / PGSIZE / NPTENTRIES := by
  simp only [PDX, PGSIZE, NPTENTRIES, NPDENTRIES]
  omega

/-- What `copyout` does: everything is written, or what is before an address that the user
does not have. -/
def CopiedOut (d : Page) (va : Nat) (buf : List UInt8) (m : Memory) (ok : Bool) (m' : Memory) :
    Prop :=
  if ok = true then Wrote d va buf m m'
  else ∃ k < buf.length, Wrote d va (buf.take k) m m' ∧ ¬ m.User d (va + k)

/-- Nothing is written, if the user does not have the first address. -/
theorem CopiedOut.stop {buf : List UInt8} (hbuf : buf ≠ []) (h : ¬ m.User d va) :
    CopiedOut d va buf m false m :=
  ⟨0, List.length_pos_of_ne_nil hbuf, .nil d va m, h⟩

/-- The first page has been written, and then the others. -/
theorem CopiedOut.cons (hs : Space lay m d hand) (hk : m.KernelOnly d) {as buf : List UInt8}
    (h : Wrote d va as m m₁) {ok : Bool} (h' : CopiedOut d (va + as.length) buf m₁ ok m') :
    CopiedOut d va (as ++ buf) m ok m' := by
  cases ok with
  | true => exact h.append hs hk h'
  | false =>
    obtain ⟨k, hk', hw, hu⟩ := h'
    refine ⟨as.length + k, by rw [List.length_append]; omega, ?_, ?_⟩
    · rw [List.take_length_add_append]
      exact h.append hs hk hw
    · rw [← Nat.add_assoc, ← h.user_iff]
      exact hu

theorem Memory.User.table (h : m.User d va) : m.table d (PDX va) ≠ none := by
  obtain ⟨hva, w, hw, -⟩ := h
  rw [PDX_eq hva]
  exact table_of_map (by rw [hw]; nofun)

/-- When the first bytes have been written, it is the tables behind them that matter. -/
theorem Wrote.covered_iff {as : List UInt8} (len : Nat) (hw : Wrote d va as m m₁)
    (hlen : as.length ≤ len) :
    m₁.Covered d (va + as.length) (len - as.length) ↔ m.Covered d va len := by
  constructor
  · intro h i hi hlt hu
    rcases Nat.lt_or_ge i as.length with hi' | hi'
    · exact (hw.user i hi').table
    · have htable := h (i - as.length) (by omega) (by omega) fun j hj => by
        rw [hw.user_iff, Nat.add_assoc]
        exact hu _ (by omega)
      rwa [hw.table, show va + as.length + (i - as.length) = va + i by omega] at htable
  · intro h i hi hlt hu
    rw [Nat.add_assoc] at hlt ⊢
    rw [hw.table]
    refine h (as.length + i) (by omega) hlt fun j hj => ?_
    rcases Nat.lt_or_ge j as.length with hj' | hj'
    · exact hw.user j hj'
    · have hu' := (hw.user_iff _).mp (hu (j - as.length) (by omega))
      rwa [show va + as.length + (j - as.length) = va + j by omega] at hu'

theorem copyLoopOut_nil (d : Page) (fuel va : Nat) :
    copyLoopOut null d fuel va [] = pure true := by
  cases fuel with
  | zero => rfl
  | succ fuel => rw [copyLoopOut, if_pos rfl]

/-- The loop ends well exactly if the tables are there; where they are not, a read through a null
pointer is to stop it. -/
theorem copyLoopOut_ends (null : VmM Nat) : ∀ (fuel : Nat) (va : Nat) (buf : List UInt8) (m : Memory),
    Space lay m d hand → m.KernelOnly d → va < 2 ^ 32 → buf.length ≤ fuel →
    (m.Covered d va buf.length ∨ ∀ m, null.ends (fun _ _ => False) (fun _ => True) m) →
    (copyLoopOut null d fuel va buf).ends
      (fun ok m' => m.Covered d va buf.length ∧ CopiedOut d va buf m ok m')
      (fun _ => ¬ m.Covered d va buf.length) m := by
  intro fuel
  induction fuel with
  | zero =>
    intro va buf m _ _ _ hfuel _
    obtain rfl : buf = [] := List.length_eq_zero_iff.mp (by omega)
    exact ⟨fun i hi => absurd hi (Nat.not_lt_zero i), .nil d va m⟩
  | succ fuel ih =>
    intro va buf m hs hk hva hfuel hor
    rw [copyLoopOut]
    by_cases hnil : buf = []
    · subst hnil
      rw [if_pos rfl]
      exact ⟨fun i hi => absurd hi (Nat.not_lt_zero i), .nil d va m⟩
    · have hpos := List.length_pos_of_ne_nil hnil
      have hn := page_lt hva
      have hround : PGROUNDDOWN va = PGSIZE * (va / PGSIZE) := by
        rw [PGROUNDDOWN, Nat.mod_eq_of_lt hva, Nat.mul_comm]
      have hoff : va - PGSIZE * (va / PGSIZE) = va % PGSIZE := (Nat.mod_eq_sub va PGSIZE).symm
      have hfirst : m.Covered d va buf.length → m.table d (va / PGSIZE / NPTENTRIES) ≠ none := by
        intro hcov
        have htable := hcov 0 hpos hva (fun j hj => absurd hj (Nat.not_lt_zero j))
        rwa [Nat.add_zero, PDX_eq hva] at htable
      rw [if_neg hnil, hround, Prog.ends_bind]
      cases ht : m.table d (va / PGSIZE / NPTENTRIES) with
      | none =>
        have hnot : ¬ m.Covered d va buf.length := fun hcov => hfirst hcov ht
        exact uva2ka_null hn ht (Prog.ends_mono (hor.resolve_left hnot m)
          (fun _ _ hfalse => hfalse) fun _ _ => hnot)
      | some t =>
      refine Prog.ends_of_run (uva2ka_run hn ht) ?_
      -- if the user does not have the first address, the first table is all that matters
      have hstop : ¬ m.User d va → m.Covered d va buf.length := by
        intro hu i _ _ hbefore
        rcases Nat.eq_zero_or_pos i with rfl | hi
        · rw [Nat.add_zero, PDX_eq hva, ht]
          exact Option.some_ne_none t
        · exact absurd (hbefore 0 hi) hu
      cases hmap : m.map d (va / PGSIZE) with
      | none =>
        have hu : ¬ m.User d va := by
          rintro ⟨-, w, hw, -⟩
          rw [hmap] at hw
          cases hw
        exact ⟨hstop hu, .stop hnil hu⟩
      | some w =>
        rw [Option.bind_some]
        by_cases hU : has w PTE_U
        · rw [if_pos hU]
          dsimp only
          rw [Prog.ends_bind, Prog.ends_modify, hoff]
          generalize hc : min (PGSIZE - va % PGSIZE) buf.length = c
          have hmod : va % PGSIZE < PGSIZE := Nat.mod_lt _ (by decide)
          have hlen : (buf.take c).length = c := by
            rw [List.length_take]
            omega
          have hw : Wrote d va (buf.take c) m _ :=
            .chunk hs hk hva hmap hU (by omega)
          have hcov := hw.covered_iff buf.length (by omega)
          rw [hlen, ← List.length_drop] at hcov
          have hlt : va / PGSIZE < USERPAGES := Memory.User.lt ⟨hva, w, hmap, hU⟩ hk
          rcases Nat.lt_or_ge c buf.length with hmore | hall
          · have hnext : (PGSIZE * (va / PGSIZE) + PGSIZE) % 2 ^ 32 = va + c := by
              simp only [PGSIZE, USERPAGES] at *
              omega
            have hva' : va + c < 2 ^ 32 := by
              simp only [PGSIZE, USERPAGES] at *
              omega
            rw [hnext]
            refine Prog.ends_mono (ih (va + c) (buf.drop c) _ (hw.space hs) (hw.kernelOnly hk)
              hva' (by rw [List.length_drop]; omega) (hor.imp_left hcov.mpr)) ?_
              (fun _ he => hcov.not.mp he)
            rintro ok m' ⟨hcov', hres⟩
            refine ⟨hcov.mp hcov', ?_⟩
            have hcons : CopiedOut d va (buf.take c ++ buf.drop c) m ok m' :=
              .cons hs hk hw (by rwa [hlen])
            rwa [List.take_append_drop] at hcons
          · rw [List.drop_eq_nil_of_le hall] at hcov ⊢
            rw [copyLoopOut_nil]
            rw [List.take_of_length_le hall] at hw ⊢
            exact ⟨hcov.mp fun i hi => absurd hi (Nat.not_lt_zero i), hw⟩
        · rw [if_neg hU]
          have hu : ¬ m.User d va := by
            rintro ⟨-, w', hw, hU'⟩
            rw [hmap] at hw
            cases hw
            exact hU hU'
          exact ⟨hstop hu, .stop hnil hu⟩

/-- `copyout` reads through no null pointer: with such a read made a stop, it does not stop.  It
returns 0 exactly if the user has the whole range, and then writes the bytes there, and nothing
else; otherwise a prefix of them. -/
def CopyoutExact (m : Memory) (d : Page) (va : Nat) (buf : List UInt8) : Prop :=
  (∃ r, (copyoutBy (panic "null") d va buf).run m = some (.ok r)) ∧
    ∃ ok m', (copyout d va buf).run m = some (.ok (ok, m')) ∧
      (ok = true ↔ va + buf.length ≤ 2 ^ 32 ∧ ∀ i < buf.length, m.User d (va + i)) ∧
      (ok = true → Wrote d va buf m m') ∧
      (ok = false → ∃ k < buf.length, Wrote d va (buf.take k) m m')

/-- `copyout` is exact exactly if it does not meet a missing table. -/
theorem copyout_exact_iff (h : Space lay m d hand) (hk : m.KernelOnly d) (hva : va < 2 ^ 32)
    (buf : List UInt8) : CopyoutExact m d va buf ↔ m.Covered d va buf.length := by
  have hstops := Prog.ends_iff_run.mp (copyLoopOut_ends (panic "null") buf.length va buf m h
    hk hva (Nat.le_refl _) (.inr fun _ => trivial))
  constructor
  · rintro ⟨⟨r, hr⟩, -⟩
    rcases hstops with ⟨_, _, _, hcov, _⟩ | ⟨e, he, _⟩
    · exact hcov
    · rw [copyoutBy, he] at hr
      cases hr
  intro hcov
  refine ⟨?_, ?_⟩
  · rcases hstops with ⟨ok, m', hrun, _⟩ | ⟨_, _, hnot⟩
    · exact ⟨_, hrun⟩
    · exact absurd hcov hnot
  rcases Prog.ends_iff_run.mp (copyLoopOut_ends readNull buf.length va buf m h hk hva
    (Nat.le_refl _) (.inl hcov)) with ⟨ok, m', hrun, -, hres⟩ | ⟨_, _, hnot⟩
  · refine ⟨ok, m', hrun, ?_⟩
    cases ok with
    | true =>
      have hw : Wrote d va buf m m' := hres
      refine ⟨⟨fun _ => ⟨?_, hw.user⟩, fun _ => rfl⟩, fun _ => hw, nofun⟩
      rcases Nat.eq_zero_or_pos buf.length with hzero | hpos
      · omega
      · have hlast := (hw.user (buf.length - 1) (by omega)).1
        omega
    | false =>
      obtain ⟨k, hlt, hw, hu⟩ := hres
      exact ⟨⟨nofun, fun hall => absurd (hall.2 k hlt) hu⟩, nofun, fun _ => ⟨k, hlt, hw⟩⟩
  · exact absurd hcov hnot

end

/-- Three bytes are written to the only page of a process. -/
theorem copyout_page : Space smallKernel (withPage 0 []) 300 [] ∧ (withPage 0 []).KernelOnly 300 ∧
    (∃ m', (copyout 300 5 [1, 2, 3]).run (withPage 0 []) = some (.ok (true, m')) ∧
      Wrote 300 5 [1, 2, 3] (withPage 0 []) m') ∧ CopyoutExact (withPage 0 []) 300 5 [1, 2, 3] := by
  obtain ⟨h, htable, hmap⟩ := withPage_space (i := 0) (f := []) (by decide) (by decide)
  have hk : (withPage 0 []).KernelOnly 300 := by
    intro n hn hge w hw
    rw [hmap n hn, if_neg] at hw
    · cases hw
    · rintro rfl
      exact absurd hge (by decide)
  have hcov : (withPage 0 []).Covered 300 5 3 := by
    intro i hi _ _
    rw [htable, if_pos]
    · nofun
    · simp only [PDX, PGSIZE, NPTENTRIES, NPDENTRIES]
      omega
  have huser : ∀ i < 3, (withPage 0 []).User 300 (5 + i) := by
    intro i hi
    have hpage : (5 + i) / PGSIZE = 0 := by
      simp only [PGSIZE]
      omega
    exact ⟨by omega, _, by rw [hpage]; exact hmap 0 (by decide), by decide⟩
  have hexact := (copyout_exact_iff h hk (by decide : 5 < 2 ^ 32) [1, 2, 3]).mpr hcov
  obtain ⟨-, ok, m', hrun, hiff, htrue, -⟩ := id hexact
  obtain rfl := hiff.mpr ⟨by decide, huser⟩
  exact ⟨h, hk, ⟨m', hrun, htrue rfl⟩, hexact⟩

/-! ## A missing table -/

/-- The process that runs has an entry for page 5 at address 0; page 303 is an empty
directory. -/
def bait : Memory := (withPage 0 []).setEntry 302 0 (mkPte 5 (PTE_P ||| PTE_U))

theorem bait_space : Space smallKernel bait 303 [] ∧ (∀ n, bait.map 303 n = none) ∧
    ∀ i, bait.table 303 i = none := by
  have hvalid : ∀ p ∈ 303 :: bait.free, Valid smallKernel p := by
    intro p hp
    obtain rfl := List.mem_singleton.mp hp
    exact ⟨by decide, by decide, by decide⟩
  obtain ⟨h, -, hmap, htable⟩ := Space.empty (m := bait) (d := 303) rfl (by decide) hvalid
  exact ⟨h, hmap, htable⟩

/-- `copyout` takes the word at address 0 for an entry, and writes to page 5. -/
theorem copyout_stray : Space smallKernel bait 303 [] ∧ bait.KernelOnly 303 ∧
    ¬ bait.User 303 0 ∧ (∀ i, bait.table 303 i = none) ∧
    ∃ m', (copyout 303 0 [1]).run bait = some (.ok (true, m')) ∧ bait.ram 5 0 = 0 ∧
      m'.ram 5 0 = 1 := by
  obtain ⟨h, hmap, htable⟩ := bait_space
  refine ⟨h, ?_, ?_, htable, _, rfl, by decide +kernel, by decide +kernel⟩
  · intro n _ _ w hw
    rw [hmap] at hw
    cases hw
  · rintro ⟨-, w, hw, -⟩
    rw [hmap] at hw
    cases hw

end Xv6Pdx.Vm
