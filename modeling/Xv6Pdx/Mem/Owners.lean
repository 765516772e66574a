/-
# `Mem.Owners` — who owns a page

A page belongs to a kernel stack, to a variable that holds a page directory, to
an entry of a directory, to an entry of a table in the user half, to a live
pipe, or to a process that has just got it from `kalloc`.  What a process has in
its local variables is its ghost, `Held`.

`own` reads all this off the state and the ghosts, and the invariant is that it
is a ledger with `kmem.freelist`.  The lemmas of this module say how `own`
changes with one entry, one field or one ghost.
-/
import Xv6Pdx.Lib.Ledger
import Xv6Pdx.Mem.Model

namespace Xv6Pdx.Mem

open Lib
open Ptable (ProcPtr)
open Function (update update_self update_of_ne)

/-- What a process has in its local variables.  `self` is its own `pgdir` until `exit`, `child`
the slot it is filling in `fork`, with the `pgdir` of that, and `raw` the page from which on
`main` has not freed any. -/
structure Held where
  mem : Option Page
  dir : Option (Page × Nat)
  self : Option Page
  child : Option (ProcPtr × Option Page)
  raw : Option Page

namespace Held

@[simps] def setMem (h : Held) (m : Option Page) : Held := { h with mem := m }

@[simps] def setDir (h : Held) (d : Option (Page × Nat)) : Held := { h with dir := d }

@[simps] def setSelf (h : Held) (d : Option Page) : Held := { h with self := d }

@[simps] def setChild (h : Held) (c : Option (ProcPtr × Option Page)) : Held :=
  { h with child := c }

@[simps] def setRaw (h : Held) (p : Option Page) : Held := { h with raw := p }

def call (d : Option Page) : Held := ⟨none, none, d, none, none⟩

def boot : Held := ⟨none, none, none, none, some 0⟩

end Held

abbrev Ghosts := ProcPtr → Option Held

/-- A variable that holds a page directory. -/
inductive Dir where
  | proc (p : ProcPtr)
  | work (p : ProcPtr)
  | kernel
deriving DecidableEq

inductive Owner where
  | kstack (p : ProcPtr)
  | cpu (k : Nat)
  | mem (p : ProcPtr)
  | pgdir (D : Dir)
  | table (D : Dir) (i : Fin NPDENTRIES)
  | user (D : Dir) (i : Fin NPDENTRIES) (j : Fin NPTENTRIES)
  | pipe (p : Page)
  | raw (p : ProcPtr) (q : Page)
deriving DecidableEq

/-- The slot of a process that runs, or that has run and is not yet reaped. -/
def Proc.dir (q : Proc) : Option (Page × Nat) :=
  match q.state with
  | .live | .zombie => q.pgdir.map (·, 0)
  | .unused | .embryo => none

/-- The directory in a variable, and how many of its tables are freed. -/
def dirOf (s : State) (g : Ghosts) : Dir → Option (Page × Nat)
  | .proc p => (s.proc p).dir
  | .work p => (g p).bind Held.dir
  | .kernel => s.kpgdir.map (·, 0)

def tableOf (s : State) (g : Ghosts) (D : Dir) (i : Fin NPDENTRIES) : Option Page :=
  match dirOf s g D with
  | none => none
  | some (d, n) => if i.val < n then none else s.pde d i

/-- The first directory entry of the kernel half. -/
def userEntries : Nat := KERNBASE / (PGSIZE * NPTENTRIES)

def own (s : State) (g : Ghosts) : Owner → Option Page
  | .kstack p => (s.proc p).kstack
  | .cpu k => s.cpuStack k
  | .mem p => (g p).bind Held.mem
  | .pgdir D => (dirOf s g D).map Prod.fst
  | .table D i => tableOf s g D i
  | .user D i j => if i.val < userEntries then (tableOf s g D i).bind (s.pte · j) else none
  | .pipe p => if (s.pipe p).isSome then some p else none
  | .raw p q => ((g p).bind Held.raw).bind fun n => if n ≤ q then some q else none

/-- The invariant: the ledger, and what a process knows about its own slot and
about the one it is filling. -/
structure Inv (s : State) (g : Ghosts) : Prop where
  ledger : Ledger (own s g) s.freelist
  self : ∀ q h d, g q = some h → h.self = some d →
    (s.proc q).state = .live ∧ (s.proc q).pgdir = some d
  child : ∀ q h np x, g q = some h → h.child = some (np, x) →
    (s.proc np).state = .embryo ∧ (s.proc np).pgdir = x
  lone : ∀ q q' h h' np x x', g q = some h → g q' = some h' → h.child = some (np, x) →
    h'.child = some (np, x') → q = q'
  sizes : ∀ p, (s.proc p).sz < KERNBASE
  live : ∀ p, (s.proc p).state = .live → (s.proc p).pgdir ≠ none

section Own

variable {s s' : State} {g g' : Ghosts} {me : ProcPtr} {h h' : Held} {D : Dir}

@[simp] theorem setFree_setProc (l : List Page) (p : ProcPtr) (q : Proc) :
    (s.setFree l).setProc p q = (s.setProc p q).setFree l := rfl

@[simp] theorem own_setFree (l : List Page) : own (s.setFree l) g = own s g := by
  funext o
  cases o <;> rfl

theorem table_unique (hl : Ledger (own s g) s.freelist) {D' : Dir} {i i' : Fin NPDENTRIES}
    {t : Page} (h : tableOf s g D i = some t) (h' : tableOf s g D' i' = some t) :
    D = D' ∧ i = i' := by
  have heq := hl.single (.table D i) (.table D' i') t h h'
  cases heq
  exact ⟨rfl, rfl⟩

theorem dir_unique (hl : Ledger (own s g) s.freelist) {D' : Dir} {d n n' : Nat}
    (h : dirOf s g D = some (d, n)) (h' : dirOf s g D' = some (d, n')) : D = D' := by
  have heq := hl.single (.pgdir D) (.pgdir D') d (by simp [own, h]) (by simp [own, h'])
  cases heq
  rfl

theorem own_setPte (hl : Ledger (own s g) s.freelist) {i : Fin NPDENTRIES} {j : Fin NPTENTRIES}
    {t : Page} (ht : tableOf s g D i = some t) (x : Option Page) (o : Owner) :
    own (s.setPte t j x) g o =
      if o = .user D i j then (if i.val < userEntries then x else none) else own s g o := by
  cases o with
  | user D' i' j' =>
    have htab : tableOf (s.setPte t j x) g D' i' = tableOf s g D' i' := rfl
    simp only [own, htab]
    cases ht' : tableOf s g D' i' with
    | none =>
      have hne : ¬ (Owner.user D' i' j' = .user D i j) := by
        intro he
        cases he
        rw [ht] at ht'
        cases ht'
      rw [if_neg hne]
      rfl
    | some t' =>
      simp only [Option.bind_some, State.setPte_pte]
      by_cases hne : t' = t
      · subst hne
        obtain ⟨rfl, rfl⟩ := table_unique hl ht ht'
        rw [update_self]
        by_cases hj : j' = j
        · subst hj
          rw [if_pos rfl, update_self]
        · have hne' : ¬ (Owner.user D i j' = .user D i j) := by
            intro he
            cases he
            exact hj rfl
          rw [update_of_ne hj, if_neg hne']
      · have hne' : ¬ (Owner.user D' i' j' = .user D i j) := by
          intro he
          cases he
          rw [ht] at ht'
          cases ht'
          exact hne rfl
        rw [update_of_ne hne, if_neg hne']
  | _ => rfl

theorem own_setPde (hl : Ledger (own s g) s.freelist) {i : Fin NPDENTRIES} {d t : Page}
    (hD : dirOf s g D = some (d, 0)) (hnone : s.pde d i = none) (hfresh : ∀ o, own s g o ≠ some t)
    (o : Owner) :
    own ((s.clearTable t).setPde d i (some t)) g o = if o = .table D i then some t else own s g o := by
  have hdir : ∀ D', dirOf ((s.clearTable t).setPde d i (some t)) g D' = dirOf s g D' := by
    intro D'
    cases D' <;> rfl
  have htable : ∀ D' i', tableOf ((s.clearTable t).setPde d i (some t)) g D' i' =
      if D' = D ∧ i' = i then some t else tableOf s g D' i' := by
    intro D' i'
    simp only [tableOf, hdir]
    cases hD' : dirOf s g D' with
    | none =>
      rw [if_neg]
      rintro ⟨rfl, -⟩
      rw [hD] at hD'
      cases hD'
    | some dn =>
      obtain ⟨d', n⟩ := dn
      by_cases hd : d' = d
      · subst hd
        obtain rfl := dir_unique hl hD hD'
        rw [hD] at hD'
        cases hD'
        simp only [Nat.not_lt_zero, if_false, State.setPde_pde, update_self, true_and]
        by_cases hi : i' = i
        · subst hi
          rw [update_self, if_pos rfl]
        · rw [update_of_ne hi, if_neg hi]
          rfl
      · have hne : ¬ (D' = D ∧ i' = i) := by
          rintro ⟨rfl, -⟩
          rw [hD] at hD'
          cases hD'
          exact hd rfl
        simp only [State.setPde_pde, update_of_ne hd, if_neg hne]
        rfl
  cases o with
  | pgdir D' => simp [own, hdir]
  | table D' i' => simp [own, htable]
  | user D' i' j =>
    simp only [own, htable, reduceCtorEq, if_false]
    by_cases he : D' = D ∧ i' = i
    · obtain ⟨rfl, rfl⟩ := he
      have hold : tableOf s g D' i' = none := by simp [tableOf, hD, hnone]
      simp [hold]
    · rw [if_neg he]
      cases ht : tableOf s g D' i' with
      | none => rfl
      | some t' =>
        have hne : t' ≠ t := by
          rintro rfl
          exact hfresh (.table D' i') ht
        simp only [Option.bind_some, State.setPde_pte, State.clearTable_pte, update_of_ne hne]
  | _ => simp [own]

/-! ## Ghosts -/

/-- The ghost of a process is the one it has just got, or the old one. -/
theorem ghost_cases {x : Option Held} {q : ProcPtr} {k : Held} (hk : update g me x q = some k) :
    (q = me ∧ x = some k) ∨ (q ≠ me ∧ g q = some k) := by
  by_cases hq : q = me
  · subst hq
    rw [update_self] at hk
    exact Or.inl ⟨rfl, hk⟩
  · rw [update_of_ne hq] at hk
    exact Or.inr ⟨hq, hk⟩

theorem dirOf_ghost (D : Dir) : dirOf s (update g me (some h')) D =
    if D = .work me then h'.dir else dirOf s g D := by
  cases D with
  | work p =>
    by_cases hp : p = me
    · subst hp
      simp [dirOf]
    · simp [dirOf, hp]
  | _ => rfl

theorem raw_ghost (hg : g me = some h) (hraw : h'.raw = h.raw) (p : ProcPtr) :
    (update g me (some h') p).bind Held.raw = (g p).bind Held.raw := by
  by_cases hp : p = me
  · subst hp
    simp [hg, hraw]
  · rw [update_of_ne hp]

/-- A process puts another page into its variable, and keeps its directory. -/
theorem own_setMem (hg : g me = some h) (m : Option Page) (o : Owner) :
    own s (update g me (some (h.setMem m))) o =
      if o = .mem me then m else own s g o := by
  have hdirs : ∀ D, dirOf s (update g me (some (h.setMem m))) D = dirOf s g D := by
    intro D
    rw [dirOf_ghost]
    split
    · next hD => rw [hD, Held.setMem_dir, dirOf, hg, Option.bind_some]
    · rfl
  have htable : ∀ D i, tableOf s (update g me (some (h.setMem m))) D i = tableOf s g D i := by
    intro D i
    simp only [tableOf, hdirs]
  cases o with
  | mem p =>
    by_cases hp : p = me
    · subst hp
      simp [own]
    · simp [own, hp]
  | raw p q => simp [own, raw_ghost hg]
  | _ => simp [own, hdirs, htable]

/-- Nothing in `x` is not also in `y`. -/
structure Held.Within (x y : Option Held) : Prop where
  mem : ∀ m, x.bind Held.mem = some m → y.bind Held.mem = some m
  dir : ∀ d n, x.bind Held.dir = some (d, n) → ∃ n' ≤ n, y.bind Held.dir = some (d, n')
  raw : ∀ n, x.bind Held.raw = some n → ∃ n' ≤ n, y.bind Held.raw = some n'

theorem Held.Within.refl (x : Option Held) : Held.Within x x :=
  ⟨fun _ hm => hm, fun _ n hd => ⟨n, Nat.le_refl n, hd⟩, fun n hr => ⟨n, Nat.le_refl n, hr⟩⟩

theorem Held.Within.of_eq (hmem : h'.mem = h.mem) (hdir : h'.dir = h.dir) (hraw : h'.raw = h.raw) :
    Held.Within (some h') (some h) := by
  refine ⟨?_, fun _ n hd => ⟨n, Nat.le_refl n, ?_⟩, fun n hr => ⟨n, Nat.le_refl n, ?_⟩⟩
  · exact fun _ hm => hmem.symm.trans hm
  · exact hdir.symm.trans hd
  · exact hraw.symm.trans hr

/-- Who has nothing new in any variable owns nothing new. -/
theorem own_mono (hle : ∀ p, Held.Within (g' p) (g p)) (o : Owner) (p : Page)
    (ho : own s g' o = some p) : own s g o = some p := by
  have hdirs : ∀ D d n, dirOf s g' D = some (d, n) → ∃ n' ≤ n, dirOf s g D = some (d, n') := by
    intro D d n hD
    cases D with
    | work q => exact (hle q).dir d n hD
    | _ => exact ⟨n, Nat.le_refl n, hD⟩
  have htable : ∀ D i t, tableOf s g' D i = some t → tableOf s g D i = some t := by
    intro D i t ht
    rw [tableOf] at ht
    split at ht
    · cases ht
    · next d n hD =>
        obtain ⟨n', hn, hD'⟩ := hdirs D d n hD
        split at ht
        · cases ht
        · next hi =>
            have hi' : ¬ i.val < n' := fun hlt => hi (Nat.lt_of_lt_of_le hlt hn)
            simpa only [tableOf, hD', if_neg hi'] using ht
  cases o with
  | mem q => exact (hle q).mem p ho
  | raw q x =>
    obtain ⟨n, hn, hx⟩ := Option.bind_eq_some_iff.mp ho
    obtain ⟨n', hle', hn'⟩ := (hle q).raw n hn
    split at hx
    · next hnx =>
        simp only [own, hn', Option.bind_some, if_pos (Nat.le_trans hle' hnx)]
        exact hx
    · cases hx
  | pgdir D =>
    obtain ⟨⟨d, n⟩, hy, rfl⟩ := Option.map_eq_some_iff.mp ho
    obtain ⟨n', -, hD⟩ := hdirs D d n hy
    simp [own, hD]
  | table D i => exact htable D i p ho
  | user D i j =>
    simp only [own] at ho ⊢
    split at ho
    · next hi =>
        obtain ⟨t, ht, hp⟩ := Option.bind_eq_some_iff.mp ho
        rw [if_pos hi, htable D i t ht]
        exact hp
    · cases ho
  | _ => exact ho

theorem within_update {x : Option Held} (hx : Held.Within x (g me)) (p : ProcPtr) :
    Held.Within (update g me x p) (g p) := by
  by_cases hp : p = me
  · subst hp
    rwa [update_self]
  · rw [update_of_ne hp]
    exact .refl _

/-- The owner with another directory variable. -/
def Owner.via (f : Dir → Dir) : Owner → Owner
  | .pgdir D => .pgdir (f D)
  | .table D i => .table (f D) i
  | .user D i j => .user (f D) i j
  | o => o

/-- Directories go from variable to variable: what is in `D` now was in `f D`. -/
theorem ledger_via {free : List Page} (hl : Ledger (own s g) free) (f : Dir → Dir)
    (hdir : ∀ D x, dirOf s' g' D = some x → dirOf s g (f D) = some x)
    (hinj : ∀ D D' x x', dirOf s' g' D = some x → dirOf s' g' D' = some x' → f D = f D' → D = D')
    (hkstack : ∀ p x, (s'.proc p).kstack = some x → (s.proc p).kstack = some x)
    (hcpu : s'.cpuStack = s.cpuStack)
    (hmem : ∀ p x, (g' p).bind Held.mem = some x → (g p).bind Held.mem = some x)
    (hraw : ∀ p x, (g' p).bind Held.raw = some x → (g p).bind Held.raw = some x)
    (hpipe : s'.pipe = s.pipe) (hpde : s'.pde = s.pde) (hpte : s'.pte = s.pte) :
    Ledger (own s' g') free := by
  have htable : ∀ D i t, tableOf s' g' D i = some t → tableOf s g (f D) i = some t := by
    intro D i t ht
    cases hD : dirOf s' g' D with
    | none => simp [tableOf, hD] at ht
    | some x =>
      rw [tableOf, hD] at ht
      rw [tableOf, hdir D x hD, ← hpde]
      exact ht
  have hsome : ∀ D i t, tableOf s' g' D i = some t → ∃ x, dirOf s' g' D = some x := by
    intro D i t ht
    cases hD : dirOf s' g' D with
    | none => simp [tableOf, hD] at ht
    | some x => exact ⟨x, rfl⟩
  have huser : ∀ D i j p, own s' g' (.user D i j) = some p →
      (∃ t, tableOf s' g' D i = some t) ∧ own s g (.user (f D) i j) = some p := by
    intro D i j p hp
    simp only [own] at hp ⊢
    split at hp
    · next hi =>
        cases ht : tableOf s' g' D i with
        | none => simp [ht] at hp
        | some t =>
          rw [ht, Option.bind_some, hpte] at hp
          rw [if_pos hi, htable D i t ht]
          exact ⟨⟨t, rfl⟩, hp⟩
    · cases hp
  have hpg : ∀ D p, own s' g' (.pgdir D) = some p →
      (∃ x, dirOf s' g' D = some x) ∧ own s g (.pgdir (f D)) = some p := by
    intro D p hp
    simp only [own] at hp ⊢
    cases hD : dirOf s' g' D with
    | none => simp [hD] at hp
    | some x => exact ⟨⟨x, rfl⟩, by rw [hdir D x hD]; rwa [hD] at hp⟩
  refine hl.hand (Owner.via f) ?_ ?_
  · intro o p ho
    cases o with
    | kstack q => exact hkstack q p ho
    | cpu k => simpa only [own, Owner.via, hcpu] using ho
    | mem q => exact hmem q p ho
    | pgdir D => exact (hpg D p ho).2
    | table D i => exact htable D i p ho
    | user D i j => exact (huser D i j p ho).2
    | pipe q => simpa only [own, Owner.via, hpipe] using ho
    | raw q q' =>
      obtain ⟨n, hn, hq⟩ := Option.bind_eq_some_iff.mp ho
      exact Option.bind_eq_some_iff.mpr ⟨n, hraw q n hn, hq⟩
  · intro o o' p ho ho' he
    cases o <;> cases o' <;> simp only [Owner.via, reduceCtorEq] at he <;> try exact he
    case pgdir.pgdir D D' =>
      obtain ⟨⟨x, hx⟩, -⟩ := hpg D p ho
      obtain ⟨⟨x', hx'⟩, -⟩ := hpg D' p ho'
      rw [hinj D D' x x' hx hx' (Owner.pgdir.inj he)]
    case table.table D i D' i' =>
      obtain ⟨x, hx⟩ := hsome D i p ho
      obtain ⟨x', hx'⟩ := hsome D' i' p ho'
      obtain ⟨hf, rfl⟩ := Owner.table.inj he
      rw [hinj D D' x x' hx hx' hf]
    case user.user D i j D' i' j' =>
      obtain ⟨⟨t, ht⟩, -⟩ := huser D i j p ho
      obtain ⟨⟨t', ht'⟩, -⟩ := huser D' i' j' p ho'
      obtain ⟨x, hx⟩ := hsome D i t ht
      obtain ⟨x', hx'⟩ := hsome D' i' t' ht'
      obtain ⟨hf, rfl, rfl⟩ := Owner.user.inj he
      rw [hinj D D' x x' hx hx' hf]

/-- Two variables exchange their directories, or one takes that of the other. -/
theorem ledger_swap {free : List Page} (hl : Ledger (own s g) free) (D D' : Dir)
    (hD : ∀ x, dirOf s' g' D = some x → dirOf s g D' = some x)
    (hD' : ∀ x, dirOf s' g' D' = some x → dirOf s g D = some x)
    (hrest : ∀ E, E ≠ D → E ≠ D' → dirOf s' g' E = dirOf s g E)
    (hkstack : ∀ p x, (s'.proc p).kstack = some x → (s.proc p).kstack = some x)
    (hcpu : s'.cpuStack = s.cpuStack)
    (hmem : ∀ p x, (g' p).bind Held.mem = some x → (g p).bind Held.mem = some x)
    (hraw : ∀ p x, (g' p).bind Held.raw = some x → (g p).bind Held.raw = some x)
    (hpipe : s'.pipe = s.pipe) (hpde : s'.pde = s.pde) (hpte : s'.pte = s.pte) :
    Ledger (own s' g') free := by
  refine ledger_via hl (Equiv.swap D D') ?_ ?_ hkstack hcpu hmem hraw hpipe hpde hpte
  · intro E x hE
    rw [Equiv.swap_apply_def]
    split
    · next he => exact hD x (he ▸ hE)
    · split
      · next he => exact hD' x (he ▸ hE)
      · next h₁ h₂ => rwa [← hrest E h₁ h₂]
  · intro E E' _ _ _ _ he
    exact (Equiv.swap D D').injective he

end Own

end Xv6Pdx.Mem
