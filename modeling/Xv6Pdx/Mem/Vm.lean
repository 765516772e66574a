/-
# `Mem.Vm` — the functions of `vm.c` keep the ledger

Each function is safe in any interleaving: from a process that holds what the
function works on, every action keeps the invariant, and afterwards the process
holds what the function returns.  A page that a failing function does not free
stays with the process until it forgets it, and then belongs to nobody.
-/
import Xv6Pdx.Mem.Owners

namespace Xv6Pdx.Mem

open Lib
open Lib.Prog (atomic modify gets safe_atomic safe_gets safe_fail safe_bind safe_seq safe_mono
  safe_forM)
open Ptable (ProcPtr)
open Function (update update_of_ne update_eq_self)

/-- A `panic` is allowed, and so is every state. -/
def protocol : Protocol State String ProcPtr Held where
  inv := Inv
  ok := fun _ => True
  error := fun _ => True

section

variable {lay : Layout} {s s' : State} {g : Ghosts} {me : ProcPtr} {h h' : Held}
  {α β : Type} {Q R : α → Held → Prop}

/-- From `h` on, the program keeps to the protocol and returns such that `Q`. -/
abbrev Does (me : ProcPtr) (p : KvmM α) (Q : α → Held → Prop) (h : Held) : Prop :=
  p.Safe protocol me Q h

theorem does_act {f : State → Option (Except String (α × State))}
    (hf : ∀ s g, g me = some h → Inv s g → ∀ a s', f s = some (.ok (a, s')) →
      ∃ h', Inv s' (update g me (some h')) ∧ Q a h') : Does me (atomic f) Q h :=
  safe_atomic fun s g hg hinv => ⟨fun _ _ => trivial, fun a s' he _ => hf s g hg hinv a s' he⟩

theorem does_modify {Q : Unit → Held → Prop} {f : State → State}
    (hf : ∀ s g, g me = some h → Inv s g →
      ∃ h', Inv (f s) (update g me (some h')) ∧ Q () h') : Does me (modify f) Q h := by
  refine does_act fun s g hg hinv a s' he => ?_
  cases he
  exact hf s g hg hinv

theorem does_gets {f : State → α} (hf : ∀ s g, g me = some h → Inv s g → Q (f s) h) :
    Does me (gets f) Q h :=
  safe_gets hf

theorem does_panic {msg : String} : Does me (panic msg : KvmM α) Q h := safe_fail trivial

/-- A step that changes pages and what `me` has of them. -/
theorem Inv.step (hinv : Inv s g) (hg : g me = some h) (hproc : s'.proc = s.proc)
    (hself : h'.self = h.self) (hchild : h'.child = h.child)
    (hl : Ledger (own s' (update g me (some h'))) s'.freelist) :
    Inv s' (update g me (some h')) := by
  have hback : ∀ q k, update g me (some h') q = some k →
      ∃ k', g q = some k' ∧ k'.self = k.self ∧ k'.child = k.child := by
    intro q k hq
    rcases ghost_cases hq with ⟨rfl, ⟨⟩⟩ | ⟨-, hq⟩
    · exact ⟨h, hg, hself.symm, hchild.symm⟩
    · exact ⟨k, hq, rfl, rfl⟩
  refine ⟨hl, ?_, ?_, ?_, hproc ▸ hinv.sizes, hproc ▸ hinv.live⟩
  · intro q k d hq hk
    obtain ⟨k', hq', hs, -⟩ := hback q k hq
    rw [hproc]
    exact hinv.self q k' d hq' (hs.trans hk)
  · intro q k np x hq hk
    obtain ⟨k', hq', -, hc⟩ := hback q k hq
    rw [hproc]
    exact hinv.child q k' np x hq' (hc.trans hk)
  · intro q q' k k' np x x' hq hq' hk hk'
    obtain ⟨l, hl, -, hc⟩ := hback q k hq
    obtain ⟨l', hl', -, hc'⟩ := hback q' k' hq'
    exact hinv.lone q q' l l' np x x' hl hl' (hc.trans hk) (hc'.trans hk')

theorem Inv.quiet (hinv : Inv s g) (hg : g me = some h) (hproc : s'.proc = s.proc)
    (hl : Ledger (own s' g) s'.freelist) : Inv s' (update g me (some h)) := by
  refine hinv.step hg hproc rfl rfl ?_
  rwa [← hg, update_eq_self]

/-! ## `kalloc` and `kfree` -/

theorem kalloc_does {Q : Option Page → Held → Prop} (hnone : Q none h)
    (hsome : ∀ p, Q (some p) (h.setMem (some p))) : Does me kalloc Q h := by
  refine does_act fun s g hg hinv a s' he => ?_
  cases hfree : s.freelist with
  | nil =>
    rw [hfree] at he
    cases he
    exact ⟨h, hinv.quiet hg rfl hinv.ledger, hnone⟩
  | cons p l =>
    rw [hfree] at he
    cases he
    refine ⟨h.setMem (some p), hinv.step hg rfl rfl rfl ?_, hsome p⟩
    have hl := hinv.ledger
    rw [hfree] at hl
    refine hl.take (.mem me) fun o q ho => ?_
    rw [own_setMem hg, own_setFree] at ho
    split at ho
    · next hme => exact Or.inr ⟨hme, (Option.some.inj ho).symm⟩
    · exact Or.inl ho

theorem kfree_ok {p : Page} (hk : s.kfree lay p = .ok s') : s' = s.setFree (p :: s.freelist) := by
  rw [State.kfree] at hk
  split at hk
  · cases hk
  · cases hk
    rfl

/-! ## Mapping -/

/-- The directory is the process's own, or the one it is working on. -/
def Held.has (h : Held) (d : Page) : Prop := h.self = some d ∨ h.dir = some (d, 0)

theorem Inv.dir_of_has (hinv : Inv s g) (hg : g me = some h) {d : Page} (hd : h.has d) :
    ∃ D, dirOf s g D = some (d, 0) := by
  rcases hd with hd | hd
  · obtain ⟨hst, hpg⟩ := hinv.self me h d hg hd
    exact ⟨.proc me, by simp [dirOf, Proc.dir, hst, hpg]⟩
  · exact ⟨.work me, by simp [dirOf, hg, hd]⟩

/-- `walkpgdir` finds or makes the table of a directory's entry. -/
theorem walk_ledger (hl : Ledger (own s g) s.freelist) {D : Dir} {d va t : Nat} {alloc : Bool}
    (hD : dirOf s g D = some (d, 0)) (hw : s.walk d va alloc = some (t, s')) :
    Ledger (own s' g) s'.freelist ∧ s'.proc = s.proc ∧ dirOf s' g D = some (d, 0) ∧
      tableOf s' g D (PDX va) = some t ∧ (alloc = false → s' = s) := by
  rw [State.walk] at hw
  split at hw
  · next t' hpde =>
      cases hw
      exact ⟨hl, rfl, hD, by simp [tableOf, hD, hpde], fun _ => rfl⟩
  · next hpde =>
      split at hw
      · next halloc =>
          split at hw
          · cases hw
          · next t' l hfree =>
              cases hw
              rw [hfree] at hl
              have hfresh : ∀ o, own s g o ≠ some t := by
                intro o ho
                exact hl.apart o t ho (List.mem_cons_self ..)
              have hl' : Ledger (own (s.setFree l) g) (s.setFree l).freelist :=
                hl.take (.cpu 0) fun o q ho => Or.inl (by rwa [own_setFree] at ho)
              have howns : ∀ o, own (((s.setFree l).clearTable t).setPde d (PDX va) (some t)) g o =
                  if o = .table D (PDX va) then some t else own s g o := by
                intro o
                rw [own_setPde hl' hD hpde (by simpa using hfresh), own_setFree]
              refine ⟨?_, rfl, ?_, ?_, fun hfalse => ?_⟩
              · refine hl.take (.table D (PDX va)) fun o q ho => ?_
                rw [howns] at ho
                split at ho
                · next he => exact Or.inr ⟨he, (Option.some.inj ho).symm⟩
                · exact Or.inl ho
              · cases D <;> exact hD
              · have := howns (.table D (PDX va))
                rwa [if_pos rfl] at this
              · rw [hfalse] at halloc
                cases halloc
      · cases hw

/-- A page from the process's variable is mapped in the user half. -/
theorem mapTurn_user {Q : Bool → Held → Prop} {d va pa : Nat} (hd : h.has d)
    (hva : (PDX va).val < userEntries) (hmem : h.mem = some pa) (hfalse : Q false h)
    (htrue : Q true (h.setMem none)) : Does me (mapTurn d va pa) Q h := by
  refine does_act fun s g hg hinv a s' he => ?_
  obtain ⟨D, hD⟩ := hinv.dir_of_has hg hd
  split at he
  · cases he
    exact ⟨h, hinv.quiet hg rfl hinv.ledger, hfalse⟩
  · next t s₁ hw =>
      obtain ⟨hl, hproc, -, ht, -⟩ := walk_ledger hinv.ledger hD hw
      split at he
      · cases he
      · cases he
        refine ⟨h.setMem none, hinv.step hg hproc rfl rfl ?_, htrue⟩
        have howns : ∀ o, own (s₁.setPte t (PTX va) (some pa))
            (update g me (some (h.setMem none))) o =
            if o = .mem me then none
            else if o = .user D (PDX va) (PTX va) then some pa else own s₁ g o := by
          intro o
          rw [own_setMem hg, own_setPte hl ht, if_pos hva]
        have hmine : own s₁ g (.mem me) = some pa := by simp [own, hg, hmem]
        refine hl.hand (fun o => if o = .user D (PDX va) (PTX va) then .mem me else o) ?_ ?_
        · intro o q ho
          rw [howns] at ho
          split at ho
          · cases ho
          · split at ho
            · next he => rw [if_pos he, hmine, ho]
            · next he => rwa [if_neg he]
        · intro o o' q ho ho' he
          rw [howns] at ho ho'
          split at he <;> split at he
          · next h₁ h₂ => rw [h₁, h₂]
          · rw [if_pos he.symm] at ho'
            cases ho'
          · rw [if_pos he] at ho
            cases ho
          · exact he

/-- A page is mapped in the kernel half, where entries own nothing. -/
theorem mapTurn_kernel {Q : Bool → Held → Prop} {d va pa : Nat} (hd : h.has d)
    (hva : ¬ (PDX va).val < userEntries) (hQ : ∀ ok, Q ok h) : Does me (mapTurn d va pa) Q h := by
  refine does_act fun s g hg hinv a s' he => ?_
  obtain ⟨D, hD⟩ := hinv.dir_of_has hg hd
  split at he
  · cases he
    exact ⟨h, hinv.quiet hg rfl hinv.ledger, hQ _⟩
  · next t s₁ hw =>
      obtain ⟨hl, hproc, -, ht, -⟩ := walk_ledger hinv.ledger hD hw
      split at he
      · cases he
      · cases he
        refine ⟨h, hinv.quiet hg hproc ?_, hQ _⟩
        refine hl.forget fun o q ho => ?_
        rw [own_setPte hl ht, if_neg hva] at ho
        split at ho
        · cases ho
        · exact ho

/-! ## `mappages` and `setupkvm` -/

theorem PDX_val {va : Nat} (hva : va < 2 ^ 32) : (PDX va).val = va / (PGSIZE * NPTENTRIES) := by
  simp only [PDX, Fin.val_ofNat, PGSIZE, NPTENTRIES]
  omega

theorem PDX_user {va : Nat} (hva : va < KERNBASE) : (PDX va).val < userEntries := by
  simp only [KERNBASE] at hva
  rw [PDX_val (by omega)]
  simp only [PGSIZE, NPTENTRIES, userEntries, KERNBASE]
  omega

theorem PDX_kernel {va : Nat} (hva : KERNBASE ≤ va) (hlt : va < 2 ^ 32) :
    ¬ (PDX va).val < userEntries := by
  rw [PDX_val hlt]
  simp only [KERNBASE] at hva
  simp only [PGSIZE, NPTENTRIES, userEntries, KERNBASE]
  omega

/-- One page at an aligned address is one turn of the loop. -/
theorem mappages_one {d va pa : Nat} (hva : va < KERNBASE) (halign : va % PGSIZE = 0) :
    mappages d va PGSIZE pa = mapTurn d va pa >>= fun ok => if ok then pure true else pure false := by
  have hdown : PGROUNDDOWN va = va := by
    simp only [PGROUNDDOWN, PGSIZE, KERNBASE] at *
    omega
  have hlast : PGROUNDDOWN (va + PGSIZE - 1) = va := by
    simp only [PGSIZE, KERNBASE] at hva halign
    rw [PGROUNDDOWN, Nat.mod_eq_of_lt (by simp only [PGSIZE]; omega)]
    simp only [PGSIZE]
    omega
  rw [mappages, hdown, hlast, Nat.sub_self, Nat.zero_div]
  rfl

theorem mappages_user {Q : Bool → Held → Prop} {d va pa : Nat} (hd : h.has d)
    (hva : va < KERNBASE) (halign : va % PGSIZE = 0) (hmem : h.mem = some pa) (hfalse : Q false h)
    (htrue : Q true (h.setMem none)) : Does me (mappages d va PGSIZE pa) Q h := by
  rw [mappages_one hva halign]
  exact safe_bind.mpr (mapTurn_user hd (PDX_user hva) hmem hfalse htrue)

theorem mapLoop_kernel {d : Nat} (hd : h.has d) : ∀ {n va pa : Nat}, KERNBASE ≤ va →
    va + (n - 1) * PGSIZE < 2 ^ 32 → Does me (mapLoop d n va pa) (fun _ h' => h' = h) h := by
  intro n
  induction n with
  | zero => exact fun _ _ => rfl
  | succ n ih =>
    intro va pa hva hlt
    refine safe_seq (mapTurn_kernel hd (PDX_kernel hva ?_) (Q := fun _ h' => h' = h)
      fun _ => rfl) ?_
    · simp only [PGSIZE] at hlt
      omega
    rintro ok _ rfl
    split
    · cases n with
      | zero => rfl
      | succ n =>
        have hmod : (va + PGSIZE) % 2 ^ 32 = va + PGSIZE := by
          simp only [PGSIZE] at hlt ⊢
          omega
        rw [hmod]
        refine ih ?_ ?_
        · omega
        · simp only [PGSIZE] at hlt ⊢
          omega
    · rfl

theorem kmap_high {k : Nat × Nat × Nat} (hk : k ∈ kmap lay) :
    KERNBASE ≤ k.1 ∧ 0 < k.2.2 ∧ k.1 + k.2.2 ≤ 2 ^ 32 := by
  have hlow := lay.low
  have hhigh := lay.high
  simp only [kmap, List.mem_cons, List.not_mem_nil, or_false] at hk
  simp only [KERNLINK, KERNBASE, EXTMEM, PHYSTOP] at hlow hhigh
  rcases hk with rfl | rfl | rfl | rfl <;>
    simp only [KERNLINK, KERNBASE, EXTMEM, PHYSTOP, DEVSPACE] <;> omega

theorem mappages_kernel {d virt size pa : Nat} (hd : h.has d) (hlow : KERNBASE ≤ virt)
    (hpos : 0 < size) (hhigh : virt + size ≤ 2 ^ 32) :
    Does me (mappages d virt size pa) (fun _ h' => h' = h) h := by
  refine mapLoop_kernel hd ?_ ?_ <;> simp only [PGROUNDDOWN, PGSIZE, KERNBASE] at * <;> omega

theorem mapKernel_does {d : Nat} (hd : h.has d) : ∀ {ks : List (Nat × Nat × Nat)},
    (∀ k ∈ ks, KERNBASE ≤ k.1 ∧ 0 < k.2.2 ∧ k.1 + k.2.2 ≤ 2 ^ 32) →
      Does me (mapKernel d ks) (fun _ h' => h' = h) h := by
  intro ks
  induction ks with
  | nil => exact fun _ => rfl
  | cons k ks ih =>
    intro hks
    obtain ⟨hlow, hpos, hhigh⟩ := hks k (List.mem_cons_self ..)
    refine safe_seq (mappages_kernel hd hlow hpos hhigh) ?_
    rintro ok _ rfl
    split
    · exact ih fun k' hk' => hks k' (List.mem_cons_of_mem _ hk')
    · rfl

/-- Only what has to do with directories may be another. -/
structure Held.Same (h h' : Held) : Prop where
  self : h'.self = h.self
  child : h'.child = h.child
  raw : h'.raw = h.raw

/-- `memset` makes a directory of the page that `kalloc` has returned. -/
theorem clearDir_does {Q : Unit → Held → Prop} {d : Nat} (hmem : h.mem = some d)
    (hQ : Q () ((h.setMem none).setDir (some (d, 0)))) :
    Does me (Prog.modify fun s => s.clearDir d) Q h := by
  refine does_modify fun s g hg hinv =>
    ⟨(h.setMem none).setDir (some (d, 0)), hinv.step hg rfl rfl rfl ?_, hQ⟩
  have hmine : own s g (.mem me) = some d := by simp [own, hg, hmem]
  have hdir : ∀ D, dirOf (s.clearDir d)
      (update g me (some ((h.setMem none).setDir (some (d, 0))))) D =
      if D = .work me then some (d, 0) else dirOf s g D := by
    intro D
    rw [dirOf_ghost]
    split
    · rfl
    · cases D <;> rfl
  have htable : ∀ D i t, tableOf (s.clearDir d)
      (update g me (some ((h.setMem none).setDir (some (d, 0))))) D i = some t →
      tableOf s g D i = some t := by
    intro D i t ht
    rw [tableOf, hdir] at ht
    by_cases hD : D = .work me
    · simp [if_pos hD] at ht
    · rw [if_neg hD] at ht
      cases hD' : dirOf s g D with
      | none => simp [hD'] at ht
      | some x =>
        have hne : x.1 ≠ d := by
          intro he
          have := hinv.ledger.single (.pgdir D) (.mem me) d (by simp [own, hD', he]) hmine
          cases this
        simpa [hD', tableOf, update_of_ne hne] using ht
  refine hinv.ledger.hand (fun o => if o = .pgdir (.work me) then .mem me else o) ?_ ?_
  · intro o p ho
    cases o with
    | pgdir D =>
      simp only [own, hdir] at ho
      by_cases hD : D = .work me
      · rw [if_pos hD] at ho
        rw [if_pos (by rw [hD]), hmine]
        exact ho
      · rw [if_neg hD] at ho
        rw [if_neg (by simpa using hD)]
        exact ho
    | table D i => exact htable D i p ho
    | user D i j =>
      simp only [own] at ho ⊢
      split at ho
      · next hi =>
          obtain ⟨t, ht, hp⟩ := Option.bind_eq_some_iff.mp ho
          simp only [reduceCtorEq, if_false, if_pos hi, htable D i t ht]
          exact hp
      · cases ho
    | mem q =>
      by_cases hq : q = me
      · subst hq
        simp [own] at ho
      · simpa [own, hq] using ho
    | raw q q' =>
      simp only [own] at ho
      rw [raw_ghost hg (by simp)] at ho
      simpa [own] using ho
    | _ => simpa [own] using ho
  · intro o o' p ho ho' he
    have hnone : own (s.clearDir d)
        (update g me (some ((h.setMem none).setDir (some (d, 0))))) (.mem me) = none := by
      simp [own]
    split at he <;> split at he
    · next h₁ h₂ => rw [h₁, h₂]
    · rw [← he, hnone] at ho'
      cases ho'
    · rw [he, hnone] at ho
      cases ho
    · exact he

/-- `setupkvm` returns a directory that the process then has. -/
theorem setupkvm_does {Q : Option Page → Held → Prop} (hnone : ∀ h', h.Same h' → Q none h')
    (hsome : ∀ d h', h.Same h' → h'.dir = some (d, 0) → Q (some d) h') :
    Does me (setupkvm lay) Q h := by
  refine safe_bind.mpr (kalloc_does (hnone h ⟨rfl, rfl, rfl⟩) fun d => ?_)
  refine safe_bind.mpr (clearDir_does rfl ?_)
  refine safe_seq (mapKernel_does (Or.inr rfl) fun k hk => kmap_high hk) ?_
  rintro ok _ rfl
  cases ok with
  | true => exact hsome d _ ⟨rfl, rfl, rfl⟩ rfl
  | false => exact hnone _ ⟨rfl, rfl, rfl⟩

/-! ## Growing and shrinking -/

theorem freeTurn_does {Q : Bool → Held → Prop} {d va : Nat} (hd : h.has d) (hva : va < KERNBASE)
    (hQ : ∀ b, Q b h) : Does me (freeTurn lay d va) Q h := by
  refine does_act fun s g hg hinv a s' he => ?_
  obtain ⟨D, hD⟩ := hinv.dir_of_has hg hd
  split at he
  · cases he
    exact ⟨h, hinv.quiet hg rfl hinv.ledger, hQ _⟩
  · next t s₁ hw =>
      obtain ⟨-, -, -, ht, hs⟩ := walk_ledger hinv.ledger hD hw
      obtain rfl := hs rfl
      split at he
      · cases he
        exact ⟨h, hinv.quiet hg rfl hinv.ledger, hQ _⟩
      · next pa hpa =>
          split at he
          · cases he
          · split at he
            · cases he
            · next s₂ hk =>
                cases he
                obtain rfl := kfree_ok hk
                refine ⟨h, hinv.quiet hg rfl ?_, hQ _⟩
                have howns : ∀ o, own ((s₁.setFree (pa :: s₁.freelist)).setPte t (PTX va) none) g o =
                    if o = .user D (PDX va) (PTX va) then none else own s₁ g o := by
                  intro o
                  have := own_setPte hinv.ledger ht none (j := PTX va) o
                  rwa [if_pos (PDX_user hva), ← own_setFree (pa :: s₁.freelist)] at this
                refine hinv.ledger.give (o := .user D (PDX va) (PTX va)) ?_ ?_ ?_
                · simp [own, PDX_user hva, ht, hpa]
                · simp [howns]
                · intro o q ho
                  rw [howns] at ho
                  split at ho
                  · cases ho
                  · exact ho

theorem deallocLoop_does {d oldsz : Nat} (hd : h.has d) (hsz : oldsz ≤ KERNBASE) :
    ∀ {fuel a : Nat}, Does me (deallocLoop lay d oldsz fuel a) (fun _ h' => h' = h) h := by
  intro fuel
  induction fuel with
  | zero => exact rfl
  | succ fuel ih =>
    intro a
    rw [deallocLoop]
    split
    · next ha =>
        exact safe_bind.mpr (freeTurn_does hd (Nat.lt_of_lt_of_le ha hsz) fun _ => ih)
    · exact rfl

theorem deallocuvm_does {d oldsz newsz : Nat} (hd : h.has d) (hsz : oldsz ≤ KERNBASE) :
    Does me (deallocuvm lay d oldsz newsz) (fun r h' => h' = h ∧ r ≤ oldsz) h := by
  rw [deallocuvm]
  split
  · exact ⟨rfl, Nat.le_refl _⟩
  · next hlt =>
      refine safe_seq (deallocLoop_does hd hsz) ?_
      rintro _ _ rfl
      exact ⟨rfl, by omega⟩

/-- Nothing but the page in the variable is another. -/
def Held.Like (h h' : Held) : Prop := ∃ m, h' = h.setMem m

theorem Held.Like.refl (h : Held) : h.Like h := ⟨h.mem, rfl⟩

theorem Held.Like.trans {h₁ h₂ h₃ : Held} (h : h₁.Like h₂) (h' : h₂.Like h₃) : h₁.Like h₃ := by
  obtain ⟨m, rfl⟩ := h
  obtain ⟨m', rfl⟩ := h'
  exact ⟨m', rfl⟩

theorem mapNew_does {Q : Bool → Held → Prop} {d va pa : Nat} (hd : h.has d) (hva : va < KERNBASE)
    (halign : va % PGSIZE = 0) (hQ : ∀ ok h', h.Like h' → Q ok h') :
    Does me (mappages d va PGSIZE pa) Q (h.setMem (some pa)) :=
  mappages_user hd hva halign rfl (hQ _ _ ⟨_, rfl⟩) (hQ _ _ ⟨none, rfl⟩)

theorem allocLoop_does {d oldsz newsz : Nat} (hsz : newsz < KERNBASE) : ∀ {fuel a : Nat} {h : Held},
    h.has d → a % PGSIZE = 0 →
      Does me (allocLoop lay d oldsz newsz fuel a) (fun r h' => h.Like h' ∧ r < KERNBASE) h := by
  intro fuel
  induction fuel with
  | zero => exact fun _ _ => ⟨.refl _, hsz⟩
  | succ fuel ih =>
    intro a h hd ha
    rw [allocLoop]
    split
    · next hlt =>
        refine safe_bind.mpr (kalloc_does ?_ fun pa => ?_)
        · refine safe_seq (deallocuvm_does hd (Nat.le_of_lt hsz)) ?_
          rintro _ _ ⟨rfl, -⟩
          exact ⟨.refl _, by decide⟩
        · refine safe_bind.mpr (mapNew_does hd (Nat.lt_trans hlt hsz) ha fun _ h' hl => ?_)
          obtain ⟨m, rfl⟩ := hl
          refine safe_mono (ih (h := h.setMem m) hd ?_) ?_
          · rw [Nat.add_mod, ha]
            rfl
          · rintro r h'' ⟨hl, hr⟩
            exact ⟨Held.Like.trans ⟨m, rfl⟩ hl, hr⟩
    · exact ⟨.refl _, hsz⟩

theorem PGROUNDUP_aligned (a : Nat) : PGROUNDUP a % PGSIZE = 0 := Nat.mul_mod_left ..

theorem allocuvm_does {d oldsz newsz : Nat} (hd : h.has d)
    (hsz : newsz < oldsz → oldsz < KERNBASE) :
    Does me (allocuvm lay d oldsz newsz) (fun r h' => h.Like h' ∧ r < KERNBASE) h := by
  rw [allocuvm]
  split
  · exact ⟨.refl _, by decide⟩
  · next hnew =>
      split
      · next hlt => exact ⟨.refl _, hsz hlt⟩
      · exact allocLoop_does (Nat.lt_of_not_le hnew) hd (PGROUNDUP_aligned oldsz)

/-! ## `freevm` -/

/-- Freeing tables, or the directory, only takes owners away. -/
theorem within_dir (hg : g me = some h) {d n : Nat} {x : Option (Page × Nat)}
    (hdir : h.dir = some (d, n)) (hx : ∀ y ∈ x, y.1 = d ∧ n ≤ y.2) :
    Held.Within (some (h.setDir x)) (g me) := by
  rw [hg]
  refine ⟨fun _ hm => hm, ?_, fun m hr => ⟨m, Nat.le_refl m, hr⟩⟩
  intro d' n' hd
  obtain ⟨rfl, hle⟩ := hx _ hd
  exact ⟨n, hle, hdir⟩

theorem freeTable_does {Q : Unit → Held → Prop} {d : Nat} {i : Fin NPDENTRIES}
    (hdir : h.dir = some (d, i.val)) (hQ : Q () (h.setDir (some (d, i.val + 1)))) :
    Does me (freeTable lay d i) Q h := by
  refine does_act fun s g hg hinv a s' he => ⟨h.setDir (some (d, i.val + 1)), ?_, hQ⟩
  have hle : ∀ o p, own s (update g me (some (h.setDir (some (d, i.val + 1))))) o = some p →
      own s g o = some p :=
    own_mono (within_update (within_dir hg hdir (by rintro _ ⟨⟩; exact ⟨rfl, Nat.le_succ _⟩)))
  have hold : tableOf s g (.work me) i = s.pde d i := by
    simp [tableOf, dirOf, hg, hdir]
  split at he
  · cases he
    exact hinv.step hg rfl rfl rfl (hinv.ledger.forget hle)
  · next t ht =>
      split at he
      · cases he
      · next s₁ hk =>
          cases he
          obtain rfl := kfree_ok hk
          refine hinv.step hg rfl rfl rfl ?_
          rw [own_setFree]
          refine hinv.ledger.give (o := .table (.work me) i) (hold.trans ht) ?_ hle
          simp [own, tableOf, dirOf]

theorem freeTables_does {d : Nat} : ∀ {l : List (Fin NPDENTRIES)} {n : Nat} {h : Held},
    l.map Fin.val = List.range' n l.length → h.dir = some (d, n) →
      Does me (l.forM fun i => freeTable lay d i)
        (fun _ h' => ∃ m, h' = h.setDir (some (d, m))) h := by
  intro l
  induction l with
  | nil =>
    intro n h _ hdir
    exact ⟨n, by rw [← hdir]; rfl⟩
  | cons i l ih =>
    intro n h hl hdir
    simp only [List.map_cons, List.length_cons, List.range'_succ, List.cons.injEq] at hl
    obtain ⟨rfl, hl⟩ := hl
    refine safe_bind.mpr (freeTable_does hdir ?_)
    refine safe_mono (ih hl rfl) ?_
    rintro _ _ ⟨m, rfl⟩
    exact ⟨m, rfl⟩

theorem freeDir_does {Q : Unit → Held → Prop} {d n : Nat} (hdir : h.dir = some (d, n))
    (hQ : Q () (h.setDir none)) : Does me (kfree lay d id) Q h := by
  refine does_act fun s g hg hinv a s' he => ⟨_, ?_, hQ⟩
  split at he
  · cases he
  · next s₁ hk =>
      cases he
      obtain rfl := kfree_ok hk
      refine hinv.step hg rfl rfl rfl ?_
      rw [id, own_setFree]
      refine hinv.ledger.give (o := .pgdir (.work me)) ?_ ?_ ?_
      · simp [own, dirOf, hg, hdir]
      · simp [own, dirOf]
      · exact own_mono (within_update (within_dir hg hdir (by rintro _ ⟨⟩)))

/-- `freevm` of the directory the process is working on. -/
theorem freevm_does {Q : Unit → Held → Prop} {d : Nat} (hdir : h.dir = some (d, 0))
    (hQ : Q () (h.setDir none)) : Does me (freevm lay (some d)) Q h := by
  have htables : (List.finRange NPDENTRIES).map Fin.val =
      List.range' 0 (List.finRange NPDENTRIES).length := by
    rw [List.map_coe_finRange_eq_range, List.length_finRange, List.range_eq_range']
  rw [freevm]
  generalize List.finRange NPDENTRIES = l at htables
  refine safe_seq (deallocuvm_does (Or.inr hdir) (Nat.le_refl _)) ?_
  rintro _ _ ⟨rfl, -⟩
  refine safe_seq (freeTables_does htables hdir) ?_
  rintro _ _ ⟨m, rfl⟩
  exact freeDir_does rfl hQ

/-! ## `copyuvm` -/

theorem mapped_does {Q : Page → Held → Prop} {d va : Nat} (hQ : ∀ pa, Q pa h) :
    Does me (mapped d va) Q h := by
  refine safe_bind.mpr (does_gets fun s g _ _ => ?_)
  split
  · exact does_panic
  · refine safe_bind.mpr (does_gets fun s g _ _ => ?_)
    split
    · exact does_panic
    · exact hQ _

theorem copyLoop_does {d d' sz : Nat} (hsz : sz ≤ KERNBASE) : ∀ {fuel i : Nat} {h : Held},
    h.has d → i % PGSIZE = 0 → Does me (copyLoop d d' sz fuel i) (fun _ h' => h.Like h') h := by
  intro fuel
  induction fuel with
  | zero => exact fun _ _ => .refl _
  | succ fuel ih =>
    intro i h hd hi
    rw [copyLoop]
    split
    · next hlt =>
        refine safe_bind.mpr (mapped_does fun _ => ?_)
        refine safe_bind.mpr (kalloc_does (.refl _) fun pa => ?_)
        refine safe_bind.mpr (mapNew_does hd (Nat.lt_of_lt_of_le hlt hsz) hi fun ok h' hl => ?_)
        split
        · obtain ⟨m, rfl⟩ := hl
          refine safe_mono (ih (h := h.setMem m) hd ?_) fun _ _ hl => .trans ⟨m, rfl⟩ hl
          rw [Nat.add_mod, hi]
          rfl
        · exact hl
    · exact .refl _

theorem copyuvm_does {Q : Option Page → Held → Prop} {d sz : Nat} (hsz : sz ≤ KERNBASE)
    (hnone : ∀ h', h.Same h' → Q none h')
    (hsome : ∀ d h', h.Same h' → h'.dir = some (d, 0) → Q (some d) h') :
    Does me (copyuvm lay d sz) Q h := by
  refine safe_bind.mpr (setupkvm_does hnone fun d' h' hs hdir => ?_)
  refine safe_seq (copyLoop_does hsz (Or.inr hdir) (by rfl)) ?_
  rintro ok _ ⟨m, rfl⟩
  split
  · exact hsome d' _ ⟨hs.self, hs.child, hs.raw⟩ hdir
  · exact safe_bind.mpr (freevm_does hdir (hnone _ ⟨hs.self, hs.child, hs.raw⟩))

end

end Xv6Pdx.Mem
