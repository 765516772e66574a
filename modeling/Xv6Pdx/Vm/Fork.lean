/-
# `Vm.Fork` — `fork`

`fork` takes a slot of the process table, a page for the kernel stack, and an address space
from `copyuvm`; files and the working directory come last, when nothing can fail any more.
If `kalloc` returns 0 on the way, the result is -1 and the slot is free again.  Whether the
pages are depends on what `kalloc` was called for: the directory and the tables that
`setupkvm` has made so far are lost when there is no page for a kernel page table, and so is
the data page for which `copyuvm` has no user page table.  In all other cases nothing is left
behind (`failed_fork_clean_iff`).

The critical sections are those of `Proc.Kernel`, each in one action.  What is put on the
kernel stack of the child is left out.
-/
import Xv6Pdx.Vm.Copy
import Xv6Pdx.Proc.Refine

namespace Xv6Pdx.Vm

open Lib Bytes
open Mem (Page Layout PGSIZE NPDENTRIES NPTENTRIES PHYSTOP)
open Ptable (ProcPtr KernelM Stop)
open Function (update update_self update_of_ne)

def NOFILE : Nat := 16

/-- The process table, the memory, and what the processes have of it and of the files. -/
structure Machine where
  ptable : Ptable.Kernel
  mem : Memory
  pgdir : ProcPtr → Option Page
  ofile : ProcPtr → Nat → Option Nat
  cwd : ProcPtr → Nat
  /-- `f->ref` and `ip->ref` -/
  fileRef : Nat → Nat
  inodeRef : Nat → Nat

abbrev MachineM := Prog Machine String

namespace Machine

def vm {α : Type} (p : VmM α) : MachineM α := p.on Machine.mem fun s m => { s with mem := m }

def text : Stop → String
  | .panic msg => msg
  | .nullDeref => "trap"
  | .badIndex => "index"
  | .hang => "hang"

/-- A critical section of `proc.c`. -/
def locked {α : Type} (p : KernelM α) : MachineM α :=
  Prog.atomic fun s =>
    match p s.ptable with
    | .ok (a, k) => some (.ok (a, { s with ptable := k }))
    | .error e => some (.error (text e))

/-- `np->ofile[i] = filedup(proc->ofile[i])`. -/
def dupFile (me np : ProcPtr) (i : Nat) : MachineM Unit := do
  let f ← Prog.gets fun s => s.ofile me i
  match f with
  | none => pure ()
  | some f => do
    let r ← Prog.gets fun s => s.fileRef f
    if r < 1 then Prog.fail "filedup"
    else Prog.modify fun s => { s with
      fileRef := update s.fileRef f (s.fileRef f + 1)
      ofile := update s.ofile np (update (s.ofile np) i (some f)) }

def dupCwd (me np : ProcPtr) : MachineM Unit :=
  Prog.modify fun s => { s with
    inodeRef := update s.inodeRef (s.cwd me) (s.inodeRef (s.cwd me) + 1)
    cwd := update s.cwd np (s.cwd me) }

def freeStack (lay : Layout) (np : ProcPtr) : MachineM Unit := do
  let k ← Prog.gets fun s => (s.ptable.proc np).kstack
  match k with
  | none => Prog.fail "kfree"
  | some page => vm (kfree lay page)

def fork (lay : Layout) (maxPrio : Nat) (me : ProcPtr) : MachineM (Option Nat) := do
  let np ← locked Ptable.allocproc
  match np with
  | none => pure none
  | some np => do
    let kstack ← vm kalloc
    match kstack with
    | none => do
      locked (Ptable.allocprocFail np)
      pure none
    | some page => do
      locked (Ptable.allocprocStack np page)
      let pgdir ← Prog.gets fun s => s.pgdir me
      let sz ← Prog.gets fun s => (s.ptable.proc me).sz
      match pgdir with
      | none => Prog.fail "trap"
      | some pgdir => do
        let d ← vm (copyuvm lay pgdir sz)
        Prog.modify fun s => { s with pgdir := update s.pgdir np d }
        match d with
        | none => do
          freeStack lay np
          locked (Ptable.forkFail np)
          pure none
        | some _ => do
          locked (Ptable.forkCopy me np)
          (List.range NOFILE).forM (dupFile me np)
          dupCwd me np
          let pid ← Prog.gets fun s => (s.ptable.proc np).pid
          locked (Ptable.forkReady maxPrio me np)
          pure (some pid)

end Machine

/-! ## A fork that fails -/

namespace Machine

open Ptable (View Shows ProcOk)

theorem ends_vm {α : Type} {p : VmM α} {Q : α → Machine → Prop} {E : String → Prop} {s : Machine} :
    (vm p).ends Q E s ↔ p.ends (fun a m => Q a { s with mem := m }) E s.mem := by
  unfold vm
  apply Prog.ends_on
  · exact fun _ _ => rfl
  · exact fun _ _ _ => rfl
  · exact fun _ => rfl

theorem ends_locked {α : Type} {p : KernelM α} {Q : α → Machine → Prop} {E : String → Prop}
    {s : Machine} : (locked p).ends Q E s ↔
      wp p (fun a k => Q a { s with ptable := k }) (fun e => E (text e)) s.ptable := by
  show Prog.ends (Prog.act _ _) Q E s ↔ _
  rw [Prog.ends, wp]
  rcases p s.ptable with _ | ⟨a, k⟩ <;> exact Iff.rfl

/-- What is assumed of a machine in which `me` forks: the table is in order, the process has its
memory, and its files are open.  The data of the kernel begins at a page (`kernel.ld`). -/
structure Forks (lay : Layout) (maxPrio : Nat) (me : ProcPtr) (A : View) (pg : Page)
    (hand : List Page) (s : Machine) : Prop where
  shows : Shows s.ptable A
  procs : ∀ p, ProcOk maxPrio (A.proc p) (A.loc p)
  alive : A.loc me ≠ .free
  pgdir : s.pgdir me = some pg
  space : Space lay s.mem pg hand
  data : lay.data % PGSIZE = 0
  present : s.mem.Present pg (A.proc me).sz
  refs : ∀ i < NOFILE, ∀ f, s.ofile me i = some f → 1 ≤ s.fileRef f

/-- Everything that was not free is as before, and the slots of the process table are. -/
structure Undone (A : View) (s s' : Machine) : Prop where
  slots : ∃ A', Shows s'.ptable A' ∧ (∀ p, A'.loc p = A.loc p) ∧
    (∀ p, A.loc p ≠ .free → A'.proc p = A.proc p) ∧
    ∀ p, A.loc p = .free → (A'.proc p).state = .unused
  files : s'.fileRef = s.fileRef ∧ s'.inodeRef = s.inodeRef ∧ s'.ofile = s.ofile ∧ s'.cwd = s.cwd
  pgdir : ∀ p, A.loc p ≠ .free → s'.pgdir p = s.pgdir p
  data : ∀ q, q ∉ s.mem.free → s'.mem.ram q = s.mem.ram q
  cr3 : s'.mem.cr3 = s.mem.cr3

def SameFree (m m' : Memory) : Prop := m'.free.Nodup ∧ ∀ p, p ∈ m'.free ↔ p ∈ m.free

/-- What `fork` asks `kalloc` for, if there is a slot: the kernel stack and the copy. -/
def forkRequests (lay : Layout) (me : ProcPtr) (A : View) : List Request :=
  if ∃ p, A.loc p = .free then .page :: copyRequests lay (A.proc me).sz else []

section

variable {lay : Layout} {maxPrio : Nat} {me np : ProcPtr} {A B : View} {s s' : Machine}
  {pg : Page} {hand : List Page}

theorem slots_abandoned (hok : ∀ p, ProcOk maxPrio (A.proc p) (A.loc p)) (hnp : A.loc np = .free)
    (hloc : ∀ p, p ≠ np → B.loc p = A.loc p) (hproc : ∀ p, p ≠ np → B.proc p = A.proc p)
    (h : Shows s'.ptable (B.move np .free fun q => { q with kstack := none, state := .unused })) :
    ∃ A', Shows s'.ptable A' ∧ (∀ p, A'.loc p = A.loc p) ∧
      (∀ p, A.loc p ≠ .free → A'.proc p = A.proc p) ∧
      ∀ p, A.loc p = .free → (A'.proc p).state = .unused := by
  refine ⟨_, h, fun p => ?_, fun p hp => ?_, fun p hp => ?_⟩
  · by_cases he : p = np
    · subst he
      exact (update_self ..).trans hnp.symm
    · exact (update_of_ne he ..).trans (hloc p he)
  · have he : p ≠ np := fun he => hp (he ▸ hnp)
    exact (update_of_ne he ..).trans (hproc p he)
  · show (update B.proc np _ p).state = _
    by_cases he : p = np
    · rw [he, update_self]
    · rw [update_of_ne he, hproc p he, (hok p).state, hp]
      rfl

theorem take_ok (hok : ∀ p, ProcOk maxPrio (A.proc p) (A.loc p)) (np : ProcPtr) :
    ∀ p, ProcOk maxPrio ((A.take np).proc p) ((A.take np).loc p) :=
  Ptable.procs_update hok rfl rfl
    (ProcOk.place rfl (Int.le_refl 0) (Int.natCast_nonneg maxPrio) (by simp))

theorem furnish_ok (hok : ∀ p, ProcOk maxPrio (A.proc p) (A.loc p)) (np : ProcPtr) (page : Nat) :
    ∀ p, ProcOk maxPrio ((A.furnish np page).proc p) ((A.furnish np page).loc p) :=
  Ptable.procs_assign hok rfl rfl rfl rfl

theorem forkRest_ends (h : Shows s.ptable A) (hok : ∀ p, ProcOk maxPrio (A.proc p) (A.loc p))
    (hnp : A.loc np = .embryo) (hne : me ≠ np)
    (href : ∀ i < NOFILE, ∀ f, s.ofile me i = some f → 1 ≤ s.fileRef f)
    {Q : Option Nat → Machine → Prop} (hQ : ∀ pid s', Q (some pid) s') {E : String → Prop} :
    (do
      locked (Ptable.forkCopy me np)
      (List.range NOFILE).forM (dupFile me np)
      dupCwd me np
      let pid ← Prog.gets fun s => (s.ptable.proc np).pid
      locked (Ptable.forkReady maxPrio me np)
      pure (some pid)).ends Q E s := by
  rw [Prog.ends_bind, ends_locked]
  refine wp_mono (Ptable.forkCopy_spec h me np) ?_ (fun _ he => he.elim)
  intro _ k hk
  refine Prog.ends_seq (Prog.ends_forM (J := fun s' => s'.ptable = k ∧
    ∀ i < NOFILE, ∀ f, s'.ofile me i = some f → 1 ≤ s'.fileRef f) ?_ ⟨rfl, href⟩) ?_
  · rintro i hi s₁ ⟨hptable, href₁⟩
    rw [dupFile, Prog.ends_bind, Prog.ends_gets]
    cases hf : s₁.ofile me i with
    | none => exact ⟨hptable, href₁⟩
    | some f =>
      have hpos := href₁ i (List.mem_range.mp hi) f hf
      dsimp only
      rw [Prog.ends_bind, Prog.ends_gets, if_neg (by omega)]
      refine ⟨hptable, fun j hj g hg => ?_⟩
      have hg : s₁.ofile me j = some g := by
        have hg' : update s₁.ofile np _ me j = some g := hg
        rwa [update_of_ne hne] at hg'
      show 1 ≤ update s₁.fileRef f (s₁.fileRef f + 1) g
      by_cases he : g = f
      · rw [he, update_self]
        omega
      · rw [update_of_ne he]
        exact href₁ j hj g hg
  · rintro _ s₂ ⟨rfl, -⟩
    rw [dupCwd, Prog.ends_bind, Prog.ends_modify, Prog.ends_bind, Prog.ends_gets, Prog.ends_bind,
      ends_locked]
    refine wp_mono (Ptable.forkReady_spec hk hnp (Ptable.procs_assign hok rfl rfl rfl rfl)) ?_
      (fun _ he => he.elim)
    exact fun _ _ _ => hQ _ _

/-- The kernel stack has been given back, after a copy that failed. -/
theorem sameFree_iff {m m₂ : Memory} {page : Page} {l : List Page} {q : Request} (luck : Nat → Bool)
    (hl : m.free = page :: l) (hnodup : (page :: l).Nodup)
    (h : GivenBack { m with free := l, luck := luck } m₂ q) {m₃ : Memory}
    (hfree : m₃.free = page :: m₂.free) : SameFree m m₃ ↔ some q ≠ some .table := by
  rw [SameFree, hl, hfree]
  cases q with
  | page =>
    obtain ⟨hnd, hmem⟩ := h
    refine ⟨fun _ => nofun, fun _ => ⟨List.nodup_cons.mpr ⟨fun hp => ?_, hnd⟩, fun p => ?_⟩⟩
    · exact (List.nodup_cons.mp hnodup).1 ((hmem page).mp hp)
    · rw [List.mem_cons, List.mem_cons, hmem]
  | table =>
    obtain ⟨p, hp, hlost⟩ := h
    refine ⟨fun hsame => ?_, fun hne => absurd rfl hne⟩
    rcases List.mem_cons.mp ((hsame.2 p).mpr (List.mem_cons_of_mem _ hp)) with rfl | hp'
    · exact absurd hp (List.nodup_cons.mp hnodup).1
    · exact absurd hp' hlost

/-- How a fork ends, where `q` is what `kalloc` refused first: there is a child exactly if there
was a slot and nothing was refused. -/
structure ForkEnds (A : View) (s : Machine) (q : Option Request) (r : Option Nat) (s' : Machine) :
    Prop where
  child : r = none ↔ (∀ p, A.loc p ≠ .free) ∨ q ≠ none
  undone : r = none → Undone A s s'
  pages : (r = none → SameFree s.mem s'.mem) ↔ q ≠ some .table

theorem ForkEnds.fails {q : Option Request} (hwhy : (∀ p, A.loc p ≠ .free) ∨ q ≠ none)
    (hundone : Undone A s s') (hpages : SameFree s.mem s'.mem ↔ q ≠ some .table) :
    ForkEnds A s q none s' where
  child := ⟨fun _ => hwhy, fun _ => rfl⟩
  undone := fun _ => hundone
  pages := ⟨fun h => hpages.mp (h rfl), fun h _ => hpages.mpr h⟩

theorem fork_ends (hforks : Forks lay maxPrio me A pg hand s) :
    (fork lay maxPrio me).ends (ForkEnds A s (s.mem.refused (forkRequests lay me A)))
      (fun _ => False) s := by
  obtain ⟨h, hok, hme, hpg, hspace, hdata, hpres, href⟩ := hforks
  rw [fork, Prog.ends_bind, ends_locked]
  refine wp_mono (Ptable.allocproc_spec h hok) ?_ (fun _ he => he)
  rintro (_ | np) k₁ hk₁
  · obtain ⟨hshow, hfull⟩ := hk₁
    have hnone : s.mem.refused (forkRequests lay me A) = none := by
      rw [forkRequests, if_neg (not_exists.mpr hfull)]
      exact List.getElem?_nil
    rw [hnone]
    refine .fails (.inl hfull) ⟨⟨A, hshow, fun _ => rfl, fun _ _ => rfl, fun p hp => ?_⟩,
      ⟨rfl, rfl, rfl, rfl⟩, fun _ _ => rfl, fun _ _ => rfl, rfl⟩ ?_
    · exact absurd hp (hfull p)
    · exact ⟨fun _ => by rintro ⟨⟩, fun _ => ⟨hspace.pages.1, fun _ => Iff.rfl⟩⟩
  · obtain ⟨hnp, hk₁⟩ := hk₁
    have hne : me ≠ np := fun he => hme (he ▸ hnp)
    rw [forkRequests, if_pos ⟨np, hnp⟩]
    dsimp only
    rw [Prog.ends_bind, ends_vm]
    refine kalloc_ends (fun luck hzero => ?_) fun page l luck hl hsupply => ?_
    · rw [Prog.ends_bind, ends_locked]
      refine wp_mono (Ptable.abandon_spec hk₁ (update_self ..) (take_ok hok np np) _) ?_
        (fun _ he => he)
      intro _ k₂ hk₂
      have hpage : s.mem.refused (.page :: copyRequests lay (A.proc me).sz) = some .page := by
        rw [Memory.refused, hzero]
        rfl
      rw [hpage]
      refine .fails (.inr (by rintro ⟨⟩)) ⟨?_, ⟨rfl, rfl, rfl, rfl⟩, fun _ _ => rfl, fun _ _ => rfl, rfl⟩ ?_
      · exact slots_abandoned hok hnp (fun p hp => update_of_ne hp ..)
          (fun p hp => update_of_ne hp ..) hk₂
      · exact ⟨fun _ => by rintro ⟨⟩, fun _ => ⟨hspace.pages.1, fun _ => Iff.rfl⟩⟩
    · rw [refused_cons hsupply]
      have hspace₁ := (hspace.take hl luck).1
      have hpres₁ : Memory.Present { s.mem with free := l, luck := luck } pg (A.proc me).sz := by
        intro n hn hlt
        rw [map_of_ram rfl]
        exact hpres n hn hlt
      rw [Prog.ends_bind, ends_locked]
      refine wp_mono (Ptable.allocprocStack_spec hk₁ np page) ?_ (fun _ he => he)
      intro _ k₂ hk₂
      have hproc : k₂.proc = ((A.take np).furnish np page).proc := by
        obtain ⟨V, hrep⟩ := hk₂
        exact hrep.proc
      have hsz : (k₂.proc me).sz = (A.proc me).sz := by
        rw [hproc]
        exact congrArg Ptable.Proc.sz ((update_of_ne hne ..).trans (update_of_ne hne ..))
      rw [Prog.ends_bind, Prog.ends_gets, Prog.ends_bind, Prog.ends_gets]
      dsimp only
      rw [hpg, hsz]
      dsimp only
      rw [Prog.ends_bind, ends_vm]
      refine Prog.ends_mono (copyuvm_ends hspace₁ hdata (hpres₁.pages_le hspace₁) fun n hn =>
        hpres₁ n (hn.trans_le (hpres₁.pages_le hspace₁)) hn) ?_ (fun _ he => he)
      rintro (_ | d) m₂ hres
      · obtain ⟨q, hq, hnocopy⟩ := hres
        have hvalid : Valid lay page := hspace₁.valid page (.inl List.mem_cons_self)
        have hkstack : (k₂.proc np).kstack = some page := by
          rw [hproc]
          show (update (A.take np).proc np _ np).kstack = _
          rw [update_self]
        have hnodup : (page :: l).Nodup := hl ▸ hspace.pages.1
        refine Prog.ends_bind.mpr (Prog.ends_modify.mpr ?_)
        rw [Prog.ends_bind, freeStack, Prog.ends_bind, Prog.ends_gets]
        dsimp only
        rw [hkstack]
        dsimp only
        rw [ends_vm]
        refine Prog.ends_of_run (kfree_run hvalid) ?_
        rw [Prog.ends_bind, ends_locked]
        refine wp_mono (Ptable.abandon_spec hk₂ (update_self ..)
          (furnish_ok (take_ok hok np) np page np) _) ?_ (fun _ he => he)
        intro _ k₃ hk₃
        rw [hq]
        refine .fails (.inr (by rintro ⟨⟩))
          ⟨?_, ⟨rfl, rfl, rfl, rfl⟩, fun p hp => ?_, fun q hq => ?_, hnocopy.cr3⟩ ?_
        · refine slots_abandoned hok hnp (fun p hp => ?_) (fun p hp => ?_) hk₃
          · exact update_of_ne hp ..
          · exact (update_of_ne hp ..).trans (update_of_ne hp ..)
        · have hpnp : p ≠ np := fun he => hp (he ▸ hnp)
          exact update_of_ne hpnp ..
        · rw [hl, List.mem_cons, not_or] at hq
          exact (put_of_ne hq.1 _).trans (hnocopy.frame q hq.2)
        · exact sameFree_iff luck hl hnodup hnocopy.free rfl
      · refine Prog.ends_bind.mpr (Prog.ends_modify.mpr ?_)
        refine forkRest_ends hk₂ (furnish_ok (take_ok hok np) np page) (update_self ..) hne ?_ ?_
        · exact href
        intro pid s'
        have hall : Memory.refused { s.mem with free := l, luck := luck } _ = none := hres.1
        rw [hall]
        refine ⟨⟨by rintro ⟨⟩, ?_⟩, by rintro ⟨⟩, ⟨fun _ => by rintro ⟨⟩, fun _ => by rintro ⟨⟩⟩⟩
        rintro (hfull | hsome)
        · exact absurd hnp (hfull np)
        · exact absurd rfl hsome

/-- There is no child exactly if there is no slot, or `kalloc` refuses one of the requests; then
all is as before, and the same pages are free exactly if the first one refused is no table. -/
theorem failed_fork_clean_iff (h : Forks lay maxPrio me A pg hand s) :
    ∃ r s', (fork lay maxPrio me).run s = some (.ok (r, s')) ∧
      (r = none ↔ (∀ p, A.loc p ≠ .free) ∨ s.mem.refused (forkRequests lay me A) ≠ none) ∧
      ((r = none → Undone A s s' ∧ SameFree s.mem s'.mem) ↔
        s.mem.refused (forkRequests lay me A) ≠ some .table) ∧
      (r = none → Undone A s s') := by
  rcases Prog.ends_iff_run.mp (fork_ends h) with ⟨r, s', hrun, hres⟩ | ⟨_, _, hfalse⟩
  · refine ⟨r, s', hrun, hres.child, ?_, hres.undone⟩
    rw [← hres.pages]
    exact ⟨fun hall hr => (hall hr).2, fun hpages hr => ⟨hres.undone hr, hpages hr⟩⟩
  · exact hfalse.elim

end

/-! ### The first process forks -/

theorem userinit_shows {maxPrio ticks page : Nat} {k : Ptable.Kernel}
    (hk : Ptable.userinit maxPrio page (Ptable.boot ticks) = .ok ((), k)) :
    ∃ t p, Shows k (View.initial ticks t page p) :=
  wp_of_ok (Ptable.userinit_spec maxPrio ticks page) hk

theorem initial_proc {ticks t page : Nat} {p q : ProcPtr}
    (h : ((View.initial ticks t page p).proc q).state ≠ .unused) : q = p := by
  by_contra hne
  refine h ?_
  show (update (Ptable.boot ticks).proc p _ q).state = _
  rw [update_of_ne hne]
  rfl

theorem first_process (f : Ptable.Kernel → Bool)
    (h : passes (fun r => decide ((r.2.proc 0).state ≠ .unused) && f r.2)
      (some (Ptable.userinit 6 0 (Ptable.boot 0))) = true) :
    ∃ k t, f k = true ∧ Shows k (View.initial 0 t 0 0) := by
  obtain ⟨k, hk, hrun⟩ :=
    Ptable.userinit_checked 6 (fun k => decide ((k.proc 0).state ≠ .unused) && f k) h
  obtain ⟨t, p, hshows⟩ := userinit_shows hk
  rw [Bool.and_eq_true] at hrun
  have hstate : (k.proc 0).state ≠ .unused := of_decide_eq_true hrun.1
  obtain ⟨V, hrep⟩ := id hshows
  rw [hrep.proc] at hstate
  obtain rfl := initial_proc hstate
  exact ⟨k, t, hrun.2, hshows⟩

/-- It has a page; the free list is given. -/
def firstMachine (k : Ptable.Kernel) (free : List Page) : Machine where
  ptable := k
  mem := withPage 0 free
  pgdir := fun _ => some 300
  ofile := fun _ _ => none
  cwd := fun _ => 0
  fileRef := fun _ => 0
  inodeRef := fun _ => 1

theorem firstMachine_forks {f : List Page} (hfree : Spare (300 :: 301 :: 302 :: f))
    {k : Ptable.Kernel} {t : Nat} (hk : Shows k (View.initial 0 t 0 0)) :
    Forks smallKernel 6 0 (View.initial 0 t 0 0) 300 [] (firstMachine k f) := by
  obtain ⟨hspace, -, hmap⟩ := withPage_space (i := 0) hfree (by decide)
  refine ⟨hk, (Ptable.initial_inv 0 t 0 0).procs, ?_, rfl, hspace, by decide, ?_, nofun⟩
  · rw [Ptable.initial_loc, if_pos rfl]
    nofun
  · intro n hn hlt
    have hzero : n = 0 := by
      have hsz : ((View.initial 0 t 0 0).proc 0).sz = PGSIZE := by
        show (update (Ptable.boot 0).proc 0 _ 0).sz = _
        rw [update_self]
        rfl
      rw [hsz] at hlt
      exact Nat.lt_one_iff.mp hlt
    show (withPage 0 f).map 300 n ≠ none
    rw [hmap n (hn.trans (by decide)), hzero]
    nofun

/-- There is a page for the kernel stack and none for the directory: nothing is left behind. -/
theorem fork_without_directory : ∃ A s s', Forks smallKernel 6 0 A 300 [] s ∧ s.mem.free = [303] ∧
    (fork smallKernel 6 0).run s = some (.ok (none, s')) ∧ Undone A s s' ∧
    SameFree s.mem s'.mem := by
  obtain ⟨k, t, -, hshows⟩ := first_process (fun _ => true) (by decide +kernel)
  have hforks := firstMachine_forks (f := [303]) (by decide) hshows
  obtain ⟨r, s', hrun, hchild, hclean, -⟩ := failed_fork_clean_iff hforks
  have hslot : ∃ p, (View.initial 0 t 0 0).loc p = .free :=
    ⟨1, (Ptable.initial_loc ..).trans (if_neg (by decide))⟩
  have href : (firstMachine k [303]).mem.refused
      (forkRequests smallKernel 0 (View.initial 0 t 0 0)) = some .page := by
    rw [forkRequests, if_pos hslot]
    rfl
  rw [href] at hchild hclean
  obtain rfl := hchild.mpr (.inr nofun)
  obtain ⟨hundone, hsame⟩ := hclean.mpr nofun rfl
  exact ⟨_, _, s', hforks, rfl, hrun, hundone, hsame⟩

/-- There is a page for the directory and none for the first kernel page table: the directory
is lost. -/
theorem fork_loses_directory : ∃ A s s', Forks smallKernel 6 0 A 300 [] s ∧
    (fork smallKernel 6 0).run s = some (.ok (none, s')) ∧ 304 ∈ s.mem.free ∧
    304 ∉ s'.mem.free := by
  obtain ⟨k, t, heval, hshows⟩ := first_process (fun k =>
    passes (fun r : _ × Machine => decide (r.1 = none ∧ 304 ∉ r.2.mem.free))
      ((fork smallKernel 6 0).run (firstMachine k [303, 304]))) (by decide +kernel)
  obtain ⟨⟨r, s'⟩, hrun, heval⟩ := passes_iff.mp heval
  obtain ⟨rfl, hlost⟩ := of_decide_eq_true heval
  refine ⟨_, _, s', firstMachine_forks (by decide) hshows, hrun, ?_, hlost⟩
  exact List.mem_cons_of_mem _ List.mem_cons_self

end Machine

end Xv6Pdx.Vm
