/-
# `Proc.Wait` — which processes `wait` takes for children

`wait` compares `curr->parent->pid` with the pid of the caller.  The first
process has no parent, and a new process has none until `fork` copies it, so a
scan that meets one of them reads through a null pointer and compares whatever
the user program has there.  `waitChecked` stops where the source does that.

No null pointer is followed exactly if the caller has a zombie child, or comes on
each other list to a child before it comes to a process without a parent
(`NullFree`).  Then, if no pid has been handed out twice, the test is exact.
-/
import Xv6Pdx.Proc.Family

namespace Xv6Pdx.Ptable

open Lib
open Function (update update_self update_of_ne update_eq_self)

/-! ## The scans with the null pointer in sight -/

/-- `while(curr != 0){ if(curr->parent->pid == proc->pid) break; curr = curr->next; }`. -/
def checkedNext (me : ProcPtr) : Nat → Option ProcPtr → KernelM (Option ProcPtr)
  | _, none => pure none
  | 0, some _ => throw .hang
  | n + 1, some p => do
    let s ← get
    match (s.proc p).parent with
    | none => throw .nullDeref
    | some r =>
      if (s.proc r).pid = (s.proc me).pid then pure (some p)
      else checkedNext me n (s.pLists.next p)

def checkedOn (me : ProcPtr) (l : StateList) : KernelM (Option ProcPtr) := do
  let s ← get
  checkedNext me NPROC (s.pLists.head l)

/-- The scans of `n` ready lists from `ready[i]` on. -/
def checkedReady (me : ProcPtr) : Nat → Nat → KernelM Bool
  | 0, _ => pure false
  | n + 1, i => do
    let here ← checkedOn me (.ready i)
    let rest ← checkedReady me n (i + 1)
    return here.isSome || rest

/-- One turn of the loop of `wait`, up to the `sleep` at its end. -/
def waitChecked (maxPrio : Nat) (me : ProcPtr) (havekids : Bool) : KernelM (Option Int) := do
  match ← checkedOn me .zombie with
  | some p => return some (← reap p)
  | none =>
    let r ← checkedReady me (maxPrio + 1) 0
    let sl ← checkedOn me .sleep
    let ru ← checkedOn me .running
    let em ← checkedOn me .embryo
    let havekids := havekids || r || sl.isSome || ru.isSome || em.isSome
    let s ← get
    if havekids = false then return some (-1)
    else if (s.proc me).killed then return some (-1)
    else
      sleep maxPrio me (.proc me)
      return none

/-! ## Parents are alive, and pids are different -/

/-- Who is a parent is alive, and slots have no parent before `fork` has copied
the process. -/
structure Kin (A : View) : Prop where
  free : ∀ p, A.loc p = .free → (A.proc p).parent = none
  early : ∀ p np, A.task p = .embryo np ∨ A.task p = .stack np → (A.proc np).parent = none
  alive : ∀ p r, (A.proc p).parent = some r → alive (A.loc r)

/-- The pids handed out are different and below the next one. -/
structure Pids (A : View) : Prop where
  lt : ∀ p, A.loc p ≠ .free → (A.proc p).pid < A.nextpid
  inj : ∀ p q, A.loc p ≠ .free → A.loc q ≠ .free → (A.proc p).pid = (A.proc q).pid → p = q

section

variable {maxPrio : Nat} {hit : Proc → Prop} {A A' : View}

/-- Processes move only among the live lists, and keep their parents. -/
theorem Kin.among (h : Kin A) (htask : A'.task = A.task)
    (hloc : ∀ p, A'.loc p = A.loc p ∨ Ptable.alive (A.loc p) ∧ Ptable.alive (A'.loc p))
    (hpar : ∀ p, (A'.proc p).parent = (A.proc p).parent) : Kin A' := by
  refine ⟨?_, ?_, ?_⟩
  · intro p hp
    rw [hpar]
    rcases hloc p with he | ⟨-, he⟩
    · exact h.free p (he ▸ hp)
    · rw [hp] at he
      exact absurd he not_alive_free
  · intro p np hp
    rw [htask] at hp
    rw [hpar]
    exact h.early p np hp
  · intro p r hp
    rw [hpar] at hp
    rcases hloc r with he | ⟨-, he⟩
    · rw [he]
      exact h.alive p r hp
    · exact he

theorem Kin.shuffle (h : Kin A) (htask : A'.task = A.task)
    (hloc : ∀ p, Shuffled (A.loc p) (A'.loc p))
    (hpar : ∀ p, (A'.proc p).parent = (A.proc p).parent) : Kin A' :=
  h.among htask (fun p => (hloc p).among) hpar

/-- A live process changes its place and keeps its parent. -/
theorem Kin.assign (h : Kin A) {p : ProcPtr} {q : Proc} {l : StateList}
    (htask : A'.task = A.task) (hproc : A'.proc = update A.proc p q)
    (hloc : A'.loc = update A.loc p l)
    (hl : l = A.loc p ∨ Ptable.alive (A.loc p) ∧ Ptable.alive l)
    (hpar : q.parent = (A.proc p).parent) : Kin A' := by
  refine h.among htask ?_ ?_
  · intro r
    rw [hloc]
    rcases eq_or_ne r p with rfl | hne
    · rw [update_self]
      exact hl
    · rw [update_of_ne hne]
      exact Or.inl rfl
  · intro r
    rw [hproc]
    exact update_parent hpar r

/-- A process `x` that is not alive changes its place, and maybe its parent. -/
theorem Kin.relocate (h : Kin A) {me x : ProcPtr} {l : StateList} {t : Task}
    (hx : ¬ Ptable.alive (A.loc x)) (hloc : A'.loc = update A.loc x l)
    (hproc : ∀ q, q ≠ x → A'.proc q = A.proc q)
    (hself : (A'.proc x).parent = none ∨
      l ≠ .free ∧ ∃ r, (A'.proc x).parent = some r ∧ Ptable.alive (A.loc r))
    (htask : A'.task = update A.task me t)
    (hother : ∀ p, p ≠ me → (A.task p).child ≠ some x)
    (ht : ∀ np, t = .embryo np ∨ t = .stack np → (A'.proc np).parent = none) : Kin A' := by
  have hkeep : ∀ r, Ptable.alive (A.loc r) → Ptable.alive (A'.loc r) := by
    intro r hr
    have hne : r ≠ x := fun he => hx (he ▸ hr)
    rwa [hloc, update_of_ne hne]
  refine ⟨?_, ?_, ?_⟩
  · intro p hp
    rcases eq_or_ne p x with rfl | hne
    · rw [hloc, update_self] at hp
      exact hself.resolve_right fun hs => hs.1 hp
    · rw [hloc, update_of_ne hne] at hp
      rw [hproc p hne]
      exact h.free p hp
  · intro p np hp
    rw [htask] at hp
    rcases eq_or_ne p me with rfl | hne
    · rw [update_self] at hp
      exact ht np hp
    · rw [update_of_ne hne] at hp
      have hnx : np ≠ x := by
        rintro rfl
        refine hother p hne ?_
        rcases hp with hp | hp <;> rw [hp] <;> rfl
      rw [hproc np hnx]
      exact h.early p np hp
  · intro p r hp
    rcases eq_or_ne p x with rfl | hne
    · rcases hself with hs | ⟨-, r', hs, hr'⟩
      · rw [hs] at hp
        cases hp
      · obtain rfl := Option.some.inj (hs.symm.trans hp)
        exact hkeep r' hr'
    · rw [hproc p hne] at hp
      exact hkeep r (h.alive p r hp)

theorem Kin.adopted (h : Kin A) (hctl : Ctl A)
    (htask : A'.task = A.task) (hloc : ∀ p, Shuffled (A.loc p) (A'.loc p))
    (hpar : ∀ p, (A'.proc p).parent = (A.proc p).parent ∨
      (A.proc p).parent ≠ none ∧ (A'.proc p).parent = A.initproc) : Kin A' := by
  obtain ⟨i, hi, hlive, -⟩ := hctl.init
  have hnone : ∀ p, (A.proc p).parent = none → (A'.proc p).parent = none := by
    intro p hp
    rcases hpar p with he | ⟨hne, -⟩
    · rw [he, hp]
    · exact absurd hp hne
  have hkeep : ∀ r, Ptable.alive (A.loc r) → Ptable.alive (A'.loc r) := by
    intro r hr
    rcases (hloc r).among with he | ⟨-, he⟩
    · rwa [he]
    · exact he
  refine ⟨?_, ?_, ?_⟩
  · intro p hp
    rcases (hloc p).among with he | ⟨-, he⟩
    · exact hnone p (h.free p (he ▸ hp))
    · rw [hp] at he
      exact absurd he not_alive_free
  · intro p np hp
    rw [htask] at hp
    exact hnone np (h.early p np hp)
  · intro p r hp
    rcases hpar p with he | ⟨-, he⟩
    · rw [he] at hp
      exact hkeep r (h.alive p r hp)
    · rw [he, hi] at hp
      cases hp
      exact hkeep i hlive

theorem Trans.kin (hinv : Inv maxPrio A) (hf : Family A) (h : Kin A)
    (ht : Trans maxPrio hit A A') : Kin A' := by
  have hctl := hinv.ctl
  have hsame : ∀ p, Shuffled (A.loc p) (A.loc p) := fun p => Or.inl rfl
  cases ht with
  | tick => exact h.shuffle rfl hsame fun _ => rfl
  | wake chan => exact h.shuffle rfl (wake_shuffled A chan) (wake_parent A chan)
  | killMark p _ =>
    exact h.assign rfl rfl (update_eq_self p A.loc).symm (Or.inl rfl) rfl
  | killWake p hp _ =>
    exact h.assign rfl rfl rfl (Or.inr ⟨Or.inl hp, Or.inr (Or.inr ⟨0, rfl⟩)⟩) rfl
  | yield c p hc =>
    refine h.assign rfl (A.move_sched_proc _ _ _ _) (A.move_sched_loc _ _ _ _) ?_ (settle_parent _)
    rw [if_pos rfl]
    exact Or.inr ⟨Or.inr (Or.inl (hctl.cpuRun c p hc)), Or.inr (Or.inr ⟨_, rfl⟩)⟩
  | sleep c p a hc _ =>
    refine h.assign rfl (A.move_sched_proc _ _ _ _) (A.move_sched_loc _ _ _ _) ?_ (settle_parent _)
    rw [if_neg (by simp)]
    exact Or.inr ⟨Or.inr (Or.inl (hctl.cpuRun c p hc)), Or.inl rfl⟩
  | waitSleep c p low hc _ _ =>
    refine h.assign rfl (A.move_sched_proc _ _ _ _) (A.move_sched_loc _ _ _ _) ?_ (settle_parent _)
    rw [if_neg (by simp)]
    exact Or.inr ⟨Or.inr (Or.inl (hctl.cpuRun c p hc)), Or.inl rfl⟩
  | reap c p q low hc hq _ =>
    have hne := hctl.not_child (x := q) (by simp [hq])
    refine h.relocate (t := A.task p) (by rw [hq]; exact not_alive_zombie) rfl
      (fun r hr => update_of_ne hr _ _) (Or.inl ?_)
      (update_eq_self p A.task).symm (fun r _ => hne r) ?_
    · show (update A.proc q _ q).parent = none
      rw [update_self]
    · intro np hnp
      have hnq : np ≠ q := by
        rintro rfl
        refine hne p ?_
        rcases hnp with hnp | hnp <;> rw [hnp] <;> rfl
      show (update A.proc q _ np).parent = none
      rw [update_of_ne hnq]
      exact h.early p np hnp
  | reparent me ls _ _ =>
    refine h.adopted hctl rfl (fun p => by rw [reparent_loc]; exact hsame p) ?_
    intro p
    rw [reparent_parent]
    split
    · next hp => exact Or.inr ⟨by rw [hp.2]; simp, rfl⟩
    · exact Or.inl rfl
  | adopt q hq =>
    refine h.adopted hctl rfl
      (fun p => wake_shuffled (A.assign q fun r => { r with parent := A.initproc }) _ p) ?_
    intro p
    rw [adopt_parent]
    split
    · next hp =>
        subst hp
        obtain ⟨r, hr, -⟩ := hf.parent p (by rw [hq]; exact ⟨by simp, by simp⟩)
          (hctl.zombie_ne_init hq)
        exact Or.inr ⟨by rw [hr]; simp, rfl⟩
    · exact Or.inl rfl
  | exit c p hc _ _ hkids _ =>
    have hproc : ∀ q, (((A.exit maxPrio c p).proc q)).parent = (A.proc q).parent := by
      intro q
      have hp : (A.exit maxPrio c p).proc = update A.proc p
          (settle maxPrio A.ticks { A.proc p with state := .zombie }) := A.move_sched_proc _ _ _ _
      rw [hp]
      exact update_parent (by rw [settle_parent]) q
    have hloc : (A.exit maxPrio c p).loc = update A.loc p .zombie := by
      rw [View.exit, View.leave, A.move_sched_loc, if_neg (by simp)]
    have hnot : ∀ q, (A.proc q).parent ≠ some p := by
      intro q hq
      refine hkids q (fun hfree => ?_) hq
      rw [h.free q hfree] at hq
      cases hq
    refine ⟨?_, ?_, ?_⟩
    · intro q hq
      rw [hproc]
      rw [hloc] at hq
      rcases eq_or_ne q p with rfl | hne
      · rw [update_self] at hq
        cases hq
      · rw [update_of_ne hne] at hq
        exact h.free q hq
    · intro q np hq
      rw [hproc]
      exact h.early q np hq
    · intro q r hq
      rw [hproc] at hq
      have hne : r ≠ p := by
        rintro rfl
        exact hnot q hq
      rw [hloc, update_of_ne hne]
      exact h.alive q r hq
  | alloc c p np hc ht hnp =>
    have hnone : ((A.alloc p np).proc np).parent = none := by
      show (update A.proc np _ np).parent = none
      rw [update_self]
      exact h.free np hnp
    refine h.relocate (by rw [hnp]; exact not_alive_free) rfl
      (fun r hr => update_of_ne hr _ _) (Or.inl hnone) rfl
      (fun r _ => hctl.not_child (by simp [hnp]) r) ?_
    rintro np' (he | he)
    · cases he
      exact hnone
    · cases he
  | abandon c p np hc ht =>
    have hch : (A.task p).child = some np := by
      rcases ht with ht | ht <;> rw [ht] <;> rfl
    refine h.relocate (by rw [hctl.child p np hch]; exact not_alive_embryo) rfl
      (fun r hr => update_of_ne hr _ _) (Or.inl ?_) rfl (hctl.child_ne hch) ?_
    · show (update A.proc np _ np).parent = none
      rw [update_self]
      exact h.early p np ht
    · rintro np' (he | he) <;> cases he
  | stack c p np page hc ht =>
    have hch : (A.task p).child = some np := by rw [ht]; rfl
    have hnp := hctl.child p np hch
    have hnone : ((A.stack p np page).proc np).parent = none := by
      show (update A.proc np _ np).parent = none
      rw [update_self]
      exact h.early p np (Or.inl ht)
    refine h.relocate (l := .embryo) (by rw [hnp]; exact not_alive_embryo)
      (by rw [← hnp, update_eq_self]; rfl)
      (fun r hr => update_of_ne hr _ _) (Or.inl hnone) rfl (hctl.child_ne hch) ?_
    rintro np' (he | he)
    · cases he
    · cases he
      exact hnone
  | copy c p np hc ht =>
    have hch : (A.task p).child = some np := by rw [ht]; rfl
    have hnp := hctl.child p np hch
    refine h.relocate (l := .embryo) (by rw [hnp]; exact not_alive_embryo)
      (by rw [← hnp, update_eq_self]; rfl)
      (fun r hr => update_of_ne hr _ _)
      (Or.inr ⟨by simp, p, ?_, Or.inr (Or.inl (hctl.cpuRun c p hc))⟩) rfl (hctl.child_ne hch) ?_
    · show (update A.proc np _ np).parent = some p
      rw [update_self]
    · rintro np' (he | he) <;> cases he
  | forkReady c p np hc ht =>
    have hch : (A.task p).child = some np := by rw [ht]; rfl
    refine h.relocate (by rw [hctl.child p np hch]; exact not_alive_embryo) rfl
      (fun r hr => update_of_ne hr _ _)
      (Or.inr ⟨by simp, p, ?_, Or.inr (Or.inl (hctl.cpuRun c p hc))⟩) rfl (hctl.child_ne hch) ?_
    · show (update A.proc np _ np).parent = some p
      rw [update_self]
      exact hf.copied p np ht
    · rintro np' (he | he) <;> cases he
  | promote => exact h.shuffle rfl (promote_shuffled A) (promote_parent A)
  | dispatch c p j hc hp _ =>
    exact h.assign rfl rfl rfl (Or.inr ⟨Or.inr (Or.inr ⟨j, hp⟩), Or.inr (Or.inl rfl)⟩) rfl
  | clearChan c p hc =>
    exact h.assign rfl rfl (update_eq_self p A.loc).symm (Or.inl rfl) rfl

/-! ## Process ids -/

/-- What a transition does to the pids: `allocproc` hands out the next one, and
nothing else changes the pid of a process or makes one of a free slot. -/
inductive Named (A A' : View) : Prop where
  | same : A'.nextpid = A.nextpid →
      (∀ p, A'.loc p ≠ .free → A.loc p ≠ .free ∧ (A'.proc p).pid = (A.proc p).pid) → Named A A'
  | new (np : ProcPtr) : A'.nextpid = A.nextpid + 1 → A.loc np = .free →
      (A'.proc np).pid = A.nextpid % 2 ^ 32 →
      (∀ p, p ≠ np → A'.loc p = A.loc p ∧ (A'.proc p).pid = (A.proc p).pid) → Named A A'

theorem Shuffled.free {l l' : StateList} (h : Shuffled l l') (hl : l' ≠ .free) : l ≠ .free := by
  rintro rfl
  rcases h with h | ⟨h | ⟨i, h⟩, -⟩
  · exact hl h
  · cases h
  · cases h

/-- One process changes, from a place that is not free, and keeps its pid. -/
theorem Named.assign {p : ProcPtr} {q : Proc} {l : StateList} (hn : A'.nextpid = A.nextpid)
    (hproc : A'.proc = update A.proc p q) (hloc : A'.loc = update A.loc p l)
    (hl : l ≠ .free → A.loc p ≠ .free ∧ q.pid = (A.proc p).pid) : Named A A' := by
  refine .same hn ?_
  intro r hr
  rw [hproc]
  rw [hloc] at hr
  rcases eq_or_ne r p with rfl | hne
  · rw [update_self] at hr ⊢
    exact hl hr
  · rw [update_of_ne hne] at hr ⊢
    exact ⟨hr, rfl⟩

theorem Trans.named (hctl : Ctl A) (ht : Trans maxPrio hit A A') : Named A A' := by
  have hstay : ∀ {p q}, A'.nextpid = A.nextpid → A'.proc = update A.proc p q →
      A'.loc = A.loc → q.pid = (A.proc p).pid → Named A A' := by
    intro p q hn hproc hloc hq
    exact .assign hn hproc (by rw [hloc, update_eq_self]) fun hl => ⟨hl, hq⟩
  have hrunning : ∀ {c p}, A.cpu c = some p → A.loc p ≠ .free := by
    intro c p hc
    rw [hctl.cpuRun c p hc]
    simp
  cases ht with
  | tick => exact .same rfl fun p hp => ⟨hp, rfl⟩
  | wake chan =>
    refine .same rfl fun p hp => ⟨(wake_shuffled A chan p).free hp, ?_⟩
    rw [wake_proc]
    split <;> rfl
  | killMark p _ => exact hstay rfl rfl rfl rfl
  | killWake p hp _ => exact .assign rfl rfl rfl fun _ => ⟨by rw [hp]; simp, rfl⟩
  | yield c p hc =>
    exact .assign rfl (A.move_sched_proc _ _ _ _) (A.move_sched_loc _ _ _ _)
      fun _ => ⟨hrunning hc, settle_pid _⟩
  | sleep c p a hc _ =>
    exact .assign rfl (A.move_sched_proc _ _ _ _) (A.move_sched_loc _ _ _ _)
      fun _ => ⟨hrunning hc, settle_pid _⟩
  | waitSleep c p low hc _ _ =>
    exact .assign rfl (A.move_sched_proc _ _ _ _) (A.move_sched_loc _ _ _ _)
      fun _ => ⟨hrunning hc, settle_pid _⟩
  | reap c p q low _ _ _ => exact .assign rfl rfl rfl fun hl => absurd rfl hl
  | reparent me ls _ _ =>
    refine .same rfl fun p hp => ⟨by rwa [reparent_loc] at hp, ?_⟩
    simp only [View.reparent, View.on, reparentChange]
    split
    · split <;> rfl
    · rfl
  | adopt q _ =>
    refine .same rfl fun p hp => ⟨(wake_shuffled (A.assign q fun r =>
      { r with parent := A.initproc }) _ p).free hp, ?_⟩
    have hassign : ((A.assign q fun r => { r with parent := A.initproc }).proc p).pid
        = (A.proc p).pid := by
      rcases eq_or_ne p q with rfl | hne
      · simp [View.assign]
      · simp [View.assign, hne]
    rw [View.adopt, wake_proc]
    split <;> exact hassign
  | exit c p hc _ _ _ _ =>
    exact .assign rfl (A.move_sched_proc _ _ _ _) (A.move_sched_loc _ _ _ _)
      fun _ => ⟨hrunning hc, settle_pid _⟩
  | alloc c p np _ _ hnp =>
    refine .new np rfl hnp ?_ fun r hr => ⟨update_of_ne hr _ _, ?_⟩
    · show (update A.proc np _ np).pid = _
      rw [update_self]
    · show (update A.proc np _ r).pid = _
      rw [update_of_ne hr]
  | abandon c p np _ _ => exact .assign rfl rfl rfl fun hl => absurd rfl hl
  | stack c p np page _ _ => exact hstay rfl rfl rfl rfl
  | copy c p np _ _ => exact hstay rfl rfl rfl rfl
  | forkReady c p np _ ht =>
    refine .assign rfl rfl rfl fun _ => ⟨?_, rfl⟩
    rw [hctl.child p np (by rw [ht]; rfl)]
    simp
  | promote =>
    refine .same rfl fun p hp => ⟨(promote_shuffled A p).free hp, ?_⟩
    simp only [View.promote]
    cases A.loc p with
    | ready i =>
      dsimp only
      split <;> rfl
    | running | sleep =>
      simp only [lowerChange]
      split <;> rfl
    | _ => rfl
  | dispatch c p j _ hp _ => exact .assign rfl rfl rfl fun _ => ⟨by rw [hp]; simp, rfl⟩
  | clearChan c p _ => exact hstay rfl rfl rfl rfl

/-- No pid is handed out twice before the counter wraps. -/
theorem Named.pids (h : Named A A') (hp : A.nextpid ≤ 2 ^ 32 → Pids A)
    (hle : A'.nextpid ≤ 2 ^ 32) : Pids A' := by
  cases h with
  | same hn hsame =>
    rw [hn] at hle
    have hA := hp hle
    refine ⟨?_, ?_⟩
    · intro p hf
      obtain ⟨hf', he⟩ := hsame p hf
      rw [he, hn]
      exact hA.lt p hf'
    · intro p q hf hg he
      obtain ⟨hf', hp'⟩ := hsame p hf
      obtain ⟨hg', hq'⟩ := hsame q hg
      rw [hp', hq'] at he
      exact hA.inj p q hf' hg' he
  | new np hn hfree hpid hother =>
    rw [hn] at hle
    have hA := hp (by omega)
    have hnew : (A'.proc np).pid = A.nextpid := by rw [hpid, Nat.mod_eq_of_lt (by omega)]
    have hold : ∀ p, p ≠ np → A'.loc p ≠ .free →
        A.loc p ≠ .free ∧ (A'.proc p).pid = (A.proc p).pid ∧ (A'.proc p).pid < A.nextpid := by
      intro p hne hf
      obtain ⟨hl, he⟩ := hother p hne
      rw [hl] at hf
      exact ⟨hf, he, by rw [he]; exact hA.lt p hf⟩
    refine ⟨?_, ?_⟩
    · intro p hf
      rw [hn]
      rcases eq_or_ne p np with rfl | hne
      · omega
      · have := (hold p hne hf).2.2
        omega
    · intro p q hf hg he
      rcases eq_or_ne q p with hqp | hqp
      · exact hqp.symm
      rcases eq_or_ne p np with rfl | hnp
      · have := (hold q hqp hg).2.2
        omega
      · obtain ⟨hf', hp', hlt⟩ := hold p hnp hf
        rcases eq_or_ne q np with rfl | hnq
        · omega
        · obtain ⟨hg', hq', -⟩ := hold q hnq hg
          rw [hp', hq'] at he
          exact hA.inj p q hf' hg' he

theorem Run.kin (hinv : Inv maxPrio A) (hf : Family A) (hk : Kin A)
    (hp : A.nextpid ≤ 2 ^ 32 → Pids A) (hr : Run maxPrio hit A A') :
    Family A' ∧ Kin A' ∧ (A'.nextpid ≤ 2 ^ 32 → Pids A') := by
  induction hr with
  | refl => exact ⟨hf, hk, hp⟩
  | tail hr ht ih =>
    obtain ⟨hf', hk', hp'⟩ := ih
    have hinv' := Run.inv hinv hr
    exact ⟨ht.family hinv' hf', ht.kin hinv' hf' hk', (ht.named hinv'.ctl).pids hp'⟩

theorem initial_kin (ticks t page : Nat) (p : ProcPtr) : Kin (View.initial ticks t page p) := by
  have hnone : ∀ q, ((View.initial ticks t page p).proc q).parent = none := by
    intro q
    simp only [View.initial]
    rcases eq_or_ne q p with rfl | hne
    · simp
    · simp [hne, boot]
  refine ⟨fun q _ => hnone q, fun _ np _ => hnone np, ?_⟩
  intro q r hq
  rw [hnone] at hq
  cases hq

theorem initial_pids (ticks t page : Nat) (p : ProcPtr) : Pids (View.initial ticks t page p) := by
  have hfree : ∀ q, (View.initial ticks t page p).loc q ≠ .free → q = p := by
    intro q hq
    rw [initial_loc] at hq
    by_contra hne
    rw [if_neg hne] at hq
    exact hq rfl
  refine ⟨?_, fun q r hq hr _ => (hfree q hq).trans (hfree r hr).symm⟩
  intro q hq
  obtain rfl := hfree q hq
  simp [View.initial]

theorem ReachableBy.kin {ok : Kernel → Action → Prop} {s : Kernel} (h : ReachableBy maxPrio ok s) :
    ∃ A, Shows s A ∧ Inv maxPrio A ∧ Family A ∧ Kin A ∧ (A.nextpid ≤ 2 ^ 32 → Pids A) := by
  obtain ⟨ticks, t, page, p, A, hrun, hshow, hinv⟩ := h.shows (fun _ => True) fun _ _ _ _ _ _ => trivial
  obtain ⟨hf, hk, hp⟩ := hrun.kin (initial_inv ticks t page p) (initial_family ticks t page p)
    (initial_kin ticks t page p) fun _ => initial_pids ticks t page p
  exact ⟨A, hshow, hinv, hf, hk, hp⟩

theorem stateOf_ne_unused {l : StateList} (h : stateOf l ≠ .unused) : l ≠ .free :=
  fun hl => h (hl ▸ rfl)

/-- A CPU runs a process of its own, a slot that `fork` fills is filled by one process, and
as long as the pids have not wrapped, no two processes have the same one. -/
theorem reachable_exclusive {s : Kernel} (h : Reachable maxPrio s) :
    (∀ c p, s.cpu c = some p → (s.proc p).state = .running) ∧
    (∀ c c' p, s.cpu c = some p → s.cpu c' = some p → c = c') ∧
    (∀ p np, (s.task p).child = some np → (s.proc np).state = .embryo) ∧
    (∀ p p' np, (s.task p).child = some np → (s.task p').child = some np → p = p') ∧
    (s.nextpid ≤ 2 ^ 32 → ∀ p q, (s.proc p).state ≠ .unused → (s.proc q).state ≠ .unused →
      (s.proc p).pid = (s.proc q).pid → p = q) := by
  obtain ⟨A, ⟨V, hrep⟩, hinv, -, -, hpids⟩ := h.kin
  have hstate : ∀ p, (A.proc p).state = stateOf (A.loc p) := fun p => (hinv.procs p).state
  rw [hrep.proc, hrep.cpu, hrep.task, hrep.nextpid]
  refine ⟨fun c p hc => ?_, hinv.ctl.cpuInj, fun p np hp => ?_, hinv.ctl.childInj,
    fun hn p q hp hq => ?_⟩
  · rw [hstate, hinv.ctl.cpuRun c p hc]
    rfl
  · rw [hstate, hinv.ctl.child p np hp]
    rfl
  · rw [hstate] at hp hq
    exact (hpids hn).inj p q (stateOf_ne_unused hp) (stateOf_ne_unused hq)

end

/-- The first process and its child run on two CPUs. -/
theorem exclusive_pair : ∃ s, Reachable 0 s ∧ s.cpu 0 = some 0 ∧ s.cpu 1 = some 1 ∧
    (s.proc 0).pid ≠ (s.proc 1).pid := by
  obtain ⟨s, hreach, hfacts⟩ := exec_checked 0 [.scheduler 0 0, .allocproc 0,
    .kstack 0 (some 1), .copyuvm 0 true, .forkReady 0, .scheduler 1 0] (fun s : Kernel =>
      decide (s.cpu 0 = some 0 ∧ s.cpu 1 = some 1 ∧ s.nextpid ≤ 2 ^ 32)) (by decide +kernel)
  obtain ⟨h0, h1, hn⟩ := of_decide_eq_true hfacts
  obtain ⟨hstate, -, -, -, hpid⟩ := reachable_exclusive hreach
  refine ⟨s, hreach, h0, h1, fun he => absurd (hpid hn 0 1 ?_ ?_ he) (by decide)⟩
  · simp [hstate 0 0 h0]
  · simp [hstate 1 1 h1]

/-! ## What `wait` should do -/

/-- `p` is a child of `q`, in any state. -/
def Kernel.childOf (s : Kernel) (q p : ProcPtr) : Prop :=
  (s.proc p).state ≠ .unused ∧ (s.proc p).parent = some q

def Kernel.zombieOf (s : Kernel) (q p : ProcPtr) : Prop :=
  (s.proc p).state = .zombie ∧ (s.proc p).parent = some q

/-- What `wait` leaves of the zombie `z`: a free slot at the end of the free list. -/
def Reaped (s s' : Kernel) (z : ProcPtr) : Prop :=
  s' = { s with
    proc := update s.proc z { s.proc z with
      kstack := none, state := .unused, pid := 0, parent := none, name := "", killed := false }
    pLists := s'.pLists } ∧
  ∃ lists, Lists s.pLists lists ∧ Lists s'.pLists (shift lists z .zombie .free)

/-- `q` sleeps in `wait`, and nothing else has changed. -/
def Waits (s s' : Kernel) (q : ProcPtr) : Prop :=
  (s'.proc q).state = .sleeping ∧ (s'.proc q).chan = some (.proc q) ∧
    ∀ p, p ≠ q → s'.proc p = s.proc p

/-- A zombie child is freed and its pid returned.  Otherwise -1 is returned if there is no
child or the caller is killed, and else the caller sleeps. -/
inductive Answers (s : Kernel) (q : ProcPtr) : Option Int → Kernel → Prop where
  | reaps {z : ProcPtr} {s' : Kernel} : s.zombieOf q z → Reaped s s' z →
      Answers s q (some (s.proc z).pid) s'
  | fails : (∀ z, ¬ s.zombieOf q z) → (∀ p, ¬ s.childOf q p) ∨ (s.proc q).killed = true →
      Answers s q (some (-1)) s
  | sleeps {s' : Kernel} : (∀ z, ¬ s.zombieOf q z) → (∃ p, s.childOf q p) →
      (s.proc q).killed = false → Waits s s' q → Answers s q none s'

section

variable {maxPrio : Nat} {s : Kernel} {A : View} {V : StateList → List ProcPtr}

theorem reap_exact (hrep : Rep s A V) (hinv : Inv maxPrio A) {z : ProcPtr}
    (hz : A.loc z = .zombie) :
    wp (reap z) (fun r s' => r = ((s.proc z).pid : Int) ∧ Reaped s s' z) (fun _ => False) s := by
  have hst : (A.proc z).state = .zombie := by rw [(hinv.procs z).state, hz]; rfl
  simp only [reap, wp_bind, wp_get]
  refine wp_post (moveProc_spec hrep .free _ _ hz hst) ?_
  intro _ s' h'
  refine ⟨rfl, ?_, V, hrep.lists, h'.lists⟩
  rw [hrep.proc]
  exact hrep.frame h'

/-- A child that is not a zombie is on one of the lists that are scanned for it. -/
theorem childOf_iff (hrep : Rep s A V) (hinv : Inv maxPrio A) {q : ProcPtr}
    (hnone : ∀ z, ¬ s.zombieOf q z) :
    (∃ p, s.childOf q p) ↔
      (∃ p i, i < maxPrio + 1 ∧ A.loc p = .ready i ∧ (s.proc p).parent = some q) ∨
      (∃ p, A.loc p = .sleep ∧ (s.proc p).parent = some q) ∨
      (∃ p, A.loc p = .running ∧ (s.proc p).parent = some q) ∨
      (∃ p, A.loc p = .embryo ∧ (s.proc p).parent = some q) := by
  have hstate : ∀ p, (s.proc p).state = stateOf (A.loc p) := fun p => by
    rw [hrep.proc, (hinv.procs p).state]
  constructor
  · rintro ⟨p, hst, hpar⟩
    have hloc := hstate p
    cases hl : A.loc p with
    | free =>
      rw [hl] at hloc
      exact absurd hloc hst
    | zombie =>
      rw [hl] at hloc
      exact absurd ⟨hloc, hpar⟩ (hnone p)
    | ready i => exact Or.inl ⟨p, i, Nat.lt_succ_of_le ((hinv.procs p).ready i hl), hl, hpar⟩
    | sleep => exact Or.inr (Or.inl ⟨p, hl, hpar⟩)
    | running => exact Or.inr (Or.inr (Or.inl ⟨p, hl, hpar⟩))
    | embryo => exact Or.inr (Or.inr (Or.inr ⟨p, hl, hpar⟩))
  · have hmk : ∀ p l, A.loc p = l → stateOf l ≠ .unused → (s.proc p).parent = some q →
        ∃ p, s.childOf q p := by
      rintro p l rfl hl hpar
      exact ⟨p, by rwa [hstate], hpar⟩
    rintro (⟨p, i, -, hl, hpar⟩ | ⟨p, hl, hpar⟩ | ⟨p, hl, hpar⟩ | ⟨p, hl, hpar⟩)
    all_goals exact hmk p _ hl (by simp [stateOf]) hpar

theorem sleep_waits (hrep : Rep s A V) (hinv : Inv maxPrio A) {q : ProcPtr}
    (hq : A.loc q = .running) :
    wp (sleep maxPrio q (.proc q)) (fun _ s' => Waits s s' q) (fun _ => False) s := by
  refine wp_post (sleep_spec ⟨V, hrep⟩ (.proc q) hq (hinv.procs q)) ?_
  rintro _ s' ⟨V', hrep'⟩
  refine ⟨?_, ?_, ?_⟩
  · rw [hrep'.proc, View.move_sched_proc]
    simp
  · rw [hrep'.proc, View.move_sched_proc]
    simp
  · intro p hp
    rw [hrep'.proc, hrep.proc, View.move_sched_proc]
    simp [hp]

/-! ## Where a null pointer is followed -/

/-- Before a process without a parent there is a child of `q`, at which the scan ends. -/
def Kernel.Clear (s : Kernel) (q : ProcPtr) (ps : List ProcPtr) : Prop :=
  ∀ xs p ys, ps = xs ++ p :: ys → (s.proc p).parent = none → ∃ x ∈ xs, (s.proc x).parent = some q

/-- The lists that are scanned when there is no zombie. -/
def scanned (maxPrio : Nat) : List StateList :=
  (List.range (maxPrio + 1)).map .ready ++ [.sleep, .running, .embryo]

def Kernel.NullFree (maxPrio : Nat) (s : Kernel) (q : ProcPtr) : Prop :=
  (∃ z, s.zombieOf q z) ∨
    ∀ l ∈ scanned maxPrio, ∀ ps, Chain s.pLists.next (s.pLists.head l) ps → s.Clear q ps

theorem clear_cons {q p : ProcPtr} {ps : List ProcPtr} : s.Clear q (p :: ps) ↔
    (s.proc p).parent = some q ∨ (s.proc p).parent ≠ none ∧ s.Clear q ps := by
  constructor
  · intro h
    by_cases hp : (s.proc p).parent = some q
    · exact .inl hp
    refine .inr ⟨fun hnone => ?_, ?_⟩
    · obtain ⟨x, hx, -⟩ := h [] p ps rfl hnone
      cases hx
    · rintro xs p' ys rfl hnone
      obtain ⟨x, hx, hpar⟩ := h (p :: xs) p' ys rfl hnone
      rcases List.mem_cons.mp hx with rfl | hx
      · exact absurd hpar hp
      · exact ⟨x, hx, hpar⟩
  · rintro h (_ | ⟨x, xs⟩) p' ys he hnone
    · cases he
      rcases h with h | ⟨h, -⟩
      · rw [h] at hnone
        cases hnone
      · exact absurd hnone h
    · cases he
      rcases h with h | ⟨-, h⟩
      · exact ⟨p, List.mem_cons_self, h⟩
      · obtain ⟨x, hx, hpar⟩ := h xs p' ys rfl hnone
        exact ⟨x, List.mem_cons_of_mem _ hx, hpar⟩

/-- A scan finds a child, or there is none, or it comes to a null pointer. -/
theorem checkedNext_wp {q : ProcPtr}
    (hpid : ∀ p r, (s.proc p).parent = some r → ((s.proc r).pid = (s.proc q).pid ↔ r = q)) :
    ∀ (ps : List ProcPtr) (n : Nat), Chain s.pLists.next ps.head? ps → ps.length ≤ n →
    wp (checkedNext q n ps.head?) (fun r s' => s' = s ∧ s.Clear q ps ∧
        match r with
        | some p => p ∈ ps ∧ (s.proc p).parent = some q
        | none => ∀ p ∈ ps, (s.proc p).parent ≠ some q)
      (fun e => e = .nullDeref ∧ ¬ s.Clear q ps) s := by
  intro ps
  induction ps with
  | nil =>
    intro n _ _
    have hclear : s.Clear q [] := fun xs p ys he => by simp at he
    cases n <;> exact ⟨rfl, hclear, by simp⟩
  | cons p ps ih =>
    intro n hc hlen
    obtain ⟨n, rfl⟩ := Nat.exists_eq_succ_of_ne_zero (Nat.ne_zero_of_lt hlen)
    have hnext : s.pLists.next p = ps.head? := hc.2.head_eq
    rw [List.head?_cons, checkedNext, wp_bind, wp_get]
    cases hpar : (s.proc p).parent with
    | none =>
      refine ⟨rfl, fun hclear => ?_⟩
      rcases clear_cons.mp hclear with h | ⟨h, -⟩
      · rw [hpar] at h
        cases h
      · exact h hpar
    | some r =>
      dsimp only
      split
      · next he =>
          obtain rfl := (hpid p r hpar).mp he
          exact ⟨rfl, clear_cons.mpr (.inl hpar), List.mem_cons_self, hpar⟩
      · next hne =>
          have hq : (s.proc p).parent ≠ some q := by
            rw [hpar]
            rintro ⟨⟩
            exact hne rfl
          have hclear : s.Clear q (p :: ps) ↔ s.Clear q ps := by
            rw [clear_cons, or_iff_right hq, and_iff_right (by simp [hpar])]
          rw [hnext, hclear]
          refine wp_post (ih n (hnext ▸ hc.2) (Nat.le_of_succ_le_succ hlen)) ?_
          rintro (_ | x) t ⟨rfl, hcl, hx⟩
          · exact ⟨rfl, hcl, by simpa [hq] using hx⟩
          · exact ⟨rfl, hcl, List.mem_cons_of_mem p hx.1, hx.2⟩

theorem checkedOn_wp (hrep : Rep s A V) {q : ProcPtr}
    (hpid : ∀ p r, (s.proc p).parent = some r → ((s.proc r).pid = (s.proc q).pid ↔ r = q))
    (l : StateList) :
    wp (checkedOn q l) (fun r s' => s' = s ∧ s.Clear q (V l) ∧
        match r with
        | some p => A.loc p = l ∧ (s.proc p).parent = some q
        | none => ∀ p, A.loc p = l → (s.proc p).parent ≠ some q)
      (fun e => e = .nullDeref ∧ ¬ s.Clear q (V l)) s := by
  have hc := hrep.lists.chain l
  have hlen : (V l).length ≤ NPROC := by simpa using hc.nodup.length_le_card
  rw [checkedOn, wp_bind, wp_get, hrep.head_eq]
  rw [hrep.head_eq] at hc
  refine wp_post (checkedNext_wp hpid (V l) NPROC hc hlen) ?_
  simp only [hrep.mem]
  exact fun _ _ h => h

theorem checkedReady_wp (hrep : Rep s A V) {q : ProcPtr}
    (hpid : ∀ p r, (s.proc p).parent = some r → ((s.proc r).pid = (s.proc q).pid ↔ r = q)) :
    ∀ n i, wp (checkedReady q n i) (fun b s' => s' = s ∧
        (∀ j, i ≤ j → j < i + n → s.Clear q (V (.ready j))) ∧
        (b = true ↔ ∃ p j, i ≤ j ∧ j < i + n ∧ A.loc p = .ready j ∧ (s.proc p).parent = some q))
      (fun e => e = .nullDeref ∧ ∃ j, i ≤ j ∧ j < i + n ∧ ¬ s.Clear q (V (.ready j))) s := by
  intro n
  induction n with
  | zero =>
    refine fun i => ⟨rfl, fun j h₁ h₂ => absurd h₂ (by omega), nofun, ?_⟩
    rintro ⟨p, j, h₁, h₂, -⟩
    omega
  | succ n ih =>
    intro i
    rw [checkedReady]
    refine wp_seq (wp_mono (checkedOn_wp hrep hpid (.ready i)) (fun _ _ h => h) ?_) ?_
    · rintro e ⟨rfl, hnot⟩
      exact ⟨rfl, i, Nat.le_refl i, by omega, hnot⟩
    rintro here t ⟨rfl, hclear, hhere⟩
    refine wp_seq (wp_mono (ih (i + 1)) (fun _ _ h => h) ?_) ?_
    · rintro e ⟨rfl, j, h₁, h₂, hnot⟩
      exact ⟨rfl, j, by omega, by omega, hnot⟩
    rintro rest t ⟨rfl, hrest, hb⟩
    refine ⟨rfl, fun j h₁ h₂ => ?_, ?_⟩
    · rcases Nat.eq_or_lt_of_le h₁ with rfl | hlt
      · exact hclear
      · exact hrest j hlt (by omega)
    cases here with
    | some p => exact ⟨fun _ => ⟨p, i, Nat.le_refl i, by omega, hhere⟩, fun _ => rfl⟩
    | none =>
      rw [Option.isSome_none, Bool.false_or, hb]
      constructor
      · rintro ⟨p, j, h₁, h₂, hp⟩
        exact ⟨p, j, by omega, by omega, hp⟩
      · rintro ⟨p, j, h₁, h₂, hl, hpar⟩
        rcases Nat.eq_or_lt_of_le h₁ with rfl | hlt
        · exact absurd hpar (hhere p hl)
        · exact ⟨p, j, hlt, by omega, hl, hpar⟩

/-- The pid of a parent tells whether it is the caller. -/
theorem parent_pid_iff (hrep : Rep s A V) (hk : Kin A) (hp : Pids A) {q : ProcPtr}
    (hq : A.loc q = .running) (p r : ProcPtr) (hpar : (s.proc p).parent = some r) :
    (s.proc r).pid = (s.proc q).pid ↔ r = q := by
  refine ⟨fun he => ?_, fun he => by rw [he]⟩
  rw [hrep.proc] at he hpar
  exact hp.inj r q ((hk.alive p r hpar).born).1 (by rw [hq]; simp) he

theorem clear_zombie (hrep : Rep s A V) (hinv : Inv maxPrio A) (hf : Family A) (q : ProcPtr) :
    s.Clear q (V .zombie) := by
  intro xs p ys he hnone
  have hz := (hrep.mem .zombie p).mp (by rw [he]; simp)
  obtain ⟨r, hr, -⟩ := hf.parent p (by rw [hz]; exact ⟨by simp, by simp⟩)
    (hinv.ctl.zombie_ne_init hz)
  rw [hrep.proc, hr] at hnone
  cases hnone

theorem nullFree_iff (hrep : Rep s A V) {q : ProcPtr} (hnone : ∀ z, ¬ s.zombieOf q z) :
    s.NullFree maxPrio q ↔ (∀ j < maxPrio + 1, s.Clear q (V (.ready j))) ∧
      s.Clear q (V .sleep) ∧ s.Clear q (V .running) ∧ s.Clear q (V .embryo) := by
  have hV : ∀ l, (∀ ps, Chain s.pLists.next (s.pLists.head l) ps → s.Clear q ps) ↔
      s.Clear q (V l) := fun l => ⟨fun h => h _ (hrep.lists.chain l), fun h ps hps => by
    rwa [hps.unique (hrep.lists.chain l)]⟩
  simp [Kernel.NullFree, hnone, scanned, hV, or_imp, forall_and]

/-- `wait` comes to a null pointer exactly if `NullFree` fails, and otherwise answers as it
should. -/
theorem waitChecked_wp (hrep : Rep s A V) (hinv : Inv maxPrio A) (hf : Family A) (hk : Kin A)
    (hp : Pids A) {q : ProcPtr} (hq : A.loc q = .running) {havekids : Bool}
    (hkids : havekids = true → ∃ p, s.childOf q p) :
    wp (waitChecked maxPrio q havekids) (fun r s' => s.NullFree maxPrio q ∧ Answers s q r s')
      (fun e => e = .nullDeref ∧ ¬ s.NullFree maxPrio q) s := by
  have hpid := parent_pid_iff hrep hk hp hq
  have hstate : ∀ p, (s.proc p).state = stateOf (A.loc p) := fun p => by
    rw [hrep.proc, (hinv.procs p).state]
  unfold waitChecked
  refine wp_seq (wp_mono (checkedOn_wp hrep hpid .zombie) (fun _ _ h => h)
    fun e he => absurd (clear_zombie hrep hinv hf q) he.2) ?_
  rintro (_ | z) t ⟨rfl, -, hz⟩
  swap
  · have hzq : t.zombieOf q z := ⟨by rw [hstate, hz.1]; rfl, hz.2⟩
    refine wp_seq (wp_mono (reap_exact hrep hinv hz.1) (fun _ _ h => h) fun _ h => h.elim) ?_
    rintro r s' ⟨rfl, hs'⟩
    exact ⟨.inl ⟨z, hzq⟩, .reaps hzq hs'⟩
  have hnone : ∀ z, ¬ t.zombieOf q z := by
    rintro z ⟨hst, hpar⟩
    rw [hstate] at hst
    exact hz z (stateOf_eq_zombie hst) hpar
  have hiff : t.NullFree maxPrio q ↔ _ := nullFree_iff hrep hnone
  have hstep : ∀ l, (t.NullFree maxPrio q → t.Clear q (V l)) →
      wp (checkedOn q l) (fun r s' => s' = t ∧ t.Clear q (V l) ∧
          (r.isSome = true ↔ ∃ p, A.loc p = l ∧ (t.proc p).parent = some q))
        (fun e => e = .nullDeref ∧ ¬ t.NullFree maxPrio q) t := by
    intro l hl
    refine wp_mono (checkedOn_wp hrep hpid l) ?_ fun e he => ⟨he.1, fun hfree => he.2 (hl hfree)⟩
    rintro (_ | p) t' ⟨rfl, hclear, hr⟩
    · refine ⟨rfl, hclear, nofun, ?_⟩
      rintro ⟨p, hloc, hpar⟩
      exact absurd hpar (hr p hloc)
    · exact ⟨rfl, hclear, fun _ => ⟨p, hr⟩, fun _ => rfl⟩
  refine wp_seq (wp_mono (checkedReady_wp hrep hpid (maxPrio + 1) 0) (fun _ _ h => h) ?_) ?_
  · rintro e ⟨rfl, j, -, hj, hnot⟩
    exact ⟨rfl, fun hfree => hnot ((hiff.mp hfree).1 j (by omega))⟩
  rintro r t' ⟨rfl, hready, hr⟩
  refine wp_seq (hstep .sleep fun h => (hiff.mp h).2.1) ?_
  rintro sl t' ⟨rfl, hsleep, hsl⟩
  refine wp_seq (hstep .running fun h => (hiff.mp h).2.2.1) ?_
  rintro ru t' ⟨rfl, hrunning, hru⟩
  refine wp_seq (hstep .embryo fun h => (hiff.mp h).2.2.2) ?_
  rintro em t' ⟨rfl, hembryo, hem⟩
  have hfree : t'.NullFree maxPrio q :=
    hiff.mpr ⟨fun j hj => hready j (Nat.zero_le j) (by omega), hsleep, hrunning, hembryo⟩
  have hany : (havekids || r || sl.isSome || ru.isSome || em.isSome) = true ↔
      ∃ p, t'.childOf q p := by
    have hiff' := childOf_iff hrep hinv hnone
    simp only [Nat.zero_le, true_and, Nat.zero_add] at hr
    rw [← hr, ← hsl, ← hru, ← hem] at hiff'
    simp only [Bool.or_eq_true]
    refine ⟨?_, fun h => ?_⟩
    · rintro ((((h | h) | h) | h) | h)
      · exact hkids h
      all_goals exact hiff'.mpr (by simp [h])
    · rcases hiff'.mp h with h | h | h | h <;> simp [h]
  simp only [wp_bind, wp_get, wp_ite, wp_pure]
  generalize (havekids || r || sl.isSome || ru.isSome || em.isSome) = kids at hany
  refine ⟨fun hno => ⟨hfree, .fails hnone (.inl fun p hp => ?_)⟩,
    fun hkid => ⟨fun hkill => ⟨hfree, .fails hnone (.inr hkill)⟩, fun hkill => ?_⟩⟩
  · rw [hany.mpr ⟨p, hp⟩] at hno
    cases hno
  · exact wp_mono (sleep_waits hrep hinv hq) (fun _ _ hw => ⟨hfree, .sleeps hnone
      (hany.mp (by simpa using hkid)) (by simpa using hkill) hw⟩) fun _ h => h.elim

/-! ## Where none is followed -/

theorem checkedNext_ok {low n : Nat} {q : ProcPtr} {h : Option ProcPtr}
    {x : Option ProcPtr × Kernel} (hx : checkedNext q n h s = .ok x) :
    findNext (isChild low q) n h s = .ok x ∧ x.2 = s := by
  induction n generalizing h with
  | zero =>
    cases h with
    | none =>
      cases hx
      exact ⟨rfl, rfl⟩
    | some p => cases hx
  | succ n ih =>
    cases h with
    | none =>
      cases hx
      exact ⟨rfl, rfl⟩
    | some p =>
      rw [checkedNext, get_bind_apply] at hx
      rw [findNext, get_bind_apply]
      cases hpar : (s.proc p).parent with
      | none =>
        rw [hpar] at hx
        cases hx
      | some r =>
        rw [hpar] at hx
        simp only [isChild, parentPid, hpar, beq_iff_eq]
        dsimp only at hx
        split at hx
        · next he =>
            cases hx
            rw [if_pos he]
            exact ⟨rfl, rfl⟩
        · next he =>
            rw [if_neg he]
            exact ih hx

theorem checkedOn_ok (low : Nat) {q : ProcPtr} {l : StateList} {r : Option ProcPtr} {s' : Kernel}
    (hx : checkedOn q l s = .ok (r, s')) :
    findOn l (isChild low q) s = .ok (r, s) ∧ s' = s := by
  obtain ⟨hfind, rfl⟩ : findOn l (isChild low q) s = .ok (r, s') ∧ s' = s := checkedNext_ok hx
  exact ⟨hfind, rfl⟩

theorem checkedReady_ok (low : Nat) {q : ProcPtr} : ∀ {n i : Nat} {b : Bool} {s' : Kernel},
    checkedReady q n i s = .ok (b, s') →
    ∃ r, findReady (isChild low q) n i s = .ok (r, s) ∧ r.isSome = b ∧ s' = s := by
  intro n
  induction n with
  | zero =>
    intro i b s' hx
    cases hx
    exact ⟨none, rfl, rfl, rfl⟩
  | succ n ih =>
    intro i b s' hx
    obtain ⟨here, s₁, hhere, hx₁⟩ := bind_eq_ok.mp hx
    obtain ⟨hfind, hs₁⟩ := checkedOn_ok low hhere
    rw [hs₁] at hx₁
    obtain ⟨rest, s₂, hrest, hx₂⟩ := bind_eq_ok.mp hx₁
    obtain ⟨r, hr, hsome, hs₂⟩ := ih hrest
    cases hx₂
    rw [findReady, bind_of_ok hfind]
    cases here with
    | some p => exact ⟨some (i, p), rfl, rfl, hs₂⟩
    | none => exact ⟨r, hr, by simpa using hsome, hs₂⟩

/-- Where no null pointer is followed, the word there does not matter. -/
theorem waitChecked_ok (low : Nat) {q : ProcPtr} {havekids : Bool} {x : Option Int × Kernel}
    (hx : waitChecked maxPrio q havekids s = .ok x) :
    waitLoop maxPrio low q havekids s = .ok x := by
  obtain ⟨z, s₁, hz, hx₁⟩ := bind_eq_ok.mp hx
  obtain ⟨hfind, hs₁⟩ := checkedOn_ok low hz
  rw [hs₁] at hx₁
  rw [waitLoop, bind_of_ok hfind]
  cases z with
  | some p => exact hx₁
  | none =>
    obtain ⟨b, s₂, hr, hx₂⟩ := bind_eq_ok.mp hx₁
    obtain ⟨r, hready, rfl, hs₂⟩ := checkedReady_ok low hr
    rw [hs₂] at hx₂
    obtain ⟨sl, s₃, hsl, hx₃⟩ := bind_eq_ok.mp hx₂
    obtain ⟨hsl, hs₃⟩ := checkedOn_ok low hsl
    rw [hs₃] at hx₃
    obtain ⟨ru, s₄, hru, hx₄⟩ := bind_eq_ok.mp hx₃
    obtain ⟨hru, hs₄⟩ := checkedOn_ok low hru
    rw [hs₄] at hx₄
    obtain ⟨em, s₅, hem, hx₅⟩ := bind_eq_ok.mp hx₄
    obtain ⟨hem, hs₅⟩ := checkedOn_ok low hem
    rw [hs₅] at hx₅
    dsimp only
    rw [bind_of_ok hready, childOn, bind_assoc, bind_of_ok hsl, pure_bind, childOn, bind_assoc,
      bind_of_ok hru, pure_bind, childOn, bind_assoc, bind_of_ok hem, pure_bind]
    exact hx₅

/-- As long as no pid has been handed out twice, `wait` follows no null pointer and answers as
it should exactly if `NullFree`. -/
theorem wait_exact_iff {s : Kernel} (h : Reachable maxPrio s) {c : Nat} {q : ProcPtr}
    (hc : s.cpu c = some q) {havekids : Bool} (hkids : havekids = true → ∃ p, s.childOf q p)
    (low : Nat) (hnext : s.nextpid ≤ 2 ^ 31) :
    waitChecked maxPrio q havekids s ≠ .error .nullDeref ∧
      (∃ r s', waitLoop maxPrio low q havekids s = .ok (r, s') ∧ Answers s q r s') ↔
      s.NullFree maxPrio q := by
  obtain ⟨A, ⟨V, hrep⟩, hinv, hf, hk, hpids⟩ := h.kin
  have hview := hrep.view
  have hq : A.loc q = .running := by
    refine hinv.ctl.cpuRun c q ?_
    rw [← hview]
    exact hc
  have hp : Pids A := by
    refine hpids ?_
    rw [← hview]
    exact hnext.trans (by decide)
  have hwp := waitChecked_wp hrep hinv hf hk hp hq hkids
  unfold wp at hwp
  cases hrun : waitChecked maxPrio q havekids s with
  | error e =>
    rw [hrun] at hwp
    simp [hwp.1, hwp.2]
  | ok x =>
    rw [hrun] at hwp
    exact ⟨fun _ => hwp.1, fun _ => ⟨nofun, x.1, x.2, waitChecked_ok low hrun, hwp.2⟩⟩

/-! ## Runs -/

/-- The first process forks.  Its child forks on CPU 1, the grandchild goes to sleep, and then
the first process waits: on the sleep list, a process without a parent comes after a child. -/
def childSleeps : List Action :=
  let fork (c : Nat) : List Action :=
    [.allocproc c, .kstack c (some 1), .copyuvm c true, .forkReady c]
  [.scheduler 0 0] ++ fork 0 ++ [.scheduler 1 0] ++ fork 1 ++
    [.scheduler 2 0, .sleep 2 5, .wait 0 0]

/-- The child of the first process waits for its own, whatever is at the null pointer. -/
theorem child_waits_exact : ∃ s s', Reachable 0 s ∧ (s.proc 0).parent = none ∧
    (s.proc 0).state = .sleeping ∧ (∀ z, ¬ s.zombieOf 1 z) ∧ s.NullFree 0 1 ∧
    waitChecked 0 1 false s ≠ .error .nullDeref ∧
    waitLoop 0 (s.proc 1).pid 1 false s = .ok (none, s') ∧ Waits s s' 1 := by
  obtain ⟨s, hreach, hfacts⟩ := exec_checked 0 childSleeps (fun s : Kernel =>
    decide (s.cpu 1 = some 1 ∧ s.nextpid ≤ 2 ^ 31 ∧ (s.proc 1).killed = false ∧
      ((s.proc 0).parent = none ∧ (s.proc 1).parent = some 0 ∧ (s.proc 2).parent = some 1) ∧
      ((s.proc 0).state = .sleeping ∧ (s.proc 2).state = .sleeping ∧
        ∀ z, (s.proc z).state ≠ .zombie) ∧
      (s.pLists.head (.ready 0) = none ∧ s.pLists.head .embryo = none) ∧
      (s.pLists.head .sleep = some 2 ∧ s.pLists.next 2 = some 0 ∧ s.pLists.next 0 = none) ∧
      (s.pLists.head .running = some 1 ∧ s.pLists.next 1 = none))) (by decide +kernel)
  obtain ⟨hc, hn, hkill, ⟨hpar, hpar₁, hpar₂⟩, ⟨hst, hst₂, hzombie⟩, ⟨hready, hembryo⟩, hsleep,
    hrunning⟩ := of_decide_eq_true hfacts
  have hnone : ∀ z, ¬ s.zombieOf 1 z := fun z hz => hzombie z hz.1
  have hempty : s.Clear 1 [] := fun xs p ys he => by simp at he
  have hfree : s.NullFree 0 1 := by
    refine .inr fun l hl ps hps => ?_
    simp only [scanned, Nat.zero_add, List.range_one, List.map_cons, List.map_nil,
      List.singleton_append, List.mem_cons, List.not_mem_nil, or_false] at hl
    rcases hl with rfl | rfl | rfl | rfl
    · rw [hready, Chain.none_iff] at hps
      rwa [hps]
    · rw [hps.unique (show Chain _ _ [2, 0] from ⟨hsleep.1, hsleep.2.1, hsleep.2.2⟩)]
      exact clear_cons.mpr (.inl hpar₂)
    · rw [hps.unique (show Chain _ _ [1] from hrunning)]
      exact clear_cons.mpr (.inr ⟨by simp [hpar₁], hempty⟩)
    · rw [hembryo, Chain.none_iff] at hps
      rwa [hps]
  obtain ⟨hsafe, r, s', hrun, hans⟩ :=
    (wait_exact_iff hreach hc (show false = true → _ from nofun) (s.proc 1).pid hn).mpr hfree
  cases hans with
  | reaps hz _ => exact absurd hz (hnone _)
  | fails _ hwhy =>
    rcases hwhy with hno | hk
    · exact absurd ⟨by simp [hst₂], hpar₂⟩ (hno 2)
    · rw [hkill] at hk
      cases hk
  | sleeps _ _ _ hw => exact ⟨s, s', hreach, hpar, hst, hnone, hfree, hsafe, hrun, hw⟩

/-- The scan of `wait` for a child comes to a process without a parent. -/
def followsNull (s : Kernel) : Bool :=
  match waitChecked 0 0 false s with
  | .error e => e == .nullDeref
  | .ok _ => false

theorem followsNull_spec {s : Kernel} (h : followsNull s = true) :
    waitChecked 0 0 false s = .error .nullDeref := by
  unfold followsNull at h
  split at h
  · next e he => rw [he, eq_of_beq h]
  · cases h

/-- The first process calls `wait` without a child, reads through its own null parent, and
when it finds a 1 there falls asleep for ever. -/
theorem wait_follows_null : ∃ s s', Reachable 0 s ∧ s.cpu 0 = some 0 ∧
    (∀ p, ¬ s.childOf 0 p) ∧ waitChecked 0 0 false s = .error .nullDeref ∧
    waitLoop 0 1 0 false s = .ok (none, s') ∧ (s'.proc 0).state = .sleeping := by
  obtain ⟨s, hreach, hfacts⟩ := exec_checked 0 [.scheduler 0 0] (fun s : Kernel =>
    decide (s.cpu 0 = some 0 ∧ ∀ p, (s.proc p).parent = none) && followsNull s &&
      passes (fun r : _ × Kernel => r.1 == none && (r.2.proc 0).state == .sleeping)
        (some (waitLoop 0 1 0 false s))) (by decide +kernel)
  simp only [Bool.and_eq_true] at hfacts
  obtain ⟨⟨hstart, hnull⟩, hsleep⟩ := hfacts
  obtain ⟨hc, hpar⟩ := of_decide_eq_true hstart
  obtain ⟨⟨r, s'⟩, hr, hsleep⟩ := passes_iff.mp hsleep
  simp only [Bool.and_eq_true, beq_iff_eq] at hsleep
  obtain ⟨rfl, hst⟩ := hsleep
  refine ⟨s, s', hreach, hc, ?_, followsNull_spec hnull, Option.some.inj hr, hst⟩
  rintro p ⟨-, hp⟩
  rw [hpar p] at hp
  cases hp

end

end Xv6Pdx.Ptable
