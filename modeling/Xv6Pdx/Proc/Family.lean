/-
# `Proc.Family` — no orphan and no lost zombie

`Family` is the invariant of the machine about parents: a process that runs
or has run has a parent that is alive, the child of a `fork` that is about to
end has the caller for its parent, and nobody sleeps in `wait` with a zombie
among its children.

Nothing here depends on the process ids being different.  `wait` finds its
children by the pid of their parent, so it may find more of them when pids
are reused, but it misses none.
-/
import Xv6Pdx.Proc.Refine

namespace Xv6Pdx.Ptable

open Function (update update_self update_of_ne update_eq_self)

def born (l : StateList) : Prop := l ≠ .free ∧ l ≠ .embryo

/-- Parents are alive, and no parent sleeps through the end of a child. -/
structure Family (A : View) : Prop where
  parent : ∀ p, born (A.loc p) → A.initproc ≠ some p →
    ∃ r, (A.proc p).parent = some r ∧ alive (A.loc r)
  copied : ∀ p np, A.task p = .copied np → (A.proc np).parent = some p
  waiting : ∀ r q, A.loc r = .sleep → (A.proc r).chan = some (.proc r) →
    A.loc q = .zombie → (A.proc q).parent ≠ some r

section

variable {maxPrio : Nat} {hit : Proc → Prop} {A A' : View}

theorem alive.born {l : StateList} (h : alive l) : born l := by
  rcases h with rfl | rfl | ⟨i, rfl⟩ <;> exact ⟨by simp, by simp⟩

theorem Shuffled.among {l l' : StateList} (h : Shuffled l l') :
    l' = l ∨ Ptable.alive l ∧ Ptable.alive l' := by
  rcases h with h | ⟨h1, h2⟩
  · exact Or.inl h
  · refine Or.inr ⟨?_, Or.inr (Or.inr h2)⟩
    rcases h1 with h1 | h1
    · exact Or.inl h1
    · exact Or.inr (Or.inr h1)

theorem Shuffled.asleep {l l' : StateList} (h : Shuffled l l') (hs : l' = .sleep) : l = .sleep := by
  rcases h with h | ⟨_, k, h⟩
  · exact h.symm.trans hs
  · exact absurd (h.symm.trans hs) (by simp)

/-- Transitions that move processes only among the live lists and keep their
parents; whoever falls asleep in `wait` has no zombie child. -/
theorem Family.among (h : Family A) (hinit : A'.initproc = A.initproc) (htask : A'.task = A.task)
    (hloc : ∀ p, A'.loc p = A.loc p ∨ alive (A.loc p) ∧ alive (A'.loc p))
    (hpar : ∀ p, (A'.proc p).parent = (A.proc p).parent)
    (hwait : ∀ r, A'.loc r = .sleep → (A'.proc r).chan = some (.proc r) →
      (A.loc r = .sleep ∧ (A.proc r).chan = some (.proc r)) ∨
        ∀ q, A.loc q = .zombie → (A.proc q).parent ≠ some r) : Family A' := by
  have halive : ∀ p, alive (A.loc p) → alive (A'.loc p) := by
    intro p hp
    rcases hloc p with h1 | ⟨_, h1⟩
    · rwa [h1]
    · exact h1
  refine ⟨?_, ?_, ?_⟩
  · intro p hp hi
    have hp' : born (A.loc p) := by
      rcases hloc p with h1 | ⟨h1, _⟩
      · rwa [← h1]
      · exact h1.born
    obtain ⟨r, hr, hlive⟩ := h.parent p hp' (hinit ▸ hi)
    exact ⟨r, (hpar p).trans hr, halive r hlive⟩
  · intro p np hp
    rw [htask] at hp
    exact (hpar np).trans (h.copied p np hp)
  · intro r q hr hc hq
    have hq' : A.loc q = .zombie := by
      rcases hloc q with h1 | ⟨_, h1⟩
      · exact h1 ▸ hq
      · rw [hq] at h1
        exact absurd h1 not_alive_zombie
    rw [hpar]
    rcases hwait r hr hc with ⟨h1, h2⟩ | h1
    · exact h.waiting r q h1 h2 hq'
    · exact h1 q hq'

/-- Transitions of a process `x` that is not alive: it changes its place and
may get a live parent. -/
theorem Family.relocate (h : Family A) {me x : ProcPtr} {l : StateList} {t : Task}
    (hinit : A'.initproc = A.initproc) (hx : ¬ alive (A.loc x))
    (hloc : A'.loc = update A.loc x l) (hs : l ≠ .sleep) (hz : l ≠ .zombie)
    (hproc : ∀ q, q ≠ x → A'.proc q = A.proc q)
    (hborn : born l → ∃ r, (A'.proc x).parent = some r ∧ alive (A.loc r))
    (htask : A'.task = update A.task me t)
    (hfree : ∀ p, p ≠ me → (A.task p).child ≠ some x)
    (ht : ∀ np, t = .copied np → (A'.proc np).parent = some me) : Family A' := by
  have hother : ∀ q, q ≠ x → A'.loc q = A.loc q := fun q hq => by
    rw [hloc, update_of_ne hq]
  have hself : A'.loc x = l := by rw [hloc, update_self]
  have halive : ∀ r, alive (A.loc r) → alive (A'.loc r) := by
    intro r hr
    have hrx : r ≠ x := fun he => hx (he ▸ hr)
    rwa [hother r hrx]
  refine ⟨?_, ?_, ?_⟩
  · intro p hp hi
    by_cases hpx : p = x
    · subst hpx
      rw [hself] at hp
      obtain ⟨r, hr, hlive⟩ := hborn hp
      exact ⟨r, hr, halive r hlive⟩
    · rw [hother p hpx] at hp
      obtain ⟨r, hr, hlive⟩ := h.parent p hp (hinit ▸ hi)
      exact ⟨r, by rw [hproc p hpx]; exact hr, halive r hlive⟩
  · intro p np hp
    rw [htask] at hp
    by_cases hpm : p = me
    · subst hpm
      rw [update_self] at hp
      exact ht np hp
    · rw [update_of_ne hpm] at hp
      have hnp : np ≠ x := fun he => hfree p hpm (by rw [hp, ← he]; rfl)
      rw [hproc np hnp]
      exact h.copied p np hp
  · intro r q hr hc hq
    have hrx : r ≠ x := fun he => hs (by rw [← hself, ← he]; exact hr)
    have hqx : q ≠ x := fun he => hz (by rw [← hself, ← he]; exact hq)
    rw [hproc r hrx] at hc
    rw [hproc q hqx]
    exact h.waiting r q ((hother r hrx).symm.trans hr) hc ((hother q hqx).symm.trans hq)

theorem Family.reparent (h : Family A) (hctl : Ctl A) {me : ProcPtr} {ls : List StateList}
    (ht : A.task me = .none) (hls : .zombie ∉ ls) : Family (A.reparent me ls) := by
  obtain ⟨i, hi, hlive, _⟩ := hctl.init
  refine ⟨?_, ?_, ?_⟩
  · intro p hp hinit
    rw [reparent_loc] at hp ⊢
    rw [reparent_parent]
    split
    · exact ⟨i, hi, hlive⟩
    · exact h.parent p hp hinit
  · intro p np hp
    have hpar := h.copied p np hp
    rw [reparent_parent, if_neg]
    · exact hpar
    · rintro ⟨_, hme⟩
      have hpm : p = me := Option.some.inj (hpar.symm.trans hme)
      rw [hpm] at hp
      exact absurd (ht.symm.trans hp) (by simp)
  · intro r q hr hc hq
    rw [reparent_loc] at hr hq
    rw [reparent_chan] at hc
    rw [reparent_parent, if_neg]
    · exact h.waiting r q hr hc hq
    · rintro ⟨hmem, _⟩
      exact hls (hq ▸ hmem)

/-- A zombie that goes to the first process, which is awake afterwards. -/
theorem Family.adopt (h : Family A) (hctl : Ctl A) {q : ProcPtr} (hq : A.loc q = .zombie) :
    Family (A.adopt q) := by
  obtain ⟨i, hi, hlive, _⟩ := hctl.init
  have hloc : ∀ p, (A.adopt q).loc p = A.loc p ∨ alive (A.loc p) ∧ alive ((A.adopt q).loc p) :=
    fun p => (wake_shuffled (A.assign q fun r => { r with parent := A.initproc }) _ p).among
  have halive : ∀ p, alive (A.loc p) → alive ((A.adopt q).loc p) := by
    intro p hp
    rcases hloc p with h1 | ⟨_, h1⟩
    · rwa [h1]
    · exact h1
  refine ⟨?_, ?_, ?_⟩
  · intro p hp hinit
    have hp' : born (A.loc p) := by
      rcases hloc p with h1 | ⟨h1, _⟩
      · rwa [← h1]
      · exact h1.born
    rw [adopt_parent]
    split
    · exact ⟨i, hi, halive i hlive⟩
    · obtain ⟨r, hr, hrlive⟩ := h.parent p hp' hinit
      exact ⟨r, hr, halive r hrlive⟩
  · intro p np hp
    have hnp : np ≠ q := by
      intro he
      have hemb := hctl.child p np (by rw [show A.task p = .copied np from hp]; rfl)
      rw [he, hq] at hemb
      cases hemb
    rw [adopt_parent, if_neg hnp]
    exact h.copied p np hp
  · intro r z hr hc hz
    rw [adopt_chan] at hc
    rw [adopt_loc] at hr hz
    split at hr
    · cases hr
    · next hno =>
        split at hz
        · cases hz
        · rw [adopt_parent]
          split
          · rw [hi]
            intro he
            have hir : i = r := Option.some.inj he
            exact hno ⟨hr, by rw [hc, hi, hir]; rfl⟩
          · exact h.waiting r z hr hc hz

/-- The end of a process that has no child left and whose parent is not
asleep in `wait`. -/
theorem Family.exit (h : Family A) (hctl : Ctl A) {c : Nat} {p : ProcPtr}
    (hc : A.cpu c = some p) (ht : A.task p = .none) (hinit : A.initproc ≠ some p)
    (hkids : ∀ q, A.loc q ≠ .free → (A.proc q).parent ≠ some p)
    (hpar : ∀ r, (A.proc p).parent = some r →
      ¬ (A.loc r = .sleep ∧ (A.proc r).chan = some (.proc r))) :
    Family (A.exit maxPrio c p) := by
  have hrun := hctl.cpuRun c p hc
  have hloc : (A.exit maxPrio c p).loc = update A.loc p .zombie := by
    rw [View.exit, View.leave, A.move_sched_loc, if_neg (by simp)]
  have hother : ∀ q, q ≠ p → (A.exit maxPrio c p).loc q = A.loc q := fun q hq => by
    rw [hloc, update_of_ne hq]
  have hproc : (A.exit maxPrio c p).proc = update A.proc p
      (settle maxPrio A.ticks { A.proc p with state := .zombie }) := A.move_sched_proc _ _ _ _
  have hparent : ∀ q, ((A.exit maxPrio c p).proc q).parent = (A.proc q).parent := by
    intro q
    rw [hproc]
    exact update_parent (by rw [settle_parent]) q
  have hchan : ∀ q, ((A.exit maxPrio c p).proc q).chan = (A.proc q).chan := by
    intro q
    rw [hproc]
    by_cases hq : q = p
    · subst hq
      rw [update_self, settle_chan]
    · rw [update_of_ne hq]
  have hborn : ∀ q, born ((A.exit maxPrio c p).loc q) → born (A.loc q) := by
    intro q hq
    by_cases hqp : q = p
    · subst hqp
      exact alive.born (Or.inr (Or.inl hrun))
    · rwa [hother q hqp] at hq
  refine ⟨?_, ?_, ?_⟩
  · intro q hq hi
    obtain ⟨r, hr, hlive⟩ := h.parent q (hborn q hq) hi
    have hrp : r ≠ p := fun he => hkids q (hborn q hq).1 (he ▸ hr)
    exact ⟨r, (hparent q).trans hr, by rwa [hother r hrp]⟩
  · intro q np hq
    exact (hparent np).trans (h.copied q np hq)
  · intro r q hr hcr hq
    have hrp : r ≠ p := by
      intro he
      rw [he, hloc, update_self] at hr
      cases hr
    rw [hother r hrp] at hr
    rw [hchan] at hcr
    rw [hparent]
    by_cases hqp : q = p
    · subst hqp
      exact fun he => hpar r he ⟨hr, hcr⟩
    · rw [hother q hqp] at hq
      exact h.waiting r q hr hcr hq

/-- One process is assigned and stays where it is or alive. -/
theorem Family.assign (h : Family A) {p : ProcPtr} {q : Proc} {l : StateList}
    (hinit : A'.initproc = A.initproc) (htask : A'.task = A.task)
    (hproc : A'.proc = update A.proc p q) (hloc : A'.loc = update A.loc p l)
    (hl : l = A.loc p ∨ alive (A.loc p) ∧ alive l) (hpar : q.parent = (A.proc p).parent)
    (hwait : l = .sleep → q.chan = some (.proc p) →
      (A.loc p = .sleep ∧ (A.proc p).chan = some (.proc p)) ∨
        ∀ z, A.loc z = .zombie → (A.proc z).parent ≠ some p) : Family A' := by
  refine h.among hinit htask ?_ ?_ ?_
  · intro r
    rw [hloc]
    by_cases hr : r = p
    · subst hr
      rwa [update_self]
    · rw [update_of_ne hr]
      exact Or.inl rfl
  · intro r
    rw [hproc]
    exact update_parent hpar r
  · intro r hr hc
    rw [hloc] at hr
    rw [hproc] at hc
    by_cases hrp : r = p
    · subst hrp
      rw [update_self] at hr hc
      exact hwait hr hc
    · rw [update_of_ne hrp] at hr hc
      exact Or.inl ⟨hr, hc⟩

theorem Family.shuffle (h : Family A) (hinit : A'.initproc = A.initproc)
    (htask : A'.task = A.task) (hloc : ∀ p, Shuffled (A.loc p) (A'.loc p))
    (hpar : ∀ p, (A'.proc p).parent = (A.proc p).parent)
    (hchan : ∀ p, (A'.proc p).chan = (A.proc p).chan) : Family A' :=
  h.among hinit htask (fun p => (hloc p).among) hpar fun r hr hc =>
    Or.inl ⟨(hloc r).asleep hr, (hchan r).symm.trans hc⟩

theorem Trans.family (hinv : Inv maxPrio A) (h : Family A) (ht : Trans maxPrio hit A A') :
    Family A' := by
  have hctl := hinv.ctl
  cases ht with
  | tick =>
    exact h.shuffle rfl rfl (fun _ => Or.inl rfl) (fun _ => rfl) (fun _ => rfl)
  | wake chan =>
    exact h.shuffle rfl rfl (wake_shuffled A chan) (wake_parent A chan) (wake_chan A chan)
  | killMark p _ =>
    exact h.assign rfl rfl rfl (update_eq_self p A.loc).symm (Or.inl rfl) rfl
      fun h1 h2 => Or.inl ⟨h1, h2⟩
  | killWake p hp _ =>
    exact h.assign rfl rfl rfl rfl (Or.inr ⟨Or.inl hp, Or.inr (Or.inr ⟨0, rfl⟩)⟩) rfl
      fun hs => (by cases hs)
  | yield c p hc =>
    refine h.assign rfl rfl (A.move_sched_proc _ _ _ _) (A.move_sched_loc _ _ _ _) ?_
      (settle_parent _) ?_
    · rw [if_pos rfl]
      exact Or.inr ⟨Or.inr (Or.inl (hctl.cpuRun c p hc)), Or.inr (Or.inr ⟨_, rfl⟩)⟩
    · intro hs
      rw [if_pos rfl] at hs
      cases hs
  | sleep c p a hc _ =>
    refine h.assign rfl rfl (A.move_sched_proc _ _ _ _) (A.move_sched_loc _ _ _ _) ?_
      (settle_parent _) ?_
    · rw [if_neg (by simp)]
      exact Or.inr ⟨Or.inr (Or.inl (hctl.cpuRun c p hc)), Or.inl rfl⟩
    · intro _ hchan
      rw [settle_chan] at hchan
      cases hchan
  | waitSleep c p low hc _ hnone =>
    refine h.assign rfl rfl (A.move_sched_proc _ _ _ _) (A.move_sched_loc _ _ _ _) ?_
      (settle_parent _) ?_
    · rw [if_neg (by simp)]
      exact Or.inr ⟨Or.inr (Or.inl (hctl.cpuRun c p hc)), Or.inl rfl⟩
    · intro _ _
      refine Or.inr ?_
      intro q hq hpar
      exact hnone q hq (by rw [View.parentPid, hpar])
  | reap c p q low hc hq _ =>
    have hne := hctl.not_child (x := q) (by simp [hq])
    refine h.relocate (t := A.task p) rfl (by rw [hq]; exact not_alive_zombie) rfl (by simp)
      (by simp) (fun r hr => update_of_ne hr _ _) (fun hb => absurd rfl hb.1)
      (update_eq_self p A.task).symm (fun r _ => hne r) ?_
    intro np hnp
    have hnq : np ≠ q := fun he => hne p (by rw [hnp, ← he]; rfl)
    show (update A.proc q _ np).parent = _
    rw [update_of_ne hnq]
    exact h.copied p np hnp
  | reparent me ls ht hls => exact h.reparent hctl ht hls
  | adopt q hq => exact h.adopt hctl hq
  | exit c p hc ht hinit hkids hpar => exact h.exit hctl hc ht hinit hkids hpar
  | alloc c p np hc ht hnp =>
    exact h.relocate rfl (by rw [hnp]; exact not_alive_free) rfl (by simp) (by simp)
      (fun r hr => update_of_ne hr _ _) (fun hb => absurd rfl hb.2) rfl
      (fun r _ => hctl.not_child (by simp [hnp]) r) fun _ hcop => (by cases hcop)
  | abandon c p np hc ht =>
    have hch : (A.task p).child = some np := by
      rcases ht with ht | ht <;> rw [ht] <;> rfl
    exact h.relocate rfl (by rw [hctl.child p np hch]; exact not_alive_embryo) rfl (by simp)
      (by simp) (fun r hr => update_of_ne hr _ _) (fun hb => absurd rfl hb.1) rfl
      (hctl.child_ne hch) fun _ hcop => (by cases hcop)
  | stack c p np page hc ht =>
    have hch : (A.task p).child = some np := by rw [ht]; rfl
    have hnp := hctl.child p np hch
    exact h.relocate (l := .embryo) rfl (by rw [hnp]; exact not_alive_embryo)
      (by rw [← hnp, update_eq_self]; rfl) (by simp) (by simp)
      (fun r hr => update_of_ne hr _ _) (fun hb => absurd rfl hb.2) rfl
      (hctl.child_ne hch) fun _ hcop => (by cases hcop)
  | copy c p np hc ht =>
    have hch : (A.task p).child = some np := by rw [ht]; rfl
    have hnp := hctl.child p np hch
    refine h.relocate (l := .embryo) rfl (by rw [hnp]; exact not_alive_embryo)
      (by rw [← hnp, update_eq_self]; rfl) (by simp) (by simp)
      (fun r hr => update_of_ne hr _ _) (fun hb => absurd rfl hb.2) rfl
      (hctl.child_ne hch) ?_
    intro np' hcop
    cases hcop
    show (update A.proc np _ np).parent = _
    rw [update_self]
  | forkReady c p np hc ht =>
    have hch : (A.task p).child = some np := by rw [ht]; rfl
    refine h.relocate rfl (by rw [hctl.child p np hch]; exact not_alive_embryo) rfl (by simp)
      (by simp) (fun r hr => update_of_ne hr _ _) ?_ rfl
      (hctl.child_ne hch) fun _ hcop => (by cases hcop)
    intro _
    refine ⟨p, ?_, Or.inr (Or.inl (hctl.cpuRun c p hc))⟩
    show (update A.proc np _ np).parent = _
    rw [update_self]
    exact h.copied p np ht
  | promote =>
    exact h.shuffle rfl rfl (promote_shuffled A) (promote_parent A) (promote_chan A)
  | dispatch c p j hc hp _ =>
    exact h.assign rfl rfl rfl rfl
      (Or.inr ⟨Or.inr (Or.inr ⟨j, hp⟩), Or.inr (Or.inl rfl)⟩) rfl fun hs => (by cases hs)
  | clearChan c p hc =>
    exact h.assign rfl rfl rfl (update_eq_self p A.loc).symm (Or.inl rfl) rfl
      fun _ h2 => (by cases h2)

theorem Run.family (hinv : Inv maxPrio A) (h : Family A) (hr : Run maxPrio hit A A') :
    Family A' := by
  induction hr with
  | refl => exact h
  | tail hr ht ih => exact ht.family (Run.inv hinv hr) ih

theorem initial_family (ticks t page : Nat) (p : ProcPtr) :
    Family (View.initial ticks t page p) := by
  refine ⟨?_, ?_, ?_⟩
  · intro q hq hi
    rw [initial_loc, if_neg fun he => hi (by rw [he]; rfl)] at hq
    exact absurd rfl hq.1
  · intro q np hq
    cases hq
  · intro r q _ _ hq
    rw [initial_loc] at hq
    split at hq <;> cases hq

theorem stateOf_eq_zombie {l : StateList} (h : stateOf l = .zombie) : l = .zombie := by
  cases l <;> first | rfl | cases h

theorem stateOf_eq_sleeping {l : StateList} (h : stateOf l = .sleeping) : l = .sleep := by
  cases l <;> first | rfl | cases h

theorem alive.state {l : StateList} (h : alive l) : stateOf l ≠ .unused ∧ stateOf l ≠ .zombie := by
  rcases h with rfl | rfl | ⟨i, rfl⟩ <;> exact ⟨by simp [stateOf], by simp [stateOf]⟩

/-- A process other than the first has a parent that is neither free nor a zombie, and
nobody sleeps in `wait` with a zombie child. -/
theorem reachable_family {s : Kernel} (h : Reachable maxPrio s) :
    (∀ p, s.initproc ≠ some p → (s.proc p).state ∈
        [ProcState.sleeping, .runnable, .running, .zombie] →
      ∃ r, (s.proc p).parent = some r ∧ (s.proc r).state ≠ .unused ∧
        (s.proc r).state ≠ .zombie) ∧
    ∀ r q, (s.proc r).state = .sleeping → (s.proc r).chan = some (.proc r) →
      (s.proc q).state = .zombie → (s.proc q).parent ≠ some r := by
  obtain ⟨ticks, t, page, i, A, hrun, ⟨V, hrep⟩, hinv⟩ :=
    ReachableBy.shows (fun _ => True) h fun _ _ _ _ _ _ => trivial
  have hfam := hrun.family (initial_inv ticks t page i) (initial_family ticks t page i)
  have hst : ∀ p, (A.proc p).state = stateOf (A.loc p) := fun p => (hinv.procs p).state
  rw [hrep.proc, hrep.initproc]
  refine ⟨?_, ?_⟩
  · intro p hp hstate
    have hborn : born (A.loc p) := by
      rw [hst] at hstate
      refine ⟨fun he => ?_, fun he => ?_⟩
      · simp [he, stateOf] at hstate
      · simp [he, stateOf] at hstate
    obtain ⟨r, hr, hlive⟩ := hfam.parent p hborn hp
    have hr' := hlive.state
    rw [← hst r] at hr'
    exact ⟨r, hr, hr'⟩
  · intro r q hr hc hq
    rw [hst] at hr hq
    exact hfam.waiting r q (stateOf_eq_sleeping hr) hc (stateOf_eq_zombie hq)

end

/-- The first process is in `wait` while its child runs and has a zombie. -/
theorem generations_family : ∃ s : Kernel,
    ((s.proc 0).state = .sleeping ∧ (s.proc 0).chan = some (.proc 0)) ∧
    ((s.proc 1).state = .running ∧ (s.proc 1).parent = some 0) ∧
    ((s.proc 2).state = .zombie ∧ (s.proc 2).parent = some 1) ∧
    (∀ p, s.initproc ≠ some p → (s.proc p).state ∈
        [ProcState.sleeping, .runnable, .running, .zombie] →
      ∃ r, (s.proc p).parent = some r ∧ (s.proc r).state ≠ .unused ∧
        (s.proc r).state ≠ .zombie) ∧
    ∀ r q, (s.proc r).state = .sleeping → (s.proc r).chan = some (.proc r) →
      (s.proc q).state = .zombie → (s.proc q).parent ≠ some r := by
  obtain ⟨s, hs, h0, h1, h2, -⟩ := generations_reached
  exact ⟨s, h0, h1, h2, reachable_family hs⟩

end Xv6Pdx.Ptable
