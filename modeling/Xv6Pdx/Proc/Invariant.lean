/-
# `Proc.Invariant` — what every state of the process table satisfies

`ProcOk` is about one process and its place: its state is the one its list is
for, its priority is in range, and on a ready list above `ready[0]` the priority
is the index (`kill` breaks this for `ready[0]`).  `Ctl` is about who is doing
what: a CPU runs a process of the running list, and each process on one CPU only;
a process in the middle of `fork` owns its embryo and is not asleep or gone; the
first process exists, is alive and has no parent.
-/
import Xv6Pdx.Proc.Machine

namespace Xv6Pdx.Ptable

open Function (update update_self update_of_ne update_eq_self)

/-- A process agrees with the list it is on. -/
structure ProcOk (maxPrio : Nat) (q : Proc) (l : StateList) : Prop where
  state : q.state = stateOf l
  nonneg : 0 ≤ q.priority
  le : q.priority ≤ maxPrio
  ready : ∀ i, l = .ready i → i ≤ maxPrio
  above : ∀ i, l = .ready (i + 1) → q.priority = (i + 1 : Nat)

/-- What the walks over the lists rely on: the state is the one the list is
for, the list exists, and a sleeper has a ready list to go to. -/
structure Placed (maxPrio : Nat) (q : Proc) (l : StateList) : Prop where
  state : q.state = stateOf l
  ready : ∀ i, l = .ready i → i ≤ maxPrio
  range : l = .sleep → 0 ≤ q.priority ∧ q.priority ≤ maxPrio

theorem ProcOk.placed {maxPrio : Nat} {q : Proc} {l : StateList} (h : ProcOk maxPrio q l) :
    Placed maxPrio q l :=
  ⟨h.state, h.ready, fun _ => ⟨h.nonneg, h.le⟩⟩

def alive (l : StateList) : Prop := l = .sleep ∨ l = .running ∨ ∃ i, l = .ready i

structure Ctl (A : View) : Prop where
  cpuRun : ∀ c p, A.cpu c = some p → A.loc p = .running
  cpuInj : ∀ c c' p, A.cpu c = some p → A.cpu c' = some p → c = c'
  child : ∀ p np, (A.task p).child = some np → A.loc np = .embryo
  childInj : ∀ p p' np, (A.task p).child = some np → (A.task p').child = some np → p = p'
  forker : ∀ p, A.task p ≠ .none →
    A.loc p = .running ∨ (∃ i, A.loc p = .ready i) ∧ A.resume p = .yield
  init : ∃ i, A.initproc = some i ∧ alive (A.loc i) ∧ (A.proc i).parent = none
  selfParent : ∀ p, (A.proc p).parent ≠ some p

/-- The invariant of the process table. -/
structure Inv (maxPrio : Nat) (A : View) : Prop where
  procs : ∀ p, ProcOk maxPrio (A.proc p) (A.loc p)
  ctl : Ctl A

/-! ## One process at a time -/

section ProcOk

variable {maxPrio : Nat} {q : Proc} {l : StateList}

/-- A process keeps agreeing with its list when neither its state nor its
priority is assigned. -/
theorem ProcOk.congr (h : ProcOk maxPrio q l) {q' : Proc} (hs : q'.state = q.state)
    (hp : q'.priority = q.priority) : ProcOk maxPrio q' l := by
  refine ⟨hs.trans h.state, ?_, ?_, h.ready, ?_⟩
  · rw [hp]; exact h.nonneg
  · rw [hp]; exact h.le
  · intro i hi; rw [hp]; exact h.above i hi

/-- On a list that is not a ready list only the range of the priority counts. -/
theorem ProcOk.place {q' : Proc} {l' : StateList} (hs : q'.state = stateOf l')
    (h0 : 0 ≤ q'.priority) (h1 : q'.priority ≤ maxPrio) (hr : ∀ i, l' ≠ .ready i) :
    ProcOk maxPrio q' l' :=
  ⟨hs, h0, h1, fun i hi => absurd hi (hr i), fun _ hi => absurd hi (hr _)⟩

theorem ProcOk.placeReady {q' : Proc} (hs : q'.state = .runnable) (h0 : 0 ≤ q'.priority)
    (h1 : q'.priority ≤ maxPrio) : ProcOk maxPrio q' (.ready q'.priority.toNat) := by
  refine ⟨hs, h0, h1, ?_, ?_⟩
  · intro i hi
    cases hi
    omega
  · intro i hi
    have hi' : q'.priority.toNat = i + 1 := by injection hi
    omega

theorem ProcOk.placeZero {q' : Proc} (hs : q'.state = .runnable) (h0 : 0 ≤ q'.priority)
    (h1 : q'.priority ≤ maxPrio) : ProcOk maxPrio q' (.ready 0) := by
  refine ⟨hs, h0, h1, ?_, ?_⟩
  · intro i hi
    cases hi
    exact Nat.zero_le _
  · intro i hi
    cases hi

theorem wakeChange_ok (chan : Option Chan) (h : ProcOk maxPrio q l) :
    ProcOk maxPrio (wakeChange chan q l).1 (wakeChange chan q l).2 := by
  unfold wakeChange
  split
  · exact ProcOk.placeReady rfl h.nonneg h.le
  · exact h

theorem reparentChange_ok (me : ProcPtr) (init : Option ProcPtr) (h : ProcOk maxPrio q l) :
    ProcOk maxPrio (reparentChange me init q l).1 (reparentChange me init q l).2 := by
  unfold reparentChange
  split
  · exact h.congr rfl rfl
  · exact h

theorem lowerChange_ok (h : ProcOk maxPrio q l) (hr : ∀ i, l ≠ .ready i) :
    ProcOk maxPrio (lowerChange q l).1 l := by
  unfold lowerChange
  split
  · next hpos =>
      have hle := h.le
      exact ProcOk.place h.state (by show 0 ≤ q.priority - 1; omega)
        (by show q.priority - 1 ≤ maxPrio; omega) hr
  · exact h

theorem climbChange_ok {i : Nat} (h : ProcOk maxPrio q (.ready (i + 1))) :
    ProcOk maxPrio (climbChange (i + 1) q (.ready (i + 1))).1 (.ready i) := by
  have hprio := h.above i rfl
  have hle := h.le
  refine ⟨h.state, ?_, ?_, ?_, ?_⟩
  · show 0 ≤ q.priority - 1
    omega
  · show q.priority - 1 ≤ maxPrio
    omega
  · intro k hk
    cases hk
    have := h.ready (i + 1) rfl
    omega
  · intro k hk
    cases hk
    show q.priority - 1 = _
    omega

theorem settle_range (ticks : Nat) (h0 : 0 ≤ q.priority) (h1 : q.priority ≤ maxPrio) :
    0 ≤ (settle maxPrio ticks q).priority ∧ (settle maxPrio ticks q).priority ≤ maxPrio := by
  have hc : (charge ticks q).priority = q.priority := rfl
  rw [settle]
  split
  · simp only [demoted, hc]
    split <;> omega
  · exact ⟨h0, h1⟩

@[simp] theorem settle_state (ticks : Nat) : (settle maxPrio ticks q).state = q.state := by
  rw [settle]
  split <;> rfl

@[simp] theorem settle_parent (ticks : Nat) : (settle maxPrio ticks q).parent = q.parent := by
  rw [settle]
  split <;> rfl

@[simp] theorem settle_pid (ticks : Nat) : (settle maxPrio ticks q).pid = q.pid := by
  rw [settle]
  split <;> rfl

@[simp] theorem settle_chan (ticks : Nat) : (settle maxPrio ticks q).chan = q.chan := by
  rw [settle]
  split <;> rfl

end ProcOk

/-! ## The transitions that move one process through `sched` -/

namespace View

variable (A : View) (maxPrio : Nat) (p : ProcPtr) (dst : StateList) (f : Proc → Proc)

theorem move_sched_proc : ((A.move p dst f).sched maxPrio p).proc
    = update A.proc p (settle maxPrio A.ticks (f (A.proc p))) := by
  simp [sched, move]

theorem move_sched_loc : ((A.move p dst f).sched maxPrio p).loc
    = update A.loc p (if (f (A.proc p)).state = .runnable
        then .ready (settle maxPrio A.ticks (f (A.proc p))).priority.toNat else dst) := by
  by_cases h : (f (A.proc p)).state = .runnable
  · simp [sched, move, h]
  · simp [sched, move, h]

end View

section Procs

variable {maxPrio : Nat} {hit : Proc → Prop} {A : View}

/-- One process and its place are assigned, the others stay. -/
theorem procs_update (h : ∀ p, ProcOk maxPrio (A.proc p) (A.loc p)) {A' : View} {p : ProcPtr}
    {q : Proc} {l : StateList} (hproc : A'.proc = update A.proc p q)
    (hloc : A'.loc = update A.loc p l) (hq : ProcOk maxPrio q l) :
    ∀ r, ProcOk maxPrio (A'.proc r) (A'.loc r) := by
  intro r
  rw [hproc, hloc]
  by_cases hr : r = p
  · subst hr
    rwa [update_self, update_self]
  · rw [update_of_ne hr, update_of_ne hr]
    exact h r

theorem procs_assign (h : ∀ p, ProcOk maxPrio (A.proc p) (A.loc p)) {A' : View} {p : ProcPtr}
    {q : Proc} (hproc : A'.proc = update A.proc p q) (hloc : A'.loc = A.loc)
    (hs : q.state = (A.proc p).state) (hp : q.priority = (A.proc p).priority) :
    ∀ r, ProcOk maxPrio (A'.proc r) (A'.loc r) :=
  procs_update h hproc (by rw [hloc, update_eq_self]) ((h p).congr hs hp)

/-- A change of every process of `D` that is fine at each of them. -/
theorem procs_on (h : ∀ p, ProcOk maxPrio (A.proc p) (A.loc p)) (D : ProcPtr → Prop)
    [DecidablePred D] (φ : Change)
    (hφ : ∀ p, D p → ProcOk maxPrio (φ (A.proc p) (A.loc p)).1 (φ (A.proc p) (A.loc p)).2) :
    ∀ p, ProcOk maxPrio ((A.on D φ).proc p) ((A.on D φ).loc p) := by
  intro p
  show ProcOk maxPrio (if D p then _ else _) (if D p then _ else _)
  by_cases hp : D p
  · rw [if_pos hp, if_pos hp]
    exact hφ p hp
  · rw [if_neg hp, if_neg hp]
    exact h p

theorem procs_wake (h : ∀ p, ProcOk maxPrio (A.proc p) (A.loc p)) (chan : Option Chan) :
    ∀ p, ProcOk maxPrio ((A.wake chan).proc p) ((A.wake chan).loc p) :=
  procs_on h _ _ fun p _ => wakeChange_ok chan (h p)

theorem procs_promote (h : ∀ p, ProcOk maxPrio (A.proc p) (A.loc p)) :
    ∀ p, ProcOk maxPrio ((A.promote maxPrio).proc p) ((A.promote maxPrio).loc p) := by
  intro p
  have hp := h p
  simp only [View.promote]
  cases hl : A.loc p with
  | free => rw [hl] at hp; exact hp
  | embryo => rw [hl] at hp; exact hp
  | zombie => rw [hl] at hp; exact hp
  | running => rw [hl] at hp; exact lowerChange_ok hp (by simp)
  | sleep => rw [hl] at hp; exact lowerChange_ok hp (by simp)
  | ready i =>
    rw [hl] at hp
    simp only
    by_cases hi : 1 ≤ i ∧ i ≤ maxPrio
    · obtain ⟨k, rfl⟩ := Nat.exists_eq_add_of_le' hi.1
      rw [if_pos hi, if_pos hi]
      exact climbChange_ok hp
    · rw [if_neg hi, if_neg hi]
      exact hp

/-- Every transition keeps each process in agreement with its list. -/
theorem Trans.procs {A' : View} (hinv : Inv maxPrio A) (ht : Trans maxPrio hit A A') :
    ∀ p, ProcOk maxPrio (A'.proc p) (A'.loc p) := by
  have h := hinv.procs
  cases ht with
  | tick => exact h
  | wake chan => exact procs_wake h chan
  | killMark p _ => exact procs_assign h rfl rfl rfl rfl
  | killWake p hp _ =>
    exact procs_update h rfl rfl (ProcOk.placeZero rfl (h p).nonneg (h p).le)
  | yield c p hc =>
    have hr := settle_range A.ticks (q := { A.proc p with state := .runnable })
      (h p).nonneg (h p).le
    refine procs_update h (A.move_sched_proc _ _ _ _) (A.move_sched_loc _ _ _ _) ?_
    rw [if_pos rfl]
    exact ProcOk.placeReady (settle_state _) hr.1 hr.2
  | sleep c p a hc _ =>
    have hr := settle_range A.ticks
      (q := { A.proc p with chan := some (.addr a), state := .sleeping }) (h p).nonneg (h p).le
    refine procs_update h (A.move_sched_proc _ _ _ _) (A.move_sched_loc _ _ _ _) ?_
    rw [if_neg (by simp)]
    exact ProcOk.place (settle_state _) hr.1 hr.2 (by simp)
  | waitSleep c p low hc _ _ =>
    have hr := settle_range A.ticks
      (q := { A.proc p with chan := some (.proc p), state := .sleeping }) (h p).nonneg (h p).le
    refine procs_update h (A.move_sched_proc _ _ _ _) (A.move_sched_loc _ _ _ _) ?_
    rw [if_neg (by simp)]
    exact ProcOk.place (settle_state _) hr.1 hr.2 (by simp)
  | reap c p q low _ _ _ =>
    exact procs_update h rfl rfl (ProcOk.place rfl (h q).nonneg (h q).le (by simp))
  | reparent me ls _ _ => exact procs_on h _ _ fun p _ => reparentChange_ok me _ (h p)
  | adopt q _ =>
    have hq : ∀ r, ProcOk maxPrio ((A.assign q fun r => { r with parent := A.initproc }).proc r)
        ((A.assign q fun r => { r with parent := A.initproc }).loc r) :=
      procs_assign h rfl rfl rfl rfl
    exact procs_wake hq _
  | exit c p _ _ _ _ _ =>
    have hr := settle_range A.ticks (q := { A.proc p with state := .zombie }) (h p).nonneg (h p).le
    refine procs_update h (A.move_sched_proc _ _ _ _) (A.move_sched_loc _ _ _ _) ?_
    rw [if_neg (by simp)]
    exact ProcOk.place (settle_state _) hr.1 hr.2 (by simp)
  | alloc c p np _ _ _ =>
    exact procs_update h rfl rfl
      (ProcOk.place rfl (Int.le_refl 0) (Int.natCast_nonneg maxPrio) (by simp))
  | abandon c p np _ _ =>
    exact procs_update h rfl rfl (ProcOk.place rfl (h np).nonneg (h np).le (by simp))
  | stack c p np page _ _ => exact procs_assign h rfl rfl rfl rfl
  | copy c p np _ _ => exact procs_assign h rfl rfl rfl rfl
  | forkReady c p np _ _ =>
    have hrdy : ProcOk maxPrio
        { A.proc np with state := .runnable, priority := (A.proc p).priority }
        (.ready (A.proc p).priority.toNat) :=
      ProcOk.placeReady rfl (h p).nonneg (h p).le
    exact procs_update h rfl rfl hrdy
  | promote => exact procs_promote h
  | dispatch c p j _ _ _ =>
    exact procs_update h rfl rfl (ProcOk.place rfl (h p).nonneg (h p).le (by simp))
  | clearChan c p _ => exact procs_assign h rfl rfl rfl rfl

end Procs

/-! ## Who is doing what -/

section Control

variable {maxPrio : Nat} {hit : Proc → Prop} {A : View}

theorem wake_loc (A : View) (chan : Option Chan) (p : ProcPtr) :
    (A.wake chan).loc p = if A.loc p = .sleep ∧ (A.proc p).chan = chan
      then .ready (A.proc p).priority.toNat else A.loc p := by
  show (if A.loc p = .sleep then (wakeChange chan (A.proc p) (A.loc p)).2 else A.loc p) = _
  by_cases hl : A.loc p = .sleep
  · by_cases hc : (A.proc p).chan = chan
    · simp [wakeChange, hl, hc]
    · simp [wakeChange, hl, hc]
  · simp [hl]

theorem wake_proc (A : View) (chan : Option Chan) (p : ProcPtr) :
    (A.wake chan).proc p = if A.loc p = .sleep ∧ (A.proc p).chan = chan
      then { A.proc p with state := .runnable } else A.proc p := by
  show (if A.loc p = .sleep then (wakeChange chan (A.proc p) (A.loc p)).1 else A.proc p) = _
  by_cases hl : A.loc p = .sleep
  · by_cases hc : (A.proc p).chan = chan
    · simp [wakeChange, hl, hc]
    · simp [wakeChange, hl, hc]
  · simp [hl]

theorem reparent_loc (A : View) (me : ProcPtr) (ls : List StateList) :
    (A.reparent me ls).loc = A.loc := by
  simp [View.reparent, View.on, reparentChange]

theorem reparent_parent (A : View) (me : ProcPtr) (ls : List StateList) (p : ProcPtr) :
    ((A.reparent me ls).proc p).parent =
      if A.loc p ∈ ls ∧ (A.proc p).parent = some me then A.initproc
      else (A.proc p).parent := by
  show (if A.loc p ∈ ls then (reparentChange me A.initproc (A.proc p) (A.loc p)).1
    else A.proc p).parent = _
  by_cases hD : A.loc p ∈ ls
  · by_cases hp : (A.proc p).parent = some me
    · simp [reparentChange, hD, hp]
    · simp [reparentChange, hD, hp]
  · simp [hD]

theorem reparent_priority (A : View) (me : ProcPtr) (ls : List StateList) (p : ProcPtr) :
    ((A.reparent me ls).proc p).priority = (A.proc p).priority := by
  simp only [View.reparent, View.on, reparentChange]
  split
  · split <;> rfl
  · rfl

theorem reparent_chan (A : View) (me : ProcPtr) (ls : List StateList) (p : ProcPtr) :
    ((A.reparent me ls).proc p).chan = (A.proc p).chan := by
  simp only [View.reparent, View.on, reparentChange]
  split
  · split <;> rfl
  · rfl

theorem promote_parent (A : View) (p : ProcPtr) :
    ((A.promote maxPrio).proc p).parent = (A.proc p).parent := by
  simp only [View.promote]
  cases A.loc p with
  | ready i =>
    simp only
    split <;> rfl
  | running => simp only [lowerChange]; split <;> rfl
  | sleep => simp only [lowerChange]; split <;> rfl
  | _ => rfl

theorem promote_chan (A : View) (p : ProcPtr) :
    ((A.promote maxPrio).proc p).chan = (A.proc p).chan := by
  simp only [View.promote]
  cases A.loc p with
  | ready i =>
    simp only
    split <;> rfl
  | running => simp only [lowerChange]; split <;> rfl
  | sleep => simp only [lowerChange]; split <;> rfl
  | _ => rfl

theorem wake_parent (A : View) (chan : Option Chan) (p : ProcPtr) :
    ((A.wake chan).proc p).parent = (A.proc p).parent := by
  rw [wake_proc]
  split <;> rfl

theorem wake_chan (A : View) (chan : Option Chan) (p : ProcPtr) :
    ((A.wake chan).proc p).chan = (A.proc p).chan := by
  rw [wake_proc]
  split <;> rfl

theorem adopt_parent (A : View) (q p : ProcPtr) :
    ((A.adopt q).proc p).parent = if p = q then A.initproc else (A.proc p).parent := by
  rw [View.adopt, wake_parent]
  by_cases hp : p = q
  · simp [View.assign, hp]
  · simp [View.assign, hp]

theorem adopt_loc (A : View) (q p : ProcPtr) :
    (A.adopt q).loc p = if A.loc p = .sleep ∧ (A.proc p).chan = A.initproc.map .proc
      then .ready (A.proc p).priority.toNat else A.loc p := by
  rw [View.adopt, wake_loc]
  by_cases hp : p = q
  · simp [View.assign, hp]
  · simp [View.assign, hp]

theorem adopt_chan (A : View) (q p : ProcPtr) : ((A.adopt q).proc p).chan = (A.proc p).chan := by
  rw [View.adopt, wake_chan]
  by_cases hp : p = q
  · simp [View.assign, hp]
  · simp [View.assign, hp]

/-- A place that is left alone, or a sleeping or ready process that becomes
ready somewhere. -/
def Shuffled (l l' : StateList) : Prop :=
  l' = l ∨ ((l = .sleep ∨ ∃ i, l = .ready i) ∧ ∃ k, l' = .ready k)

/-- The transitions that start and stop nobody: the CPUs and the forks are as
before, processes are at most shuffled among the ready lists, and a parent is
at most replaced by the first process. -/
theorem Ctl.shuffle (h : Ctl A) {A' : View} (hcpu : A'.cpu = A.cpu) (htask : A'.task = A.task)
    (hres : A'.resume = A.resume) (hinit : A'.initproc = A.initproc) (hloc : ∀ p, Shuffled (A.loc p) (A'.loc p))
    (hpar : ∀ p, (A'.proc p).parent = (A.proc p).parent ∨
      (A.initproc ≠ some p ∧ (A'.proc p).parent = A.initproc)) : Ctl A' := by
  obtain ⟨i, hi, hlive, hnone⟩ := h.init
  have hrun : ∀ p, A.loc p = .running → A'.loc p = .running := by
    intro p hp
    rcases hloc p with h1 | ⟨h1 | ⟨k, h1⟩, _⟩
    · exact h1.trans hp
    · exact absurd (hp.symm.trans h1) (by simp)
    · exact absurd (hp.symm.trans h1) (by simp)
  have hrdy : ∀ p k, A.loc p = .ready k → ∃ j, A'.loc p = .ready j := by
    intro p k hp
    rcases hloc p with h1 | ⟨_, h1⟩
    · exact ⟨k, h1.trans hp⟩
    · exact h1
  refine ⟨?_, ?_, ?_, ?_, ?_, ⟨i, hinit.trans hi, ?_, ?_⟩, ?_⟩
  · intro c p hc
    rw [hcpu] at hc
    exact hrun p (h.cpuRun c p hc)
  · intro c c' p hc hc'
    rw [hcpu] at hc hc'
    exact h.cpuInj c c' p hc hc'
  · intro p np hp
    rw [htask] at hp
    have hnp := h.child p np hp
    rcases hloc np with h1 | ⟨h1 | ⟨k, h1⟩, _⟩
    · exact h1.trans hnp
    · exact absurd (hnp.symm.trans h1) (by simp)
    · exact absurd (hnp.symm.trans h1) (by simp)
  · intro p p' np hp hp'
    rw [htask] at hp hp'
    exact h.childInj p p' np hp hp'
  · intro p hp
    rw [htask] at hp
    rw [hres]
    rcases h.forker p hp with h1 | ⟨⟨k, h1⟩, h2⟩
    · exact Or.inl (hrun p h1)
    · exact Or.inr ⟨hrdy p k h1, h2⟩
  · rcases hloc i with h1 | ⟨_, h1⟩
    · rw [h1]
      exact hlive
    · exact Or.inr (Or.inr h1)
  · rcases hpar i with h1 | ⟨h1, _⟩
    · exact h1.trans hnone
    · exact absurd hi h1
  · intro p hp
    rcases hpar p with h1 | ⟨h1, h2⟩
    · exact h.selfParent p (h1.symm.trans hp)
    · exact h1 (h2.symm.trans hp)

theorem wake_shuffled (A : View) (chan : Option Chan) (p : ProcPtr) :
    Shuffled (A.loc p) ((A.wake chan).loc p) := by
  rw [wake_loc]
  split
  · next hp => exact Or.inr ⟨Or.inl hp.1, _, rfl⟩
  · exact Or.inl rfl

theorem promote_shuffled (A : View) (p : ProcPtr) :
    Shuffled (A.loc p) ((A.promote maxPrio).loc p) := by
  simp only [View.promote]
  cases A.loc p with
  | ready i =>
    simp only
    split
    · exact Or.inr ⟨Or.inr ⟨i, rfl⟩, _, rfl⟩
    · exact Or.inl rfl
  | _ => exact Or.inl rfl

theorem Ctl.wake (h : Ctl A) (chan : Option Chan) : Ctl (A.wake chan) :=
  h.shuffle rfl rfl rfl rfl (wake_shuffled A chan) fun p => Or.inl (wake_parent A chan p)

theorem Ctl.promote (h : Ctl A) : Ctl (A.promote maxPrio) :=
  h.shuffle rfl rfl rfl rfl (promote_shuffled A) fun p => Or.inl (promote_parent A p)

theorem update_parent {p : ProcPtr} {q : Proc} (hq : q.parent = (A.proc p).parent)
    (r : ProcPtr) : (update A.proc p q r).parent = (A.proc r).parent := by
  by_cases hr : r = p
  · subst hr
    rwa [update_self]
  · rw [update_of_ne hr]

theorem Ctl.orphan_ne_init (h : Ctl A) {p me : ProcPtr} (hp : (A.proc p).parent = some me) :
    A.initproc ≠ some p := by
  obtain ⟨i, hi, _, hnone⟩ := h.init
  intro he
  have hip : i = p := Option.some.inj (hi.symm.trans he)
  rw [← hip, hnone] at hp
  cases hp

theorem Ctl.zombie_ne_init (h : Ctl A) {p : ProcPtr} (hp : A.loc p = .zombie) :
    A.initproc ≠ some p := by
  obtain ⟨i, hi, hlive, _⟩ := h.init
  intro he
  have hip : i = p := Option.some.inj (hi.symm.trans he)
  rw [hip, hp] at hlive
  simp [alive] at hlive

/-- A process that gives up its CPU for another place, with no fork going on
unless it stays ready. -/
theorem Ctl.leave (h : Ctl A) {A' : View} {c : Nat} {p : ProcPtr} {l : StateList}
    (hc : A.cpu c = some p) (hcpu : A'.cpu = update A.cpu c none)
    (htask : A'.task = A.task) (hinit : A'.initproc = A.initproc)
    (hloc : A'.loc = update A.loc p l)
    (hpar : ∀ q, (A'.proc q).parent = (A.proc q).parent)
    (hres : ∀ q, q ≠ p → A'.resume q = A.resume q)
    (hfork : A.task p ≠ .none → (∃ i, l = .ready i) ∧ A'.resume p = .yield)
    (hlive : A.initproc = some p → alive l) : Ctl A' := by
  obtain ⟨i, hi, hilive, hnone⟩ := h.init
  have hp : A.loc p = .running := h.cpuRun c p hc
  have hcpu' : ∀ c' q, A'.cpu c' = some q → c' ≠ c ∧ A.cpu c' = some q := by
    intro c' q hq
    rw [hcpu] at hq
    by_cases hcc : c' = c
    · subst hcc
      rw [update_self] at hq
      cases hq
    · rw [update_of_ne hcc] at hq
      exact ⟨hcc, hq⟩
  have hother : ∀ q, q ≠ p → A'.loc q = A.loc q := fun q hq => by
    rw [hloc, update_of_ne hq]
  refine ⟨?_, ?_, ?_, ?_, ?_, ⟨i, hinit.trans hi, ?_, (hpar i).trans hnone⟩, ?_⟩
  · intro c' q hq
    obtain ⟨hcc, hq⟩ := hcpu' c' q hq
    have hqp : q ≠ p := fun he => hcc (h.cpuInj c' c p (he ▸ hq) hc)
    rw [hother q hqp]
    exact h.cpuRun c' q hq
  · intro c₁ c₂ q h1 h2
    exact h.cpuInj c₁ c₂ q (hcpu' c₁ q h1).2 (hcpu' c₂ q h2).2
  · intro r np hr
    rw [htask] at hr
    have hnp := h.child r np hr
    have hne : np ≠ p := fun he => by rw [he, hp] at hnp; cases hnp
    rw [hother np hne]
    exact hnp
  · intro r r' np hr hr'
    rw [htask] at hr hr'
    exact h.childInj r r' np hr hr'
  · intro r hr
    rw [htask] at hr
    by_cases hrp : r = p
    · subst hrp
      obtain ⟨⟨k, rfl⟩, hy⟩ := hfork hr
      exact Or.inr ⟨⟨k, by rw [hloc, update_self]⟩, hy⟩
    · rw [hother r hrp, hres r hrp]
      exact h.forker r hr
  · by_cases hip : i = p
    · subst hip
      rw [hloc, update_self]
      exact hlive hi
    · rw [hother i hip]
      exact hilive
  · intro q hq
    exact h.selfParent q ((hpar q).symm.trans hq)

/-- `sched` after a move, and back to the scheduler loop. -/
theorem Ctl.descend (h : Ctl A) {A' : View} {c : Nat} {p : ProcPtr} {l : StateList}
    {f : Proc → Proc} (hc : A.cpu c = some p) (hcpu : A'.cpu = update A.cpu c none)
    (htask : A'.task = A.task) (hinit : A'.initproc = A.initproc)
    (hproc : A'.proc = ((A.move p l f).sched maxPrio p).proc)
    (hloc : A'.loc = ((A.move p l f).sched maxPrio p).loc)
    (hf : (f (A.proc p)).parent = (A.proc p).parent)
    (hres : ∀ q, q ≠ p → A'.resume q = A.resume q)
    (hfork : A.task p ≠ .none → (∃ i, (if (f (A.proc p)).state = .runnable
      then .ready (settle maxPrio A.ticks (f (A.proc p))).priority.toNat else l) = .ready i) ∧
        A'.resume p = .yield)
    (hlive : A.initproc = some p → alive (if (f (A.proc p)).state = .runnable
      then .ready (settle maxPrio A.ticks (f (A.proc p))).priority.toNat else l)) :
    Ctl A' := by
  refine h.leave hc hcpu htask hinit (hloc.trans (A.move_sched_loc maxPrio p l f)) ?_ hres hfork
    hlive
  intro q
  rw [hproc, A.move_sched_proc]
  exact update_parent ((settle_parent _).trans hf) q

/-- A process `x` that is not alive changes its place, and `me`, running on a
CPU, its progress in `fork`. -/
theorem Ctl.relocate (h : Ctl A) {A' : View} {me x : ProcPtr} {l : StateList} {t : Task}
    (hcpu : A'.cpu = A.cpu) (hinit : A'.initproc = A.initproc)
    (htask : A'.task = update A.task me t)
    (hloc : A'.loc = update A.loc x l)
    (hx : ¬ alive (A.loc x)) (hme : A.loc me = .running)
    (hres : ∀ q, q ≠ x → A'.resume q = A.resume q)
    (hpar : ∀ q, q ≠ x → (A'.proc q).parent = (A.proc q).parent)
    (hself : (A'.proc x).parent ≠ some x)
    (hchild : ∀ np, t.child = some np → np = x ∧ l = .embryo ∨ np ≠ x ∧ (A.task me).child = some np)
    (hfree : ∀ p, p ≠ me → (A.task p).child ≠ some x) : Ctl A' := by
  obtain ⟨i, hi, hlive, hnone⟩ := h.init
  have hother : ∀ q, q ≠ x → A'.loc q = A.loc q := fun q hq => by
    rw [hloc, update_of_ne hq]
  have hself' : A'.loc x = l := by rw [hloc, update_self]
  have hrun : ∀ q, A.loc q = .running → q ≠ x := fun q hq he =>
    hx (he ▸ Or.inr (Or.inl hq))
  have hrdy : ∀ q k, A.loc q = .ready k → q ≠ x := fun q k hq he =>
    hx (he ▸ Or.inr (Or.inr ⟨k, hq⟩))
  have hix : i ≠ x := fun he => hx (he ▸ hlive)
  have htask' : ∀ p, p ≠ me → A'.task p = A.task p := fun p hp => by
    rw [htask, update_of_ne hp]
  have htme : A'.task me = t := by rw [htask, update_self]
  have hone : ∀ p p' np, p ≠ me → (A'.task p).child = some np → p' = me →
      (A'.task p').child ≠ some np := by
    intro p p' np hpm hp hpm' hp'
    subst hpm'
    rw [htask' p hpm] at hp
    rw [htme] at hp'
    rcases hchild np hp' with ⟨rfl, _⟩ | ⟨_, hp'⟩
    · exact hfree p hpm hp
    · exact hpm (h.childInj p p' np hp hp')
  refine ⟨?_, ?_, ?_, ?_, ?_, ⟨i, hinit.trans hi, ?_, (hpar i hix).trans hnone⟩, ?_⟩
  · intro c p hc
    rw [hcpu] at hc
    have hp := h.cpuRun c p hc
    exact (hother p (hrun p hp)).trans hp
  · intro c c' p hc hc'
    rw [hcpu] at hc hc'
    exact h.cpuInj c c' p hc hc'
  · intro p np hp
    by_cases hpm : p = me
    · subst hpm
      rw [htme] at hp
      rcases hchild np hp with ⟨rfl, rfl⟩ | ⟨hne, hp⟩
      · exact hself'
      · exact (hother np hne).trans (h.child p np hp)
    · rw [htask' p hpm] at hp
      have hne : np ≠ x := fun he => hfree p hpm (he ▸ hp)
      exact (hother np hne).trans (h.child p np hp)
  · intro p p' np hp hp'
    by_cases hpm : p = me
    · by_cases hpm' : p' = me
      · exact hpm.trans hpm'.symm
      · exact absurd hp (hone p' p np hpm' hp' hpm)
    · by_cases hpm' : p' = me
      · exact absurd hp' (hone p p' np hpm hp hpm')
      · rw [htask' p hpm] at hp
        rw [htask' p' hpm'] at hp'
        exact h.childInj p p' np hp hp'
  · intro p hp
    by_cases hpm : p = me
    · subst hpm
      exact Or.inl ((hother p (hrun p hme)).trans hme)
    · rw [htask' p hpm] at hp
      rcases h.forker p hp with h1 | ⟨⟨k, h1⟩, h2⟩
      · exact Or.inl ((hother p (hrun p h1)).trans h1)
      · have hpx := hrdy p k h1
        exact Or.inr ⟨⟨k, (hother p hpx).trans h1⟩, (hres p hpx).trans h2⟩
  · rw [hother i hix]
    exact hlive
  · intro p hp
    by_cases hpx : p = x
    · subst hpx
      exact hself hp
    · exact h.selfParent p ((hpar p hpx).symm.trans hp)

/-- A child of `me` in `fork` belongs to no other process. -/
theorem Ctl.child_ne (h : Ctl A) {me np : ProcPtr} (hme : (A.task me).child = some np) :
    ∀ p, p ≠ me → (A.task p).child ≠ some np :=
  fun p hp hc => hp (h.childInj p me np hc hme)

theorem Ctl.not_child (h : Ctl A) {x : ProcPtr} (hx : A.loc x ≠ .embryo) :
    ∀ p, (A.task p).child ≠ some x :=
  fun p hp => hx (h.child p x hp)

theorem not_alive_free : ¬ alive .free := by simp [alive]

theorem not_alive_embryo : ¬ alive .embryo := by simp [alive]

theorem not_alive_zombie : ¬ alive .zombie := by simp [alive]

theorem Ctl.advance (h : Ctl A) {A' : View} {me np : ProcPtr} {t : Task}
    (hcpu : A'.cpu = A.cpu) (hinit : A'.initproc = A.initproc)
    (htask : A'.task = update A.task me t) (hloc : A'.loc = A.loc)
    (hme : A.loc me = .running) (hres : ∀ q, q ≠ np → A'.resume q = A.resume q)
    (hold : (A.task me).child = some np)
    (hnew : t.child = some np) (hpar : ∀ q, q ≠ np → (A'.proc q).parent = (A.proc q).parent)
    (hself : (A'.proc np).parent ≠ some np) : Ctl A' := by
  have hnp := h.child me np hold
  refine h.relocate (x := np) (l := .embryo) hcpu hinit htask ?_ ?_ hme hres hpar hself ?_
    (h.child_ne hold)
  · rw [hloc, ← hnp, update_eq_self]
  · rw [hnp]
    exact not_alive_embryo
  · intro np' hnp'
    exact Or.inl ⟨Option.some.inj (hnp'.symm.trans hnew), rfl⟩

theorem Ctl.dispatch (h : Ctl A) {c j : Nat} {p : ProcPtr} (hc : A.cpu c = none)
    (hp : A.loc p = .ready j) : Ctl (A.dispatch c p) := by
  obtain ⟨i, hi, hlive, hnone⟩ := h.init
  have hself : (A.dispatch c p).loc p = .running := update_self p _ _
  have hother : ∀ q, q ≠ p → (A.dispatch c p).loc q = A.loc q :=
    fun q hq => update_of_ne hq _ _
  have hpar : ∀ q, ((A.dispatch c p).proc q).parent = (A.proc q).parent :=
    update_parent rfl
  have hcpu : ∀ c', c' ≠ c → (A.dispatch c p).cpu c' = A.cpu c' :=
    fun c' hc' => update_of_ne hc' _ _
  have hidle : ∀ c', A.cpu c' ≠ some p := fun c' hc' => by
    have hrun := h.cpuRun c' p hc'
    rw [hp] at hrun
    cases hrun
  have hcp : (A.dispatch c p).cpu c = some p := update_self c _ _
  refine ⟨?_, ?_, ?_, h.childInj, ?_, ⟨i, hi, ?_, (hpar i).trans hnone⟩, ?_⟩
  · intro c' q hq
    by_cases hcc : c' = c
    · subst hcc
      have hqp : p = q := Option.some.inj (hcp.symm.trans hq)
      exact hqp ▸ hself
    · rw [hcpu c' hcc] at hq
      have hqp : q ≠ p := fun he => hidle c' (he ▸ hq)
      exact (hother q hqp).trans (h.cpuRun c' q hq)
  · intro c₁ c₂ q h1 h2
    by_cases hc1 : c₁ = c
    · by_cases hc2 : c₂ = c
      · exact hc1.trans hc2.symm
      · have hqp : p = q := Option.some.inj (hcp.symm.trans (hc1 ▸ h1))
        rw [hcpu c₂ hc2] at h2
        exact absurd (hqp ▸ h2) (hidle c₂)
    · rw [hcpu c₁ hc1] at h1
      by_cases hc2 : c₂ = c
      · have hqp : p = q := Option.some.inj (hcp.symm.trans (hc2 ▸ h2))
        exact absurd (hqp ▸ h1) (hidle c₁)
      · rw [hcpu c₂ hc2] at h2
        exact h.cpuInj c₁ c₂ q h1 h2
  · intro r np hr
    have hnp := h.child r np hr
    have hne : np ≠ p := fun he => by rw [he, hp] at hnp; cases hnp
    exact (hother np hne).trans hnp
  · intro r hr
    by_cases hrp : r = p
    · exact Or.inl (hrp ▸ hself)
    · rw [hother r hrp]
      exact h.forker r hr
  · by_cases hip : i = p
    · subst hip
      exact Or.inr (Or.inl hself)
    · rw [hother i hip]
      exact hlive
  · intro r hr
    exact h.selfParent r ((hpar r).symm.trans hr)

theorem Trans.ctl {A' : View} (h : Ctl A) (ht : Trans maxPrio hit A A') : Ctl A' := by
  have hsame : ∀ p, Shuffled (A.loc p) (A.loc p) := fun p => Or.inl rfl
  cases ht with
  | tick => exact h.shuffle rfl rfl rfl rfl hsame fun _ => Or.inl rfl
  | wake chan => exact h.wake chan
  | killMark p _ => exact h.shuffle rfl rfl rfl rfl hsame fun r => Or.inl (update_parent (by rfl) r)
  | killWake p hp _ =>
    refine h.shuffle rfl rfl rfl rfl ?_ fun r => Or.inl (update_parent (by rfl) r)
    intro r
    show Shuffled (A.loc r) (update A.loc p (.ready 0) r)
    by_cases hr : r = p
    · subst hr
      rw [update_self]
      exact Or.inr ⟨Or.inl hp, 0, rfl⟩
    · rw [update_of_ne hr]
      exact Or.inl rfl
  | yield c p hc =>
    refine h.descend hc rfl rfl rfl rfl rfl rfl (fun q hq => update_of_ne hq _ _) ?_ ?_
    · intro _
      rw [if_pos rfl]
      exact ⟨⟨_, rfl⟩, update_self p _ _⟩
    · intro _
      rw [if_pos rfl]
      exact Or.inr (Or.inr ⟨_, rfl⟩)
  | sleep c p a hc htask =>
    refine h.descend hc rfl rfl rfl rfl rfl rfl (fun q hq => update_of_ne hq _ _)
      (fun hne => absurd htask hne) ?_
    intro _
    rw [if_neg (by simp)]
    exact Or.inl rfl
  | waitSleep c p low hc htask _ =>
    refine h.descend hc rfl rfl rfl rfl rfl rfl (fun q hq => update_of_ne hq _ _)
      (fun hne => absurd htask hne) ?_
    intro _
    rw [if_neg (by simp)]
    exact Or.inl rfl
  | reap c p q low hc hq _ =>
    have hne : ∀ r, (A.task r).child ≠ some q := h.not_child (by simp [hq])
    refine h.relocate (t := A.task p) rfl rfl (update_eq_self p A.task).symm rfl
      (by rw [hq]; exact not_alive_zombie) (h.cpuRun c p hc) (fun _ _ => rfl) ?_ ?_ ?_
      fun r _ => hne r
    · intro r hr
      exact congrArg Proc.parent (update_of_ne hr _ _)
    · show (update A.proc q _ q).parent ≠ _
      rw [update_self]
      simp
    · intro np hnp
      exact Or.inr ⟨fun he => hne p (he ▸ hnp), hnp⟩
  | reparent me ls _ _ =>
    refine h.shuffle rfl rfl rfl rfl ?_ ?_
    · intro p
      rw [reparent_loc]
      exact hsame p
    · intro p
      rw [reparent_parent]
      split
      · next hp => exact Or.inr ⟨h.orphan_ne_init hp.2, rfl⟩
      · exact Or.inl rfl
  | adopt q hq =>
    have hassign : Ctl (A.assign q fun r => { r with parent := A.initproc }) := by
      refine h.shuffle rfl rfl rfl rfl hsame ?_
      intro r
      show (update A.proc q _ r).parent = _ ∨
        _ ∧ (update A.proc q _ r).parent = _
      by_cases hr : r = q
      · subst hr
        rw [update_self]
        exact Or.inr ⟨h.zombie_ne_init hq, rfl⟩
      · rw [update_of_ne hr]
        exact Or.inl rfl
    exact hassign.wake _
  | exit c p hc htask hne _ _ =>
    exact h.descend hc rfl rfl rfl rfl rfl rfl (fun _ _ => rfl) (fun hf => absurd htask hf)
      fun hi => absurd hi hne
  | alloc c p np hc htask hnp =>
    have hne : ∀ r, (A.task r).child ≠ some np := h.not_child (by simp [hnp])
    refine h.relocate rfl rfl rfl rfl (by rw [hnp]; exact not_alive_free) (h.cpuRun c p hc)
      (fun _ _ => rfl) ?_ ?_ ?_ fun r _ => hne r
    · intro r _
      exact update_parent (by rfl) r
    · intro hself
      exact h.selfParent np ((update_parent (by rfl) np).symm.trans hself)
    · intro np' hnp'
      exact Or.inl ⟨(Option.some.inj hnp').symm, rfl⟩
  | abandon c p np hc htask =>
    have hch : (A.task p).child = some np := by
      rcases htask with ht | ht <;> rw [ht] <;> rfl
    refine h.relocate rfl rfl rfl rfl (by rw [h.child p np hch]; exact not_alive_embryo)
      (h.cpuRun c p hc) (fun _ _ => rfl) ?_ ?_ ?_ (h.child_ne hch)
    · intro r _
      exact update_parent (by rfl) r
    · intro hself
      exact h.selfParent np ((update_parent (by rfl) np).symm.trans hself)
    · intro np' hnp'
      cases hnp'
  | stack c p np page hc htask =>
    have hch : (A.task p).child = some np := by rw [htask]; rfl
    refine h.advance rfl rfl rfl rfl (h.cpuRun c p hc)
      (fun q hq => update_of_ne hq _ _) hch rfl ?_ ?_
    · intro r _
      exact update_parent (by rfl) r
    · intro hself
      exact h.selfParent np ((update_parent (by rfl) np).symm.trans hself)
  | copy c p np hc htask =>
    have hch : (A.task p).child = some np := by rw [htask]; rfl
    refine h.advance rfl rfl rfl rfl (h.cpuRun c p hc) (fun _ _ => rfl) hch rfl ?_ ?_
    · intro r hr
      exact congrArg Proc.parent (update_of_ne hr _ _)
    · show (update A.proc np _ np).parent ≠ _
      rw [update_self]
      intro he
      have hpn : p = np := Option.some.inj he
      have hrun := h.cpuRun c p hc
      rw [hpn, h.child p np hch] at hrun
      cases hrun
  | forkReady c p np hc htask =>
    have hch : (A.task p).child = some np := by rw [htask]; rfl
    refine h.relocate rfl rfl rfl rfl (by rw [h.child p np hch]; exact not_alive_embryo)
      (h.cpuRun c p hc) (fun _ _ => rfl) ?_ ?_ ?_ (h.child_ne hch)
    · intro r _
      exact update_parent (by rfl) r
    · intro hself
      exact h.selfParent np ((update_parent (by rfl) np).symm.trans hself)
    · intro np' hnp'
      cases hnp'
  | promote => exact h.promote
  | dispatch c p j hc hp _ => exact h.dispatch hc hp
  | clearChan c p _ => exact h.shuffle rfl rfl rfl rfl hsame fun r => Or.inl (update_parent (by rfl) r)

end Control

/-! ## Runs -/

section Runs

variable {maxPrio : Nat} {hit : Proc → Prop} {A A' : View}

theorem Trans.inv (h : Inv maxPrio A) (ht : Trans maxPrio hit A A') : Inv maxPrio A' :=
  ⟨ht.procs h, ht.ctl h.ctl⟩

theorem Run.inv (h : Inv maxPrio A) (hr : Run maxPrio hit A A') : Inv maxPrio A' := by
  induction hr with
  | refl => exact h
  | tail _ ht ih => exact ht.inv ih

end Runs

end Xv6Pdx.Ptable
