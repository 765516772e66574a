/-
# `Proc.Arrays` — the list walks against the table scans they replaced

With `CS333_P3P4` off, `wakeup1`, `kill` and `exit` scan `ptable.proc` from
end to end.  `Original` is that code; the two versions are compared on one and
the same table through what each does to a single process: `woken`, `handed`,
and `orphaned` for the scan of `exit`, in which handing over a zombie also wakes
the first process.

Two things about the table decide whether the versions agree, and neither is
in the partition.  A scan looks at free slots too, and `allocproc` leaves the
pid of a failed fork in its slot; and only the walks index `ready[]` with the
priority of a sleeper.
-/
import Xv6Pdx.Proc.Partition

namespace Xv6Pdx.Ptable

open Lib
open Function (update update_self update_of_ne update_eq_self)

namespace Original

/-- `for(p = ptable.proc; p < &ptable.proc[NPROC]; p++) body`. -/
def forProcs (body : ProcPtr → KernelM Unit) : List ProcPtr → KernelM Unit
  | [] => pure ()
  | p :: ps => do
    body p
    forProcs body ps

/-- The body of the loop of `wakeup1`. -/
def wakeupProc (chan : Option Chan) (p : ProcPtr) : KernelM Unit := do
  let s ← get
  if (s.proc p).state = .sleeping ∧ (s.proc p).chan = chan then
    setProc p fun q => { q with state := .runnable }

def wakeup1 (chan : Option Chan) : KernelM Unit :=
  forProcs (wakeupProc chan) (List.finRange NPROC)

def killFrom (pid : Nat) : List ProcPtr → KernelM Int
  | [] => pure (-1)
  | p :: ps => do
    let s ← get
    if (s.proc p).pid = pid then
      setProc p fun q => { q with killed := true }
      if (s.proc p).state = .sleeping then
        setProc p fun q => { q with state := .runnable }
      pure 0
    else killFrom pid ps

def kill (pid : Nat) : KernelM Int := killFrom pid (List.finRange NPROC)

/-- The body of the loop of `exit`. -/
def handOver (me p : ProcPtr) : KernelM Unit := do
  let s ← get
  if (s.proc p).parent = some me then
    setProc p fun q => { q with parent := s.initproc }
    if (s.proc p).state = .zombie then wakeup1 (s.initproc.map .proc)

/-- `exit`, from its first test to the end of its loop. -/
def exitKids (me : ProcPtr) : KernelM Unit := do
  let s ← get
  if s.initproc = some me then throw (.panic "init exiting")
  else
    wakeup1 ((s.proc me).parent.map .proc)
    forProcs (handOver me) (List.finRange NPROC)

end Original

/-- The same part of the `exit` with lists. -/
def exitKids (maxPrio : Nat) (me : ProcPtr) : KernelM Unit := do
  let s ← get
  if s.initproc = some me then throw (.panic "init exiting")
  else
    wakeup1 maxPrio ((s.proc me).parent.map .proc)
    reparentLists maxPrio me
    reparentZombies maxPrio me

/-! ## What happens to one process -/

/-- `wakeup1(chan)` at one process. -/
def woken (chan : Option Chan) (q : Proc) : Proc :=
  if q.state = .sleeping ∧ q.chan = chan then { q with state := .runnable } else q

/-- `kill` at the process it finds. -/
def marked (q : Proc) : Proc :=
  { q with killed := true, state := if q.state = .sleeping then .runnable else q.state }

/-- A child of `me` goes to `init`. -/
def handed (me : ProcPtr) (init : Option ProcPtr) (q : Proc) : Proc :=
  if q.parent = some me then { q with parent := init } else q

/-- A zombie among `done` that has `me` for a parent. -/
def hasZombie (me : ProcPtr) (f : ProcPtr → Proc) (done : List ProcPtr) : Bool :=
  done.any fun z => (f z).state = .zombie ∧ (f z).parent = some me

/-- The table after the loop of `exit` has visited `done`: the first process
has been woken if there was a zombie child among them. -/
def orphaned (me : ProcPtr) (init : Option ProcPtr) (f : ProcPtr → Proc) (done : List ProcPtr)
    (p : ProcPtr) : Proc :=
  let q := if p ∈ done then handed me init (f p) else f p
  if hasZombie me f done then woken (init.map .proc) q else q

section Effects

variable {me : ProcPtr} {init : Option ProcPtr} {f : ProcPtr → Proc} {done : List ProcPtr}
  {p : ProcPtr}

@[simp] theorem woken_parent (chan : Option Chan) (q : Proc) :
    (woken chan q).parent = q.parent := by
  rw [woken]
  split <;> rfl

theorem woken_state_iff (chan : Option Chan) (q : Proc) {st : ProcState} (hs : st ≠ .sleeping)
    (hr : st ≠ .runnable) : (woken chan q).state = st ↔ q.state = st := by
  rw [woken]
  split
  · next h => simp [h.1, hs.symm, hr.symm]
  · rfl

@[simp] theorem woken_woken (chan : Option Chan) (q : Proc) :
    woken chan (woken chan q) = woken chan q := by
  by_cases h : q.state = .sleeping ∧ q.chan = chan
  · simp [woken, h]
  · simp [woken, h]

/-- Waking and handing over do not look at each other's field. -/
theorem woken_reparent (chan : Option Chan) (q : Proc) :
    woken chan { q with parent := init } = { woken chan q with parent := init } := by
  simp only [woken]
  split <;> rfl

theorem handed_of_ne {q : Proc} (h : q.parent ≠ some me) : handed me init q = q := if_neg h

theorem handed_of_eq {q : Proc} (h : q.parent = some me) :
    handed me init q = { q with parent := init } := if_pos h

theorem hasZombie_iff : hasZombie me f done = true ↔
    ∃ z ∈ done, (f z).state = .zombie ∧ (f z).parent = some me := by
  simp [hasZombie]

theorem hasZombie_snoc : hasZombie me f (done ++ [p]) =
    (hasZombie me f done || decide ((f p).state = .zombie ∧ (f p).parent = some me)) := by
  simp [hasZombie]

@[simp] theorem orphaned_nil : orphaned me init f [] = f := rfl

/-- A process that has not been visited has its parent, and is a zombie if it
was. -/
theorem orphaned_unvisited (hp : p ∉ done) : (orphaned me init f done p).parent = (f p).parent ∧
      ((orphaned me init f done p).state = .zombie ↔ (f p).state = .zombie) := by
  simp only [orphaned, if_neg hp]
  split
  · exact ⟨woken_parent _ _, woken_state_iff _ _ (by decide) (by decide)⟩
  · exact ⟨rfl, Iff.rfl⟩

theorem orphaned_other (hpar : (f p).parent ≠ some me) :
    orphaned me init f (done ++ [p]) = orphaned me init f done := by
  funext r
  have hself : (if r ∈ done ++ [p] then handed me init (f r) else f r)
      = if r ∈ done then handed me init (f r) else f r := by
    by_cases hr : r = p
    · subst hr
      simp [handed_of_ne hpar]
    · simp [hr]
  simp only [orphaned, hself, hasZombie_snoc, hpar, and_false, decide_false, Bool.or_false]

/-- The assignment to the parent of a child that is visited next. -/
theorem orphaned_assign (hp : p ∉ done) (hpar : (f p).parent = some me) (r : ProcPtr) :
    update (orphaned me init f done) p { orphaned me init f done p with parent := init } r
      = if hasZombie me f done
        then woken (init.map .proc) (if r ∈ done ++ [p] then handed me init (f r) else f r)
        else if r ∈ done ++ [p] then handed me init (f r) else f r := by
  by_cases hr : r = p
  · subst hr
    cases hz : hasZombie me f done with
    | false => simp [orphaned, hz, hp, handed_of_eq hpar]
    | true => simp [orphaned, hz, hp, handed_of_eq hpar, woken_reparent]
  · simp [orphaned, hr]

/-- A child that is not a zombie changes its parent and nothing else. -/
theorem orphaned_child (hp : p ∉ done) (hpar : (f p).parent = some me)
    (hst : (f p).state ≠ .zombie) : orphaned me init f (done ++ [p])
      = update (orphaned me init f done) p
          { orphaned me init f done p with parent := init } := by
  funext r
  rw [orphaned_assign hp hpar]
  simp only [orphaned, hasZombie_snoc, hst, false_and, decide_false, Bool.or_false]

/-- A zombie child changes its parent, and then the first process is woken. -/
theorem orphaned_zombie (hp : p ∉ done) (hpar : (f p).parent = some me)
    (hst : (f p).state = .zombie) : orphaned me init f (done ++ [p])
      = fun r => woken (init.map .proc) (update (orphaned me init f done) p
          { orphaned me init f done p with parent := init } r) := by
  funext r
  rw [orphaned_assign hp hpar]
  simp only [orphaned, hasZombie_snoc, hst, hpar, and_self, decide_true, Bool.or_true, if_true]
  cases hasZombie me f done with
  | false => rfl
  | true => exact (woken_woken _ _).symm

end Effects

/-! ## The scans -/

namespace Original

variable {s : Kernel} {E : Stop → Prop}

/-- A scan, by what holds after each prefix of the table. -/
theorem forProcs_spec {body : ProcPtr → KernelM Unit} (I : List ProcPtr → Kernel → Prop)
    (hbody : ∀ done p s, p ∉ done → I done s → wp (body p) (fun _ s' => I (done ++ [p]) s') E s) :
    ∀ (ps done : List ProcPtr) {s : Kernel}, (done ++ ps).Nodup → I done s →
      wp (forProcs body ps) (fun _ s' => I (done ++ ps) s') E s := by
  intro ps
  induction ps with
  | nil =>
    intro done s _ hI
    rw [List.append_nil]
    exact hI
  | cons p ps ih =>
    intro done s hnd hI
    have hp : p ∉ done := fun hm =>
      (List.nodup_append.mp hnd).2.2 p hm p List.mem_cons_self rfl
    refine wp_seq (hbody done p s hp hI) ?_
    intro _ s' hI'
    have hsnoc : done ++ p :: ps = done ++ [p] ++ ps := by simp
    rw [hsnoc] at hnd ⊢
    exact ih (done ++ [p]) hnd hI'

theorem wakeup1_spec (chan : Option Chan) :
    wp (wakeup1 chan) (fun _ s' => s' = { s with proc := fun p => woken chan (s.proc p) }) E s := by
  let upTo : List ProcPtr → Kernel := fun done =>
    { s with proc := fun p => if p ∈ done then woken chan (s.proc p) else s.proc p }
  refine wp_post (forProcs_spec (fun done s' => s' = upTo done) ?_ (List.finRange NPROC) []
    (List.nodup_finRange NPROC) (by simp [upTo])) ?_
  · rintro done p _ hp rfl
    have hstep : upTo (done ++ [p]) = { upTo done with
        proc := update (upTo done).proc p (woken chan (s.proc p)) } := by
      simp only [upTo, Kernel.mk.injEq, and_true]
      funext r
      by_cases hr : r = p
      · subst hr
        simp
      · simp [hr]
    have hself : (upTo done).proc p = s.proc p := if_neg hp
    rw [hstep]
    simp only [wakeupProc, wp_bind, wp_get, hself]
    split
    · next h => rw [wp_setProc, woken, if_pos h, hself]
    · next h => rw [wp_pure, woken, if_neg h, ← hself, update_eq_self]
  · rintro _ s' rfl
    simp [upTo]

/-- `kill` ends at the first slot with the pid, free or not. -/
theorem killFrom_spec (pid : Nat) : ∀ ps : List ProcPtr,
    wp (killFrom pid ps) (fun _ s' => (s' = s ∧ ∀ p ∈ ps, (s.proc p).pid ≠ pid) ∨
      ∃ p ∈ ps, (s.proc p).pid = pid ∧
        s' = { s with proc := update s.proc p (marked (s.proc p)) }) E s := by
  intro ps
  induction ps with
  | nil => exact Or.inl ⟨rfl, by simp⟩
  | cons p ps ih =>
    simp only [killFrom, wp_bind, wp_get]
    by_cases hp : (s.proc p).pid = pid
    · rw [if_pos hp]
      simp only [wp_bind, wp_setProc]
      split
      · next hs =>
          refine Or.inr ⟨p, List.mem_cons_self, hp, ?_⟩
          simp [marked, hs]
      · next hs =>
          refine Or.inr ⟨p, List.mem_cons_self, hp, ?_⟩
          simp [marked, hs]
    · rw [if_neg hp]
      refine wp_post ih ?_
      rintro _ s' (⟨rfl, hno⟩ | ⟨r, hr, h'⟩)
      · exact Or.inl ⟨rfl, List.forall_mem_cons.mpr ⟨hp, hno⟩⟩
      · exact Or.inr ⟨r, List.mem_cons_of_mem p hr, h'⟩

theorem handOver_spec (me : ProcPtr) :
    wp (forProcs (handOver me) (List.finRange NPROC)) (fun _ s' => s' = { s with
      proc := orphaned me s.initproc s.proc (List.finRange NPROC) }) E s := by
  let upTo : List ProcPtr → Kernel := fun done =>
    { s with proc := orphaned me s.initproc s.proc done }
  refine forProcs_spec (fun done s' => s' = upTo done) ?_ (List.finRange NPROC) []
    (List.nodup_finRange NPROC) (by simp [upTo])
  rintro done p _ hp rfl
  obtain ⟨hpar, hst⟩ : (orphaned me s.initproc s.proc done p).parent = (s.proc p).parent ∧
      ((orphaned me s.initproc s.proc done p).state = .zombie ↔ (s.proc p).state = .zombie) :=
    orphaned_unvisited hp
  simp only [handOver, wp_bind, wp_get, upTo]
  rw [hpar]
  split
  · next hme =>
      simp only [wp_bind, wp_setProc]
      split
      · next hz =>
          refine wp_post (wakeup1_spec _) ?_
          rintro _ s' rfl
          rw [orphaned_zombie hp hme (hst.mp hz)]
      · next hz => rw [wp_pure, orphaned_child hp hme (fun h => hz (hst.mpr h))]
  · next hme => rw [wp_pure, orphaned_other hme]

end Original

/-! ## The walks -/

section Walks

variable {maxPrio : Nat} {s : Kernel} {A : View}

/-- Sleepers have a priority that `ready[]` can be indexed with. -/
def SleepersInRange (maxPrio : Nat) (s : Kernel) : Prop :=
  ∀ p, (s.proc p).state = .sleeping →
    0 ≤ (s.proc p).priority ∧ (s.proc p).priority ≤ maxPrio

theorem Partitioned.shows (h : Partitioned maxPrio s) (hr : SleepersInRange maxPrio s) :
    ∃ A, Shows s A ∧ ∀ p, Placed maxPrio (A.proc p) (A.loc p) := by
  obtain ⟨lists, hlists, hplace⟩ := h
  choose loc hvalid hstate hcount using hplace
  have hmem : ∀ l p, p ∈ lists l ↔ loc p = l := by
    intro l p
    rw [← List.count_pos_iff, hcount p l]
    constructor
    · intro hpos
      by_contra hne
      rw [if_neg (fun he => hne he.symm)] at hpos
      exact absurd hpos (Nat.lt_irrefl 0)
    · rintro rfl
      simp
  refine ⟨s.view loc, ⟨lists, ⟨?_, ?_, ?_⟩, hmem, rfl⟩, ?_⟩
  · exact fun l => (walk_eq_some_iff.mp (hlists l).1).1
  · exact fun l => (hlists l).2.2
  · intro l l' p hp hp'
    exact ((hmem l p).mp hp).symm.trans ((hmem l' p).mp hp')
  · intro p
    refine ⟨(hstate p).symm, ?_, ?_⟩
    · intro i hi
      have hv := hvalid p
      have hi' : loc p = .ready i := hi
      rw [hi'] at hv
      exact hv
    · intro hs
      have hs' : loc p = .sleep := hs
      refine hr p ?_
      rw [← hstate p, hs']
      rfl

theorem Placed.sleep_iff {q : Proc} {l : StateList} (h : Placed maxPrio q l) :
    l = .sleep ↔ q.state = .sleeping := by
  rw [h.state]
  cases l <;> simp [stateOf]

theorem Placed.zombie_iff {q : Proc} {l : StateList} (h : Placed maxPrio q l) :
    l = .zombie ↔ q.state = .zombie := by
  rw [h.state]
  cases l <;> simp [stateOf]

theorem Placed.free_iff {q : Proc} {l : StateList} (h : Placed maxPrio q l) :
    l = .free ↔ q.state = .unused := by
  rw [h.state]
  cases l <;> simp [stateOf]

theorem wake_eq_woken (hok : ∀ p, Placed maxPrio (A.proc p) (A.loc p)) (chan : Option Chan)
    (p : ProcPtr) : (A.wake chan).proc p = woken chan (A.proc p) := by
  rw [wake_proc, woken]
  simp only [(hok p).sleep_iff]

theorem placed_wake (hok : ∀ p, Placed maxPrio (A.proc p) (A.loc p)) (chan : Option Chan) :
    ∀ p, Placed maxPrio ((A.wake chan).proc p) ((A.wake chan).loc p) := by
  intro p
  rw [wake_proc, wake_loc]
  split
  · next h =>
      obtain ⟨hnn, hle⟩ := (hok p).range h.1
      refine ⟨rfl, ?_, fun hs => by cases hs⟩
      intro i hi
      cases hi
      omega
  · exact hok p

theorem placed_assign_parent (hok : ∀ p, Placed maxPrio (A.proc p) (A.loc p)) (p : ProcPtr)
    (init : Option ProcPtr) : ∀ q, Placed maxPrio
      ((A.assign p fun q => { q with parent := init }).proc q)
      ((A.assign p fun q => { q with parent := init }).loc q) := by
  intro q
  have hq := hok q
  by_cases hqp : q = p
  · subst hqp
    simpa [View.assign] using ⟨hq.state, hq.ready, hq.range⟩
  · simpa [View.assign, hqp] using hq

theorem reparent_proc (A : View) (me : ProcPtr) (ls : List StateList) (p : ProcPtr) :
    (A.reparent me ls).proc p
      = if A.loc p ∈ ls then handed me A.initproc (A.proc p) else A.proc p := rfl

theorem placed_reparent (hok : ∀ p, Placed maxPrio (A.proc p) (A.loc p)) (me : ProcPtr)
    (ls : List StateList) :
    ∀ p, Placed maxPrio ((A.reparent me ls).proc p) ((A.reparent me ls).loc p) := by
  intro p
  have hp := hok p
  rw [reparent_loc, reparent_proc]
  split
  · rw [handed]
    split
    · exact ⟨hp.state, hp.ready, hp.range⟩
    · exact hp
  · exact hp

theorem reparentZombies_exact (h : Shows s A) (hok : ∀ p, Placed maxPrio (A.proc p) (A.loc p))
    (me : ProcPtr) :
    wp (reparentZombies maxPrio me) (fun _ s' => ∃ zs, (∀ p, p ∈ zs ↔ A.loc p = .zombie) ∧
      s'.proc = orphaned me A.initproc A.proc zs) (fun _ => False) s := by
  obtain ⟨V, hrep⟩ := h
  -- `ps` is what the walk has still to visit; the list itself stays
  let I : List ProcPtr → Kernel → Prop := fun ps s' => ∃ B V' done, Rep s' B V' ∧
    V' .zombie = V .zombie ∧ V .zombie = done ++ ps ∧ B.initproc = A.initproc ∧
    (∀ p, Placed maxPrio (B.proc p) (B.loc p)) ∧
    B.proc = orphaned me A.initproc A.proc done
  have hstep : ∀ p ps s₁, I (p :: ps) s₁ → wp (reparentZombie maxPrio me p)
      (fun _ s' => I ps s' ∧ s'.pLists.next p = ps.head?) (fun _ => False) s₁ := by
    rintro p ps s₁ ⟨B, V₁, done, h₁, hV₁, hV, hinit, hok₁, hB⟩
    have hp : p ∉ done := by
      have hnd := hrep.lists.nodup .zombie
      rw [hV] at hnd
      exact fun hm => (List.nodup_append.mp hnd).2.2 p hm p List.mem_cons_self rfl
    have hz : (A.proc p).state = .zombie :=
      (hok p).zombie_iff.mp ((hrep.mem _ p).mp (by rw [hV]; simp))
    have hsnoc : V .zombie = (done ++ [p]) ++ ps := by rw [hV]; simp
    have hpar : (B.proc p).parent = (A.proc p).parent := by
      rw [hB]
      exact (orphaned_unvisited hp).1
    simp only [reparentZombie, wp_bind, wp_get, h₁.proc, h₁.initproc, hpar, hinit]
    split
    · next hme =>
        have hassign := h₁.assign p fun q => { q with parent := A.initproc }
        have hplaced := placed_assign_parent hok₁ p A.initproc
        rw [wp_bind, wp_setProc]
        refine wp_post (wakeup1_rep hassign hplaced _) ?_
        rintro _ s₂ ⟨V₂, h₂, hV₂⟩
        have hV₂' := hV₂.trans hV₁
        refine ⟨⟨_, V₂, done ++ [p], h₂, hV₂', hsnoc, hinit, placed_wake hplaced _, ?_⟩,
          h₂.next_eq (hV₂'.trans hV)⟩
        rw [orphaned_zombie hp hme hz, ← hB]
        funext r
        exact wake_eq_woken hplaced _ r
    · next hme =>
        rw [wp_pure]
        exact ⟨⟨B, V₁, done ++ [p], h₁, hV₁, hsnoc, hinit, hok₁, by
          rw [orphaned_other hme, hB]⟩, h₁.next_eq (hV₁.trans hV)⟩
  simp only [reparentZombies, wp_bind, wp_get, hrep.head_eq]
  refine wp_post (forNext_spec I hstep _ ⟨A, V, [], hrep, rfl, rfl, rfl, hok, rfl⟩
    (hrep.lists.length_le _)) ?_
  rintro _ s' ⟨B, V', done, h', _, hV, _, _, hB⟩
  rw [List.append_nil] at hV
  exact ⟨done, fun p => by rw [← hV, hrep.mem], by rw [h'.proc, hB]⟩

end Walks

/-! ## The two versions agree -/

/-- Started in `s`, both programs stop for the same reason, or both return and leave every
process that is not UNUSED in `s` with the same record. -/
def Agree {α : Type} (s : Kernel) (m m' : KernelM α) : Prop :=
  match m s, m' s with
  | .ok (_, s₁), .ok (_, s₂) => ∀ p, (s.proc p).state ≠ .unused → s₁.proc p = s₂.proc p
  | .error e, .error e' => e = e'
  | _, _ => False

section Agreement

variable {maxPrio : Nat} {s : Kernel} {A : View}

theorem Agree.of_wp {α : Type} {m m' : KernelM α} {R R' : α → Kernel → Prop}
    (h : wp m R (fun _ => False) s) (h' : wp m' R' (fun _ => False) s)
    (hsame : ∀ a s₁ a' s₂, R a s₁ → R' a' s₂ →
      ∀ p, (s.proc p).state ≠ .unused → s₁.proc p = s₂.proc p) : Agree s m m' := by
  obtain ⟨a, s₁, hm, hR⟩ := wp_total h
  obtain ⟨a', s₂, hm', hR'⟩ := wp_total h'
  rw [Agree, hm, hm']
  exact hsame a s₁ a' s₂ hR hR'

theorem agree_wakeup1 (h : Shows s A) (hok : ∀ p, Placed maxPrio (A.proc p) (A.loc p))
    (chan : Option Chan) : Agree s (wakeup1 maxPrio chan) (Original.wakeup1 chan) := by
  have hproc : s.proc = A.proc := by
    obtain ⟨V, hrep⟩ := h
    exact hrep.proc
  refine Agree.of_wp (wakeup1_spec h hok chan) (Original.wakeup1_spec chan) ?_
  rintro _ s₁ _ s₂ ⟨V, h₁⟩ rfl p _
  rw [h₁.proc, wake_eq_woken hok, hproc]

/-- No slot, free or not, has the pid of another process. -/
def PidsApart (s : Kernel) : Prop :=
  ∀ p q, (s.proc p).state ≠ .unused → p ≠ q → (s.proc p).pid ≠ (s.proc q).pid

theorem agree_kill (h : Shows s A) (hok : ∀ p, Placed maxPrio (A.proc p) (A.loc p))
    (hpids : PidsApart s) (pid : Nat) : Agree s (kill maxPrio pid) (Original.kill pid) := by
  have hproc : s.proc = A.proc := by
    obtain ⟨V, hrep⟩ := h
    exact hrep.proc
  have hlive : ∀ p, A.loc p ≠ .free ↔ (s.proc p).state ≠ .unused := by
    intro p
    rw [hproc, ne_eq, (hok p).free_iff]
  refine Agree.of_wp (kill_exact h hok pid) (Original.killFrom_spec pid _) ?_
  rintro _ s₁ _ s₂ h₁ h₂ p hp
  rcases h₁ with ⟨⟨V, h₁⟩, hno⟩ | ⟨q, hq, hqpid, V, h₁⟩
  · -- the walks found nobody, so the scan can only have met a free slot
    have hpp : (s.proc p).pid ≠ pid := by
      rw [hproc]
      exact hno p ((hlive p).mpr hp)
    rcases h₂ with ⟨rfl, _⟩ | ⟨r, _, hr, rfl⟩
    · rw [h₁.proc, hproc]
    · have hpr : p ≠ r := fun he => hpp (he ▸ hr)
      rw [h₁.proc, ← hproc]
      exact (update_of_ne hpr _ _).symm
  · rw [← hproc] at hqpid
    rcases h₂ with ⟨rfl, hno⟩ | ⟨r, _, hr, rfl⟩
    · exact absurd hqpid (hno q (List.mem_finRange q))
    · have hqr : q = r := by
        by_contra hne
        exact hpids q r ((hlive q).mp hq) hne (hqpid.trans hr.symm)
      subst hqr
      have hview : (if A.loc q = .sleep then A.killWake q else A.killMark q).proc
          = update s.proc q (marked (s.proc q)) := by
        rw [hproc, marked]
        simp only [← (hok q).sleep_iff]
        split <;> rfl
      rw [h₁.proc, hview]

theorem agree_exitKids (h : Shows s A) (hok : ∀ p, Placed maxPrio (A.proc p) (A.loc p))
    (me : ProcPtr) : Agree s (exitKids maxPrio me) (Original.exitKids me) := by
  obtain ⟨V, hrep⟩ := h
  by_cases hinit : s.initproc = some me
  · have h₁ : exitKids maxPrio me s = .error (.panic "init exiting") := by
      rw [exitKids, get_bind_apply, if_pos hinit]
      rfl
    have h₂ : Original.exitKids me s = .error (.panic "init exiting") := by
      rw [Original.exitKids, get_bind_apply, if_pos hinit]
      rfl
    rw [Agree, h₁, h₂]
  -- the table after the first `wakeup1`, which both versions then go through
  let f : ProcPtr → Proc := fun p => woken ((s.proc me).parent.map .proc) (s.proc p)
  let A₁ := A.wake ((s.proc me).parent.map .proc)
  let A₂ := A₁.reparent me (exitLists maxPrio)
  have hok₁ : ∀ p, Placed maxPrio (A₁.proc p) (A₁.loc p) := placed_wake hok _
  have hf : A₁.proc = f := by
    funext p
    rw [wake_eq_woken hok, ← hrep.proc]
  have hinitA : A.initproc = s.initproc := hrep.initproc.symm
  have hlists : wp (exitKids maxPrio me) (fun _ s' => ∃ zs,
      (∀ p, p ∈ zs ↔ A₁.loc p = .zombie) ∧ s'.proc = orphaned me s.initproc A₂.proc zs)
      (fun _ => False) s := by
    simp only [exitKids, wp_bind, wp_get, if_neg hinit]
    refine wp_post (wakeup1_spec ⟨V, hrep⟩ hok _) ?_
    intro _ s₁ h₁
    refine wp_post (reparentLists_spec h₁ (by rw [← hinitA] at hinit; exact hinit)) ?_
    intro _ s₂ h₂
    refine wp_post (reparentZombies_exact h₂ (placed_reparent hok₁ me _) me) ?_
    rintro _ s₃ ⟨zs, hzs, hs₃⟩
    refine ⟨zs, fun p => by rw [hzs, reparent_loc], ?_⟩
    rw [hs₃, ← hinitA]
    rfl
  have hscan : wp (Original.exitKids me) (fun _ s' =>
      s'.proc = orphaned me s.initproc f (List.finRange NPROC)) (fun _ => False) s := by
    simp only [Original.exitKids, wp_bind, wp_get, if_neg hinit]
    refine wp_post (Original.wakeup1_spec _) ?_
    rintro _ s₁ rfl
    refine wp_post (Original.handOver_spec me) ?_
    rintro _ s₂ rfl
    rfl
  refine Agree.of_wp hlists hscan ?_
  rintro _ s₁ _ s₂ ⟨zs, hzs, hs₁⟩ hs₂ p hp
  rw [hs₁, hs₂]
  -- a zombie is handed over by the last walk, everybody else by one before it
  have hexit : ∀ q, A₁.loc q = .zombie → A₂.proc q = f q := by
    intro q hq
    have hno : A₁.loc q ∉ exitLists maxPrio := by
      rw [hq]
      simp [mem_exitLists]
    rw [reparent_proc, if_neg hno, hf]
  have hkid : hasZombie me A₂.proc zs = hasZombie me f (List.finRange NPROC) := by
    rw [Bool.eq_iff_iff, hasZombie_iff, hasZombie_iff]
    constructor
    · rintro ⟨z, hz, hst, hpar⟩
      rw [hexit z ((hzs z).mp hz)] at hst hpar
      exact ⟨z, List.mem_finRange z, hst, hpar⟩
    · rintro ⟨z, _, hst, hpar⟩
      have hz : A₁.loc z = .zombie := by
        rw [(hok₁ z).zombie_iff, hf]
        exact hst
      refine ⟨z, (hzs z).mpr hz, ?_⟩
      rw [hexit z hz]
      exact ⟨hst, hpar⟩
  have hself : (if p ∈ zs then handed me s.initproc (A₂.proc p) else A₂.proc p)
      = handed me s.initproc (f p) := by
    split
    · next hz => rw [hexit p ((hzs p).mp hz)]
    · next hz =>
        have hfree : A₁.loc p ≠ .free := by
          rw [ne_eq, (hok₁ p).free_iff, hf, woken_state_iff _ _ (by decide) (by decide)]
          exact hp
        have hmem : A₁.loc p ∈ exitLists maxPrio :=
          (hok₁ p).mem_exitLists hfree fun h => hz ((hzs p).mpr h)
        rw [reparent_proc, if_pos hmem, hf]
        exact congrArg (handed me · (f p)) hinitA
  simp only [orphaned, hkid, hself, List.mem_finRange, if_true]

theorem Agree.proc_eq {α : Type} {m m' : KernelM α} (h : Agree s m m') {p : ProcPtr}
    (hp : (s.proc p).state ≠ .unused) :
    (m s).toOption.map (fun r => r.2.proc p) = (m' s).toOption.map (fun r => r.2.proc p) := by
  rw [Agree] at h
  split at h
  · next h₁ h₂ =>
      rw [h₁, h₂]
      exact congrArg some (h p hp)
  · next h₁ h₂ => rw [h₁, h₂]; rfl
  · exact h.elim

end Agreement

/-! ## Tables with one process -/

/-- The slots of the free list of `lone`. -/
def freeSlots : List ProcPtr := 0 :: (List.finRange NPROC).drop 2

def loneNext (p : ProcPtr) : Option ProcPtr :=
  if p = 0 then some 2 else if p = 1 ∨ p = 63 then none else some (p + 1)

/-- The process `q` in slot 1, on the list `l`; every other slot is free, and
slot 0 still has the pid `stale`. -/
def lone (q : Proc) (l : StateList) (stale : Nat) : Kernel :=
  { boot 0 with
    proc := fun p => if p = 1 then q else if p = 0 then { (boot 0).proc p with pid := stale }
      else (boot 0).proc p
    pLists :=
      { head := update (update (fun _ => none) .free (some 0)) l (some 1)
        tail := update (update (fun _ => none) .free (some 63)) l (some 1)
        next := loneNext } }

theorem lone_proc_ne {q : Proc} {l : StateList} {stale : Nat} {p : ProcPtr} (h : p ≠ 1) :
    ((lone q l stale).proc p).state = .unused := by
  simp only [lone, if_neg h]
  split <;> rfl

theorem lone_partitioned {maxPrio : Nat} {q : Proc} {l : StateList} (stale : Nat)
    (hq : stateOf l = q.state) (hl : l ≠ .free) (hv : l.valid maxPrio) :
    Partitioned maxPrio (lone q l stale) := by
  refine ⟨fun k => if k = l then [1] else if k = .free then freeSlots else [], ?_, ?_⟩
  · intro k
    by_cases hk : k = l
    · subst hk
      refine ⟨?_, by simp, ?_⟩
      · simp only [lone, update_self, if_true]
        decide
      · simp [lone]
    · by_cases hf : k = .free
      · subst hf
        refine ⟨?_, ?_, ?_⟩
        · simp only [lone, update_of_ne hk, update_self, if_neg hk, if_true]
          decide +kernel
        · simp only [if_neg hk, if_true]
          decide
        · simp only [lone, update_of_ne hk, update_self, if_neg hk, if_true]
          decide
      · refine ⟨?_, by simp [hk, hf], by simp [hk, hf]⟩
        simp only [lone, update_of_ne hk, update_of_ne hf, if_neg hk, if_neg hf]
        rfl
  · intro p
    by_cases hp : p = 1
    · subst hp
      refine ⟨l, hv, hq, ?_⟩
      intro k
      have hfree : freeSlots.count 1 = 0 := by decide
      by_cases hk : k = l
      · simp [hk]
      · by_cases hf : k = .free
        · simp [hf, hl.symm, hfree]
        · simp [hk, hf]
    · refine ⟨.free, trivial, (lone_proc_ne hp).symm, ?_⟩
      have hfree : ∀ p : ProcPtr, p ≠ 1 → freeSlots.count p = 1 := by decide +kernel
      have h1 : List.count p [1] = 0 := List.count_eq_zero_of_not_mem (by simpa using hp)
      intro k
      by_cases hk : k = l
      · simp only [hk, if_true, h1, if_neg hl]
      · by_cases hf : k = .free
        · simp [hf, hl.symm, hfree p hp]
        · simp [hk, hf]

theorem lone_distinct (q : Proc) (l : StateList) (stale : Nat) (p p' : ProcPtr)
    (hp : ((lone q l stale).proc p).state ≠ .unused)
    (hp' : ((lone q l stale).proc p').state ≠ .unused) : p = p' := by
  have h1 : p = 1 := by_contra fun h => hp (lone_proc_ne h)
  have h1' : p' = 1 := by_contra fun h => hp' (lone_proc_ne h)
  rw [h1, h1']

def sleeper (priority : Int) : Proc :=
  { (boot 0).proc 0 with
    state := .sleeping, pid := 5, chan := some (.addr 0), budget := BUDGET, priority := priority }

/-- Where no slot has the pid of another process and every sleeper has a priority in range,
the list walks do what the table scans did. -/
theorem lists_agree_with_scans {maxPrio : Nat} {s : Kernel} (h : Partitioned maxPrio s)
    (hpids : PidsApart s) (hrange : SleepersInRange maxPrio s) :
    (∀ chan, Agree s (wakeup1 maxPrio chan) (Original.wakeup1 chan)) ∧
      (∀ pid, Agree s (kill maxPrio pid) (Original.kill pid)) ∧
      ∀ me, Agree s (exitKids maxPrio me) (Original.exitKids me) := by
  obtain ⟨A, hshow, hok⟩ := h.shows hrange
  exact ⟨agree_wakeup1 hshow hok, agree_kill hshow hok hpids, agree_exitKids hshow hok⟩

/-- One sleeper, and free slots with pid 0. -/
theorem lone_sleeper_agrees :
    (Partitioned 6 (lone (sleeper 0) .sleep 0) ∧ PidsApart (lone (sleeper 0) .sleep 0) ∧
      SleepersInRange 6 (lone (sleeper 0) .sleep 0)) ∧
    (∀ chan, Agree (lone (sleeper 0) .sleep 0) (wakeup1 6 chan) (Original.wakeup1 chan)) ∧
      (∀ pid, Agree (lone (sleeper 0) .sleep 0) (kill 6 pid) (Original.kill pid)) ∧
      ∀ me, Agree (lone (sleeper 0) .sleep 0) (exitKids 6 me) (Original.exitKids me) := by
  have hpart : Partitioned 6 (lone (sleeper 0) .sleep 0) :=
    lone_partitioned 0 rfl (by decide) trivial
  have hpids : PidsApart (lone (sleeper 0) .sleep 0) := by
    unfold PidsApart
    decide +kernel
  have hrange : SleepersInRange 6 (lone (sleeper 0) .sleep 0) := by
    unfold SleepersInRange
    decide +kernel
  exact ⟨⟨hpart, hpids, hrange⟩, lists_agree_with_scans hpart hpids hrange⟩

/-- A free slot with the pid of a later process takes the `kill` of the scan;
and a sleeper whose priority is out of range makes `wakeup1` leave `ready[]`. -/
theorem scans_differ :
    (∃ s, Partitioned 6 s ∧ (∀ p q, (s.proc p).state ≠ .unused → (s.proc q).state ≠ .unused →
        p ≠ q → (s.proc p).pid ≠ (s.proc q).pid) ∧
      ∃ pid, ¬ Agree s (kill 6 pid) (Original.kill pid)) ∧
    ∃ s, Partitioned 6 s ∧ (∀ p q, (s.proc p).state ≠ .unused → (s.proc q).state ≠ .unused →
        p ≠ q → (s.proc p).pid ≠ (s.proc q).pid) ∧
      ∃ chan, ¬ Agree s (wakeup1 6 chan) (Original.wakeup1 chan) := by
  refine ⟨⟨lone (sleeper 0) .sleep 5, lone_partitioned 5 rfl (by decide) trivial, ?_, 5, ?_⟩,
    lone (sleeper 7) .sleep 0, lone_partitioned 0 rfl (by decide) trivial, ?_,
    some (.addr 0), ?_⟩
  · exact fun p q hp hq hne => absurd (lone_distinct _ _ _ p q hp hq) hne
  · intro h
    have h1 := h.proc_eq (p := 1) (by decide)
    revert h1
    decide +kernel
  · exact fun p q hp hq hne => absurd (lone_distinct _ _ _ p q hp hq) hne
  · intro h
    have h1 := h.proc_eq (p := 1) (by decide)
    revert h1
    decide +kernel

end Xv6Pdx.Ptable
