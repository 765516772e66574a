/-
# `Proc.Period` — the period of the promotions

`userinit` sets `PromoteAtTime = ticks + TICKS_TO_PROMOTE`, and every promotion
pass of `scheduler` adds `TICKS_TO_PROMOTE` to it.  Both counters are 32 bits
wide and are compared with `<=`.  A run is followed here together with the number
of timer ticks and of promotion passes since `userinit`, neither of which wraps.
After `PromoteAtTime` has passed a multiple of 2^32 that the time has not reached
yet, every pass promotes, until `ticks` wraps as well.
-/
import Xv6Pdx.Lib.Invariant
import Xv6Pdx.Proc.Range

namespace Xv6Pdx.Ptable

open Lib

/-! ## The routines that leave the clock alone -/

/-- The two counters that decide when to promote. -/
def Kernel.clock (s : Kernel) : Nat × Nat := (s.ticks, s.promoteAtTime)

abbrev Still {α : Type} (v : Nat × Nat) (m : KernelM α) : Prop :=
  Invariant (fun s => s.clock = v) (fun _ => True) m

section Frames

variable {maxPrio : Nat} {v : Nat × Nat}

theorem setProc_still (p : ProcPtr) (g : Proc → Proc) : Still v (setProc p g) :=
  .modify fun _ h => h

theorem onLists_still {α : Type} (m : ListM α) : Still v (onLists m) where
  keep s h := by
    unfold wp onLists
    cases m s.pLists with
    | ok r => exact h
    | error e => trivial

theorem assertState_still (p : ProcPtr) (st : ProcState) : Still v (assertState p st) :=
  .read fun _ _ => .ite (.throw trivial) (.pure _)

theorem moveProc_still (src dst : StateList) (old : ProcState) (g : Proc → Proc) (p : ProcPtr)
    (msg : String) : Still v (moveProc src dst old g p msg) :=
  (onLists_still _).bind fun _ => (assertState_still p old).bind fun _ =>
    (setProc_still p g).bind fun _ => (onLists_still _).bind fun _ => .ite (.throw trivial) (.pure _)

theorem forNext_still {body : ProcPtr → KernelM Unit} (hb : ∀ p, Still v (body p)) :
    ∀ n h, Still v (forNext body n h) := by
  intro n
  induction n with
  | zero =>
    intro h
    cases h with
    | none => exact .pure _
    | some p => exact .throw trivial
  | succ n ih =>
    intro h
    cases h with
    | none => exact .pure _
    | some p => exact (hb p).bind fun _ => .read fun s _ => ih (s.pLists.next p)

theorem forSaved_still {body : ProcPtr → KernelM Unit} (hb : ∀ p, Still v (body p)) :
    ∀ n h, Still v (forSaved body n h) := by
  intro n
  induction n with
  | zero =>
    intro h
    cases h with
    | none => exact .pure _
    | some p => exact .throw trivial
  | succ n ih =>
    intro h
    cases h with
    | none => exact .pure _
    | some p => exact .read fun s _ => (hb p).bind fun _ => ih (s.pLists.next p)

theorem findNext_still (f : Kernel → ProcPtr → Bool) : ∀ n h, Still v (findNext f n h) := by
  intro n
  induction n with
  | zero =>
    intro h
    cases h with
    | none => exact .pure _
    | some p => exact .throw trivial
  | succ n ih =>
    intro h
    cases h with
    | none => exact .pure _
    | some p => exact .read fun s _ => .ite (.pure _) (ih (s.pLists.next p))

theorem forIndex_still {body : Nat → KernelM Unit} (hb : ∀ i, Still v (body i)) :
    ∀ n i, Still v (forIndex body n i) := by
  intro n
  induction n with
  | zero => exact fun _ => .pure _
  | succ n ih => exact fun i => (hb i).bind fun _ => ih (i + 1)

theorem findOn_still (l : StateList) (f : Kernel → ProcPtr → Bool) : Still v (findOn l f) :=
  .read fun _ _ => findNext_still f _ _

theorem findReady_still (f : Kernel → ProcPtr → Bool) : ∀ n i, Still v (findReady f n i) := by
  intro n
  induction n with
  | zero => exact fun _ => .pure _
  | succ n ih =>
    intro i
    refine (findOn_still _ f).bind fun r => ?_
    cases r with
    | none => exact ih (i + 1)
    | some p => exact .pure _

theorem readyList_still (prio : Int) : Still v (readyList maxPrio prio) :=
  .ite (.pure _) (.throw trivial)

theorem demote_still (p : ProcPtr) : Still v (demote maxPrio p) := by
  refine .read fun s _ => .ite (.ite ?_ ?_) (setProc_still p _)
  · refine (readyList_still _).bind fun _ => (onLists_still _).bind fun _ => ?_
    refine (readyList_still _).bind fun _ => (onLists_still _).bind fun _ => .ite ?_ ?_
    · exact (Invariant.throw trivial).bind fun _ => (setProc_still p _).bind fun _ => setProc_still p _
    · exact (setProc_still p _).bind fun _ => setProc_still p _
  · exact (setProc_still p _).bind fun _ => setProc_still p _

theorem sched_still (p : ProcPtr) : Still v (sched maxPrio p) := by
  have hrest : Still v (do
      let s ← get
      if (s.proc p).budget < 1 then demote maxPrio p : KernelM Unit) :=
    .read fun _ _ => .ite (demote_still p) (.pure _)
  exact .read fun s _ => .ite ((Invariant.throw trivial).bind fun _ => (setProc_still p _).bind fun _ => hrest)
    ((setProc_still p _).bind fun _ => hrest)

theorem yield_still (p : ProcPtr) : Still v (yield maxPrio p) :=
  .read fun _ _ => (readyList_still _).bind fun _ => (moveProc_still ..).bind fun _ => sched_still p

theorem sleep_still (p : ProcPtr) (chan : Chan) : Still v (sleep maxPrio p chan) :=
  (setProc_still p _).bind fun _ => (moveProc_still ..).bind fun _ => sched_still p

theorem wakeup1_still (chan : Option Chan) : Still v (wakeup1 maxPrio chan) := by
  refine .read fun _ _ => forSaved_still (fun p => ?_) _ _
  exact .read fun _ _ => .ite ((readyList_still _).bind fun _ => moveProc_still ..) (.pure _)

theorem kill_still (pid : Nat) : Still v (kill maxPrio pid) := by
  have hmark : ∀ p : ProcPtr, Still v (do
      setProc p fun q => { q with killed := true }
      pure 0 : KernelM Int) := fun p => (setProc_still p _).bind fun _ => .pure _
  refine (findOn_still _ _).bind fun r => ?_
  cases r with
  | some p => exact hmark p
  | none =>
  refine (findOn_still _ _).bind fun r => ?_
  cases r with
  | some p => exact (setProc_still p _).bind fun _ => (moveProc_still ..).bind fun _ => .pure _
  | none =>
  refine (findReady_still _ _ _).bind fun r => ?_
  cases r with
  | some r => exact hmark r.2
  | none =>
  refine (findOn_still _ _).bind fun r => ?_
  cases r with
  | some p => exact hmark p
  | none =>
  refine (findOn_still _ _).bind fun r => ?_
  cases r with
  | some p => exact hmark p
  | none => exact .pure _

theorem allocproc_still : Still v allocproc := by
  refine .read fun s _ => (onLists_still _).bind fun _ => .ite (.pure _) ?_
  cases s.pLists.head .free with
  | none => exact .throw trivial
  | some p =>
    have hrest : Still v (do
        let s ← get
        setProc p fun q => { q with state := .embryo, pid := s.nextpid % 2 ^ 32 }
        modify fun s => { s with nextpid := s.nextpid + 1 }
        pure (some p) : KernelM (Option ProcPtr)) :=
      .read fun _ _ => (setProc_still p _).bind fun _ =>
        .bind (.modify fun _ h => h) fun _ => .pure _
    exact (assertState_still p _).bind fun _ => (setProc_still p _).bind fun _ =>
      (onLists_still _).bind fun _ => .ite ((Invariant.throw trivial).bind fun _ => hrest) hrest

theorem allocprocStack_still (np : ProcPtr) (page : Nat) : Still v (allocprocStack np page) :=
  .read fun _ _ => (setProc_still np _).bind fun _ => .modify fun _ h => h

/-- The paths of `allocproc` and `fork` that give the new process back. -/
theorem abandon_still (np : ProcPtr) : Still v (allocprocFail np) ∧ Still v (forkFail np) :=
  ⟨(setProc_still np _).bind fun _ => moveProc_still ..,
    (setProc_still np _).bind fun _ => moveProc_still ..⟩

theorem forkCopy_still (p np : ProcPtr) : Still v (forkCopy p np) :=
  .read fun _ _ => setProc_still np _

theorem forkReady_still (p np : ProcPtr) : Still v (forkReady maxPrio p np) :=
  .read fun _ _ => (readyList_still _).bind fun _ => moveProc_still ..

theorem reparentLists_still (me : ProcPtr) : Still v (reparentLists maxPrio me) := by
  have hlist : ∀ l, Still v (reparentList me l) := by
    refine fun l => .read fun _ _ => forNext_still (fun p => ?_) _ _
    exact .read fun _ _ => .ite (setProc_still p _) (.pure _)
  exact (hlist _).bind fun _ => (forIndex_still (fun i => hlist _) _ _).bind fun _ =>
    (hlist _).bind fun _ => hlist _

theorem reparentZombies_still (me : ProcPtr) : Still v (reparentZombies maxPrio me) := by
  refine .read fun _ _ => forNext_still (fun p => ?_) _ _
  exact .read fun _ _ => .ite ((setProc_still p _).bind fun _ => wakeup1_still _) (.pure _)

theorem exit_still (me : ProcPtr) : Still v (exit maxPrio me) := by
  have hrest : ∀ parent : Option Chan, Still v (do
      wakeup1 maxPrio parent
      reparentLists maxPrio me
      reparentZombies maxPrio me
      moveProc .running .zombie .running (fun q => { q with state := .zombie }) me "exit\n"
      sched maxPrio me : KernelM Unit) := fun parent =>
    (wakeup1_still parent).bind fun _ => (reparentLists_still me).bind fun _ =>
      (reparentZombies_still me).bind fun _ => (moveProc_still ..).bind fun _ => sched_still me
  exact .read fun _ _ => .ite ((Invariant.throw trivial).bind fun _ => hrest _) (hrest _)

theorem childOn_still (low : Nat) (me : ProcPtr) (l : StateList) : Still v (childOn low me l) :=
  (findOn_still _ _).bind fun _ => .pure _

theorem waitLoop_still (low : Nat) (me : ProcPtr) (havekids : Bool) :
    Still v (waitLoop maxPrio low me havekids) := by
  refine (findOn_still _ _).bind fun r => ?_
  cases r with
  | some p =>
    have hreap : Still v (reap p) :=
      .read fun _ _ => (moveProc_still ..).bind fun _ => .pure _
    exact hreap.bind fun _ => .pure _
  | none =>
    refine (findReady_still _ _ _).bind fun _ => (childOn_still ..).bind fun _ =>
      (childOn_still ..).bind fun _ => (childOn_still ..).bind fun _ => .read fun _ _ => ?_
    exact .ite (.pure _) (.ite (.pure _) ((sleep_still me _).bind fun _ => .pure _))

theorem dispatch_still (c j : Nat) (p : ProcPtr) : Still v (dispatch c j p) :=
  (moveProc_still ..).bind fun _ => .bind (.modify fun _ h => h) fun _ =>
    .read fun _ _ => setProc_still p _

theorem resumed_still (c low : Nat) (p : ProcPtr) : Still v (resumed maxPrio c low p) := by
  refine .read fun s _ => ?_
  cases s.resume p with
  | forkret => exact .pure _
  | yield => exact .pure _
  | sleep => exact setProc_still p _
  | wait =>
    refine (setProc_still p _).bind fun _ => (waitLoop_still low p true).bind fun r => ?_
    cases r with
    | some _ => exact .pure _
    | none => exact .modify fun _ h => h

theorem setpriority_still (pid : Nat) (priority : Int) :
    Still v (setpriority maxPrio pid priority) := by
  have hbudget : ∀ (p : ProcPtr) (g : Proc → Proc), Still v (do
      setProc p g
      pure 0 : KernelM Int) := fun p g => (setProc_still p g).bind fun _ => .pure _
  have hrequeue : ∀ src old p msg,
      Still v (requeue maxPrio src old priority p msg) := fun src old p msg =>
    .read fun _ _ => .ite (hbudget p _)
      ((readyList_still _).bind fun _ => (moveProc_still ..).bind fun _ => .pure _)
  refine .ite (.pure _) ((findOn_still _ _).bind fun r => ?_)
  cases r with
  | some p => exact hrequeue ..
  | none =>
  refine (findReady_still _ _ _).bind fun r => ?_
  cases r with
  | some r => exact hrequeue ..
  | none =>
  refine (findOn_still _ _).bind fun r => ?_
  cases r with
  | some p => exact .read fun _ _ => .ite (hbudget p _) (hbudget p _)
  | none => exact .pure _

theorem switched_still (c : Nat) (p : ProcPtr) (r : Resume) :
    Still v (switched c p r) := .modify fun _ h => h

theorem setTask_still (p : ProcPtr) (t : Task) : Still v (setTask p t) :=
  .modify fun _ h => h

theorem initProcessLists_still : Still v (initProcessLists maxPrio) := by
  refine .bind (forIndex_still (fun _ => ?_) _ _) fun _ => ?_
  · exact .modify fun _ h => h
  · exact .modify fun _ h => h

theorem initFree_still (ps : List ProcPtr) : Still v (initFree ps) := by
  induction ps with
  | nil => exact .pure _
  | cons p ps ih => exact (setProc_still p _).bind fun _ => (onLists_still _).bind fun _ => ih

theorem startInit_still (p : ProcPtr) : Still v (startInit maxPrio p) :=
  .bind (.modify fun _ h => h) fun _ => (setProc_still p _).bind fun _ => .read fun _ _ =>
    (readyList_still _).bind fun _ => (moveProc_still ..).bind fun _ =>
      (setProc_still p _).bind fun _ => .modify fun _ h => h

theorem procAction_still {c : Nat} {p : ProcPtr} {t : Task} {a : Action} {m : KernelM Unit}
    (hm : procAction maxPrio c p t a = some m) : Still v m := by
  unfold procAction at hm
  split at hm
  · cases hm
    exact (yield_still p).bind fun _ => switched_still ..
  · split at hm <;> cases hm
    exact (sleep_still p _).bind fun _ => switched_still ..
  · split at hm <;> cases hm
    exact (exit_still p).bind fun _ => .modify fun _ h => h
  · split at hm <;> cases hm
    refine (waitLoop_still _ p false).bind fun r => ?_
    cases r with
    | some _ => exact .pure _
    | none => exact switched_still ..
  · split at hm <;> cases hm
    refine allocproc_still.bind fun r => ?_
    cases r with
    | some np => exact setTask_still ..
    | none => exact .pure _
  · split at hm <;> cases hm
    · exact (allocprocStack_still ..).bind fun _ => setTask_still ..
    · exact (abandon_still _).1.bind fun _ => setTask_still ..
  · split at hm <;> cases hm
    · exact (forkCopy_still ..).bind fun _ => setTask_still ..
    · exact (abandon_still _).2.bind fun _ => setTask_still ..
  · split at hm <;> cases hm
    exact (forkReady_still ..).bind fun _ => setTask_still ..
  · cases hm

end Frames

/-! ## What each event does to the clock -/

section Clock

variable {maxPrio : Nat} {s s' : Kernel}

/-- `PromoteAtTime` after a pass of the scheduler. -/
def Kernel.nextPromotion (s : Kernel) : Nat :=
  if s.promoteAtTime ≤ s.ticks then (s.promoteAtTime + TICKS_TO_PROMOTE) % 2 ^ 32
  else s.promoteAtTime

theorem promote_clock (maxPrio : Nat) (s : Kernel) :
    wp (promote maxPrio) (fun _ s' => s'.clock = (s.ticks, s.nextPromotion)) (fun _ => True) s := by
  have hlower : ∀ msg p, Still s.clock (promoteProc msg p) := fun msg p =>
    .read fun _ _ => .ite ((Invariant.throw trivial).bind fun _ => .ite (setProc_still p _) (.pure _))
      (.ite (setProc_still p _) (.pure _))
  have hclimb : ∀ i, Still s.clock (promoteList i) := fun i =>
    .read fun _ _ => forSaved_still (fun p => .read fun _ _ => .ite (.throw trivial)
      ((onLists_still _).bind fun _ => (setProc_still p _).bind fun _ =>
        (onLists_still _).bind fun _ => .pure _)) _ _
  simp only [promote, wp_bind, wp_get]
  by_cases hdue : s.promoteAtTime ≤ s.ticks
  · rw [if_pos hdue, Kernel.nextPromotion, if_pos hdue]
    refine wp_seq ((forSaved_still (hlower _) _ _).keep s rfl) fun _ s₁ h₁ => ?_
    refine wp_seq ((forIndex_still hclimb _ _).keep s₁ h₁) fun _ s₂ h₂ => ?_
    rw [wp_bind, wp_get]
    refine wp_seq ((forSaved_still (hlower _) _ _).keep s₂ h₂) fun _ s₃ h₃ => ?_
    obtain ⟨hticks, htime⟩ := Prod.mk.inj h₃
    rw [wp_modify, Kernel.clock, hticks, htime]
  · rw [if_neg hdue, Kernel.nextPromotion, if_neg hdue]
    rfl

theorem scheduler_clock (maxPrio c low : Nat) (s : Kernel) :
    wp (scheduler maxPrio c low) (fun _ s' => s'.clock = (s.ticks, s.nextPromotion))
      (fun _ => True) s := by
  refine wp_seq (promote_clock maxPrio s) fun _ s₁ h₁ => ?_
  refine Invariant.keep ?_ s₁ h₁
  refine (findReady_still _ _ _).bind fun r => ?_
  cases r with
  | none => exact .pure _
  | some r => exact (dispatch_still ..).bind fun _ => resumed_still ..

def Kernel.clockAfter (s : Kernel) : Event → Nat × Nat
  | .act .tick => ((s.ticks + 1) % 2 ^ 32, s.promoteAtTime)
  | .act (.scheduler _ _) => (s.ticks, s.nextPromotion)
  | _ => s.clock

theorem program_clock {a : Action} {m : KernelM Unit} (hm : program maxPrio s a = some m) :
    wp m (fun _ s' => s'.clock = s.clockAfter (.act a)) (fun _ => True) s := by
  cases a with
  | tick =>
    cases hm
    rfl
  | wakeup chan =>
    cases hm
    exact (wakeup1_still _).keep s rfl
  | kill pid =>
    cases hm
    exact ((kill_still pid).bind fun _ => .pure _).keep s rfl
  | scheduler c low =>
    simp only [program] at hm
    split at hm
    · cases hm
      exact scheduler_clock maxPrio c low s
    · cases hm
  | _ =>
    obtain ⟨p, -, hp⟩ := program_process maxPrio rfl hm
    exact (procAction_still hp).keep s rfl

theorem happen_clock {e : Event} (h : happen maxPrio s e = some (.ok s')) :
    s'.clock = s.clockAfter e := by
  cases e with
  | act a =>
    obtain ⟨m, hm, hr⟩ := Option.map_eq_some_iff.mp h
    cases hres : m s with
    | ok r =>
      rw [hres] at hr
      cases hr
      have hclock := wp_of_ok (program_clock hm) hres
      exact hclock
    | error e =>
      rw [hres] at hr
      cases hr
  | setpriority pid priority =>
    have hr := Option.some.inj h
    cases hres : setpriority maxPrio pid priority s with
    | ok r =>
      rw [hres] at hr
      cases hr
      exact (setpriority_still pid priority).of_ok rfl hres
    | error e =>
      rw [hres] at hr
      cases hr

theorem userinit_clock {ticks page : Nat} (h : userinit maxPrio page (boot ticks) = .ok ((), s)) :
    s.clock = (ticks, (ticks + TICKS_TO_PROMOTE) % 2 ^ 32) := by
  have hinit : wp (userinit maxPrio page)
      (fun _ s' => s'.clock = (ticks, (ticks + TICKS_TO_PROMOTE) % 2 ^ 32)) (fun _ => True)
      (boot ticks) := by
    rw [userinit, wp_bind, wp_modify]
    refine Invariant.keep ?_ _ rfl
    refine initProcessLists_still.bind fun _ => (initFree_still _).bind fun _ =>
      allocproc_still.bind fun r => ?_
    cases r with
    | none => exact .throw trivial
    | some p => exact (allocprocStack_still p page).bind fun _ => startInit_still p
  have hclock := wp_of_ok hinit h
  exact hclock

end Clock

/-! ## Time and promotions since `userinit` -/

/-- A kernel, the timer ticks and the promotion passes since `userinit`. -/
structure Timeline where
  kernel : Kernel
  elapsed : Nat
  promotions : Nat

def Timeline.start (s : Kernel) : Timeline := { kernel := s, elapsed := 0, promotions := 0 }

def Event.ticks : Event → Nat
  | .act .tick => 1
  | _ => 0

/-- The promotion passes in an event: one in a pass of the scheduler that finds
the promotion due. -/
def Event.promotions (s : Kernel) : Event → Nat
  | .act (.scheduler _ _) => if s.promoteAtTime ≤ s.ticks then 1 else 0
  | _ => 0

section Timeline

variable (maxPrio : Nat)

def Timeline.next (t : Timeline) (e : Event) : Option Timeline :=
  match happen maxPrio t.kernel e with
  | some (.ok s') => some {
      kernel := s'
      elapsed := t.elapsed + e.ticks
      promotions := t.promotions + e.promotions t.kernel }
  | _ => none

/-- The events of a run, one after the other. -/
def timeline (es : List Event) (t : Timeline) : Option Timeline :=
  es.foldlM (Timeline.next maxPrio) t

variable {maxPrio : Nat} {t t' : Timeline} {t₀ : Nat}

theorem Timeline.of_next {e : Event} (h : t.next maxPrio e = some t') :
    happen maxPrio t.kernel e = some (.ok t'.kernel) ∧ t'.elapsed = t.elapsed + e.ticks ∧
      t'.promotions = t.promotions + e.promotions t.kernel := by
  unfold Timeline.next at h
  split at h
  · next s' hs =>
      cases h
      exact ⟨hs, rfl, rfl⟩
  · cases h

theorem timeline_snoc {es : List Event} {e : Event} {t₁ : Timeline} :
    timeline maxPrio (es ++ [e]) t = some t₁ ↔
      ∃ t₂, timeline maxPrio es t = some t₂ ∧ t₂.next maxPrio e = some t₁ := by
  simp [timeline, List.foldlM_append, Option.bind_eq_some_iff]

/-- The counters are the unbounded times, cut to 32 bits. -/
structure Synced (t₀ : Nat) (t : Timeline) : Prop where
  ticks : t.kernel.ticks = (t₀ + t.elapsed) % 2 ^ 32
  promoteAtTime : t.kernel.promoteAtTime = (t₀ + TICKS_TO_PROMOTE * (t.promotions + 1)) % 2 ^ 32

theorem Synced.start {page : Nat} {s : Kernel} (ht : t₀ < 2 ^ 32)
    (h : userinit maxPrio page (boot t₀) = .ok ((), s)) : Synced t₀ (.start s) := by
  obtain ⟨hticks, htime⟩ := Prod.mk.inj (userinit_clock h)
  refine ⟨?_, ?_⟩
  · show s.ticks = _
    rw [hticks]
    exact (Nat.mod_eq_of_lt ht).symm
  · exact htime

/-- An event is a timer tick, a pass of the scheduler, or neither and leaves the
clock alone. -/
theorem Event.kinds (e : Event) : e = .act .tick ∨ (∃ c low, e = .act (.scheduler c low)) ∨
    e.ticks = 0 ∧ ∀ s, e.promotions s = 0 ∧ s.clockAfter e = s.clock := by
  cases e with
  | setpriority pid priority => exact .inr (.inr ⟨rfl, fun _ => ⟨rfl, rfl⟩⟩)
  | act a =>
    cases a with
    | tick => exact .inl rfl
    | scheduler c low => exact .inr (.inl ⟨c, low, rfl⟩)
    | _ => exact .inr (.inr ⟨rfl, fun _ => ⟨rfl, rfl⟩⟩)

theorem Synced.next (h : Synced t₀ t) {e : Event} (hn : t.next maxPrio e = some t') :
    Synced t₀ t' := by
  obtain ⟨hhappen, helapsed, hpromotions⟩ := Timeline.of_next hn
  have hticks := h.ticks
  have htime := h.promoteAtTime
  have hclock := happen_clock hhappen
  rcases e.kinds with rfl | ⟨c, low, rfl⟩ | ⟨hno, hquiet⟩
  · obtain ⟨h1, h2⟩ := Prod.mk.inj hclock
    simp only [Event.ticks, Event.promotions] at helapsed hpromotions
    refine ⟨?_, ?_⟩
    · rw [h1, hticks, helapsed]
      omega
    · rw [h2, htime, hpromotions]
  · obtain ⟨h1, h2⟩ := Prod.mk.inj hclock
    simp only [Event.ticks, Event.promotions] at helapsed hpromotions
    refine ⟨?_, ?_⟩
    · rw [h1, hticks, helapsed]
      rfl
    · rw [h2, Kernel.nextPromotion, hpromotions]
      split
      · rw [htime, TICKS_TO_PROMOTE]
        omega
      · exact htime
  · obtain ⟨h1, h2⟩ := Prod.mk.inj (hclock.trans (hquiet t.kernel).2)
    rw [hno, Nat.add_zero] at helapsed
    rw [(hquiet t.kernel).1, Nat.add_zero] at hpromotions
    exact ⟨by rw [h1, hticks, helapsed], by rw [h2, htime, hpromotions]⟩

theorem Synced.run {es : List Event} (h : Synced t₀ t) (hr : timeline maxPrio es t = some t') :
    Synced t₀ t' := by
  induction es using List.reverseRecOn generalizing t' with
  | nil =>
    cases hr
    exact h
  | append_singleton es e ih =>
    obtain ⟨t₁, h₁, hn⟩ := timeline_snoc.mp hr
    exact (ih h₁).next hn

/-! ## The period -/

/-- No more promotion passes than periods. -/
def Timeline.Periodic (t : Timeline) : Prop := t.promotions ≤ t.elapsed / TICKS_TO_PROMOTE

/-- The time of the next promotion is in the same round of the 32-bit counter as
the present time, or in an earlier one. -/
def Timeline.SameRound (t₀ : Nat) (t : Timeline) : Prop :=
  (t₀ + TICKS_TO_PROMOTE * (t.promotions + 1)) / 2 ^ 32 ≤ (t₀ + t.elapsed) / 2 ^ 32

/-- A pass of the scheduler keeps the period exactly if it finds both times in the
same round. -/
theorem Synced.pass_iff (h : Synced t₀ t) (hp : t.Periodic) {c low : Nat}
    (hn : t.next maxPrio (.act (.scheduler c low)) = some t') :
    t'.Periodic ↔ t.SameRound t₀ := by
  obtain ⟨-, helapsed, hpromotions⟩ := Timeline.of_next hn
  have hticks := h.ticks
  have htime := h.promoteAtTime
  simp only [Event.ticks, Event.promotions] at helapsed hpromotions
  simp only [Timeline.Periodic, Timeline.SameRound, TICKS_TO_PROMOTE] at *
  by_cases hdue : t.kernel.promoteAtTime ≤ t.kernel.ticks
  · rw [if_pos hdue] at hpromotions
    omega
  · rw [if_neg hdue] at hpromotions
    omega

theorem Timeline.Periodic.next (hp : t.Periodic) {e : Event} (hn : t.next maxPrio e = some t')
    (hpass : ∀ c low, e ≠ .act (.scheduler c low)) : t'.Periodic := by
  obtain ⟨-, helapsed, hpromotions⟩ := Timeline.of_next hn
  have hno : e.promotions t.kernel = 0 := by
    rcases e.kinds with rfl | ⟨c, low, rfl⟩ | ⟨-, hquiet⟩
    · rfl
    · exact absurd rfl (hpass c low)
    · exact (hquiet t.kernel).1
  rw [hno, Nat.add_zero] at hpromotions
  unfold Timeline.Periodic at *
  rw [hpromotions, helapsed]
  exact hp.trans (Nat.div_le_div_right (Nat.le_add_right _ _))

/-- In a run the promotions keep their period throughout exactly if every pass of
the scheduler finds the next promotion in the same round as the present time. -/
theorem promotions_bounded_iff {page : Nat} {s : Kernel} {es : List Event} (ht : t₀ < 2 ^ 32)
    (hboot : userinit maxPrio page (boot t₀) = .ok ((), s))
    (hrun : timeline maxPrio es (.start s) = some t) :
    (∀ es₁ t₁, es₁ <+: es → timeline maxPrio es₁ (.start s) = some t₁ → t₁.Periodic) ↔
      ∀ es₁ c low t₁, es₁ ++ [.act (.scheduler c low)] <+: es →
        timeline maxPrio es₁ (.start s) = some t₁ → t₁.SameRound t₀ := by
  have hsync : ∀ {es₁ t₁}, timeline maxPrio es₁ (.start s) = some t₁ → Synced t₀ t₁ :=
    fun h => (Synced.start ht hboot).run h
  constructor
  · intro hall es₁ c low t₁ hpre h₁
    obtain ⟨es₂, rfl⟩ := hpre
    obtain ⟨t₂, h₂⟩ : ∃ t₂, timeline maxPrio (es₁ ++ [.act (.scheduler c low)]) (.start s)
        = some t₂ := by
      rw [timeline, List.foldlM_append] at hrun
      obtain ⟨t₂, h₂, -⟩ := Option.bind_eq_some_iff.mp hrun
      exact ⟨t₂, h₂⟩
    obtain ⟨t₁', h₁', hn⟩ := timeline_snoc.mp h₂
    obtain rfl : t₁' = t₁ := Option.some.inj (h₁'.symm.trans h₁)
    have hbefore := hall es₁ t₁' ((List.prefix_append _ _).trans (List.prefix_append _ _)) h₁
    exact ((hsync h₁).pass_iff hbefore hn).mp (hall _ t₂ (List.prefix_append _ _) h₂)
  · intro hall es₁
    induction es₁ using List.reverseRecOn with
    | nil =>
      intro t₁ _ h₁
      cases h₁
      exact Nat.zero_le _
    | append_singleton es₁ e ih =>
      intro t₂ hpre h₂
      obtain ⟨t₁, h₁, hn⟩ := timeline_snoc.mp h₂
      have hp := ih t₁ ((List.prefix_append _ _).trans hpre) h₁
      by_cases hpass : ∃ c low, e = .act (.scheduler c low)
      · obtain ⟨c, low, rfl⟩ := hpass
        exact ((hsync h₁).pass_iff hp hn).mpr (hall es₁ c low t₁ hpre h₁)
      · exact hp.next hn fun c low he => hpass ⟨c, low, he⟩

/-! ## Runs of an idle machine -/

/-- CPU 1 has no process, and no process is ready. -/
def Idle (maxPrio : Nat) (s : Kernel) : Prop :=
  ∃ A, Shows s A ∧ Inv maxPrio A ∧ A.cpu 1 = none ∧ ∀ p i, A.loc p ≠ .ready i

theorem promote_loc_idle {A : View} (h : ∀ p i, A.loc p ≠ .ready i) :
    (A.promote maxPrio).loc = A.loc := by
  funext p
  have hp := h p
  cases hl : A.loc p with
  | ready i => exact absurd hl (hp i)
  | _ => simp [View.promote, hl]

theorem Idle.tick {s : Kernel} (h : Idle maxPrio s) :
    ∃ s', happen maxPrio s (.act .tick) = some (.ok s') ∧ Idle maxPrio s' := by
  obtain ⟨A, hshow, hinv, hcpu, hloc⟩ := h
  have htick : Trans maxPrio (fun _ => True) A A.tick := .tick
  refine ⟨_, rfl, A.tick, ?_, htick.inv hinv, hcpu, hloc⟩
  exact hshow.map (fun s => { s with ticks := (s.ticks + 1) % 2 ^ 32 }) (fun A => A.tick)
    rfl (fun _ => rfl) rfl

/-- A pass of the scheduler on CPU 1 promotes, if it is due, and finds nothing to run. -/
theorem Idle.pass {s : Kernel} (h : Idle maxPrio s) :
    ∃ s', happen maxPrio s (.act (.scheduler 1 0)) = some (.ok s') ∧ Idle maxPrio s' := by
  obtain ⟨A, hshow, hinv, hcpu, hloc⟩ := h
  have hpass : wp (scheduler maxPrio 1 0) (fun _ s' => Idle maxPrio s') (fun _ => False) s := by
    refine wp_seq (promote_spec hshow hinv) fun _ s₁ h₁ => ?_
    have hidle : Idle maxPrio s₁ := by
      refine ⟨_, h₁, ?_⟩
      split
      · have hpromote : Trans maxPrio (fun _ => True) A (A.promote maxPrio) := .promote
        refine ⟨hpromote.inv hinv, hcpu, ?_⟩
        rw [promote_loc_idle hloc]
        exact hloc
      · exact ⟨hinv, hcpu, hloc⟩
    obtain ⟨B, hB, -, -, hnone⟩ := id hidle
    refine wp_seq (pickReady_spec hB) ?_
    rintro (_ | ⟨j, p⟩) s₂ ⟨rfl, hp⟩
    · exact hidle
    · exact absurd hp.1 (hnone p j)
  obtain ⟨_, s', hs', hidle⟩ := wp_total hpass
  refine ⟨s', ?_, hidle⟩
  obtain ⟨V, hrep⟩ := hshow
  have hprog : program maxPrio s (.scheduler 1 0) = some (scheduler maxPrio 1 0) := by
    simp only [program, hrep.cpu, hcpu]
  simp only [happen, step, hprog, Option.map_some, hs']

/-- The first pass after `userinit` runs the first process on CPU 0. -/
theorem first_pass {page : Nat} {s : Kernel} (h : userinit maxPrio page (boot t₀) = .ok ((), s)) :
    ∃ s', happen maxPrio s (.act (.scheduler 0 0)) = some (.ok s') ∧ Idle maxPrio s' := by
  obtain ⟨time, p, hshow⟩ := wp_of_ok (userinit_spec maxPrio t₀ page) h
  have hinv : Inv maxPrio (View.initial t₀ time page p) := initial_inv t₀ time page p
  have hpass : wp (scheduler maxPrio 0 0) (fun _ s' => Idle maxPrio s') (fun _ => False) s := by
    refine wp_seq (promote_spec hshow hinv) fun _ s₁ h₁ => ?_
    obtain ⟨A, hA, hinvA, hloc, hcpu, hresume⟩ : ∃ A, Shows s₁ A ∧ Inv maxPrio A ∧
        A.loc = (View.initial t₀ time page p).loc ∧ A.cpu = (fun _ => none) ∧
        A.resume = (fun _ => .forkret) := by
      split at h₁
      · have hpromote : Trans maxPrio (fun _ => True) (View.initial t₀ time page p) _ := .promote
        refine ⟨_, h₁, hpromote.inv hinv, ?_, rfl, rfl⟩
        funext q
        by_cases hq : q = p
        · simp [View.promote, initial_loc, hq]
        · simp [View.promote, initial_loc, hq]
      · exact ⟨_, h₁, hinv, rfl, rfl, rfl⟩
    obtain ⟨V, hrep⟩ := id hA
    refine wp_seq (findReady_loc hrep (fun _ _ => true) _ (maxPrio + 1) 0) ?_
    rintro (_ | ⟨j, q⟩) s₂ ⟨rfl, hq⟩
    · have hp : A.loc p = .ready 0 := by rw [hloc, initial_loc, if_pos rfl]
      exact absurd (hq 0 (Nat.le_refl 0) (by omega) p hp) (by decide)
    · obtain rfl : q = p := by
        by_contra hne
        have hfree := hq.1
        rw [hloc, initial_loc, if_neg hne] at hfree
        cases hfree
      have hj : j = 0 := by
        have hready := hq.1
        rw [hloc, initial_loc, if_pos rfl] at hready
        exact (StateList.ready.inj hready).symm
      have hdispatch : Trans maxPrio (fun _ => True) A (A.dispatch 0 q) :=
        .dispatch 0 q j (by rw [hcpu]) hq.1 fun _ k _ => hj ▸ Nat.zero_le k
      refine wp_seq (dispatch_spec hA hinvA.procs 0 hq.1) fun _ s₃ h₃ => ?_
      obtain ⟨V₃, hrep₃⟩ := id h₃
      have hforkret : s₃.resume q = .forkret := by
        rw [hrep₃.resume]
        exact congrFun hresume q
      simp only [resumed, wp_bind, wp_get, hforkret, wp_pure]
      refine ⟨_, h₃, hdispatch.inv hinvA, ?_, ?_⟩
      · simp [View.dispatch, hcpu]
      · intro r i
        by_cases hr : r = q
        · simp [View.dispatch, View.move, hr]
        · simp [View.dispatch, View.move, hr, hloc, initial_loc]
  obtain ⟨_, s', hs', hidle⟩ := wp_total hpass
  refine ⟨s', ?_, hidle⟩
  obtain ⟨V, hrep⟩ := hshow
  have hprog : program maxPrio s (.scheduler 0 0) = some (scheduler maxPrio 0 0) := by
    simp only [program, hrep.cpu, View.initial]
  simp only [happen, step, hprog, Option.map_some, hs']

/-- From an idle kernel any sequence of ticks and passes on CPU 1 can happen. -/
theorem Idle.run (es : List Event) (hes : ∀ e ∈ es, e = .act .tick ∨ e = .act (.scheduler 1 0))
    (h : Idle maxPrio t.kernel) :
    ∃ t', timeline maxPrio es t = some t' ∧ Idle maxPrio t'.kernel := by
  induction es generalizing t with
  | nil => exact ⟨t, rfl, h⟩
  | cons e es ih =>
    obtain ⟨s', hs', h'⟩ : ∃ s', happen maxPrio t.kernel e = some (.ok s') ∧ Idle maxPrio s' := by
      rcases hes e List.mem_cons_self with rfl | rfl
      · exact h.tick
      · exact h.pass
    have hnext : t.next maxPrio e = some ⟨s', t.elapsed + e.ticks,
        t.promotions + e.promotions t.kernel⟩ := by
      simp only [Timeline.next, hs']
    obtain ⟨t', ht', hidle⟩ := ih (fun e' he' => hes e' (List.mem_cons_of_mem _ he'))
      (t := ⟨s', t.elapsed + e.ticks, t.promotions + e.promotions t.kernel⟩) h'
    refine ⟨t', ?_, hidle⟩
    rw [timeline, List.foldlM_cons, hnext]
    exact ht'

theorem timeline_append {es es' : List Event} {t₁ t₂ : Timeline}
    (h₁ : timeline maxPrio es t = some t₁) (h₂ : timeline maxPrio es' t₁ = some t₂) :
    timeline maxPrio (es ++ es') t = some t₂ := by
  rw [timeline, List.foldlM_append]
  exact Option.bind_eq_some_iff.mpr ⟨t₁, h₁, h₂⟩

theorem ticks_counted (n : Nat) (h : timeline maxPrio (List.replicate n (.act .tick)) t = some t') :
    t'.elapsed = t.elapsed + n ∧ t'.promotions = t.promotions := by
  induction n generalizing t' with
  | zero =>
    cases h
    exact ⟨rfl, rfl⟩
  | succ n ih =>
    rw [List.replicate_succ'] at h
    obtain ⟨t₁, h₁, hn⟩ := timeline_snoc.mp h
    obtain ⟨-, helapsed, hpromotions⟩ := Timeline.of_next hn
    obtain ⟨ih₁, ih₂⟩ := ih h₁
    rw [helapsed, hpromotions, ih₁, ih₂]
    exact ⟨rfl, rfl⟩

/-- With 1717986 periods gone by, each of the next 1717987 passes promotes: the last
of them finds `PromoteAtTime` wrapped. -/
theorem passes_counted (n : Nat) (hn : n ≤ 1717987) (hsync : Synced 0 t)
    (ht : t.elapsed = 1717986 * TICKS_TO_PROMOTE) (hp : t.promotions = 0)
    (h : timeline maxPrio (List.replicate n (.act (.scheduler 1 0))) t = some t') :
    t'.elapsed = t.elapsed ∧ t'.promotions = n := by
  induction n generalizing t' with
  | zero =>
    cases h
    exact ⟨rfl, hp⟩
  | succ n ih =>
    rw [List.replicate_succ'] at h
    obtain ⟨t₁, h₁, hnext⟩ := timeline_snoc.mp h
    obtain ⟨-, helapsed, hpromotions⟩ := Timeline.of_next hnext
    obtain ⟨ih₁, ih₂⟩ := ih (by omega) h₁
    have hsync₁ := hsync.run h₁
    have hdue : t₁.kernel.promoteAtTime ≤ t₁.kernel.ticks := by
      rw [hsync₁.promoteAtTime, hsync₁.ticks, ih₁, ih₂, ht]
      simp only [TICKS_TO_PROMOTE]
      rcases Nat.lt_or_ge n 1717986 with hlt | hge
      · rw [Nat.mod_eq_of_lt (by omega)]
        omega
      · obtain rfl : n = 1717986 := by omega
        decide
    simp only [Event.ticks, Event.promotions, if_pos hdue] at helapsed hpromotions
    omega

/-- Booted at time 0, after a first pass that dispatches the first process, `n` ticks
and then `k` passes on CPU 1 can happen. -/
theorem idle_timeline (n k : Nat) : ∃ s es t t', userinit 6 0 (boot 0) = .ok ((), s) ∧
    Synced 0 t ∧ t.elapsed = n ∧ t.promotions = 0 ∧ timeline 6 es (.start s) = some t ∧
    timeline 6 (List.replicate k (.act (.scheduler 1 0))) t = some t' := by
  obtain ⟨s, hboot⟩ := userinit_returns 6 0 0
  have hsync : Synced 0 (.start s) := .start (by decide) hboot
  obtain ⟨s₁, hs₁, hidle₁⟩ := first_pass hboot
  -- The first pass is too early to promote.
  have hearly : ¬ s.promoteAtTime ≤ s.ticks := by
    have hticks : s.ticks = _ := hsync.ticks
    have htime : s.promoteAtTime = _ := hsync.promoteAtTime
    rw [hticks, htime]
    simp [Timeline.start, TICKS_TO_PROMOTE]
  have hr₁ : timeline 6 [.act (.scheduler 0 0)] (.start s) = some ⟨s₁, 0, 0⟩ := by
    have hnext : (Timeline.start s).next 6 (.act (.scheduler 0 0)) = some ⟨s₁, 0, 0⟩ := by
      simp [Timeline.next, Timeline.start, hs₁, Event.ticks, Event.promotions, hearly]
    rw [timeline, List.foldlM_cons, hnext]
    rfl
  obtain ⟨t, hr, hidle⟩ := Idle.run (t := ⟨s₁, 0, 0⟩) (List.replicate n (.act .tick))
    (fun e he => .inl (List.eq_of_mem_replicate he)) hidle₁
  obtain ⟨t', hr', -⟩ := Idle.run (List.replicate k (.act (.scheduler 1 0)))
    (fun e he => .inr (List.eq_of_mem_replicate he)) hidle
  obtain ⟨helapsed, hpromotions⟩ := ticks_counted _ hr
  rw [Nat.zero_add] at helapsed
  exact ⟨s, _, t, t', hboot, (hsync.run hr₁).run hr, helapsed, hpromotions,
    timeline_append hr₁ hr, hr'⟩

/-- A period after the start the second pass promotes, and the promotions keep
their period. -/
theorem promotions_bounded_once : ∃ s es t, userinit 6 0 (boot 0) = .ok ((), s) ∧
    timeline 6 es (.start s) = some t ∧ t.promotions = 1 ∧ t.elapsed = TICKS_TO_PROMOTE ∧
    ((∀ es₁ t₁, es₁ <+: es → timeline 6 es₁ (.start s) = some t₁ → t₁.Periodic) ↔
      ∀ es₁ c low t₁, es₁ ++ [.act (.scheduler c low)] <+: es →
        timeline 6 es₁ (.start s) = some t₁ → t₁.SameRound 0) := by
  obtain ⟨s, es, t, t', hboot, hsync, helapsed, hpromotions, hr, hr'⟩ :=
    idle_timeline TICKS_TO_PROMOTE 1
  have hrun := timeline_append hr hr'
  rw [← List.nil_append (List.replicate _ _)] at hr'
  obtain ⟨t₁, h₁, hnext⟩ := timeline_snoc.mp hr'
  cases h₁
  obtain ⟨-, helapsed', hpromotions'⟩ := Timeline.of_next hnext
  have hdue : t.kernel.promoteAtTime ≤ t.kernel.ticks := by
    rw [hsync.promoteAtTime, hsync.ticks, helapsed, hpromotions]
    decide
  simp only [Event.ticks, Event.promotions, if_pos hdue] at helapsed' hpromotions'
  exact ⟨s, _, t', hboot, hrun, by omega, by omega, promotions_bounded_iff (by decide) hboot hrun⟩

/-- Booted at time 0, the kernel promotes 1717987 times in 1717986 periods. -/
theorem promotions_lose_period : ∃ s es t, userinit 6 0 (boot 0) = .ok ((), s) ∧
    timeline 6 es (.start s) = some t ∧ t.elapsed / TICKS_TO_PROMOTE < t.promotions := by
  obtain ⟨s, es, t, t', hboot, hsync, hel, hpromotions, hr, hr'⟩ :=
    idle_timeline (1717986 * TICKS_TO_PROMOTE) 1717987
  obtain ⟨helapsed', hpromotions'⟩ := passes_counted 1717987 (Nat.le_refl _) hsync hel
    hpromotions hr'
  refine ⟨s, _, t', hboot, timeline_append hr hr', ?_⟩
  rw [helapsed', hel, hpromotions']
  decide

end Timeline

end Xv6Pdx.Ptable
