/-
# `Proc.Fields` — what the routines assign, wherever the pointers lead

Some properties of the process table have nothing to do with the state lists:
each process has them or not, whatever list it is on.  For these it is enough to
know which fields a routine assigns and what it has tested before.

`P t p q` is such a property of the record `q` of process `p` at time `t`.
`Assigns` lists, once, every assignment that `proc.c` makes, with its guard; a
property that survives these is kept by every step (`program_keeps`), even
after `setpriority` has moved a running process to a ready list.
-/
import Xv6Pdx.Proc.Refine

namespace Xv6Pdx.Ptable

open Lib
open Function (update_self update_of_ne update_idem)

/-- A property of the record of a process at a time. -/
abbrev ProcProp := Nat → ProcPtr → Proc → Prop

def Every (P : ProcProp) (t : Nat) (f : ProcPtr → Proc) : Prop := ∀ p, P t p (f p)

/-- `m` keeps `P` at every process. -/
def Keeps {α : Type} (P : ProcProp) (E : Stop → Prop) (m : KernelM α) : Prop :=
  ∀ s, Every P s.ticks s.proc → wp m (fun _ s' => Every P s'.ticks s'.proc) E s

section Rules

variable {α β : Type} {P : ProcProp} {E : Stop → Prop} {s : Kernel}

theorem Every.update {t : Nat} {f : ProcPtr → Proc} (h : Every P t f) {p : ProcPtr} {q : Proc}
    (hq : P t p q) : Every P t (Function.update f p q) := by
  intro r
  by_cases hr : r = p
  · subst hr
    rwa [update_self]
  · rw [update_of_ne hr]
    exact h r

theorem Keeps.pure (a : α) : Keeps P E (pure a : KernelM α) := fun _ h => h

theorem Keeps.bind {m : KernelM α} {f : α → KernelM β} (hm : Keeps P E m)
    (hf : ∀ a, Keeps P E (f a)) : Keeps P E (m >>= f) :=
  fun s h => wp_seq (hm s h) fun a s' h' => hf a s' h'

theorem onLists_frame {m : ListM α} (hm : wp m (fun _ _ => True) E s.pLists) :
    wp (onLists m) (fun _ s' => ∃ L, s' = { s with pLists := L }) E s :=
  wp_post (onLists_spec hm) fun _ _ ⟨L, _, h⟩ => ⟨L, h⟩

/-- Every reason to stop other than an index out of range. -/
def Soft (E : Stop → Prop) : Prop := ∀ e, e ≠ .badIndex → E e

theorem stateListAdd_soft (hE : Soft E) (l : StateList) (p : ProcPtr) (L : StateLists) :
    wp (stateListAdd l p) (fun _ _ => True) E L := by
  simp only [stateListAdd, wp_bind, wp_get]
  split
  · trivial
  · split
    · exact hE _ (by simp)
    · trivial

theorem stateListRemove_soft (hE : Soft E) (l : StateList) (p : Option ProcPtr) (L : StateLists) :
    wp (stateListRemove l p) (fun _ _ => True) E L := by
  simp only [stateListRemove, wp_bind, wp_get]
  split
  · split
    · trivial
    · split
      · exact hE _ (by simp)
      · trivial
      · exact hE _ (by simp)
      · split <;> trivial
  · trivial

/-- `moveProc` assigns to `p` what it was told to, if `p` is in the old state. -/
theorem moveProc_frame (hE : Soft E) (src dst : StateList) (old : ProcState) (g : Proc → Proc)
    (p : ProcPtr) (msg : String) :
    wp (moveProc src dst old g p msg) (fun _ s' => (s.proc p).state = old ∧
      ∃ L, s' = { s with pLists := L, proc := Function.update s.proc p (g (s.proc p)) }) E s := by
  refine wp_seq (onLists_frame (stateListRemove_soft hE _ _ _)) ?_
  rintro rc _ ⟨L, rfl⟩
  simp only [assertState, wp_bind, wp_get]
  split
  · exact hE _ (by simp)
  · next hst =>
      rw [wp_pure, wp_setProc]
      refine wp_post (onLists_frame (stateListAdd_soft hE _ _ _)) ?_
      rintro rc' _ ⟨L', rfl⟩
      split
      · exact hE _ (by simp)
      · exact ⟨not_not.mp hst, L', rfl⟩

theorem Keeps.moveProc (hE : Soft E) {src dst : StateList} {old : ProcState} {g : Proc → Proc}
    {p : ProcPtr} {msg : String} (hg : ∀ t q, P t p q → q.state = old → P t p (g q)) :
    Keeps P E (moveProc src dst old g p msg) := by
  intro s h
  refine wp_post (moveProc_frame hE src dst old g p msg) ?_
  rintro _ _ ⟨hst, L, rfl⟩
  exact h.update (hg _ _ (h p) hst)

/-! ## Loops -/

theorem Keeps.forNext (hE : Soft E) {body : ProcPtr → KernelM Unit}
    (hbody : ∀ p, Keeps P E (body p)) : ∀ n h, Keeps P E (forNext body n h) := by
  intro n
  induction n with
  | zero =>
    rintro (_ | p) s hs
    · exact hs
    · exact hE _ (by simp)
  | succ n ih =>
    rintro (_ | p) s hs
    · exact hs
    · exact wp_seq (hbody p s hs) fun _ s' hs' => ih (s'.pLists.next p) s' hs'

theorem Keeps.forSaved (hE : Soft E) {body : ProcPtr → KernelM Unit}
    (hbody : ∀ p, Keeps P E (body p)) : ∀ n h, Keeps P E (forSaved body n h) := by
  intro n
  induction n with
  | zero =>
    rintro (_ | p) s hs
    · exact hs
    · exact hE _ (by simp)
  | succ n ih =>
    rintro (_ | p) s hs
    · exact hs
    · simp only [Ptable.forSaved, wp_bind, wp_get]
      exact wp_post (hbody p s hs) fun _ s' hs' => ih (s.pLists.next p) s' hs'

theorem Keeps.forIndex {body : Nat → KernelM Unit} : ∀ n i,
    (∀ k, i ≤ k → Keeps P E (body k)) → Keeps P E (forIndex body n i) := by
  intro n
  induction n with
  | zero => exact fun i _ => Keeps.pure ()
  | succ n ih =>
    intro i hbody
    exact Keeps.bind (hbody i (Nat.le_refl i)) fun _ =>
      ih (i + 1) fun k hk => hbody k (Nat.le_of_succ_le hk)

/-- A search changes nothing, and finds a process that passes the test. -/
theorem findNext_frame (hE : Soft E) (f : Kernel → ProcPtr → Bool) : ∀ n h,
    wp (findNext f n h) (fun r s' => s' = s ∧ ∀ p, r = some p → f s p = true) E s := by
  intro n
  induction n with
  | zero =>
    rintro (_ | p)
    · exact ⟨rfl, fun _ h => by cases h⟩
    · exact hE _ (by simp)
  | succ n ih =>
    rintro (_ | p)
    · exact ⟨rfl, fun _ h => by cases h⟩
    · simp only [findNext, wp_bind, wp_get]
      split
      · next hp =>
          refine ⟨rfl, ?_⟩
          rintro _ ⟨⟩
          exact hp
      · exact ih _

theorem findOn_frame (hE : Soft E) (l : StateList) (f : Kernel → ProcPtr → Bool) :
    wp (findOn l f) (fun r s' => s' = s ∧ ∀ p, r = some p → f s p = true) E s := by
  simp only [findOn, wp_bind, wp_get]
  exact findNext_frame hE f _ _

theorem findReady_frame (hE : Soft E) (f : Kernel → ProcPtr → Bool) : ∀ n i,
    wp (findReady f n i) (fun r s' => s' = s ∧ ∀ j p, r = some (j, p) → f s p = true) E s := by
  intro n
  induction n with
  | zero => exact fun i => ⟨rfl, fun _ _ h => by cases h⟩
  | succ n ih =>
    intro i
    unfold findReady
    refine wp_seq (findOn_frame hE (.ready i) f) ?_
    rintro (_ | p) _ ⟨rfl, hp⟩
    · exact ih (i + 1)
    · refine ⟨rfl, ?_⟩
      rintro _ _ ⟨⟩
      exact hp p rfl

end Rules

/-! ## The assignments -/

/-- The assignments of `proc.c` that `P` has to survive.  A fork gives up only
embryos with `fails`, `kill` marks only pids with `kills`, and a process that
leaves its CPU is charged a slice with `short`. -/
structure Assigns (maxPrio : Nat) (fails : ProcPtr → Prop) (kills : Nat → Prop)
    (short : Int → Prop) (P : ProcProp) : Prop where
  time : ∀ t t' p q, P t p q → P t' p q
  wake : ∀ t p q, P t p q → q.state = .sleeping → P t p { q with state := .runnable }
  parent : ∀ t p q v, P t p q → P t p { q with parent := v }
  chan : ∀ t p q v, P t p q → P t p { q with chan := v }
  mark : ∀ t p q, P t p q → kills q.pid → P t p { q with killed := true }
  take : ∀ t p q n, P t p q → q.state = .unused →
    P t p { q with state := .embryo, budget := BUDGET, priority := 0, pid := n }
  abandon : ∀ t p q, P t p q → fails p → q.state = .embryo →
    P t p { q with kstack := none, state := .unused }
  stack : ∀ t p q page, P t p q → P t p { q with
    kstack := some page, startTicks := t, cpuTicksTotal := 0, cpuTicksIn := 0 }
  copy : ∀ t p q sz par name uid gid, P t p q → P t p { q with
    sz := sz, parent := some par, name := name, uid := uid, gid := gid }
  ready : ∀ t p q (prio : Int), P t p q → q.state = .embryo → 0 ≤ prio → prio ≤ maxPrio →
    P t p { q with state := .runnable, priority := prio }
  leave : ∀ t p q st, P t p q → q.state = .running → st ≠ .unused →
    short (t - q.cpuTicksIn) → P t p (settle maxPrio t { q with state := st })
  reap : ∀ t p q, P t p q → q.state = .zombie → P t p { q with
    kstack := none, state := .unused, pid := 0, parent := none, name := "", killed := false }
  lower : ∀ t p q, P t p q → 0 < q.priority → P t p { q with priority := q.priority - 1 }
  dispatch : ∀ t p q, P t p q → q.state = .runnable →
    P t p { q with state := .running, cpuTicksIn := t }

theorem Assigns.mono {maxPrio : Nat} {fails fails' : ProcPtr → Prop} {kills kills' : Nat → Prop}
    {short short' : Int → Prop} {P : ProcProp} (h : Assigns maxPrio fails kills short P)
    (hf : ∀ p, fails' p → fails p) (hk : ∀ pid, kills' pid → kills pid)
    (hs : ∀ used, short' used → short used) : Assigns maxPrio fails' kills' short' P :=
  { h with
    mark := fun t p q hq hkill => h.mark t p q hq (hk _ hkill)
    abandon := fun t p q hq hfail => h.abandon t p q hq (hf p hfail)
    leave := fun t p q st hq hrun hst hshort => h.leave t p q st hq hrun hst (hs _ hshort) }

/-- `P` keeps priorities in the range of `ready[]`, or nobody asks for it. -/
def Indexed (maxPrio : Nat) (P : ProcProp) (E : Stop → Prop) : Prop :=
  E .badIndex ∨ ∀ t p q, P t p q → 0 ≤ q.priority ∧ q.priority ≤ maxPrio

section Routines

variable {maxPrio : Nat} {fails : ProcPtr → Prop} {kills : Nat → Prop} {short : Int → Prop}
  {P : ProcProp} {E : Stop → Prop} {s : Kernel}

theorem readyList_frame {prio : Int} (h : E .badIndex ∨ 0 ≤ prio ∧ prio ≤ maxPrio) :
    wp (readyList maxPrio prio) (fun _ s' => s' = s ∧ 0 ≤ prio ∧ prio ≤ maxPrio) E s := by
  rw [readyList, wp_ite]
  refine ⟨fun hr => ⟨rfl, hr⟩, ?_⟩
  intro hr
  rcases h with h | h
  · exact h
  · exact absurd h hr

theorem Indexed.at (hI : Indexed maxPrio P E) (h : Every P s.ticks s.proc) (p : ProcPtr) :
    E .badIndex ∨ 0 ≤ (s.proc p).priority ∧ (s.proc p).priority ≤ maxPrio :=
  hI.imp id fun hP => hP _ p _ (h p)

/-! ### Giving up the CPU -/

theorem demote_frame (hE : Soft E) {p : ProcPtr}
    (hprio : E .badIndex ∨ 0 ≤ (s.proc p).priority ∧ (s.proc p).priority ≤ maxPrio) :
    wp (demote maxPrio p) (fun _ s' => ∃ L, s' = { s with
      pLists := L, proc := Function.update s.proc p (demoted maxPrio (s.proc p)) }) E s := by
  simp only [demote, wp_bind, wp_get]
  by_cases hp : (s.proc p).priority < maxPrio
  · simp only [if_pos hp]
    by_cases hr : (s.proc p).state = .runnable
    · rw [if_pos hr]
      refine wp_seq (readyList_frame hprio) ?_
      rintro _ _ ⟨rfl, h0, h1⟩
      refine wp_seq (onLists_frame (stateListRemove_soft hE _ _ _)) ?_
      rintro rc _ ⟨L, rfl⟩
      refine wp_seq (readyList_frame (Or.inr ⟨by omega, by omega⟩)) ?_
      rintro _ _ ⟨rfl, _⟩
      refine wp_seq (onLists_frame (stateListAdd_soft hE _ _ _)) ?_
      rintro rc' _ ⟨L', rfl⟩
      split
      · exact hE _ (by simp)
      · simp only [wp_bind, wp_setProc]
        exact ⟨L', by simp [demoted, hp]⟩
    · rw [if_neg hr]
      simp only [wp_bind, wp_setProc]
      exact ⟨s.pLists, by simp [demoted, hp]⟩
  · simp only [if_neg hp, wp_setProc]
    exact ⟨s.pLists, by simp [demoted, hp]⟩

theorem sched_frame (hE : Soft E) {p : ProcPtr}
    (hprio : E .badIndex ∨ 0 ≤ (s.proc p).priority ∧ (s.proc p).priority ≤ maxPrio) :
    wp (sched maxPrio p) (fun _ s' => ∃ L, s' = { s with
      pLists := L, proc := Function.update s.proc p (settle maxPrio s.ticks (s.proc p)) }) E s := by
  simp only [sched, wp_bind, wp_get]
  by_cases hrun : (s.proc p).state = .running
  · rw [if_pos hrun]
    exact hE _ (by simp)
  · simp only [if_neg hrun, wp_bind, wp_get, wp_setProc, update_self]
    show wp (if (charge s.ticks (s.proc p)).budget < 1 then _ else _) _ _ _
    split
    · next hb =>
        refine wp_post (demote_frame hE (by simpa using hprio)) ?_
        rintro _ _ ⟨L, rfl⟩
        refine ⟨L, ?_⟩
        have hset : settle maxPrio s.ticks (s.proc p)
            = demoted maxPrio (charge s.ticks (s.proc p)) := if_pos hb
        simp only [hset, update_self, update_idem]
        rfl
    · next hb =>
        have hset : settle maxPrio s.ticks (s.proc p) = charge s.ticks (s.proc p) := if_neg hb
        rw [wp_pure, hset]
        exact ⟨s.pLists, rfl⟩

theorem leave_keeps (hP : Assigns maxPrio fails kills short P) (hE : Soft E)
    (hI : Indexed maxPrio P E) {src dst : StateList} {st : ProcState} {p : ProcPtr} {msg : String}
    (hst : st ≠ .unused) (h : Every P s.ticks s.proc) (hs : short (s.ticks - (s.proc p).cpuTicksIn)) :
    wp (do
      moveProc src dst .running (fun q => { q with state := st }) p msg
      sched maxPrio p) (fun _ s' => Every P s'.ticks s'.proc) E s := by
  refine wp_seq (moveProc_frame hE _ _ _ _ _ _) ?_
  rintro _ _ ⟨hrun, L, rfl⟩
  refine wp_post (sched_frame hE (by simpa using hI.at h p)) ?_
  rintro _ _ ⟨L', rfl⟩
  simp only [update_self, update_idem]
  exact h.update (hP.leave _ _ _ st (h p) hrun hst hs)

theorem yield_keeps (hP : Assigns maxPrio fails kills short P) (hE : Soft E)
    (hI : Indexed maxPrio P E) {p : ProcPtr} (h : Every P s.ticks s.proc)
    (hs : short (s.ticks - (s.proc p).cpuTicksIn)) :
    wp (yield maxPrio p) (fun _ s' => Every P s'.ticks s'.proc) E s := by
  simp only [yield]
  rw [wp_bind, wp_get]
  refine wp_seq (readyList_frame (hI.at h p)) ?_
  rintro _ _ ⟨rfl, _⟩
  exact leave_keeps hP hE hI (by simp) h hs

theorem sleep_keeps (hP : Assigns maxPrio fails kills short P) (hE : Soft E)
    (hI : Indexed maxPrio P E) {p : ProcPtr} (chan : Chan) (h : Every P s.ticks s.proc)
    (hs : short (s.ticks - (s.proc p).cpuTicksIn)) :
    wp (sleep maxPrio p chan) (fun _ s' => Every P s'.ticks s'.proc) E s := by
  simp only [sleep]
  rw [wp_bind, wp_setProc]
  exact leave_keeps hP hE hI (by simp) (h.update (hP.chan _ _ _ _ (h p))) (by simpa using hs)

/-! ### Waking up -/

theorem wakeup1_keeps (hwake : ∀ t p q, P t p q → q.state = .sleeping →
    P t p { q with state := .runnable }) (hE : Soft E) (hI : Indexed maxPrio P E)
    (chan : Option Chan) : Keeps P E (wakeup1 maxPrio chan) := by
  intro s h
  simp only [wakeup1, wp_bind, wp_get]
  refine Keeps.forSaved hE (fun p s h => ?_) _ _ s h
  simp only [wakeupProc]
  rw [wp_bind, wp_get]
  split
  · refine wp_seq (readyList_frame (hI.at h p)) ?_
    rintro _ _ ⟨rfl, _⟩
    exact Keeps.moveProc hE (fun t q => hwake t p q) _ h
  · exact h

theorem kill_keeps (hP : Assigns maxPrio fails kills short P) (hE : Soft E) {pid : Nat}
    (hpid : kills pid) : Keeps P E (kill maxPrio pid) := by
  intro s h
  have hmark : ∀ p, ((s.proc p).pid == pid) = true →
      Every P s.ticks (Function.update s.proc p { s.proc p with killed := true }) := by
    intro p hp
    refine h.update (hP.mark _ _ _ (h p) ?_)
    rw [eq_of_beq hp]
    exact hpid
  unfold kill
  refine wp_seq (findOn_frame hE .running _) ?_
  rintro (_ | p) _ ⟨rfl, hr⟩
  swap
  · exact hmark p (hr p rfl)
  refine wp_seq (findOn_frame hE .sleep _) ?_
  rintro (_ | p) _ ⟨rfl, hr⟩
  swap
  · simp only [wp_bind, wp_setProc]
    exact wp_post (Keeps.moveProc hE (fun t q => hP.wake t p q) _ (hmark p (hr p rfl)))
      fun _ _ h' => h'
  refine wp_seq (findReady_frame hE _ _ _) ?_
  rintro (_ | ⟨i, p⟩) _ ⟨rfl, hr⟩
  swap
  · exact hmark p (hr i p rfl)
  refine wp_seq (findOn_frame hE .zombie _) ?_
  rintro (_ | p) _ ⟨rfl, hr⟩
  swap
  · exact hmark p (hr p rfl)
  refine wp_seq (findOn_frame hE .embryo _) ?_
  rintro (_ | p) _ ⟨rfl, hr⟩
  · exact h
  · exact hmark p (hr p rfl)

/-! ### Creating a process -/

theorem allocproc_keeps (hP : Assigns maxPrio fails kills short P) (hE : Soft E) :
    Keeps P E allocproc := by
  intro s h
  simp only [allocproc]
  rw [wp_bind, wp_get]
  refine wp_seq (onLists_frame (stateListRemove_soft hE _ _ _)) ?_
  rintro rc _ ⟨L, rfl⟩
  split
  · exact h
  split
  · exact hE _ (by simp)
  · next p _ =>
      simp only [assertState, wp_bind, wp_get]
      split
      · exact hE _ (by simp)
      · next hst =>
          rw [wp_pure, wp_setProc]
          refine wp_post (onLists_frame (stateListAdd_soft hE _ _ _)) ?_
          rintro rc' _ ⟨L', rfl⟩
          split
          · exact hE _ (by simp)
          · simp only [wp_pure, wp_bind, wp_get, wp_setProc, wp_modify, update_self, update_idem]
            exact h.update (hP.take _ _ _ _ (h p) (not_not.mp hst))

theorem abandon_keeps (hP : Assigns maxPrio fails kills short P) (hE : Soft E) {np : ProcPtr}
    (hnp : fails np) (msg : String) : Keeps P E (do
      setProc np fun q => { q with kstack := none }
      moveProc .embryo .free .embryo (fun q => { q with state := .unused }) np msg) := by
  intro s h
  rw [wp_bind, wp_setProc]
  refine wp_post (moveProc_frame hE _ _ _ _ _ _) ?_
  rintro _ _ ⟨hst, L, rfl⟩
  simp only [update_self, update_idem] at hst ⊢
  exact h.update (hP.abandon _ _ _ (h np) hnp hst)

theorem allocprocStack_keeps (hP : Assigns maxPrio fails kills short P) (np : ProcPtr)
    (page : Nat) : Keeps P E (allocprocStack np page) := by
  intro s h
  simp only [allocprocStack, wp_bind, wp_get, wp_setProc, wp_modify]
  exact h.update (hP.stack _ _ _ _ (h np))

theorem forkCopy_keeps (hP : Assigns maxPrio fails kills short P) (p np : ProcPtr) :
    Keeps P E (forkCopy p np) := by
  intro s h
  simp only [forkCopy, wp_bind, wp_get, wp_setProc]
  exact h.update (hP.copy _ _ _ _ _ _ _ _ (h np))

theorem forkReady_keeps (hP : Assigns maxPrio fails kills short P) (hE : Soft E)
    (hI : Indexed maxPrio P E) (p np : ProcPtr) : Keeps P E (forkReady maxPrio p np) := by
  intro s h
  simp only [forkReady]
  rw [wp_bind, wp_get]
  refine wp_seq (readyList_frame (hI.at h p)) ?_
  rintro _ s' ⟨hs, h0, h1⟩
  rw [hs]
  exact Keeps.moveProc hE (fun t q hq hst =>
    hP.ready t np q (s.proc p).priority hq hst h0 h1) _ h

/-! ### Ending a process -/

theorem reparentList_keeps (hpar : ∀ t p q v, P t p q → P t p { q with parent := v }) (hE : Soft E)
    (me : ProcPtr) (l : StateList) : Keeps P E (reparentList me l) := by
  intro s h
  simp only [reparentList, wp_bind, wp_get]
  refine Keeps.forNext hE (fun p s h => ?_) _ _ s h
  simp only [reparent, wp_bind, wp_get]
  split
  · exact h.update (hpar _ _ _ _ (h p))
  · exact h

theorem reparentLists_keeps (hpar : ∀ t p q v, P t p q → P t p { q with parent := v }) (hE : Soft E)
    (me : ProcPtr) : Keeps P E (reparentLists maxPrio me) :=
  Keeps.bind (reparentList_keeps hpar hE me .running) fun _ =>
    Keeps.bind (Keeps.forIndex _ _ fun k _ => reparentList_keeps hpar hE me (.ready k)) fun _ =>
      Keeps.bind (reparentList_keeps hpar hE me .embryo) fun _ =>
        reparentList_keeps hpar hE me .sleep

theorem reparentZombies_keeps (hwake : ∀ t p q, P t p q → q.state = .sleeping →
    P t p { q with state := .runnable }) (hpar : ∀ t p q v, P t p q → P t p { q with parent := v })
    (hE : Soft E) (hI : Indexed maxPrio P E) (me : ProcPtr) :
    Keeps P E (reparentZombies maxPrio me) := by
  intro s h
  simp only [reparentZombies, wp_bind, wp_get]
  refine Keeps.forNext hE (fun p s h => ?_) _ _ s h
  simp only [reparentZombie]
  rw [wp_bind, wp_get]
  split
  · rw [wp_bind, wp_setProc]
    exact wakeup1_keeps hwake hE hI _ _ (h.update (hpar _ _ _ _ (h p)))
  · exact h

/-- `exit` is charged the slice it started with: the loops before `sched` do
not touch the time a process got its CPU. -/
theorem exit_keeps (hP : Assigns maxPrio fails kills short P) (hE : Soft E)
    (hI : Indexed maxPrio P E) {me : ProcPtr} (h : Every P s.ticks s.proc)
    (hs : short (s.ticks - (s.proc me).cpuTicksIn)) :
    wp (exit maxPrio me) (fun _ s' => Every P s'.ticks s'.proc) E s := by
  let P' : ProcProp := fun t p q => P t p q ∧ t = s.ticks ∧
    (p = me → q.cpuTicksIn = (s.proc me).cpuTicksIn)
  have hwake : ∀ t p q, P' t p q → q.state = .sleeping → P' t p { q with state := .runnable } :=
    fun t p q hq hst => ⟨hP.wake t p q hq.1 hst, hq.2⟩
  have hpar : ∀ t p q v, P' t p q → P' t p { q with parent := v } :=
    fun t p q v hq => ⟨hP.parent t p q v hq.1, hq.2⟩
  have hI' : Indexed maxPrio P' E := hI.imp id fun hP t p q hq => hP t p q hq.1
  have hstart : Every P' s.ticks s.proc := fun p => ⟨h p, rfl, fun hp => by rw [hp]⟩
  simp only [exit]
  rw [wp_bind, wp_get]
  by_cases hinit : s.initproc = some me
  · rw [if_pos hinit]
    exact hE _ (by simp)
  rw [if_neg hinit]
  refine wp_seq (wakeup1_keeps hwake hE hI' _ s hstart) ?_
  intro _ s₁ h₁
  refine wp_seq (reparentLists_keeps hpar hE me s₁ h₁) ?_
  intro _ s₂ h₂
  refine wp_seq (reparentZombies_keeps hwake hpar hE hI' me s₂ h₂) ?_
  intro _ s₃ h₃
  refine leave_keeps hP hE hI (by simp) (fun p => (h₃ p).1) ?_
  rw [(h₃ me).2.1, (h₃ me).2.2 rfl]
  exact hs

theorem reap_keeps (hP : Assigns maxPrio fails kills short P) (hE : Soft E) (p : ProcPtr) :
    Keeps P E (reap p) := by
  intro s h
  simp only [reap]
  rw [wp_bind, wp_get]
  exact Keeps.bind (Keeps.moveProc hE fun t q => hP.reap t p q) (fun _ => Keeps.pure _) s h

theorem childOn_frame (hE : Soft E) (low : Nat) (me : ProcPtr) (l : StateList) :
    wp (childOn low me l) (fun _ s' => s' = s) E s :=
  wp_seq (findOn_frame hE l _) fun _ _ hr => hr.1

theorem waitLoop_keeps (hP : Assigns maxPrio fails kills short P) (hE : Soft E)
    (hI : Indexed maxPrio P E) (low : Nat) {me : ProcPtr} (havekids : Bool)
    (h : Every P s.ticks s.proc) (hs : short (s.ticks - (s.proc me).cpuTicksIn)) :
    wp (waitLoop maxPrio low me havekids) (fun _ s' => Every P s'.ticks s'.proc) E s := by
  unfold waitLoop
  refine wp_seq (findOn_frame hE .zombie _) ?_
  rintro (_ | q) _ ⟨rfl, _⟩
  · refine wp_seq (findReady_frame hE _ _ _) ?_
    rintro r _ ⟨rfl, _⟩
    refine wp_seq (childOn_frame hE low me .sleep) ?_
    rintro sl _ rfl
    refine wp_seq (childOn_frame hE low me .running) ?_
    rintro ru _ rfl
    refine wp_seq (childOn_frame hE low me .embryo) ?_
    rintro em _ rfl
    rw [wp_bind, wp_get]
    split
    · exact h
    split
    · exact h
    exact wp_seq (sleep_keeps hP hE hI (.proc me) h hs) fun _ _ h' => h'
  · exact wp_seq (reap_keeps hP hE q _ h) fun _ _ h' => h'

/-! ### The scheduler -/

theorem promoteProc_keeps (hP : Assigns maxPrio fails kills short P) (hE : Soft E) (msg : String)
    (p : ProcPtr) : Keeps P E (promoteProc msg p) := by
  intro s h
  simp only [promoteProc]
  rw [wp_bind, wp_get]
  by_cases hneg : (s.proc p).priority < 0
  · rw [if_pos hneg]
    exact hE _ (by simp)
  · rw [if_neg hneg]
    split
    · next hpos => exact h.update (hP.lower _ _ _ (h p) hpos)
    · exact h

theorem promoteList_keeps (hP : Assigns maxPrio fails kills short P) (hE : Soft E) {i : Nat}
    (hi : 1 ≤ i) : Keeps P E (promoteList i) := by
  intro s h
  simp only [promoteList, wp_bind, wp_get]
  refine Keeps.forSaved hE (fun p s h => ?_) _ _ s h
  simp only [promoteReady]
  rw [wp_bind, wp_get]
  split
  · exact hE _ (by simp)
  · next hprio =>
      have hpos : 0 < (s.proc p).priority := by omega
      refine wp_seq (onLists_frame (stateListRemove_soft hE _ _ _)) ?_
      rintro _ _ ⟨L, rfl⟩
      rw [wp_bind, wp_setProc]
      refine wp_seq (onLists_frame (stateListAdd_soft hE _ _ _)) ?_
      rintro _ _ ⟨L', rfl⟩
      exact h.update (hP.lower _ _ _ (h p) hpos)

theorem promote_keeps (hP : Assigns maxPrio fails kills short P) (hE : Soft E) :
    Keeps P E (promote maxPrio) := by
  intro s h
  simp only [promote]
  rw [wp_bind, wp_get]
  split
  · refine wp_seq (Keeps.forSaved hE (promoteProc_keeps hP hE _) _ _ s h) ?_
    intro _ s₁ h₁
    refine wp_seq (Keeps.forIndex _ _ (fun k hk => promoteList_keeps hP hE hk) s₁ h₁) ?_
    intro _ s₂ h₂
    rw [wp_bind, wp_get]
    refine wp_seq (Keeps.forSaved hE (promoteProc_keeps hP hE _) _ _ s₂ h₂) ?_
    exact fun _ s₃ h₃ => h₃
  · exact h

/-- The process that has just got its CPU has used nothing of it. -/
theorem dispatch_keeps (hP : Assigns maxPrio fails kills short P) (hE : Soft E) (c j : Nat)
    (p : ProcPtr) (h : Every P s.ticks s.proc) :
    wp (dispatch c j p) (fun _ s' => Every P s'.ticks s'.proc ∧ (s'.proc p).cpuTicksIn = s'.ticks) E s := by
  simp only [dispatch]
  refine wp_seq (moveProc_frame hE _ _ _ _ _ _) ?_
  rintro _ _ ⟨hst, L, rfl⟩
  simp only [wp_bind, wp_modify, wp_get, wp_setProc, update_self, update_idem]
  exact ⟨h.update (hP.dispatch _ _ _ (h p) hst), by simp⟩

theorem resumed_keeps (hP : Assigns maxPrio fails kills short P) (hE : Soft E)
    (hI : Indexed maxPrio P E) (hzero : short 0) (c low : Nat) {p : ProcPtr} (h : Every P s.ticks s.proc)
    (hs : (s.proc p).cpuTicksIn = s.ticks) :
    wp (resumed maxPrio c low p) (fun _ s' => Every P s'.ticks s'.proc) E s := by
  simp only [resumed]
  rw [wp_bind, wp_get]
  split
  · exact h
  · exact h
  · exact h.update (hP.chan _ _ _ _ (h p))
  · rw [wp_bind, wp_setProc]
    refine wp_seq (waitLoop_keeps hP hE hI low true (h.update (hP.chan _ _ _ _ (h p))) ?_) ?_
    · simpa [hs] using hzero
    · rintro (_ | r) s' h'
      · exact h'
      · exact h'

theorem scheduler_keeps (hP : Assigns maxPrio fails kills short P) (hE : Soft E)
    (hI : Indexed maxPrio P E) (hzero : short 0) (c low : Nat) :
    Keeps P E (scheduler maxPrio c low) := by
  intro s h
  refine wp_seq (promote_keeps hP hE s h) ?_
  intro _ s₁ h₁
  refine wp_seq (findReady_frame hE _ _ _) ?_
  rintro (_ | ⟨j, p⟩) _ ⟨rfl, _⟩
  · exact h₁
  · refine wp_seq (dispatch_keeps hP hE c j p h₁) ?_
    rintro _ s₂ ⟨h₂, hs₂⟩
    exact resumed_keeps hP hE hI hzero c low h₂ hs₂

end Routines

/-! ## One step -/

/-- The fork that fails in this action gives up `np`. -/
def Action.fails (s : Kernel) (np : ProcPtr) : Action → Prop
  | .kstack c none => ∃ p, s.cpu c = some p ∧ s.task p = .embryo np
  | .copyuvm c false => ∃ p, s.cpu c = some p ∧ s.task p = .stack np
  | _ => False

/-- The CPU whose process may give it up in this action. -/
def Action.left? : Action → Option Nat
  | .yield c | .sleep c _ | .exit c | .wait c _ => some c
  | _ => none

/-- A slice that ends in this action: that of the process it belongs to, or
the empty one of a process that sleeps as soon as it is dispatched. -/
def Action.slice (s : Kernel) (a : Action) (used : Int) : Prop :=
  used = 0 ∨ ∃ c p, a.left? = some c ∧ s.cpu c = some p ∧
    used = (s.ticks : Int) - (s.proc p).cpuTicksIn

/-- The step ended in a state in `Q` or stopped with an error in `E`. -/
def Ended (Q : Kernel → Prop) (E : Stop → Prop) : Except Stop Kernel → Prop
  | .ok s' => Q s'
  | .error e => E e

/-- The result of a program whose value nobody looks at. -/
def ended {α : Type} : Except Stop (α × Kernel) → Except Stop Kernel
  | .ok (_, s') => .ok s'
  | .error e => .error e

theorem Ended.of_wp {α : Type} {m : KernelM α} {Q : Kernel → Prop} {E : Stop → Prop} {s : Kernel}
    (h : wp m (fun _ s' => Q s') E s) : Ended Q E (ended (m s)) := by
  unfold wp at h
  cases hm : m s with
  | ok r =>
    rw [hm] at h
    exact h
  | error e =>
    rw [hm] at h
    exact h

section Step

variable {maxPrio : Nat} {P : ProcProp} {E : Stop → Prop} {s : Kernel} {a : Action}

theorem procAction_keeps {c : Nat} {p : ProcPtr} {m : KernelM Unit}
    (hP : Assigns maxPrio (fun np => a.fails s np) (fun pid => a = .kill pid) (a.slice s) P)
    (hE : Soft E) (hI : Indexed maxPrio P E) (h : Every P s.ticks s.proc) (ha : a.cpu? = some c)
    (hc : s.cpu c = some p) (hm : procAction maxPrio c p (s.task p) a = some m) :
    wp m (fun _ s' => Every P s'.ticks s'.proc) E s := by
  have hslice : a.left? = some c → a.slice s (s.ticks - (s.proc p).cpuTicksIn) :=
    fun hl => Or.inr ⟨c, p, hl, hc, rfl⟩
  cases a with
  | yield _ =>
    cases hm
    exact wp_seq (yield_keeps hP hE hI h (hslice ha)) fun _ _ h' => h'
  | sleep _ a =>
    simp only [procAction] at hm
    split at hm
    · cases hm
      exact wp_seq (sleep_keeps hP hE hI _ h (hslice ha)) fun _ _ h' => h'
    · cases hm
  | exit _ =>
    simp only [procAction] at hm
    split at hm
    · cases hm
      exact wp_seq (exit_keeps hP hE hI h (hslice ha)) fun _ _ h' => h'
    · cases hm
  | wait _ low =>
    simp only [procAction] at hm
    split at hm
    · cases hm
      refine wp_seq (waitLoop_keeps hP hE hI low false h (hslice ha)) ?_
      rintro (_ | r) s' h'
      · exact h'
      · exact h'
    · cases hm
  | allocproc _ =>
    simp only [procAction] at hm
    split at hm
    · cases hm
      refine wp_seq (allocproc_keeps hP hE s h) ?_
      rintro (_ | np) s' h'
      · exact h'
      · exact h'
    · cases hm
  | kstack c' page =>
    cases ha
    simp only [procAction] at hm
    split at hm
    · cases hm
      exact wp_seq (allocprocStack_keeps hP _ _ s h) fun _ _ h' => h'
    · next np ht =>
        cases hm
        exact wp_seq (abandon_keeps hP hE ⟨p, hc, ht⟩ _ s h) fun _ _ h' => h'
    · cases hm
  | copyuvm c' ok =>
    cases ha
    simp only [procAction] at hm
    split at hm
    · cases hm
      exact wp_seq (forkCopy_keeps hP _ _ s h) fun _ _ h' => h'
    · next np ht =>
        cases hm
        exact wp_seq (abandon_keeps hP hE ⟨p, hc, ht⟩ _ s h) fun _ _ h' => h'
    · cases hm
  | forkReady _ =>
    simp only [procAction] at hm
    split at hm
    · cases hm
      exact wp_seq (forkReady_keeps hP hE hI _ _ s h) fun _ _ h' => h'
    · cases hm
  | _ => cases hm

/-- Whatever happens while the lock is held keeps what the assignments keep. -/
theorem program_keeps {m : KernelM Unit}
    (hP : Assigns maxPrio (fun np => a.fails s np) (fun pid => a = .kill pid) (a.slice s) P)
    (hE : Soft E) (hI : Indexed maxPrio P E) (h : Every P s.ticks s.proc)
    (hm : program maxPrio s a = some m) : wp m (fun _ s' => Every P s'.ticks s'.proc) E s := by
  cases a with
  | tick =>
    cases hm
    exact fun p => hP.time _ _ _ _ (h p)
  | wakeup chan =>
    cases hm
    exact wakeup1_keeps hP.wake hE hI _ s h
  | kill pid =>
    cases hm
    exact wp_seq (kill_keeps hP hE rfl s h) fun _ _ h' => h'
  | scheduler c low =>
    simp only [program] at hm
    split at hm
    · cases hm
      exact scheduler_keeps hP hE hI (Or.inl rfl) c low s h
    · cases hm
  | _ =>
    obtain ⟨p, hc, hp⟩ := program_process maxPrio rfl hm
    exact procAction_keeps hP hE hI h rfl hc hp

theorem step_keeps
    (hP : Assigns maxPrio (fun np => a.fails s np) (fun pid => a = .kill pid) (a.slice s) P)
    (hE : Soft E) (hI : Indexed maxPrio P E) (h : Every P s.ticks s.proc)
    {r : Except Stop Kernel} (hs : step maxPrio s a = some r) :
    Ended (fun s' => Every P s'.ticks s'.proc) E r := by
  rw [step, Option.map_eq_some_iff] at hs
  obtain ⟨m, hm, rfl⟩ := hs
  have hend := Ended.of_wp (program_keeps hP hE hI h hm)
  revert hend
  cases m s <;> exact id

end Step

end Xv6Pdx.Ptable
