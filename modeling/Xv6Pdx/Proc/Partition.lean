/-
# `Proc.Partition` — every process is on exactly one state list

The statement is about the pointers alone: what a reader gets who follows
`head` and `next` of each list.  It is read off the view that every reachable
state shows.
-/
import Xv6Pdx.Proc.Refine

namespace Xv6Pdx.Ptable

open Lib

/-- The lists there are: `ready[]` ends at `ready[MAXPRIO]`. -/
def StateList.valid (maxPrio : Nat) : StateList → Prop
  | .ready i => i ≤ maxPrio
  | _ => True

/-- The pointers of each list visit pairwise different processes, of which the tail is the
last; and each process is met once, on the list for its state. -/
def Partitioned (maxPrio : Nat) (s : Kernel) : Prop :=
  ∃ lists : StateList → List ProcPtr,
    (∀ l, walk s.pLists.next NPROC (s.pLists.head l) = some (lists l) ∧ (lists l).Nodup ∧
      ∀ x, (lists l).getLast? = some x → s.pLists.tail l = some x) ∧
    ∀ p, ∃ l, l.valid maxPrio ∧ stateOf l = (s.proc p).state ∧
      ∀ l', (lists l').count p = if l' = l then 1 else 0

section

variable {maxPrio : Nat} {s : Kernel} {A : View}

theorem ProcOk.valid {q : Proc} {l : StateList} (h : ProcOk maxPrio q l) : l.valid maxPrio := by
  cases l with
  | ready i => exact h.ready i rfl
  | _ => trivial

/-- The pointers of a state that shows a view partition the processes. -/
theorem Shows.partitioned (h : Shows s A) (hinv : Inv maxPrio A) : Partitioned maxPrio s := by
  obtain ⟨V, hrep⟩ := h
  refine ⟨V, ?_, ?_⟩
  · intro l
    have hwalk := walk_eq_some (hrep.lists.chain l)
    rw [Fintype.card_fin] at hwalk
    exact ⟨hwalk, hrep.lists.nodup l, hrep.lists.tail l⟩
  · intro p
    refine ⟨A.loc p, (hinv.procs p).valid, ?_, ?_⟩
    · rw [hrep.proc, (hinv.procs p).state]
    · intro l'
      have hmem := hrep.mem l' p
      split
      · next hl =>
          exact List.count_eq_one_of_mem (hrep.lists.nodup l') (hmem.mpr hl.symm)
      · next hl =>
          exact List.count_eq_zero_of_not_mem fun hp => hl (hmem.mp hp).symm

/-- The state lists partition the processes, and no critical section panics, except that
`exit` refuses to end the first process. -/
theorem reachable_partitioned (h : Reachable maxPrio s) : Partitioned maxPrio s ∧
      ∀ a e, step maxPrio s a = some (.error e) → e = .panic "init exiting" := by
  obtain ⟨_, _, _, _, A, _, hshow, hinv⟩ :=
    ReachableBy.shows (fun _ => True) h fun _ _ _ _ _ _ => trivial
  exact ⟨hshow.partitioned hinv, fun a e he => step_stop hshow hinv he⟩

end

/-- A state with processes asleep, running, ready and ended. -/
theorem generations_partitioned : ∃ s : Kernel, (s.proc 0).state = .sleeping ∧
    (s.proc 1).state = .running ∧ (s.proc 2).state = .zombie ∧ (s.proc 3).state = .runnable ∧
    Partitioned 1 s ∧ ∀ a e, step 1 s a = some (.error e) → e = .panic "init exiting" := by
  obtain ⟨s, hs, h0, h1, h2, h3⟩ := generations_reached
  exact ⟨s, h0.1, h1.1, h2.1, h3, reachable_partitioned hs⟩

end Xv6Pdx.Ptable
