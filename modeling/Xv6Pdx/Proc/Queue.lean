/-
# `Proc.Queue` — the state lists are queues

`stateListAdd` and `stateListRemove` specified on the one list they are called
for, whatever the other pointers are; and any sequence of their calls on all the
lists at once, which share the field `next`.

A removed head keeps its `next`, and an emptied list its tail.  Neither is part
of what a list represents, so the calls that follow do not have to know.
-/
import Xv6Pdx.Proc.StateLists

namespace Xv6Pdx.Ptable

open Lib

inductive ListOp where
  | add (l : StateList) (p : ProcPtr)
  | remove (l : StateList) (p : Option ProcPtr)

namespace ListOp

def call : ListOp → ListM Int
  | add l p => stateListAdd l p
  | remove l p => stateListRemove l p

/-- A process that is on another list is never added. -/
def allowed (V : StateList → List ProcPtr) : ListOp → Prop
  | add l p => ∀ k, k ≠ l → p ∉ V k
  | remove _ _ => True

def apply (V : StateList → List ProcPtr) : ListOp → StateList → List ProcPtr
  | add l p => Function.update V l (enqueue (V l) p)
  | remove _ none => V
  | remove l (some p) => pull V l p

def result (V : StateList → List ProcPtr) : ListOp → Int
  | add _ _ => 0
  | remove _ none => -1
  | remove l (some p) => if p ∈ V l then 0 else -1

end ListOp

/-- The calls one after the other, with what they return. -/
def calls : List ListOp → ListM (List Int)
  | [] => pure []
  | op :: ops => do
    let r ← op.call
    let rs ← calls ops
    return r :: rs

/-- Each call is allowed where it is made. -/
def Allowed : (StateList → List ProcPtr) → List ListOp → Prop
  | _, [] => True
  | V, op :: ops => op.allowed V ∧ Allowed (op.apply V) ops

def outcome : (StateList → List ProcPtr) → List ListOp → StateList → List ProcPtr
  | V, [] => V
  | V, op :: ops => outcome (op.apply V) ops

def results : (StateList → List ProcPtr) → List ListOp → List Int
  | _, [] => []
  | V, op :: ops => op.result V :: results (op.apply V) ops

section

variable {L : StateLists} {V : StateList → List ProcPtr}

theorem mem_enqueue {xs : List ProcPtr} {p q : ProcPtr} (h : q ∈ enqueue xs p) : q ∈ xs ∨ q = p := by
  rcases List.mem_append.mp h with hq | hq
  · exact .inl (List.takeWhile_subset _ hq)
  · exact .inr (List.mem_singleton.mp hq)

theorem pull_of_notMem {l : StateList} {p : ProcPtr} (h : p ∉ V l) : pull V l p = V := by
  rw [pull, List.erase_of_not_mem h, Function.update_eq_self]

theorem ListOp.call_represented (h : Lists L V) {op : ListOp} (ha : op.allowed V) :
    ∃ L', op.call L = .ok (op.result V, L') ∧ Lists L' (op.apply V) := by
  cases op with
  | add l p =>
    obtain ⟨L', hrun, hr, hu⟩ := stateListAdd_represents (h.represents l) p
    exact ⟨L', hrun, h.update hr hu ha fun q hq => mem_enqueue hq⟩
  | remove l p =>
    cases p with
    | none => exact ⟨L, stateListRemove_absent (h.represents l) (fun q hq => by cases hq), h⟩
    | some p =>
      by_cases hp : p ∈ V l
      · obtain ⟨L', hrun, hr, hu⟩ := stateListRemove_represents (h.represents l) hp
        refine ⟨L', ?_, h.update hr hu ?_ ?_⟩
        · rw [result, if_pos hp]
          exact hrun
        · exact fun k hk hpk => hk (h.disj k l p hpk hp)
        · exact fun q hq => .inl (List.mem_of_mem_erase hq)
      · refine ⟨L, ?_, ?_⟩
        · rw [result, if_neg hp]
          refine stateListRemove_absent (h.represents l) fun q hq => ?_
          rwa [← Option.some.inj hq]
        · rw [apply, pull_of_notMem hp]
          exact h

theorem calls_represented : ∀ {ops : List ListOp} {L : StateLists}
    {V : StateList → List ProcPtr}, Lists L V → Allowed V ops →
    ∃ L', calls ops L = .ok (results V ops, L') ∧ Lists L' (outcome V ops) := by
  intro ops
  induction ops with
  | nil => exact fun h _ => ⟨_, rfl, h⟩
  | cons op ops ih =>
    rintro L V h ⟨ha, hrest⟩
    obtain ⟨L₁, hcall, h₁⟩ := op.call_represented h ha
    obtain ⟨L', hrun, h'⟩ := ih h₁ hrest
    refine ⟨L', ?_, h'⟩
    rw [calls, bind_of_ok hcall, bind_of_ok hrun]
    rfl

/-- The two operations implement a queue on the list they are called for and touch nothing
else; so any allowed sequence of calls keeps every list represented. -/
theorem state_lists_are_queues :
    (∀ (L : StateLists) (l : StateList) (xs : List ProcPtr), Represents L l xs →
      (∀ p ∈ xs, ∃ L', stateListRemove l (some p) L = .ok (0, L') ∧
        Represents L' l (xs.erase p) ∧ Untouched L l xs p L') ∧
      (∀ p : Option ProcPtr, (∀ q, p = some q → q ∉ xs) → stateListRemove l p L = .ok (-1, L)) ∧
      ∀ p ∉ xs, ∃ L', stateListAdd l p L = .ok (0, L') ∧
        Represents L' l (xs ++ [p]) ∧ Untouched L l xs p L') ∧
    ∀ (L : StateLists) (V : StateList → List ProcPtr) (ops : List ListOp), Lists L V →
      Allowed V ops → ∃ L', calls ops L = .ok (results V ops, L') ∧ Lists L' (outcome V ops) := by
  refine ⟨fun L l xs h => ⟨?_, ?_, ?_⟩, fun L V ops h ha => calls_represented h ha⟩
  · exact fun p hp => stateListRemove_represents h hp
  · exact fun p hp => stateListRemove_absent h hp
  · intro p hp
    obtain ⟨L', hrun, hr, hu⟩ := stateListAdd_represents h p
    rw [enqueue_of_notMem hp] at hr
    exact ⟨L', hrun, hr, hu⟩

end

/-- The lists as `initProcessLists` leaves them. -/
def noLists : StateLists := ⟨fun _ => none, fun _ => none, fun _ => none⟩

theorem noLists_represents : Lists noLists fun _ => [] where
  chain _ := rfl
  tail _ _ h := by cases h
  disj _ _ _ h := by cases h

/-- A process goes from one list to another, whose tail it becomes. -/
theorem moved_to_tail :
    (∃ L', stateListAdd .sleep 1 noLists = .ok (0, L') ∧ Represents L' .sleep ([] ++ [1]) ∧
      Untouched noLists .sleep [] 1 L') ∧
    Lists noLists (fun _ => []) ∧
    Allowed (fun _ => []) [.add .sleep 1, .add (.ready 0) 2, .remove .sleep (some 1),
      .add (.ready 0) 1] ∧
    ∃ L', calls [.add .sleep 1, .add (.ready 0) 2, .remove .sleep (some 1), .add (.ready 0) 1]
        noLists = .ok ([0, 0, 0, 0], L') ∧
      Lists L' (outcome (fun _ => []) [.add .sleep 1, .add (.ready 0) 2,
        .remove .sleep (some 1), .add (.ready 0) 1]) := by
  have hallowed : Allowed (fun _ => []) [.add .sleep 1, .add (.ready 0) 2,
      .remove .sleep (some 1), .add (.ready 0) 1] := by
    refine ⟨fun k _ => List.not_mem_nil, fun k hk => ?_, trivial, fun k hk => ?_, trivial⟩
    · by_cases hs : k = .sleep
      · subst hs
        decide
      · simp [ListOp.apply, hs]
    · by_cases hs : k = .sleep
      · subst hs
        decide
      · simp [ListOp.apply, pull, hs, hk]
  have hone := state_lists_are_queues.1 noLists .sleep [] (noLists_represents.represents .sleep)
  exact ⟨hone.2.2 1 List.not_mem_nil, noLists_represents, hallowed,
    state_lists_are_queues.2 _ _ _ noLists_represents hallowed⟩

end Xv6Pdx.Ptable
