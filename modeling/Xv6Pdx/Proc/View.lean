/-
# `Proc.View` — the process table without its pointers

A `View` is the kernel state with the pointers of `ptable.pLists` replaced by a
function `loc` from processes to lists: that a process is on exactly one list is
then built into the type.  `Rep s A V` connects the two: the pointers of `s`
represent the lists `V`, and membership in `V` is `A.loc`.

The second half gives the rules by which the routines are verified, one for
each primitive and one for each kind of loop.  Most loops of `proc.c` visit every
process of a list and change only that process; `View.on` is their meaning.
-/
import Xv6Pdx.Proc.Kernel

namespace Xv6Pdx.Ptable

open Lib
open Function (update update_self update_of_ne)

/-- The kernel state, with the place of each process for the list pointers. -/
@[ext]
structure View where
  proc : ProcPtr → Proc
  loc : ProcPtr → StateList
  promoteAtTime : Nat
  ticks : Nat
  nextpid : Nat
  initproc : Option ProcPtr
  cpu : Nat → Option ProcPtr
  resume : ProcPtr → Resume
  task : ProcPtr → Task

def Kernel.view (s : Kernel) (loc : ProcPtr → StateList) : View where
  proc := s.proc
  loc := loc
  promoteAtTime := s.promoteAtTime
  ticks := s.ticks
  nextpid := s.nextpid
  initproc := s.initproc
  cpu := s.cpu
  resume := s.resume
  task := s.task

/-- A local change: what becomes of a process and of its place. -/
abbrev Change := Proc → StateList → Proc × StateList

namespace View

/-- Assign to fields of one process. -/
def assign (A : View) (p : ProcPtr) (f : Proc → Proc) : View :=
  { A with proc := update A.proc p (f (A.proc p)) }

/-- Assign to one process and put it on another list. -/
def move (A : View) (p : ProcPtr) (dst : StateList) (f : Proc → Proc) : View :=
  { A with
    proc := update A.proc p (f (A.proc p))
    loc := update A.loc p dst }

def change (A : View) (p : ProcPtr) (φ : Change) : View :=
  { A with
    proc := update A.proc p (φ (A.proc p) (A.loc p)).1
    loc := update A.loc p (φ (A.proc p) (A.loc p)).2 }

/-- The change `φ` at every process of `D`. -/
def on (A : View) (D : ProcPtr → Prop) [DecidablePred D] (φ : Change) : View :=
  { A with
    proc := fun p => if D p then (φ (A.proc p) (A.loc p)).1 else A.proc p
    loc := fun p => if D p then (φ (A.proc p) (A.loc p)).2 else A.loc p }

theorem change_eq_move (A : View) {p : ProcPtr} {φ : Change} {dst : StateList} {f : Proc → Proc}
    (h : φ (A.proc p) (A.loc p) = (f (A.proc p), dst)) : A.change p φ = A.move p dst f := by
  simp [change, move, h]

theorem change_eq_assign (A : View) {p : ProcPtr} {φ : Change} {f : Proc → Proc}
    (h : φ (A.proc p) (A.loc p) = (f (A.proc p), A.loc p)) : A.change p φ = A.assign p f := by
  simp [change, assign, h]

theorem change_eq_self (A : View) {p : ProcPtr} {φ : Change}
    (h : φ (A.proc p) (A.loc p) = (A.proc p, A.loc p)) : A.change p φ = A := by
  simp [change, h]

theorem on_empty (A : View) (φ : Change) : A.on (fun p => p ∈ ([] : List ProcPtr)) φ = A := by
  simp [on]

theorem on_congr (A : View) {D D' : ProcPtr → Prop} [DecidablePred D] [DecidablePred D']
    (φ : Change) (h : ∀ p, D p ↔ D' p) : A.on D φ = A.on D' φ := by
  simp [on, h]

theorem on_change (A : View) {ps : List ProcPtr} {p : ProcPtr} (φ : Change) (hp : p ∉ ps) :
    (A.on (fun q => q ∈ ps) φ).change p φ = A.on (fun q => q ∈ ps ++ [p]) φ := by
  have hproc : ∀ q, update (fun q => if q ∈ ps then (φ (A.proc q) (A.loc q)).1
      else A.proc q) p (φ (A.proc p) (A.loc p)).1 q
        = if q ∈ ps ++ [p] then (φ (A.proc q) (A.loc q)).1 else A.proc q := by
    intro q
    by_cases hq : q = p
    · subst hq
      simp
    · simp [hq]
  have hloc : ∀ q, update (fun q => if q ∈ ps then (φ (A.proc q) (A.loc q)).2
      else A.loc q) p (φ (A.proc p) (A.loc p)).2 q
        = if q ∈ ps ++ [p] then (φ (A.proc q) (A.loc q)).2 else A.loc q := by
    intro q
    by_cases hq : q = p
    · subst hq
      simp
    · simp [hq]
  simp only [on, change, if_neg hp]
  rw [funext hproc, funext hloc]

end View

/-! ## The pointers represent the view -/

/-- The pointers of `s` represent the lists `V`, and `A` is `s` with these
lists read as places. -/
structure Rep (s : Kernel) (A : View) (V : StateList → List ProcPtr) : Prop where
  lists : Lists s.pLists V
  mem : ∀ l p, p ∈ V l ↔ A.loc p = l
  view : s.view A.loc = A

namespace Rep

variable {s : Kernel} {A : View} {V : StateList → List ProcPtr}

theorem proc (h : Rep s A V) : s.proc = A.proc := congrArg View.proc h.view

theorem ticks (h : Rep s A V) : s.ticks = A.ticks := congrArg View.ticks h.view

theorem nextpid (h : Rep s A V) : s.nextpid = A.nextpid := congrArg View.nextpid h.view

theorem initproc (h : Rep s A V) : s.initproc = A.initproc := congrArg View.initproc h.view

theorem cpu (h : Rep s A V) : s.cpu = A.cpu := congrArg View.cpu h.view

theorem resume (h : Rep s A V) : s.resume = A.resume := congrArg View.resume h.view

theorem task (h : Rep s A V) : s.task = A.task := congrArg View.task h.view

theorem promoteAtTime (h : Rep s A V) : s.promoteAtTime = A.promoteAtTime :=
  congrArg View.promoteAtTime h.view

theorem head_eq (h : Rep s A V) (l : StateList) : s.pLists.head l = (V l).head? :=
  h.lists.head_eq l

theorem next_eq (h : Rep s A V) {l : StateList} {xs ys : List ProcPtr} {p : ProcPtr}
    (hl : V l = xs ++ p :: ys) : s.pLists.next p = ys.head? := by
  have hc := h.lists.chain l
  rw [hl] at hc
  exact hc.of_append.head_eq

theorem frame (h : Rep s A V) {s' : Kernel} {f : ProcPtr → Proc} {loc : ProcPtr → StateList}
    {V' : StateList → List ProcPtr} (h' : Rep s' { A with proc := f, loc := loc } V') :
    s' = { s with proc := f, pLists := s'.pLists } := by
  have hv := h.view
  have hv' := h'.view
  cases s'
  cases A
  simp only [Kernel.view, View.mk.injEq] at hv hv'
  simp only [hv, hv']

theorem relist (h : Rep s A V) {L : StateLists} {V' : StateList → List ProcPtr}
    {loc : ProcPtr → StateList} (hL : Lists L V') (hmem : ∀ l p, p ∈ V' l ↔ loc p = l) :
    Rep { s with pLists := L } { A with loc := loc } V' := by
  refine ⟨hL, hmem, ?_⟩
  have hv := h.view
  cases A
  simp only [Kernel.view, View.mk.injEq] at hv ⊢
  simp only [hv, and_self]

end Rep

/-- `V` with `p` moved from `src` to the end of `dst`. -/
def shift (V : StateList → List ProcPtr) (p : ProcPtr) (src dst : StateList) :
    StateList → List ProcPtr :=
  push (pull V src p) dst p

theorem mem_shift {V : StateList → List ProcPtr} {loc : ProcPtr → StateList} {p : ProcPtr}
    {src dst : StateList} (hnd : ∀ l, (V l).Nodup) (hmem : ∀ l q, q ∈ V l ↔ loc q = l)
    (hsrc : loc p = src) (l : StateList) (q : ProcPtr) :
    q ∈ shift V p src dst l ↔ update loc p dst q = l := by
  rw [shift, mem_push, mem_pull hnd, hmem]
  by_cases hq : q = p
  · subst hq
    rw [update_self]
    constructor
    · rintro (⟨h1, h2⟩ | ⟨h1, _⟩)
      · exact absurd ⟨h1.symm.trans hsrc, rfl⟩ h2
      · exact h1.symm
    · intro h1
      exact Or.inr ⟨h1.symm, rfl⟩
  · rw [update_of_ne hq]
    simp [hq]

/-! ## Rules for the primitives -/

section Rules

variable {s : Kernel} {A : View} {V : StateList → List ProcPtr}

theorem onLists_spec {α : Type} {m : ListM α} {R : α → StateLists → Prop} {E : Stop → Prop}
    {s : Kernel} (hm : wp m R E s.pLists) :
    wp (onLists m) (fun a s' => ∃ L, R a L ∧ s' = { s with pLists := L }) E s := by
  unfold wp onLists at *
  cases hr : m s.pLists with
  | ok r =>
    rw [hr] at hm
    exact ⟨r.2, hm, rfl⟩
  | error e =>
    rw [hr] at hm
    exact hm

theorem wp_setProc (p : ProcPtr) (f : Proc → Proc) (Q : Unit → Kernel → Prop)
    (E : Stop → Prop) (s : Kernel) :
    wp (setProc p f) Q E s ↔ Q () { s with proc := update s.proc p (f (s.proc p)) } := Iff.rfl

/-- An assignment that has the same meaning in the view. -/
theorem Rep.map (h : Rep s A V) (f : Kernel → Kernel) (g : View → View)
    (hL : (f s).pLists = s.pLists) (hg : ∀ loc, (f s).view loc = g (s.view loc))
    (hloc : (g A).loc = A.loc) : Rep (f s) (g A) V := by
  refine ⟨hL ▸ h.lists, ?_, ?_⟩
  · intro l p
    rw [hloc]
    exact h.mem l p
  · rw [hloc, hg, h.view]

theorem Rep.assign (h : Rep s A V) (p : ProcPtr) (f : Proc → Proc) :
    Rep { s with proc := update s.proc p (f (s.proc p)) } (A.assign p f) V :=
  h.map (fun s => { s with proc := update s.proc p (f (s.proc p)) })
    (fun A => A.assign p f) rfl (fun _ => rfl) rfl

theorem assertState_spec {p : ProcPtr} {st : ProcState} (hst : (s.proc p).state = st)
    (E : Stop → Prop) : wp (assertState p st) (fun _ s' => s' = s) E s := by
  simp [assertState, hst]

/-- `p` has been taken off the list `A.loc p`; the other processes are on the
lists `V`. -/
def Off (s : Kernel) (A : View) (V : StateList → List ProcPtr) (p : ProcPtr) : Prop :=
  ∃ s₀ L, Rep s₀ A V ∧ Lists L (pull V (A.loc p) p) ∧ s = { s₀ with pLists := L }

theorem Off.proc {p : ProcPtr} (h : Off s A V p) : s.proc = A.proc := by
  obtain ⟨s₀, L, hrep, _, rfl⟩ := h
  exact hrep.proc

theorem Off.assign {p : ProcPtr} (h : Off s A V p) (f : Proc → Proc) :
    Off { s with proc := update s.proc p (f (s.proc p)) } (A.assign p f) V p := by
  obtain ⟨s₀, L, hrep, hL, rfl⟩ := h
  exact ⟨_, L, hrep.assign p f, hL, rfl⟩

theorem remove_spec (h : Rep s A V) {p : ProcPtr} {src : StateList} (hloc : A.loc p = src) :
    wp (onLists (stateListRemove src (some p))) (fun rc s' => rc = 0 ∧ Off s' A V p)
      (fun _ => False) s := by
  have hmem : p ∈ V src := (h.mem src p).mpr hloc
  refine wp_post (onLists_spec (stateListRemove_spec h.lists hmem)) ?_
  rintro rc s' ⟨L, ⟨rfl, hL⟩, rfl⟩
  exact ⟨rfl, s, L, h, hloc ▸ hL, rfl⟩

/-- Putting a process that is on no list on the list `dst`. -/
theorem add_spec {p : ProcPtr} (h : Off s A V p) (dst : StateList) :
    wp (onLists (stateListAdd dst p)) (fun rc s' => rc = 0 ∧
      Rep s' { A with loc := update A.loc p dst } (shift V p (A.loc p) dst))
      (fun _ => False) s := by
  obtain ⟨s₀, L, hrep, hL, rfl⟩ := h
  have hoff : ∀ k, p ∉ pull V (A.loc p) p k := by
    intro k hk
    obtain ⟨h1, h2⟩ := (mem_pull hrep.lists.nodup).mp hk
    exact h2 ⟨((hrep.mem k p).mp h1).symm, rfl⟩
  refine wp_post (onLists_spec (stateListAdd_spec hL hoff)) ?_
  rintro rc s' ⟨L', ⟨rfl, hL'⟩, rfl⟩
  exact ⟨rfl, hrep.relist hL' (mem_shift hrep.lists.nodup hrep.mem rfl)⟩

theorem moveProc_spec (h : Rep s A V) {p : ProcPtr} {src : StateList} (dst : StateList)
    {old : ProcState} (f : Proc → Proc) (msg : String) (hloc : A.loc p = src)
    (hst : (A.proc p).state = old) :
    wp (moveProc src dst old f p msg)
      (fun _ s' => Rep s' (A.move p dst f) (shift V p src dst)) (fun _ => False) s := by
  refine wp_seq (remove_spec h hloc) ?_
  rintro rc s₁ ⟨rfl, hoff⟩
  have hst' : (s₁.proc p).state = old := by rw [hoff.proc]; exact hst
  refine wp_seq (assertState_spec hst' _) ?_
  rintro _ s₂ rfl
  rw [wp_bind, wp_setProc]
  refine wp_seq (add_spec (hoff.assign f) dst) ?_
  rintro rc s₃ ⟨rfl, hrep⟩
  simp only [Int.add_zero, ne_eq, not_true_eq_false, if_false, wp_pure]
  exact hloc ▸ hrep

/-! ## Rules for the searches -/

theorem findNext_spec {f : Kernel → ProcPtr → Bool} {E : Stop → Prop} :
    ∀ {ps : List ProcPtr} {n : Nat}, Chain s.pLists.next ps.head? ps → ps.length ≤ n →
      wp (findNext f n ps.head?) (fun r s' => s' = s ∧ r = ps.find? (f s)) E s := by
  intro ps
  induction ps with
  | nil =>
    intro n _ _
    cases n <;> exact ⟨rfl, rfl⟩
  | cons p ps ih =>
    intro n hc hn
    obtain ⟨m, rfl⟩ := Nat.exists_eq_succ_of_ne_zero (Nat.ne_zero_of_lt hn)
    simp only [List.head?_cons, findNext, wp_bind, wp_get]
    by_cases hp : f s p
    · simp [hp]
    · have hnext : s.pLists.next p = ps.head? := hc.2.head_eq
      simp only [hp, hnext]
      have hrec := ih (hnext ▸ hc.2) (by simpa using hn)
      simpa [hp] using hrec

theorem findOn_spec (h : Rep s A V) (l : StateList) (f : Kernel → ProcPtr → Bool)
    (E : Stop → Prop) :
    wp (findOn l f) (fun r s' => s' = s ∧ r = (V l).find? (f s)) E s := by
  simp only [findOn, wp_bind, wp_get, h.head_eq]
  have hc := h.lists.chain l
  rw [h.head_eq] at hc
  exact findNext_spec hc (h.lists.length_le l)

theorem findOn_loc (h : Rep s A V) (l : StateList) (f : Kernel → ProcPtr → Bool) (E : Stop → Prop) :
    wp (findOn l f) (fun r s' => s' = s ∧ match r with
      | some p => A.loc p = l ∧ f s p = true
      | none => ∀ p, A.loc p = l → f s p = false) E s := by
  refine wp_post (findOn_spec h l f E) ?_
  intro r s' hr
  refine ⟨hr.1, ?_⟩
  have hr' := hr.2.symm
  cases r with
  | some p =>
    exact ⟨(h.mem l p).mp (List.mem_of_find?_eq_some hr'), List.find?_some hr'⟩
  | none =>
    intro p hp
    have := List.find?_eq_none.mp hr' p ((h.mem l p).mpr hp)
    simpa using this

/-- A search over consecutive ready lists: the first list with a match is
the one found. -/
theorem findReady_loc (h : Rep s A V) (f : Kernel → ProcPtr → Bool) (E : Stop → Prop) :
    ∀ (n i : Nat), wp (findReady f n i) (fun r s' => s' = s ∧ match r with
      | some (j, p) => A.loc p = .ready j ∧ f s p = true ∧ i ≤ j ∧ j < i + n ∧
          ∀ k, i ≤ k → k < j → ∀ q, A.loc q = .ready k → f s q = false
      | none => ∀ k, i ≤ k → k < i + n → ∀ q, A.loc q = .ready k → f s q = false) E s := by
  intro n
  induction n with
  | zero =>
    intro i
    refine ⟨rfl, ?_⟩
    intro k h1 h2
    omega
  | succ n ih =>
    intro i
    unfold findReady
    refine wp_seq (findOn_loc h (.ready i) f E) ?_
    rintro r s' ⟨rfl, hr⟩
    cases r with
    | some p =>
      refine ⟨rfl, hr.1, hr.2, Nat.le_refl i, by omega, ?_⟩
      intro k h1 h2
      omega
    | none =>
      refine wp_post (ih (i + 1)) ?_
      rintro r s' ⟨rfl, hr'⟩
      refine ⟨rfl, ?_⟩
      -- `ready[i]` has no match, and the rest is the recursive search
      have hfirst : ∀ k, i ≤ k → k < i + 1 → ∀ q, A.loc q = .ready k → f s' q = false := by
        intro k h1 h2 q hq
        have hk : k = i := by omega
        subst hk
        exact hr q hq
      cases r with
      | some jp =>
        obtain ⟨h1, h2, h3, h4, h5⟩ := hr'
        refine ⟨h1, h2, by omega, by omega, ?_⟩
        intro k hk1 hk2 q hq
        by_cases hk : k < i + 1
        · exact hfirst k hk1 hk q hq
        · exact h5 k (by omega) hk2 q hq
      | none =>
        intro k hk1 hk2 q hq
        by_cases hk : k < i + 1
        · exact hfirst k hk1 hk q hq
        · exact hr' k (by omega) (by omega) q hq

/-! ## Rules for the loops -/

theorem forSaved_spec {body : ProcPtr → KernelM Unit} {E : Stop → Prop}
    (I : List ProcPtr → Kernel → Prop)
    (hnext : ∀ p ps s, I (p :: ps) s → s.pLists.next p = ps.head?)
    (hbody : ∀ p ps s, I (p :: ps) s → wp (body p) (fun _ s' => I ps s') E s) :
    ∀ (ps : List ProcPtr) {n : Nat} {s : Kernel}, I ps s → ps.length ≤ n →
      wp (forSaved body n ps.head?) (fun _ s' => I [] s') E s := by
  intro ps
  induction ps with
  | nil =>
    intro n s hI _
    cases n <;> exact hI
  | cons p ps ih =>
    intro n s hI hn
    obtain ⟨m, rfl⟩ := Nat.exists_eq_succ_of_ne_zero (Nat.ne_zero_of_lt hn)
    simp only [List.head?_cons, forSaved, wp_bind, wp_get, hnext p ps s hI]
    exact wp_post (hbody p ps s hI) (fun _ s' hI' => ih hI' (by simpa using hn))

theorem forNext_spec {body : ProcPtr → KernelM Unit} {E : Stop → Prop}
    (I : List ProcPtr → Kernel → Prop)
    (hbody : ∀ p ps s, I (p :: ps) s →
      wp (body p) (fun _ s' => I ps s' ∧ s'.pLists.next p = ps.head?) E s) :
    ∀ (ps : List ProcPtr) {n : Nat} {s : Kernel}, I ps s → ps.length ≤ n →
      wp (forNext body n ps.head?) (fun _ s' => I [] s') E s := by
  intro ps
  induction ps with
  | nil =>
    intro n s hI _
    cases n <;> exact hI
  | cons p ps ih =>
    intro n s hI hn
    obtain ⟨m, rfl⟩ := Nat.exists_eq_succ_of_ne_zero (Nat.ne_zero_of_lt hn)
    simp only [List.head?_cons, forNext, wp_bind, wp_get]
    refine wp_post (hbody p ps s hI) ?_
    rintro _ s' ⟨hI', hnext⟩
    rw [hnext]
    exact ih hI' (by simpa using hn)

theorem forIndex_spec {body : Nat → KernelM Unit} {E : Stop → Prop} {I : Nat → Kernel → Prop} :
    ∀ (n i : Nat) {s : Kernel},
      (∀ k s, i ≤ k → k < i + n → I k s → wp (body k) (fun _ s' => I (k + 1) s') E s) →
      I i s → wp (forIndex body n i) (fun _ s' => I (i + n) s') E s := by
  intro n
  induction n with
  | zero => intro i s _ hI; exact hI
  | succ n ih =>
    intro i s hbody hI
    unfold forIndex
    refine wp_seq (hbody i s (Nat.le_refl i) (by omega) hI) ?_
    intro _ s' hI'
    have hrec := ih (i + 1) (fun k t h1 h2 => hbody k t (by omega) (by omega)) hI'
    have harith : i + 1 + n = i + (n + 1) := by omega
    rwa [harith] at hrec

/-- A loop over the list `l` that makes the change `φ`, which moves nobody,
at each process of it. -/
theorem forNext_on (h : Rep s A V) (l : StateList) {φ : Change} {E : Stop → Prop}
    {body : ProcPtr → KernelM Unit}
    (hbody : ∀ p (ps : List ProcPtr) s, A.loc p = l → p ∉ ps → Rep s (A.on (fun q => q ∈ ps) φ) V →
      wp (body p) (fun _ s' => Rep s' ((A.on (fun q => q ∈ ps) φ).change p φ) V) E s) :
    wp (forNext body NPROC (s.pLists.head l))
      (fun _ s' => Rep s' (A.on (fun p => A.loc p = l) φ) V) E s := by
  -- `ps` is what the loop has still to visit
  let I : List ProcPtr → Kernel → Prop := fun ps s' =>
    ∃ done, V l = done ++ ps ∧ Rep s' (A.on (fun q => q ∈ done) φ) V
  have hstart : I (V l) s := ⟨[], rfl, by rw [A.on_empty φ]; exact h⟩
  have hstep : ∀ p ps s₁, I (p :: ps) s₁ →
      wp (body p) (fun _ s' => I ps s' ∧ s'.pLists.next p = ps.head?) E s₁ := by
    rintro p ps s₁ ⟨done, hdone, hrep⟩
    have hp : p ∉ done := by
      have hnd := h.lists.nodup l
      rw [hdone] at hnd
      exact fun hm => (List.nodup_append.mp hnd).2.2 p hm p List.mem_cons_self rfl
    have hloc : A.loc p = l := (h.mem l p).mp (by rw [hdone]; simp)
    refine wp_post (hbody p done s₁ hloc hp hrep) ?_
    intro _ s₂ hrep₂
    rw [A.on_change φ hp] at hrep₂
    exact ⟨⟨done ++ [p], by rw [hdone]; simp, hrep₂⟩, hrep₂.next_eq hdone⟩
  rw [h.head_eq]
  refine wp_post (forNext_spec I hstep (V l) hstart (h.lists.length_le l)) ?_
  rintro _ s' ⟨done, hdone, hrep⟩
  rw [List.append_nil] at hdone
  rwa [A.on_congr φ (fun p => show p ∈ done ↔ A.loc p = l by rw [← hdone, h.mem])] at hrep

/-- The same for a loop that saves `next`, whose body may also take the
process off the list; the lists of `frame` are left alone. -/
theorem forSaved_on (h : Rep s A V) (l : StateList) (frame : StateList → Prop) {φ : Change}
    {E : Stop → Prop} {body : ProcPtr → KernelM Unit}
    (hbody : ∀ p (ps : List ProcPtr) s V', A.loc p = l → p ∉ ps →
      Rep s (A.on (fun q => q ∈ ps) φ) V' →
      wp (body p) (fun _ s' => ∃ V'', Rep s' ((A.on (fun q => q ∈ ps) φ).change p φ) V'' ∧
        (V'' l = V' l ∨ V'' l = (V' l).erase p) ∧ ∀ k, frame k → V'' k = V' k) E s) :
    wp (forSaved body NPROC (s.pLists.head l))
      (fun _ s' => ∃ V', Rep s' (A.on (fun p => A.loc p = l) φ) V' ∧
        ∀ k, frame k → V' k = V k) E s := by
  -- what is still to visit is the rest of the list as it was and as it is
  let I : List ProcPtr → Kernel → Prop := fun ps s' =>
    ∃ done V' pre, V l = done ++ ps ∧ V' l = pre ++ ps ∧ (∀ k, frame k → V' k = V k) ∧
      Rep s' (A.on (fun q => q ∈ done) φ) V'
  have hstart : I (V l) s :=
    ⟨[], V, [], rfl, rfl, fun _ _ => rfl, by rw [A.on_empty φ]; exact h⟩
  have hnext : ∀ p ps s₁, I (p :: ps) s₁ → s₁.pLists.next p = ps.head? := by
    rintro p ps s₁ ⟨_, V', pre, _, hpre, _, hrep⟩
    exact hrep.next_eq hpre
  have hstep : ∀ p ps s₁, I (p :: ps) s₁ → wp (body p) (fun _ s' => I ps s') E s₁ := by
    rintro p ps s₁ ⟨done, V', pre, hdone, hpre, hfr, hrep⟩
    have hp : p ∉ done := by
      have hnd := h.lists.nodup l
      rw [hdone] at hnd
      exact fun hm => (List.nodup_append.mp hnd).2.2 p hm p List.mem_cons_self rfl
    have hp' : p ∉ pre := by
      have hnd := hrep.lists.nodup l
      rw [hpre] at hnd
      exact fun hm => (List.nodup_append.mp hnd).2.2 p hm p List.mem_cons_self rfl
    have hloc : A.loc p = l := (h.mem l p).mp (by rw [hdone]; simp)
    refine wp_post (hbody p done s₁ V' hloc hp hrep) ?_
    rintro _ s₂ ⟨V'', hrep₂, hV'', hfr₂⟩
    have hfr' : ∀ k, frame k → V'' k = V k := fun k hk => (hfr₂ k hk).trans (hfr k hk)
    rw [A.on_change φ hp] at hrep₂
    rcases hV'' with hV'' | hV''
    · exact ⟨done ++ [p], V'', pre ++ [p], by rw [hdone]; simp, by rw [hV'', hpre]; simp, hfr',
        hrep₂⟩
    · refine ⟨done ++ [p], V'', pre, by rw [hdone]; simp, ?_, hfr', hrep₂⟩
      rw [hV'', hpre, List.erase_append_right _ hp', List.erase_cons_head]
  rw [h.head_eq]
  refine wp_post (forSaved_spec I hnext hstep (V l) hstart (h.lists.length_le l)) ?_
  rintro _ s' ⟨done, V', pre, hdone, _, hfr, hrep⟩
  rw [List.append_nil] at hdone
  rw [A.on_congr φ (fun p => show p ∈ done ↔ A.loc p = l by rw [← hdone, h.mem])] at hrep
  exact ⟨V', hrep, hfr⟩

end Rules

end Xv6Pdx.Ptable
