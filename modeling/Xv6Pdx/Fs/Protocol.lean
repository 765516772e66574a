/-
# `Fs.Protocol` — what the processes rely on while their calls interleave

A process in the middle of a call has something in hand: references to inodes
that are in no file, locks, references to files, ends of a pipe, a child that
`fork` is making, an operation of the log.  `Held` says what, with one count for
each `Key`.  With it the counts add up at every moment, not only between calls
(`Refs`): what the kernel counts is what the files are for plus what the
processes have.  `Refs.act` says once what an action of a process has to balance.
-/
import Xv6Pdx.Fs.Calls
import Xv6Pdx.Lib.Ledger

namespace Xv6Pdx.Fs

open Lib
open Ptable (ProcPtr NPROC)
open Function (update update_self update_of_ne update_eq_self)

/-! ## Counting -/

/-- What is counted: references, locks, ends of pipes, processes in the making, operations of
the log and commits. -/
inductive Key
  | inode (i : InodePtr)
  | lock (i : InodePtr)
  | file (f : FilePtr)
  | pipe (a : Nat) (w : Bool)
  | child (p : ProcPtr)
  | op
  | commit
deriving DecidableEq

/-- What a process has in hand in the middle of a call. -/
structure Held where
  /-- with the references in `ofile` and in `cwd` -/
  count : Key → Nat
  /-- files from `filealloc` that are nothing yet -/
  fresh : FilePtr → Bool
  /-- files that are known to be on an inode -/
  pin : FilePtr → Option InodePtr
  table : Fin NOFILE → Option FilePtr
  cwd : Option InodePtr
  /-- the child that `fork` makes, with its table and its directory so far -/
  child : Option (ProcPtr × (Fin NOFILE → Option FilePtr) × Option InodePtr)

namespace Held

abbrev Has (h : Held) (k : Key) : Prop := 0 < h.count k

/-- The process has a reference to the inode, or a file that is on it. -/
def Reaches (h : Held) (i : InodePtr) : Prop := h.Has (.inode i) ∨ ∃ f, h.pin f = some i

end Held

/-- What is in a table and in `cwd`. -/
def kept (table : Fin NOFILE → Option FilePtr) (cwd : Option InodePtr) : Key → Nat
  | .inode i => if cwd = some i then 1 else 0
  | .file f => ∑ fd, if table fd = some f then 1 else 0
  | _ => 0

def procCount (p : Proc) : Option Held → Key → Nat
  | none => kept p.ofile p.cwd
  | some h => h.count

@[simp] theorem procCount_none (p : Proc) : procCount p none = kept p.ofile p.cwd := rfl

@[simp] theorem procCount_some (p : Proc) (h : Held) : procCount p (some h) = h.count := rfl

def File.key (x : File) : Option Key :=
  match x.type with
  | .none => none
  | .pipe => some (.pipe x.pipe x.writable)
  | .inode => some (.inode x.ip)

def File.count (x : File) (k : Key) : Nat := if 0 < x.ref ∧ x.key = some k then 1 else 0

/-- Whether an end of a pipe is open. -/
def Ends.isOpen (e : Ends) (w : Bool) : Bool := if w then e.writeopen else e.readopen

/-- The page of a pipe is out as long as an end is open. -/
def Ends.Counted (e : Ends) : Prop := e.taken = e.freed + (e.readopen || e.writeopen).toNat

def State.count (s : State) : Key → Nat
  | .inode i => (s.icache i).ref
  | .lock i => (s.icache i).busy.toNat
  | .file f => (s.ftable f).ref
  | .pipe a w => ((s.pipes a).isOpen w).toNat
  | .child p => if (s.proc p).state = .embryo then 1 else 0
  | .op => s.log.outstanding
  | .commit => s.log.committing.toNat

def Inode.tag (i : Inode) : Nat × Nat × Nat × Bool := (i.ref, i.dev, i.inum, i.busy)

/-- The part of the state that is counted. -/
def State.tags (s : State) := (s.ftable, s.proc, s.pipes, s.log.outstanding, s.log.committing,
  fun i => (s.icache i).tag)

section

variable {x y : File} {i : InodePtr} {a : Nat} {w : Bool}

theorem File.key_inode : x.key = some (.inode i) ↔ x.type = .inode ∧ x.ip = i := by
  cases ht : x.type <;> simp [key, ht]

theorem File.key_pipe :
    x.key = some (.pipe a w) ↔ x.type = .pipe ∧ x.pipe = a ∧ x.writable = w := by
  cases ht : x.type <;> simp [key, ht]

theorem File.count_other {k : Key} (hi : ∀ i, k ≠ .inode i) (hp : ∀ a w, k ≠ .pipe a w) :
    x.count k = 0 := by
  refine if_neg fun hk => ?_
  cases ht : x.type <;> simp only [key, ht, reduceCtorEq, Option.some.injEq, and_false] at hk
  · exact hp _ _ hk.2.symm
  · exact hi _ hk.2.symm

@[simp] theorem File.count_file (f : FilePtr) : x.count (.file f) = 0 :=
  count_other (by simp) (by simp)

@[simp] theorem File.count_lock : x.count (.lock i) = 0 := count_other (by simp) (by simp)

@[simp] theorem File.count_child (p : ProcPtr) : x.count (.child p) = 0 :=
  count_other (by simp) (by simp)

theorem File.count_none (ht : x.type = .none) (k : Key) : x.count k = 0 := by
  simp [count, key, ht]

/-- The number of references does not matter, as long as there is one. -/
theorem File.count_ref {n : Nat} (hn : 0 < n) (hx : 0 < x.ref) (k : Key) :
    File.count { x with ref := n } k = x.count k := by
  simp [count, hn, hx, key]

end

namespace State

variable {s : State} {k : Key}

theorem putInode_tags {i : InodePtr} {x : Inode} (hx : x.tag = (s.icache i).tag) :
    (s.putInode i x).tags = s.tags := by
  have hi : ∀ j, (update s.icache i x j).tag = (s.icache j).tag := fun j => by
    by_cases hj : j = i
    · rw [hj, update_self, hx]
    · rw [update_of_ne hj]
  simpa [tags, hi] using ⟨rfl, rfl, rfl⟩

theorem putInode_count {i : InodePtr} {x : Inode} (hi : k ≠ .inode i) (hl : k ≠ .lock i) :
    (s.putInode i x).count k = s.count k := by
  cases k <;> simp_all [count]

theorem putFile_count {f : FilePtr} {x : File} (hf : k ≠ .file f) :
    (s.putFile f x).count k = s.count k := by
  cases k <;> simp_all [count]

theorem putPipe_count {a : Nat} {x : Ends} (ha : ∀ w, k ≠ .pipe a w) :
    (s.putPipe a x).count k = s.count k := by
  cases k <;> simp_all [count]

theorem putProc_count {p : ProcPtr} {x : Proc} (hp : k ≠ .child p) :
    (s.putProc p x).count k = s.count k := by
  cases k <;> simp_all [count]

theorem putProc_count_of_state {p : ProcPtr} {x : Proc}
    (hx : x.state = .embryo ↔ (s.proc p).state = .embryo) :
    (s.putProc p x).count k = s.count k := by
  by_cases hk : k = .child p
  · subst hk
    simp [count, hx]
  · exact putProc_count hk

end State

/-! ## References and locks -/

/-- What a process knows of a file. -/
structure Known (h : Held) (f : FilePtr) (file : File) : Prop where
  pin : ∀ i, h.pin f = some i → h.Has (.file f) ∧ file.key = some (.inode i)
  fresh : h.fresh f = true → h.count (.file f) = 1 ∧ file.ref = 1 ∧ file.type = .none

/-- What a process knows of the state. -/
structure Own (s : State) (p : ProcPtr) (h : Held) : Prop where
  live : (s.proc p).state = .live
  table : (s.proc p).ofile = h.table
  cwd : (s.proc p).cwd = h.cwd
  home : h.cwd ≠ none
  locked : ∀ i, h.Has (.lock i) → h.Reaches i
  file : ∀ f, Known h f (s.ftable f)
  child : ∀ np t c, h.child = some (np, t, c) →
    h.Has (.child np) ∧ (s.proc np).ofile = t ∧ (s.proc np).cwd = c

/-- A process that runs has a directory, and one that is over has nothing. -/
structure Proc.Fit (p : Proc) : Prop where
  home : p.state = .live → p.cwd ≠ none
  gone : p.state ≠ .live → p.state ≠ .embryo → (∀ fd, p.ofile fd = none) ∧ p.cwd = none

/-- In the cache an inode has one entry. -/
def Unique (icache : InodePtr → Inode) : Prop :=
  ∀ i j, 0 < (icache i).ref → 0 < (icache j).ref → (icache i).dev = (icache j).dev →
    (icache i).inum = (icache j).inum → i = j

structure Refs (s : State) (g : ProcPtr → Option Held) : Prop where
  count : ∀ k, s.count k = ∑ f, (s.ftable f).count k + ∑ p, procCount (s.proc p) (g p) k
  closed : ∀ f, (s.ftable f).ref = 0 → (s.ftable f).type = .none
  unique : Unique s.icache
  own : ∀ p h, g p = some h → Own s p h
  fit : ∀ p, (s.proc p).Fit
  page : ∀ a, (s.pipes a).Counted
  log : s.log.committing = true → s.log.outstanding = 0

section Ghost

variable {s s' : State} {g : ProcPtr → Option Held} {me q np : ProcPtr} {h h' hq : Held}
  {c : Key → Nat}

theorem Known.congr {f : FilePtr} {x : File} (hk : Known h f x)
    (hc : h'.count (.file f) = h.count (.file f)) (hp : h'.pin f = h.pin f)
    (hb : h'.fresh f = h.fresh f) : Known h' f x := by
  obtain ⟨hpin, hfresh⟩ := hk
  refine ⟨?_, ?_⟩
  · rwa [Held.Has, hc, hp]
  · rwa [hc, hb]

theorem Own.recount (ho : Own s me h) (hp : s'.proc = s.proc) (hf : s'.ftable = s.ftable)
    (hfile : ∀ f, c (.file f) = h.count (.file f))
    (hchild : ∀ np, c (.child np) = h.count (.child np))
    (hlocked : ∀ i, 0 < c (.lock i) → 0 < c (.inode i) ∨ ∃ f, h.pin f = some i) :
    Own s' me { h with count := c } := by
  refine ⟨hp ▸ ho.live, hp ▸ ho.table, hp ▸ ho.cwd, ho.home, hlocked, fun f => ?_, fun np t d hd => ?_⟩
  · rw [hf]
    exact (ho.file f).congr (hfile f) rfl rfl
  · rw [hp]
    exact (ho.child np t d hd).imp_left (·.trans_eq (hchild np).symm)

/-! ## Sums over the processes -/

/-- What a process counts for, after it has changed its ghost and itself. -/
theorem sum_me (hg : g me = some h) (hproc : ∀ q, q ≠ me → s'.proc q = s.proc q) (o : Option Held)
    (k : Key) : ∑ p, procCount (s'.proc p) (update g me o p) k + h.count k
      = ∑ p, procCount (s.proc p) (g p) k + procCount (s'.proc me) o k := by
  have hsum := sum_change (fun p => procCount (s.proc p) (g p) k)
    (fun p => procCount (s'.proc p) (update g me o p) k) me ?_
  · simpa only [update_self, hg, procCount_some] using hsum
  · intro q hq
    simp only [update_of_ne hq, hproc q hq]

namespace Refs

theorem files_le (hs : Refs s g) (hg : g me = some h) (k : Key) :
    ∑ f, (s.ftable f).count k + h.count k ≤ s.count k := by
  have hle := Finset.single_le_sum (f := fun p => procCount (s.proc p) (g p) k)
    (fun _ _ => Nat.zero_le _) (Finset.mem_univ me)
  simp only [hg, procCount_some] at hle
  rw [hs.count k]
  exact Nat.add_le_add_left hle _

theorem le (hs : Refs s g) (hg : g me = some h) (k : Key) : h.count k ≤ s.count k :=
  (Nat.le_add_left ..).trans (hs.files_le hg k)

theorem add_le (hs : Refs s g) (hg : g me = some h) (hgq : g q = some hq) (hne : q ≠ me) (k : Key) :
    h.count k + hq.count k ≤ s.count k := by
  have hsum := Finset.add_sum_erase Finset.univ (fun p => procCount (s.proc p) (g p) k)
    (Finset.mem_univ me)
  have hle := Finset.single_le_sum (f := fun p => procCount (s.proc p) (g p) k)
    (fun _ _ => Nat.zero_le _) (Finset.mem_erase.mpr ⟨hne, Finset.mem_univ q⟩)
  simp only [hgq, hg, procCount_some] at hle hsum
  rw [hs.count k]
  omega

theorem file_le (s : State) (f : FilePtr) (k : Key) :
    (s.ftable f).count k ≤ ∑ f, (s.ftable f).count k :=
  Finset.single_le_sum (f := fun f => (s.ftable f).count k) (fun _ _ => Nat.zero_le _)
    (Finset.mem_univ f)

theorem pinned (hs : Refs s g) (hg : g me = some h) {f : FilePtr} {i : InodePtr}
    (hpin : h.pin f = some i) : 0 < ∑ f, (s.ftable f).count (.inode i) := by
  obtain ⟨hshare, hkey⟩ := ((hs.own me h hg).file f).pin i hpin
  have hone : (s.ftable f).count (.inode i) = 1 :=
    if_pos ⟨hshare.trans_le (hs.le hg (.file f)), hkey⟩
  exact (hone ▸ Nat.one_pos).trans_le (file_le s f _)

/-- What is locked is referenced, by the process or by a file that it has. -/
theorem ref_pos (hs : Refs s g) (hg : g me = some h) {i : InodePtr} (hi : h.Reaches i) :
    0 < (s.icache i).ref := by
  refine Nat.lt_of_lt_of_le ?_ (hs.files_le hg (.inode i))
  rcases hi with hhas | ⟨f, hpin⟩
  · exact Nat.add_pos_right _ hhas
  · exact Nat.add_pos_left (hs.pinned hg hpin) _

theorem locker (hs : Refs s g) {i : InodePtr} (hb : (s.icache i).busy = true) :
    ∃ q hq, g q = some hq ∧ hq.Has (.lock i) := by
  have hone : ∑ p, procCount (s.proc p) (g p) (.lock i) = 1 := by
    simpa [State.count, hb] using (hs.count (.lock i)).symm
  obtain ⟨q, -, hq⟩ := Finset.exists_ne_zero_of_sum_ne_zero (hone ▸ Nat.one_ne_zero)
  cases hg : g q with
  | none => simp [hg, kept] at hq
  | some h => exact ⟨q, h, hg, Nat.pos_of_ne_zero (by simpa [hg] using hq)⟩

theorem idle_of_ref_zero (hs : Refs s g) {i : InodePtr} (h0 : (s.icache i).ref = 0) :
    (s.icache i).busy = false := by
  rw [← Bool.not_eq_true]
  intro hb
  obtain ⟨q, hq, hg, hl⟩ := hs.locker hb
  exact absurd h0 (hs.ref_pos hg ((hs.own q hq hg).locked i hl)).ne'

theorem not_held (hs : Refs s g) {p : ProcPtr} (hp : (s.proc p).state ≠ .live) : g p = none := by
  cases hg : g p with
  | none => rfl
  | some h => exact absurd (hs.own p h hg).live hp

theorem embryo (hs : Refs s g) (hg : g me = some h) (hc : h.Has (.child np)) :
    (s.proc np).state = .embryo := by
  by_contra hne
  have hle := hs.le hg (.child np)
  rw [State.count, if_neg hne] at hle
  exact absurd hc hle.not_gt

/-! ## An action -/

/-- What the others know, after an action that touches none of them. -/
theorem own_other (hs : Refs s g) (hg : g me = some h) {f : FilePtr}
    (hproc : ∀ q, q ≠ me → s'.proc q = s.proc q) (hfile : ∀ f', f' ≠ f → s'.ftable f' = s.ftable f')
    (hne : q ≠ me) (hgq : g q = some hq) (hknown : Known hq f (s'.ftable f)) : Own s' q hq := by
  obtain ⟨hlive, htable, hcwd, hhome, hlocked, hfiles, hchild⟩ := hs.own q hq hgq
  rw [← hproc q hne] at hlive htable hcwd
  refine ⟨hlive, htable, hcwd, hhome, hlocked, fun f' => ?_, fun np t c hc => ?_⟩
  · by_cases hf : f' = f
    · rwa [hf]
    · rw [hfile f' hf]
      exact hfiles f'
  · have hnp := hchild np t c hc
    rw [hproc np]
    · exact hnp
    · rintro rfl
      exact absurd ((hs.own np h hg).live.symm.trans (hs.embryo hgq hnp.1)) (by simp)

/-- A process changes the state and what it has in hand, such that the counts balance. -/
theorem act (hs : Refs s g) (hg : g me = some h) (f : FilePtr)
    (hproc : ∀ q, q ≠ me → s'.proc q = s.proc q) (hfile : ∀ f', f' ≠ f → s'.ftable f' = s.ftable f')
    (hcount : ∀ k, s'.count k + ((s.ftable f).count k + h.count k)
      = s.count k + ((s'.ftable f).count k + h'.count k))
    (hclosed : (s'.ftable f).ref = 0 → (s'.ftable f).type = .none) (hunique : Unique s'.icache)
    (hown : Own s' me h') (hknown : ∀ q hq, q ≠ me → g q = some hq → Known hq f (s'.ftable f))
    (hpage : ∀ a, (s'.pipes a).Counted) (hlog : s'.log.committing = true → s'.log.outstanding = 0) :
    Refs s' (update g me (some h')) := by
  refine ⟨fun k => ?_, fun f' h0 => ?_, hunique, fun q hq hgq => ?_, fun p => ?_, hpage, hlog⟩
  · have hme : _ + h.count k = _ + h'.count k := sum_me hg hproc (some h') k
    have hfiles := sum_change (fun f => (s.ftable f).count k) (fun f => (s'.ftable f).count k) f
      fun f' hne => by simp only [hfile f' hne]
    have hold := hs.count k
    have hk := hcount k
    omega
  · by_cases hf : f' = f
    · subst hf
      exact hclosed h0
    · rw [hfile f' hf] at h0 ⊢
      exact hs.closed f' h0
  · by_cases hne : q = me
    · subst hne
      rw [update_self] at hgq
      cases hgq
      exact hown
    · rw [update_of_ne hne] at hgq
      exact hs.own_other hg hproc hfile hne hgq (hknown q hq hne hgq)
  · by_cases hne : p = me
    · subst hne
      exact ⟨fun _ => hown.cwd ▸ hown.home, fun hl => absurd hown.live hl⟩
    · rw [hproc p hne]
      exact hs.fit p

/-- An entry of the cache changes, with the references and the locks of the process. -/
theorem putInode (hs : Refs s g) (hg : g me = some h) {i : InodePtr} {x : Inode}
    (href : x.ref + h.count (.inode i) = (s.icache i).ref + c (.inode i))
    (hbusy : x.busy.toNat + h.count (.lock i) = (s.icache i).busy.toNat + c (.lock i))
    (hrest : ∀ k, k ≠ .inode i → k ≠ .lock i → c k = h.count k)
    (huniq : ∀ j, j ≠ i → 0 < x.ref → 0 < (s.icache j).ref → x.dev = (s.icache j).dev →
      x.inum ≠ (s.icache j).inum)
    (hlocked : 0 < c (.lock i) → 0 < c (.inode i) ∨ ∃ f, h.pin f = some i) :
    Refs (s.putInode i x) (update g me (some { h with count := c })) := by
  have hown := hs.own me h hg
  refine hs.act hg 0 (fun _ _ => rfl) (fun _ _ => rfl) (fun k => ?_) (hs.closed 0) ?_
    (hown.recount rfl rfl (fun f => hrest _ (by simp) (by simp))
      (fun np => hrest _ (by simp) (by simp)) fun j hj => ?_)
    (fun q hq _ hgq => (hs.own q hq hgq).file 0) hs.page hs.log
  · by_cases hi : k = .inode i
    · subst hi
      simp only [State.count, State.putInode_icache, State.putInode_ftable, update_self]
      omega
    · by_cases hl : k = .lock i
      · subst hl
        simpa [State.count] using hbusy
      · simp only [State.putInode_count hi hl, hrest k hi hl, State.putInode_ftable]
  · intro j k hj hk hdev hinum
    simp only [State.putInode_icache] at hj hk hdev hinum
    by_cases hji : j = i <;> by_cases hki : k = i
    · rw [hji, hki]
    · rw [hji, update_self] at hj hdev hinum
      rw [update_of_ne hki] at hk hdev hinum
      exact absurd hinum (huniq k hki hj hk hdev)
    · rw [hki, update_self] at hk hdev hinum
      rw [update_of_ne hji] at hj hdev hinum
      exact absurd hinum.symm (huniq j hji hk hj hdev.symm)
    · rw [update_of_ne hji] at hj hdev hinum
      rw [update_of_ne hki] at hk hdev hinum
      exact hs.unique j k hj hk hdev hinum
  · by_cases hji : j = i
    · subst hji
      exact hlocked hj
    · rw [hrest _ (by simp) (by simpa using hji)] at hj
      rw [hrest _ (by simpa using hji) (by simp)]
      exact hown.locked j hj

/-- A file changes, with what the process that changes it has of it. -/
theorem putFile (hs : Refs s g) (hg : g me = some h) {f : FilePtr} {x : File} {b : Bool}
    {o : Option InodePtr} (hshare : x.ref + h.count (.file f) = (s.ftable f).ref + c (.file f))
    (hrest : ∀ k, k ≠ .file f → (s.ftable f).count k + h.count k = x.count k + c k)
    (hclosed : x.ref = 0 → x.type = .none)
    (hknown : ∀ q hq, q ≠ me → g q = some hq → Known hq f x)
    (hpin : ∀ i, o = some i → 0 < c (.file f) ∧ x.key = some (.inode i))
    (hfresh : b = true → c (.file f) = 1 ∧ x.ref = 1 ∧ x.type = .none)
    (hlocked : ∀ i, 0 < c (.lock i) → 0 < c (.inode i) ∨ ∃ f', update h.pin f o f' = some i) :
    Refs (s.putFile f x) (update g me (some
      { h with count := c, fresh := update h.fresh f b, pin := update h.pin f o })) := by
  have hown := hs.own me h hg
  have hself : (s.putFile f x).ftable f = x := update_self ..
  refine hs.act hg f (fun _ _ => rfl) (fun f' hne => update_of_ne hne ..) (fun k => ?_) (by rwa [hself])
    hs.unique ⟨hown.live, hown.table, hown.cwd, hown.home, hlocked, fun f' => ?_, fun np t d hd => ?_⟩
    (by rwa [hself]) hs.page hs.log
  · rw [hself]
    by_cases hk : k = .file f
    · subst hk
      simpa [State.count] using hshare
    · rw [State.putFile_count hk, hrest k hk]
  · by_cases hf : f' = f
    · subst hf
      rw [hself]
      exact ⟨by simpa only [update_self] using hpin, by simpa only [update_self] using hfresh⟩
    · have hc : c (.file f') = h.count (.file f') := by
        simpa using (hrest (.file f') (by simpa using hf)).symm
      simp only [State.putFile_ftable, update_of_ne hf]
      exact (hown.file f').congr hc (update_of_ne hf ..) (update_of_ne hf ..)
  · have hc : c (.child np) = h.count (.child np) := by simpa using (hrest (.child np) (by simp)).symm
    exact (hown.child np t d hd).imp_left (·.trans_eq hc.symm)

/-- A process changes its own files or its own directory. -/
theorem putMe (hs : Refs s g) (hg : g me = some h) {x : Proc} (hx : x.state = .live)
    (hhome : x.cwd ≠ none) :
    Refs (s.putProc me x) (update g me (some { h with table := x.ofile, cwd := x.cwd })) := by
  have hown := hs.own me h hg
  have hother : ∀ q, q ≠ me → (s.putProc me x).proc q = s.proc q :=
    fun q hne => update_of_ne hne ..
  have hself : (s.putProc me x).proc me = x := update_self ..
  refine hs.act hg 0 hother (fun _ _ => rfl) (fun k => ?_) (hs.closed 0) hs.unique
    ⟨by rw [hself, hx], by rw [hself], by rw [hself], hhome, hown.locked,
      fun f => (hown.file f).congr rfl rfl rfl, fun np t c hc => ?_⟩
    (fun q hq _ hgq => (hs.own q hq hgq).file 0) hs.page hs.log
  · rw [State.putProc_count_of_state (by simp [hx, hown.live])]
    rfl
  · have hnp := hown.child np t c hc
    rw [hother np]
    · exact hnp
    · rintro rfl
      exact absurd (hown.live.symm.trans (hs.embryo hg hnp.1)) (by simp)

/-- An end of a pipe that is in no file is opened or closed. -/
theorem putPipe (hs : Refs s g) (hg : g me = some h) {a : Nat} {x : Ends}
    (hends : ∀ w, (x.isOpen w).toNat + h.count (.pipe a w)
      = ((s.pipes a).isOpen w).toNat + c (.pipe a w))
    (hrest : ∀ k, (∀ w, k ≠ .pipe a w) → c k = h.count k) (hpage : x.Counted) :
    Refs (s.putPipe a x) (update g me (some { h with count := c })) := by
  have hown := hs.own me h hg
  refine hs.act hg 0 (fun _ _ => rfl) (fun _ _ => rfl) (fun k => ?_) (hs.closed 0) hs.unique
    (hown.recount rfl rfl (fun f => hrest _ (by simp)) (fun np => hrest _ (by simp)) fun i hi => ?_)
    (fun q hq _ hgq => (hs.own q hq hgq).file 0) (fun b => ?_) hs.log
  · by_cases hk : ∀ w, k ≠ .pipe a w
    · simp only [State.putPipe_count hk, hrest k hk, State.putPipe_ftable]
    · push Not at hk
      obtain ⟨w, rfl⟩ := hk
      have hw := hends w
      simp only [State.count, State.putPipe_pipes, State.putPipe_ftable, update_self]
      omega
  · rw [hrest _ (by simp)] at hi ⊢
    exact hown.locked i hi
  · by_cases hb : b = a
    · subst hb
      simpa only [State.putPipe_pipes, update_self] using hpage
    · simpa only [State.putPipe_pipes, update_of_ne hb] using hs.page b

theorem putLog (hs : Refs s g) (hg : g me = some h) {l : Log} {o : ProcPtr → Op}
    (hop : l.outstanding + h.count .op = s.log.outstanding + c .op)
    (hcommit : l.committing.toNat + h.count .commit = s.log.committing.toNat + c .commit)
    (hrest : ∀ k, k ≠ .op → k ≠ .commit → c k = h.count k)
    (hlog : l.committing = true → l.outstanding = 0) :
    Refs { s with log := l, op := o } (update g me (some { h with count := c })) := by
  have hown := hs.own me h hg
  refine hs.act hg 0 (fun _ _ => rfl) (fun _ _ => rfl) (fun k => ?_) (hs.closed 0) hs.unique
    (hown.recount rfl rfl (fun f => hrest _ (by simp) (by simp))
      (fun np => hrest _ (by simp) (by simp)) fun i hi => ?_)
    (fun q hq _ hgq => (hs.own q hq hgq).file 0) hs.page hlog
  · cases k <;> simp_all [State.count] <;> omega
  · rw [hrest _ (by simp) (by simp)] at hi ⊢
    exact hown.locked i hi

theorem same (hs : Refs s g) (hg : g me = some h) : Refs s (update g me (some h)) := by
  rwa [← hg, update_eq_self]

theorem congr (hs : Refs s g) (ht : s'.tags = s.tags) : Refs s' g := by
  obtain ⟨hcount, hclosed, hunique, hown, hfit, hpage, hlog⟩ := hs
  obtain ⟨hf, hp, hq, ho, hc, hi⟩ := by simpa only [State.tags, Prod.mk.injEq] using ht
  have hi : ∀ i, (s'.icache i).ref = (s.icache i).ref ∧ (s'.icache i).dev = (s.icache i).dev ∧
      (s'.icache i).inum = (s.icache i).inum ∧ (s'.icache i).busy = (s.icache i).busy :=
    fun i => by simpa only [Inode.tag, Prod.mk.injEq] using congrFun hi i
  refine ⟨fun k => ?_, by rwa [hf], fun i j => ?_, fun p h hg => ?_, by rwa [hp], by rwa [hq],
    by rwa [ho, hc]⟩
  · have hk : s'.count k = s.count k := by
      cases k <;> simp only [State.count, hf, hp, hq, ho, hc, (hi _).1, (hi _).2.2.2]
    rw [hk, hf, hp, hcount k]
  · rw [(hi i).1, (hi j).1, (hi i).2.1, (hi j).2.1, (hi i).2.2.1, (hi j).2.2.1]
    exact hunique i j
  · have ho := hown p h hg
    exact ho.recount hp hf (fun _ => rfl) (fun _ => rfl) ho.locked

/-! ## Other processes -/

theorem not_child (hs : Refs s g) (hg : g me = some h)
    (hmine : (s.proc np).state = .embryo → h.Has (.child np)) (hne : q ≠ me) (hgq : g q = some hq) :
    ¬ hq.Has (.child np) := by
  intro hc
  have hembryo := hs.embryo hgq hc
  have hle := hs.add_le hg hgq hne (.child np)
  rw [State.count, if_pos hembryo] at hle
  have hpos := hmine hembryo
  unfold Held.Has at hc hpos
  omega

/-- A process that does not run changes, with what the one that changes it has. -/
theorem putOther (hs : Refs s g) (hg : g me = some h) {x : Proc}
    {o : Option (ProcPtr × (Fin NOFILE → Option FilePtr) × Option InodePtr)}
    (hnp : (s.proc np).state ≠ .live)
    (hmine : (s.proc np).state = .embryo → h.Has (.child np))
    (hcount : ∀ k, (s.putProc np x).count k + (kept (s.proc np).ofile (s.proc np).cwd k + h.count k)
      = s.count k + (kept x.ofile x.cwd k + c k))
    (hfit : x.Fit) (hchild : o = none ∨ o = some (np, x.ofile, x.cwd) ∧ 0 < c (.child np))
    (hlocked : ∀ i, 0 < c (.lock i) → 0 < c (.inode i) ∨ ∃ f, h.pin f = some i)
    (hknown : ∀ f, Known { h with count := c } f (s.ftable f)) :
    Refs (s.putProc np x) (update g me (some { h with count := c, child := o })) := by
  have hown := hs.own me h hg
  have hnpme : me ≠ np := by
    rintro rfl
    exact hnp hown.live
  have hother : ∀ q, q ≠ np → (s.putProc np x).proc q = s.proc q :=
    fun q hne => update_of_ne hne ..
  have hself : (s.putProc np x).proc np = x := update_self ..
  refine ⟨fun k => ?_, hs.closed, hs.unique, fun q hq hgq => ?_, fun p => ?_, hs.page, hs.log⟩
  · -- first what `np` counts for, then what the process does
    have hsum := sum_change (fun p => procCount (s.proc p) (g p) k)
      (fun p => procCount ((s.putProc np x).proc p) (g p) k) np
      fun q hne => by simp only [hother q hne]
    have hme : _ + h.count k = _ + c k := sum_me (s := s.putProc np x) hg (fun _ _ => rfl)
      (some { h with count := c, child := o }) k
    simp only [hself, hs.not_held hnp, procCount_none] at hsum
    have hold := hs.count k
    have hk := hcount k
    simp only [State.putProc_ftable]
    omega
  · by_cases hne : q = me
    · subst hne
      rw [update_self] at hgq
      cases hgq
      refine ⟨by rw [hother _ hnpme, hown.live], by rw [hother _ hnpme, hown.table],
        by rw [hother _ hnpme, hown.cwd], hown.home, hlocked, fun f => (hknown f).congr rfl rfl rfl, ?_⟩
      intro np' t d hd
      rcases hchild with rfl | ⟨rfl, hpos⟩ <;> cases hd
      rw [hself]
      exact ⟨hpos, rfl, rfl⟩
    · rw [update_of_ne hne] at hgq
      have hownq := hs.own q hq hgq
      have hqnp : q ≠ np := by
        rintro rfl
        exact hnp hownq.live
      refine ⟨by rw [hother q hqnp, hownq.live], by rw [hother q hqnp, hownq.table],
        by rw [hother q hqnp, hownq.cwd], hownq.home, hownq.locked, hownq.file, fun np' t d hd => ?_⟩
      have hq' := hownq.child np' t d hd
      rw [hother]
      · exact hq'
      · rintro rfl
        exact hs.not_child hg hmine hne hgq hq'.1
  · by_cases hne : p = np
    · rwa [hne, hself]
    · rw [hother p hne]
      exact hs.fit p

end Refs

/-! ## Between calls -/

/-- Nothing in hand but what is in the table and in `cwd`. -/
def Held.Rest (h : Held) : Prop := h.count = kept h.table h.cwd

/-- What a process has in hand when a call begins. -/
def Held.start (p : Proc) : Held :=
  ⟨kept p.ofile p.cwd, fun _ => false, fun _ => none, p.ofile, p.cwd, none⟩

theorem Held.start_rest (p : Proc) : (Held.start p).Rest := rfl

namespace Refs

theorem begin (hs : Refs s g) (hg : g me = none) (hlive : (s.proc me).state = .live) :
    Refs s (update g me (some (.start (s.proc me)))) := by
  refine ⟨fun k => ?_, hs.closed, hs.unique, fun q hq hgq => ?_, hs.fit, hs.page, hs.log⟩
  · refine (hs.count k).trans (congrArg _ (Finset.sum_congr rfl fun p _ => ?_))
    by_cases hne : p = me
    · rw [hne, update_self, hg]
      rfl
    · rw [update_of_ne hne]
  · by_cases hne : q = me
    · subst hne
      rw [update_self] at hgq
      cases hgq
      refine ⟨hlive, rfl, rfl, (hs.fit q).home hlive, fun i hi => absurd hi (Nat.lt_irrefl 0), fun f => ⟨?_, ?_⟩, ?_⟩
      · rintro _ ⟨⟩
      · exact fun hf => absurd hf Bool.false_ne_true
      · rintro _ _ _ ⟨⟩
    · rw [update_of_ne hne] at hgq
      exact hs.own q hq hgq

/-- A process gives up its ghost, and maybe exits, with nothing left in hand
but what is in its table. -/
theorem leave (hs : Refs s g) (hg : g me = some h) {x : Proc} (hrest : h.count = kept x.ofile x.cwd)
    (hx : x.state ≠ .embryo) (hfit : x.Fit) :
    Refs (s.putProc me x) (update g me none) := by
  have hother : ∀ q, q ≠ me → (s.putProc me x).proc q = s.proc q :=
    fun q hne => update_of_ne hne ..
  have hself : (s.putProc me x).proc me = x := update_self ..
  have hlive := (hs.own me h hg).live
  refine ⟨fun k => ?_, hs.closed, hs.unique, fun q hq hgq => ?_, fun p => ?_, hs.page, hs.log⟩
  · have hme := sum_me hg hother none k
    rw [hself, procCount_none, ← hrest] at hme
    rw [State.putProc_count_of_state (by simp [hx, hlive]), hs.count k]
    simp only [State.putProc_ftable]
    omega
  · by_cases hne : q = me
    · subst hne
      rw [update_self] at hgq
      cases hgq
    · rw [update_of_ne hne] at hgq
      exact hs.own_other (f := 0) hg hother (fun _ _ => rfl) hne hgq ((hs.own q hq hgq).file 0)
  · by_cases hne : p = me
    · rwa [hne, hself]
    · rw [hother p hne]
      exact hs.fit p

end Refs

end Ghost

end Xv6Pdx.Fs
