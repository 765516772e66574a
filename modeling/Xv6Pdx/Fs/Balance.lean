/-
# `Fs.Balance` — every reference is accounted for

From boot, processes make calls, and the actions of the calls interleave in any order.
Between calls the `ref` of an inode is the number of files and current directories it
is, the `ref` of a file is the number of descriptors it is, and a pipe is open at an end
as long as a file is that end.  Every operation of the log is closed again.  At no moment
does a call panic because a reference or a lock is missing.
-/
import Xv6Pdx.Fs.Returns

namespace Xv6Pdx.Fs

open Lib Bytes
open Ptable (ProcPtr NPROC)
open Function (update update_self update_of_ne update_eq_self update_idem)

/-! ## Runs -/

/-- A process that runs begins a call, none of the three on attributes. -/
def Begins (s : State) (p : ProcPtr) (prog : FsM Unit) : Prop :=
  (s.proc p).state = .live ∧ ∃ call : Call, call.attr = false ∧ prog = call.prog p

/-- The pools that boot and calls lead to. -/
def Running (c : Pool State String ProcPtr) : Prop := Pool.Reachable Boot Begins (fun _ => True) c

def everyone : Scope where
  free _ := True
  fixed _ := ⟨.unused, fun _ => none, none, 0, 0⟩

def only (me : ProcPtr) (s : State) : Scope where
  free p := p = me
  fixed := s.proc

section

variable {s : State} {me : ProcPtr} {c : Pool State String ProcPtr}

theorem Boot.proc (hb : Boot s) {p : ProcPtr} (hp : p ≠ s.initproc) : (s.proc p).state = .unused ∧
    (∀ fd, (s.proc p).ofile fd = none) ∧ (s.proc p).cwd = none := by
  rw [hb.others p hp]
  exact ⟨rfl, fun _ => rfl, rfl⟩

theorem Boot.refs (hb : Boot s) : Refs s fun _ => none := by
  obtain ⟨root, hcwd, hone, -, -, hother⟩ := hb.root
  have hroot : ∀ i, 0 < (s.icache i).ref → i = root := by
    intro i hi
    by_contra hne
    have := hother i hne
    omega
  have hprocs : ∀ k, ∑ p, kept (s.proc p).ofile (s.proc p).cwd k = kept (fun _ => none) (some root) k := by
    intro k
    rw [← hcwd, ← funext hb.init.2]
    refine Finset.sum_eq_single s.initproc (fun p _ hp => ?_) fun hm => absurd (Finset.mem_univ _) hm
    obtain ⟨-, hofile, hnone⟩ := hb.proc hp
    cases k <;> simp [kept, hofile, hnone]
  refine ⟨fun k => ?_, fun f _ => (hb.files f).2, fun i j hi hj _ _ =>
    (hroot i hi).trans (hroot j hj).symm, ?_, fun p => ?_, fun a => ?_, fun _ => hb.outstanding⟩
  · simp only [procCount_none, hprocs, File.count_none (hb.files _).2, Finset.sum_const_zero,
      Nat.zero_add]
    cases k with
    | inode i =>
      by_cases hi : i = root
      · simp [State.count, kept, hi, hone]
      · simp [State.count, kept, hother i hi, Ne.symm hi]
    | pipe a w => cases w <;> simp [State.count, kept, Ends.isOpen, hb.pipes a]
    | child p =>
      by_cases hp : p = s.initproc
      · simp [State.count, kept, hp, hb.init.1]
      · simp [State.count, kept, (hb.proc hp).1]
    | _ => simp [State.count, kept, hb.idle, hb.files, hb.outstanding, hb.committing]
  · rintro p h ⟨⟩
  · by_cases hp : p = s.initproc
    · rw [hp]
      exact ⟨fun _ => by simp [hcwd], fun hl => absurd hb.init.1 hl⟩
    · obtain ⟨hstate, hrest⟩ := hb.proc hp
      exact ⟨fun hl => by simp [hstate] at hl, fun _ _ => hrest⟩
  · simp [Ends.Counted, hb.pipes a]

theorem Refs.retire {g : ProcPtr → Option Held} (hs : Refs s g) (hl : Leaves (g me)) :
    Refs s (update g me none) := by
  cases hg : g me with
  | none => rwa [← hg, update_eq_self]
  | some h =>
    have hown := hs.own me h hg
    have hleave := hs.leave hg (x := s.proc me) (by rw [hown.table, hown.cwd, hl h hg])
      (by simp [hown.live]) (hs.fit me)
    rwa [State.putProc, update_eq_self] at hleave

theorem everyone_retire (s : State) (g : ProcPtr → Option (Option Held)) (p : ProcPtr)
    (o : Option Held) (hinv : (counts everyone).inv s g) (hg : g p = some o) (hl : Leaves o) :
    (counts everyone).inv s (update g p none) := by
  refine ⟨?_, fun q hq => absurd trivial hq⟩
  rw [join_update]
  refine hinv.1.retire ?_
  rwa [hg, Option.join_some]

theorem Running.call {p : ProcPtr} {t : State} (hs : Running ⟨s, fun _ => .pure ()⟩) (call : Call)
    (hlive : (s.proc p).state = .live) (hattr : call.attr = false)
    (hr : (call.prog p).run s = some (.ok ((), t))) : Running ⟨t, fun _ => .pure ()⟩ :=
  Pool.Reachable.alone (i := p) (fun _ => trivial) hs rfl ⟨hlive, call, hattr, rfl⟩ hr

theorem Running.good (hc : Running c) : Pool.Good (counts everyone) Leaves c := by
  refine Pool.Reachable.good (P := counts everyone) (fun s hb => ⟨hb.refs, fun q hq => absurd trivial hq⟩)
    ?_ everyone_retire hc
  rintro s g p _ hinv hg ⟨hlive, call, hattr, rfl⟩
  refine ⟨some (.start (s.proc p)), ⟨?_, fun q hq => absurd trivial hq⟩,
    returns_call (fun _ => trivial) (Held.start_rest _) call hattr⟩
  rw [join_update]
  exact hinv.1.begin (by simp [hg]) hlive

theorem Running.quiet (hc : Running c) (hidle : ∀ p, c.idle p) : Refs c.state fun _ => none :=
  (hc.good.quiet everyone_retire hidle).1

/-- Between calls the `ref` of an inode is the number of files on it and of processes in it,
nobody has locked it, and it is in the cache once. -/
theorem inode_refs_balance (hc : Running c) (hidle : ∀ p, c.idle p) : (∀ i, (c.state.icache i).ref =
      (Finset.univ.filter fun f => 0 < (c.state.ftable f).ref ∧ (c.state.ftable f).type = .inode ∧
        (c.state.ftable f).ip = i).card +
      (Finset.univ.filter fun p => (c.state.proc p).cwd = some i).card) ∧
    (∀ i, (c.state.icache i).busy = false) ∧
    ∀ i j, 0 < (c.state.icache i).ref → 0 < (c.state.icache j).ref →
      (c.state.icache i).dev = (c.state.icache j).dev →
      (c.state.icache i).inum = (c.state.icache j).inum → i = j := by
  have hs := hc.quiet hidle
  refine ⟨fun i => (hs.count (.inode i)).trans ?_, fun i => ?_, hs.unique⟩
  · simp only [Finset.card_filter, File.count, File.key_inode]
    rfl
  · simpa [State.count, kept] using hs.count (.lock i)

/-- The state of a machine with this disk after `userinit`. -/
def booted (disk : Disk) : State where
  sb := .read (disk 1)
  disk := disk
  log := ⟨⟨2, LOGSIZE, LOGSIZE_pos⟩, 0, false, ⟨0, fun _ => 0⟩⟩
  icache := fun i => if i = 0 then ⟨.zero, ROOTDEV, ROOTINO, 1, false, false⟩
    else ⟨.zero, 0, 0, 0, false, false⟩
  ftable := fun _ => ⟨.none, 0, false, false, 0, 0, 0⟩
  pipes := fun _ => ⟨false, false, 0, 0⟩
  proc := fun p => if p = 0 then ⟨.live, fun _ => none, some 0, 0, 0⟩
    else ⟨.unused, fun _ => none, none, 0, 0⟩
  initproc := 0
  world := fun _ => 7
  op := fun _ => ⟨false, []⟩

theorem boot_booted (disk : Disk) : Boot (booted disk) where
  sb := rfl
  outstanding := rfl
  committing := rfl
  n := rfl
  outside _ := rfl
  files _ := ⟨rfl, rfl⟩
  pipes _ := ⟨rfl, rfl, rfl⟩
  others p hp := by simp [booted, show p ≠ 0 from hp]
  init := ⟨rfl, fun _ => rfl⟩
  root := ⟨0, rfl, rfl, rfl, rfl, fun i hi => by simp [booted, hi]⟩
  idle i := by
    by_cases hi : i = 0 <;> simp [booted, hi]

theorem running_boot (disk : Disk) : Running ⟨booted disk, fun _ => .pure ()⟩ := .init (boot_booted disk)

/-- A disk with an empty root directory. -/
def rootDisk : Disk := fun b =>
  if b = 0 then putInode (fun _ => 0) ROOTINO { DInode.zero with type := T_DIR, nlink := 1 }
  else fun _ => 0

/-- `init` opens the root and forks: a file and two current directories. -/
theorem inode_refs_fork : ∃ s : State, (s.ftable 0).ref = 2 ∧ (s.icache 0).ref = 3 ∧
    (Finset.univ.filter fun f => 0 < (s.ftable f).ref ∧ (s.ftable f).type = .inode ∧
        (s.ftable f).ip = 0).card +
      (Finset.univ.filter fun p => (s.proc p).cwd = some 0).card = 3 := by
  have hs := (running_boot rootDisk).call (p := 0) (.open (some [47]) 0) rfl rfl rfl
  have hs' := hs.call (p := 0) .fork rfl rfl rfl
  have hbalance := inode_refs_balance hs' fun _ => rfl
  exact ⟨_, rfl, rfl, (hbalance.1 0).symm.trans rfl⟩

/-- Nobody commits while an operation is open, and between calls none is open and nobody
commits. -/
theorem ops_balance (hc : Running c) :
    (c.state.log.committing = true → c.state.log.outstanding = 0) ∧
    ((∀ p, c.idle p) → c.state.log.outstanding = 0 ∧ c.state.log.committing = false) := by
  refine ⟨?_, fun hidle => ?_⟩
  · obtain ⟨g, hinv, -⟩ := hc.good
    exact hinv.1.log
  · have hs := hc.quiet hidle
    exact ⟨by simpa [State.count, kept, File.count_other] using hs.count .op,
      by simpa [State.count, kept, File.count_other] using hs.count .commit⟩

/-- A `chdir` to a bad address opens an operation and closes it. -/
theorem ops_balance_chdir : ∃ c, Running c ∧ (∀ p, c.idle p) ∧ c.state.log.outstanding = 0 := by
  have hc := (running_boot rootDisk).call (p := 0) (.chdir none) rfl rfl rfl
  exact ⟨_, hc, fun _ => rfl, ((ops_balance hc).2 fun _ => rfl).1⟩

/-- No interleaving of the calls stops with the panic of a reference or a lock that the
process does not have. -/
theorem no_slip (hc : Running c) (p : ProcPtr) : ∀ msg ∈ slips, c.step p ≠ some (.error msg) :=
  fun _ hmsg hstep => hc.good.errors hstep hmsg

/-- In the `close` of a file, where `iput` gives up a reference to its inode. -/
theorem no_slip_close : ∃ c c', Running c ∧ c.step 0 = some (.ok c') ∧
    c.state.log.outstanding = 1 ∧ (c.state.icache 0).ref = 2 ∧ (c'.state.icache 0).ref = 1 ∧
    ∀ msg ∈ slips, c.step 0 ≠ some (.error msg) := by
  have hs := (running_boot rootDisk).call (p := 0) (.open (some [47]) 0) rfl rfl rfl
  have hbegin := Pool.Reachable.begin (i := 0) hs rfl ⟨rfl, .close 0, rfl, rfl⟩
  have hargfd := hbegin.step (i := 0) rfl trivial
  have hsetFd := hargfd.step (i := 0) rfl trivial
  have hdropFile := hsetFd.step (i := 0) rfl trivial
  have hbeginOp := hdropFile.step (i := 0) rfl trivial
  exact ⟨_, _, hbeginOp, rfl, rfl, rfl, rfl, no_slip hbeginOp 0⟩

/-! ## Failing calls -/

/-- An `open`, `pipe` or `dup` that fails, from one state to another. -/
def Fails (me : ProcPtr) (s s' : State) : Prop :=
  (∃ path omode, (sysOpen me path omode).run s = some (.ok (none, s'))) ∨
    (∃ fd, (sysPipe me fd).run s = some (.ok (none, s'))) ∨
    ∃ fd, (sysDup me fd).run s = some (.ok (none, s'))

theorem join_map (g : ProcPtr → Option Held) : (fun p => ((g p).map some).join) = g := by
  funext p
  cases g p <;> rfl

/-- A call that fails leaves every table and every `ref` as it is, while the other processes are
wherever they are. -/
theorem Fails.unchanged {s' : State} {g : ProcPtr → Option Held} (hf : Fails me s s')
    (hs : Refs s g) (hg : g me = none) (hlive : (s.proc me).state = .live) :
    (∀ q, (s'.proc q).ofile = (s.proc q).ofile) ∧ ∀ f, (s'.ftable f).ref = (s.ftable f).ref := by
  obtain ⟨α, p, hp, hrun⟩ : ∃ (α : Type) (p : FsM (Option α)), (∀ h, h.Rest → Keeps (only me s) me p
      (fun r h' => Failing r h.table h') h) ∧ p.run s = some (.ok (none, s')) := by
    rcases hf with ⟨path, omode, hrun⟩ | ⟨fd, hrun⟩ | ⟨fd, hrun⟩
    · exact ⟨_, _, fun h hr => keeps_sysOpen hr rfl path omode, hrun⟩
    · exact ⟨_, _, fun h hr => keeps_sysPipe hr rfl fd, hrun⟩
    · exact ⟨_, _, fun h hr => keeps_sysDup hr rfl fd, hrun⟩
  have hbegin := hs.begin hg hlive
  obtain ⟨_, ⟨hs', hother⟩, h', rfl, hr, htable⟩ := Prog.Safe.run (fun _ => trivial)
    (hp _ (Held.start_rest (s.proc me)))
    (g := fun q => (update g me (some (.start (s.proc me))) q).map some) (by simp)
    ⟨by rwa [join_map], fun _ _ => rfl⟩ hrun
  rw [join_update, join_map, update_idem, Option.join_some] at hs'
  have htable : h'.table = (s.proc me).ofile := htable rfl
  refine ⟨fun q => ?_, fun f => ?_⟩
  · by_cases hq : q = me
    · rw [hq, ← htable]
      exact (hs'.own me h' (update_self ..)).table
    · rw [hother q hq]
      rfl
  · refine (hs'.count (.file f)).trans (.trans ?_ (hbegin.count (.file f)).symm)
    simp only [File.count_file]
    refine congrArg (_ + ·) (Finset.sum_congr rfl fun q _ => ?_)
    by_cases hq : q = me
    · subst hq
      rw [update_self, update_self, procCount_some, hr, htable]
      rfl
    · rw [update_of_ne hq, update_of_ne hq, hother q hq]
      rfl

/-! ## Files and pipes -/

theorem Refs.slots (hs : Refs s fun _ => none) (f : FilePtr) : (s.ftable f).ref =
    (Finset.univ.filter fun x : ProcPtr × Fin NOFILE => (s.proc x.1).ofile x.2 = some f).card := by
  refine (hs.count (.file f)).trans ?_
  simp only [File.count_file, Finset.sum_const_zero, Nat.zero_add]
  rw [Finset.card_filter, Fintype.sum_prod_type]
  rfl

theorem Refs.pipe_end (hs : Refs s fun _ => none) (a : Nat) (w : Bool) : (s.pipes a).isOpen w = true ↔
    ∃ f, 0 < (s.ftable f).ref ∧ (s.ftable f).type = .pipe ∧ (s.ftable f).pipe = a ∧
      (s.ftable f).writable = w := by
  simp only [← File.key_pipe]
  have hcount := hs.count (.pipe a w)
  simp only [procCount_none, kept, Finset.sum_const_zero, Nat.add_zero] at hcount
  constructor
  · intro ho
    rw [State.count, ho, Bool.toNat_true] at hcount
    obtain ⟨f, -, hf⟩ := Finset.exists_ne_zero_of_sum_ne_zero (hcount ▸ Nat.one_ne_zero)
    exact ⟨f, by simpa [File.count] using hf⟩
  · rintro ⟨f, hf⟩
    have hle := Refs.file_le s f (.pipe a w)
    rw [← hcount, File.count, if_pos hf, State.count] at hle
    cases ho : (s.pipes a).isOpen w with
    | true => rfl
    | false => simp [ho] at hle

/-- Between calls files and pipes are accounted for.  An `open`, `pipe` or `dup` that fails has
changed no descriptor and no `ref`; a page of a pipe is freed when both ends are closed. -/
theorem file_refs_balance (hc : Running c) : ((∀ p, c.idle p) →
      (∀ f, (c.state.ftable f).ref = (Finset.univ.filter fun x : ProcPtr × Fin NOFILE =>
        (c.state.proc x.1).ofile x.2 = some f).card) ∧
      (∀ f, (c.state.ftable f).ref = 0 → (c.state.ftable f).type = .none) ∧
      ∀ a, ((c.state.pipes a).readopen = true ↔ ∃ f, 0 < (c.state.ftable f).ref ∧
          (c.state.ftable f).type = .pipe ∧ (c.state.ftable f).pipe = a ∧
          (c.state.ftable f).writable = false) ∧
        ((c.state.pipes a).writeopen = true ↔ ∃ f, 0 < (c.state.ftable f).ref ∧
          (c.state.ftable f).type = .pipe ∧ (c.state.ftable f).pipe = a ∧
          (c.state.ftable f).writable = true)) ∧
    (∀ me s', c.idle me → (c.state.proc me).state = .live → Fails me c.state s' →
      (∀ q, (s'.proc q).ofile = (c.state.proc q).ofile) ∧
        ∀ f, (s'.ftable f).ref = (c.state.ftable f).ref) ∧
    ∀ a, (c.state.pipes a).taken = (c.state.pipes a).freed +
      ((c.state.pipes a).readopen || (c.state.pipes a).writeopen).toNat := by
  refine ⟨fun hidle => ?_, fun me s' hidle hlive hfails => ?_, fun a => ?_⟩
  · have hs := hc.quiet hidle
    exact ⟨hs.slots, hs.closed, fun a => ⟨hs.pipe_end a false, hs.pipe_end a true⟩⟩
  · obtain ⟨g, hinv, hg, -⟩ := hc.good.retire everyone_retire hidle
    exact hfails.unchanged hinv.1 (by simp [hg]) hlive
  · obtain ⟨g, hinv, -⟩ := hc.good
    exact hinv.1.page a

theorem running_pipe : ∃ s, Running ⟨s, fun _ => .pure ()⟩ ∧
    (s.ftable 0).ref = 1 ∧ (s.pipes 7).readopen = true :=
  ⟨_, (running_boot rootDisk).call (p := 0) (.pipe (some ())) rfl rfl rfl, rfl, rfl⟩

/-- With a pipe, its first file is one descriptor, and `dup(-1)` fails. -/
theorem file_refs_pipe : ∃ s : State, (s.pipes 7).readopen = true ∧
    (Finset.univ.filter fun x : ProcPtr × Fin NOFILE => (s.proc x.1).ofile x.2 = some 0).card = 1 ∧
    Fails 0 s s ∧ (s.pipes 7).taken = (s.pipes 7).freed + 1 := by
  obtain ⟨s, hs, hfile, hopen⟩ := running_pipe
  have hbalance := file_refs_balance hs
  refine ⟨s, hopen, ((hbalance.1 fun _ => rfl).1 0).symm.trans hfile, .inr (.inr ⟨-1, rfl⟩), ?_⟩
  simpa [hopen] using hbalance.2.2 7

end

end Xv6Pdx.Fs
