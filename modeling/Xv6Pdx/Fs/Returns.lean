/-
# `Fs.Returns` — every call returns what it has taken

A system call ends as it begins, with nothing in hand but what is in the table of its
process and in `cwd`, on all of its paths.  An `open`, `pipe` or `dup` that fails has
changed no descriptor.
-/
import Xv6Pdx.Fs.Share

namespace Xv6Pdx.Fs

open Lib Bytes
open Ptable (ProcPtr NPROC)
open Function (update update_self update_of_ne update_eq_self update_idem)
open Held (has_add add_count add_other)

section

variable {S : Scope} {me : ProcPtr} {h : Held} {ip dp : InodePtr} {f rf wf : FilePtr}

/-! ## What is in an inode -/

section Locked

variable (hl : h.Has (.lock ip)) (hi : h.Has (.inode ip))
include hl hi

theorem keeps_dirEmptyFrom (fuel : Nat) :
    ∀ off, Moves S me (dirEmptyFrom me ip fuel off) h fun _ => h := by
  induction fuel with
  | zero => exact fun _ => keeps_pure rfl
  | succ fuel ih =>
    intro off
    refine (silent_gets _).then fun i => ?_
    split
    · refine (keeps_readDirent hl hi _ (by decide)).then fun de => ?_
      split
      · exact keeps_pure rfl
      · exact ih _
    · exact keeps_pure rfl

theorem keeps_isFullDir (type : Nat) : Moves S me (isFullDir me ip type) h fun _ => h := by
  rw [isFullDir]
  split
  · exact Keeps.then (Silent.then (silent_gets _) fun _ => keeps_dirEmptyFrom hl hi _ _)
      fun _ => keeps_pure rfl
  · exact keeps_pure rfl

theorem keeps_loadPages (offset sz fuel : Nat) :
    ∀ i, Moves S me (loadPages me ip offset sz fuel i) h fun _ => h := by
  induction fuel with
  | zero => exact fun _ => keeps_pure rfl
  | succ fuel ih =>
    intro i
    rw [loadPages]
    split
    · refine (keeps_readi hl (.inl hi) _ _).then fun r => ?_
      split
      · exact ih _
      · exact keeps_pure rfl
    · exact keeps_pure rfl

theorem keeps_loaduvm (addr offset sz : Nat) :
    Moves S me (loaduvm me ip addr offset sz) h fun _ => h := by
  rw [loaduvm]
  split
  · exact keeps_panic (by decide)
  · exact keeps_loadPages hl hi _ _ _ _

theorem keeps_loadSegments (k : Nat) :
    ∀ off, Moves S me (loadSegments me ip k off) h fun _ => h := by
  induction k with
  | zero => exact fun _ => keeps_pure rfl
  | succ k ih =>
    intro off
    refine (keeps_readi hl (.inl hi) _ _).then fun ph => ?_
    cases ph with
    | none => exact keeps_pure rfl
    | some ph =>
      dsimp only
      split
      · exact keeps_pure rfl
      · split
        · exact ih _
        · split
          · exact keeps_pure rfl
          · refine silent_draw.then fun mem => ?_
            split
            · exact keeps_pure rfl
            · refine (keeps_loaduvm hl hi _ _ _).then fun ok => ?_
              split
              · exact ih _
              · exact keeps_pure rfl

theorem keeps_loadImage : Moves S me (loadImage me ip) h fun _ => h := by
  refine Keeps.then (k := fun _ => h) ?_ fun elf => ?_
  · refine (keeps_readi hl (.inl hi) _ _).then fun r => ?_
    cases r with
    | some elf => exact keeps_pure rfl
    | none => exact keeps_silent (silent_drawBytes _)
  · split
    · exact keeps_pure rfl
    · split
      · exact keeps_pure rfl
      · refine silent_draw.then fun pgdir => (silent_gets _).then fun p =>
          (silent_gets _).then fun i => ?_
        split
        · exact keeps_pure rfl
        · exact (keeps_loadSegments hl hi _ _).then fun ok => keeps_pure rfl

end Locked

/-! ## Paths -/

section Rest

variable (hr : h.Rest)
include hr

theorem keeps_undoLink (ip : InodePtr) :
    Rests S me (undoLink me ip) ((h.add .op).add (.inode ip)) :=
  (keeps_ilock (.inl has_add)).then fun _ => (silent_updateInode _).then fun _ =>
    keeps_quit hr

theorem keeps_sysLink (old new : Option (List UInt8)) : Rests S me (sysLink me old new) h := by
  rw [sysLink]
  split
  · next old new _ _ =>
      refine keeps_beginOp.then fun _ => (keeps_namei hr.firm.op old).then fun ip => ?_
      cases ip with
      | none => exact keeps_end hr
      | some ip =>
        have hfirm : ((h.add .op).add (.inode ip)).Firm := hr.firm.op.add (by simp)
        refine (keeps_ilock (.inl has_add)).then fun _ => (silent_gets _).then fun i => ?_
        split
        · exact keeps_quit hr
        · refine (silent_updateInode _).then fun _ => keeps_iunlock.then fun _ =>
            (keeps_namex hfirm new true).then fun dp => ?_
          rcases dp with _ | ⟨dp, name⟩
          · exact keeps_undoLink hr ip
          · refine (keeps_ilock (.inl has_add)).then fun _ => (silent_gets _).then fun d =>
              (silent_gets _).then fun i => Keeps.then
                (k := fun _ => ((h.add .op).add (.inode ip)).got (some dp)) ?_ fun linked =>
                  keeps_iunlockput.then fun _ => ?_
            · split
              · exact keeps_pure rfl
              · exact keeps_dirlink has_add hfirm.got _ _
            · split
              · exact (keeps_iput (hr.firm.op.1 ip)).then fun _ => keeps_end hr
              · exact keeps_undoLink hr ip
  · exact keeps_pure hr

theorem keeps_sysUnlink (path : Option (List UInt8)) : Rests S me (sysUnlink me path) h := by
  rw [sysUnlink]
  split
  · exact keeps_pure hr
  · next path _ =>
      refine keeps_beginOp.then fun _ => (keeps_namex hr.firm.op path true).then
        fun dp => ?_
      rcases dp with _ | ⟨dp, name⟩
      · exact keeps_end hr
      · refine (keeps_ilock (.inl has_add)).then fun _ => ?_
        split
        · exact keeps_quit hr
        · refine (keeps_dirlookup has_add (.add has_add) name).then fun found => ?_
          rcases found with _ | ⟨ip, off⟩
          · exact keeps_quit hr
          · refine (keeps_ilock (.inl has_add)).then fun _ => (silent_gets _).then fun i => ?_
            split
            · exact keeps_panic (by decide)
            · refine (keeps_isFullDir has_add (.add has_add) _).then fun full => ?_
              split
              · exact keeps_iunlockput.then fun _ => keeps_quit hr
              · show Keeps S me _ _ (((h.add .op).got (some dp)).got (some ip))
                rw [Held.got_got]
                refine (keeps_writei has_add (.inl (.add has_add)) _ _).then fun r => ?_
                split
                · exact keeps_panic (by decide)
                · exact Silent.then (.when (silent_updateInode _)) fun _ =>
                    keeps_iunlockput.then fun _ => (silent_updateInode _).then fun _ =>
                      keeps_quit hr

theorem keeps_makeNode (path : Option (List UInt8)) (type major minor : Nat) :
    Rests S me (makeNode me path type major minor) h := by
  refine keeps_beginOp.then fun _ => Keeps.then (k := (h.add .op).got) ?_ fun ip => ?_
  · split
    · exact keeps_pure rfl
    · exact keeps_create hr.firm.op _ _ _ _
  · cases ip with
    | none => exact keeps_end hr
    | some ip => exact keeps_quit hr

/-! ## Files and pipes -/

theorem keeps_sysRead (fd n : Int) (p : Option Unit) : Rests S me (sysRead me fd n p) h := by
  refine Keeps.seq (keeps_argfd fd) ?_
  rintro a h ⟨ha, rfl⟩
  split
  · exact keeps_fileread (hr.has_file (ha _ _ rfl)) hr n
  · exact keeps_pure hr

theorem keeps_sysWrite (fd n : Int) (p : Option Bytes) : Rests S me (sysWrite me fd n p) h := by
  refine Keeps.seq (keeps_argfd fd) ?_
  rintro a h ⟨ha, rfl⟩
  split
  · exact keeps_filewrite (hr.has_file (ha _ _ rfl)) hr _ n
  · exact keeps_pure hr

theorem keeps_sysFstat (fd : Int) (st : Option Unit) : Rests S me (sysFstat me fd st) h := by
  refine Keeps.seq (keeps_argfd fd) ?_
  rintro a h ⟨ha, rfl⟩
  split
  · exact keeps_filestat (hr.has_file (ha _ _ rfl)) hr
  · exact keeps_pure hr

/-- The call ends as it begins; if it has failed, no descriptor has changed. -/
def Failing {α : Type} (r : Option α) (table : Fin NOFILE → Option FilePtr) (h : Held) : Prop :=
  h.Rest ∧ (r = none → h.table = table)

theorem keeps_closeBoth {α : Type} :
    Keeps S me (do fileclose me rf; fileclose me wf; pure (none : Option α))
      (fun r h' => r = none ∧ Failing r h.table h') ((h.add (.file rf)).add (.file wf)) := by
  rw [Held.add_comm]
  exact (keeps_fileclose (hr.firm.add (by simp))).then fun _ =>
    (keeps_fileclose (h := h.lose rf) hr.firm).then fun _ => keeps_pure ⟨rfl, hr, fun _ => rfl⟩

omit hr in
theorem keeps_allocPipe : Keeps S me allocPipe (fun r h' => r = none ∧ h' = h ∨
    ∃ p, r = some p ∧ h' = (h.add (.pipe p true)).add (.pipe p false)) h := by
  refine silent_draw.then fun p => keeps_atomic fun s g hg hs => ?_
  split
  · exact ⟨fun _ _ => rfl, h, hs.same hg, .inl ⟨rfl, rfl⟩⟩
  · next hfree =>
      obtain ⟨-, hread, hwrite⟩ := by simpa only [not_or, Bool.not_eq_true] using hfree
      have hpage := hs.page p
      refine ⟨fun _ _ => rfl, _, ?_, .inr ⟨p, rfl, rfl⟩⟩
      refine hs.putPipe (c := ((h.add (.pipe p true)).add (.pipe p false)).count) hg (fun w => ?_)
        (fun k hk => ?_) ?_
      · cases w <;> simp [Ends.isOpen, hread, hwrite, add_count, Nat.add_comm]
      · simp [add_count, hk]
      · simpa [Ends.Counted, hread, hwrite] using hpage

theorem keeps_pipealloc : Keeps S me (pipealloc me) (fun r h' =>
    r = none ∧ Failing r h.table h' ∨ ∃ rf wf, ∃ h₀ : Held, r = some (rf, wf) ∧ h₀.Rest ∧
      h₀.table = h.table ∧ h' = (h₀.add (.file rf)).add (.file wf)) h := by
  refine Keeps.seq keeps_filealloc ?_
  rintro _ _ (⟨rfl, rfl⟩ | ⟨rf, rfl, -, rfl⟩)
  · exact keeps_pure (.inl ⟨rfl, hr, fun _ => rfl⟩)
  · refine Keeps.seq keeps_filealloc ?_
    rintro _ _ (⟨rfl, rfl⟩ | ⟨wf, rfl, hwf, rfl⟩)
    · exact (keeps_fileclose (h := h.setFresh rf true) hr.firm).then fun _ =>
        keeps_pure (.inl ⟨rfl, hr, fun _ => rfl⟩)
    · have hne : wf ≠ rf := by
        rintro rfl
        exact absurd hwf has_add.ne'
      refine Keeps.seq keeps_allocPipe ?_
      rintro _ _ (⟨rfl, rfl⟩ | ⟨p, rfl, rfl⟩)
      · exact (keeps_closeBoth (h := (h.setFresh rf true).setFresh wf true) hr).mono fun _ _ => .inl
      · have hfirm : ((h.add (.file rf)).add (.file wf)).Firm := (hr.firm.add (by simp)).add (by simp)
        refine Keeps.then (keeps_publish (o := some (.pipe p false)) (h := Held.add _ (.pipe p true))
          ?_ (hfirm.add (by simp)) (fun _ => rfl) fun _ => rfl) fun _ =>
          Keeps.then (keeps_publish (o := some (.pipe p true)) (h := Held.setFresh
            ((((h.add (.file rf)).setFresh rf true).add (.file wf)).setFresh wf true) rf false)
            ?_ hfirm (fun _ => rfl) fun _ => rfl) fun _ => keeps_pure (.inr ⟨rf, wf,
              (((h.setFresh rf true).setFresh wf true).setFresh rf false).setFresh wf false, rfl, hr,
              rfl, rfl⟩)
        · simp [Held.setFresh, Held.add, hne.symm]
        · simp [Held.setFresh, Held.add, hne]

/-! ## `exec` -/

section Own

variable (hme : S.free me)
include hme

theorem keeps_exec (path : List UInt8) : Rests S me (exec me path) h := by
  refine keeps_beginOp.then fun _ => (keeps_namei hr.firm.op path).then fun ip => ?_
  cases ip with
  | none => exact keeps_end hr
  | some ip =>
    refine (keeps_ilock (.inl has_add)).then fun _ =>
      (keeps_loadImage has_add (.add has_add)).then fun image =>
        keeps_iunlockput.then fun _ => keeps_endOp.then fun _ => ?_
    cases image with
    | none => exact keeps_pure hr
    | some setuid =>
      refine silent_draw.then fun stack => ?_
      split
      · exact keeps_pure hr
      · exact Keeps.then (keeps_setMe hme (fun p => { p with uid := setuid.getD p.uid })
          (fun _ => rfl) (fun _ ht => ht) (fun _ hc => hc) id) fun _ => keeps_pure hr

theorem keeps_sysExec (path : Option (List UInt8)) (argv : Option Unit) :
    Rests S me (sysExec me path argv) h := by
  unfold sysExec
  split
  · exact keeps_exec hr hme _
  · exact keeps_pure hr

theorem keeps_sysChdir (path : Option (List UInt8)) : Rests S me (sysChdir me path) h := by
  refine keeps_beginOp.then fun _ =>
    Keeps.then (k := fun r => (h.add .op).gain (r.map .inode)) ?_ fun ip => ?_
  · split
    · exact keeps_pure rfl
    · exact keeps_namei hr.firm.op _
  · cases ip with
    | none => exact keeps_end hr
    | some ip =>
      refine (keeps_ilock (.inl has_add)).then fun _ => (silent_gets _).then fun i => ?_
      split
      · exact keeps_quit hr
      · refine keeps_iunlock.then fun _ => Keeps.seq keeps_getCwd ?_
        rintro c _ ⟨hc, rfl⟩
        obtain ⟨h, rfl, hcount⟩ := hr.leave_cwd hc
        show Keeps S me _ _ (((h.add (.inode c)).add .op).add (.inode ip))
        rw [Held.add_comm (k := .op), Held.add_comm (k := .inode c), Held.add_comm (k := .inode c)]
        refine (keeps_iput fun hl => absurd hl (by simp [add_count, hcount, kept])).then fun _ => keeps_endOp.then fun _ =>
          Keeps.then (keeps_setMe hme (fun p => { p with cwd := some ip }) (fun _ => rfl)
            (fun _ ht => ht) (fun _ _ => rfl) fun _ => by simp) fun _ =>
              keeps_pure (funext fun k => ?_)
        show (h.add _).count k = kept h.table (some ip) k
        rw [kept_cwd, add_count, hcount]
        rfl

/-! ## Descriptors -/

theorem keeps_sysDup (fd : Int) :
    Keeps S me (sysDup me fd) (fun r h' => Failing r h.table h') h := by
  refine Keeps.seq (keeps_argfd fd) ?_
  rintro a h ⟨ha, rfl⟩
  rcases a with _ | ⟨fd, f⟩
  · exact keeps_pure ⟨hr, fun _ => rfl⟩
  · have hhas := hr.has_file (ha fd f rfl)
    refine Keeps.seq (keeps_fdalloc hme f) ?_
    rintro _ _ (⟨rfl, rfl⟩ | ⟨fd', rfl, hnone, rfl⟩)
    · exact keeps_pure ⟨hr, fun _ => rfl⟩
    · dsimp only
      refine Keeps.then (keeps_filedup hhas) fun _ => keeps_pure ⟨hr.open_fd hnone, ?_⟩
      rintro ⟨⟩

theorem keeps_sysClose (fd : Int) : Rests S me (sysClose me fd) h := by
  refine Keeps.seq (keeps_argfd fd) ?_
  rintro a h ⟨ha, rfl⟩
  rcases a with _ | ⟨fd, f⟩
  · exact keeps_pure hr
  · obtain ⟨h, rfl, hcount⟩ := hr.close_fd (ha fd f rfl)
    exact Keeps.then (keeps_setFd hme fd none) fun _ =>
      Keeps.then (keeps_fileclose (h := { h with table := update h.table fd none })
        (Held.firm_of_kept hcount)) fun _ => keeps_pure hcount

/-! ## New files -/

theorem keeps_sysOpen (path : Option (List UInt8)) (omode : Nat) :
    Keeps S me (sysOpen me path omode) (fun r h' => Failing r h.table h') h := by
  rw [sysOpen]
  split
  · exact keeps_pure ⟨hr, fun _ => rfl⟩
  · next path _ =>
      refine keeps_beginOp.then fun _ => (keeps_openInode hr.firm.op path omode).then
        fun ip => ?_
      cases ip with
      | none => exact keeps_end ⟨hr, fun _ => rfl⟩
      | some ip =>
        refine Keeps.seq keeps_filealloc ?_
        rintro _ _ (⟨rfl, rfl⟩ | ⟨f, rfl, -, rfl⟩)
        · exact keeps_quit ⟨hr, fun _ => rfl⟩
        · refine Keeps.seq (keeps_fdalloc hme f) ?_
          rintro _ _ (⟨rfl, rfl⟩ | ⟨fd, rfl, hnone, rfl⟩)
          · exact (keeps_fileclose (h := ((h.add .op).got (some ip)).setFresh f true) hr.firm.op.got).then
              fun _ => (keeps_iunlockput (h := ((h.setFresh f true).lose f).add .op)).then fun _ =>
                keeps_end ⟨hr, fun _ => rfl⟩
          · dsimp only
            have hperm : ((h.add .op).got (some ip)).add (.file f) =
                (((h.add (.file f)).add (.inode ip)).add .op).add (.lock ip) := by
              rw [show (Held.got _ _).add (.file f) = _ from Held.gain_got (some (.file f))]
              show (((h.add _).add _).add _).add _ = _
              rw [Held.add_comm (k := .op), Held.add_comm (k := .op)]
            rw [hperm]
            refine Keeps.then (keeps_iunlock (h := (((Held.setFresh { h with
              table := update h.table fd (some f) } f true).add (.file f)).add (.inode ip)).add .op))
              fun _ => keeps_endOp.then fun _ => Keeps.then (keeps_publish
                (o := some (.inode ip)) (update_self ..) (Held.Firm.add hr.firm (by simp))
                (fun _ => rfl) fun _ => rfl) fun _ => keeps_pure ⟨hr.open_fd hnone, ?_⟩
            rintro ⟨⟩

theorem keeps_sysPipe (fd : Option Unit) :
    Keeps S me (sysPipe me fd) (fun r h' => Failing r h.table h') h := by
  unfold sysPipe
  split
  · exact keeps_pure ⟨hr, fun _ => rfl⟩
  · refine Keeps.seq (keeps_pipealloc hr) ?_
    rintro _ _ (⟨rfl, hfail⟩ | ⟨rf, wf, h₀, rfl, hr₀, htable, rfl⟩)
    · exact keeps_pure ⟨hfail.1, fun _ => hfail.2 rfl⟩
    · rw [← htable]
      refine Keeps.seq (keeps_fdalloc hme rf) ?_
      rintro _ _ (⟨rfl, rfl⟩ | ⟨fd0, rfl, hfd0, rfl⟩)
      · exact (keeps_closeBoth hr₀).mono fun _ _ => And.right
      · have hfd0 : h₀.table fd0 = none := hfd0
        refine Keeps.seq (keeps_fdalloc hme wf) ?_
        rintro _ _ (⟨rfl, rfl⟩ | ⟨fd1, rfl, hfd1, rfl⟩)
        · refine Keeps.then (keeps_setFd hme fd0 none) fun _ => ?_
          show Keeps S me _ _ ((Held.add { h₀ with
            table := update (update h₀.table fd0 (some rf)) fd0 none } _).add _)
          rw [update_idem, ← hfd0, update_eq_self]
          exact (keeps_closeBoth hr₀).mono fun _ _ => And.right
        · refine keeps_pure ⟨(hr₀.open_fd hfd0).open_fd hfd1, ?_⟩
          rintro ⟨⟩

end Own

end Rest

/-! ## Processes -/

theorem keeps_forM {β : Type} {body : β → FsM PUnit} {J : List β → Held → Prop}
    (hbody : ∀ b l h, J (b :: l) h → Keeps S me (body b) (fun _ => J l) h) (l : List β) :
    ∀ h, J l h → Keeps S me (l.forM body) (fun _ => J []) h := by
  induction l with
  | nil => exact fun _ hJ => keeps_pure hJ
  | cons b l ih => exact fun h hJ => (hbody b l h hJ).seq fun _ h' hJ' => ih h' hJ'

variable {s : State} {g : ProcPtr → Option Held} {np : ProcPtr} {t : Fin NOFILE → Option FilePtr}

theorem Refs.putState (hs : Refs s g) (hg : g me = some h) {x : Proc} {c : Key → Nat}
    {o : Option (ProcPtr × (Fin NOFILE → Option FilePtr) × Option InodePtr)}
    (hnp : (s.proc np).state ≠ .live)
    (hmine : (s.proc np).state = .embryo → h.Has (.child np))
    (hofile : x.ofile = (s.proc np).ofile) (hcwd : x.cwd = (s.proc np).cwd)
    (hchild : (s.putProc np x).count (.child np) + h.count (.child np)
      = s.count (.child np) + c (.child np))
    (hrest : ∀ k, k ≠ .child np → c k = h.count k)
    (hfit : x.Fit)
    (ho : o = none ∨ o = some (np, x.ofile, x.cwd) ∧ 0 < c (.child np)) :
    Refs (s.putProc np x) (update g me (some { h with count := c, child := o })) := by
  have hown := hs.own me h hg
  refine hs.putOther hg hnp hmine (fun k => ?_) hfit ho (fun i hi => ?_) fun f =>
    (hown.file f).congr (hrest _ (by simp)) rfl rfl
  · rw [hofile, hcwd]
    by_cases hk : k = .child np
    · subst hk
      omega
    · rw [State.putProc_count hk, hrest k hk]
  · rw [hrest _ (by simp)] at hi ⊢
    exact hown.locked i hi

theorem Refs.child_of (hs : Refs s g) (hg : g me = some h) {d : Option InodePtr}
    (hchild : h.child = some (np, t, d)) : h.Has (.child np) ∧ (s.proc np).state = .embryo ∧
      (s.proc np).ofile = t ∧ (s.proc np).cwd = d :=
  have hc := (hs.own me h hg).child np t d hchild
  ⟨hc.1, hs.embryo hg hc.1, hc.2⟩

section All

variable (hall : ∀ p, S.free p)
include hall

theorem keeps_allocproc : Keeps S me allocproc (fun r h' => r = none ∧ h' = h ∨ ∃ np, r = some np ∧
    h' = ({ h with child := some (np, fun _ => none, none) } : Held).add (.child np)) h := by
  refine silent_draw.then fun k => keeps_atomic fun s g hg hs => ?_
  dsimp only
  generalize Fin.ofNat NPROC k = np
  split
  · next hun =>
      obtain ⟨hofile, hcwd⟩ := (hs.fit np).gone (by simp [hun]) (by simp [hun])
      have hput := hs.putState hg (x := { s.proc np with state := .embryo })
        (c := (h.add (.child np)).count) (show (s.proc np).state ≠ .live by simp [hun])
        (fun he => by simp [hun] at he) rfl rfl
        (by simp [State.count, hun, add_count, Nat.add_comm])
        (fun _ hk => add_other hk) ⟨by simp, fun _ he => absurd rfl he⟩
        (.inr ⟨rfl, has_add⟩)
      refine ⟨fun q hq => absurd (hall q) hq, _, hput, .inr ⟨_, rfl, ?_⟩⟩
      rw [funext hofile, hcwd]
      rfl
  · exact ⟨fun _ _ => rfl, h, hs.same hg, .inl ⟨rfl, rfl⟩⟩

theorem keeps_shareFile {f : FilePtr} {fd : Fin NOFILE} (hf : h.Has (.file f)) (hfd : t fd = none)
    (hchild : h.child = some (np, t, none)) : Moves S me (shareFile np fd f) h fun _ => { h with
        fresh := update h.fresh f false, child := some (np, update t fd (some f), none) } := by
  refine keeps_atomic fun s g hg hs => ?_
  dsimp only
  rw [if_neg (hs.file_pos hg hf)]
  refine ⟨fun q hq => absurd (hall q) hq, ?_⟩
  obtain ⟨hhas, hembryo, hofile, hcwd⟩ := hs.child_of hg hchild
  have hdup := hs.dup hg hf
  have hown := hdup.own me _ (update_self ..)
  have hput := hdup.putOther (x := { s.proc np with ofile := update (s.proc np).ofile fd (some f) })
    (c := h.count) (o := some (np, update t fd (some f), none)) (update_self ..)
    (by simp [hembryo]) (fun _ => Held.Has.add (l := .file f) hhas) (fun k => ?_)
    ⟨by simp [hembryo], fun _ he => absurd hembryo he⟩ (.inr ⟨by rw [hofile, hcwd], hhas⟩) (hs.own me h hg).locked fun f' => ?_
  · rw [update_idem] at hput
    exact ⟨_, hput, rfl⟩
  · rw [State.putProc_count_of_state (by simp)]
    show _ + (kept (s.proc np).ofile _ k + (h.add (.file f)).count k) = _
    rw [hofile, kept_fd hfd, add_count]
    simp only [State.putFile_proc]
    omega
  · by_cases hf' : f' = f
    · subst hf'
      refine ⟨fun i hi => ⟨hf, ((hown.file f').pin i hi).2⟩, fun hb => ?_⟩
      simp [Held.setFresh] at hb
    · refine (hown.file f').congr ?_ rfl rfl
      show h.count (.file f') = (h.add (.file f)).count (.file f')
      simp [add_count, hf']

theorem keeps_shareCwd {c : InodePtr} (hfirm : h.Firm) (hc : h.Has (.inode c))
    (hchild : h.child = some (np, t, none)) :
    Moves S me (shareCwd np c) h fun _ => { h with child := some (np, t, some c) } := by
  refine keeps_modify fun s g hg hs => ⟨fun q hq => absurd (hall q) hq, ?_⟩
  obtain ⟨hhas, hembryo, hofile, hcwd⟩ := hs.child_of hg hchild
  have htake := hs.take hg (x := { s.icache c with ref := (s.icache c).ref + 1 }) rfl rfl
    (hs.unique_of (hs.ref_pos hg (.inl hc)))
  have hput := htake.putOther (x := { s.proc np with cwd := some c }) (c := h.count)
    (o := some (np, t, some c)) (update_self ..) (by simp [hembryo]) (fun _ => hhas.add)
    (fun k => ?_) ⟨by simp [hembryo], fun _ he => absurd hembryo he⟩ (.inr ⟨by rw [hofile], hhas⟩)
    (fun i hi => .inl (hfirm.1 i hi)) fun f => (((hs.own me h hg).file f).congr rfl rfl rfl)
  · rw [update_idem] at hput
    exact ⟨_, hput, rfl⟩
  · rw [State.putProc_count_of_state (by simp), add_count]
    simp only [State.putInode_proc, hcwd, kept_cwd _ c]
    omega

/-- The child that a process is making changes its state, and is no more in the making. -/
theorem keeps_finish {d : Option InodePtr} (k : Proc → Proc)
    (hk : ∀ p, (k p).ofile = p.ofile ∧ (k p).cwd = p.cwd) (hembryo : ∀ p, (k p).state ≠ .embryo)
    (hfit : ∀ p, p.ofile = t → p.cwd = d → (k p).Fit) :
    Moves S me (setProc np k) (({ h with child := some (np, t, d) } : Held).add (.child np))
      fun _ => { h with child := none } := by
  refine keeps_modify fun s g hg hs => ⟨fun q hq => absurd (hall q) hq, ?_⟩
  obtain ⟨hhas, hstate, hofile, hcwd⟩ := hs.child_of hg rfl
  refine ⟨_, hs.putState (c := h.count) hg (by simp [hstate]) (fun _ => hhas) (hk _).1 (hk _).2 ?_
    (fun _ hk => (add_other hk).symm) (hfit _ hofile hcwd) (.inl rfl), rfl⟩
  simp [State.count, hstate, hembryo, add_count, Nat.add_comm]

theorem keeps_fork (hr : h.Rest) : Rests S me (fork me) h := by
  refine Keeps.seq (keeps_allocproc hall) ?_
  rintro _ _ (⟨rfl, rfl⟩ | ⟨np, rfl, rfl⟩)
  · exact keeps_pure hr
  · refine silent_draw.then fun pgdir => ?_
    split
    · exact Keeps.then (keeps_finish hall (fun q => { q with state := .unused })
        (fun _ => ⟨rfl, rfl⟩) (by simp) fun p ht hd =>
          ⟨by simp, fun _ _ => ⟨congrFun ht, hd⟩⟩) fun _ => keeps_pure hr
    · -- the files not yet shared are not in the child's table
      refine Keeps.seq (keeps_forM (J := fun l h' => l.Nodup ∧ ∃ b t, (∀ fd ∈ l, t fd = none) ∧
        h' = ({ h with fresh := b, child := some (np, t, none) } : Held).add (.child np)) ?_
        (List.finRange NOFILE) _ ⟨List.nodup_finRange _, _, _, fun _ _ => rfl, rfl⟩) ?_
      · rintro fd l _ ⟨hnodup, b, t, ht, rfl⟩
        obtain ⟨hfd, hl⟩ := List.nodup_cons.mp hnodup
        refine Keeps.seq keeps_getProc ?_
        rintro p _ ⟨htable, -, rfl⟩
        cases hp : p.ofile fd with
        | none => exact keeps_pure ⟨hl, b, t, fun fd' hfd' => ht fd' (.tail _ hfd'), rfl⟩
        | some f =>
          have hf : h.Has (.file f) := hr.has_file ((congrFun htable fd).symm.trans hp)
          refine Keeps.mono (keeps_shareFile hall (by exact Held.Has.add hf) (ht fd (.head _)) (by rfl)) ?_
          rintro _ _ rfl
          refine ⟨hl, update b f false, update t fd (some f), fun fd' hfd' => ?_, rfl⟩
          rw [update_of_ne]
          · exact ht fd' (.tail _ hfd')
          · rintro rfl
            exact hfd hfd'
      · rintro _ _ ⟨-, b, t, -, rfl⟩
        refine Keeps.seq keeps_getCwd ?_
        rintro c _ ⟨hc, rfl⟩
        refine Keeps.then (keeps_shareCwd hall (Held.Firm.add hr.firm (by simp))
          (Held.Has.add (hr.firm.2 c hc)) rfl) fun _ => (silent_gets _).then fun p => ?_
        exact Keeps.then (keeps_finish (h := { h with fresh := b }) (t := t) (d := some c) hall
          (fun q => { q with uid := p.uid, gid := p.gid, state := .live }) (fun _ => ⟨rfl, rfl⟩)
          (by simp) fun p ht hd => ⟨fun _ => by simp [hd], fun hl => absurd rfl hl⟩) fun _ =>
            keeps_pure hr

theorem keeps_wait (hr : h.Rest) : Rests S me wait h := by
  refine silent_draw.then fun k => keeps_atomic fun s g hg hs => ?_
  dsimp only
  generalize Fin.ofNat NPROC k = p
  split
  · next hz =>
      have hgone := (hs.fit p).gone (by simp [hz]) (by simp [hz])
      exact ⟨fun q hq => absurd (hall q) hq, _, hs.putState (c := h.count) (o := none) hg
        (show (s.proc p).state ≠ .live by simp [hz]) (fun he => by simp [hz] at he) rfl rfl
        (by simp [State.count, hz]) (fun _ _ => rfl) ⟨by simp, fun _ _ => hgone⟩ (.inl rfl), hr⟩
  · exact ⟨fun _ _ => rfl, h, hs.same hg, hr⟩

end All

/-! ## Calls -/

/-- What a call leaves: nothing, or what it began with. -/
def Leaves (o : Option Held) : Prop := ∀ h, o = some h → h.Rest

/-- With `h` in hand, the program ends with nothing but what a call begins with. -/
def Returns {α : Type} (S : Scope) (me : ProcPtr) (p : FsM α) (h : Held) : Prop :=
  p.Safe (counts S) me (fun _ => Leaves) (some h)

theorem Keeps.returns {α : Type} {p : FsM α} (hp : Rests S me p h) :
    Returns S me p h := by
  refine Prog.safe_mono hp ?_
  rintro _ _ ⟨h', rfl, hr⟩ _ ⟨⟩
  exact hr

theorem Keeps.next {α β : Type} {p : FsM β} {k : β → FsM α} {P : β → Held → Prop}
    (hp : Keeps S me p P h) (hk : ∀ b h', P b h' → Returns S me (k b) h') :
    Returns S me (p >>= k) h := by
  refine Prog.safe_seq hp ?_
  rintro b _ ⟨h', rfl, hb⟩
  exact hk b h' hb

theorem returns_zombie (hall : ∀ p, S.free p) (hcount : h.count = kept h.table none)
    (htable : ∀ fd, h.table fd = none) :
    Returns S me (setProc me fun p => { p with cwd := none, state := .zombie }) h := by
  refine Prog.safe_atomic fun s g hg hinv => ⟨fun _ he => (by cases he), ?_⟩
  rintro _ _ ⟨⟩ -
  have hg' : (g me).join = some h := by simp [hg]
  have hofile := (hinv.1.own me _ hg').table
  refine ⟨none, ⟨?_, fun q hq => absurd (hall q) hq⟩, ?_⟩
  · rw [join_update]
    refine hinv.1.leave hg' ?_ (by simp) ⟨by simp, fun _ _ => ⟨?_, rfl⟩⟩
    · rw [hofile]
      exact hcount
    · rw [hofile]
      exact htable
  · rintro _ ⟨⟩

theorem returns_exit (hall : ∀ p, S.free p) (hr : h.Rest) : Returns S me (exit me) h := by
  refine (keeps_silent (silent_gets _)).next ?_
  rintro init h rfl
  split
  · exact (keeps_panic (by decide)).returns
  · refine (keeps_forM (J := fun l h' => h'.Rest ∧ ∀ fd, fd ∉ l → h'.table fd = none) ?_
      (List.finRange NOFILE) h ⟨hr, fun fd hfd => absurd (List.mem_finRange fd) hfd⟩).next ?_
    · rintro fd l h ⟨hr, hclosed⟩
      have hother : ∀ fd' ∉ l, fd' ≠ fd → h.table fd' = none := fun fd' hl hne =>
        hclosed fd' fun hm => (List.mem_cons.mp hm).elim hne hl
      refine Keeps.seq keeps_getProc ?_
      rintro p h ⟨htable, -, rfl⟩
      cases hp : p.ofile fd with
      | none =>
        refine keeps_pure ⟨hr, fun fd' hl => ?_⟩
        by_cases hne : fd' = fd
        · rw [hne, ← htable, hp]
        · exact hother fd' hl hne
      | some f =>
        obtain ⟨h, rfl, hcount⟩ := hr.close_fd ((congrFun htable fd).symm.trans hp)
        refine (keeps_fileclose (Held.firm_of_kept hcount)).then fun _ =>
          (keeps_setFd (hall me) fd none).mono ?_
        rintro _ _ rfl
        refine ⟨hcount, fun fd' hl => ?_⟩
        by_cases hne : fd' = fd
        · rw [hne]
          exact update_self ..
        · exact (update_of_ne hne ..).trans (hother fd' hl hne)
    · rintro _ h ⟨hr, hclosed⟩
      refine keeps_beginOp.next ?_
      rintro _ _ rfl
      refine keeps_getCwd.next ?_
      rintro c h ⟨hc, rfl⟩
      obtain ⟨h, rfl, hcount⟩ := hr.leave_cwd hc
      rw [Held.add_comm]
      refine (keeps_iput fun hl => absurd hl (by simp [add_count, hcount, kept])).next ?_
      rintro _ _ rfl
      refine keeps_endOp.next ?_
      rintro _ _ rfl
      exact returns_zombie hall hcount fun fd => hclosed fd List.not_mem_nil

theorem keeps_answer {α : Type} {p : FsM α} (hp : Rests S me p h) :
    Returns S me (do let _ ← p) h :=
  (hp.seq fun _ _ hr => keeps_pure hr).returns

/-- Every call on files but the three on attributes returns what it has taken. -/
theorem returns_call (hall : ∀ p, S.free p) (hr : h.Rest) (call : Call) (hattr : call.attr = false) :
    Returns S me (call.prog me) h := by
  have hme := hall me
  cases call with
  | dup fd => exact keeps_answer ((keeps_sysDup hr hme fd).mono fun _ _ => And.left)
  | read fd n p => exact keeps_answer (keeps_sysRead hr fd n p)
  | write fd n p => exact keeps_answer (keeps_sysWrite hr fd n p)
  | close fd => exact keeps_answer (keeps_sysClose hr hme fd)
  | fstat fd st => exact keeps_answer (keeps_sysFstat hr fd st)
  | link old new => exact keeps_answer (keeps_sysLink hr old new)
  | unlink path => exact keeps_answer (keeps_sysUnlink hr path)
  | «open» path omode => exact keeps_answer ((keeps_sysOpen hr hme path omode).mono fun _ _ => And.left)
  | mkdir path => exact keeps_answer (keeps_makeNode hr path _ _ _)
  | mknod path major minor => exact keeps_answer (keeps_makeNode hr path _ _ _)
  | chdir path => exact keeps_answer (keeps_sysChdir hr hme path)
  | pipe fd => exact keeps_answer ((keeps_sysPipe hr hme fd).mono fun _ _ => And.left)
  | exec path argv => exact keeps_answer (keeps_sysExec hr hme path argv)
  | fork => exact keeps_answer (keeps_fork hall hr)
  | exit => exact returns_exit hall hr
  | wait => exact (keeps_wait hall hr).returns
  | chown path uid => cases hattr
  | chgrp path gid => cases hattr
  | chmod path mode => cases hattr

end

end Xv6Pdx.Fs
