/-
# `Fs.Share` — what the functions of `file.c` do with what a process has in hand

`filealloc` gives a file that is nothing yet, `filedup` one reference more, and
`fileclose` takes one; with the last one goes what the file was for, a reference to an
inode or an end of a pipe.  A descriptor is a reference that a process keeps in its
table between calls.
-/
import Xv6Pdx.Fs.Hold

namespace Xv6Pdx.Fs

open Lib Bytes
open Ptable (ProcPtr NPROC)
open Function (update update_self update_of_ne update_eq_self update_idem)
open Held (has_add add_count add_other)

/-! ## What others know of a file -/

section

variable {q : Held} {f : FilePtr} {x y : File}

theorem Known.of_count_zero (hk : Known q f y) (h0 : q.count (.file f) = 0) : Known q f x := by
  refine ⟨fun i hi => absurd h0 (hk.pin i hi).1.ne', fun hf => ?_⟩
  rw [(hk.fresh hf).1] at h0
  cases h0

theorem Known.of_same (hk : Known q f y) (hf : q.fresh f = false) (hx : x.key = y.key) :
    Known q f x := by
  refine ⟨?_, fun hb => absurd (hf.symm.trans hb) Bool.false_ne_true⟩
  rw [hx]
  exact hk.pin

end

section

variable {α : Type} {S : Scope} {me : ProcPtr} {h : Held} {f : FilePtr} {s : State}
  {g : ProcPtr → Option Held}

/-- A file that a process has is not a fresh file of another. -/
theorem Refs.not_fresh (hs : Refs s g) (hg : g me = some h) (hf : h.Has (.file f)) {q : ProcPtr}
    {hq : Held} (hne : q ≠ me) (hgq : g q = some hq) : hq.fresh f = false := by
  have hle : _ + _ ≤ (s.ftable f).ref := hs.add_le hg hgq hne (.file f)
  cases hb : hq.fresh f with
  | false => rfl
  | true =>
    have hone := ((hs.own q hq hgq).file f).fresh hb
    omega

theorem Refs.file_pos (hs : Refs s g) (hg : g me = some h) (hf : h.Has (.file f)) :
    ¬ (s.ftable f).ref < 1 := Nat.not_lt_of_le (Nat.lt_of_lt_of_le hf (hs.le hg (.file f)))

/-! ## `file.c` -/

namespace Held

def setFresh (h : Held) (f : FilePtr) (b : Bool) : Held := { h with fresh := update h.fresh f b }

/-- With nothing known of the file. -/
def lose (h : Held) (f : FilePtr) : Held :=
  { h with fresh := update h.fresh f false, pin := update h.pin f none }

theorem gain_count {x : File} (hx : 0 < x.ref) (k : Key) :
    (h.gain x.key).count k = x.count k + h.count k := by
  cases hk : x.key with
  | none => simp [gain, File.count, hk]
  | some l => simp [gain, add_count, File.count, hk, hx, Nat.add_comm, eq_comm]

theorem gain_eq (o : Option Key) : h.gain o = { h with count := (h.gain o).count } := by
  cases o <;> rfl

end Held

theorem keeps_filealloc : Keeps S me filealloc (fun r h' => r = none ∧ h' = h ∨
    ∃ f, r = some f ∧ h.count (.file f) = 0 ∧ h' = (h.add (.file f)).setFresh f true) h := by
  refine keeps_atomic fun s g hg hs => ?_
  split
  · exact ⟨fun _ _ => rfl, h, hs.same hg, .inl ⟨rfl, rfl⟩⟩
  · next f hfind =>
      have h0 : (s.ftable f).ref = 0 := by simpa using List.find?_some hfind
      have htype := hs.closed f h0
      have hown := hs.own me h hg
      have hzero : h.count (.file f) = 0 := Nat.eq_zero_of_le_zero ((hs.le hg _).trans_eq h0)
      have hput := hs.putFile (f := f) (x := { s.ftable f with ref := 1 }) (b := true) (o := h.pin f)
        (c := (h.add (.file f)).count) hg (by simp [h0, hzero, add_count]) (fun k hk => ?_)
        (fun h1 => by cases h1) (fun q hq _ hgq => ?_)
        (fun i hi => absurd hzero ((hown.file f).pin i hi).1.ne')
        (fun _ => ⟨by simp [add_count, hzero], rfl, htype⟩) ?_
      · rw [update_eq_self] at hput
        exact ⟨fun _ _ => rfl, _, hput, .inr ⟨f, rfl, hzero, rfl⟩⟩
      · simp [File.count_none htype, File.count_none (x := { s.ftable f with ref := 1 }) htype,
          add_count, hk]
      · exact ((hs.own q hq hgq).file f).of_count_zero
          (Nat.eq_zero_of_le_zero ((hs.le hgq _).trans_eq h0))
      · rw [update_eq_self]
        exact hown.locked

theorem Refs.dup (hs : Refs s g) (hg : g me = some h) (hf : h.Has (.file f)) :
    Refs (s.putFile f { s.ftable f with ref := (s.ftable f).ref + 1 })
      (update g me (some ((h.add (.file f)).setFresh f false))) := by
  have hown := hs.own me h hg
  have hput := hs.putFile (f := f) (x := { s.ftable f with ref := (s.ftable f).ref + 1 }) (b := false)
    (o := h.pin f) (c := (h.add (.file f)).count) hg ?_ (fun k hk => ?_) (fun h1 => by cases h1)
    (fun q hq hne hgq => ((hs.own q hq hgq).file f).of_same (hs.not_fresh hg hf hne hgq) rfl)
    (fun i hi => ⟨has_add, ((hown.file f).pin i hi).2⟩)
    (fun hb => absurd hb Bool.false_ne_true) ?_
  · rwa [update_eq_self] at hput
  · simp only [add_count, if_true]
    omega
  · rw [File.count_ref (Nat.succ_pos _) (hf.trans_le (hs.le hg _)), add_count, if_neg hk]
    rfl
  · rw [update_eq_self]
    exact hown.locked

theorem keeps_filedup (hf : h.Has (.file f)) :
    Moves S me (filedup f) h fun _ => (h.add (.file f)).setFresh f false := by
  refine keeps_atomic fun s g hg hs => ?_
  rw [if_neg (hs.file_pos hg hf)]
  exact ⟨fun _ _ => rfl, _, hs.dup hg hf, rfl⟩

theorem keeps_dropFile (hfirm : h.Firm) :
    Moves S me (dropFile f) (h.add (.file f)) fun r => (h.lose f).gain (r.bind File.key) := by
  refine keeps_atomic fun s g hg hs => ?_
  have hpos := hs.file_pos hg has_add
  dsimp only
  rw [if_neg hpos]
  split
  · next hmany =>
      refine ⟨fun _ _ => rfl, h.lose f, ?_, rfl⟩
      refine hs.putFile (c := h.count) (b := false) (o := none) hg ?_ (fun k hk => ?_)
        (fun h0 => ?_) (fun q hq hne hgq => ((hs.own q hq hgq).file f).of_same
          (hs.not_fresh hg has_add hne hgq) rfl)
        (fun i hi => by cases hi) (fun hb => absurd hb Bool.false_ne_true)
        fun i hi => .inl (hfirm.1 i hi)
      · simp only [add_count, if_true]
        omega
      · rw [File.count_ref (Nat.sub_pos_of_lt hmany) (by omega), add_count, if_neg hk]
        rfl
      · dsimp only at h0
        omega
  · next hone =>
      have href : (s.ftable f).ref = 1 := by omega
      have hgain := Held.gain_count (h := h.lose f) (href ▸ Nat.one_pos)
      refine ⟨fun _ _ => rfl, _, ?_, rfl⟩
      rw [Option.bind_some, Held.gain_eq]
      refine hs.putFile (b := false) (o := none) hg ?_ (fun k hk => ?_) (fun _ => rfl)
        (fun q hq hne hgq => ?_) (fun i hi => by cases hi)
        (fun hb => absurd hb Bool.false_ne_true) fun i hi => .inl ?_
      · rw [hgain, add_count, if_pos rfl, File.count_file]
        show 0 + (h.count _ + 1) = _ + (0 + h.count _)
        omega
      · have hx : File.count { s.ftable f with ref := 0, type := .none } k = 0 :=
          File.count_none rfl k
        rw [hgain, add_count, if_neg hk, hx, Nat.zero_add]
        rfl
      · have hadd : _ + _ ≤ (s.ftable f).ref := hs.add_le hg hgq hne (.file f)
        rw [add_count, if_pos rfl] at hadd
        exact ((hs.own q hq hgq).file f).of_count_zero (by omega)
      · rw [hgain] at hi ⊢
        rw [File.count_lock, Nat.zero_add] at hi
        exact Nat.add_pos_right _ (hfirm.1 i hi)

theorem keeps_pipeclose (a : Nat) (w : Bool) :
    Moves S me (pipeclose a w) (h.add (.pipe a w)) fun _ => h := by
  refine keeps_modify fun s g hg hs => ⟨fun _ _ => rfl, h, ?_, rfl⟩
  have hpage := hs.page a
  have hle : _ ≤ ((s.pipes a).isOpen w).toNat := hs.le hg (.pipe a w)
  rw [add_count, if_pos rfl] at hle
  have hopen : (s.pipes a).isOpen w = true := by
    cases ho : (s.pipes a).isOpen w with
    | true => rfl
    | false => simp [ho] at hle
  refine hs.putPipe (c := h.count) hg (fun v => ?_) (fun k hk => ?_) ?_
  · cases v <;> cases w <;> simp_all [Ends.isOpen, add_count] <;> split <;> simp_all
  · simp [add_count, hk]
  · rw [Ends.Counted] at hpage ⊢
    cases w <;> simp_all [Ends.isOpen] <;> split <;> simp_all

theorem keeps_fileclose (hfirm : h.Firm) :
    Moves S me (fileclose me f) (h.add (.file f)) fun _ => h.lose f := by
  refine (keeps_dropFile hfirm).then fun last => ?_
  cases last with
  | none => exact keeps_pure rfl
  | some ff =>
    dsimp only [Option.bind_some]
    cases ht : ff.type with
    | none =>
      rw [File.key, ht]
      exact keeps_pure rfl
    | pipe =>
      rw [File.key, ht]
      exact keeps_pipeclose _ _
    | inode =>
      rw [File.key, ht]
      refine keeps_beginOp.then fun _ => ?_
      show Keeps S me _ _ (((h.lose f).add _).add _)
      rw [Held.add_comm]
      exact (keeps_iput (h := (h.lose f).add .op) (hfirm.op.1 _)).then fun _ => keeps_endOp

theorem keeps_publish {k : File → File} {o : Option Key} (hfresh : h.fresh f = true)
    (hfirm : h.Firm) (hk : ∀ ff, (k ff).ref = ff.ref) (hkey : ∀ ff, (k ff).key = o) :
    Moves S me (setFile f k) (h.gain o) fun _ => h.setFresh f false := by
  refine keeps_modify fun s g hg hs => ?_
  rw [Held.gain_eq] at hg
  obtain ⟨hcount, href, htype⟩ := ((hs.own me _ hg).file f).fresh hfresh
  have hgain := Held.gain_count (h := h) (x := k (s.ftable f)) (by rw [hk, href]; exact Nat.one_pos)
  rw [hkey] at hgain
  have hput := hs.putFile (f := f) (x := k (s.ftable f)) (c := h.count) (b := false)
    (o := h.pin f) hg (by rw [hk, hgain, File.count_file, Nat.zero_add]) (fun l _ => ?_) (fun h0 => ?_)
    (fun q hq hne hgq => ?_) (fun i hi => ?_) (fun hb => absurd hb Bool.false_ne_true)
    fun i hi => .inl (hfirm.1 i hi)
  · rw [update_eq_self] at hput
    exact ⟨fun _ _ => rfl, _, hput, rfl⟩
  · rw [hgain, File.count_none htype, Nat.zero_add]
  · rw [hk, href] at h0
    cases h0
  · have hadd : _ + _ ≤ (s.ftable f).ref := hs.add_le hg hgq hne (.file f)
    exact ((hs.own q hq hgq).file f).of_count_zero (by omega)
  · have hnone := (((hs.own me _ hg).file f).pin i hi).2
    simp [File.key, htype] at hnone

/-! ## Files on inodes -/

/-- With the file known to be on the inode it is on. -/
def Held.learn (h : Held) (f : FilePtr) (ff : File) : Held :=
  if ff.type = .inode then { h with pin := update h.pin f (some ff.ip) } else h

theorem Held.learn_pin {ff : File} (ht : ff.type = .inode) : (h.learn f ff).pin f = some ff.ip := by
  simp [learn, ht]

theorem Held.Rest.learn (hr : h.Rest) (ff : File) : (h.learn f ff).Rest := by
  rw [Held.learn]
  split <;> exact hr

theorem keeps_getFile (hf : h.Has (.file f)) : Moves S me (getFile f) h fun ff => h.learn f ff := by
  refine keeps_atomic fun s g hg hs => ⟨fun _ _ => rfl, h.learn f (s.ftable f), ?_, rfl⟩
  rw [Held.learn]
  split
  · next ht =>
      have hown := hs.own me h hg
      have hkey := File.key_inode.mpr ⟨ht, rfl⟩
      have hput := hs.putFile (f := f) (x := s.ftable f) (c := h.count) (b := h.fresh f)
        (o := some (s.ftable f).ip) hg rfl (fun _ _ => rfl) (hs.closed f)
        (fun q hq _ hgq => (hs.own q hq hgq).file f) ?_
        (hown.file f).fresh fun i hi => ?_
      · rwa [State.putFile, update_eq_self, update_eq_self] at hput
      · rintro i ⟨⟩
        exact ⟨hf, hkey⟩
      · refine (hown.locked i hi).imp_right ?_
        rintro ⟨f', hpin⟩
        by_cases hff : f' = f
        · subst hff
          have hi' := (File.key_inode.mp ((hown.file f').pin i hpin).2).2
          exact ⟨f', by rw [update_self, hi']⟩
        · exact ⟨f', by rw [update_of_ne hff, hpin]⟩
  · exact hs.same hg

theorem keeps_getFile_pinned {i : InodePtr} (hf : h.pin f = some i) :
    Keeps S me (getFile f) (fun ff h' => ff.ip = i ∧ h' = h) h :=
  keeps_gets fun _ _ hg hs =>
    ⟨(File.key_inode.mp (((hs.own me h hg).file f).pin i hf).2).2, rfl⟩

theorem keeps_setOff (n : File → Nat) :
    Moves S me (setFile f fun ff => { ff with off := n ff }) h fun _ => h := by
  refine keeps_modify fun s g hg hs => ⟨fun _ _ => rfl, h, ?_, rfl⟩
  have hown := hs.own me h hg
  have hput := hs.putFile (f := f) (x := { s.ftable f with off := n (s.ftable f) }) (c := h.count)
    (b := h.fresh f) (o := h.pin f) hg rfl (fun _ _ => rfl) (hs.closed f) (fun q hq _ hgq => ?_)
    (hown.file f).pin (hown.file f).fresh ?_
  · simpa only [update_eq_self] using hput
  · exact ⟨((hs.own q hq hgq).file f).pin, ((hs.own q hq hgq).file f).fresh⟩
  · rw [update_eq_self]
    exact hown.locked

variable {i : InodePtr}

theorem keeps_filestat (hf : h.Has (.file f)) (hr : h.Rest) : Rests S me (filestat f) h := by
  refine (keeps_getFile hf).then fun ff => ?_
  split
  · next ht =>
      exact (keeps_ilock (.inr ⟨f, Held.learn_pin ht⟩)).then fun _ => (silent_gets _).then fun _ =>
        keeps_iunlock.then fun _ => keeps_pure (hr.learn ff)
  · exact keeps_pure (hr.learn ff)

theorem silent_pipeAnswer : Silent pipeAnswer := .bind silent_draw fun _ => silent_pure _

theorem keeps_fileread (hf : h.Has (.file f)) (hr : h.Rest) (n : Int) :
    Rests S me (fileread me f n) h := by
  refine (keeps_getFile hf).then fun ff => ?_
  split
  · exact keeps_pure (hr.learn ff)
  · cases ht : ff.type with
    | none => exact keeps_panic (by decide)
    | pipe => exact (keeps_silent silent_pipeAnswer).mono fun _ _ he => he ▸ hr.learn ff
    | inode =>
      have hpin := Held.learn_pin (h := h) (f := f) ht
      refine (keeps_ilock (.inr ⟨f, hpin⟩)).then fun _ => Keeps.seq (keeps_getFile_pinned hpin) ?_
      rintro ff' _ ⟨hip, rfl⟩
      rw [hip]
      exact (keeps_readi has_add (.inr ⟨f, hpin⟩) _ _).then fun r => (keeps_setOff _).then
        fun _ => keeps_iunlock.then fun _ => keeps_pure (hr.learn ff)

theorem keeps_writeChunks (hpin : h.pin f = some i) (addr : Bytes) (fuel : Nat) :
    ∀ k n, Moves S me (writeChunks me f i addr fuel k n) h fun _ => h := by
  induction fuel with
  | zero => exact fun _ _ => keeps_pure rfl
  | succ fuel ih =>
    intro k n
    rw [writeChunks]
    split
    · refine keeps_beginOp.then fun _ => (keeps_ilock (h := h.add .op) (.inr ⟨f, hpin⟩)).then fun _ =>
        (silent_gets _).then fun ff => Keeps.then (keeps_writei has_add (.inr ⟨f, by exact hpin⟩) _ _)
          fun r => (keeps_setOff _).then fun _ => keeps_iunlock.then fun _ =>
            keeps_endOp.then fun _ => ?_
      cases r with
      | none => exact keeps_pure rfl
      | some r =>
        dsimp only
        split
        · exact ih _ _
        · exact keeps_panic (by decide)
    · exact keeps_pure rfl

theorem keeps_filewrite (hf : h.Has (.file f)) (hr : h.Rest) (addr : Bytes) (n : Int) :
    Rests S me (filewrite me f addr n) h := by
  refine (keeps_getFile hf).then fun ff => ?_
  split
  · exact keeps_pure (hr.learn ff)
  · cases ht : ff.type with
    | none => exact keeps_panic (by decide)
    | pipe => exact (keeps_silent silent_pipeAnswer).mono fun _ _ he => he ▸ hr.learn ff
    | inode =>
      dsimp only
      split
      · exact keeps_pure (hr.learn ff)
      · exact (keeps_writeChunks (Held.learn_pin ht) _ _ _ _).then fun _ => keeps_pure (hr.learn ff)

/-! ## Descriptors -/

theorem kept_cwd (t : Fin NOFILE → Option FilePtr) (i : InodePtr) (k : Key) :
    kept t (some i) k = kept t none k + if k = .inode i then 1 else 0 := by
  cases k <;> simp [kept, eq_comm]

theorem kept_fd {t : Fin NOFILE → Option FilePtr} {fd : Fin NOFILE} (hfd : t fd = none)
    (c : Option InodePtr) (f : FilePtr) (k : Key) :
    kept (update t fd (some f)) c k = kept t c k + if k = .file f then 1 else 0 := by
  cases k with
  | file f' =>
    have hsum := sum_change (fun fd => if t fd = some f' then 1 else 0)
      (fun fd' => if update t fd (some f) fd' = some f' then 1 else 0) fd
      fun fd' hne => by simp only [update_of_ne hne]
    simpa [kept, hfd, eq_comm] using hsum
  | _ => simp [kept]

namespace Held

theorem exists_of_count {c : Key → Nat} {k : Key}
    (hc : ∀ l, h.count l = c l + if l = k then 1 else 0) : ∃ h₀ : Held, h = h₀.add k ∧ h₀.count = c := by
  refine ⟨{ h with count := c }, ?_, rfl⟩
  have hcount : h.count = (Held.add { h with count := c } k).count :=
    funext fun l => (hc l).trans (add_count (h := { h with count := c })).symm
  rw [add, ← show _ = update _ _ _ from hcount]

theorem firm_of_kept {t : Fin NOFILE → Option FilePtr} (hk : h.count = kept t h.cwd) : h.Firm :=
  ⟨fun i hi => by simp [hk, kept] at hi, fun c hc => by simp [hk, kept, hc]⟩

namespace Rest

theorem firm (hr : h.Rest) : h.Firm := firm_of_kept hr

/-- A descriptor more, for a file with one reference more. -/
theorem open_fd (hr : h.Rest) {fd : Fin NOFILE} (hfd : h.table fd = none) :
    (({ h with table := update h.table fd (some f) } : Held).add (.file f)).Rest := by
  funext k
  show (h.add _).count k = kept (update h.table fd (some f)) h.cwd k
  rw [kept_fd hfd, ← hr, add_count]

/-- A descriptor less, for a file with one reference less. -/
theorem close_fd (hr : h.Rest) {fd : Fin NOFILE} (hfd : h.table fd = some f) :
    ∃ h₀ : Held, h = h₀.add (.file f) ∧ h₀.count = kept (update h.table fd none) h.cwd := by
  refine exists_of_count fun l => ?_
  rw [hr, ← kept_fd (update_self ..), update_idem, ← hfd, update_eq_self]

theorem has_file (hr : h.Rest) {fd : Fin NOFILE} (hfd : h.table fd = some f) : h.Has (.file f) := by
  obtain ⟨h₀, rfl, -⟩ := hr.close_fd hfd
  exact has_add

theorem leave_cwd (hr : h.Rest) {c : InodePtr} (hc : h.cwd = some c) :
    ∃ h₀ : Held, h = h₀.add (.inode c) ∧ h₀.count = kept h.table none := by
  refine exists_of_count fun l => ?_
  rw [hr, hc, kept_cwd]

end Rest

end Held

theorem keeps_getProc : Keeps S me (getProc me)
    (fun p h' => p.ofile = h.table ∧ p.cwd = h.cwd ∧ h' = h) h :=
  keeps_gets fun _ _ hg hs => ⟨(hs.own me h hg).table, (hs.own me h hg).cwd, rfl⟩

theorem keeps_getCwd : Keeps S me (getCwd me) (fun c h' => h.cwd = some c ∧ h' = h) h := by
  refine Keeps.seq (P := fun p h' => p.cwd = h.cwd ∧ h.cwd ≠ none ∧ h' = h) (keeps_gets
    fun _ _ hg hs => ⟨(hs.own me h hg).cwd, (hs.own me h hg).home, rfl⟩) ?_
  rintro p h ⟨hcwd, hhome, rfl⟩
  cases hc : p.cwd with
  | none => exact absurd (hcwd.symm.trans hc) hhome
  | some c => exact keeps_pure ⟨hcwd.symm.trans hc, rfl⟩

theorem keeps_argfd (fd : Int) : Keeps S me (argfd me fd)
    (fun r h' => (∀ fd f, r = some (fd, f) → h.table fd = some f) ∧ h' = h) h := by
  refine Keeps.seq keeps_getProc ?_
  rintro p h ⟨htable, -, rfl⟩
  split
  · refine keeps_pure ⟨fun fd' f he => ?_, rfl⟩
    obtain ⟨f', hf', he⟩ := Option.map_eq_some_iff.mp he
    cases he
    rw [← htable, hf']
  · refine keeps_pure ⟨?_, rfl⟩
    rintro _ _ ⟨⟩

section Own

variable (hme : S.free me)
include hme

theorem keeps_setMe (k : Proc → Proc) (hk : ∀ p, (k p).state = p.state) {t : Fin NOFILE → Option FilePtr}
    {c : Option InodePtr} (ht : ∀ p, p.ofile = h.table → (k p).ofile = t)
    (hc : ∀ p, p.cwd = h.cwd → (k p).cwd = c) (hhome : h.cwd ≠ none → c ≠ none) :
    Moves S me (setProc me k) h fun _ => { h with table := t, cwd := c } := by
  refine keeps_modify fun s g hg hs => ⟨fun q hq => ?_, _, ?_, rfl⟩
  · refine update_of_ne ?_ ..
    rintro rfl
    exact hq hme
  · have hown := hs.own me h hg
    have hput := hs.putMe hg (x := k (s.proc me)) ((hk _).trans hown.live)
      (by rw [hc _ hown.cwd]; exact hhome hown.home)
    rwa [ht _ hown.table, hc _ hown.cwd] at hput

theorem keeps_setFd (fd : Fin NOFILE) (o : Option FilePtr) :
    Moves S me (setFd me fd o) h fun _ => { h with table := update h.table fd o } :=
  keeps_setMe hme (fun q => { q with ofile := update q.ofile fd o }) (fun _ => rfl)
    (fun _ ht => by rw [← ht]) (fun _ hc => hc) id

theorem keeps_fdalloc (f : FilePtr) : Keeps S me (fdalloc me f) (fun r h' => r = none ∧ h' = h ∨
    ∃ fd, r = some fd ∧ h.table fd = none ∧
      h' = { h with table := update h.table fd (some f) }) h := by
  refine Keeps.seq keeps_getProc ?_
  rintro p h ⟨htable, -, rfl⟩
  split
  · exact keeps_pure (.inl ⟨rfl, rfl⟩)
  · next fd hfd =>
      have hnone : p.ofile fd = none := by simpa using List.find?_some hfd
      rw [htable] at hnone
      exact (keeps_setFd hme fd _).then fun _ => keeps_pure (.inr ⟨fd, rfl, hnone, rfl⟩)

end Own

end

end Xv6Pdx.Fs
