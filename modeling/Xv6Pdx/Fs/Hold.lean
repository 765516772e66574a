/-
# `Fs.Hold` — what the functions of `fs.c` do with what a process has in hand

`iget` gives a reference and `iput` takes one, `ilock` a lock and `iunlock` gives it up;
whatever happens on the way, `namex` ends with a reference to what it has found, and
`create` with a reference to a locked inode; `begin_op` opens an operation that `end_op`
closes.  `Keeps` is the form of these statements: they hold between any actions of other
processes.
-/
import Xv6Pdx.Fs.Protocol

namespace Xv6Pdx.Fs

open Lib Bytes
open Ptable (ProcPtr NPROC)
open Function (update update_self update_of_ne update_eq_self update_comm)

/-! ## Actions that count for nothing -/

/-- The panics of a reference, a lock or an operation that a process does not have; the last
one stands for a `cwd` that is null. -/
def slips : List String := ["ilock", "iunlock", "iput busy", "filedup", "fileclose",
  "log.committing", "no current directory"]

def Fine (msg : String) : Prop := msg ∉ slips

instance Fine.decidable : DecidablePred Fine := fun msg => inferInstanceAs (Decidable (msg ∉ slips))

/-- The program does nothing that is counted. -/
def Silent {α : Type} (p : FsM α) : Prop := p.acts (fun s t => t.tags = s.tags) Fine

section

variable {α β : Type} {me : ProcPtr} {ip : InodePtr}

theorem Silent.bind {p : FsM β} {g : β → FsM α} (hp : Silent p) (hg : ∀ b, Silent (g b)) :
    Silent (p >>= g) := Prog.acts_bind hp hg

theorem silent_pure (a : α) : Silent (pure a : FsM α) := trivial

theorem silent_gets (f : State → α) : Silent (Prog.gets f) :=
  ⟨fun _ => rfl, fun _ => trivial⟩

theorem silent_panic {msg : String} (hm : Fine msg) : Silent (panic msg : FsM α) :=
  ⟨fun _ => hm, fun _ => trivial⟩

theorem silent_modify {f : State → State} (h : ∀ s, (f s).tags = s.tags) : Silent (Prog.modify f) :=
  ⟨h, fun _ => trivial⟩

theorem Silent.when {c : Prop} [Decidable c] {p : FsM Unit} (h : Silent p) :
    Silent (Fs.when c p) := by
  rw [Fs.when]
  split
  · exact h
  · exact silent_pure ()

theorem silent_setInode {f : Inode → Inode} (h : ∀ i, (f i).tag = i.tag) : Silent (setInode ip f) :=
  silent_modify fun _ => State.putInode_tags (h _)

theorem silent_withBlock {b : Nat} {f : Block → Except String (α × Block)}
    (hf : ∀ d e, f d = .error e → Fine e) : Silent (withBlock b f) := by
  refine ⟨fun s => ?_, fun _ => trivial⟩
  dsimp only
  cases he : f (s.disk b) with
  | error e => exact hf _ e he
  | ok r => rfl

theorem silent_putBlock {b : Nat} {f : Block → α × Block} : Silent (withBlock b fun d => .ok (f d)) :=
  silent_withBlock fun _ _ he => by cases he

theorem silent_logWrite (b : Nat) : Silent (logWrite me b) := by
  refine .bind ⟨fun s => ?_, fun _ => trivial⟩ fun _ =>
    silent_modify fun s => rfl
  simp only [Log.check]
  split_ifs
  · exact (by decide : Fine "too big a transaction")
  · exact (by decide : Fine "log_write outside of trans")
  · rfl

theorem silent_ballocFrom (sb : Superblock) (ks : List Nat) : Silent (ballocFrom me sb ks) := by
  induction ks with
  | nil => exact silent_panic (by decide)
  | cons k ks ih =>
    refine .bind silent_putBlock fun found => ?_
    cases found with
    | none => exact ih
    | some b => exact .bind (silent_logWrite _) fun _ => .bind (.bind silent_putBlock
        fun _ => silent_logWrite _) fun _ => silent_pure b

theorem silent_balloc : Silent (balloc me) := .bind (silent_gets _) fun _ => silent_ballocFrom _ _

theorem silent_bfree (b : Nat) : Silent (bfree me b) := by
  refine .bind (silent_modify fun _ => rfl) fun _ => .bind (silent_gets _)
    fun _ => .bind (silent_withBlock fun d e he => ?_) fun _ => silent_logWrite _
  split at he <;> cases he
  decide

theorem silent_iupdate : Silent (iupdate me ip) :=
  .bind (silent_gets _) fun _ => .bind (silent_gets _) fun _ => .bind silent_putBlock
    fun _ => silent_logWrite _

theorem silent_updateInode (f : DInode → DInode) : Silent (updateInode me ip f) :=
  .bind (silent_setInode fun _ => rfl) fun _ => silent_iupdate

theorem silent_addrOf (k : Fin (NDIRECT + 1)) : Silent (addrOf me ip k) := by
  refine .bind (silent_gets _) fun i => ?_
  split
  · exact .bind silent_balloc fun _ => .bind (silent_setInode fun _ => rfl) fun _ => silent_pure _
  · exact silent_pure _

theorem silent_bmap (bn : Nat) : Silent (bmap me ip bn) := by
  rw [bmap]
  split
  · exact silent_addrOf _
  · split
    · refine .bind (silent_addrOf _) fun ind => .bind (silent_gets _) fun a => ?_
      split
      · exact .bind silent_balloc fun _ => .bind silent_putBlock fun _ =>
          .bind (silent_logWrite _) fun _ => silent_pure _
      · exact silent_pure _
    · exact silent_panic (by decide)

theorem silent_readLoop (fuel : Nat) : ∀ off n, Silent (readLoop me ip fuel off n) := by
  induction fuel with
  | zero => exact fun _ _ => silent_pure _
  | succ fuel ih =>
    intro off n
    rw [readLoop]
    split
    · exact silent_pure _
    · exact .bind (silent_bmap _) fun _ => .bind (silent_gets _) fun _ =>
        .bind (ih _ _) fun _ => silent_pure _

theorem silent_writeLoop (fuel : Nat) : ∀ off src, Silent (writeLoop me ip fuel off src) := by
  induction fuel with
  | zero => exact fun _ _ => silent_pure _
  | succ fuel ih =>
    intro off src
    rw [writeLoop]
    split
    · exact silent_pure _
    · exact .bind (silent_bmap _) fun _ => .bind silent_putBlock fun _ =>
        .bind (silent_logWrite _) fun _ => ih _ _

theorem silent_itrunc : Silent (itrunc me ip) := by
  refine .bind (Prog.acts_forM fun k => ?_) fun _ => .bind ?_ fun _ =>
    .bind (silent_setInode fun _ => rfl) fun _ => silent_iupdate
  · exact Silent.bind (silent_gets _) fun _ => .when (.bind (silent_bfree _)
      fun _ => silent_setInode fun _ => rfl)
  · exact .bind (silent_gets _) fun _ => .when (.bind (silent_gets _) fun _ =>
      .bind (Prog.acts_forM fun _ => Silent.when (silent_bfree _)) fun _ =>
        .bind (silent_bfree _) fun _ => silent_setInode fun _ => rfl)

theorem silent_loadInode : Silent (loadInode ip) := by
  refine .bind (silent_gets _) fun i => ?_
  split
  · exact silent_pure ()
  · exact .bind (silent_gets _) fun _ => .bind ⟨fun _ => State.putInode_tags rfl, fun _ => trivial⟩
      fun _ => .when (silent_panic (by decide))

theorem silent_draw : Silent draw := ⟨fun _ => rfl, fun _ => trivial⟩

theorem silent_drawBytes (n : Nat) : Silent (drawBytes n) := by
  induction n with
  | zero => exact silent_pure []
  | succ n ih => exact .bind silent_draw fun _ => .bind ih fun _ => silent_pure _

end

/-! ## What a program does with what is in hand -/

namespace Held

def add (h : Held) (k : Key) : Held := { h with count := update h.count k (h.count k + 1) }

def gain (h : Held) : Option Key → Held
  | none => h
  | some k => h.add k

/-- With a reference to an inode and its lock. -/
def got (h : Held) : Option InodePtr → Held
  | none => h
  | some i => (h.add (.inode i)).add (.lock i)

variable {h : Held} {k l : Key} {i : InodePtr}

theorem add_count : (h.add k).count l = h.count l + if l = k then 1 else 0 := by
  by_cases hl : l = k
  · subst hl
    simp [add]
  · simp [add, hl]

theorem add_other (hl : l ≠ k) : (h.add k).count l = h.count l := by simp [add_count, hl]

theorem has_add : (h.add k).Has k := by simp [add]

theorem Has.add (hk : h.Has k) : (h.add l).Has k := by
  rw [Has, add_count]
  exact Nat.add_pos_left hk _

theorem exists_add (hk : h.Has k) : ∃ h₀ : Held, h = h₀.add k :=
  ⟨{ h with count := update h.count k (h.count k - 1) }, by simp [Held.add, Nat.sub_add_cancel hk]⟩

theorem add_comm : (h.add k).add l = (h.add l).add k := by
  by_cases hkl : k = l
  · rw [hkl]
  · simp [add, hkl, Ne.symm hkl, update_comm hkl]

theorem gain_got (o : Option Key) : (h.got (some i)).gain o = (h.gain o).got (some i) := by
  cases o with
  | none => rfl
  | some k =>
    show ((h.add _).add _).add k = ((h.add k).add _).add _
    rw [add_comm, add_comm (k := .inode i)]

theorem got_got (j : InodePtr) : (h.got (some i)).got (some j) = (h.got (some j)).got (some i) := by
  show ((h.got (some i)).gain (some (.inode j))).gain (some (.lock j)) = _
  rw [gain_got, gain_got]
  rfl

/-- What is locked is referenced, and so is the current directory. -/
def Firm (h : Held) : Prop := (∀ i, h.Has (.lock i) → h.Has (.inode i)) ∧
  ∀ c, h.cwd = some c → h.Has (.inode c)

theorem Reaches.of_add (hi : (h.add (.lock i)).Reaches i) : h.Reaches i := by
  refine hi.imp_left fun hhas => ?_
  simpa [add_count] using hhas

theorem Firm.add (hf : h.Firm) (hk : ∀ i, k ≠ .lock i) : (h.add k).Firm := by
  refine ⟨fun i hi => ?_, fun c hc => (hf.2 c hc).add⟩
  rw [Has, add_count, if_neg (hk i).symm] at hi
  exact (hf.1 i hi).add

theorem Firm.op (hf : h.Firm) : (h.add .op).Firm := hf.add (by simp)

theorem Firm.got (hf : h.Firm) : (h.got (some i)).Firm := by
  refine ⟨fun j hj => ?_, fun c hc => .add (.add (hf.2 c hc))⟩
  by_cases hji : j = i
  · rw [hji]
    exact Has.add has_add
  · refine Has.add (Has.add (hf.1 j ?_))
    simpa [Held.got, add_count, hji] using hj

end Held

open Held (has_add add_count add_other)

/-- The processes that a program may change are `free`, the others stay as they are. -/
structure Scope where
  free : ProcPtr → Prop
  fixed : ProcPtr → Proc

/-- The counts add up, where a process without a ghost has nothing in hand. -/
def counts (S : Scope) : Protocol State String ProcPtr (Option Held) where
  inv s g := Refs s (fun p => (g p).join) ∧ ∀ p, ¬ S.free p → s.proc p = S.fixed p
  ok _ := True
  error := Fine

section

variable {α β : Type} {S : Scope} {me : ProcPtr} {Q R : α → Held → Prop} {h : Held}

/-- With `h` in hand, the program ends with something in hand such that `Q`. -/
def Keeps (S : Scope) (me : ProcPtr) (p : FsM α) (Q : α → Held → Prop) (h : Held) : Prop :=
  p.Safe (counts S) me (fun a o => ∃ h', o = some h' ∧ Q a h') (some h)

/-- With `h` in hand, the program ends with what its answer says. -/
abbrev Moves (S : Scope) (me : ProcPtr) (p : FsM α) (h : Held) (k : α → Held) : Prop :=
  Keeps S me p (fun a h' => h' = k a) h

/-- The program ends with nothing in hand but what is in the table and in `cwd`. -/
abbrev Rests (S : Scope) (me : ProcPtr) (p : FsM α) : Held → Prop := Keeps S me p fun _ => Held.Rest

theorem join_update (g : ProcPtr → Option (Option Held)) (o : Option (Option Held)) :
    (fun p => (update g me o p).join) = update (fun p => (g p).join) me o.join :=
  Function.comp_update Option.join g me o

theorem keeps_pure {a : α} (hq : Q a h) : Keeps S me (pure a) Q h := ⟨h, rfl, hq⟩

theorem Keeps.mono {p : FsM α} (hp : Keeps S me p R h) (hle : ∀ a h', R a h' → Q a h') :
    Keeps S me p Q h := by
  refine Prog.safe_mono hp ?_
  rintro a _ ⟨h', rfl, hr⟩
  exact ⟨h', rfl, hle a h' hr⟩

theorem Keeps.seq {p : FsM β} {g : β → FsM α} {P : β → Held → Prop} (hp : Keeps S me p P h)
    (hg : ∀ b h', P b h' → Keeps S me (g b) Q h') : Keeps S me (p >>= g) Q h := by
  refine Prog.safe_seq hp ?_
  rintro b _ ⟨h', rfl, hb⟩
  exact hg b h' hb

theorem Keeps.then {p : FsM β} {g : β → FsM α} {k : β → Held} (hp : Moves S me p h k)
    (hg : ∀ b, Keeps S me (g b) Q (k b)) : Keeps S me (p >>= g) Q h := by
  refine hp.seq ?_
  rintro b _ rfl
  exact hg b

/-- What an action may come to: it waits, panics, or leaves something in hand. -/
def Yields (S : Scope) (me : ProcPtr) (Q : α → Held → Prop) (s : State) (g : ProcPtr → Option Held) :
    Option (Except String (α × State)) → Prop
  | none => True
  | some (.error e) => Fine e
  | some (.ok (a, t)) => (∀ q, ¬ S.free q → t.proc q = s.proc q) ∧
      ∃ h', Refs t (update g me (some h')) ∧ Q a h'

theorem keeps_atomic {f : State → Option (Except String (α × State))}
    (hf : ∀ s g, g me = some h → Refs s g → Yields S me Q s g (f s)) :
    Keeps S me (Prog.atomic f) Q h := by
  refine Prog.safe_atomic fun s g hg hinv => ?_
  have hy := hf s (fun p => (g p).join) (by simp [hg]) hinv.1
  refine ⟨fun e he => ?_, fun a t he _ => ?_⟩ <;> rw [he] at hy
  · exact hy
  · obtain ⟨hproc, h', hrefs, hq⟩ := hy
    refine ⟨some h', ⟨?_, fun q hq => (hproc q hq).trans (hinv.2 q hq)⟩, h', rfl, hq⟩
    rwa [join_update]

theorem keeps_silent {p : FsM α} (hp : Silent p) : Moves S me p h fun _ => h := by
  induction p with
  | pure a => exact keeps_pure rfl
  | act f k ih =>
    intro s g hg hinv
    refine ⟨fun e he => ?_, fun b t he _ => ⟨some h, ⟨?_, fun q hq => ?_⟩, ih b (hp.2 b)⟩⟩
    all_goals
      have hs := hp.1 s
      rw [he] at hs
    · exact hs
    · rw [← hg, update_eq_self]
      exact hinv.1.congr hs
    · rw [show t.proc = _ from congrArg (·.2.1) hs]
      exact hinv.2 q hq

theorem keeps_gets {f : State → α} (hf : ∀ s g, g me = some h → Refs s g → Q (f s) h) :
    Keeps S me (Prog.gets f) Q h :=
  keeps_atomic fun s g hg hs => ⟨fun _ _ => rfl, h, hs.same hg, hf s g hg hs⟩

/-- The program counts for nothing, and the next one goes on. -/
theorem Silent.then {p : FsM β} {g : β → FsM α} (hp : Silent p) (hg : ∀ b, Keeps S me (g b) Q h) :
    Keeps S me (p >>= g) Q h := (keeps_silent hp).then hg

theorem keeps_panic {msg : String} (hm : Fine msg) : Keeps S me (panic msg : FsM α) Q h :=
  Prog.safe_fail hm

theorem keeps_check {c : State → Prop} [DecidablePred c] {msg : String}
    (hc : ∀ s g, g me = some h → Refs s g → ¬ c s) :
    Moves S me (Prog.atomic fun s => if c s then some (.error msg) else some (.ok ((), s))) h fun _ => h := by
  refine keeps_atomic fun s g hg hs => ?_
  rw [if_neg (hc s g hg hs)]
  exact ⟨fun _ _ => rfl, h, hs.same hg, rfl⟩

theorem Keeps.when {c : Prop} [Decidable c] {p : FsM Unit} {Q : Held → Prop}
    (hp : c → Keeps S me p (fun _ => Q) h) (hn : ¬ c → Q h) :
    Keeps S me (Fs.when c p) (fun _ => Q) h := by
  rw [Fs.when]
  split
  · next hc => exact hp hc
  · next hc => exact keeps_pure (hn hc)

theorem keeps_modify {f : State → State} {Q : Unit → Held → Prop}
    (hf : ∀ s g, g me = some h → Refs s g → (∀ q, ¬ S.free q → (f s).proc q = s.proc q) ∧
      ∃ h', Refs (f s) (update g me (some h')) ∧ Q () h') :
    Keeps S me (Prog.modify f) Q h := keeps_atomic hf

/-! ## Operations of the log -/

theorem keeps_beginOp : Moves S me (beginOp me) h fun _ => h.add .op := by
  refine keeps_atomic fun s g hg hs => ?_
  simp only [Log.beginOp]
  split_ifs with hc
  · trivial
  · trivial
  · refine ⟨fun _ _ => rfl, _, hs.putLog (c := (h.add .op).count) hg ?_ ?_
      (fun _ hk _ => add_other hk) fun hc' => absurd hc' hc, rfl⟩
    · simp only [add_count, if_true]
      omega
    · simp [add_count]

theorem Refs.not_committing {s : State} {g : ProcPtr → Option Held} (hs : Refs s g)
    (hg : g me = some h) (ho : h.Has .op) : s.log.committing = false := by
  have hle : _ ≤ s.log.outstanding := hs.le hg .op
  by_contra hc
  have hzero := hs.log (by simpa using hc)
  omega

theorem keeps_endOp : Moves S me (endOp me) (h.add .op) fun _ => h := by
  refine Keeps.then (k := fun last => if last then h.add .commit else h)
    (keeps_atomic fun s g hg hs => ?_) fun last => ?_
  · have hidle := hs.not_committing hg has_add
    have hpos : _ ≤ s.log.outstanding := hs.le hg .op
    rw [add_count, if_pos rfl] at hpos
    simp only [Log.endOp, hidle, Bool.false_eq_true, if_false]
    split_ifs with hlast
    · refine ⟨fun _ _ => rfl, _, hs.putLog (c := (h.add .commit).count) hg ?_ ?_ (fun k hk hk' => ?_)
        fun _ => hlast, rfl⟩
      · simp [add_count]
        omega
      · simp [add_count, hidle, Nat.add_comm]
      · simp [add_count, hk, hk']
    · refine ⟨fun _ _ => rfl, h, hs.putLog (c := h.count) hg ?_ ?_
        (fun _ hk _ => (add_other hk).symm) fun hc => (by cases hc), rfl⟩
      · simp [add_count]
        omega
      · simp [add_count, hidle]
  · cases last with
    | false => exact Keeps.when (fun hc => absurd hc Bool.false_ne_true) fun _ => rfl
    | true =>
      refine Keeps.when (fun _ => Silent.then (silent_modify fun _ => rfl)
        fun _ => keeps_modify fun s g hg hs => ⟨fun _ _ => rfl, h, ?_, rfl⟩) fun hn => absurd rfl hn
      have hle : _ ≤ s.log.committing.toNat := hs.le hg .commit
      rw [if_pos rfl, add_count, if_pos rfl] at hle
      refine hs.putLog (c := h.count) (o := s.op) hg ?_ ?_ (fun _ _ hk => (add_other hk).symm)
        fun hc => (by cases hc)
      · simp [add_count]
      · have hone := s.log.committing.toNat_le
        simp [add_count]
        omega

/-! ## Inodes -/

variable {ip dp : InodePtr}

section

variable {s : State} {g : ProcPtr → Option Held}

theorem Refs.unique_of (hs : Refs s g) (hpos : 0 < (s.icache ip).ref) (j : InodePtr) (hj : j ≠ ip)
    (hjpos : 0 < (s.icache j).ref) (hdev : (s.icache ip).dev = (s.icache j).dev) :
    (s.icache ip).inum ≠ (s.icache j).inum :=
  fun hinum => hj (hs.unique ip j hpos hjpos hdev hinum).symm

theorem Refs.take (hs : Refs s g) (hg : g me = some h)
    {x : Inode} (href : x.ref = (s.icache ip).ref + 1) (hbusy : x.busy = (s.icache ip).busy)
    (huniq : ∀ j, j ≠ ip → 0 < (s.icache j).ref → x.dev = (s.icache j).dev →
      x.inum ≠ (s.icache j).inum) :
    Refs (s.putInode ip x) (update g me (some (h.add (.inode ip)))) := by
  refine hs.putInode (c := (h.add (.inode ip)).count) hg ?_ ?_ (fun _ hk _ => add_other hk)
    (fun j hj _ => huniq j hj) fun _ => .inl has_add
  · simp only [href, add_count, if_true]
    omega
  · simp [hbusy, add_count]

theorem Refs.lock (hs : Refs s g) (hg : g me = some h) (hb : ¬ (s.icache ip).busy = true)
    (hi : h.Reaches ip) : Refs (s.putInode ip { s.icache ip with busy := true })
      (update g me (some (h.add (.lock ip)))) := by
  refine hs.putInode (c := (h.add (.lock ip)).count) hg ?_ ?_ (fun _ _ hk => add_other hk)
    (fun j hj hx => hs.unique_of hx j hj) fun _ => hi.imp_left Held.Has.add
  · simp [add_count]
  · simp [hb, add_count, Nat.add_comm]

theorem Refs.locked (hs : Refs s g) (hg : g me = some (h.add (.lock ip))) :
    (s.icache ip).busy = true ∧ h.count (.lock ip) = 0 := by
  have hle : _ ≤ (s.icache ip).busy.toNat := hs.le hg (.lock ip)
  rw [add_count, if_pos rfl] at hle
  cases hb : (s.icache ip).busy with
  | false => simp [hb] at hle
  | true =>
    rw [hb, Bool.toNat_true] at hle
    exact ⟨rfl, by omega⟩

/-- An inode that is busy has another reference than the one to be dropped. -/
theorem Refs.two_refs (hs : Refs s g) (hg : g me = some (h.add (.inode ip)))
    (hl : h.Has (.lock ip) → h.Has (.inode ip)) (hb : (s.icache ip).busy = true) :
    (s.icache ip).ref ≠ 1 := by
  have hadd : (h.add (.inode ip)).count (.inode ip) = h.count (.inode ip) + 1 := by
    simp [add_count]
  obtain ⟨q, hq, hgq, hlock⟩ := hs.locker hb
  refine Nat.ne_of_gt ?_
  by_cases hne : q = me
  · subst hne
    obtain rfl := Option.some.inj (hg.symm.trans hgq)
    have hhas : h.Has (.inode ip) := hl (by simpa [add_count] using hlock)
    have hle : _ ≤ (s.icache ip).ref := hs.le hg (.inode ip)
    omega
  · rcases (hs.own q hq hgq).locked ip hlock with hhas | ⟨f, hpin⟩
    · have hle : _ + _ ≤ (s.icache ip).ref := hs.add_le hg hgq hne (.inode ip)
      omega
    · have hpos := hs.pinned hgq hpin
      have hle : _ + _ ≤ (s.icache ip).ref := hs.files_le hg (.inode ip)
      omega

end

theorem keeps_iget (dev inum : Nat) : Moves S me (iget dev inum) h fun i => h.add (.inode i) := by
  refine keeps_atomic fun s g hg hs => ?_
  split
  · next i hc =>
      have hi := List.find?_some hc
      simp only [decide_eq_true_eq] at hi
      exact ⟨fun _ _ => rfl, _, hs.take hg rfl rfl (hs.unique_of hi.1), rfl⟩
  · next hc =>
      split
      · exact (by decide : Fine "iget: no inodes")
      next i hslot =>
        have h0 : (s.icache i).ref = 0 := by simpa using List.find?_some hslot
        refine ⟨fun _ _ => rfl, _, hs.take hg (by simp [h0]) (hs.idle_of_ref_zero h0).symm ?_, rfl⟩
        intro j _ hj hdev hinum
        have hno := List.find?_eq_none.mp hc j (List.mem_finRange j)
        simp only [decide_eq_true_eq, not_and] at hno
        exact hno hj hdev.symm hinum.symm

theorem keeps_idup (hi : h.Has (.inode ip)) : Moves S me (idup ip) h fun i => h.add (.inode i) := by
  refine Keeps.then (k := fun _ => h.add (.inode ip)) (keeps_modify fun s g hg hs => ?_) fun _ =>
    keeps_pure rfl
  exact ⟨fun _ _ => rfl, _, hs.take hg rfl rfl (hs.unique_of (hs.ref_pos hg (.inl hi))), rfl⟩

theorem keeps_ilock (hi : h.Reaches ip) : Moves S me (ilock ip) h fun _ => h.add (.lock ip) := by
  refine Keeps.then (k := fun _ => h.add (.lock ip)) ?_ fun _ => keeps_silent silent_loadInode
  refine Keeps.then (keeps_check fun s g hg hs => ?_) fun _ => keeps_atomic fun s g hg hs => ?_
  · exact Nat.not_lt_of_le (hs.ref_pos hg hi)
  · split
    · trivial
    · next hb => exact ⟨fun _ _ => rfl, _, hs.lock hg hb hi, rfl⟩

theorem keeps_unlocked : Keeps S me (iunlock ip)
    (fun _ h' => h.count (.lock ip) = 0 ∧ h' = h) (h.add (.lock ip)) := by
  refine Keeps.then (keeps_check fun s g hg hs => ?_) fun _ => keeps_modify fun s g hg hs => ?_
  · simp [(hs.locked hg).1, (hs.ref_pos hg ((hs.own me _ hg).locked ip has_add)).ne']
  · obtain ⟨hbusy, hzero⟩ := hs.locked hg
    refine ⟨fun _ _ => rfl, h, ?_, hzero, rfl⟩
    refine hs.putInode (c := h.count) hg ?_ ?_ (fun _ _ hk => (add_other hk).symm)
      (fun j hj hx => hs.unique_of hx j hj) fun hl => absurd hzero hl.ne'
    · simp [add_count]
    · simp [hbusy, hzero, add_count]

theorem keeps_iunlock : Moves S me (iunlock ip) (h.add (.lock ip)) fun _ => h :=
  keeps_unlocked.mono fun _ _ => And.right

/-- The end of `iput` for an inode that has been freed. -/
theorem keeps_freeInode (hl : h.Has (.lock ip) → h.Has (.inode ip)) :
    Moves S me (freeInode me ip) (h.got (some ip)) fun _ => h := by
  refine silent_itrunc.then fun _ => Silent.then (silent_setInode fun _ => rfl)
    fun _ => silent_iupdate.then fun _ => keeps_modify fun s g hg hs => ⟨fun _ _ => rfl, h, ?_, rfl⟩
  have hpos := hs.ref_pos hg (.inl (Held.Has.add has_add))
  obtain ⟨hbusy, hzero⟩ := hs.locked hg
  refine hs.putInode (c := h.count) hg ?_ ?_ (fun k hk hk' => ?_)
    (fun j hj _ => hs.unique_of hpos j hj) fun hlock => .inl (hl hlock)
  · simp only [Held.got, add_count, reduceCtorEq, if_true, if_false]
    omega
  · simp [Held.got, hbusy, add_count, Nat.add_comm]
  · simp [Held.got, add_count, hk, hk']

/-- A reference is dropped; if the inode is locked, it is not the last one. -/
theorem keeps_iput (hl : h.Has (.lock ip) → h.Has (.inode ip)) :
    Moves S me (iput me ip) (h.add (.inode ip)) fun _ => h := by
  refine Keeps.then (k := fun last => if last then h.got (some ip) else h)
    (keeps_atomic fun s g hg hs => ?_) fun last => ?_
  · have hpos := hs.ref_pos hg (.inl has_add)
    dsimp only
    split
    · next hlast =>
        split
        · next hb => exact absurd hlast.1 (hs.two_refs hg hl hb)
        · next hb => exact ⟨fun _ _ => rfl, _, hs.lock hg hb (.inl has_add), rfl⟩
    · refine ⟨fun _ _ => rfl, h, ?_, rfl⟩
      refine hs.putInode (c := h.count) hg ?_ ?_ (fun _ hk _ => (add_other hk).symm)
        (fun j hj _ => hs.unique_of hpos j hj) fun hlock => .inl (hl hlock)
      · simp only [add_count, if_true]
        omega
      · simp [add_count]
  · cases last with
    | true => exact Keeps.when (fun _ => keeps_freeInode hl) fun hn => absurd rfl hn
    | false => exact Keeps.when (fun hc => absurd hc Bool.false_ne_true) fun _ => rfl

theorem keeps_iunlockput : Moves S me (iunlockput me ip) (h.got (some ip)) fun _ => h := by
  refine Keeps.seq keeps_unlocked ?_
  rintro _ _ ⟨hzero, rfl⟩
  refine keeps_iput fun hl => absurd ?_ hl.ne'
  simpa [add_count] using hzero

theorem keeps_end {a : α} (hq : Q a h) : Keeps S me (do endOp me; pure a) Q (h.add .op) :=
  keeps_endOp.then fun _ => keeps_pure hq

theorem keeps_quit {a : α} (hq : Q a h) :
    Keeps S me (do iunlockput me ip; endOp me; pure a) Q ((h.add .op).got (some ip)) :=
  keeps_iunlockput.then fun _ => keeps_end hq

theorem keeps_readi (hl : h.Has (.lock ip)) (hi : h.Reaches ip) (off n : Nat) :
    Moves S me (readi me ip off n) h fun _ => h := by
  refine (silent_gets _).then fun i => ?_
  split
  · split
    · generalize (toInt n).toNat = m
      obtain ⟨h, rfl⟩ := Held.exists_add hl
      exact keeps_iunlock.then fun _ => silent_draw.then fun _ =>
        (silent_drawBytes _).then fun _ => (keeps_ilock (.of_add hi)).then fun _ => keeps_pure rfl
    · exact keeps_pure rfl
  · split
    · exact keeps_pure rfl
    · exact (silent_readLoop _ _ _).then fun _ => keeps_pure rfl

theorem keeps_writei (hl : h.Has (.lock ip)) (hi : h.Reaches ip) (off : Nat) (src : List UInt8) :
    Moves S me (writei me ip off src) h fun _ => h := by
  refine (silent_gets _).then fun i => ?_
  split
  · split
    · obtain ⟨h, rfl⟩ := Held.exists_add hl
      exact keeps_iunlock.then fun _ => (keeps_ilock (.of_add hi)).then fun _ => keeps_pure rfl
    · exact keeps_pure rfl
  · split
    · exact keeps_pure rfl
    · split
      · exact keeps_pure rfl
      · exact (silent_writeLoop _ _ _).then fun _ => (silent_gets _).then fun _ =>
          Silent.then (.when (.bind (silent_setInode fun _ => rfl)
            fun _ => silent_iupdate)) fun _ => keeps_pure rfl

/-! ## Directories and paths -/

section Locked

variable (hl : h.Has (.lock dp)) (hi : h.Has (.inode dp))
include hl hi

theorem keeps_readDirent (off : Nat) {msg : String} (hm : Fine msg) :
    Moves S me (readDirent me dp off msg) h fun _ => h := by
  refine (keeps_readi hl (.inl hi) _ _).then fun r => ?_
  cases r with
  | none => exact keeps_panic hm
  | some bs =>
    dsimp only
    split
    · exact keeps_pure rfl
    · exact keeps_panic hm

theorem keeps_lookupFrom (name : List UInt8) (fuel : Nat) : ∀ off, Moves S me
    (lookupFrom me dp name fuel off) h fun r => h.gain (r.map fun r => .inode r.1) := by
  induction fuel with
  | zero => exact fun _ => keeps_pure rfl
  | succ fuel ih =>
    intro off
    refine (silent_gets _).then fun i => ?_
    split
    · refine (keeps_readDirent hl hi _ (by decide)).then fun de => ?_
      split
      · exact (keeps_iget _ _).then fun _ => keeps_pure rfl
      · exact ih _
    · exact keeps_pure rfl

theorem keeps_dirlookup (name : List UInt8) :
    Moves S me (dirlookup me dp name) h fun r => h.gain (r.map fun r => .inode r.1) := by
  refine (silent_gets _).then fun i => ?_
  split
  · exact keeps_panic (by decide)
  · exact keeps_lookupFrom hl hi name _ _

theorem keeps_emptyFrom (fuel : Nat) :
    ∀ off, Moves S me (emptyFrom me dp fuel off) h fun _ => h := by
  induction fuel with
  | zero => exact fun _ => keeps_pure rfl
  | succ fuel ih =>
    intro off
    refine (silent_gets _).then fun i => ?_
    split
    · refine (keeps_readDirent hl hi _ (by decide)).then fun de => ?_
      split
      · exact keeps_pure rfl
      · exact ih _
    · exact keeps_pure rfl

end Locked

theorem keeps_dirlink (hl : h.Has (.lock dp)) (hf : h.Firm) (name : List UInt8) (inum : Nat) :
    Moves S me (dirlink me dp name inum) h fun _ => h := by
  have hi := hf.1 dp hl
  refine (keeps_dirlookup hl hi name).then fun found => ?_
  rcases found with _ | ⟨i, off⟩
  · refine (silent_gets _).then fun _ => (keeps_emptyFrom hl hi _ _).then fun _ =>
      (keeps_writei hl (.inl hi) _ _).then fun r => ?_
    split
    · exact keeps_pure rfl
    · exact keeps_panic (by decide)
  · exact (keeps_iput (hf.1 i)).then fun _ => keeps_pure rfl

theorem keeps_walkPath (hf : h.Firm) (parent : Bool) (elems : List (List UInt8 × List UInt8)) :
    ∀ ip last, Moves S me (walkPath me parent elems ip last) (h.add (.inode ip))
      fun r => h.gain (r.map fun r => .inode r.1) := by
  induction elems with
  | nil =>
    intro ip last
    rw [walkPath]
    split
    · exact (keeps_iput (hf.1 ip)).then fun _ => keeps_pure rfl
    · exact keeps_pure rfl
  | cons e elems ih =>
    intro ip last
    obtain ⟨name, rest⟩ := e
    refine (keeps_ilock (.inl has_add)).then fun _ => (silent_gets _).then fun i => ?_
    split
    · exact keeps_iunlockput.then fun _ => keeps_pure rfl
    · split
      · exact keeps_iunlock.then fun _ => keeps_pure rfl
      · refine (keeps_dirlookup has_add (Held.Has.add has_add) name).then fun next => ?_
        rw [show ((h.add _).add _).gain _ = _ from Held.gain_got _]
        refine keeps_iunlockput.then fun _ => ?_
        rcases next with _ | ⟨j, off⟩
        · exact keeps_pure rfl
        · exact ih j name

theorem keeps_namex (hf : h.Firm) (path : List UInt8) (parent : Bool) :
    Moves S me (namex me path parent) h fun r => h.gain (r.map fun r => .inode r.1) := by
  refine Keeps.then (k := fun i => h.add (.inode i)) ?_ fun ip => keeps_walkPath hf parent _ ip _
  rw [startDir]
  split
  · exact keeps_iget _ _
  · refine Keeps.seq (P := fun c h' => c = h.cwd ∧ h.cwd ≠ none ∧ h' = h) (keeps_gets
      fun s g hg hs => ⟨(hs.own me h hg).cwd, (hs.own me h hg).home, rfl⟩) ?_
    rintro _ h ⟨rfl, hhome, rfl⟩
    cases hc : h.cwd with
    | none => exact absurd hc hhome
    | some c => exact keeps_idup (hf.2 c hc)

theorem keeps_namei (hf : h.Firm) (path : List UInt8) :
    Moves S me (namei me path) h fun r => h.gain (r.map .inode) := by
  refine (keeps_namex hf path false).then fun r => keeps_pure ?_
  cases r <;> rfl

/-! ## New files -/

theorem keeps_ialloc (dev type : Nat) :
    Moves S me (ialloc me dev type) h fun i => h.add (.inode i) := by
  refine (silent_gets _).then fun sb => ?_
  induction List.range' 1 (sb.ninodes - 1) with
  | nil => exact keeps_panic (by decide)
  | cons inum inums ih =>
    refine silent_putBlock.then fun free => ?_
    split
    · exact (silent_logWrite _).then fun _ => keeps_iget dev inum
    · exact ih

theorem keeps_makeDots (hl : h.Has (.lock ip)) (hf : h.Firm) (inum : Nat) :
    Moves S me (makeDots me dp ip inum) h fun _ => h := by
  refine (silent_updateInode _).then fun _ => (silent_gets _).then fun d =>
    (keeps_dirlink hl hf _ _).then fun r => ?_
  split
  · exact keeps_panic (by decide)
  · refine (keeps_dirlink hl hf _ _).then fun r => ?_
    split
    · exact keeps_pure rfl
    · exact keeps_panic (by decide)

theorem keeps_linkNew (hf : h.Firm) (name : List UInt8) (type major minor : Nat) :
    Moves S me (linkNew me dp ip name type major minor) ((h.got (some dp)).add (.inode ip))
      fun _ => h.got (some ip) := by
  refine (keeps_ilock (.inl has_add)).then fun _ => ?_
  rw [show (((h.got _).add _).add _) = _ from Held.got_got ip]
  have hfirm : ((h.got (some ip)).got (some dp)).Firm := hf.got.got
  refine (silent_updateInode _).then fun _ => (silent_gets _).then fun i =>
    Keeps.then (k := fun _ => (h.got (some ip)).got (some dp))
      (Keeps.when (fun _ => keeps_makeDots (.add (.add has_add)) hfirm _) fun _ => rfl) fun _ =>
    (keeps_dirlink has_add hfirm _ _).then fun r => ?_
  split
  · exact keeps_iunlockput
  · exact keeps_panic (by decide)

theorem keeps_create (hf : h.Firm) (path : List UInt8) (type major minor : Nat) :
    Moves S me (create me path type major minor) h fun r => h.got r := by
  refine (keeps_namex hf path true).then fun dp => ?_
  rcases dp with _ | ⟨dp, name⟩
  · exact keeps_pure rfl
  · refine (keeps_ilock (.inl has_add)).then fun _ =>
      (keeps_dirlookup has_add (Held.Has.add has_add) name).then fun found => ?_
    rcases found with _ | ⟨ip, off⟩
    · exact (silent_gets _).then fun d => (keeps_ialloc _ _).then fun ip =>
        (keeps_linkNew hf name type major minor).then fun _ => keeps_pure rfl
    · dsimp only
      rw [show ((h.add _).add _).gain _ = _ from Held.gain_got _]
      refine keeps_iunlockput.then fun _ => (keeps_ilock (.inl has_add)).then fun _ =>
        (silent_gets _).then fun i => ?_
      split
      · exact keeps_pure rfl
      · exact keeps_iunlockput.then fun _ => keeps_pure rfl

theorem keeps_openInode (hf : h.Firm) (path : List UInt8) (omode : Nat) :
    Moves S me (openInode me path omode) h fun r => h.got r := by
  rw [openInode]
  split
  · exact keeps_create hf path _ _ _
  · refine (keeps_namei hf path).then fun ip => ?_
    cases ip with
    | none => exact keeps_pure rfl
    | some ip =>
      refine (keeps_ilock (.inl has_add)).then fun _ => (silent_gets _).then fun i => ?_
      split
      · exact keeps_iunlockput.then fun _ => keeps_pure rfl
      · exact keeps_pure rfl

end

end Xv6Pdx.Fs
