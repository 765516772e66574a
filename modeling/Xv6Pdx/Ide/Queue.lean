/-
# `Ide.Queue` — the queue of the disk driver

In every state between stretches the list from `idequeue` is a list of different
buffers: those of the calls of `iderw` that the drive is not done with, in the
order of the calls.  The command of the drive is the one for its first buffer, and
a process asleep in `iderw` waits for a buffer of the list.

What a read brings is another matter.  `ideintr` does not take the data when the
drive reports an error, but marks the buffer valid all the same.
-/
import Xv6Pdx.Ide.Model

namespace Xv6Pdx.Ide

open Lib
open Function (update update_self update_of_ne update_comm)

section

variable {α : Type} {s s' : Driver α} {Q : List BufPtr}

/-! ## The routines -/

/-- The block of a buffer: which disk, and where on it. -/
def place (v : Buf α) : Nat × Nat := (v.dev % 2, v.blockno)

/-- What the disk has for the block of a buffer. -/
def Driver.content (s : Driver α) (v : Buf α) : α := s.disk (place v).1 (place v).2

theorem lba_eq {sector : Nat} (h : sector < 2 ^ 28) : lba sector = sector := by
  unfold lba
  omega

theorem command_sector {v : Buf α} (h : v.blockno < FSSIZE) : (command v).sector = v.blockno := by
  have hs : v.blockno * (BSIZE / SECTOR_SIZE) = v.blockno := Nat.mul_one _
  rw [command, hs]
  exact lba_eq (h.trans (by decide))

def Alike (v w : Buf α) : Prop := w = { v with qnext := w.qnext }

theorem Alike.command {v w : Buf α} (h : Alike v w) : command w = Ide.command v := by
  rw [h]
  rfl

theorem Alike.done {v w : Buf α} (h : Alike v w) : w.done = v.done := by
  rw [h]
  rfl

theorem Alike.place {v w : Buf α} (h : Alike v w) : place w = Ide.place v := by
  rw [h]
  rfl

theorem Alike.blockno {v w : Buf α} (h : Alike v w) : w.blockno = v.blockno := by
  rw [h]

theorem Alike.data {v w : Buf α} (h : Alike v w) : w.data = v.data := by
  rw [h]

/-- The links of the heap of buffers. -/
def links (buf : BufPtr → Buf α) (b : BufPtr) : Option BufPtr := (buf b).qnext

theorem links_update (buf : BufPtr → Buf α) (b : BufPtr) (v : Buf α) :
    links (update buf b v) = update (links buf) b v.qnext := by
  funext x
  rcases eq_or_ne x b with rfl | hx
  · simp [links]
  · simp [links, hx]

theorem alike_update {buf : BufPtr → Buf α} {b : BufPtr} {q : Option BufPtr} (x : BufPtr) :
    Alike (buf x) (update buf b { buf b with qnext := q } x) := by
  rcases eq_or_ne x b with rfl | hx
  · rw [update_self]
    rfl
  · rw [update_of_ne hx]
    rfl

theorem Alike.trans {u v w : Buf α} (h : Alike u v) (h' : Alike v w) : Alike u w := by
  rw [Alike, h', h]

/-- The walk to the end of the list puts the buffer there. -/
theorem append_spec {b : BufPtr} (hc : Chain (links s.buf) s.idequeue Q) (hb : b ∉ Q) :
    wp (append b) (fun _ s' => ∃ buf' q, s' = { s with buf := buf', idequeue := q } ∧
      Chain (links buf') q (Q ++ [b]) ∧ ∀ x, Alike (s.buf x) (buf' x)) (fun _ => False) s := by
  have hc' : Chain (update (links s.buf) b none) s.idequeue Q :=
    Chain.update_of_notMem hb hc
  have hw : walk (fun x => (update s.buf b { s.buf b with qnext := none } x).qnext) NBUF
      s.idequeue = some Q := by
    refine walk_eq_some_iff.mpr ⟨?_, ?_⟩
    · rw [← links_update s.buf b { s.buf b with qnext := none }] at hc'
      exact hc'
    · exact hc.nodup.length_le_card.trans_eq (Fintype.card_fin _)
  simp only [append, setBuf, wp_bind, wp_modify, wp_get, hw]
  rcases Q.eq_nil_or_concat with rfl | ⟨ys, t, rfl⟩
  · refine ⟨_, _, rfl, ⟨rfl, ?_⟩, alike_update⟩
    rw [links_update]
    exact update_self ..
  · rw [List.concat_eq_append] at hc hb ⊢
    have htb : t ≠ b := fun he => hb (by simp [he])
    simp only [List.getLast?_append, List.getLast?_singleton, Option.some_or, wp_modify]
    refine ⟨_, _, rfl, ?_, fun x => (alike_update x).trans (alike_update x)⟩
    have hsnoc := Chain.snoc hc hb
    rw [List.append_assoc, links_update, links_update, update_comm htb.symm]
    exact hsnoc

theorem idestart_spec {b : BufPtr} (hd : s.drive = none) : wp (idestart (some b))
      (fun _ s' => (s.buf b).blockno < FSSIZE ∧ s' = { s with drive := some (command (s.buf b)) })
      (fun e => e = .panic "incorrect blockno") s := by
  have hcount : ¬ 7 < BSIZE / SECTOR_SIZE := by decide
  simp only [idestart, wp_bind, wp_get, wp_ite, wp_throw, wp_set, hcount, hd]
  simp

/-- The disk when the command for the buffer is done. -/
def served (v : Buf α) (disk : Nat → Nat → α) : Nat → Nat → α :=
  if v.dirty then
    update disk (place v).1 (update (disk (place v).1) (place v).2 v.data)
  else disk

/-- The buffer when the command for it is done. -/
def Buf.completed (v : Buf α) (error : Bool) (x : α) : Buf α :=
  { v with valid := true, dirty := false, data := if v.dirty || error then v.data else x }

/-- The driver when the command for `b` is done and no other is started. -/
def Driver.complete (s : Driver α) (b : BufPtr) (error : Bool) : Driver α :=
  { s with
    buf := update s.buf b ((s.buf b).completed error (s.content (s.buf b)))
    idequeue := (s.buf b).qnext
    drive := none
    disk := served (s.buf b) s.disk
    thread := fun p =>
      if s.thread p = .waiting b true then .waiting b false else s.thread p
    completed := s.completed ++ [b] }

theorem finish_spec {b : BufPtr} (hd : s.drive = some (command (s.buf b)))
    (hb : (s.buf b).blockno < FSSIZE) :
    wp finish (fun r s' => r = (if (s.buf b).dirty then none else some (s.content (s.buf b))) ∧
      s' = { s with drive := none, disk := served (s.buf b) s.disk }) (fun _ => False) s := by
  have hs := command_sector hb
  have hdev : (command (s.buf b)).dev = (s.buf b).dev % 2 := rfl
  simp only [finish, wp_bind, wp_get, hd]
  cases hv : (s.buf b).dirty with
  | true =>
    have hw : (command (s.buf b)).write = some (s.buf b).data := by simp [command, hv]
    simp only [hw, wp_bind, wp_set, wp_pure, served, hv, hs, hdev, place, if_true, and_self]
  | false =>
    have hw : (command (s.buf b)).write = none := by simp [command, hv]
    simp only [hw, wp_bind, wp_set, wp_pure, served, hv, hs, hdev, place, Driver.content,
      Bool.false_eq_true, if_false, and_self]

theorem startNext_spec (hd : s.drive = none) : wp startNext
      (fun _ s' => (∀ b, s.idequeue = some b → (s.buf b).blockno < FSSIZE) ∧
        s' = { s with drive := s.idequeue.map fun b => command (s.buf b) })
      (fun e => e = .panic "incorrect blockno") s := by
  simp only [startNext, wp_bind, wp_get]
  cases hq : s.idequeue with
  | none =>
    refine ⟨fun b he => (by cases he), ?_⟩
    rw [Option.map_none, ← hd, ← hq]
  | some b =>
    refine wp_post (idestart_spec hd) ?_
    rintro _ _ ⟨hlt, rfl⟩
    refine ⟨fun b' he => ?_, ?_⟩
    · cases he
      exact hlt
    · rw [Option.map_some, ← hq]

/-- One interrupt: the first buffer of the list is done, the next one is started. -/
theorem ideintr_spec {b : BufPtr} {error : Bool} (hq : s.idequeue = some b)
    (hd : s.drive = some (command (s.buf b))) (hb : (s.buf b).blockno < FSSIZE) :
    wp (ideintr error) (fun _ s' => (∀ b', (s.buf b).qnext = some b' →
          ((s.complete b error).buf b').blockno < FSSIZE) ∧
        s' = { s.complete b error with
          drive := (s.buf b).qnext.map fun b' => command ((s.complete b error).buf b') })
      (fun e => e = .panic "incorrect blockno") s := by
  have hrest := startNext_spec (s := s.complete b error) rfl
  rw [ideintr]
  refine wp_seq (wp_mono (finish_spec hd hb) (fun _ _ h => h) fun _ h => h.elim) ?_
  rintro _ _ ⟨rfl, rfl⟩
  simp only [wp_bind, wp_get, hq, wp_set]
  cases hv : (s.buf b).dirty with
  | true =>
    refine Eq.mpr (congrArg (wp startNext _ _) ?_) hrest
    simp [Driver.complete, Buf.completed, hv]
  | false =>
    cases error with
    | true =>
      refine Eq.mpr (congrArg (wp startNext _ _) ?_) hrest
      simp [Driver.complete, Buf.completed, hv]
    | false =>
      refine Eq.mpr (congrArg (wp startNext _ _) ?_) hrest
      simp [Driver.complete, Buf.completed, hv]

/-! ## The invariant -/

/-- The process is in `iderw` with the buffer. -/
def Driver.holds (s : Driver α) (p : Nat) (b : BufPtr) : Prop := ∃ a, s.thread p = .waiting b a

/-- The list holds `Q`; in a `clean` run, no two buffers in `iderw` are for one block,
and those that the drive is done with have what the disk has. -/
structure Inv (clean : Prop) (s : Driver α) (Q : List BufPtr) : Prop where
  chain : Chain (links s.buf) s.idequeue Q
  drive : s.drive = s.idequeue.map fun b => command (s.buf b)
  started : ∀ b, s.idequeue = some b → (s.buf b).blockno < FSSIZE
  history : s.requests = s.completed ++ Q
  pending : ∀ b ∈ Q, (s.buf b).done = false ∧ ∃ p, s.holds p b
  waits : ∀ p b, s.holds p b → b ∉ Q → (s.buf b).done = true ∧ b ∈ s.completed
  asleep : ∀ p b, s.thread p = .waiting b true → b ∈ Q
  once : ∀ p q b, s.holds p b → s.holds q b → p = q
  apart : clean → ∀ p q b c, s.holds p b → s.holds q c → place (s.buf b) = place (s.buf c) → b = c
  kept : clean → ∀ p b, s.holds p b → b ∉ Q → (s.buf b).data = s.content (s.buf b)

section

variable {clean : Prop} {b : BufPtr} {p : Nat}

theorem Inv.mono {clean' : Prop} (h : Inv clean s Q) (hcl : clean' → clean) : Inv clean' s Q :=
  ⟨h.chain, h.drive, h.started, h.history, h.pending, h.waits, h.asleep, h.once,
    fun hc => h.apart (hcl hc), fun hc => h.kept (hcl hc)⟩

theorem Inv.notMem (h : Inv clean s Q) (hb : s.unused b) : b ∉ Q := by
  intro hm
  obtain ⟨-, p, a, hp⟩ := h.pending b hm
  exact hb p a hp

theorem Inv.rethread (h : Inv clean s Q) {t : Nat → Thread}
    (ht : ∀ q c, (∃ a, t q = .waiting c a) ↔ s.holds q c)
    (ha : ∀ q c, t q = .waiting c true → c ∈ Q) : Inv clean { s with thread := t } Q where
  chain := h.chain
  drive := h.drive
  started := h.started
  history := h.history
  pending := by
    intro c hc
    obtain ⟨hdone, q, hq⟩ := h.pending c hc
    exact ⟨hdone, q, (ht q c).mpr hq⟩
  waits := fun q c hq => h.waits q c ((ht q c).mp hq)
  asleep := ha
  once := fun q r c hq hr => h.once q r c ((ht q c).mp hq) ((ht r c).mp hr)
  apart := fun hcl q r c d hq hr => h.apart hcl q r c d ((ht q c).mp hq) ((ht r d).mp hr)
  kept := fun hcl q c hq => h.kept hcl q c ((ht q c).mp hq)

/-- A process in `iderw` falls asleep, if the drive is not done, or is woken. -/
theorem Inv.turn (h : Inv clean s Q) {a a' : Bool} (hp : s.thread p = .waiting b a)
    (ha : a' = true → b ∈ Q) :
    Inv clean { s with thread := update s.thread p (.waiting b a') } Q := by
  refine h.rethread ?_ ?_
  · intro q c
    rcases eq_or_ne q p with rfl | hq
    · simp [Driver.holds, hp]
    · simp [Driver.holds, hq]
  · intro q c hq
    rcases eq_or_ne q p with rfl | hne
    · rw [update_self] at hq
      cases hq
      exact ha rfl
    · rw [update_of_ne hne] at hq
      exact h.asleep q c hq

theorem holds_of_update_idle {q : Nat} {c : BufPtr}
    (h : ∃ a, update s.thread p .idle q = .waiting c a) : q ≠ p ∧ s.holds q c := by
  obtain ⟨a, ha⟩ := h
  rcases eq_or_ne q p with rfl | hq
  · rw [update_self] at ha
    cases ha
  · rw [update_of_ne hq] at ha
    exact ⟨hq, a, ha⟩

/-- The call of a process whose buffer is done returns. -/
theorem Inv.leave (h : Inv clean s Q) (hp : s.holds p b) (hb : b ∉ Q) :
    Inv clean { s with thread := update s.thread p .idle } Q where
  chain := h.chain
  drive := h.drive
  started := h.started
  history := h.history
  pending := by
    intro c hc
    obtain ⟨hdone, q, a, hq⟩ := h.pending c hc
    refine ⟨hdone, q, a, ?_⟩
    have hne : q ≠ p := by
      rintro rfl
      obtain ⟨a', ha'⟩ := hp
      rw [ha'] at hq
      cases hq
      exact hb hc
    exact (update_of_ne hne ..).trans hq
  waits := fun q c hq => h.waits q c (holds_of_update_idle hq).2
  asleep := by
    intro q c hq
    have hne := (holds_of_update_idle ⟨true, hq⟩).1
    exact h.asleep q c ((update_of_ne hne ..).symm.trans hq)
  once := fun q r c hq hr =>
    h.once q r c (holds_of_update_idle hq).2 (holds_of_update_idle hr).2
  apart := fun hcl q r c d hq hr =>
    h.apart hcl q r c d (holds_of_update_idle hq).2 (holds_of_update_idle hr).2
  kept := fun hcl q c hq => h.kept hcl q c (holds_of_update_idle hq).2

/-- A buffer that no process has in `iderw` may be used in any way. -/
theorem Inv.assign (h : Inv clean s Q) (hb : s.unused b) {v : Buf α}
    (hv : v.qnext = (s.buf b).qnext) :
    Inv clean { s with buf := update s.buf b v } Q := by
  have hother : ∀ p c, s.holds p c → update s.buf b v c = s.buf c := by
    rintro p c ⟨a, ha⟩
    refine update_of_ne ?_ ..
    rintro rfl
    exact hb p a ha
  have hmem : ∀ c ∈ Q, update s.buf b v c = s.buf c := by
    intro c hc
    obtain ⟨-, p, hp⟩ := h.pending c hc
    exact hother p c hp
  have hhead : ∀ c, s.idequeue = some c → update s.buf b v c = s.buf c := by
    intro c hc
    refine hmem c ?_
    rw [h.chain.head_eq] at hc
    exact List.mem_of_head? hc
  refine ⟨?_, ?_, ?_, h.history, ?_, ?_, h.asleep, h.once, ?_, ?_⟩
  · show Chain (links (update s.buf b v)) s.idequeue Q
    rw [links_update]
    exact h.chain.update_of_notMem (h.notMem hb)
  · show s.drive = _
    rw [h.drive]
    cases hq : s.idequeue with
    | none => rfl
    | some c =>
      show some (command (s.buf c)) = some (command (update s.buf b v c))
      rw [hhead c hq]
  · intro c hc
    show (update s.buf b v c).blockno < FSSIZE
    rw [hhead c hc]
    exact h.started c hc
  · intro c hc
    show (update s.buf b v c).done = false ∧ _
    rw [hmem c hc]
    exact h.pending c hc
  · intro q c hq hc
    show (update s.buf b v c).done = true ∧ _
    rw [hother q c hq]
    exact h.waits q c hq hc
  · intro hcl q r c d hq hr he
    change place (update s.buf b v c) = place (update s.buf b v d) at he
    rw [hother q c hq, hother r d hr] at he
    exact h.apart hcl q r c d hq hr he
  · intro hcl q c hq hc
    show (update s.buf b v c).data = s.content (update s.buf b v c)
    rw [hother q c hq]
    exact h.kept hcl q c hq hc

/-! ## A call of `iderw` -/

/-- The panics that a call of `iderw` and an interrupt can end in. -/
def refusals : List Stop :=
  [.panic "iderw: buf not busy", .panic "iderw: nothing to do",
    .panic "iderw: ide disk 1 not present", .panic "incorrect blockno"]

/-- The driver when `p` sleeps in `iderw` with `b`, `b` being the last of the list. -/
def Driver.enter (s : Driver α) (p : Nat) (b : BufPtr) (buf : BufPtr → Buf α)
    (q : Option BufPtr) : Driver α :=
  { s with
    buf := buf
    idequeue := q
    drive := q.map fun x => command (buf x)
    thread := update s.thread p (.waiting b true)
    requests := s.requests ++ [b] }

/-- What a call of `iderw` has done when it goes to sleep. -/
structure Entered (s : Driver α) (Q : List BufPtr) (p : Nat) (b : BufPtr) (s' : Driver α) :
    Prop where
  undone : (s.buf b).done = false
  result : ∃ buf q, s' = s.enter p b buf q ∧ Chain (links buf) q (Q ++ [b]) ∧
    (∀ x, Alike (s.buf x) (buf x)) ∧ ∀ x, q = some x → (s.buf x).blockno < FSSIZE

theorem await_sleeps (hb : (s.buf b).done = false) : wp (await p b) (fun r s' => r = false ∧
      s' = { s with thread := update s.thread p (.waiting b true) })
      (fun _ => False) s := by
  simp only [await, wp_bind, wp_get, hb, Bool.false_eq_true, if_false, wp_set, wp_pure, and_self]

theorem await_returns (hb : (s.buf b).done = true) : wp (await p b) (fun r s' => r = true ∧
      s' = { s with thread := update s.thread p .idle }) (fun _ => False) s := by
  simp only [await, wp_bind, wp_get, hb, if_true, wp_set, wp_pure, and_self]

theorem iderw_spec (h : Inv clean s Q) (hb : b ∉ Q) :
    wp (iderw p b) (fun r s' => r = false ∧ Entered s Q p b s') (fun e => e ∈ refusals) s := by
  simp only [iderw, wp_bind, wp_get, wp_ite, wp_throw]
  refine ⟨fun _ => by simp [refusals], fun _ => ⟨fun _ => by simp [refusals], fun hdone =>
    ⟨fun _ => by simp [refusals], fun _ => ?_⟩⟩⟩
  have hundone : (s.buf b).done = false := by simpa using hdone
  refine wp_mono (append_spec h.chain hb) ?_ (fun _ he => he.elim)
  rintro _ _ ⟨buf, q, rfl, hchain, halike⟩
  have hbuf : (buf b).done = false := (halike b).done.trans hundone
  have hq := hchain.head_eq
  simp only [wp_modify]
  refine ⟨fun hfirst => ?_, fun hnot => ?_⟩
  · -- the list was empty
    have hnil : Q = [] := by
      cases Q with
      | nil => rfl
      | cons x Q =>
        rw [hfirst] at hq
        cases hq
        exact (hb List.mem_cons_self).elim
    subst hnil
    have hnone : s.drive = none := by
      rw [h.drive, h.chain.head_eq]
      rfl
    refine wp_mono (idestart_spec hnone) ?_ (fun _ he => by simp [refusals, he])
    rintro _ _ ⟨hlt, rfl⟩
    refine wp_mono (await_sleeps hbuf) ?_ (fun _ he => he.elim)
    rintro _ _ ⟨rfl, rfl⟩
    refine ⟨rfl, hundone, buf, q, ?_, hchain, halike, ?_⟩
    · cases hfirst
      rfl
    · intro x hx
      cases hfirst.symm.trans hx
      exact (halike b).blockno ▸ hlt
  · have hsame : q = s.idequeue := by
      rw [hq, h.chain.head_eq]
      cases Q with
      | nil => exact (hnot hq).elim
      | cons x Q => rfl
    refine wp_mono (await_sleeps hbuf) ?_ (fun _ he => he.elim)
    rintro _ _ ⟨rfl, rfl⟩
    refine ⟨rfl, hundone, buf, q, ?_, hchain, halike, ?_⟩
    · have hdrive : s.drive = q.map fun x => command (buf x) := by
        rw [h.drive, hsame]
        exact congrArg (Option.map · s.idequeue) (funext fun x => ((halike x).command).symm)
      rw [Driver.enter, ← hdrive]
    · intro x hx
      exact h.started x (hsame ▸ hx)

theorem holds_enter {buf : BufPtr → Buf α} {q : Option BufPtr} {r : Nat} {c : BufPtr}
    (h : (s.enter p b buf q).holds r c) : (r = p ∧ c = b) ∨ (r ≠ p ∧ s.holds r c) := by
  obtain ⟨a, ha⟩ := h
  rcases eq_or_ne r p with rfl | hr
  · cases (update_self ..).symm.trans ha
    exact .inl ⟨rfl, rfl⟩
  · exact .inr ⟨hr, a, (update_of_ne hr ..).symm.trans ha⟩

theorem Inv.entered (h : Inv clean s Q) (hp : s.thread p = .idle) (hb : s.unused b)
    (hcl : clean → ∀ q c, s.holds q c → place (s.buf c) ≠ place (s.buf b))
    (he : Entered s Q p b s') : Inv clean s' (Q ++ [b]) := by
  obtain ⟨buf, q, rfl, hchain, halike, hstarted⟩ := he.result
  have hidle : ∀ c, ¬ s.holds p c := by
    rintro c ⟨a, ha⟩
    cases hp.symm.trans ha
  have hunused : ∀ r, ¬ s.holds r b := fun r ⟨a, ha⟩ => hb r a ha
  have hholds : ∀ r c, s.holds r c → (s.enter p b buf q).holds r c := by
    rintro r c ⟨a, ha⟩
    have hr : r ≠ p := by
      rintro rfl
      exact hidle c ⟨a, ha⟩
    exact ⟨a, (update_of_ne hr ..).trans ha⟩
  refine ⟨hchain, rfl, ?_, ?_, ?_, ?_, ?_, ?_, ?_, ?_⟩
  · intro x hx
    exact (halike x).blockno.trans_lt (hstarted x hx)
  · show s.requests ++ [b] = s.completed ++ (Q ++ [b])
    rw [h.history, List.append_assoc]
  · intro c hc
    show (buf c).done = false ∧ _
    rw [(halike c).done]
    rcases List.mem_append.mp hc with hc | hc
    · obtain ⟨hdone, r, hr⟩ := h.pending c hc
      exact ⟨hdone, r, hholds r c hr⟩
    · cases List.mem_singleton.mp hc
      exact ⟨he.undone, p, true, update_self ..⟩
  · intro r c hr hc
    rw [List.mem_append, List.mem_singleton, not_or] at hc
    show (buf c).done = true ∧ c ∈ s.completed
    rw [(halike c).done]
    rcases holds_enter hr with ⟨-, rfl⟩ | ⟨-, hr⟩
    · exact (hc.2 rfl).elim
    · exact h.waits r c hr hc.1
  · intro r c hr
    rcases holds_enter ⟨true, hr⟩ with ⟨rfl, rfl⟩ | ⟨hne, -⟩
    · simp
    · exact List.mem_append_left _ (h.asleep r c ((update_of_ne hne ..).symm.trans hr))
  · intro r r' c hr hr'
    rcases holds_enter hr with ⟨rfl, rfl⟩ | ⟨-, h₁⟩
    · rcases holds_enter hr' with ⟨rfl, -⟩ | ⟨-, h₂⟩
      · rfl
      · exact (hunused r' h₂).elim
    · rcases holds_enter hr' with ⟨rfl, rfl⟩ | ⟨-, h₂⟩
      · exact (hunused r h₁).elim
      · exact h.once r r' c h₁ h₂
  · intro hc r r' c d hr hr' hplace
    change place (buf c) = place (buf d) at hplace
    rw [(halike c).place, (halike d).place] at hplace
    rcases holds_enter hr with ⟨-, rfl⟩ | ⟨-, h₁⟩
    · rcases holds_enter hr' with ⟨-, rfl⟩ | ⟨-, h₂⟩
      · rfl
      · exact (hcl hc r' d h₂ hplace.symm).elim
    · rcases holds_enter hr' with ⟨-, rfl⟩ | ⟨-, h₂⟩
      · exact (hcl hc r c h₁ hplace).elim
      · exact h.apart hc r r' c d h₁ h₂ hplace
  · intro hc r c hr hnot
    rw [List.mem_append, List.mem_singleton, not_or] at hnot
    show (buf c).data = s.disk (place (buf c)).1 (place (buf c)).2
    rw [(halike c).place, (halike c).data]
    rcases holds_enter hr with ⟨-, rfl⟩ | ⟨-, hr⟩
    · exact (hnot.2 rfl).elim
    · exact h.kept hc r c hr hnot.1

/-! ## An interrupt -/

theorem holds_complete (b : BufPtr) (error : Bool) {r : Nat} {c : BufPtr} :
    (s.complete b error).holds r c ↔ s.holds r c := by
  have ht : (s.complete b error).thread r =
      if s.thread r = .waiting b true then .waiting b false else s.thread r := rfl
  rw [Driver.holds, ht]
  split
  · next he =>
      rw [Driver.holds, he]
      simp
  · exact Iff.rfl

/-- After the interrupt the buffer has what the disk has, unless an error kept a
read from taking it. -/
theorem completed_data {v : Buf α} {error : Bool} (he : error = true → v.dirty = true) :
    (v.completed error (s.content v)).data = served v s.disk (place v).1 (place v).2 := by
  cases hv : v.dirty with
  | true => simp [Buf.completed, served, hv]
  | false =>
    have hne : error = false := by
      cases error with
      | false => rfl
      | true => exact absurd (he rfl) (by simp [hv])
    simp [Buf.completed, served, hv, hne, Driver.content]

theorem served_other {v w : Buf α} (disk : Nat → Nat → α) (hne : place w ≠ place v) :
    served v disk (place w).1 (place w).2 = disk (place w).1 (place w).2 := by
  rw [served]
  split
  · rcases eq_or_ne (place w).1 (place v).1 with h₁ | h₁
    · have h₂ : (place w).2 ≠ (place v).2 := fun h₂ => hne (Prod.ext h₁ h₂)
      rw [h₁, update_self, update_of_ne h₂]
    · rw [update_of_ne h₁]
  · rfl

theorem Inv.complete (h : Inv clean s (b :: Q)) {error : Bool}
    (hcl : clean → error = true → (s.buf b).dirty = true)
    (hstart : ∀ c, (s.buf b).qnext = some c → ((s.complete b error).buf c).blockno < FSSIZE) :
    Inv clean { s.complete b error with
      drive := (s.buf b).qnext.map fun c => command ((s.complete b error).buf c) } Q := by
  have hnd := List.nodup_cons.mp h.chain.nodup
  have hother : ∀ {c}, c ≠ b → (s.complete b error).buf c = s.buf c :=
    fun hc => update_of_ne hc ..
  have hself : (s.complete b error).buf b =
      (s.buf b).completed error (s.content (s.buf b)) := update_self ..
  have hmem : ∀ {c}, c ∈ Q → (s.complete b error).buf c = s.buf c :=
    fun hc => hother fun he => hnd.1 (he ▸ hc)
  have hplace : ∀ c, place ((s.complete b error).buf c) = place (s.buf c) := by
    intro c
    rcases eq_or_ne c b with rfl | hc
    · rw [hself]
      rfl
    · rw [hother hc]
  refine ⟨?_, rfl, hstart, ?_, ?_, ?_, ?_, ?_, ?_, ?_⟩
  · refine Chain.congr (fun c hc => ?_) h.chain.2
    exact congrArg Buf.qnext (hmem hc)
  · show s.requests = (s.completed ++ [b]) ++ Q
    rw [h.history, List.append_assoc]
    rfl
  · intro c hc
    obtain ⟨hdone, r, hr⟩ := h.pending c (List.mem_cons_of_mem _ hc)
    refine ⟨?_, r, (holds_complete b error).mpr hr⟩
    show ((s.complete b error).buf c).done = false
    rw [hmem hc]
    exact hdone
  · intro r c hr hc
    show ((s.complete b error).buf c).done = true ∧ c ∈ s.completed ++ [b]
    rcases eq_or_ne c b with rfl | hne
    · rw [hself]
      exact ⟨rfl, by simp⟩
    · have hnot : c ∉ b :: Q := List.not_mem_cons_of_ne_of_not_mem hne hc
      obtain ⟨hdone, hcomp⟩ := h.waits r c ((holds_complete b error).mp hr) hnot
      rw [hother hne]
      exact ⟨hdone, List.mem_append_left _ hcomp⟩
  · intro r c hr
    change (if s.thread r = .waiting b true then Thread.waiting b false else s.thread r) =
      .waiting c true at hr
    split at hr
    · cases hr
    · next hne =>
        rcases List.mem_cons.mp (h.asleep r c hr) with rfl | hc
        · exact (hne hr).elim
        · exact hc
  · exact fun r r' c hr hr' => h.once r r' c ((holds_complete b error).mp hr) ((holds_complete b error).mp hr')
  · intro hc r r' c d hr hr' he
    change place ((s.complete b error).buf c) = place ((s.complete b error).buf d) at he
    rw [hplace, hplace] at he
    exact h.apart hc r r' c d ((holds_complete b error).mp hr) ((holds_complete b error).mp hr') he
  · intro hc r c hr hnot
    show ((s.complete b error).buf c).data = served (s.buf b) s.disk
      (place ((s.complete b error).buf c)).1 (place ((s.complete b error).buf c)).2
    rw [hplace]
    have hr := (holds_complete b error).mp hr
    rcases eq_or_ne c b with rfl | hne
    · rw [hself]
      exact completed_data (hcl hc)
    · -- a write to another block leaves what the buffer was read from
      obtain ⟨-, r', hr'⟩ := h.pending b List.mem_cons_self
      have happart : place (s.buf c) ≠ place (s.buf b) := fun he =>
        hne (h.apart hc r r' c b hr hr' he)
      rw [hother hne, served_other _ happart]
      exact h.kept hc r c hr (List.not_mem_cons_of_ne_of_not_mem hne hnot)

/-! ## Runs -/

/-- No read is reported as an error, and a call of `iderw` is for a block that no other
call is for. -/
def Clean (s : Driver α) : Action α → Prop
  | .rw _ b => ∀ q c, s.holds q c → place (s.buf c) ≠ place (s.buf b)
  | .interrupt error => error = true → ∀ b, s.idequeue = some b → (s.buf b).dirty = true
  | _ => True

/-- If a call of `iderw` returns in the step, then of a process whose buffer is done;
nothing but the process changes. -/
def Returns (s : Driver α) (Q : List BufPtr) (a : Action α) (s' : Driver α) : Prop :=
  ∃ p b, a = .resume p ∧ s.thread p = .waiting b false ∧ b ∉ Q ∧ (s.buf b).done = true ∧
    s' = { s with thread := update s.thread p .idle }

theorem resume_spec (h : Inv clean s Q) (hp : s.thread p = .waiting b false) :
    wp (await p b) (fun r s' => (∃ Q', Inv clean s' Q') ∧
      (r = true → Returns s Q (.resume p) s')) (fun e => e ∈ refusals) s := by
  cases hdone : (s.buf b).done with
  | true =>
    have hb : b ∉ Q := fun hm => by
      rw [(h.pending b hm).1] at hdone
      cases hdone
    refine wp_mono (await_returns hdone) ?_ (fun _ he => he.elim)
    rintro _ _ ⟨rfl, rfl⟩
    exact ⟨⟨Q, h.leave ⟨false, hp⟩ hb⟩, fun _ => ⟨p, b, rfl, hp, hb, hdone, rfl⟩⟩
  | false =>
    have hb : b ∈ Q := by
      by_contra hb
      rw [(h.waits p b ⟨false, hp⟩ hb).1] at hdone
      cases hdone
    refine wp_mono (await_sleeps hdone) ?_ (fun _ he => he.elim)
    rintro _ _ ⟨rfl, rfl⟩
    exact ⟨⟨Q, h.turn hp fun _ => hb⟩, fun he => by cases he⟩

theorem interrupt_spec (h : Inv clean s Q) {c : Command α} {error : Bool}
    (hd : s.drive = some c) (hcl : clean → Clean s (.interrupt error)) :
    wp (ideintr error) (fun _ s' => ∃ b Q', Q = b :: Q' ∧ Inv clean s' Q' ∧
      s'.completed = s.completed ++ [b]) (fun e => e ∈ refusals) s := by
  cases Q with
  | nil =>
    have hnone := h.drive
    rw [h.chain.head_eq, hd] at hnone
    cases hnone
  | cons b Q =>
    have hq : s.idequeue = some b := h.chain.head_eq
    have hdrive : s.drive = some (command (s.buf b)) := by rw [h.drive, hq]; rfl
    refine wp_mono (ideintr_spec hq hdrive (h.started b hq)) ?_ (fun _ he => by simp [refusals, he])
    rintro _ _ ⟨hstart, rfl⟩
    exact ⟨b, Q, rfl, h.complete (fun hc he => hcl hc he b hq) hstart, rfl⟩

theorem step_spec (h : Inv clean s Q) {a : Action α} {m : IdeM α Bool} (ha : allowed s a)
    (hcl : clean → Clean s a) (hm : program s a = some m) :
    wp m (fun r s' => (∃ Q', Inv clean s' Q') ∧ (r = true → Returns s Q a s'))
      (fun e => e ∈ refusals) s := by
  cases a with
  | rw p b =>
    simp only [program] at hm
    split at hm
    · next hp =>
        cases hm
        refine wp_post (iderw_spec h (h.notMem ha)) ?_
        rintro _ s' ⟨rfl, he⟩
        exact ⟨⟨_, h.entered hp ha hcl he⟩, fun hr => by cases hr⟩
    · cases hm
  | resume p =>
    simp only [program] at hm
    split at hm
    · next b hp =>
        cases hm
        exact resume_spec h hp
    · cases hm
  | interrupt error =>
    simp only [program] at hm
    split at hm
    · next c hd =>
        cases hm
        refine wp_seq (interrupt_spec h hd hcl) ?_
        rintro _ s' ⟨b, Q', -, hinv, -⟩
        exact ⟨⟨Q', hinv⟩, fun hr => by cases hr⟩
    · cases hm
  | kill p =>
    simp only [program] at hm
    split at hm
    · next b a hp =>
        cases hm
        exact ⟨⟨Q, h.turn hp fun he => by cases he⟩, fun hr => by cases hr⟩
    · cases hm
      exact ⟨⟨Q, h⟩, fun hr => by cases hr⟩
  | assign b v =>
    cases hm
    exact ⟨⟨Q, h.assign ha rfl⟩, fun hr => by cases hr⟩

theorem ReachableBy.inv {ok : Driver α → Action α → Prop} (h : ReachableBy ok s)
    (hcl : clean → ∀ s a, ok s a → Clean s a) : ∃ Q, Inv clean s Q := by
  induction h with
  | init buf havedisk1 disk =>
    have hidle : ∀ p b, ¬ Driver.holds (⟨buf, none, havedisk1, none, disk, fun _ => .idle, [],
        []⟩ : Driver α) p b := by
      rintro p b ⟨a, ha⟩
      cases ha
    refine ⟨[], rfl, rfl, ?_, rfl, ?_, ?_, ?_, ?_, ?_, ?_⟩
    · exact fun b hb => by cases hb
    · exact fun b hb => by cases hb
    · exact fun p b hp => (hidle p b hp).elim
    · exact fun p b hp => by cases hp
    · exact fun p q b hp => (hidle p b hp).elim
    · exact fun _ p q b c hp => (hidle p b hp).elim
    · exact fun _ p b hp => (hidle p b hp).elim
  | @step s s' a r _ ha hok hs ih =>
    obtain ⟨Q, hinv⟩ := ih
    obtain ⟨m, hm, hrun⟩ := Option.map_eq_some_iff.mp hs
    exact (wp_of_ok (step_spec hinv ha (fun hc => hcl hc _ _ hok) hm) hrun).1

end

/-- The queue holds the buffers of the calls that the drive is not done with, in order, and
the drive works on the first.  A call returns when its buffer is valid and not dirty; in runs
without a failing read, and with one buffer for a block, it then has what the disk has. -/
theorem queue_served {ok : Driver α → Action α → Prop} (h : ReachableBy ok s) :
    ∃ Q, Chain (links s.buf) s.idequeue Q ∧ Q.Nodup ∧
      s.requests = s.completed ++ Q ∧
      s.drive = Q.head?.map (fun b => command (s.buf b)) ∧
      (∀ b, b ∈ Q ↔ ∃ p, s.holds p b ∧ (s.buf b).done = false) ∧
      (∀ p b, s.thread p = .waiting b true → b ∈ Q) ∧
      (∀ error r s', step s (.interrupt error) = some (.ok (r, s')) →
        ∃ b, Q.head? = some b ∧ s'.completed = s.completed ++ [b]) ∧
      (∀ a e, allowed s a → step s a = some (.error e) → e ∈ refusals) ∧
      ∀ a s', allowed s a → step s a = some (.ok (true, s')) →
        ∃ p b, a = .resume p ∧ s.thread p = .waiting b false ∧ b ∈ s.completed ∧
          (s'.buf b).valid = true ∧ (s'.buf b).dirty = false ∧
          ((∀ s a, ok s a → Clean s a) →
            (s'.buf b).data = s'.disk ((s'.buf b).dev % 2) (s'.buf b).blockno) := by
  obtain ⟨Q, hinv⟩ := h.inv (fun hc : ∀ s a, ok s a → Clean s a => hc)
  -- a step of any kind, clean or not
  have hstep : ∀ {a m}, allowed s a → program s a = some m → _ := fun ha hm =>
    step_spec (hinv.mono False.elim) ha False.elim hm
  refine ⟨Q, hinv.chain, hinv.chain.nodup, hinv.history, ?_, ?_, hinv.asleep, ?_, ?_, ?_⟩
  · rw [hinv.drive, hinv.chain.head_eq]
  · intro b
    constructor
    · intro hb
      obtain ⟨hdone, p, hp⟩ := hinv.pending b hb
      exact ⟨p, hp, hdone⟩
    · rintro ⟨p, hp, hdone⟩
      by_contra hb
      rw [(hinv.waits p b hp hb).1] at hdone
      cases hdone
  · intro error r s' hs
    obtain ⟨m, hm, hrun⟩ := Option.map_eq_some_iff.mp hs
    simp only [program] at hm
    split at hm
    · next c hd =>
        cases hm
        have hwp : wp (ideintr error >>= fun _ => pure false) (fun (_ : Bool) s' =>
            ∃ b, Q.head? = some b ∧ s'.completed = s.completed ++ [b])
            (fun e => e ∈ refusals) s := by
          refine wp_seq (interrupt_spec (hinv.mono False.elim) hd False.elim) ?_
          rintro _ s' ⟨b, Q', rfl, -, hs'⟩
          exact ⟨b, rfl, hs'⟩
        exact wp_of_ok hwp hrun
    · cases hm
  · intro a e ha hs
    obtain ⟨m, hm, hrun⟩ := Option.map_eq_some_iff.mp hs
    exact wp_of_error (hstep ha hm) hrun
  · intro a s' ha hs
    obtain ⟨m, hm, hrun⟩ := Option.map_eq_some_iff.mp hs
    obtain ⟨p, b, rfl, hp, hb, hdone, rfl⟩ := (wp_of_ok (hstep ha hm) hrun).2 rfl
    have hflags : (s.buf b).valid = true ∧ (s.buf b).dirty = false := by
      simpa [Buf.done] using hdone
    exact ⟨p, b, rfl, hp, (hinv.waits p b ⟨_, hp⟩ hb).2, hflags.1, hflags.2,
      fun hc => hinv.kept hc p b ⟨_, hp⟩ hb⟩

/-! ## One read -/

def first : BufPtr := ⟨0, by decide⟩

/-- Buffers with `data` in them, for a block that has `contents`. -/
def unread (data contents : Nat) : Driver Nat where
  buf := fun _ => ⟨true, false, false, 0, 5, none, data⟩
  idequeue := none
  havedisk1 := false
  drive := none
  disk := fun _ _ => contents
  thread := fun _ => .idle
  requests := []
  completed := []

/-- A step that is not the end of the run. -/
def next (s : Driver α) (a : Action α) : Option (Bool × Driver α) :=
  match step s a with
  | some (.ok x) => some x
  | _ => none

theorem step_of_next {a : Action α} {x : Bool × Driver α} (h : next s a = some x) :
    step s a = some (.ok x) := by
  rw [next] at h
  split at h
  · next hs =>
      cases h
      exact hs
  · cases h

/-- A call of `iderw`, the interrupt, and the return; with the states before and after
the last. -/
def readOnce (data contents : Nat) (error : Bool) : Option (Driver Nat × Bool × Driver Nat) := do
  let x ← next (unread data contents) (.rw 0 first)
  let y ← next x.2 (.interrupt error)
  let z ← next y.2 (.resume 0)
  return (y.2, z)

theorem readOnce_run (ok : Driver Nat → Action Nat → Prop) {data contents : Nat}
    {error : Bool} {x : Driver Nat × Bool × Driver Nat}
    (h : readOnce data contents error = some x)
    (hrw : ok (unread data contents) (.rw 0 first)) (hintr : ∀ s, ok s (.interrupt error)) :
    ReachableBy ok x.1 ∧ step x.1 (.resume 0) = some (.ok x.2) := by
  simp only [readOnce, Option.bind_eq_bind, Option.bind_eq_some_iff] at h
  obtain ⟨a, ha, b, hb, c, hc, he⟩ := h
  cases he
  have hunused : allowed (unread data contents) (.rw 0 first) := fun _ _ he => by cases he
  have hreach : ReachableBy ok (unread data contents) := .init _ _ _
  have hreach' : ReachableBy ok a.2 := .step hreach hunused hrw (step_of_next ha)
  have hintr' : allowed a.2 (.interrupt error) := trivial
  exact ⟨.step hreach' hintr' (hintr _) (step_of_next hb), step_of_next hc⟩

/-- The block is read and returned. -/
theorem block_read : ∃ s s' : Driver Nat, ReachableBy Clean s ∧
    step s (.resume 0) = some (.ok (true, s')) ∧ s.thread 0 = .waiting first false ∧
      (s'.buf first).data = s'.disk ((s'.buf first).dev % 2) (s'.buf first).blockno := by
  have hrun : (readOnce 0 7 false).any (fun x =>
      x.2.1 && x.1.thread 0 = .waiting first false) = true := by decide +kernel
  obtain ⟨⟨s, r, s'⟩, hx, hcheck⟩ := (Option.any_eq_true _ _).mp hrun
  obtain ⟨hr, hthread⟩ : r = true ∧ s.thread 0 = .waiting first false := by
    simpa using hcheck
  subst hr
  obtain ⟨hreach, hstep⟩ := readOnce_run Clean hx
    (fun q c ⟨_, hq⟩ => by cases hq) fun _ he => by cases he
  refine ⟨s, s', hreach, hstep, hthread, ?_⟩
  obtain ⟨-, -, -, -, -, -, -, -, -, hret⟩ := queue_served hreach
  obtain ⟨p, b, hp, hb, -, -, -, hdata⟩ := hret (.resume 0) _ trivial hstep
  cases hp
  cases hthread.symm.trans hb
  exact hdata fun _ _ h => h

/-- The drive reports an error: the call of `iderw` returns with the buffer valid, and with
what was in it before. -/
theorem read_error_returned : ∃ s s' : Driver Nat, ReachableBy (fun _ _ => True) s ∧
    s.thread 0 = .waiting first false ∧ step s (.resume 0) = some (.ok (true, s')) ∧
    (s'.buf first).valid = true ∧ (s'.buf first).dirty = false ∧
    (s'.buf first).data ≠ s'.disk ((s'.buf first).dev % 2) (s'.buf first).blockno := by
  have hrun : (readOnce 0 7 true).any (fun x =>
      x.2.1 && (x.1.thread 0 = .waiting first false ∧ (x.2.2.buf first).valid = true ∧
        (x.2.2.buf first).dirty = false ∧ (x.2.2.buf first).data ≠
          x.2.2.disk ((x.2.2.buf first).dev % 2) (x.2.2.buf first).blockno)) = true := by
    decide +kernel
  obtain ⟨⟨s, r, s'⟩, hx, hcheck⟩ := (Option.any_eq_true _ _).mp hrun
  rw [Bool.and_eq_true, decide_eq_true_eq] at hcheck
  obtain ⟨hr, hthread, hrest⟩ := hcheck
  cases hr
  obtain ⟨hreach, hstep⟩ := readOnce_run (fun _ _ => True) hx trivial fun _ => trivial
  exact ⟨s, s', hreach, hthread, hstep, hrest⟩

end

end Xv6Pdx.Ide
