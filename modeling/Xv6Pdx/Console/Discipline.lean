/-
# `Console.Discipline` — the console is a line editor with a queue behind it

`Editor` is what the user of a terminal expects: a line that can be edited, and
a stream of what has been committed.  `serve` is what a reader expects: bytes of
the stream up to a newline, and an end of file that is left for the next read if
it comes after some bytes.

The three indices of `input` represent an editor (`Inv`), every key and every
byte taken out keeps this up, and so does every run (`Reachable.inv`), however
often the indices have wrapped.
-/
import Xv6Pdx.Console.Model

namespace Xv6Pdx.Console

open Lib RingBuffer

/-! ## What is expected -/

/-- The committed stream, the line that is being edited, and how many bytes of
the stream have been taken out. -/
structure Editor where
  stream : List UInt8
  line : List UInt8
  taken : Nat
deriving DecidableEq, Repr

namespace Editor

/-- How many bytes are in the buffer. -/
def pending (ed : Editor) : Nat := ed.stream.length + ed.line.length - ed.taken

/-- A character is added to the line, if there is room. -/
def type (c : UInt8) (ed : Editor) : Editor :=
  if ed.pending < INPUT_BUF then
    let c := if c = carriageReturn then newline else c
    let ed := { ed with line := ed.line ++ [c] }
    if c = newline ∨ c = ctrl 'D' ∨ ed.pending = INPUT_BUF then
      { ed with stream := ed.stream ++ ed.line, line := [] }
    else ed
  else ed

def key (ed : Editor) (c : UInt8) : Editor :=
  if c ∈ listKeys ∨ c = 0 then ed
  else if c = ctrl 'U' then { ed with line := [] }
  else if c = ctrl 'H' ∨ c = delete then { ed with line := ed.line.dropLast }
  else ed.type c

def next (ed : Editor) : Event → Editor
  | .key c => ed.key c
  | .took => { ed with taken := ed.taken + 1 }

end Editor

/-- The editor after all that has happened. -/
def edited (es : List Event) : Editor := es.foldl Editor.next ⟨[], [], 0⟩

inductive Verdict where
  | returns
  | waits
deriving DecidableEq, Repr

/-- What a stretch of reading gives to the reader, and takes out of the stream. -/
structure Served where
  delivered : List UInt8
  consumed : List UInt8
  verdict : Verdict
deriving DecidableEq, Repr

/-- A reader that wants `n` bytes of what is left of the stream, and has none yet if
it is the `first` one. -/
def serve : Nat → Bool → List UInt8 → Served
  | 0, _, _ => ⟨[], [], .returns⟩
  | _ + 1, _, [] => ⟨[], [], .waits⟩
  | n + 1, first, c :: rest =>
    if c = ctrl 'D' then ⟨[], if first then [c] else [], .returns⟩
    else if c = newline then ⟨[c], [c], .returns⟩
    else
      let v := serve n false rest
      ⟨c :: v.delivered, c :: v.consumed, v.verdict⟩

/-! ## The indices represent an editor -/

structure Inv (s : Sys) (ed : Editor) : Prop where
  holds : Holds INPUT_BUF UINT s.input.ring s.consumed (ed.stream ++ ed.line)
  written : s.input.w = ed.stream.length % UINT
  taken : ed.taken = s.consumed.length
  order : s.consumed <+: ed.stream
  full : ed.pending = INPUT_BUF → ed.line = []
  line : newline ∉ ed.line
  asleep : ∀ p n target got, s.thread p = .reading n target got true → s.consumed = ed.stream
  reading : ∀ p n target got b, s.thread p = .reading n target got b → got.length + n = target

section

variable {s : Sys} {ed : Editor}

theorem uint_pos : 0 < UINT := by decide

theorem buf_dvd : INPUT_BUF ∣ UINT := by decide

theorem buf_lt : INPUT_BUF < UINT := by decide

namespace Inv

theorem r_lt (h : Inv s ed) : s.input.r < UINT := by
  have hr : s.input.r = s.consumed.length % UINT := h.holds.nread
  rw [hr]
  exact Nat.mod_lt _ uint_pos

theorem length_le (h : Inv s ed) : s.consumed.length ≤ ed.stream.length := h.order.length_le

theorem room (h : Inv s ed) :
    ed.stream.length + ed.line.length ≤ s.consumed.length + INPUT_BUF := by
  have := h.holds.room
  rwa [List.length_append] at this

theorem pending_eq (h : Inv s ed) :
    ed.pending = ed.stream.length + ed.line.length - s.consumed.length := by
  rw [Editor.pending, h.taken]

theorem minus_e_r (h : Inv s ed) : minus s.input.e s.input.r = ed.pending := by
  have hcount := h.holds.count buf_lt
  rw [List.length_append, ← h.pending_eq] at hcount
  rw [← hcount, minus, Nat.add_sub_assoc (Nat.le_of_lt h.r_lt)]
  rfl

theorem minus_w_r (h : Inv s ed) :
    minus s.input.w s.input.r = ed.stream.length - s.consumed.length := by
  have hr : s.input.r = s.consumed.length % UINT := h.holds.nread
  have hroom := h.room
  have hlt := buf_lt
  rw [minus, Nat.add_sub_assoc (Nat.le_of_lt h.r_lt), h.written, hr,
    distance h.length_le (by omega)]

theorem minus_e_w (h : Inv s ed) : minus s.input.e s.input.w = ed.line.length := by
  have he : s.input.e = (ed.stream ++ ed.line).length % UINT := h.holds.nwrite
  have hroom := h.room
  have hle := h.length_le
  have hlt := buf_lt
  have hw : s.input.w < UINT := by
    rw [h.written]
    exact Nat.mod_lt _ uint_pos
  rw [minus, Nat.add_sub_assoc (Nat.le_of_lt hw), he, h.written, List.length_append,
    distance (Nat.le_add_right _ _) (by omega), Nat.add_sub_cancel_left]

theorem empty_iff (h : Inv s ed) : s.input.r = s.input.w ↔ s.consumed = ed.stream := by
  have hr : s.input.r = s.consumed.length % UINT := h.holds.nread
  have hroom := h.room
  have hlt := buf_lt
  rw [hr, h.written]
  constructor
  · intro he
    exact h.order.eq_of_length (mod_inj h.length_le (by omega) he)
  · intro he
    rw [he]

theorem unedited_iff (h : Inv s ed) : s.input.e = s.input.w ↔ ed.line = [] := by
  have he : s.input.e = (ed.stream ++ ed.line).length % UINT := h.holds.nwrite
  have hroom := h.room
  have hle := h.length_le
  have hlt := buf_lt
  rw [he, h.written, List.length_append]
  constructor
  · intro heq
    have := mod_inj (Nat.le_add_right _ _) (by omega) heq.symm
    exact List.length_eq_zero_iff.mp (by omega)
  · intro hnil
    rw [hnil]
    rfl

theorem awake (h : Inv s ed) (hne : s.consumed ≠ ed.stream) {p n target : Nat}
    {got : List UInt8} : s.thread p ≠ .reading n target got true :=
  fun hp => hne (h.asleep p n target got hp)

/-! ### Keys -/

theorem erase {l : List UInt8} {c : UInt8} (h : Inv s { ed with line := l ++ [c] }) :
    Inv s.erase { ed with line := l } := by
  have hholds : Holds INPUT_BUF UINT s.input.ring s.consumed (ed.stream ++ l ++ [c]) := by
    rw [List.append_assoc]
    exact h.holds
  have hle : s.consumed.length ≤ (ed.stream ++ l).length := by
    rw [List.length_append]
    exact Nat.le_add_right_of_le h.length_le
  refine ⟨hholds.unpush uint_pos hle, h.written, h.taken, h.order, ?_, ?_, h.asleep, h.reading⟩
  · intro hfull
    have hroom := h.room
    have htaken : ed.taken = s.consumed.length := h.taken
    have hstream : s.consumed.length ≤ ed.stream.length := h.length_le
    simp only [Editor.pending, List.length_append, List.length_singleton] at hfull hroom
    have : 0 < INPUT_BUF := by decide
    omega
  · exact fun hm => h.line (List.mem_append_left _ hm)

/-- The last character of the line is in the cell before the edit index. -/
theorem last {l : List UInt8} {c : UInt8} (h : Inv s { ed with line := l ++ [c] }) :
    s.input.buf (back UINT s.input.e % INPUT_BUF) = c := by
  have he : s.input.e = (ed.stream ++ (l ++ [c])).length % UINT := h.holds.nwrite
  have hle : s.consumed.length ≤ ed.stream.length := h.length_le
  have hdata := h.holds.data (ed.stream.length + l.length) (by omega) (by simp)
  have hlen : (ed.stream ++ (l ++ [c])).length = ed.stream.length + l.length + 1 := by
    simp [Nat.add_assoc]
  have hidx : back UINT s.input.e % INPUT_BUF = (ed.stream.length + l.length) % INPUT_BUF := by
    rw [he, hlen, back_mod uint_pos, Nat.mod_mod_of_dvd _ buf_dvd]
  rw [hidx]
  have hget : (ed.stream ++ (l ++ [c]))[ed.stream.length + l.length]? = some c := by
    rw [← List.append_assoc, ← List.length_append, List.getElem?_concat_length]
  exact Option.some.inj (hdata.symm.trans hget)

theorem killLine (h : Inv s ed) : ∀ {l : List UInt8}, ed.line = l →
    Inv (s.killLine l.length) { ed with line := [] } := by
  intro l
  induction l using List.reverseRecOn generalizing s ed with
  | nil =>
    intro hl
    show Inv s { ed with line := [] }
    rw [← hl]
    exact h
  | append_singleton l c ih =>
    intro hl
    have h' : Inv s { ed with line := l ++ [c] } := by
      rw [← hl]
      exact h
    have hline : newline ∉ l ++ [c] := h'.line
    have hne : s.input.e ≠ s.input.w := by
      rw [ne_eq, h'.unedited_iff]
      simp
    have hc : c ≠ newline := by
      rintro rfl
      exact hline (by simp)
    rw [List.length_append, List.length_singleton, Sys.killLine,
      if_pos ⟨hne, by rw [h'.last]; exact hc⟩]
    exact @ih _ { ed with line := l } h'.erase rfl

theorem store {c : UInt8} (h : Inv s ed) (hroom : ed.pending < INPUT_BUF) :
    Holds INPUT_BUF UINT (s.store c).input.ring s.consumed (ed.stream ++ (ed.line ++ [c])) := by
  have hlen : (ed.stream ++ ed.line).length < s.consumed.length + INPUT_BUF := by
    rw [h.pending_eq] at hroom
    have := h.length_le
    rw [List.length_append]
    omega
  rw [← List.append_assoc]
  exact h.holds.push buf_dvd hlen c

/-- The line becomes part of the stream, and everybody is woken. -/
theorem commit (hholds : Holds INPUT_BUF UINT s.input.ring s.consumed (ed.stream ++ ed.line))
    (htaken : ed.taken = s.consumed.length) (horder : s.consumed <+: ed.stream)
    (hreading : ∀ p n target got b, s.thread p = .reading n target got b →
      got.length + n = target) :
    Inv s.commit { ed with stream := ed.stream ++ ed.line, line := [] } := by
  refine ⟨?_, ?_, htaken, ?_, fun _ => rfl, by simp, ?_, ?_⟩
  · rw [List.append_nil]
    exact hholds
  · exact hholds.nwrite
  · exact horder.trans (List.prefix_append _ _)
  · intro p n target got hp
    have : (s.thread p).awake = .reading n target got true := hp
    cases ht : s.thread p with
    | idle =>
      rw [ht] at this
      cases this
    | reading n' target' got' b =>
      rw [ht] at this
      cases this
  · intro p n target got b hp
    have hp' : (s.thread p).awake = .reading n target got b := hp
    cases ht : s.thread p with
    | idle =>
      rw [ht] at hp'
      cases hp'
    | reading n' target' got' b' =>
      rw [ht] at hp'
      cases hp'
      exact hreading p _ _ _ _ ht

theorem enter {c : UInt8} (h : Inv s ed) (hc : c ≠ 0) : Inv (s.enter c) (ed.type c) := by
  rw [Sys.enter, Editor.type, h.minus_e_r]
  by_cases hroom : ed.pending < INPUT_BUF
  · rw [if_pos ⟨hc, hroom⟩, if_pos hroom]
    generalize (if c = carriageReturn then newline else c) = d
    have hholds := h.store (c := d) hroom
    have hle := h.length_le
    -- the index reaches the read index when the buffer is full
    have hfull : (s.store d).input.e = ((s.store d).input.r + INPUT_BUF) % UINT ↔
        ({ ed with line := ed.line ++ [d] } : Editor).pending = INPUT_BUF := by
      have hiff := hholds.isFull_iff buf_lt
      rw [isFull] at hiff
      refine hiff.trans ?_
      simp only [Editor.pending, h.taken, List.length_append, List.length_singleton]
      omega
    simp only [hfull]
    split
    · exact @commit _ { ed with line := ed.line ++ [d] } hholds h.taken h.order h.reading
    · next hno =>
        rw [not_or, not_or] at hno
        refine ⟨hholds, h.written, h.taken, h.order, fun hp => absurd hp hno.2.2, ?_, h.asleep,
          h.reading⟩
        intro hm
        rcases List.mem_append.mp hm with hm | hm
        · exact h.line hm
        · exact hno.1 (List.mem_singleton.mp hm).symm
  · rw [if_neg fun hcond => hroom hcond.2, if_neg hroom]
    exact h

theorem handle (h : Inv s ed) (c : UInt8) : Inv (s.handle c) (ed.key c) := by
  rw [Sys.handle, Editor.key]
  by_cases hlist : c ∈ listKeys
  · rw [if_pos hlist, if_pos (Or.inl hlist)]
    exact h
  rw [if_neg hlist]
  by_cases hzero : c = 0
  · rw [if_pos (Or.inr hzero), hzero, if_neg (by decide), if_neg (by decide), Sys.enter,
      if_neg (by simp)]
    exact h
  rw [if_neg (not_or.mpr ⟨hlist, hzero⟩)]
  split
  · rw [h.minus_e_w]
    exact h.killLine rfl
  · split
    · split
      · next hne =>
          obtain ⟨l, d, hl⟩ : ∃ l d, ed.line = l ++ [d] := by
            rw [ne_eq, h.unedited_iff] at hne
            exact ⟨_, _, (List.dropLast_append_getLast hne).symm⟩
          rw [hl, List.dropLast_concat]
          have h' : Inv s { ed with line := l ++ [d] } := by
            rw [← hl]
            exact h
          exact h'.erase
      · next he =>
          have hnil : ed.line = [] := h.unedited_iff.mp (not_not.mp he)
          have hed : { ed with line := ed.line.dropLast } = ed := by
            rw [hnil]
            cases ed
            simp_all
          rw [hed]
          exact h
    · exact h.enter hzero

/-! ### Reading -/

theorem threads {f : Nat → Thread} (h : Inv s ed)
    (hsleep : ∀ p n target got, f p = .reading n target got true → s.consumed = ed.stream)
    (hread : ∀ p n target got b, f p = .reading n target got b → got.length + n = target) :
    Inv { s with thread := f } ed :=
  ⟨h.holds, h.written, h.taken, h.order, h.full, h.line, hsleep, hread⟩

theorem setThread {p : Nat} {t : Thread} (h : Inv s ed)
    (hsleep : ∀ n target got, t = .reading n target got true → s.consumed = ed.stream)
    (hread : ∀ n target got b, t = .reading n target got b → got.length + n = target) :
    Inv (s.setThread p t) ed := by
  refine h.threads ?_ ?_
  · intro q n target got hq
    rcases eq_or_ne q p with rfl | hne
    · rw [Function.update_self] at hq
      exact hsleep n target got hq
    · rw [Function.update_of_ne hne] at hq
      exact h.asleep q n target got hq
  · intro q n target got b hq
    rcases eq_or_ne q p with rfl | hne
    · rw [Function.update_self] at hq
      exact hread n target got b hq
    · rw [Function.update_of_ne hne] at hq
      exact h.reading q n target got b hq

theorem idle {p : Nat} (h : Inv s ed) : Inv (s.setThread p .idle) ed :=
  h.setThread (fun _ _ _ he => by cases he) (fun _ _ _ _ he => by cases he)

theorem next (h : Inv s ed) (hne : s.consumed ≠ ed.stream) :
    ed.stream.drop s.consumed.length = s.front :: ed.stream.drop (s.consumed.length + 1) := by
  have hlt : s.consumed.length < ed.stream.length :=
    lt_of_le_of_ne h.length_le fun he => hne (h.order.eq_of_length he)
  have hfront := h.holds.front buf_dvd (by rw [List.length_append]; omega)
  rw [List.getElem?_append_left hlt, List.getElem?_eq_getElem hlt] at hfront
  rw [List.drop_eq_getElem_cons hlt, Option.some.inj hfront]
  rfl

theorem takeOut (h : Inv s ed) (hne : s.consumed ≠ ed.stream) :
    Inv s.takeOut { ed with taken := ed.taken + 1 } := by
  have hlt : s.consumed.length < ed.stream.length :=
    lt_of_le_of_ne h.length_le fun he => hne (h.order.eq_of_length he)
  have hpop := h.holds.pop buf_dvd (by rw [List.length_append]; omega)
  have hlen : (s.consumed ++ [s.front]).length ≤ ed.stream.length := by
    rw [List.length_append, List.length_singleton]
    exact hlt
  refine ⟨hpop, h.written, ?_, ?_, ?_, h.line, ?_, h.reading⟩
  · show ed.taken + 1 = (s.consumed ++ [s.front]).length
    rw [h.taken, List.length_append, List.length_singleton]
  · exact List.prefix_of_prefix_length_le hpop.order (List.prefix_append _ _) hlen
  · intro hfull
    have hroom := h.room
    have htaken := h.taken
    simp only [Editor.pending] at hfull
    omega
  · intro p n target got hp
    exact absurd hp (h.awake hne)

theorem putBack_takeOut (h : Inv s ed) : s.takeOut.putBack = s := by
  have hr : s.input.r = s.consumed.length % UINT := h.holds.nread
  have hback : back UINT ((s.input.r + 1) % UINT) = s.input.r := by
    rw [back_mod uint_pos, Nat.mod_eq_of_lt h.r_lt]
  simp only [Sys.putBack, Sys.takeOut, hback, List.dropLast_concat]

end Inv

/-- How a stretch of reading with `n` of `target` bytes to go ends, when the reader
is served `v`. -/
inductive Ends (s : Sys) (p n target : Nat) (got : List UInt8) (v : Served) :
    Sys × Option Return → Prop where
  | returns {s' : Sys} : v.verdict = .returns → s'.thread p = .idle →
      Ends s p n target got v (s', some ⟨(got ++ v.delivered).length, got ++ v.delivered⟩)
  | killed {s' : Sys} : v.verdict = .waits → s.killed p = true → s'.thread p = .idle →
      Ends s p n target got v (s', some ⟨-1, got ++ v.delivered⟩)
  | sleeps {s' : Sys} : v.verdict = .waits → s.killed p = false →
      s'.thread p = .reading (n - v.delivered.length) target (got ++ v.delivered) true →
      Ends s p n target got v (s', none)

/-- A stretch of reading serves the reader from what is left of the stream. -/
structure Reads (s : Sys) (ed : Editor) (p n target : Nat) (got : List UInt8) (v : Served)
    (res : Sys × Option Return) : Prop where
  inv : Inv res.1 { ed with taken := ed.taken + v.consumed.length }
  events : res.1.events = s.events ++ List.replicate v.consumed.length .took
  consumed : res.1.consumed = s.consumed ++ v.consumed
  ends : Ends s p n target got v res

theorem setThread_self (s : Sys) (p : Nat) (t : Thread) : (s.setThread p t).thread p = t :=
  Function.update_self ..

theorem Ends.done (s s' : Sys) {p n target : Nat} {got : List UInt8} (cs : List UInt8)
    (hgot : got.length + n = target) :
    Ends s p n target got ⟨[], cs, .returns⟩ (s'.done p n target got) := by
  have hval : (target : Int) - n = (got ++ ([] : List UInt8)).length := by
    rw [List.append_nil]
    omega
  have hends : Ends s p n target got ⟨[], cs, .returns⟩ _ :=
    .returns rfl (setThread_self s' p .idle)
  rw [← hval, List.append_nil] at hends
  exact hends

theorem Reads.done (h : Inv s ed) {p n target : Nat} {got : List UInt8}
    (hgot : got.length + n = target) :
    Reads s ed p n target got ⟨[], [], .returns⟩ (s.done p n target got) :=
  ⟨h.idle, (List.append_nil _).symm, (List.append_nil _).symm, .done s s [] hgot⟩

/-- A byte is taken out, and what follows is read from there. -/
theorem Reads.step {c : UInt8} (hc : s.front = c) {p n target : Nat} {got : List UInt8}
    {v : Served} {res : Sys × Option Return}
    (h : Reads s.takeOut { ed with taken := ed.taken + 1 } p n target (got ++ [c]) v res) :
    Reads s ed p (n + 1) target got ⟨c :: v.delivered, c :: v.consumed, v.verdict⟩ res := by
  have happ : ∀ l : List UInt8, got ++ [c] ++ l = got ++ c :: l := by simp
  refine ⟨?_, ?_, ?_, ?_⟩
  · have := h.inv
    simp only [List.length_cons]
    rwa [Nat.add_assoc, Nat.add_comm 1] at this
  · rw [h.events]
    simp [Sys.takeOut, List.replicate_succ]
  · rw [h.consumed]
    simp [Sys.takeOut, hc]
  · have hends := h.ends
    cases hends with
    | returns hv ht =>
      rw [happ]
      exact .returns hv ht
    | killed hv hk ht =>
      rw [happ]
      exact .killed hv hk ht
    | sleeps hv hk ht =>
      rw [happ] at ht
      refine .sleeps hv hk ?_
      rw [ht, List.length_cons, Nat.add_sub_add_right]

theorem readLoop_serves (p target : Nat) : ∀ {n : Nat} {got : List UInt8} {s : Sys} {ed : Editor},
    Inv s ed → got.length + n = target →
    Reads s ed p n target got
      (serve n (decide (n = target)) (ed.stream.drop s.consumed.length))
      (s.readLoop p target n got) := by
  intro n
  induction n with
  | zero =>
    intro got s ed h hgot
    exact .done h hgot
  | succ n ih =>
    intro got s ed h hgot
    rw [Sys.readLoop]
    split
    · next hempty =>
        have heq := h.empty_iff.mp hempty
        have hv : serve (n + 1) (decide (n + 1 = target)) (ed.stream.drop s.consumed.length) =
            ⟨[], [], .waits⟩ := by
          rw [heq, List.drop_length]
          rfl
        rw [hv]
        split
        · next hk =>
            refine ⟨h.idle, (List.append_nil _).symm, (List.append_nil _).symm, ?_⟩
            have hends : Ends s p (n + 1) target got ⟨[], [], .waits⟩ _ :=
              .killed rfl hk (setThread_self s p .idle)
            rwa [List.append_nil] at hends
        · next hk =>
            refine ⟨h.setThread (fun _ _ _ _ => heq) ?_, (List.append_nil _).symm,
              (List.append_nil _).symm, .sleeps rfl (Bool.not_eq_true _ ▸ hk) ?_⟩
            · intro n' target' got' b he
              cases he
              exact hgot
            · rw [List.append_nil]
              exact setThread_self s p _
    · next hsome =>
        have hne : s.consumed ≠ ed.stream := fun he => hsome (h.empty_iff.mpr he)
        rw [h.next hne]
        have htake := h.takeOut hne
        dsimp only
        rw [serve]
        split
        · -- the end of file is taken out only by a reader that has nothing yet
          next hd =>
            by_cases hfirst : n + 1 = target
            · have hno : ¬ n + 1 < target := by omega
              simp only [hno, if_false, decide_eq_true hfirst, if_true]
              exact ⟨htake.idle, rfl, rfl, .done s s.takeOut _ hgot⟩
            · have hlt : n + 1 < target := by omega
              simp only [hlt, if_true, decide_eq_false hfirst, h.putBack_takeOut]
              exact .done h hgot
        · have hgot' : (got ++ [s.front]).length + n = target := by
            rw [List.length_append, List.length_singleton]
            omega
          split
          · exact Reads.step (v := ⟨[], [], .returns⟩) rfl (.done htake hgot')
          · refine Reads.step rfl ?_
            have hrec := ih htake hgot'
            have hlen : (s.takeOut).consumed.length = s.consumed.length + 1 := by
              simp [Sys.takeOut]
            rw [hlen, decide_eq_false (by omega)] at hrec
            exact hrec

/-! ## Runs -/

theorem edited_key (es : List Event) (c : UInt8) : edited (es ++ [.key c]) = (edited es).key c := by
  rw [edited, List.foldl_append]
  rfl

theorem edited_took (es : List Event) (k : Nat) : edited (es ++ List.replicate k .took) =
    { edited es with taken := (edited es).taken + k } := by
  induction k with
  | zero => simp
  | succ k ih =>
    rw [List.replicate_succ', ← List.append_assoc, edited, List.foldl_append, ← edited, ih]
    rfl

theorem Inv.consoleintr : ∀ (cs : List UInt8) {s : Sys}, Inv s (edited s.events) →
    Inv (s.consoleintr cs) (edited (s.consoleintr cs).events) := by
  intro cs
  induction cs with
  | nil => exact fun h => h
  | cons c cs ih =>
    intro s h
    refine ih ?_
    show Inv _ (edited (s.events ++ [.key c]))
    rw [edited_key]
    obtain ⟨h1, h2, h3, h4, h5, h6, h7, h8⟩ := h.handle c
    exact ⟨h1, h2, h3, h4, h5, h6, h7, h8⟩

theorem Inv.kill (h : Inv s ed) (p : Nat) : Inv (s.kill p) ed := by
  have hset := h.setThread (p := p) (t := (s.thread p).awake) ?_ ?_
  · exact ⟨hset.holds, hset.written, hset.taken, hset.order, hset.full, hset.line, hset.asleep,
      hset.reading⟩
  · intro n target got he
    cases ht : s.thread p with
    | idle =>
      rw [ht] at he
      cases he
    | reading n' target' got' b =>
      rw [ht] at he
      cases he
  · intro n target got b he
    cases ht : s.thread p with
    | idle =>
      rw [ht] at he
      cases he
    | reading n' target' got' b' =>
      rw [ht] at he
      cases he
      exact h.reading p _ _ _ _ ht

theorem Inv.begins (h : Inv s ed) {p n target : Nat} {got : List UInt8} {what : Stretch}
    (hw : what.begins (s.thread p) = some (n, target, got)) : got.length + n = target := by
  cases ht : s.thread p with
  | idle =>
    rw [ht] at hw
    cases what with
    | read n =>
      cases hw
      simp
    | resume => cases hw
  | reading n' target' got' b =>
    rw [ht] at hw
    cases what with
    | read n => cases hw
    | resume =>
      cases b with
      | true => cases hw
      | false =>
        cases hw
        exact h.reading p _ _ _ _ ht

theorem Inv.mark {res : Sys} (h : Inv res ed) (p : Nat) (late : Bool) :
    Inv (res.mark p late) ed := by
  rw [Sys.mark]
  split
  · exact ⟨h.holds, h.written, h.taken, h.order, h.full, h.line, h.asleep, h.reading⟩
  · exact h

theorem step_inv (h : Inv s (edited s.events)) {a : Action} {s' : Sys} {r : Option Return}
    (hs : step s a = some (s', r)) : Inv s' (edited s'.events) := by
  cases a with
  | intr cs =>
    cases hs
    exact h.consoleintr cs
  | kill p =>
    cases hs
    exact h.kill p
  | run p what late =>
    rw [step] at hs
    split at hs
    · cases hs
    · next n target got hw =>
        cases hs
        have hread := readLoop_serves p target h (h.begins hw)
        have hevents : ((s.readLoop p target n got).1.mark p late).events =
            (s.readLoop p target n got).1.events := by
          rw [Sys.mark]
          split <;> rfl
        rw [hevents, hread.events, edited_took]
        exact hread.inv.mark p late

theorem Reachable.inv (h : Reachable s) : Inv s (edited s.events) := by
  induction h with
  | init buf =>
    have hholds : Holds INPUT_BUF UINT (start buf).input.ring [] [] :=
      ⟨rfl, rfl, List.prefix_refl _, by simp, by simp⟩
    refine ⟨hholds, rfl, rfl, List.prefix_refl _, fun _ => rfl, ?_, ?_, ?_⟩
    · exact fun hm => by cases hm
    · intro _ _ _ _ he
      cases he
    · intro _ _ _ _ _ he
      cases he
  | step _ hs ih => exact step_inv ih hs

/-- Nobody sleeps while there is something to read, and what has been consumed is the
beginning of what the editor has committed. -/
theorem line_discipline (h : Reachable s) : minus s.input.w s.input.r ≤ minus s.input.e s.input.r ∧
    minus s.input.e s.input.r ≤ INPUT_BUF ∧
    (minus s.input.e s.input.r = INPUT_BUF → s.input.w = s.input.e) ∧
    (∀ p n target got, s.thread p = .reading n target got true → s.input.r = s.input.w) ∧
    s.consumed <+: (edited s.events).stream ∧
    (edited s.events).taken = s.consumed.length ∧
    ∀ p what n target got, Stretch.begins what (s.thread p) = some (n, target, got) →
      Reads s (edited s.events) p n target got
        (serve n (decide (n = target)) ((edited s.events).stream.drop s.consumed.length))
        (s.readLoop p target n got) := by
  have hinv := h.inv
  have hroom := hinv.room
  have hle := hinv.length_le
  rw [hinv.minus_w_r, hinv.minus_e_r]
  refine ⟨?_, ?_, ?_, ?_, hinv.order, hinv.taken, ?_⟩
  · rw [hinv.pending_eq]
    omega
  · rw [hinv.pending_eq]
    omega
  · exact fun hfull => (hinv.unedited_iff.mpr (hinv.full hfull)).symm
  · exact fun p n target got hp => hinv.empty_iff.mpr (hinv.asleep p n target got hp)
  · exact fun p what n target got hw => readLoop_serves p target hinv (hinv.begins hw)

/-- `hi`, a correction and the return key are typed, and a process reads the line. -/
theorem line_read : ∃ s, Reachable s ∧ s.consumed = [104, 105, 10] ∧
    s.consumed <+: (edited s.events).stream := by
  have hrun : ((step (start fun _ => 0) (.intr [104, 111, 8, 105, 13])).bind fun s =>
      (step s.1 (.run 0 (.read 10) false)).map fun s => s.1.consumed) =
        some [104, 105, 10] := by decide +kernel
  obtain ⟨s₁, h₁, hrest⟩ := Option.bind_eq_some_iff.mp hrun
  obtain ⟨s₂, h₂, hcons⟩ := Option.map_eq_some_iff.mp hrest
  have hreach : Reachable s₂.1 := .step (.step (.init _) h₁) h₂
  exact ⟨s₂.1, hreach, hcons, (line_discipline hreach).2.2.2.2.1⟩

end

end Xv6Pdx.Console
