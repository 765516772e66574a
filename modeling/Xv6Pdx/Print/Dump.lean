/-
# `Print.Dump` — the dumps of the process lists

`readydump`, `sleepdump` and `zombiedump` print the head of a list and then go
through it in a loop, until they come to the last process.  `sleepdump` advances
and then prints.  The other two print and then advance: the head is printed
twice, and the last process not at all.  `freedump` counts.

A dump is the list of its calls of `cprintf`.  What it should print is said apart
from the formats: a `Layout` has the texts for the head and for each other
process, with the numerals of their fields in them.
-/
import Xv6Pdx.Print.Elapsed
import Xv6Pdx.Proc.Refine

namespace Xv6Pdx.Print

open Lib Decimal
open Fs (toInt toUint)
open Ptable (ProcPtr StateList NPROC)

/-- A call of `cprintf`: the format, the words that come first, and the processes whose
fields come then. -/
structure Call where
  fmt : String
  lead : List Nat
  procs : List ProcPtr

/-- What the calls print; `fields` are the arguments for a process. -/
def render (mem : Strings) (fields : ProcPtr → List Nat) : List Call → Option (List Char)
  | [] => some []
  | c :: cs => emit (Kernel.cprintf mem c.fmt.toList (c.lead ++ c.procs.flatMap fields))
      (render mem fields cs)

/-- The processes that are printed, in order. -/
def shown (cs : List Call) : List ProcPtr := cs.flatMap Call.procs

/-! ## The dumps -/

section Loops

variable (next : ProcPtr → Option ProcPtr) (fmt : String)

/-- `while (head->next != 0) { cprintf(fmt, head); head = head->next; }`; `none` if the
list does not end. -/
def printAdvance : Nat → ProcPtr → Option (List Call)
  | 0, _ => none
  | n + 1, head =>
    match next head with
    | none => some []
    | some h => (printAdvance n h).map (⟨fmt, [], [head]⟩ :: ·)

/-- `while (head->next != 0) { head = head->next; cprintf(fmt, head); }`. -/
def advancePrint : Nat → ProcPtr → Option (List Call)
  | 0, _ => none
  | n + 1, head =>
    match next head with
    | none => some []
    | some h => (advancePrint n h).map (⟨fmt, [], [h]⟩ :: ·)

/-- `while (head != 0) { counter++; head = head->next; }`. -/
def countLoop : Nat → Nat → Option ProcPtr → Option Nat
  | _, counter, none => some counter
  | 0, _, some _ => none
  | n + 1, counter, some head => countLoop n (counter + 1) (next head)

end Loops

/-- The dump of one list: a text if it is empty, otherwise the head and the loop. -/
def dumpList (k : Ptable.Kernel) (l : StateList) (empty : Call) (first : ProcPtr → Call)
    (loop : Nat → ProcPtr → Option (List Call)) : Option (List Call) :=
  match k.pLists.head l with
  | none => some [empty, ⟨"\n", [], []⟩]
  | some head => (loop (NPROC + 1) head).map fun rest =>
    first head :: (rest ++ [⟨"\n", [], []⟩])

/-- One turn of the loop of `readydump`. -/
def readyLevel (k : Ptable.Kernel) (i : Nat) : Option (List Call) :=
  dumpList k (.ready i) ⟨"No ready processes at priority %d.", [i], []⟩
    (fun head => ⟨"Ready processes at priority %d: %d (budget %d)", [i], [head]⟩)
    (printAdvance k.pLists.next " -> %d (%d)")

/-- `readydump`, for each priority. -/
def readydump (maxPrio : Nat) (k : Ptable.Kernel) : Option (List (List Call)) :=
  (List.range (maxPrio + 1)).mapM (readyLevel k)

def sleepdump (k : Ptable.Kernel) : Option (List Call) :=
  dumpList k .sleep ⟨"No sleeping processes.", [], []⟩
    (fun head => ⟨"Sleeping processes: %d", [], [head]⟩)
    (advancePrint k.pLists.next " -> %d")

def zombiedump (k : Ptable.Kernel) : Option (List Call) :=
  dumpList k .zombie ⟨"No zombie processes.", [], []⟩
    (fun head => ⟨"Zombie processes (PID, PPID): (%d,%d)", [], [head]⟩)
    (printAdvance k.pLists.next " -> (%d,%d)")

def freedump (k : Ptable.Kernel) : Option (List Call) :=
  (countLoop k.pLists.next (NPROC + 1) 0 (k.pLists.head .free)).map fun counter =>
    [⟨"Free list size: %d processes.\n", [counter], []⟩]

def readyFields (k : Ptable.Kernel) (p : ProcPtr) : List Nat :=
  [(k.proc p).pid, toUint (k.proc p).budget]

def sleepFields (k : Ptable.Kernel) (p : ProcPtr) : List Nat := [(k.proc p).pid]

def zombieFields (low : Nat) (k : Ptable.Kernel) (p : ProcPtr) : List Nat :=
  [(k.proc p).pid, Ptable.parentPid low k p]

/-! ## What they should print -/

/-- What `%d` prints for a word. -/
def decimal (w : Nat) : List Char := (Kernel.printint (toInt w) 10 true).getD []

/-- The texts, with the numerals of the words between them. -/
def between : List String → List Nat → List Char
  | t :: ts, w :: ws => t.toList ++ (decimal w ++ between ts ws)
  | ts, _ => ts.flatMap String.toList

/-- The line for a list: a text if it is empty, otherwise one for its head and one for
each process behind it. -/
structure Layout where
  empty : List Char
  first : ProcPtr → List Char
  item : ProcPtr → List Char

def Layout.line (L : Layout) : List ProcPtr → List Char
  | [] => L.empty ++ ['\n']
  | p :: ps => L.first p ++ (ps.flatMap L.item ++ ['\n'])

def readyLayout (k : Ptable.Kernel) (i : Nat) : Layout where
  empty := between ["No ready processes at priority ", "."] [i]
  first p := between ["Ready processes at priority ", ": ", " (budget ", ")"]
    [i, (k.proc p).pid, toUint (k.proc p).budget]
  item p := between [" -> ", " (", ")"] [(k.proc p).pid, toUint (k.proc p).budget]

def sleepLayout (k : Ptable.Kernel) : Layout where
  empty := between ["No sleeping processes."] []
  first p := between ["Sleeping processes: ", ""] [(k.proc p).pid]
  item p := between [" -> ", ""] [(k.proc p).pid]

def zombieLayout (low : Nat) (k : Ptable.Kernel) : Layout where
  empty := between ["No zombie processes."] []
  first p := between ["Zombie processes (PID, PPID): (", ",", ")"]
    [(k.proc p).pid, Ptable.parentPid low k p]
  item p := between [" -> (", ",", ")"] [(k.proc p).pid, Ptable.parentPid low k p]

/-- The dump returns; the processes it takes the fields of are `xs`, in this order, and the
text is the line for them. -/
def Prints (mem : Strings) (fields : ProcPtr → List Nat) (L : Layout) (dump : Option (List Call))
    (xs : List ProcPtr) : Prop :=
  ∃ cs, dump = some cs ∧ shown cs = xs ∧ render mem fields cs = some (L.line xs)

def freeText (mem : Strings) (k : Ptable.Kernel) : Option (List Char) :=
  (freedump k).bind (render mem fun _ => [])

/-! ## Formats -/

theorem decimal_eq (w : Nat) :
    Kernel.printint (toInt w) 10 true = some (decimal w) ∧ SignedNumeral (toInt w) (decimal w) := by
  obtain ⟨t, ht, hnum⟩ :=
    Kernel.printint_numeral (Syscall.toInt_range w).1 (Syscall.toInt_range w).2
  rw [decimal, ht]
  exact ⟨rfl, hnum⟩

theorem Formats.text {print : List Char → List Nat → Option (List Char)} (hp : Formats print)
    (text : List Char) (h : '%' ∉ text) (fmt : List Char) (args : List Nat) :
    print (text ++ fmt) args = emit (some text) (print fmt args) := by
  induction text with
  | nil => rw [List.nil_append, emit_nil_left]
  | cons c text ih =>
    rw [List.mem_cons, not_or] at h
    rw [List.cons_append, hp.plain c _ _ (Ne.symm h.1), ih h.2, ← emit_assoc, emit_some,
      List.singleton_append]

/-- The format with `%d` between the texts. -/
def format : List String → List Char
  | [] => []
  | [t] => t.toList
  | t :: ts => t.toList ++ '%' :: 'd' :: format ts

theorem cprintf_format (mem : Strings) {ts : List String} {ws : List Nat} {fmt : String}
    (hfmt : fmt.toList = format ts) (ht : ∀ t ∈ ts, '%' ∉ t.toList)
    (hlen : ts.length = ws.length + 1) :
    Kernel.cprintf mem fmt.toList ws = some (between ts ws) := by
  have hp := Kernel.cprintf_formats mem
  rw [hfmt]
  clear hfmt
  induction ts generalizing ws with
  | nil => simp at hlen
  | cons t ts ih =>
    have htext := hp.text t.toList (ht t List.mem_cons_self)
    rcases ws with _ | ⟨w, ws⟩
    · obtain rfl : ts = [] := by simpa using hlen
      have hend := htext [] []
      rw [List.append_nil, hp.nil, emit_nil_right] at hend
      rw [format, hend]
      simp [between]
    · obtain ⟨t', ts, rfl⟩ : ∃ t' ts', ts = t' :: ts' :=
        List.exists_cons_of_length_eq_add_one (by simpa using hlen)
      have hrest : Kernel.cprintf mem (format (t' :: ts)) ws = some (between (t' :: ts) ws) :=
        ih (fun t ht' => ht t (.tail _ ht')) (by simpa using hlen)
      have hnum : Kernel.cprintf mem ('%' :: 'd' :: format (t' :: ts)) (w :: ws) =
          emit (Kernel.printint (toInt w) 10 true) (Kernel.cprintf mem (format (t' :: ts)) ws) :=
        rfl
      rw [format, htext, hnum, (decimal_eq w).1, hrest]
      · rfl
      · simp

/-! ## What they print -/

section Chains

variable {next : ProcPtr → Option ProcPtr} {fmt : String}

theorem printAdvance_chain : ∀ {xs : List ProcPtr} {x : ProcPtr} {n : Nat},
    Chain next (some x) (x :: xs) → xs.length < n →
    printAdvance next fmt n x = some ((x :: xs).dropLast.map fun p => ⟨fmt, [], [p]⟩) := by
  intro xs
  induction xs with
  | nil =>
    intro x n hc hn
    obtain ⟨n, rfl⟩ := Nat.exists_eq_succ_of_ne_zero (Nat.ne_zero_of_lt hn)
    have hend : next x = none := hc.2
    simp [printAdvance, hend]
  | cons y xs ih =>
    intro x n hc hn
    obtain ⟨n, rfl⟩ := Nat.exists_eq_succ_of_ne_zero (Nat.ne_zero_of_lt hn)
    have hnext : next x = some y := hc.2.1
    have hrest := ih (hnext ▸ hc.2) (Nat.lt_of_succ_lt_succ hn)
    simp [printAdvance, hnext, hrest]

theorem advancePrint_chain : ∀ {xs : List ProcPtr} {x : ProcPtr} {n : Nat},
    Chain next (some x) (x :: xs) → xs.length < n →
    advancePrint next fmt n x = some (xs.map fun p => ⟨fmt, [], [p]⟩) := by
  intro xs
  induction xs with
  | nil =>
    intro x n hc hn
    obtain ⟨n, rfl⟩ := Nat.exists_eq_succ_of_ne_zero (Nat.ne_zero_of_lt hn)
    have hend : next x = none := hc.2
    simp [advancePrint, hend]
  | cons y xs ih =>
    intro x n hc hn
    obtain ⟨n, rfl⟩ := Nat.exists_eq_succ_of_ne_zero (Nat.ne_zero_of_lt hn)
    have hnext : next x = some y := hc.2.1
    have hrest := ih (hnext ▸ hc.2) (Nat.lt_of_succ_lt_succ hn)
    simp [advancePrint, hnext, hrest]

theorem countLoop_chain : ∀ {xs : List ProcPtr} {h : Option ProcPtr} {n : Nat} (counter : Nat),
    Chain next h xs → xs.length ≤ n →
    countLoop next n counter h = some (counter + xs.length) := by
  intro xs
  induction xs with
  | nil =>
    intro h n counter hc _
    rw [Chain.nil_iff.mp hc]
    cases n <;> rfl
  | cons x xs ih =>
    intro h n counter hc hn
    obtain ⟨n, rfl⟩ := Nat.exists_eq_succ_of_ne_zero (Nat.ne_zero_of_lt hn)
    rw [hc.1, countLoop, ih (counter + 1) hc.2 (Nat.le_of_succ_le_succ hn), List.length_cons]
    congr 1
    omega

end Chains

theorem shown_items (fmt : String) (xs : List ProcPtr) :
    shown (xs.map fun p => ⟨fmt, [], [p]⟩) = xs := by
  induction xs with
  | nil => rfl
  | cons x xs ih =>
    rw [List.map_cons, shown, List.flatMap_cons, ← shown, ih, List.singleton_append]

section Lists

variable {k : Ptable.Kernel} {l : StateList} {xs : List ProcPtr}

theorem length_le (hc : Chain k.pLists.next (k.pLists.head l) xs) : xs.length ≤ NPROC := by
  have hle := hc.nodup.length_le_card
  simpa using hle

/-- The calls with these formats print with the layout `L`. -/
structure Sets (mem : Strings) (fields : ProcPtr → List Nat) (L : Layout) (empty : Call)
    (first : ProcPtr → Call) (fmt : String) : Prop where
  none : empty.procs = []
  one : ∀ p, (first p).procs = [p]
  empty : Kernel.cprintf mem empty.fmt.toList empty.lead = some L.empty
  first : ∀ p, Kernel.cprintf mem (first p).fmt.toList ((first p).lead ++ fields p) =
    some (L.first p)
  item : ∀ p, Kernel.cprintf mem fmt.toList (fields p) = some (L.item p)

theorem cprintf_newline (mem : Strings) : Kernel.cprintf mem ['\n'] [] = some ['\n'] := rfl

theorem Sets.render {mem : Strings} {fields : ProcPtr → List Nat} {L : Layout} {empty : Call}
    {first : ProcPtr → Call} {fmt : String} (h : Sets mem fields L empty first fmt)
    (ps : List ProcPtr) :
    Print.render mem fields (ps.map (fun p => ⟨fmt, [], [p]⟩) ++ [⟨"\n", [], []⟩]) =
      some (ps.flatMap L.item ++ ['\n']) := by
  induction ps with
  | nil => simp [Print.render, cprintf_newline, emit]
  | cons p ps ih =>
    have hitem := h.item p
    rw [List.map_cons, List.cons_append, Print.render, ih]
    simp [hitem, emit]

/-- The head of the list `xs` is printed, and then what the loop prints. -/
theorem dumpList_prints {mem : Strings} {fields : ProcPtr → List Nat} {L : Layout}
    {empty : Call} {first : ProcPtr → Call} {fmt : String}
    {loop : Nat → ProcPtr → Option (List Call)} {rest : List ProcPtr → List ProcPtr}
    (hc : Chain k.pLists.next (k.pLists.head l) xs) (hL : Sets mem fields L empty first fmt)
    (hrest : rest [] = [])
    (hloop : ∀ x ys, Chain k.pLists.next (some x) (x :: ys) → ys.length < NPROC + 1 →
      loop (NPROC + 1) x = some ((rest (x :: ys)).map fun p => ⟨fmt, [], [p]⟩)) :
    Prints mem fields L (dumpList k l empty first loop) (xs.take 1 ++ rest xs) := by
  have hlen := length_le hc
  cases xs with
  | nil =>
    refine ⟨[empty, ⟨"\n", [], []⟩], ?_, ?_, ?_⟩
    · rw [dumpList, Chain.nil_iff.mp hc]
    · simp [shown, hL.none, hrest]
    · simp [render, hL.none, hL.empty, hrest, cprintf_newline, emit, Layout.line]
  | cons x xs =>
    have hhead : k.pLists.head l = some x := hc.1
    rw [List.length_cons] at hlen
    refine ⟨first x :: ((rest (x :: xs)).map (fun p => ⟨fmt, [], [p]⟩) ++ [⟨"\n", [], []⟩]),
      ?_, ?_, ?_⟩
    · rw [dumpList, hhead]
      simp only [hloop x xs (hhead ▸ hc) (by omega), Option.map_some]
    · have hitems := shown_items fmt (rest (x :: xs))
      simp only [shown, List.flatMap_cons, List.flatMap_append, hL.one] at hitems ⊢
      simp [hitems]
    · have hfirst := hL.first x
      rw [render, hL.render, hL.one]
      simp [hfirst, emit, Layout.line]

theorem readyLevel_prints (mem : Strings) {i : Nat}
    (hc : Chain k.pLists.next (k.pLists.head (.ready i)) xs) :
    Prints mem (readyFields k) (readyLayout k i) (readyLevel k i) (xs.take 1 ++ xs.dropLast) :=
  dumpList_prints hc
    { none := rfl
      one := fun _ => rfl
      empty := cprintf_format mem (by dsimp only; decide) (by decide) rfl
      first := fun _ => cprintf_format mem (by dsimp only; decide) (by decide) rfl
      item := fun _ => cprintf_format mem (by decide) (by decide) rfl }
    rfl fun _ _ => printAdvance_chain

theorem zombiedump_prints (mem : Strings) (low : Nat)
    (hc : Chain k.pLists.next (k.pLists.head .zombie) xs) :
    Prints mem (zombieFields low k) (zombieLayout low k) (zombiedump k)
      (xs.take 1 ++ xs.dropLast) :=
  dumpList_prints hc
    { none := rfl
      one := fun _ => rfl
      empty := cprintf_format mem (by dsimp only; decide) (by decide) rfl
      first := fun _ => cprintf_format mem (by dsimp only; decide) (by decide) rfl
      item := fun _ => cprintf_format mem (by decide) (by decide) rfl }
    rfl fun _ _ => printAdvance_chain

theorem sleepdump_prints (mem : Strings) (hc : Chain k.pLists.next (k.pLists.head .sleep) xs) :
    Prints mem (sleepFields k) (sleepLayout k) (sleepdump k) (xs.take 1 ++ xs.tail) :=
  dumpList_prints hc
    { none := rfl
      one := fun _ => rfl
      empty := cprintf_format mem (by dsimp only; decide) (by decide) rfl
      first := fun _ => cprintf_format mem (by dsimp only; decide) (by decide) rfl
      item := fun _ => cprintf_format mem (by decide) (by decide) rfl }
    rfl fun _ _ => advancePrint_chain

theorem freeText_eq (mem : Strings) (hc : Chain k.pLists.next (k.pLists.head .free) xs) :
    Numeral xs.length (decimal xs.length) ∧
      freeText mem k = some (between ["Free list size: ", " processes.\n"] [xs.length]) := by
  have hlen := length_le hc
  have hcount : freedump k = some [⟨"Free list size: %d processes.\n", [xs.length], []⟩] := by
    rw [freedump, countLoop_chain 0 hc (by omega), Nat.zero_add]
    rfl
  have hnum := (decimal_eq xs.length).2
  rw [Syscall.toInt_of_lt (by simp only [NPROC] at hlen; omega)] at hnum
  refine ⟨SignedNumeral.of_nat hnum, ?_⟩
  have htext : Kernel.cprintf mem "Free list size: %d processes.\n".toList [xs.length] =
      some (between ["Free list size: ", " processes.\n"] [xs.length]) :=
    cprintf_format mem (by decide) (by decide) rfl
  rw [freeText, hcount, Option.bind_some, render, render, emit_nil_right, List.flatMap_nil,
    List.append_nil, htext]

/-- With the head twice and without its end, a list is itself only if it has one process. -/
theorem twice_eq_iff (hnd : xs.Nodup) : xs.take 1 ++ xs.dropLast = xs ↔ xs.length ≤ 1 := by
  rcases xs with _ | ⟨x, _ | ⟨y, ys⟩⟩
  · simp
  · simp
  · have hne : x ≠ y := by
      rintro rfl
      exact (List.nodup_cons.mp hnd).1 List.mem_cons_self
    simp [hne]

end Lists

theorem prints_iff {mem : Strings} {fields : ProcPtr → List Nat} {L : Layout}
    {dump : Option (List Call)} {xs ys : List ProcPtr} (h : Prints mem fields L dump ys) :
    Prints mem fields L dump xs ↔ ys = xs := by
  constructor
  · rintro ⟨cs, hcs, hxs, -⟩
    obtain ⟨cs', hcs', hys, -⟩ := h
    rw [← hxs, ← hys, Option.some.inj (hcs'.symm.trans hcs)]
  · rintro rfl
    exact h

/-- If every level can be dumped then `readydump` has the dump of each. -/
theorem readydump_level {maxPrio i : Nat} {k : Ptable.Kernel}
    (h : ∀ i, ∃ cs, readyLevel k i = some cs) (hi : i ≤ maxPrio) :
    (readydump maxPrio k).map (·[i]?) = some (readyLevel k i) := by
  have hall : ∀ is : List Nat, ∃ levels, is.mapM (readyLevel k) = some levels ∧
      levels.map some = is.map (readyLevel k) := by
    intro is
    induction is with
    | nil => exact ⟨[], rfl, rfl⟩
    | cons j is ih =>
      obtain ⟨cs, hcs⟩ := h j
      obtain ⟨levels, hlevels, hmap⟩ := ih
      exact ⟨cs :: levels, by simp [List.mapM_cons, hcs, hlevels], by simp [hcs, hmap]⟩
  obtain ⟨levels, hlevels, hmap⟩ := hall (List.range (maxPrio + 1))
  have hget := congrArg (·[i]?) hmap
  obtain ⟨cs, hcs⟩ := h i
  simp [hcs, Nat.lt_succ_of_le hi] at hget
  rw [readydump, hlevels, Option.map_some, hget, hcs]

/-- `%d` prints numerals; and the dumps print each process of their list once, in the order
of the list, exactly if no ready list and not the zombie list has more than one. -/
theorem dumps_show_lists_iff (mem : Strings) (low maxPrio : Nat) {k : Ptable.Kernel}
    {V : StateList → List ProcPtr} (hV : ∀ l, Chain k.pLists.next (k.pLists.head l) (V l)) :
    (∀ w, SignedNumeral (toInt w) (decimal w)) ∧
    (((∀ i ≤ maxPrio, ∃ dump, (readydump maxPrio k).map (·[i]?) = some dump ∧
        Prints mem (readyFields k) (readyLayout k i) dump (V (.ready i))) ∧
      Prints mem (zombieFields low k) (zombieLayout low k) (zombiedump k) (V .zombie) ∧
      Prints mem (sleepFields k) (sleepLayout k) (sleepdump k) (V .sleep) ∧
      Numeral (V .free).length (decimal (V .free).length) ∧
      freeText mem k =
        some (between ["Free list size: ", " processes.\n"] [(V .free).length])) ↔
    (∀ i ≤ maxPrio, (V (.ready i)).length ≤ 1) ∧ (V .zombie).length ≤ 1) := by
  have hlevel := fun i => readyLevel_prints mem (hV (.ready i))
  have hready : ∀ i ≤ maxPrio, (∃ dump, (readydump maxPrio k).map (·[i]?) = some dump ∧
      Prints mem (readyFields k) (readyLayout k i) dump (V (.ready i))) ↔
        (V (.ready i)).length ≤ 1 := by
    intro i hi
    have hprints : Prints mem (readyFields k) (readyLayout k i) (readyLevel k i) (V (.ready i)) ↔ _ :=
      prints_iff (hlevel i)
    rw [readydump_level (fun j => (hlevel j).imp fun _ h => h.1) hi, ← twice_eq_iff (hV _).nodup,
      ← hprints]
    simp
  have hzombie : Prints mem (zombieFields low k) (zombieLayout low k) (zombiedump k) (V .zombie) ↔
      (V .zombie).length ≤ 1 :=
    (prints_iff (zombiedump_prints mem low (hV .zombie))).trans (twice_eq_iff (hV .zombie).nodup)
  have hsleep : Prints mem (sleepFields k) (sleepLayout k) (sleepdump k) (V .sleep) := by
    rw [prints_iff (sleepdump_prints mem (hV .sleep))]
    cases V .sleep <;> rfl
  refine ⟨fun w => (decimal_eq w).2, ?_, ?_⟩
  · rintro ⟨hr, hz, -⟩
    exact ⟨fun i hi => (hready i hi).mp (hr i hi), hzombie.mp hz⟩
  · rintro ⟨hr, hz⟩
    exact ⟨fun i hi => (hready i hi).mpr (hr i hi), hzombie.mpr hz, hsleep,
      freeText_eq mem (hV .free)⟩

/-- A list of one process is printed with its numerals. -/
theorem generations_dumped : ∃ k, Ptable.Reachable 1 k ∧
    (∃ dump, (readydump 1 k).map (·[0]?) = some dump ∧
      Prints (fun _ => []) (readyFields k) (readyLayout k 0) dump [3]) ∧
    Prints (fun _ => []) (zombieFields 0 k) (zombieLayout 0 k) (zombiedump k) [2] ∧
    Prints (fun _ => []) (sleepFields k) (sleepLayout k) (sleepdump k) [0] ∧
    freeText (fun _ => []) k = some (between ["Free list size: ", " processes.\n"] [60]) := by
  obtain ⟨k, hk, hfacts⟩ := Ptable.exec_checked 1 Ptable.generations
    (fun k : Ptable.Kernel => decide
      ((k.pLists.head (.ready 0) = some 3 ∧ k.pLists.next 3 = none) ∧
        k.pLists.head (.ready 1) = none ∧
        (k.pLists.head .zombie = some 2 ∧ k.pLists.next 2 = none) ∧
        (k.pLists.head .sleep = some 0 ∧ k.pLists.next 0 = none) ∧
        countLoop k.pLists.next (NPROC + 1) 0 (k.pLists.head .free) = some 60))
    (by decide +kernel)
  obtain ⟨hready, hlow, hzombie, hsleep, hcount⟩ := of_decide_eq_true hfacts
  obtain ⟨_, _, _, _, _, _, ⟨V, hrep⟩, _⟩ :=
    hk.shows (fun _ => True) fun _ _ _ _ _ _ => trivial
  have hV := hrep.lists.chain
  have hone : ∀ {l : StateList} {p : ProcPtr}, k.pLists.head l = some p ∧ k.pLists.next p = none →
      V l = [p] := fun h => (hV _).unique ⟨h.1, h.2⟩
  have hnone : V (.ready 1) = [] := (hV _).unique hlow
  have hlen : (V .free).length = 60 := by
    rw [countLoop_chain 0 (hV .free) (Nat.le_succ_of_le (length_le (hV .free)))] at hcount
    simpa using hcount
  have hall := (dumps_show_lists_iff (fun _ => []) 0 1 hV).2.mpr
    ⟨fun i hi => by interval_cases i <;> simp [hone hready, hnone], by simp [hone hzombie]⟩
  rw [hone hzombie, hone hsleep, hlen] at hall
  refine ⟨k, hk, ?_, hall.2.1, hall.2.2.1, hall.2.2.2.2⟩
  have hzero := hall.1 0 (Nat.zero_le 1)
  rwa [hone hready] at hzero

/-- The first process forks and gives up the processor: its child and then the process
itself are ready. -/
def twoReady : List Ptable.Action :=
  [.scheduler 0 0, .allocproc 0, .kstack 0 (some 1), .copyuvm 0 true, .forkReady 0, .yield 0]

/-- The child is printed twice, and the process behind it not at all. -/
theorem readydump_repeats : ∃ k, Ptable.Reachable 6 k ∧
    Chain k.pLists.next (k.pLists.head (.ready 0)) [1, 0] ∧
    ((k.proc 1).pid = 2 ∧ (k.proc 0).pid = 1) ∧
    (readydump 6 k).map (·.map shown) = some [[1, 1], [], [], [], [], [], []] ∧
    ((readydump 6 k).bind (·[0]?)).bind (render (fun _ => []) (readyFields k)) =
      some "Ready processes at priority 0: 2 (budget 1000) -> 2 (1000)\n".toList := by
  obtain ⟨k, hk, hshown⟩ := Ptable.exec_checked 6 twoReady (fun k : Ptable.Kernel => decide
      ((k.pLists.head (.ready 0) = some 1 ∧ k.pLists.next 1 = some 0 ∧ k.pLists.next 0 = none) ∧
        ((k.proc 1).pid = 2 ∧ (k.proc 0).pid = 1) ∧
        (readydump 6 k).map (·.map shown) = some [[1, 1], [], [], [], [], [], []] ∧
        ((readydump 6 k).bind (·[0]?)).bind (render (fun _ => []) (readyFields k)) =
          some "Ready processes at priority 0: 2 (budget 1000) -> 2 (1000)\n".toList))
    (by decide +kernel)
  obtain ⟨hlist, hdump⟩ := of_decide_eq_true hshown
  exact ⟨k, hk, hlist, hdump⟩

end Xv6Pdx.Print
