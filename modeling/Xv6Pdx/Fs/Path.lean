/-
# `Fs.Path` — paths are sequences of names

`skipelem` takes a path apart from the front, and drops slashes before and behind each
element.  Call after call it gives the non-empty parts between slashes, cut to
`DIRSIZ` bytes, and what it leaves is empty exactly behind the last one.  So `namei`
follows these parts, and `nameiparent` all but the last.
-/
import Xv6Pdx.Fs.Lookup

namespace Xv6Pdx

open Lib Bytes

namespace Fs

open Ptable (ProcPtr)

/-! ## The parts of a path -/

/-- The non-empty parts between slashes, as far as they count. -/
def components (path : List UInt8) : List (List UInt8) :=
  ((path.splitOn slash).filter (· ≠ [])).map (List.take DIRSIZ)

theorem splitOn_slash (path : List UInt8) :
    (slash :: path).splitOn slash = [] :: path.splitOn slash := by
  rw [List.splitOn, List.splitOnP_cons_eq_if_modifyHead, if_pos (beq_self_eq_true slash)]
  rfl

theorem splitOn_cons {a : UInt8} (ha : a ≠ slash) (path : List UInt8) :
    (a :: path).splitOn slash = (path.splitOn slash).modifyHead (List.cons a) := by
  rw [List.splitOn, List.splitOnP_cons_eq_if_modifyHead, if_neg (by simpa using ha)]
  rfl

theorem splitOn_eq (path : List UInt8) : path.splitOn slash = path.takeWhile (· ≠ slash) ::
    match path.dropWhile (· ≠ slash) with
    | [] => []
    | _ :: rest => rest.splitOn slash := by
  induction path with
  | nil => rfl
  | cons a path ih =>
    rcases eq_or_ne a slash with rfl | ha
    · rw [splitOn_slash, List.takeWhile_cons_of_neg (by simp), List.dropWhile_cons_of_neg (by simp)]
    · rw [splitOn_cons ha, ih, List.takeWhile_cons_of_pos (by simpa using ha),
        List.dropWhile_cons_of_pos (by simpa using ha)]
      rfl

theorem components_slash (path : List UInt8) : components (slash :: path) = components path := by
  rw [components, splitOn_slash, List.filter_cons_of_neg (by simp)]
  rfl

theorem components_dropWhile (path : List UInt8) :
    components (path.dropWhile (· = slash)) = components path := by
  induction path with
  | nil => rfl
  | cons a path ih =>
    rcases eq_or_ne a slash with rfl | ha
    · rw [List.dropWhile_cons_of_pos (by simp), ih, components_slash]
    · rw [List.dropWhile_cons_of_neg (by simpa using ha)]

/-- A path that does not begin with a slash begins with a component. -/
theorem components_cons {a : UInt8} {path : List UInt8} (ha : a ≠ slash) :
    components (a :: path) = ((a :: path).takeWhile (· ≠ slash)).take DIRSIZ ::
      components ((a :: path).dropWhile (· ≠ slash)) := by
  have hne : (a :: path).takeWhile (· ≠ slash) ≠ [] := by
    rw [List.takeWhile_cons_of_pos (by simpa using ha)]
    exact List.cons_ne_nil _ _
  rw [components, splitOn_eq, List.filter_cons_of_pos (by simpa using hne), List.map_cons]
  congr 1
  cases hrest : (a :: path).dropWhile (· ≠ slash) with
  | nil => rfl
  | cons b rest =>
    have hb : b = slash := by
      have hhead := List.head?_dropWhile_not (fun c => decide (c ≠ slash)) (a :: path)
      rw [hrest] at hhead
      simpa using hhead
    rw [hb, components_slash]
    rfl

theorem components_nil : components [] = [] := rfl

theorem splitOn_append (path rest : List UInt8) :
    (path ++ slash :: rest).splitOn slash = path.splitOn slash ++ rest.splitOn slash := by
  induction path with
  | nil => exact splitOn_slash rest
  | cons a path ih =>
    rcases eq_or_ne a slash with rfl | ha
    · rw [List.cons_append, splitOn_slash, splitOn_slash, ih]
      rfl
    · rw [List.cons_append, splitOn_cons ha, splitOn_cons ha, ih, splitOn_eq path]
      rfl

theorem components_append_slash (path rest : List UInt8) :
    components (path ++ slash :: rest) = components path ++ components rest := by
  rw [components, splitOn_append, List.filter_append, List.map_append]
  rfl

/-! ## The elements of a walk -/

/-- What is left is empty behind the last element. -/
def Chained : List (List UInt8 × List UInt8) → Prop
  | [] => True
  | (_, rest) :: elems => (rest = [] ↔ elems = []) ∧ Chained elems

theorem elements_spec : ∀ (fuel : Nat) (path : List UInt8), path.length ≤ fuel →
    (elements fuel path).map Prod.fst = components path ∧ Chained (elements fuel path)
  | 0, path, h => by
    rw [List.length_eq_zero_iff.mp (Nat.le_zero.mp h)]
    exact ⟨rfl, trivial⟩
  | fuel + 1, path, h => by
    rw [elements, skipelem, ← components_dropWhile]
    have hlen : (path.dropWhile (· = slash)).length ≤ fuel + 1 :=
      (List.dropWhile_suffix _).length_le.trans h
    have hhead := List.head?_dropWhile_not (fun c => decide (c = slash)) path
    generalize path.dropWhile (· = slash) = p at hlen hhead
    cases p with
    | nil => exact ⟨rfl, trivial⟩
    | cons a p =>
      have ha : a ≠ slash := by simpa using hhead
      have hrest : ((a :: p).dropWhile (· ≠ slash)).length ≤ fuel := by
        rw [List.dropWhile_cons_of_pos (by simpa using ha)]
        exact (List.dropWhile_suffix _).length_le.trans (Nat.le_of_succ_le_succ hlen)
      obtain ⟨hmap, hchain⟩ := elements_spec fuel
        (((a :: p).dropWhile (· ≠ slash)).dropWhile (· = slash))
        ((List.dropWhile_suffix _).length_le.trans hrest)
      rw [if_neg (List.cons_ne_nil a p)]
      refine ⟨?_, ?_, hchain⟩
      · rw [List.map_cons, hmap, components_dropWhile, components_cons ha]
      · have hhead' := List.head?_dropWhile_not (fun c => decide (c = slash))
          ((a :: p).dropWhile (· ≠ slash))
        generalize ((a :: p).dropWhile (· ≠ slash)).dropWhile (· = slash) = q at hmap hhead'
        constructor
        · rintro rfl
          exact List.map_eq_nil_iff.mp (hmap.trans components_nil)
        · intro hnil
          rw [hnil] at hmap
          cases q with
          | nil => rfl
          | cons b q =>
            rw [components_cons (by simpa using hhead')] at hmap
            cases hmap

/-! ## `nameiparent` -/

/-- The directory that `nameiparent` looks for, from the inode `n`, with the last name. -/
def resolveParent (sb : Superblock) (disk : Disk) (names : List (List UInt8)) (n : Nat) :
    Option (Nat × List UInt8) :=
  names.getLast?.bind fun last =>
    ((resolveFrom sb disk names.dropLast n).filter fun p => (dinode sb disk p).type = T_DIR).map
      (·, last)

theorem resolveParent_singleton (sb : Superblock) (disk : Disk) (name : List UInt8) (n : Nat) :
    resolveParent sb disk [name] n =
      if (dinode sb disk n).type = T_DIR then some (n, name) else none := by
  show ((some n).filter fun p => (dinode sb disk p).type = T_DIR).map (·, name) = _
  rw [Option.filter_some]
  split
  · next h => rw [if_pos (of_decide_eq_true h)]; rfl
  · next h => rw [if_neg (by simpa using h)]; rfl

theorem resolveParent_cons (sb : Superblock) (disk : Disk) (name : List UInt8)
    {names : List (List UInt8)} (hne : names ≠ []) (n : Nat) :
    resolveParent sb disk (name :: names) n =
      if (dinode sb disk n).type = T_DIR then
        (((dinode sb disk n).entries disk).find? (Dirent.matches name)).bind fun de =>
          resolveParent sb disk names de.inum
      else none := by
  rw [resolveParent, List.dropLast_cons_of_ne_nil hne, resolveFrom]
  obtain ⟨last, hlast⟩ : ∃ last, names.getLast? = some last :=
    ⟨_, List.getLast?_eq_some_getLast hne⟩
  have hcons : (name :: names).getLast? = some last := by
    rw [List.getLast?_cons, hlast]
    rfl
  rw [hcons, Option.bind_some]
  split
  · cases ((dinode sb disk n).entries disk).find? (Dirent.matches name) with
    | none => rfl
    | some de => rw [Option.bind_some, Option.bind_some, resolveParent, hlast, Option.bind_some]
  · rfl

def FoundParent (s : State) : Option (Nat × List UInt8) → Option (InodePtr × List UInt8) →
    State → Prop
  | none, none, t => Walk s [] none t
  | some (n, last), some (ip, name), t => Walk s [ip] none t ∧ (t.icache ip).inum = n ∧ name = last
  | _, _, _ => False

section

variable {s t : State} {me : ProcPtr}

theorem walkParent_ends (hs : Settled s me) : ∀ (elems : List (List UInt8 × List UInt8))
    (ip : InodePtr) (last : List UInt8) (t : State), Walk s [ip] none t → Chained elems →
    (walkPath me true elems ip last).ends (fun r t' =>
      FoundParent s (resolveParent s.sb s.disk (elems.map Prod.fst) (t.icache ip).inum) r t')
      (fun _ => ¬ Walkable s (elems.map Prod.fst) (t.icache ip).inum) t
  | [], ip, last, t, h, _ => by
    rw [walkPath, if_pos rfl]
    refine Prog.ends_seq (iput_ends hs h (List.mem_singleton_self ip)) ?_
    rintro - t' ⟨h', -⟩
    rw [List.erase_cons_head] at h'
    exact h'
  | (name, rest) :: elems, ip, last, t, h, hchain => by
    have hip := List.mem_singleton_self ip
    rw [walkPath, List.map_cons, Walkable]
    refine Prog.ends_seq (Prog.ends_mono (ilock_ends h hip) (fun _ _ h => h)
      fun _ hfree hw => hw.1 hfree) ?_
    rintro - t₁ ⟨h₁, hv, hinum⟩
    obtain ⟨hread, -⟩ := h₁.locked_read hip hv
    rw [hinum] at hread
    show Prog.ends (if (t₁.icache ip).type ≠ T_DIR then _ else _) _ _ t₁
    rw [hread]
    obtain ⟨hrest, hchain⟩ := hchain
    have hresolve : ∀ hne : elems ≠ [], resolveParent s.sb s.disk
        (name :: elems.map Prod.fst) (t.icache ip).inum = _ := fun hne =>
      resolveParent_cons s.sb s.disk name (mt List.map_eq_nil_iff.mp hne) _
    split
    · next hdir =>
        refine Prog.ends_seq (iunlockput_ends hs h₁ hip) ?_
        rintro - t₂ ⟨h₂, -⟩
        rw [List.erase_cons_head] at h₂
        have hnone : resolveParent s.sb s.disk (name :: elems.map Prod.fst)
            (t.icache ip).inum = none := by
          rcases eq_or_ne elems [] with rfl | hne
          · rw [List.map_nil, resolveParent_singleton, if_neg hdir]
          · rw [hresolve hne, if_neg hdir]
        rw [hnone]
        exact h₂
    · next hdir =>
        rw [not_not] at hdir
        rcases eq_or_ne elems [] with rfl | hne
        · rw [if_pos ⟨rfl, hrest.mpr rfl⟩]
          refine Prog.ends_seq (iunlock_ends h₁ hip) ?_
          rintro - t₂ ⟨h₂, hsame⟩
          rw [List.map_nil, resolveParent_singleton, if_pos hdir]
          exact ⟨h₂, (hsame ip).trans hinum, rfl⟩
        · rw [if_neg fun hlast => hne (hrest.mp hlast.2), hresolve hne, if_pos hdir]
          refine descend_ends hs h₁ hv (by rw [hread, hdir]) ?_ ?_
          · intro hfind t₂ h₂
            rw [hinum] at hfind
            rw [hfind]
            exact h₂
          · intro de hfind
            rw [hinum] at hfind
            rw [hfind, hinum]
            refine ⟨fun hroom jp off t₂ h₂ hjp => ?_, fun hroom e hw => ?_⟩
            · have hgo := walkParent_ends hs elems jp name t₂ h₂ hchain
              rw [hjp] at hgo
              exact Prog.ends_mono hgo (fun _ _ hr => hr) fun _ hno hw => hno (hw.2 hdir de rfl).2
            · exact hroom (hw.2 hdir de rfl).1

/-- `namei` follows the components of the path, and `nameiparent` all but the last, exactly if
the walk meets no free inode and there is room for every one it meets. -/
theorem path_components_iff (hs : Settled s me) (path : List UInt8) : ((∃ r t,
      (namei me path).run s = some (.ok (r, t)) ∧
        Found s ((s.start me path).bind (resolveFrom s.sb s.disk (components path))) r t) ∧
      (∃ r t, (nameiparent me path).run s = some (.ok (r, t)) ∧
        FoundParent s ((s.start me path).bind (resolveParent s.sb s.disk (components path))) r t) ↔
      (path.head? = some slash → Room s none ROOTINO) ∧
        ∀ n, s.start me path = some n → Walkable s (components path) n) ∧
    components (slash :: path) = components path ∧
    (∀ rest, components (path ++ slash :: rest) = components path ++ components rest) ∧
    ∀ name, name ≠ [] → slash ∉ name → components name = [name.take DIRSIZ] := by
  obtain ⟨hmap, hchain⟩ := elements_spec path.length path (Nat.le_refl _)
  refine ⟨?_, components_slash path, components_append_slash path, ?_⟩
  · have hnamei := Prog.ends_iff_run.mp (namei_ends hs path)
    rw [State.resolve, State.Walks, names, hmap] at hnamei
    rcases hnamei with ⟨r, t, hrun, hw, hfound⟩ | ⟨e, hrun, hw⟩
    · refine iff_of_true ⟨⟨r, t, hrun, hfound⟩, ?_⟩ hw
      have hparent : (nameiparent me path).ends (fun r t => FoundParent s
          ((s.start me path).bind (resolveParent s.sb s.disk (components path))) r t)
          (fun _ => False) s := by
        rw [nameiparent, namex]
        refine Prog.ends_seq (Prog.ends_mono (startDir_ends hs path) (fun _ _ h => h)
          fun _ he => he.2 (hw.1 he.1)) ?_
        rintro ip t ⟨-, h, hstart⟩
        have hgo := walkParent_ends hs _ ip [] t h hchain
        rw [hmap] at hgo
        rw [hstart]
        exact Prog.ends_mono hgo (fun _ _ hr => hr) fun _ hno => hno (hw.2 _ hstart)
      exact Prog.run_of_ends hparent
    · refine iff_of_false ?_ hw
      rintro ⟨⟨r, t, hok, -⟩, -⟩
      rw [hrun] at hok
      cases hok
  · intro name hne hslash
    cases name with
    | nil => exact absurd rfl hne
    | cons a name =>
      have ha : a ≠ slash := fun he => hslash (he ▸ List.mem_cons_self)
      have hall : ∀ c ∈ a :: name, decide (c ≠ slash) = true := by
        intro c hc
        exact decide_eq_true fun he => hslash (he ▸ hc)
      rw [components_cons ha, List.takeWhile_eq_self_iff.mpr hall,
        List.dropWhile_eq_nil_iff.mpr hall, components_nil]

end

/-- `.//x` from the orphan: there is no `x`, and the parent of it is the orphan. -/
theorem orphan_walked : (∃ t, (namei 0 [46, 47, 47, 120]).run orphaned = some (.ok (none, t)) ∧
      Walk orphaned [] none t) ∧
    ∃ ip t, (nameiparent 0 [46, 47, 47, 120]).run orphaned = some (.ok (some (ip, [120]), t)) ∧
      (t.icache ip).inum = 3 := by
  have hdot : ((dinode smallSb orphanDisk 3).entries orphanDisk).find? (Dirent.matches [46]) =
      some ⟨3, strncpy DIRSIZ [46]⟩ := by decide +kernel
  have hx : ((dinode smallSb orphanDisk 3).entries orphanDisk).find? (Dirent.matches [120]) =
      none := by decide +kernel
  have hdir : (dinode smallSb orphanDisk 3).type = T_DIR := by decide +kernel
  have hlive : (dinode smallSb orphanDisk 3).type ≠ 0 := by decide +kernel
  obtain ⟨⟨r, t, hrun, hfound⟩, r', t', hrun', hfound'⟩ :=
    (path_components_iff orphaned_settled [46, 47, 47, 120]).1.mpr (by
      refine ⟨nofun, ?_⟩
      rintro n ⟨⟩
      refine ⟨hlive, fun _ de hde => ?_⟩
      cases hdot.symm.trans hde
      exact ⟨orphaned_room _ _, hlive, fun _ de hde => nomatch hx.symm.trans hde⟩)
  have hnone : (orphaned.start 0 [46, 47, 47, 120]).bind
      (resolveFrom smallSb orphanDisk (components [46, 47, 47, 120])) = none := by
    decide +kernel
  have hsome : (orphaned.start 0 [46, 47, 47, 120]).bind
      (resolveParent smallSb orphanDisk (components [46, 47, 47, 120])) = some (3, [120]) := by
    decide +kernel
  change Found _ (Option.bind _ (resolveFrom smallSb orphanDisk _)) _ _ at hfound
  change FoundParent _ (Option.bind _ (resolveParent smallSb orphanDisk _)) _ _ at hfound'
  rw [hnone] at hfound
  rw [hsome] at hfound'
  cases r with
  | some ip => exact hfound.elim
  | none =>
    rcases r' with _ | ⟨ip, name⟩
    · exact hfound'.elim
    · obtain ⟨-, hinum, rfl⟩ := hfound'
      exact ⟨⟨t, hrun, hfound⟩, ip, t', hrun', hinum⟩

/-- `../x` from the orphan: the parent is gone, and `ilock` panics. -/
theorem orphan_panics : Settled orphaned 0 ∧
    (namei 0 [46, 46, 47, 120]).run orphaned = some (.error "ilock: no type") := by
  refine ⟨orphaned_settled, ?_⟩
  have hfails : ((namei 0 [46, 46, 47, 120]).run orphaned).any (fun r => match r with
      | .error e => e = "ilock: no type"
      | .ok _ => false) = true := by decide +kernel
  rcases hrun : (namei 0 [46, 46, 47, 120]).run orphaned with _ | e | r <;> rw [hrun] at hfails
  · cases hfails
  · rw [of_decide_eq_true hfails]
  · cases hfails

end Fs

end Xv6Pdx
