import PennOs.Fat.Lookups

set_option autoImplicit false

/- What path resolution finds on a well-formed image. It changes nothing. -/
namespace PennOs.Fat

open Fs

/-- The results of `resolve_path`. -/
inductive Resolved (I : Image) : PennFatErr → ResolvedPath → Prop where
  | slash : Resolved I .ok { ResolvedPath.zero with found := true, isRoot := true, entryBlock := 1 }
  | dir (name : List UInt8) (d parent : Nat) (mtime : UInt64) : I.dirs d → I.dirs parent →
      name = dot ∨ d = 1 → Resolved I .ok (resolvedDir name d parent mtime)
  | entry (d : Nat) (p : Nat × Nat) : I.At d p → (I.slot p.1 p.2).live = true → ¬ DotSlot d p →
      (∀ j < p.2, (I.slot p.1 j).name0 ≠ 0) →
      Resolved I .ok (I.foundAt d p)
  | missing (err : PennFatErr) (d : Nat) : I.dirs d → err = .ok ∨ err = .notdir →
      Resolved I err (unresolvedIn d)
  | nothing (err : PennFatErr) : Resolved I err .zero

variable {s : Fs} {I : Image} {d current parent : Nat} {p : Nat × Nat} {now : UInt64}
  {follow : Bool} {recurse : List UInt8 → FsM (PennFatErr × ResolvedPath)}

/-- A program finds one of the results without a change of state. -/
def Resolves (s : Fs) (I : Image) (prog : FsM (PennFatErr × ResolvedPath)) : Prop :=
  ∃ err r, prog s = some ((err, r), s) ∧ Resolved I err r

theorem Resolves.pure {err : PennFatErr} {r : ResolvedPath} (found : Resolved I err r) :
    Resolves s I (Pure.pure (err, r)) := ⟨err, r, rfl, found⟩

theorem Resolves.bind {α : Type} {first : FsM α} {a : α} (run : first s = some (a, s))
    {rest : α → FsM (PennFatErr × ResolvedPath)} (found : Resolves s I (rest a)) :
    Resolves s I (first >>= rest) := by
  obtain ⟨err, r, run', resolved⟩ := found
  exact ⟨err, r, by rw [Prog.bind_of_run run, run'], resolved⟩

/-- The first slots of a directory are not found under another name. -/
theorem not_dotSlot_of_name (wf : I.Wf) (here : I.dirs d) {name : List UInt8}
    (same : (I.slot p.1 p.2).cName = name) (notDot : name ≠ dot) (notUp : name ≠ dotDot) :
    ¬ DotSlot d p := by
  rintro ⟨proper, block, low⟩
  have pair := wf.dots d here proper
  have cases : p.2 = 0 ∨ p.2 = 1 := by omega
  rw [block] at same
  rcases cases with zero | one
  · rw [zero, pair.self] at same
    exact notDot same.symm
  · rw [one, pair.up] at same
    exact notUp same.symm

/-- '..' is found in the second slot of a directory. -/
theorem findDotDot_run (tracks : Tracks s I) (wf : I.Wf) (here : I.dirs d) (proper : d ≠ 1) :
    ∃ r, findEntryInDir d dotDot s = some (.ok r, s) ∧ r.found = true ∧ r.entry = I.slot d 1 := by
  obtain ⟨low, high⟩ := wf.dir_inside here
  have used := notEoc tracks low high
  have used' : ¬ (d = fatEoc ∨ d = fatFree) := fun either => used either.symm
  have slots := wf.slotsMin
  have pair := wf.dots d here proper
  have first := tracks.shows.slot d low high 0 (by omega)
  have second := tracks.shows.slot d low high 1 (by omega)
  obtain ⟨count, more⟩ : ∃ count, s.entriesPerBlock = count + 2 := by
    refine ⟨s.entriesPerBlock - 2, ?_⟩
    rw [← tracks.shows.slots]
    omega
  have alive := DirEntry.live_iff.mp (pair.live (show 0 < 2 by decide))
  have alive' := DirEntry.live_iff.mp (pair.live (show 1 < 2 by decide))
  have other : ¬ dot = dotDot := by decide
  have scan : scanBlock (s.block d) dotDot s.entriesPerBlock 0 = some 1 := by
    simp only [more, scanBlock, first, second, alive.1, alive.2.1, alive.2.2, alive'.1, alive'.2.1,
      alive'.2.2, pair.self, pair.up, other, or_self, ↓reduceIte, Nat.zero_add]
  simp only [findEntryInDir, used, ↓reduceIte]
  rw [Prog.bind_of_run (malloc_run tracks.ready.host)]
  simp only [Bool.not_true, Bool.false_eq_true, ↓reduceIte]
  have run : findLoop dotDot (chainFuel + 1) d s = some (.ok (some (d, 1, I.slot d 1)), s) := by
    simp only [findLoop, used', ↓reduceIte]
    rw [Prog.bind_of_run (readBlock_run tracks.ready (tracks.inside high))]
    simp only [Prog.get_bind, scan, second, Prog.pure_run]
  rw [Prog.bind_of_run run]
  exact ⟨_, rfl, rfl, rfl⟩

theorem readSymlinkTarget_unchanged (ready : s.Ready) (link : DirEntry) :
    ∃ result, readSymlinkTarget link s = some (result, s) := by
  unfold readSymlinkTarget
  split
  · exact ⟨_, rfl⟩
  · rw [Prog.bind_of_run (malloc_run ready.host)]
    simp only [Bool.not_true, Bool.false_eq_true, ↓reduceIte]
    obtain ⟨result, run⟩ := readBlock_unchanged ready link.firstBlock.toNat
    rw [Prog.bind_of_run run]
    cases result with
    | none => exact ⟨_, rfl⟩
    | some buf => exact ⟨_, rfl⟩

theorem walk_run (tracks : Tracks s I) (wf : I.Wf) (targets : ∀ target, Resolves s I (recurse target))
    (components : List (List UInt8)) (here : I.dirs current) (above : I.dirs parent) :
    Resolves s I (walk now follow recurse components current parent) := by
  induction components generalizing current parent with
  | nil => exact .pure (.dir dot current parent now here above (.inl rfl))
  | cons component rest ih =>
      rw [walk]
      by_cases isDot : component = dot
      · rw [if_pos isDot]
        exact ih here above
      rw [if_neg isDot]
      by_cases isUp : component = dotDot
      · rw [if_pos isUp]
        by_cases top : current = 1
        · rw [if_pos top]
          exact ih here above
        rw [if_neg top]
        obtain ⟨up, run, found, entry⟩ := findDotDot_run tracks wf here top
        refine .bind run ?_
        simp only [found, Bool.not_true, Bool.false_eq_true, ↓reduceIte, entry]
        exact ih (wf.dir_parent here top) here
      rw [if_neg isUp]
      obtain ⟨hit, run, looked⟩ := findEntryInDir_run tracks wf here component
      cases looked with
      | missing absent => exact .bind run (.pure (.missing .ok current here (.inl rfl)))
      | hit p place live same before =>
          have named := not_dotSlot_of_name wf here same isDot isUp
          have found : findEntryInDir current component s = some (.ok
              { found := true
                isRoot := false
                entry := I.slot p.1 p.2
                entryBlock := p.1
                entryIndexInBlock := p.2
                parentDirBlock := current }, s) := run
          refine .bind found ?_
          simp only [Bool.not_true, Bool.false_eq_true, ↓reduceIte]
          cases rest with
          | nil =>
              simp only
              split
              · obtain ⟨result, run⟩ := readSymlinkTarget_unchanged tracks.ready (I.slot p.1 p.2)
                refine .bind run ?_
                cases result with
                | error err => exact .pure (.nothing err)
                | ok target => exact targets target
              · exact .pure (.entry current p place live named before)
          | cons next rest =>
              simp only
              by_cases isDir : (I.slot p.1 p.2).type = DirEntry.typeDirectory
              · have link : I.Holds current p (I.slot p.1 p.2).firstBlock.toNat :=
                  ⟨place, live, named, rfl⟩
                simp only [ne_eq, isDir, not_true_eq_false, ↓reduceIte]
                exact ih ((wf.target current p _ link).2.mp isDir) here
              · simp only [ne_eq, isDir, not_false_eq_true, ↓reduceIte]
                exact .pure (.missing .notdir current here (.inr rfl))

theorem resolvePathInternal_run (tracks : Tracks s I) (wf : I.Wf) (cwd : I.dirs s.gCwdBlock)
    (now : UInt64) (follow : Bool) (levels : Nat) (path : List UInt8) :
    Resolves s I (resolvePathInternal now follow levels path) := by
  induction levels generalizing path with
  | zero => exact .pure (.nothing .range)
  | succ levels ih =>
      rw [resolvePathInternal]
      refine .bind (Prog.get_run s) ?_
      cases path with
      | nil =>
          simp only
          split
          · exact .pure (.dir [slash] 1 1 now wf.root wf.root (.inr rfl))
          · exact .pure (.dir dot s.gCwdBlock s.gCwdBlock 0 cwd cwd (.inl rfl))
      | cons c rest =>
          simp only
          split
          · split
            · exact .pure (.dir [slash] 1 1 now wf.root wf.root (.inr rfl))
            · exact walk_run tracks wf ih _ wf.root wf.root
          · exact walk_run tracks wf ih _ cwd cwd

section Roots

/-- A result that is the root directory has the type of a directory. -/
def RootTyped (res : PennFatErr × ResolvedPath) : Prop :=
  res.2.isRoot = true → res.2.entry.type = DirEntry.typeDirectory

theorem findEntryInDir_notRoot (d : Nat) (name : List UInt8) :
    Prog.Hoare (fun _ => True) (findEntryInDir d name) fun res _ => ∀ r, res = .ok r → r.isRoot = false := by
  unfold findEntryInDir
  refine .ite (fun _ => .pure fun _ _ => nofun) fun _ => ?_
  refine .seq (fun _ _ => True) (fun _ _ _ _ _ => trivial) fun _ => ?_
  refine .ite (fun _ => .pure fun _ _ => nofun) fun _ => ?_
  refine .seq (fun _ _ => True) (fun _ _ _ _ _ => trivial) fun found => ?_
  rcases found with err | _ | ⟨b, i, entry⟩
  · exact .pure fun _ _ => nofun
  · refine .pure fun _ _ r same => ?_
    cases same
    rfl
  · refine .pure fun _ _ r same => ?_
    cases same
    rfl

theorem walk_rootTyped
    (targets : ∀ target, Prog.Hoare (fun _ => True) (recurse target) fun res _ => RootTyped res)
    (components : List (List UInt8)) (current parent : Nat) :
    Prog.Hoare (fun _ => True) (walk now follow recurse components current parent)
      fun res _ => RootTyped res := by
  induction components generalizing current parent with
  | nil => exact .pure fun _ _ _ => rfl
  | cons component rest ih =>
      rw [walk]
      refine .ite (fun _ => ih current parent) fun _ => ?_
      refine .ite (fun _ => .ite (fun _ => ih current parent) fun _ => ?_) fun _ => ?_
      · refine .seq (fun _ _ => True) (fun _ _ _ _ _ => trivial) fun found => ?_
        cases found with
        | error err => exact .pure fun _ _ => nofun
        | ok up => exact .ite (fun _ => .pure fun _ _ => nofun) fun _ => ih _ _
      · refine (findEntryInDir_notRoot current component).bind fun found => ?_
        cases found with
        | error err => exact .pure fun _ _ => nofun
        | ok hit =>
            refine .ite (fun _ => .pure fun _ _ => nofun) fun _ => ?_
            cases rest with
            | nil =>
                refine .ite (fun _ => ?_) fun _ => .pure fun _ plain root => ?_
                · refine .seq (fun _ _ => True) (fun _ _ _ _ _ => trivial) fun result => ?_
                  cases result with
                  | error err => exact .pure fun _ _ => nofun
                  | ok target => exact targets target
                · have notRoot : hit.isRoot = true := root
                  rw [plain hit rfl] at notRoot
                  cases notRoot
            | cons next rest =>
                refine .ite (fun _ => .pure fun _ _ => nofun) fun _ => ?_
                exact (ih _ _).mono (fun _ _ => trivial) fun _ _ post => post

theorem resolvePathInternal_rootTyped (levels : Nat) (path : List UInt8) :
    Prog.Hoare (fun _ => True) (resolvePathInternal now follow levels path)
      fun res _ => RootTyped res := by
  induction levels generalizing path with
  | zero => exact .pure fun _ _ => nofun
  | succ levels ih =>
      rw [resolvePathInternal]
      refine .get fun s => ?_
      cases path with
      | nil => exact .ite (fun _ => .pure fun _ _ _ => rfl) fun _ => .pure fun _ _ _ => rfl
      | cons first rest =>
          refine .ite (fun _ => .ite (fun _ => .pure fun _ _ _ => rfl) fun _ => ?_) fun _ => ?_
          · exact (walk_rootTyped ih _ 1 1).mono (fun _ _ => trivial) fun _ _ post => post
          · exact (walk_rootTyped ih _ _ _).mono (fun _ _ => trivial) fun _ _ post => post

/-- Only the path "/" itself is resolved without an entry. -/
theorem resolvePath_root {s t : Fs} {path : List UInt8} {err : PennFatErr} {r : ResolvedPath}
    (run : resolvePath now path s = some ((err, r), t)) (root : r.isRoot = true)
    (type : r.entry.type ≠ DirEntry.typeDirectory) : path = [slash] := by
  by_contra other
  rw [resolvePath, if_neg other] at run
  exact type (resolvePathInternal_rootTyped symlinkLevels path s _ t trivial run root)

end Roots

theorem resolvePath_run (tracks : Tracks s I) (wf : I.Wf) (cwd : I.dirs s.gCwdBlock)
    (now : UInt64) (path : List UInt8) : Resolves s I (resolvePath now path) := by
  unfold resolvePath
  split
  · exact .pure .slash
  · exact resolvePathInternal_run tracks wf cwd now true symlinkLevels path

end PennOs.Fat
