import PennOs.Fat.DirTrees
import PennOs.Fat.TreeRuns
import PennOs.Lib.PathWalk

set_option autoImplicit false

/- Path resolution as a walk along the components of the path, through a tree of directories. -/
namespace PennOs.Fat

open PathWalk
open Image (Promises)
open Fs

/-- What a component does on the walk. -/
def stepOf (part : List UInt8) : Component (List UInt8) :=
  if part = [] ∨ part = dot then .stay else if part = dotDot then .up else .name part

theorem stepOf_stay {part : List UInt8} (stays : part = [] ∨ part = dot) : stepOf part = .stay :=
  if_pos stays

theorem stepOf_up : stepOf dotDot = .up := by
  rw [stepOf, if_neg (by decide), if_pos rfl]

theorem stepOf_name {part : List UInt8} (nonempty : part ≠ []) (notDot : part ≠ dot)
    (notUp : part ≠ dotDot) : stepOf part = .name part := by
  rw [stepOf, if_neg (not_or.mpr ⟨nonempty, notDot⟩), if_neg notUp]

/-- What follows a leading slash. -/
def body (path : List UInt8) : List UInt8 := if path.head? = some slash then path.tail else path

/-- Where the walk begins. -/
def start (path : List UInt8) (cwd : Nat) : Nat := if path.head? = some slash then 1 else cwd

/-- The walk along all components of the path, which are what stands between its slashes. -/
def pathWalk (tree : Tree Nat (Nat × Nat) (List UInt8)) (path : List UInt8) (cwd : Nat) :
    Outcome Nat (Nat × Nat) :=
  tree.walk (((body path).splitOn slash).map stepOf) (start path cwd)

/-- The walk along the nonempty components of what fits into a `PATH_MAX` buffer. -/
def keptWalk (tree : Tree Nat (Nat × Nat) (List UInt8)) (path : List UInt8) (cwd : Nat) :
    Outcome Nat (Nat × Nat) :=
  tree.walk ((components (body path)).map stepOf) (start path cwd)

/-- The path fits into a `PATH_MAX` buffer and does not end with a slash after a file, or it is cut
where that makes no difference. -/
def Harmless (tree : Tree Nat (Nat × Nat) (List UInt8)) (path : List UInt8) (cwd : Nat) : Prop :=
  if (body path).length < pathMax then
    ¬ (getFilenameFromPath (body path) = [] ∧ ∃ p, keptWalk tree path cwd = .file p)
  else keptWalk tree path cwd = pathWalk tree path cwd

namespace Image

variable (I : Image)

/-- What an entry leads to: a directory, or something else in its slot. -/
def leadsTo (p : Nat × Nat) : Nat ⊕ (Nat × Nat) :=
  if (I.slot p.1 p.2).type = DirEntry.typeDirectory then .inl (I.slot p.1 p.2).firstBlock.toNat
  else .inr p

/-- The directory tree as it is searched: a name leads where the first entry with that name does. -/
def seen : Tree Nat (Nat × Nat) (List UInt8) where
  up d := if d = 1 then 1 else I.parent d
  lookup d name := (I.find name (I.chain d)).map I.leadsTo

end Image

/-- The result is where the walk ends, among these entries. -/
def Reports (entries : Nat × Nat → DirEntry) : Outcome Nat (Nat × Nat) → PennFatErr → ResolvedPath → Prop
  | .dir d, err, r => err = .ok ∧ r.found = true ∧ r.entry.type = DirEntry.typeDirectory ∧
      r.entry.firstBlock.toNat = d
  | .file p, err, r => err = .ok ∧ r.found = true ∧ r.entry.type ≠ DirEntry.typeDirectory ∧
      r.entry = entries p ∧ r.entryBlock = p.1 ∧ r.entryIndexInBlock = p.2
  | .absent, err, r => err = .ok ∧ r.found = false
  | .notDir, err, r => err = .notdir ∧ r.found = false

namespace Fs

variable (s : Fs)

/-- `p` is the slot of a live entry of the directory `d` under the name. -/
structure Named (d : Nat) (name : List UInt8) (p : Nat × Nat) : Prop extends s.Slot d p where
  live : (s.dirent p).live = true
  same : (s.dirent p).cName = name

open Classical in
/-- The directory tree: a name leads where the entry with that name does. -/
noncomputable def tree : Tree Nat (Nat × Nat) (List UInt8) where
  up d := if d = 1 then 1 else s.up d
  lookup d name := if held : ∃ p, s.Named d name p then
      some (if (s.dirent held.choose).type = DirEntry.typeDirectory then .inl (s.firstOf held.choose)
        else .inr held.choose)
    else none

end Fs

/-- A well-formed directory tree without symbolic links: no name occurs twice in a directory, and no block
has a live entry behind one without a name. -/
structure PlainTree (s : Fs) (fatBlocks : Nat) : Prop extends DirTree s fatBlocks where
  distinct : s.NamesUnique
  dense : ∀ d b i j, s.Dir d → s.OnChain d b → i < j → j < s.entriesPerBlock → (s.dirent (b, i)).name0 = 0 →
    (s.dirent (b, j)).live = false
  noLinks : ∀ d p, s.Slot d p → (s.dirent p).live = true → (s.dirent p).type ≠ DirEntry.typeSymlink

variable {s : Fs} {I : Image} {fatBlocks d current parent : Nat} {p q : Nat × Nat} {now : UInt64}
  {follow : Bool}
  {name : List UInt8} {err : PennFatErr} {r : ResolvedPath} {o o' : Outcome Nat (Nat × Nat)}
  {recurse : List UInt8 → FsM (PennFatErr × ResolvedPath)}

theorem Reports.unique {entries : Nat × Nat → DirEntry} (agrees : Reports entries o err r)
    (agrees' : Reports entries o' err r) : o = o' := by
  cases o with
  | dir d =>
      obtain ⟨ok, found, type, first⟩ := agrees
      cases o' with
      | dir d' => rw [← first, agrees'.2.2.2]
      | file p => exact absurd type agrees'.2.2.1
      | absent => exact absurd (found.symm.trans agrees'.2) nofun
      | notDir => exact absurd (found.symm.trans agrees'.2) nofun
  | file p =>
      obtain ⟨ok, found, type, entry, block, index⟩ := agrees
      cases o' with
      | dir d' => exact absurd agrees'.2.2.1 type
      | file q =>
          obtain ⟨_, _, _, _, block', index'⟩ := agrees'
          have second : (p.2 : Int) = q.2 := index.symm.trans index'
          exact congrArg Outcome.file (Prod.ext (block.symm.trans block') (by omega))
      | absent => exact absurd (found.symm.trans agrees'.2) nofun
      | notDir => exact absurd (found.symm.trans agrees'.2) nofun
  | absent =>
      cases o' with
      | dir d' => exact absurd (agrees.2.symm.trans agrees'.2.1) nofun
      | file p => exact absurd (agrees.2.symm.trans agrees'.2.1) nofun
      | absent => rfl
      | notDir => exact absurd (agrees.1.symm.trans agrees'.1) nofun
  | notDir =>
      cases o' with
      | dir d' => exact absurd (agrees.2.symm.trans agrees'.2.1) nofun
      | file p => exact absurd (agrees.2.symm.trans agrees'.2.1) nofun
      | absent => exact absurd (agrees.1.symm.trans agrees'.1) nofun
      | notDir => rfl

section Lookups

theorem seen_up (closed : I.Closed) (here : I.dirs d) : I.dirs (I.seen.up d) := by
  show I.dirs (if d = 1 then 1 else I.parent d)
  split
  · exact closed.root
  · next notRoot => exact closed.up d here notRoot

/-- What leads to a directory does so. -/
theorem leadsTo_dir (closed : I.Closed) (here : I.dirs d) (found : I.find name (I.chain d) = some p)
    {d' : Nat}
    (leads : I.leadsTo p = .inl d') : I.dirs d' := by
  rw [Image.leadsTo] at leads
  split at leads
  · next isDir =>
      cases leads
      exact closed.sub d p name here found isDir
  · cases leads

theorem seen_lookup_dir (closed : I.Closed) (here : I.dirs d) {d' : Nat}
    (leads : I.seen.lookup d name = some (.inl d')) : I.dirs d' := by
  obtain ⟨p, found, target⟩ := Option.map_eq_some_iff.mp leads
  exact leadsTo_dir closed here found target

theorem seen_walk_dir (closed : I.Closed) (here : I.dirs d) {parts : List (Component (List UInt8))} {d' : Nat}
    (ends : I.seen.walk parts d = .dir d') : I.dirs d' :=
  walk_keeps (fun _ there => seen_up closed there) (fun _ there _ _ leads =>
    seen_lookup_dir closed there leads)
    here ends

variable (plain : PlainTree s fatBlocks)

include plain

/-- Where no names occur twice, a search finds the entry of the name. -/
theorem PlainTree.find_named (here : s.Dir d) (found : s.dirImage.find name (s.dirImage.chain d) = some p) :
    s.Named d name p ∧ ∀ q, s.Named d name q → q = p := by
  obtain ⟨member, inside, live, same, _⟩ := find_some found
  have slot : s.Slot d p := (plain.slot_iff).mp ⟨here, member, inside⟩
  refine ⟨⟨slot, live, same⟩, fun q named => ?_⟩
  exact plain.distinct d q p named.toSlot slot named.live live (named.same.trans same.symm)

theorem PlainTree.not_named (missing : s.dirImage.find name (s.dirImage.chain d) = none) :
    ¬ s.Named d name p := by
  intro named
  have place := (plain.slot_iff).mpr named.toSlot
  obtain ⟨j, before, ends⟩ := find_none missing place.block place.index named.live named.same
  have dead := plain.dense d p.1 j p.2 named.dir named.block before named.index ends
  rw [named.live] at dead
  cases dead

/-- Where no names occur twice, the tree is searched as it is. -/
theorem PlainTree.lookup_eq (here : s.Dir d) (name : List UInt8) :
    s.tree.lookup d name = s.dirImage.seen.lookup d name := by
  simp only [Fs.tree, Image.seen]
  cases found : s.dirImage.find name (s.dirImage.chain d) with
  | none =>
      have nobody : ¬ ∃ p, s.Named d name p := fun ⟨_, named⟩ => plain.not_named found named
      rw [dif_neg nobody]
      rfl
  | some p =>
      obtain ⟨named, only⟩ := plain.find_named here found
      have held : ∃ p, s.Named d name p := ⟨p, named⟩
      rw [dif_pos held, only _ held.choose_spec]
      rfl

theorem PlainTree.walk_eq (here : s.Dir d) (parts : List (Component (List UInt8))) :
    s.tree.walk parts d = s.dirImage.seen.walk parts d := by
  have closed := plain.searches.toClosed
  refine walk_congr (P := s.Dir) (fun x there => ⟨?_, seen_up closed there⟩)
    (fun x there n => ⟨?_, fun d' leads => ?_⟩)
    parts here
  · rfl
  · exact plain.lookup_eq there n
  · exact seen_lookup_dir closed there leads

end Lookups

section Walking

/-- A path that leads to a directory without a lookup of its last component. -/
theorem agrees_resolvedDir (small : d < 65536) (entries : Nat × Nat → DirEntry) (name : List UInt8)
    (parent : Nat) (mtime : UInt64) : Reports entries (.dir d) .ok (resolvedDir name d parent mtime) := by
  refine ⟨rfl, rfl, rfl, ?_⟩
  show (UInt16.ofNat d).toNat = d
  rw [UInt16.toNat_ofNat', Nat.mod_eq_of_lt small]

section Steps

variable {rest : List (List UInt8)}

theorem walk_up (searches : Searches s I) (here : I.dirs current) :
    ∃ above, walk now follow recurse (dotDot :: rest) current parent s =
      walk now follow recurse rest (I.seen.up current) above s := by
  rw [walk, if_neg (by decide), if_pos rfl]
  by_cases top : current = 1
  · have stays : I.seen.up current = current := by simp only [Image.seen, top, ↓reduceIte]
    rw [if_pos top, stays]
    exact ⟨parent, rfl⟩
  · obtain ⟨up, run, found, entry⟩ := searches.above current here top
    have above : I.seen.up current = I.parent current := by simp only [Image.seen, top, ↓reduceIte]
    rw [if_neg top, Prog.bind_of_run run, above]
    simp only [found, Bool.not_true, Bool.false_eq_true, ↓reduceIte, entry]
    exact ⟨current, rfl⟩

variable (searches : Searches s I) (here : I.dirs current) (notDot : name ≠ dot)
  (notUp : name ≠ dotDot)

include searches here notDot notUp

/-- A name that is not found ends the loop. -/
theorem walk_missing (missing : I.find name (I.chain current) = none) :
    walk now follow recurse (name :: rest) current parent s = some ((.ok, unresolvedIn current), s) := by
  rw [walk, if_neg notDot, if_neg notUp, Prog.bind_of_run (searches.search current here name), missing]
  rfl

/-- The last name leads to its entry. -/
theorem walk_found (found : I.find name (I.chain current) = some p)
    (noLink : follow = true → (I.slot p.1 p.2).type ≠ DirEntry.typeSymlink) :
    walk now follow recurse [name] current parent s = some ((.ok, I.foundAt current p), s) := by
  have stays : ¬ (follow = true ∧ (I.foundAt current p).entry.type = DirEntry.typeSymlink) :=
    fun both => noLink both.1 both.2
  have hit : ¬ (!(I.foundAt current p).found) = true := Bool.false_ne_true
  rw [walk, if_neg notDot, if_neg notUp, Prog.bind_of_run (searches.search current here name), found]
  simp only
  rw [if_neg hit, if_neg stays]
  rfl

/-- Another name leads on from a directory. -/
theorem walk_subdir (found : I.find name (I.chain current) = some p) (more : rest ≠ [])
    (isDir : (I.slot p.1 p.2).type = DirEntry.typeDirectory) :
    walk now follow recurse (name :: rest) current parent s =
      walk now follow recurse rest (I.slot p.1 p.2).firstBlock.toNat current s := by
  have hit : ¬ (!(I.foundAt current p).found) = true := Bool.false_ne_true
  have goes : ¬ (I.foundAt current p).entry.type ≠ DirEntry.typeDirectory := not_not.mpr isDir
  obtain ⟨next, rest, rfl⟩ := List.exists_cons_of_ne_nil more
  rw [walk, if_neg notDot, if_neg notUp, Prog.bind_of_run (searches.search current here name), found]
  simp only
  rw [if_neg hit, if_neg goes]
  rfl

/-- Other entries with a component behind them end the loop. -/
theorem walk_notDir (found : I.find name (I.chain current) = some p) (more : rest ≠ [])
    (notDir : (I.slot p.1 p.2).type ≠ DirEntry.typeDirectory) :
    walk now follow recurse (name :: rest) current parent s = some ((.notdir, unresolvedIn current), s) := by
  have hit : ¬ (!(I.foundAt current p).found) = true := Bool.false_ne_true
  have stops : (I.foundAt current p).entry.type ≠ DirEntry.typeDirectory := notDir
  obtain ⟨next, rest, rfl⟩ := List.exists_cons_of_ne_nil more
  rw [walk, if_neg notDot, if_neg notUp, Prog.bind_of_run (searches.search current here name), found]
  simp only
  rw [if_neg hit, if_pos stops]
  rfl

end Steps

/-- The component loop is the walk, unless it follows a symbolic link in last position. -/
theorem walk_seen (searches : Searches s I) {components : List (List UInt8)}
    (proper : ∀ part ∈ components, part ≠ []) (here : I.dirs current)
    (noLink : follow = true → ∀ p, I.seen.walk (components.map stepOf) current = .file p →
      (I.slot p.1 p.2).type ≠ DirEntry.typeSymlink) :
    ∃ err r, walk now follow recurse components current parent s = some ((err, r), s) ∧
      Reports (fun p => I.slot p.1 p.2) (I.seen.walk (components.map stepOf) current) err r := by
  induction components generalizing current parent with
  | nil => exact ⟨_, _, rfl, agrees_resolvedDir (searches.small current here) _ dot parent now⟩
  | cons component rest ih =>
      have nonempty : component ≠ [] := proper component List.mem_cons_self
      have later := fun part member => proper part (List.mem_cons_of_mem component member)
      by_cases isDot : component = dot
      · rw [List.map_cons, stepOf_stay (Or.inr isDot)] at noLink ⊢
        rw [walk, if_pos isDot]
        exact ih later here noLink
      by_cases isUp : component = dotDot
      · subst isUp
        rw [List.map_cons, stepOf_up] at noLink ⊢
        obtain ⟨above, run⟩ := walk_up searches here
        rw [run]
        exact ih later (seen_up searches.toClosed here) noLink
      rw [List.map_cons, stepOf_name nonempty isDot isUp, Tree.walk] at noLink ⊢
      cases found : I.find component (I.chain current) with
      | none =>
          have looked : I.seen.lookup current component = none := by
            simp only [Image.seen, found, Option.map_none]
          rw [looked, walk_missing searches here isDot isUp found]
          exact ⟨.ok, unresolvedIn current, rfl, rfl, rfl⟩
      | some p =>
          by_cases isDir : (I.slot p.1 p.2).type = DirEntry.typeDirectory
          · have target : I.leadsTo p = .inl (I.slot p.1 p.2).firstBlock.toNat := if_pos isDir
            have looked : I.seen.lookup current component =
              some (.inl (I.slot p.1 p.2).firstBlock.toNat) := by
              simp only [Image.seen, found, Option.map_some, target]
            rw [looked] at noLink ⊢
            by_cases ends : rest = []
            · subst ends
              have notLink : (I.slot p.1 p.2).type ≠ DirEntry.typeSymlink := by
                rw [isDir]
                decide
              rw [walk_found searches here isDot isUp found fun _ => notLink]
              exact ⟨.ok, _, rfl, rfl, rfl, isDir, rfl⟩
            · rw [walk_subdir searches here isDot isUp found ends isDir]
              exact ih later (leadsTo_dir searches.toClosed here found target) noLink
          · have target : I.leadsTo p = .inr p := if_neg isDir
            have looked : I.seen.lookup current component = some (.inr p) := by
              simp only [Image.seen, found, Option.map_some, target]
            rw [looked] at noLink ⊢
            by_cases ends : rest = []
            · subst ends
              rw [walk_found searches here isDot isUp found fun follows => noLink follows p rfl]
              exact ⟨.ok, _, rfl, rfl, rfl, isDir, rfl, rfl, rfl⟩
            · have more : (rest.map stepOf).isEmpty = false := by simpa using ends
              rw [walk_notDir searches here isDot isUp found ends isDir]
              simp only [more, Bool.false_eq_true, ↓reduceIte]
              exact ⟨.notdir, unresolvedIn current, rfl, rfl, rfl⟩

end Walking

section Splitting

theorem tokensFrom_split (acc path : List UInt8) : tokensFrom acc path =
    ((path.splitOn slash).modifyHead (acc.reverse ++ ·)).filter fun part => part ≠ [] := by
  induction path generalizing acc with
  | nil =>
      rw [tokensFrom, List.splitOn_nil]
      by_cases empty : acc = []
      · simp [empty]
      · simp [empty]
  | cons c rest ih =>
      rw [tokensFrom, List.splitOn_cons_eq_if_modifyHead]
      have whole : (rest.splitOn slash).modifyHead (([] : List UInt8).reverse ++ ·) = rest.splitOn slash := by
        cases rest.splitOn slash <;> rfl
      by_cases isSlash : c = slash
      · have tail := ih []
        rw [whole] at tail
        simp only [isSlash, ↓reduceIte, BEq.rfl, List.modifyHead_cons, List.append_nil]
        by_cases empty : acc = []
        · rw [if_pos empty, tail, empty, List.reverse_nil, List.filter_cons_of_neg (by simp)]
        · rw [if_neg empty, tail, List.filter_cons_of_pos (by simpa using empty)]
      · have other : (c == slash) = false := by simpa using isSlash
        rw [if_neg isSlash, ih, other]
        simp only [Bool.false_eq_true, ↓reduceIte, List.modifyHead_modifyHead]
        congr 2
        funext part
        simp

/-- The components `strtok` gives are the nonempty parts between the slashes. -/
theorem components_split (path : List UInt8) : components path =
    ((path.take (pathMax - 1)).splitOn slash).filter fun part => part ≠ [] := by
  rw [components, tokensFrom_split]
  congr 1
  cases (path.take (pathMax - 1)).splitOn slash <;> rfl

/-- The last part is the name of the file. -/
theorem splitOn_getLast (path : List UInt8) :
    (path.splitOn slash).getLast? = some (getFilenameFromPath path) := by
  induction path with
  | nil => rfl
  | cons c rest ih =>
      rw [getFilenameFromPath, List.splitOn_cons_eq_if_modifyHead]
      by_cases more : slash ∈ rest
      · obtain ⟨front, back, shape⟩ := List.append_of_mem more
        have parts : rest.splitOn slash = front.splitOn slash ++ back.splitOn slash := by
          rw [shape, List.splitOn_append_cons_self]
        rw [if_pos more, ← ih, parts]
        cases first : front.splitOn slash with
        | nil => exact absurd first (List.splitOn_ne_nil slash front)
        | cons part later =>
            cases last : back.splitOn slash with
            | nil => exact absurd last (List.splitOn_ne_nil slash back)
            | cons part' later' =>
                split
                · simp
                · simp [List.getLast?_cons]
      · rw [if_neg more, List.splitOn_eq_singleton more]
        by_cases isSlash : c = slash
        · simp [isSlash]
        · simp [isSlash]

theorem endsDropped_splitOn (path : List UInt8) :
    endsDropped (fun part : List UInt8 => decide (part ≠ [])) (path.splitOn slash) =
      decide (getFilenameFromPath path = []) := by
  simp [endsDropped, splitOn_getLast]

theorem stepOf_skipped (part : List UInt8) (dropped : decide (part ≠ []) = false) : stepOf part = .stay :=
  stepOf_stay (.inl (by simpa using dropped))

end Splitting

section Paths

variable {path : List UInt8} {cwd : Nat} {tree : Tree Nat (Nat × Nat) (List UInt8)}

/-- A path that fits into the buffer is walked as a whole, up to a slash after a file. -/
theorem pathWalk_short (short : (body path).length < pathMax) (cwd : Nat) :
    pathWalk tree path cwd =
      (keptWalk tree path cwd).before (decide (getFilenameFromPath (body path) = [])) := by
  have whole : (body path).take (pathMax - 1) = body path := List.take_of_length_le (by omega)
  rw [pathWalk, keptWalk, components_split, whole, ← endsDropped_splitOn]
  exact walk_filter stepOf_skipped _ _

theorem harmless_iff (path : List UInt8) (cwd : Nat) :
    Harmless tree path cwd ↔ keptWalk tree path cwd = pathWalk tree path cwd := by
  rw [Harmless]
  by_cases short : (body path).length < pathMax
  · rw [if_pos short, pathWalk_short short]
    by_cases ends : getFilenameFromPath (body path) = []
    · cases walked : keptWalk tree path cwd <;> simp [ends, Outcome.before]
    · cases walked : keptWalk tree path cwd <;> simp [ends, Outcome.before]
  · rw [if_neg short]

theorem components_proper (path : List UInt8) : ∀ part ∈ components path, part ≠ [] := by
  intro part member
  rw [components_split] at member
  simpa using (List.mem_filter.mp member).2

theorem start_dir (closed : I.Closed) (here : I.dirs d) (path : List UInt8) : I.dirs (start path d) := by
  rw [start]
  split
  · exact closed.root
  · exact here

/-- `resolve_path_internal` is the walk along the components it kept. -/
theorem resolvePathInternal_seen (searches : Searches s I) (cwd : I.dirs s.gCwdBlock) (now : UInt64)
    (follow : Bool) (levels : Nat) (path : List UInt8)
    (noLink : follow = true → ∀ p, keptWalk I.seen path s.gCwdBlock = .file p →
      (I.slot p.1 p.2).type ≠ DirEntry.typeSymlink) :
    ∃ err r, resolvePathInternal now follow (levels + 1) path s = some ((err, r), s) ∧
      Reports (fun p => I.slot p.1 p.2) (keptWalk I.seen path s.gCwdBlock) err r := by
  rw [resolvePathInternal, Prog.get_bind]
  cases path with
  | nil =>
      have here : keptWalk I.seen [] s.gCwdBlock = .dir s.gCwdBlock := rfl
      rw [here]
      simp only
      split
      · next top => exact ⟨_, _, rfl, top ▸ agrees_resolvedDir (searches.small _ cwd)
          (fun p => I.slot p.1 p.2) [slash] 1 now⟩
      · exact ⟨_, _, rfl, agrees_resolvedDir (searches.small _ cwd) _ dot s.gCwdBlock 0⟩
  | cons c rest =>
      simp only
      by_cases absolute : c = slash
      · subst absolute
        have kept : keptWalk I.seen (slash :: rest) s.gCwdBlock =
          I.seen.walk ((components rest).map stepOf) 1 := rfl
        rw [kept] at noLink ⊢
        rw [if_pos rfl]
        by_cases top : rest = []
        · subst top
          rw [if_pos rfl]
          exact ⟨_, _, rfl, agrees_resolvedDir (by decide) _ [slash] 1 now⟩
        · rw [if_neg top]
          exact walk_seen searches (components_proper rest) searches.root noLink
      · have other : ¬ (c :: rest).head? = some slash := fun same => absolute (Option.some.inj same)
        have kept : keptWalk I.seen (c :: rest) s.gCwdBlock =
            I.seen.walk ((components (c :: rest)).map stepOf) s.gCwdBlock := by
          rw [keptWalk, body, start, if_neg other, if_neg other]
        rw [kept] at noLink ⊢
        rw [if_neg absolute]
        exact walk_seen searches (components_proper (c :: rest)) cwd noLink

/-- A walk through a tree without links does not end at a link. -/
theorem PlainTree.walk_notLink (plain : PlainTree s fatBlocks)
    {parts : List (Component (List UInt8))} {d : Nat}
    (here : s.Dir d) (ends : s.dirImage.seen.walk parts d = .file p) :
    (s.dirent p).type ≠ DirEntry.typeSymlink := by
  rw [← plain.walk_eq here] at ends
  obtain ⟨d', name, found⟩ := walk_file ends
  simp only [Fs.tree] at found
  split at found
  · next held =>
      have named := held.choose_spec
      have target := Option.some.inj found
      split at target
      · cases target
      · cases target
        exact plain.noLinks d' _ named.toSlot named.live
  · cases found

/-- In a well-formed directory tree without symbolic links, `resolve_path` gives where the walk along
the path ends exactly if the path is not "/" and neither the cut to `PATH_MAX` nor a slash after a
file makes a difference. -/
theorem resolvePath_walk_iff (s : Fs) (fatBlocks : Nat) (plain : PlainTree s fatBlocks)
    (cwd : s.Dir s.gCwdBlock) (now : UInt64) (path : List UInt8) :
    (∃ err r, resolvePath now path s = some ((err, r), s) ∧
        Reports s.dirent (pathWalk s.tree path s.gCwdBlock) err r) ↔
      path ≠ [slash] ∧ Harmless s.tree path s.gCwdBlock := by
  by_cases top : path = [slash]
  · subst top
    refine ⟨fun ⟨err, r, run, agrees⟩ => ?_, fun ⟨other, _⟩ => absurd rfl other⟩
    rw [resolvePath, if_pos rfl] at run
    cases run
    exact absurd agrees.2.2.1 (by decide)
  · have begins : s.Dir (start path s.gCwdBlock) := start_dir plain.searches.toClosed cwd path
    obtain ⟨err, r, run, agrees⟩ := resolvePathInternal_seen plain.searches cwd now true
      (symlinkLevels - 1) path fun _ p ends => plain.walk_notLink begins ends
    have kept : keptWalk s.dirImage.seen path s.gCwdBlock = keptWalk s.tree path s.gCwdBlock :=
      (plain.walk_eq begins _).symm
    rw [kept] at agrees
    have run' : resolvePath now path s = some ((err, r), s) := by
      rw [resolvePath, if_neg top]
      exact run
    rw [harmless_iff]
    constructor
    · rintro ⟨err', r', other, agrees'⟩
      cases run'.symm.trans other
      exact ⟨top, agrees.unique agrees'⟩
    · rintro ⟨_, same⟩
      exact ⟨err, r, run', same ▸ agrees⟩

/-- A volume whose calls gave new entries new names is a plain tree, unless it has links. -/
theorem Resting.plainTree (resting : Resting .keepNames s I)
    (noLinks : ∀ d p, s.Slot d p → (s.dirent p).live = true → (s.dirent p).type ≠ DirEntry.typeSymlink) :
    PlainTree s 1 where
  toDirTree := resting.dirTree
  distinct := resting.tracks.shows.namesUnique resting.good trivial
  dense d b i j here on less inside ends := by
    have shows := resting.tracks.shows
    have wf := resting.good.wf
    have here' := shows.dirs wf here
    have member := (shows.onChain_iff wf (wf.dirHead d here')).mp on
    have inside' : j < I.slots := shows.slots ▸ inside
    have row : s.dirent (b, j) = I.slot b j :=
      shows.slot b (wf.inside d b member).1 (wf.inside d b member).2.1 j inside'
    have row' : s.dirent (b, i) = I.slot b i :=
      shows.slot b (wf.inside d b member).1 (wf.inside d b member).2.1 i (Nat.lt_trans less inside')
    rw [row'] at ends
    rw [row]
    exact (resting.good.distinct trivial).dense d here' b member i j less inside' ends
  noLinks := noLinks

/-- "/b/.././c" -/
def dottedPath : List UInt8 := [47, 98, 47, 46, 46, 47, 46, 47, 99]

/-- The root directory and "b" are one block each, without links. -/
theorem housekeeping_rows (b : Nat) (low : 0 < b) (high : b < 3) :
    ((runCalls housekeeping).after blankVolume).fat b = fatEoc ∧
      ∀ i < 4, (((runCalls housekeeping).after blankVolume).dirent (b, i)).live = true →
        (((runCalls housekeeping).after blankVolume).dirent (b, i)).type ≠ DirEntry.typeSymlink ∧
        ((((runCalls housekeeping).after blankVolume).dirent (b, i)).type = DirEntry.typeDirectory →
          0 < ((runCalls housekeeping).after blankVolume).firstOf (b, i) ∧
            ((runCalls housekeeping).after blankVolume).firstOf (b, i) < 3) := by
  have cases : b = 1 ∨ b = 2 := by omega
  rcases cases with rfl | rfl
  · decide +kernel
  · decide +kernel

theorem housekeeping_state : ((runCalls housekeeping).after blankVolume).gMounted = true ∧
    ((runCalls housekeeping).after blankVolume).entriesPerBlock = 4 ∧
    ((runCalls housekeeping).after blankVolume).gCwdBlock = 1 := by
  decide +kernel

theorem housekeeping_plain : PlainTree ((runCalls housekeeping).after blankVolume) 1 ∧
    ((runCalls housekeeping).after blankVolume).Dir
    ((runCalls housekeeping).after blankVolume).gCwdBlock := by
  obtain ⟨mounted, many, top⟩ := housekeeping_state
  obtain ⟨I, resting⟩ := mounted_resting (housekeeping_run .keepNames) mounted
  have rows := housekeeping_rows
  generalize (runCalls housekeeping).after blankVolume = s at *
  have dirs : ∀ d, s.Dir d → 0 < d ∧ d < 3 := by
    intro d here
    induction here with
    | root => decide
    | @sub d p _ on inside live _ isDir ih =>
        obtain rfl := on.single (rows d ih.1 ih.2).1
        exact ((rows _ ih.1 ih.2).2 p.2 (many ▸ inside) live).2 isDir
  refine ⟨resting.plainTree fun d p slot live => ?_, top ▸ .root⟩
  obtain ⟨low, high⟩ := dirs d slot.dir
  obtain rfl := slot.block.single (rows d low high).1
  exact ((rows _ low high).2 p.2 (many ▸ slot.index) live).1

/-- "/" leads to the root directory, but its entry stays zero. -/
theorem slash_without_entry :
    ¬ ∀ (s : Fs) (fatBlocks : Nat), PlainTree s fatBlocks → s.Dir s.gCwdBlock →
      ∀ (now : UInt64) (path : List UInt8),
      ∃ err r, resolvePath now path s = some ((err, r), s) ∧
        Reports s.dirent (pathWalk s.tree path s.gCwdBlock) err r := by
  intro always
  obtain ⟨plain, cwd⟩ := housekeeping_plain
  obtain ⟨err, r, run, agrees⟩ := always _ 1 plain cwd 0 [slash]
  rw [resolvePath, if_pos rfl] at run
  cases run
  exact absurd agrees.2.2.1 (by decide)

theorem resolvePath_walk_dotted :
    ∃ err r, resolvePath 9 dottedPath ((runCalls housekeeping).after blankVolume) =
      some ((err, r), (runCalls housekeeping).after blankVolume) ∧
    Reports ((runCalls housekeeping).after blankVolume).dirent
      (pathWalk ((runCalls housekeeping).after blankVolume).tree dottedPath
        ((runCalls housekeeping).after blankVolume).gCwdBlock) err r := by
  obtain ⟨plain, cwd⟩ := housekeeping_plain
  refine (resolvePath_walk_iff _ 1 plain cwd 9 dottedPath).mpr ⟨by decide, ?_⟩
  have short : (body dottedPath).length < pathMax := by decide
  rw [Harmless, if_pos short]
  exact fun ends => absurd ends.1 (by decide)

end Paths

end PennOs.Fat
