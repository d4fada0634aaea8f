import PennOs.Fat.LookupFrames

set_option autoImplicit false

/- Paths on any mounted volume: their parts, and where the lookups of the parts lead. -/
namespace PennOs.Fat

open PathWalk
open Fs

/-- What stands between the slashes of the path. -/
def partsOf (path : List UInt8) : List (List UInt8) := (body path).splitOn slash

/-- The last component. -/
def lastPart (path : List UInt8) : List UInt8 := getFilenameFromPath (body path)

/-- Where the parts lead that the path begins with. -/
def Fs.goes (s : Fs) (path : List UInt8) (parts : List (List UInt8)) : Outcome (Option Nat) (Nat × Nat) :=
  s.ways.walk (parts.map stepOf) (some (start path s.gCwdBlock))

variable {s t : Fs} {I : Image} {k d current parent : Nat} {now : UInt64} {path name : List UInt8}
  {follow : Bool}
  {recurse : List UInt8 → FsM (PennFatErr × ResolvedPath)}

section Parts

theorem partsOf_eq (path : List UInt8) : partsOf path = (partsOf path).dropLast ++ [lastPart path] := by
  have last : (partsOf path).getLast? = some (lastPart path) := splitOn_getLast (body path)
  have more : partsOf path ≠ [] := List.splitOn_ne_nil slash (body path)
  rw [List.getLast?_eq_some_getLast more] at last
  conv => lhs; rw [← List.dropLast_append_getLast more]
  rw [Option.some.inj last]

theorem body_of_head (path : List UInt8) : path = body path ∨ path = slash :: body path := by
  rw [body]
  split
  · next leads =>
      right
      cases path with
      | nil => cases leads
      | cons c rest => rw [Option.some.inj leads]; rfl
  · exact .inl rfl

theorem getFilenameFromPath_slash (path : List UInt8) :
    getFilenameFromPath (slash :: path) = getFilenameFromPath path := by
  rw [getFilenameFromPath]
  split
  · rfl
  · next alone =>
      rw [if_pos rfl]
      cases path with
      | nil => rfl
      | cons c rest =>
          have noSlash : slash ∉ rest := fun member => alone (List.mem_cons_of_mem c member)
          have other : c ≠ slash := fun same => alone (same ▸ List.mem_cons_self)
          rw [getFilenameFromPath, if_neg noSlash, if_neg other]

/-- What follows the last slash is the last component. -/
theorem getFilenameFromPath_eq (path : List UInt8) : getFilenameFromPath path = lastPart path := by
  rw [lastPart]
  rcases body_of_head path with same | slashed
  · rw [← same]
  · conv => lhs; rw [slashed]
    exact getFilenameFromPath_slash (body path)

theorem tokensFrom_ne_nil {acc : List UInt8} (more : acc ≠ []) (path : List UInt8) :
    tokensFrom acc path ≠ [] := by
  induction path generalizing acc with
  | nil =>
      rw [tokensFrom, if_neg more]
      exact List.cons_ne_nil _ _
  | cons c rest ih =>
      rw [tokensFrom]
      by_cases isSlash : c = slash
      · rw [if_pos isSlash, if_neg more]
        exact List.cons_ne_nil _ _
      · rw [if_neg isSlash]
        exact ih (List.cons_ne_nil c acc)

/-- All but the last of the components of a cut path are components of the path. -/
theorem tokensFrom_append (acc front back : List UInt8) :
    ∃ rest, tokensFrom acc (front ++ back) = (tokensFrom acc front).dropLast ++ rest ∧
      (tokensFrom acc front ≠ [] → rest ≠ []) := by
  induction front generalizing acc with
  | nil =>
      by_cases empty : acc = []
      · exact ⟨tokensFrom acc back, by rw [tokensFrom, if_pos empty]; rfl,
          by rw [tokensFrom, if_pos empty]; exact fun more => absurd rfl more⟩
      · exact ⟨tokensFrom acc back,
          by rw [tokensFrom, if_neg empty]; rfl, fun _ => tokensFrom_ne_nil empty back⟩
  | cons c front ih =>
      rw [List.cons_append, tokensFrom, tokensFrom]
      split
      · split
        · exact ih []
        · obtain ⟨rest, shape, more⟩ := ih []
          by_cases none : tokensFrom [] front = []
          · exact ⟨acc.reverse :: tokensFrom [] (front ++ back),
              by rw [none]; rfl, fun _ => List.cons_ne_nil _ _⟩
          · refine ⟨rest, ?_, fun _ => more none⟩
            rw [shape, List.dropLast_cons_of_ne_nil none, List.cons_append]
      · exact ih (c :: acc)

theorem tokensFrom_parts (path : List UInt8) (nonempty : lastPart path ≠ []) : tokensFrom [] (body path) =
    ((partsOf path).dropLast.filter fun part => part ≠ []) ++ [lastPart path] := by
  have whole : tokensFrom [] (body path) = (partsOf path).filter fun part => part ≠ [] := by
    rw [tokensFrom_split, partsOf]
    congr 1
    cases (body path).splitOn slash <;> rfl
  rw [whole]
  conv => lhs; rw [partsOf_eq path]
  rw [List.filter_append, List.filter_cons_of_pos (by simpa using nonempty)]
  rfl

/-- The components of the cut path before its last one are those of a proper prefix of the path. -/
theorem kept_front (nonempty : lastPart path ≠ []) {front : List (List UInt8)}
    (split : components (body path) = front ++ [name]) :
    ∃ k < (partsOf path).length, ((partsOf path).take k).filter (fun part => part ≠ []) = front := by
  have parts := tokensFrom_parts path nonempty
  obtain ⟨inner, before⟩ :
    ∃ inner, (partsOf path).dropLast.filter (fun part => part ≠ []) = front ++ inner := by
    by_cases short : (body path).length < pathMax
    · have whole : components (body path) = tokensFrom [] (body path) := by
        rw [components, List.take_of_length_le (by omega)]
      rw [whole, parts] at split
      obtain ⟨same, _⟩ := List.append_inj' split rfl
      exact ⟨[], by rw [same, List.append_nil]⟩
    · obtain ⟨rest, shape, more⟩ := tokensFrom_append [] ((body path).take (pathMax - 1))
        ((body path).drop (pathMax - 1))
      rw [List.take_append_drop, parts] at shape
      have kept : tokensFrom [] ((body path).take (pathMax - 1)) = front ++ [name] := split
      rw [kept, List.dropLast_concat] at shape
      obtain ⟨inner, last, rfl⟩ : ∃ inner last, rest = inner ++ [last] :=
        ⟨_, _, (List.dropLast_append_getLast (more (by simp [kept]))).symm⟩
      rw [← List.append_assoc] at shape
      obtain ⟨same, _⟩ := List.append_inj' shape rfl
      exact ⟨inner, same⟩
  obtain ⟨first, second, whole, here, _⟩ := List.filter_eq_append_iff.mp before
  have more : 0 < (partsOf path).length := List.length_pos_iff.mpr (List.splitOn_ne_nil slash (body path))
  have bound := congrArg List.length whole
  rw [List.length_dropLast, List.length_append] at bound
  refine ⟨first.length, by omega, ?_⟩
  have begins : (partsOf path).take first.length = first := by
    conv => lhs; rw [partsOf_eq path, whole]
    rw [List.append_assoc, List.take_left]
  rw [begins]
  exact here

/-- Empty parts do not matter on the way to a directory. -/
theorem goes_filter {dir : Option Nat} (parts : List (List UInt8)) : s.goes path parts = .dir dir ↔
    s.goes path (parts.filter fun part => part ≠ []) = .dir dir := by
  rw [goes, walk_filter stepOf_skipped parts]
  exact before_dir

theorem goes_append (front rest : List (List UInt8)) {dir : Option Nat}
    (leads : s.goes path front = .dir dir) :
    s.goes path (front ++ rest) = s.ways.walk (rest.map stepOf) dir := by
  have front' : s.ways.walk (front.map stepOf) (some (start path s.gCwdBlock)) = .dir dir := leads
  rw [goes, List.map_append, walk_append, front']

/-- From nowhere nothing leads to a directory. -/
theorem ways_none (parts : List (Component (List UInt8))) : s.ways.walk parts none ≠ .dir (some d) := by
  induction parts with
  | nil => rintro ⟨⟩
  | cons part parts ih =>
      cases part with
      | stay => exact ih
      | up => exact ih
      | name n => rintro ⟨⟩

/-- On the way to a directory there are directories. -/
theorem goes_front {front rest : List (List UInt8)} (leads : s.goes path (front ++ rest) = .dir (some d)) :
    ∃ x, s.goes path front = .dir (some x) := by
  have both : s.ways.walk (front.map stepOf ++ rest.map stepOf)
    (some (start path s.gCwdBlock)) = .dir (some d) := by
    rw [← List.map_append]
    exact leads
  obtain ⟨dir, walked⟩ := walk_front_dir both
  cases dir with
  | none =>
      rw [walk_append, walked] at both
      exact absurd both (ways_none _)
  | some x => exact ⟨x, walked⟩

end Parts

section Walking

variable (mounted : s.Mounted k)

include mounted

/-- The component loop comes to where its first components lead. -/
theorem walk_ways {front rest : List (List UInt8)} (more : rest ≠ []) (proper : ∀ part ∈ front, part ≠ [])
    (leads : s.ways.walk (front.map stepOf) (some current) = .dir (some d)) :
    ∃ above, walk now follow recurse
      (front ++ rest) current parent s = walk now follow recurse rest d above s := by
  induction front generalizing current parent with
  | nil =>
      cases leads
      exact ⟨parent, rfl⟩
  | cons component front ih =>
      have nonempty : component ≠ [] := proper component List.mem_cons_self
      have later : ∀ part ∈ front, part ≠ [] := fun part member =>
        proper part (List.mem_cons_of_mem component member)
      have behind : front ++ rest ≠ [] := List.append_ne_nil_of_right_ne_nil front more
      rw [List.cons_append]
      by_cases isDot : component = dot
      · rw [List.map_cons, stepOf_stay (Or.inr isDot)] at leads
        rw [walk, if_pos isDot]
        exact ih later leads
      by_cases isUp : component = dotDot
      · rw [isUp, List.map_cons, stepOf_up, Tree.walk] at leads
        rw [walk, if_neg isDot, if_pos isUp]
        by_cases top : current = 1
        · have stays : s.ways.up (some current) = some current := by
            simp only [ways, Option.bind_some, top, ↓reduceIte]
          rw [stays] at leads
          rw [if_pos top]
          exact ih later leads
        · have above : s.ways.up (some current) = (s.looked current dotDot).map fun up =>
            up.entry.firstBlock.toNat := by
            simp only [ways, Option.bind_some, top, ↓reduceIte]
          rw [above] at leads
          rw [if_neg top]
          cases found : s.looked current dotDot with
          | none =>
              rw [found] at leads
              exact absurd leads (ways_none _)
          | some up =>
              rw [found] at leads
              obtain ⟨run, isFound⟩ := looked_run mounted found
              rw [Prog.bind_of_run run]
              simp only [isFound, Bool.not_true, Bool.false_eq_true, ↓reduceIte]
              exact ih later leads
      rw [List.map_cons, stepOf_name nonempty isDot isUp, Tree.walk] at leads
      rw [walk, if_neg isDot, if_neg isUp]
      cases found : s.looked current component with
      | none =>
          have nothing : s.ways.lookup (some current) component = none := by
            simp only [ways, Option.bind_some, found, Option.map_none]
          rw [nothing] at leads
          cases leads
      | some hit =>
          obtain ⟨run, isFound⟩ := looked_run mounted found
          rw [Prog.bind_of_run run]
          simp only [isFound, Bool.not_true, Bool.false_eq_true, ↓reduceIte]
          obtain ⟨next, others, shape⟩ := List.exists_cons_of_ne_nil behind
          by_cases isDir : hit.entry.type = DirEntry.typeDirectory
          · have target : s.ways.lookup (some current) component =
              some (.inl (some hit.entry.firstBlock.toNat)) := by
              simp only [ways, Option.bind_some, found, Option.map_some, isDir, ↓reduceIte]
            rw [target] at leads
            rw [shape]
            simp only [isDir, ne_eq, not_true_eq_false, ↓reduceIte]
            rw [← shape]
            exact ih later leads
          · have target : s.ways.lookup (some current) component =
                some (.inr (hit.entryBlock, hit.entryIndexInBlock.toNat)) := by
              simp only [ways, Option.bind_some, found, Option.map_some, isDir, ↓reduceIte]
            rw [target] at leads
            simp only at leads
            split at leads <;> cases leads

/-- The resolution of a path comes to the last of its components. -/
theorem resolvePathInternal_goes (now : UInt64) (follow : Bool) (levels : Nat) {front : List (List UInt8)}
    (split : components (body path) = front ++ [name]) (leads : s.goes path front = .dir (some d)) :
    ∃ above, resolvePathInternal now follow (levels + 1) path s =
      walk now follow (resolvePathInternal now follow levels) [name] d above s := by
  have proper : ∀ part ∈ front, part ≠ [] := by
    intro part member
    exact components_proper (body path) part (split ▸ List.mem_append_left _ member)
  have more : [name] ≠ [] := List.cons_ne_nil _ _
  rw [resolvePathInternal, Prog.get_bind]
  cases path with
  | nil => exact absurd split.symm (List.append_ne_nil_of_right_ne_nil front more)
  | cons c rest =>
      simp only
      by_cases absolute : c = slash
      · subst absolute
        have bare : body (slash :: rest) = rest := rfl
        rw [bare] at split
        rw [if_pos rfl]
        by_cases top : rest = []
        · subst top
          exact absurd split.symm (List.append_ne_nil_of_right_ne_nil front more)
        · rw [if_neg top, split]
          exact walk_ways mounted more proper leads
      · have other : ¬ (c :: rest).head? = some slash := fun same => absolute (Option.some.inj same)
        rw [body, if_neg other] at split
        rw [goes, start, if_neg other] at leads
        rw [if_neg absolute, split]
        exact walk_ways mounted more proper leads

/-- A last component that is found is the answer, unless a symbolic link is to be followed. -/
theorem walk_looked {hit : ResolvedPath} (notDot : name ≠ dot) (notUp : name ≠ dotDot)
    (found : s.looked current name = some hit) :
    walk now false recurse [name] current parent s =
      some ((.ok, { hit with parentDirBlock := current }), s) := by
  obtain ⟨run, isFound⟩ := looked_run mounted found
  rw [walk, if_neg notDot, if_neg notUp, Prog.bind_of_run run]
  simp only [isFound, Bool.not_true, Bool.false_eq_true, ↓reduceIte, false_and]
  rfl

/-- A result with a slot of its own was looked up in the directory the components before lead to. -/
theorem walk_answer {components : List (List UInt8)} (proper : ∀ part ∈ components, part ≠ [])
    {r : ResolvedPath}
    (run : walk now false recurse components current parent s = some ((.ok, r), t)) (found : r.found = true)
    (slot : 0 ≤ r.entryIndexInBlock) : ∃ front name d hit, components = front ++ [name] ∧
      s.ways.walk (front.map stepOf) (some current) = .dir (some d) ∧ name ≠ dot ∧ name ≠ dotDot ∧
        s.looked d name = some hit ∧ r = { hit with parentDirBlock := d } := by
  induction components generalizing current parent with
  | nil =>
      cases run
      cases slot
  | cons component rest ih =>
      have nonempty : component ≠ [] := proper component List.mem_cons_self
      have later : ∀ part ∈ rest, part ≠ [] := fun part member =>
        proper part (List.mem_cons_of_mem component member)
      rw [walk] at run
      by_cases isDot : component = dot
      · rw [if_pos isDot] at run
        obtain ⟨front, name, d, hit, shape, leads, answer⟩ := ih later run
        refine ⟨component :: front, name, d, hit, congrArg (component :: ·) shape, ?_, answer⟩
        rw [List.map_cons, stepOf_stay (.inr isDot)]
        exact leads
      rw [if_neg isDot] at run
      by_cases isUp : component = dotDot
      · rw [if_pos isUp] at run
        by_cases top : current = 1
        · rw [if_pos top] at run
          obtain ⟨front, name, d, hit, shape, leads, answer⟩ := ih later run
          refine ⟨component :: front, name, d, hit, congrArg (component :: ·) shape, ?_, answer⟩
          have stays : s.ways.up (some current) = some current := by
            simp only [ways, Option.bind_some, top, ↓reduceIte]
          rw [List.map_cons, isUp, stepOf_up, Tree.walk, stays]
          exact leads
        rw [if_neg top] at run
        obtain ⟨answer, u, search, run⟩ := Prog.bind_inv run
        obtain rfl : u = s := (findEntryInDir_host _ _ _ _ _ search).eq mounted.host
        cases answer with
        | error err =>
            cases run
            cases found
        | ok up =>
            simp only at run
            split at run
            · cases run
              cases found
            next isFound =>
            obtain ⟨front, name, d, hit, shape, leads, answer⟩ := ih later run
            refine ⟨component :: front, name, d, hit, congrArg (component :: ·) shape, ?_, answer⟩
            have looks := looked_of_run search (by simpa using isFound)
            have above : u.ways.up (some current) = some up.entry.firstBlock.toNat := by
              simp only [ways, Option.bind_some, top, ↓reduceIte, looks, Option.map_some]
            rw [List.map_cons, isUp, stepOf_up, Tree.walk, above]
            exact leads
      rw [if_neg isUp] at run
      obtain ⟨answer, u, search, run⟩ := Prog.bind_inv run
      obtain rfl : u = s := (findEntryInDir_host _ _ _ _ _ search).eq mounted.host
      cases answer with
      | error err =>
          cases run
          cases found
      | ok hit =>
          simp only at run
          split at run
          · cases run
            cases found
          next isFound =>
          have looks := looked_of_run search (by simpa using isFound)
          cases rest with
          | nil =>
              simp only [Bool.false_eq_true, false_and, ↓reduceIte] at run
              cases run
              exact ⟨[], component, current, hit, rfl, rfl, isDot, isUp, looks, rfl⟩
          | cons next rest =>
              simp only at run
              split at run
              · cases run
              next isDir =>
              obtain ⟨front, name, d, hit', shape, leads, answer⟩ := ih later run
              refine ⟨component :: front, name, d, hit', congrArg (component :: ·) shape, ?_, answer⟩
              have target : u.ways.lookup (some current) component =
                some (.inl (some hit.entry.firstBlock.toNat)) := by
                simp only [ways, Option.bind_some, looks, Option.map_some, not_not.mp isDir, ↓reduceIte]
              rw [List.map_cons, stepOf_name nonempty isDot isUp, Tree.walk, target]
              exact leads

theorem resolvePathNoFollow_answer {r : ResolvedPath}
    (run : resolvePathNoFollow now path s = some ((.ok, r), t))
    (found : r.found = true) (slot : 0 ≤ r.entryIndexInBlock) : ∃ front name d hit,
      components (body path) = front ++ [name] ∧ s.goes path front = .dir (some d) ∧ name ≠ dot ∧
        name ≠ dotDot ∧
        s.looked d name = some hit ∧ r = { hit with parentDirBlock := d } := by
  rw [resolvePathNoFollow, symlinkLevels, resolvePathInternal, Prog.get_bind] at run
  cases path with
  | nil =>
      simp only at run
      split at run
      · cases run
        cases slot
      · cases run
        cases slot
  | cons c rest =>
      simp only at run
      split at run
      · next absolute =>
          subst absolute
          split at run
          · cases run
            cases slot
          · exact walk_answer mounted (components_proper rest) run found slot
      · next relative =>
          have other : ¬ (c :: rest).head? = some slash := fun same => relative (Option.some.inj same)
          have whole : body (c :: rest) = c :: rest := if_neg other
          have begins : start (c :: rest) s.gCwdBlock = s.gCwdBlock := if_neg other
          simp only [goes, whole, begins]
          exact walk_answer mounted (components_proper (c :: rest)) run found slot

end Walking

section Searching

variable (searches : Searches s I)

include searches

theorem Searches.looked_eq (here : I.dirs d) (name : List UInt8) :
    s.looked d name = (I.find name (I.chain d)).map (I.foundAt d) := by
  rw [looked, searches.search d here name]
  cases I.find name (I.chain d) <;> rfl

theorem Searches.ways_up (here : I.dirs d) : s.ways.up (some d) = some (I.seen.up d) := by
  by_cases top : d = 1
  · simp only [ways, Image.seen, Option.bind_some, top, ↓reduceIte]
  · obtain ⟨above, run, found, parent⟩ := searches.above d here top
    simp only [ways, Image.seen, Option.bind_some, top, ↓reduceIte, looked_of_run run found,
      Option.map_some, parent]

theorem Searches.ways_lookup (here : I.dirs d) (name : List UInt8) :
    s.ways.lookup (some d) name = (I.seen.lookup d name).map (Sum.map some id) := by
  simp only [ways, Image.seen, Option.bind_some, searches.looked_eq here, Option.map_map]
  congr 1
  funext p
  by_cases isDir : (I.slot p.1 p.2).type = DirEntry.typeDirectory
  · simp only [Function.comp_apply, Image.leadsTo, Image.foundAt, isDir, ↓reduceIte, Sum.map_inl]
  · simp only [Function.comp_apply, Image.leadsTo, Image.foundAt, isDir, ↓reduceIte, Sum.map_inr,
      Int.toNat_natCast, id_eq]

/-- The directories are searched as the image shows them. -/
theorem Searches.goes_eq {parts : List (List UInt8)} (cwd : I.dirs s.gCwdBlock) :
    s.goes path parts = (I.seen.walk (parts.map stepOf) (start path s.gCwdBlock)).map some := by
  have first := start_dir searches.toClosed cwd path
  refine @walk_map _ _ _ I.seen _ _ s.ways some I.dirs ?_ ?_ _ first
  · intro x here
    exact ⟨searches.ways_up here, seen_up searches.toClosed here⟩
  · intro x here name
    exact ⟨searches.ways_lookup here name, fun x' leads => seen_lookup_dir searches.toClosed here leads⟩

/-- Walks come to directories of the image. -/
theorem Searches.goes_dir {parts : List (List UInt8)} {dir : Option Nat} (cwd : I.dirs s.gCwdBlock)
    (leads : s.goes path parts = .dir dir) : ∃ d, dir = some d ∧ I.dirs d := by
  rw [searches.goes_eq cwd] at leads
  cases ends : I.seen.walk (parts.map stepOf) (start path s.gCwdBlock) with
  | dir d =>
      rw [ends] at leads
      cases leads
      exact ⟨d, rfl, seen_walk_dir searches.toClosed (start_dir searches.toClosed cwd path) ends⟩
  | file p =>
      rw [ends] at leads
      cases leads
  | absent =>
      rw [ends] at leads
      cases leads
  | notDir =>
      rw [ends] at leads
      cases leads

end Searching

end PennOs.Fat
