import PennOs.Fat.NewEntries

set_option autoImplicit false

/- When a path that was missing leads to the file that was made for it. -/
namespace PennOs.Fat

open PathWalk
open Image (Promises)

/-- A search along the blocks comes to the slot `p` before it comes to `q`. -/
def InFront (nodes : List Nat) (p q : Nat × Nat) : Prop :=
  nodes.idxOf p.1 < nodes.idxOf q.1 ∨ (p.1 = q.1 ∧ p.2 < q.2)

/-- A new file is found under the name: no entry has it, or a symbolic link behind the slot the file
gets. -/
structure Vacant (I : Image) (d : Nat) (name : List UInt8) : Prop where
  notDot : name ≠ dot
  notUp : name ≠ dotDot
  hidden : ∀ q, I.find name (I.chain d) = some q → (I.slot q.1 q.2).type = DirEntry.typeSymlink ∧
    ∃ p, I.vacancy (I.chain d) = some p ∧ InFront (I.chain d) p q

/-- The resolution of the path, with so many levels of links left, comes to look for the name in the
directory `d` last, where a new file would be found under it. -/
inductive LooksFor (s : Fs) (I : Image) (d : Nat) (name : List UInt8) : Nat → List UInt8 → Prop where
  | last {levels : Nat} {path : List UInt8} {front : List (List UInt8)} :
      components (body path) = front ++ [name] →
      I.seen.walk (front.map stepOf) (start path s.gCwdBlock) = .dir d → Vacant I d name →
      LooksFor s I d name (levels + 1) path
  | link {levels x : Nat} {path target part : List UInt8} {front : List (List UInt8)} {q : Nat × Nat} :
      components (body path) = front ++ [part] →
      I.seen.walk (front.map stepOf) (start path s.gCwdBlock) = .dir x → part ≠ dot → part ≠ dotDot →
      I.find part (I.chain x) = some q → (I.slot q.1 q.2).type = DirEntry.typeSymlink →
      readSymlinkTarget (I.slot q.1 q.2) s = some (.ok target, s) →
      LooksFor s I d name levels target → LooksFor s I d name (levels + 1) path

variable {s u : Fs} {I J : Image} {b c d : Nat} {p q r : Nat × Nat} {e : DirEntry} {now : UInt64}
  {path name : List UInt8} {nodes : List Nat} {row : Nat → DirEntry} {count index i : Nat}

section Order

theorem InFront.asymm (first : InFront nodes p q) : ¬ InFront nodes q p := by
  rintro (less | ⟨same, less⟩)
  · rcases first with more | ⟨same, _⟩
    · omega
    · rw [same] at less
      omega
  · rcases first with more | ⟨_, more⟩
    · rw [same] at more
      omega
    · omega

/-- More blocks behind change nothing. -/
theorem inFront_append (member : q.1 ∈ nodes) (more : List Nat) :
    InFront (nodes ++ more) p q ↔ InFront nodes p q := by
  have place : (nodes ++ more).idxOf q.1 = nodes.idxOf q.1 := List.idxOf_append_of_mem member
  by_cases inside : p.1 ∈ nodes
  · rw [InFront, InFront, place, List.idxOf_append_of_mem inside]
  · have low := List.idxOf_lt_length_of_mem member
    have past : nodes.idxOf p.1 = nodes.length := List.idxOf_eq_length inside
    have past' : nodes.length ≤ (nodes ++ more).idxOf p.1 := by
      rw [List.idxOf_append_of_notMem inside]
      omega
    rw [InFront, InFront, place, past]
    constructor
    · rintro (less | same)
      · omega
      · exact .inr same
    · rintro (less | same)
      · omega
      · exact .inr same

/-- A search stops no later than at an entry with the name. -/
theorem scanRow_first {found : Nat} (result : scanRow row name count index = some found)
    (low : index ≤ i) (high : i < index + count) (live : (row i).live = true)
    (same : (row i).cName = name) (before : ∀ j < i, (row j).name0 ≠ 0) : found ≤ i := by
  induction count generalizing index with
  | zero => cases result
  | succ count ih =>
      have alive := DirEntry.live_iff.mp live
      by_cases here : index = i
      · subst here
        simp only [scanRow, alive.1, alive.2.1, alive.2.2, or_self, same, ↓reduceIte,
          Option.some.injEq] at result
        omega
      · have visible := before index (by omega)
        simp only [scanRow, visible, ↓reduceIte] at result
        split at result
        · exact ih result (by omega) (by omega)
        · split at result
          · cases result
            exact low
          · exact ih result (by omega) (by omega)

theorem find_first (found : I.find name nodes = some r) (member : q.1 ∈ nodes) (inside : q.2 < I.slots)
    (live : (I.slot q.1 q.2).live = true) (same : (I.slot q.1 q.2).cName = name)
    (before : ∀ j < q.2, (I.slot q.1 j).name0 ≠ 0) : r = q ∨ InFront nodes r q := by
  induction nodes with
  | nil => cases found
  | cons b rest ih =>
      simp only [Image.find] at found
      cases scan : scanRow (I.slot b) name I.slots 0 with
      | some i =>
          rw [scan] at found
          cases found
          by_cases here : q.1 = b
          · subst here
            have low := scanRow_first scan (Nat.zero_le q.2) (by omega) live same before
            rcases Nat.lt_or_eq_of_le low with less | equal
            · exact .inr (.inr ⟨rfl, less⟩)
            · exact .inl (Prod.ext rfl equal)
          · right
            left
            rw [List.idxOf_cons_self, List.idxOf_cons_ne rest (Ne.symm here)]
            omega
      | none =>
          rw [scan] at found
          have apart : q.1 ≠ b := by
            intro here
            rw [here] at live same before
            obtain ⟨j, _, less, ends⟩ := scanRow_none scan (Nat.zero_le q.2) (by omega) live same
            exact before j less ends
          have member' : q.1 ∈ rest := (List.mem_cons.mp member).resolve_left apart
          rcases ih found member' with equal | less | later
          · exact .inl equal
          · right
            left
            have shift : (b :: rest).idxOf r.1 ≤ rest.idxOf r.1 + 1 := by
              rw [List.idxOf_cons]
              cases b == r.1
              · exact Nat.le_refl _
              · exact Nat.zero_le _
            rw [List.idxOf_cons_ne rest (Ne.symm apart)]
            omega
          · exact .inr (.inr later)

end Order

section Adding

variable (adds : Adds I d e p J) (dense : I.Dense) (wf : I.Wf)

include adds dense

/-- A search for the new name stops at the new entry unless it stopped in front of it before. -/
theorem Adds.find_iff (live : e.live = true) :
    J.find e.cName (J.chain d) = some p ↔ ∀ q, I.find e.cName (I.chain d) = some q →
      ∃ v, I.vacancy (I.chain d) = some v ∧ InFront (I.chain d) v q := by
  have visible := (DirEntry.live_iff.mp live).1
  have here := adds.here
  have live' : (J.slot p.1 p.2).live = true := adds.written.symm ▸ live
  cases missing : I.find e.cName (I.chain d) with
  | none => exact ⟨fun _ _ found => absurd found nofun, fun _ => adds.find_new dense live here missing⟩
  | some q =>
      obtain ⟨member, inside, liveQ, named, before⟩ := find_some missing
      have place : I.At d q := ⟨here, member, inside⟩
      have apart : q ≠ p := by
        rintro rfl
        exact absurd (liveQ.symm.trans (adds.dead d place)) nofun
      have row := adds.others d q place apart
      have member' : q.1 ∈ J.chain d := (adds.front d here).subset member
      obtain ⟨more, shape⟩ := adds.front d here
      have order : InFront (J.chain d) p q ↔ InFront (I.chain d) p q := by
        rw [← shape]
        exact inFront_append member more
      have before' : ∀ j < q.2, (J.slot q.1 j).name0 ≠ 0 := by
        intro j less
        by_cases new : (q.1, j) = p
        · subst new
          rw [show J.slot q.1 j = e from adds.written]
          exact visible
        · have same : J.slot q.1 j = I.slot q.1 j :=
            adds.others d (q.1, j) ⟨here, member, Nat.lt_trans less inside⟩ new
          rw [same]
          exact before j less
      constructor
      · rintro found q' same
        obtain rfl := Option.some.inj same
        rcases find_first found member' (adds.slots ▸ inside) (row ▸ liveQ) (row ▸ named) before' with
          equal | first
        · exact absurd equal.symm apart
        · have first' := order.mp first
          have old : p.1 ∈ I.chain d := by
            rcases first' with less | ⟨same, _⟩
            · have short := List.idxOf_lt_length_of_mem member
              exact List.idxOf_lt_length_iff.mp (by omega)
            · exact same ▸ member
          rcases adds.spot with spot | ⟨_, out⟩
          · exact ⟨p, spot, first'⟩
          · exact absurd old out
      · intro hidden
        obtain ⟨v, spot, first⟩ := hidden q rfl
        have same : v = p := by
          rcases adds.spot with spot' | ⟨none, _⟩
          · exact Option.some.inj (spot.symm.trans spot')
          · exact absurd (spot.symm.trans none) nofun
        subst same
        rcases adds.finds dense visible d here e.cName with old | ⟨new, _⟩
        · rw [missing] at old
          rcases find_first old adds.place.block adds.place.index live'
              (congrArg DirEntry.cName adds.written) adds.before with equal | second
          · exact absurd equal apart
          · exact absurd second (order.mpr first).asymm
        · exact new

include wf

/-- A walk that leads to a directory now does not go through the new file. -/
theorem Adds.walk_back (visible : e.name0 ≠ 0) (file : e.type ≠ DirEntry.typeDirectory) {x y : Nat}
    (here : I.dirs x) (parts : List (Component (List UInt8))) (leads : J.seen.walk parts x = .dir y) :
    I.seen.walk parts x = .dir y := by
  induction parts generalizing x with
  | nil => exact leads
  | cons part parts ih =>
      cases part with
      | stay => exact ih here leads
      | up =>
          rw [Tree.walk] at leads ⊢
          rw [adds.seen_up wf here] at leads
          exact ih (PennOs.Fat.seen_up wf.closed here) leads
      | name n =>
          rw [Tree.walk] at leads ⊢
          rcases adds.finds dense visible x here n with same | ⟨new, _⟩
          · cases found : I.find n (I.chain x) with
            | none =>
                have looked : J.seen.lookup x n = none := by
                  simp only [Image.seen, same, found, Option.map_none]
                rw [looked] at leads
                cases leads
            | some q =>
                obtain ⟨member, inside, live, _⟩ := find_some found
                have looked : I.seen.lookup x n = some (I.leadsTo q) := by
                  simp only [Image.seen, found, Option.map_some]
                have again : J.seen.lookup x n = some (I.leadsTo q) := by
                  simp only [Image.seen, same, found, Option.map_some,
                    adds.leadsTo_eq ⟨here, member, inside⟩ live]
                rw [again] at leads
                rw [looked]
                cases target : I.leadsTo q with
                | inl x' =>
                    rw [target] at leads
                    exact ih (leadsTo_dir wf.closed here found target) leads
                | inr q' =>
                    rw [target] at leads
                    exact leads
          · have looked : J.seen.lookup x n = some (.inr p) := by
              simp only [Image.seen, new, Option.map_some, Image.leadsTo, adds.written, file, ↓reduceIte]
            rw [looked] at leads
            simp only at leads
            split at leads <;> cases leads

end Adding

section Finding

theorem LooksFor.vacant {levels : Nat} (looks : LooksFor s I d name levels path) : Vacant I d name := by
  induction looks with
  | last _ _ vacant => exact vacant
  | link _ _ _ _ _ _ _ _ ih => exact ih

/-- How the resolution goes on with what a link holds. -/
def goOn (recurse : List UInt8 → FsM (PennFatErr × ResolvedPath)) :
    Except PennFatErr (List UInt8) → FsM (PennFatErr × ResolvedPath)
  | .error err => return (err, .zero)
  | .ok target => recurse target

/-- Where the last component is a link, the resolution goes on with its target. -/
theorem walk_link {follow : Bool} {recurse : List UInt8 → FsM (PennFatErr × ResolvedPath)}
    {current parent : Nat} {part : List UInt8} {result : Except PennFatErr (List UInt8)}
    (searches : Searches s I) (here : I.dirs current) (notDot : part ≠ dot)
    (notUp : part ≠ dotDot) (follows : follow = true) (found : I.find part (I.chain current) = some q)
    (link : (I.slot q.1 q.2).type = DirEntry.typeSymlink)
    (read : readSymlinkTarget (I.slot q.1 q.2) s = some (result, s)) :
    walk now follow recurse [part] current parent s =
      goOn recurse result s := by
  have hit : ¬ (!(I.foundAt current q).found) = true := Bool.false_ne_true
  have both : follow = true ∧ (I.foundAt current q).entry.type = DirEntry.typeSymlink := ⟨follows, link⟩
  have read' : readSymlinkTarget (I.foundAt current q).entry s = some (result, s) := read
  rw [walk, if_neg notDot, if_neg notUp, Prog.bind_of_run (searches.search current here part), found]
  simp only
  rw [if_neg hit, if_pos both, Prog.bind_of_run read']
  cases result <;> rfl

/-- What is found has a front that leads to a directory. -/
theorem front_of_found {follow : Bool} {levels : Nat} {part : List UInt8} {front : List (List UInt8)}
    {err : PennFatErr} {res : ResolvedPath} (searches : Searches s I) (cwd : I.dirs s.gCwdBlock)
    (split : components (body path) = front ++ [part])
    (run : resolvePathInternal now follow (levels + 1) path s = some ((err, res), s))
    (found : res.found = true) :
    ∃ x, I.seen.walk (front.map stepOf) (start path s.gCwdBlock) = .dir x := by
  by_contra nowhere
  have ends : keptWalk I.seen path s.gCwdBlock = .absent ∨ keptWalk I.seen path s.gCwdBlock = .notDir := by
    rw [keptWalk, split, List.map_append, walk_append]
    cases walked : I.seen.walk (front.map stepOf) (start path s.gCwdBlock) with
    | dir x => exact absurd ⟨x, walked⟩ nowhere
    | file p => exact .inr rfl
    | absent => exact .inl rfl
    | notDir => exact .inr rfl
  obtain ⟨err', res', run', agrees⟩ := resolvePathInternal_seen searches cwd now follow levels path
    fun _ p file => absurd (file ▸ ends) (not_or.mpr ⟨(by rintro ⟨⟩), (by rintro ⟨⟩)⟩)
  cases run.symm.trans run'
  have missing : res.found = false := by
    rcases ends with absent | notDir
    · rw [absent] at agrees
      exact agrees.2
    · rw [notDir] at agrees
      exact agrees.2
  rw [found] at missing
  cases missing

section Again

variable {levels : Nat} {err : PennFatErr} (gains : Gains s I u J p) (adds : Adds I d e p J)
  (dense : I.Dense) (live : e.live = true) (cwd : I.dirs s.gCwdBlock)

include gains adds dense live cwd

/-- The file is found where the resolution looked for its name. -/
theorem LooksFor.found (looks : LooksFor s I d e.cName levels path)
    (run : resolvePathInternal now true levels path s = some ((err, unresolvedIn d), s)) :
    ∃ x, resolvePathInternal now true levels path u = some ((.ok, J.foundAt x p), u) := by
  have cwd' : J.dirs u.gCwdBlock := gains.cwd ▸ gains.dirs _ cwd
  have visible := (DirEntry.live_iff.mp live).1
  have notLink : true = true → (J.slot p.1 p.2).type ≠ DirEntry.typeSymlink := by
    rw [gains.regular]
    decide
  have front : ∀ {path : List UInt8} {front : List (List UInt8)} {x : Nat}, Vacant I d e.cName →
      I.seen.walk (front.map stepOf) (start path s.gCwdBlock) = .dir x →
      J.seen.walk (front.map stepOf) (start path u.gCwdBlock) = .dir x := by
    intro path front x vacant leads
    rw [gains.cwd]
    refine adds.walk_dir dense gains.wf live (fun q found => ?_) (start_dir gains.wf.closed cwd path) _ leads
    rw [(vacant.hidden q found).1]
    decide
  induction looks with
  | @last levels path _ split leads vacant =>
      obtain ⟨there, above, last⟩ := resolvePathInternal_last now true levels
        gains.after.ready.toMounted (gains.after.searches gains.wf') cwd' split
        (front vacant leads)
      have found := (adds.find_iff dense live).mpr fun q hit => (vacant.hidden q hit).2
      exact ⟨d, last.trans (walk_found
        (gains.after.searches gains.wf') there vacant.notDot vacant.notUp found notLink)⟩
  | @link levels x path target part _ q split leads notDot notUp hit link read looks ih =>
      obtain ⟨here, above, last⟩ := resolvePathInternal_last now true levels
        gains.before.ready.toMounted (gains.before.searches gains.wf) cwd split leads
      obtain ⟨there, above', last'⟩ := resolvePathInternal_last now true levels
        gains.after.ready.toMounted (gains.after.searches gains.wf') cwd' split
        (front looks.vacant leads)
      rw [last, walk_link (gains.before.searches gains.wf) here notDot notUp rfl hit link read] at run
      rcases adds.finds dense visible x here part with same | ⟨new, _⟩
      · obtain ⟨member, inside, alive, named, _⟩ := find_some hit
        have place : I.At x q := ⟨here, member, inside⟩
        have held : I.Holds x q (I.slot q.1 q.2).firstBlock.toNat :=
          ⟨place, alive, not_dotSlot_of_name gains.wf here named notDot notUp, rfl⟩
        have apart : q ≠ p := by
          rintro rfl
          exact gains.unused _ _ held
        have row := gains.others x q place apart
        obtain ⟨result, readS, readU⟩ := gains.symlink held link
        cases readS.symm.trans read
        obtain ⟨x', again⟩ := ih run
        refine ⟨x', last'.trans (Eq.trans ?_ again)⟩
        exact walk_link (gains.after.searches gains.wf') there notDot notUp rfl (same.trans hit) (row ▸ link)
          (row ▸ readU)
      · exact ⟨x, last'.trans (walk_found (gains.after.searches gains.wf') there notDot notUp new notLink)⟩

/-- Where the file is found, the resolution looked for its name. -/
theorem looksFor_of_found {err' : PennFatErr} {res : ResolvedPath}
    (run : resolvePathInternal now true levels path s = some ((err, unresolvedIn d), s))
    (again : resolvePathInternal now true levels path u = some ((err', res), u))
    (found : res.found = true) : LooksFor s I d e.cName levels path := by
  have cwd' : J.dirs u.gCwdBlock := gains.cwd ▸ gains.dirs _ cwd
  have visible := (DirEntry.live_iff.mp live).1
  have file : e.type ≠ DirEntry.typeDirectory := by
    rw [← adds.written, gains.regular]
    decide
  induction levels generalizing path err with
  | zero =>
      cases again
      cases found
  | succ levels ih =>
      rcases List.eq_nil_or_concat (components (body path)) with none | ⟨front, part, split⟩
      · have slot : (0 : Int) = -1 := resolvePathInternal_empty none run
        omega
      rw [List.concat_eq_append] at split
      obtain ⟨x, leads'⟩ := front_of_found (gains.after.searches gains.wf') cwd' split again found
      obtain ⟨there, above', last'⟩ :=
        resolvePathInternal_last now true levels gains.after.ready.toMounted
          (gains.after.searches gains.wf') cwd' split leads'
      rw [gains.cwd] at leads'
      have leads := adds.walk_back dense gains.wf visible file (start_dir gains.wf.closed cwd path) _ leads'
      obtain ⟨here, above, last⟩ :=
        resolvePathInternal_last now true levels gains.before.ready.toMounted
          (gains.before.searches gains.wf) cwd split leads
      rw [last] at run
      rw [last'] at again
      by_cases notDot : part = dot
      · rw [walk, if_pos notDot] at run
        cases congrArg (fun y => (y.map fun z => z.1.2.found).getD true) run
      by_cases notUp : part = dotDot
      · obtain ⟨higher, up⟩ := @walk_up _ _ _ _ _ _ _ [] (gains.before.searches gains.wf) here
        rw [notUp, up] at run
        cases congrArg (fun y => (y.map fun z => z.1.2.found).getD true) run
      have new : J.find part (J.chain x) = some p → x = d → part = e.cName := by
        intro hit _
        obtain ⟨_, _, _, named, _⟩ := find_some hit
        rw [← named, adds.written]
      cases hit : I.find part (I.chain x) with
      | none =>
          rw [walk_missing (gains.before.searches gains.wf) here notDot notUp hit] at run
          obtain rfl : x = d := congrArg (fun y => (y.map fun z => z.1.2.parentDirBlock).getD 0) run
          rcases adds.finds dense visible x here part with same | ⟨found', _⟩
          · rw [walk_missing (gains.after.searches gains.wf') there notDot notUp (same.trans hit)] at again
            cases again
            cases found
          · obtain rfl := new found' rfl
            exact .last split leads ⟨notDot, notUp, fun q found =>
              absurd (hit.symm.trans found) (by rintro ⟨⟩)⟩
      | some q =>
          by_cases link : (I.slot q.1 q.2).type = DirEntry.typeSymlink
          · obtain ⟨member, inside, alive, named, _⟩ := find_some hit
            have place : I.At x q := ⟨here, member, inside⟩
            have held : I.Holds x q (I.slot q.1 q.2).firstBlock.toNat :=
              ⟨place, alive, not_dotSlot_of_name gains.wf here named notDot notUp, rfl⟩
            have apart : q ≠ p := by
              rintro rfl
              exact gains.unused _ _ held
            have row := gains.others x q place apart
            obtain ⟨result, read, read'⟩ := gains.symlink held link
            rw [walk_link (gains.before.searches gains.wf) here notDot notUp rfl hit link read] at run
            rcases adds.finds dense visible x here part with same | ⟨found', sameDir⟩
            · rw [walk_link (gains.after.searches gains.wf') there notDot notUp rfl (same.trans hit)
                (row ▸ link)
                (row ▸ read')] at again
              cases result with
              | error err =>
                  cases again
                  cases found
              | ok target => exact .link split leads notDot notUp hit link read (ih run again)
            · obtain rfl := new found' sameDir
              subst sameDir
              refine .last split leads ⟨notDot, notUp, fun q' found => ?_⟩
              obtain rfl := Option.some.inj (hit.symm.trans found)
              exact ⟨link, (adds.find_iff dense live).mp found' q hit⟩
          · rw [walk_found (gains.before.searches gains.wf) here notDot notUp hit fun _ => link] at run
            cases congrArg (fun y => (y.map fun z => z.1.2.found).getD true) run

/-- What was missing is found after the file was made exactly if the resolution looked for its name. -/
theorem resolvePath_again (run : resolvePath now path s = some ((err, unresolvedIn d), s)) :
    ∃ err' res, resolvePath now path u = some ((err', res), u) ∧
      (LooksFor s I d e.cName symlinkLevels path → err' = .ok ∧ ∃ x, res = J.foundAt x p) ∧
      (res.found = true → LooksFor s I d e.cName symlinkLevels path) := by
  have proper : path ≠ [slash] := by
    rintro rfl
    rw [resolvePath, if_pos rfl] at run
    cases congrArg (fun y => (y.map fun z => z.1.2.found).getD true) run
  rw [resolvePath, if_neg proper] at run ⊢
  obtain ⟨err', res, again, _⟩ := resolvePathInternal_run gains.after gains.wf'
    (gains.cwd ▸ gains.dirs _ cwd) now true symlinkLevels path
  refine ⟨err', res, again, fun looks => ?_, looksFor_of_found gains adds dense live cwd run again⟩
  obtain ⟨x, found⟩ := looks.found gains adds dense live cwd run
  cases again.symm.trans found
  exact ⟨rfl, x, rfl⟩

end Again

section Opening

variable {promised : Promises} {mode : UInt32} {path : CStr}

/-- A call that returns an error made no descriptor. -/
theorem makes_none {made : Prop} {err : PennFatErr} : Prog.Hoare (fun t => t = s)
    (pure (.error err) : FsM (Except PennFatErr Nat)) fun res _ => ∀ fd, res = .ok fd → made := by
  apply Prog.Hoare.pure
  intro _ _ _ same
  cases same

/-- `k_open` makes a file only where the resolution looked for its name. -/
theorem openCreate_looks (resting : Resting promised s I) (dense : promised.dense) (now : UInt64)
    (mode : UInt32)
    {err : PennFatErr} (here : I.dirs d)
    (run : resolvePath now path.bytes s = some ((err, unresolvedIn d), s))
    (welcome : NameWelcome promised I d (getFilenameFromPath path.bytes)) :
    Prog.Hoare (fun u => u = s) (openCreate now path.bytes mode (unresolvedIn d)) fun res _ =>
      ∀ fd, res = .ok fd → LooksFor s I d (getFilenameFromPath path.bytes) symlinkLevels path.bytes := by
  have noNul := fun member => path.noNul (mem_getFilenameFromPath member)
  unfold openCreate
  refine .ite (fun _ => makes_none) fun _ => .ite (fun _ => makes_none) fun _ =>
    .ite (fun _ => makes_none) fun short => ?_
  rcases newFile_run resting now here (by omega) noNul welcome with
    full | ⟨b, t, free, took, ⟨full, back⟩ | ⟨u, J, p, added, rests, keeps, tables, entered, file⟩⟩
  · exact .step full makes_none
  · refine .step took (.step full (.bind (.of_ensures back) fun _ => .pure ?_))
    intro _ _ _ same
    cases same
  refine .step took (.step added ?_)
  obtain ⟨err', created, again, resolved⟩ :=
    resolvePath_run rests.tracks rests.good.wf rests.cwd now path.bytes
  refine .step again (.ite (fun found => ?_) fun _ => .ite (fun _ => makes_none) fun _ => makes_none)
  have gains := entered.gains resting dense free (allocateFreeBlock_tables _ _ _ took) rfl
    (welcome.dense (.inl dense))
  obtain ⟨_, _, again', leads⟩ := gains.resolvePath_sees resting.cwd path.bytes err _ run rfl
  rw [again] at again'
  cases again'
  obtain ⟨d', rfl⟩ := leads found.2
  have live := resolved.foundAt_slot rfl
  rw [entered.written] at live
  have adds := (entered.adds fun x here' => entered.keeps.dirs x here' id).of_alloc resting.good.wf free
  obtain ⟨_, _, again', _, looked⟩ :=
    resolvePath_again gains adds (resting.good.dense dense) live resting.cwd run
  rw [again] at again'
  cases again'
  have looks := looked rfl
  rw [cName_packName (by omega) noNul rfl] at looks
  intro _ _ _ _ _ _ _
  exact looks

/-- A path that was missing and is opened leads to the new file: the resolution, through the links it
follows, looked for its name in the directory. -/
theorem kOpen_looks (resting : Resting promised s I) (dense : promised.dense) {fd : Nat} {t : Fs}
    {err : PennFatErr} (here : I.dirs d)
    (run : resolvePath now path.bytes s = some ((err, unresolvedIn d), s))
    (welcome : NameWelcome promised I d (getFilenameFromPath path.bytes))
    (opened : kOpen now path.bytes mode s = some (.ok fd, t)) :
    LooksFor s I d (getFilenameFromPath path.bytes) symlinkLevels path.bytes := by
  have looks : Prog.Hoare (fun u => u = s) (kOpen now path.bytes mode) fun res _ =>
      ∀ fd, res = .ok fd → LooksFor s I d (getFilenameFromPath path.bytes) symlinkLevels path.bytes := by
    unfold kOpen
    refine .step (Prog.get_run s) (.ite (fun _ => makes_none) fun _ => .ite (fun _ => makes_none) fun _ => ?_)
    refine .ite (fun _ => makes_none) fun _ =>
      .step run (.ite (fun _ => makes_none) fun _ => .ite (fun found => ?_) fun _ => ?_)
    · cases found
    · exact openCreate_looks resting dense now mode here run welcome
  exact looks s _ t rfl opened fd rfl

end Opening

end Finding

end PennOs.Fat
