import PennOs.Fat.OpenRuns
import PennOs.Fat.SearchedPaths

set_option autoImplicit false

/- Walks to the last component of a path, and how a new entry changes them. -/
namespace PennOs.Fat

open PathWalk

variable {s t : Fs} {I J : Image} {d : Nat} {p : Nat × Nat} {e : DirEntry} {now : UInt64}
  {path name : List UInt8}

section Resolving

variable {front : List (List UInt8)}

/-- The resolution of a path comes to the last of its components. -/
theorem resolvePathInternal_last {k : Nat} (now : UInt64) (follow : Bool) (levels : Nat)
    (mounted : s.Mounted k)
    (searches : Searches s I) (here : I.dirs s.gCwdBlock) (split : components (body path) = front ++ [name])
    (leads : I.seen.walk (front.map stepOf) (start path s.gCwdBlock) = .dir d) :
    I.dirs d ∧ ∃ above, resolvePathInternal now follow (levels + 1) path s =
      walk now follow (resolvePathInternal now follow levels) [name] d above s := by
  have first := start_dir searches.toClosed here path
  have goes : s.goes path front = .dir (some d) := by
    rw [searches.goes_eq here, leads]
    rfl
  exact ⟨seen_walk_dir searches.toClosed first leads,
    resolvePathInternal_goes mounted now follow levels split goes⟩

/-- Without components the path leads to a directory that is not looked up. -/
theorem resolvePathInternal_empty {follow : Bool} {levels : Nat}
    (none : components (body path) = []) {err : PennFatErr} {r : ResolvedPath}
    (run : resolvePathInternal now follow (levels + 1) path s = some ((err, r), t)) :
    r.entryIndexInBlock = -1 := by
  rw [resolvePathInternal, Prog.get_bind] at run
  cases path with
  | nil =>
      simp only at run
      split at run <;> (cases run; rfl)
  | cons c rest =>
      simp only at run
      split at run
      · next absolute =>
          subst absolute
          split at run
          · cases run
            rfl
          · have bare : components rest = [] := none
            rw [bare] at run
            cases run
            rfl
      · next relative =>
          have other : ¬ (c :: rest).head? = some slash := fun same => relative (Option.some.inj same)
          rw [body, if_neg other] at none
          rw [none] at run
          cases run
          rfl

end Resolving

section Adding

/-- The block the entry is for was taken before. -/
theorem Adds.of_alloc {b : Nat} (wf : I.Wf) (free : I.fat b = fatFree) (adds : Adds (I.alloc b) d e p J) :
    Adds I d e p J := by
  have chain : ∀ x, I.dirs x → (I.alloc b).chain x = I.chain x := by
    intro x here
    exact Image.alloc_chain wf free here
  have place : ∀ {x : Nat} {q : Nat × Nat}, I.At x q → (I.alloc b).At x q := by
    intro x q at_
    exact ⟨at_.dir, (chain x at_.dir).symm ▸ at_.block, at_.index⟩
  constructor
  · exact adds.here
  · have spot := adds.spot
    rw [chain d adds.here, vacancy_congr (J := I.alloc b) (I := I) rfl fun _ _ _ _ => rfl] at spot
    exact spot
  · exact adds.slots
  · exact adds.dirs
  · intro x here
    rw [← chain x here]
    exact adds.front x here
  · exact adds.place
  · exact adds.written
  · intro x at_
    exact adds.dead x (place at_)
  · exact adds.before
  · intro x q at_ apart
    exact adds.others x q (place at_) apart
  · intro x q here at_ live apart
    have old := adds.old x q here at_ live apart
    exact ⟨here, chain x here ▸ old.block, old.index⟩
  · intro dense visible x here name
    have same : (I.alloc b).find name ((I.alloc b).chain x) = I.find name (I.chain x) := by
      rw [chain x here]
      exact find_congr rfl fun _ _ _ _ => rfl
    rw [← same]
    exact adds.finds (dense.alloc wf free) visible x here name

variable (adds : Adds I d e p J)

include adds

/-- A name that was not in the directory leads to the new entry. -/
theorem Adds.find_new (dense : I.Dense) (live : e.live = true) (here : I.dirs d)
    (fresh : I.find e.cName (I.chain d) = none) : J.find e.cName (J.chain d) = some p := by
  have visible := (DirEntry.live_iff.mp live).1
  rcases adds.finds dense visible d here e.cName with same | ⟨new, _⟩
  · rw [fresh] at same
    have live' : (J.slot p.1 p.2).live = true := adds.written.symm ▸ live
    obtain ⟨j, less, ends⟩ := find_none same adds.place.block adds.place.index live'
      (congrArg DirEntry.cName adds.written)
    exact absurd ends (adds.before j less)
  · exact new

/-- An entry that was there is where it was. -/
theorem Adds.leadsTo_eq {q : Nat × Nat} {x : Nat} (place : I.At x q) (live : (I.slot q.1 q.2).live = true) :
    J.leadsTo q = I.leadsTo q := by
  have apart : q ≠ p := by
    rintro rfl
    exact absurd (live.symm.trans (adds.dead x place)) nofun
  rw [Image.leadsTo, Image.leadsTo, adds.others x q place apart]

theorem Adds.seen_up (wf : I.Wf) {x : Nat} (here : I.dirs x) : J.seen.up x = I.seen.up x := by
  by_cases top : x = 1
  · simp only [Image.seen, top, ↓reduceIte]
  · have slots := wf.slotsMin
    have place : I.At x (x, 1) := ⟨here, wf.dir_mem here, by omega⟩
    have apart : (x, 1) ≠ p := by
      rintro rfl
      have dead := adds.dead x place
      rw [(wf.dots x here top).live (show 1 < 2 by decide)] at dead
      cases dead
    simp only [Image.seen, top, ↓reduceIte, Image.parent, adds.others x (x, 1) place apart]

/-- The directories that were there are walked as before, where the new name did not lead to one of
them. -/
theorem Adds.walk_dir (dense : I.Dense) (wf : I.Wf) (live : e.live = true)
    (other : ∀ q, I.find e.cName (I.chain d) = some q → (I.slot q.1 q.2).type ≠ DirEntry.typeDirectory)
    {x y : Nat} (here : I.dirs x) (parts : List (Component (List UInt8)))
    (leads : I.seen.walk parts x = .dir y) : J.seen.walk parts x = .dir y := by
  induction parts generalizing x with
  | nil => exact leads
  | cons part parts ih =>
      cases part with
      | stay => exact ih here leads
      | up =>
          rw [Tree.walk] at leads ⊢
          rw [adds.seen_up wf here]
          exact ih (PennOs.Fat.seen_up wf.closed here) leads
      | name n =>
          rw [Tree.walk] at leads ⊢
          cases found : I.find n (I.chain x) with
          | none =>
              have looked : I.seen.lookup x n = none := by simp only [Image.seen, found, Option.map_none]
              rw [looked] at leads
              cases leads
          | some q =>
              obtain ⟨member, inside, live', _⟩ := find_some found
              have looked : I.seen.lookup x n = some (I.leadsTo q) := by
                simp only [Image.seen, found, Option.map_some]
              rw [looked] at leads
              cases target : I.leadsTo q with
              | inl x' =>
                  have again : J.seen.lookup x n = some (.inl x') := by
                    rcases adds.finds dense (DirEntry.live_iff.mp live).1 x here n with same | ⟨new, there⟩
                    · simp only [Image.seen, same, found, Option.map_some,
                        adds.leadsTo_eq ⟨here, member, inside⟩ live', target]
                    · obtain ⟨_, _, _, named, _⟩ := find_some new
                      rw [adds.written] at named
                      rw [← named, there] at found
                      rw [Image.leadsTo, if_neg (other q found)] at target
                      cases target
                  rw [target] at leads
                  rw [again]
                  exact ih (leadsTo_dir wf.closed here found target) leads
              | inr q' =>
                  rw [target] at leads
                  simp only at leads
                  split at leads <;> cases leads

end Adding

end PennOs.Fat
