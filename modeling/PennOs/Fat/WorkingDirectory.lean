import PennOs.Fat.ReadOnly
import PennOs.Fat.TreeRuns

set_option autoImplicit false

/- Absolute paths and the current directory: only a link to a path that is not absolute brings it
in. -/
namespace PennOs.Fat

open Prog (Commutes)
open Fs

/-- What a caller of `resolve_path` sees. -/
def outcome (result : Option ((PennFatErr × ResolvedPath) × Fs)) : Option (PennFatErr × Bool × DirEntry) :=
  result.map fun x => (x.1.1, x.1.2.found, x.1.2.entry)

/-- The path is resolved alike from two directories. -/
def AlikeFrom (now : UInt64) (levels : Nat) (path : List UInt8) (s : Fs) (c₁ c₂ : Nat) : Prop :=
  outcome (resolvePathInternal now true levels path (s.setCwd c₁)) =
    outcome (resolvePathInternal now true levels path (s.setCwd c₂))

/-- The absolute path leads to a symbolic link, and resolution goes on with its target. -/
def GoesOn (now : UInt64) (path : List UInt8) (s : Fs) (target : List UInt8) (t : Fs) : Prop :=
  ∀ recurse, walk now true recurse (components path.tail) 1 1 s = recurse target t

/-- Link after link, resolution of the path comes to one that does not begin with a slash, with
`levels'` levels left. -/
inductive ComesTo (now : UInt64) : Nat → List UInt8 → Fs → Nat → List UInt8 → Fs → Prop where
  | relative {levels : Nat} {path : List UInt8} {s : Fs} (starts : path.head? ≠ some slash) :
      ComesTo now levels path s levels path s
  | link {levels levels' : Nat} {path target path' : List UInt8} {s t u : Fs}
      (starts : path.head? = some slash) (proper : path ≠ [slash]) (goes : GoesOn now path s target t)
      (later : ComesTo now levels target t levels' path' u) :
      ComesTo now (levels + 1) path s levels' path' u

variable {s t t' : Fs} {now : UInt64} {path target target' : List UInt8} {c₁ c₂ levels : Nat}

section Walks

/-- A program with a way to go on: it does not use it, or it goes on with one path; up to there it
does not look at the current directory. -/
def Splits (program : (List UInt8 → FsM (PennFatErr × ResolvedPath)) → FsM (PennFatErr × ResolvedPath)) :
    Prop :=
  ∀ s, (∀ recurse c, program recurse (s.setCwd c) =
      (program (fun _ => Prog.fault) s).map (Prod.map id fun t : Fs => t.setCwd c)) ∨
    ∃ target : List UInt8, ∃ t : Fs, ∀ recurse c,
      program recurse (s.setCwd c) = recurse target (t.setCwd c)

theorem Splits.of_commutes {p : FsM (PennFatErr × ResolvedPath)}
    (commutes : ∀ c, Commutes (fun s : Fs => s.setCwd c) p) : Splits fun _ => p :=
  fun s => .inl fun _ c => commutes c s

theorem Splits.bind {α : Type} {p : FsM α}
    {f : α → (List UInt8 → FsM (PennFatErr × ResolvedPath)) → FsM (PennFatErr × ResolvedPath)}
    (commutes : ∀ c, Commutes (fun s : Fs => s.setCwd c) p) (rest : ∀ a, Splits (f a)) :
    Splits fun recurse => p >>= fun a => f a recurse := by
  intro s
  cases first : p s with
  | none =>
      have moved : ∀ c, p (s.setCwd c) = none := by
        intro c
        rw [commutes c s, first]
        rfl
      refine .inl fun recurse c => ?_
      show (p >>= fun a => f a recurse) (s.setCwd c) = ((p >>= fun a => f a _) s).map _
      rw [Prog.bind_of_fault first, Prog.bind_of_fault (moved c)]
      rfl
  | some result =>
      obtain ⟨a, t⟩ := result
      have moved : ∀ c, p (s.setCwd c) = some (a, t.setCwd c) := by
        intro c
        rw [commutes c s, first]
        rfl
      rcases rest a t with fixed | ⟨target, u, goes⟩
      · refine .inl fun recurse c => ?_
        show (p >>= fun a => f a recurse) (s.setCwd c) = ((p >>= fun a => f a _) s).map _
        rw [Prog.bind_of_run first, Prog.bind_of_run (moved c), fixed]
      · refine .inr ⟨target, u, fun recurse c => ?_⟩
        show (p >>= fun a => f a recurse) (s.setCwd c) = _
        rw [Prog.bind_of_run (moved c), goes]

theorem Splits.ite {c : Prop} [Decidable c]
    {p q : (List UInt8 → FsM (PennFatErr × ResolvedPath)) → FsM (PennFatErr × ResolvedPath)}
    (yes : c → Splits p) (no : ¬ c → Splits q) : Splits fun recurse =>
    if c then p recurse else q recurse := by
  by_cases holds : c
  · simp only [holds, ↓reduceIte]
    exact yes holds
  · simp only [holds, ↓reduceIte]
    exact no holds

theorem splits_pure (result : PennFatErr × ResolvedPath) : Splits fun _ => pure result :=
  .of_commutes fun _ => .pure result

/-- The recursion itself. -/
theorem splits_recurse (target : List UInt8) : Splits fun recurse => recurse target :=
  fun s => .inr ⟨target, s, fun _ _ => rfl⟩

theorem walk_splits (now : UInt64) (follow : Bool) (components : List (List UInt8)) (current parent : Nat) :
    Splits fun recurse => walk now follow recurse components current parent := by
  induction components generalizing current parent with
  | nil => exact splits_pure _
  | cons component rest ih =>
      simp only [walk]
      refine .ite (fun _ => ih current parent) fun _ => .ite (fun _ => ?_) fun _ => ?_
      · refine .ite (fun _ => ih current parent) fun _ => ?_
        refine .bind (fun c => findEntryInDir_cwd current dotDot) fun up => ?_
        cases up with
        | error err => exact splits_pure _
        | ok up => exact .ite (fun _ => splits_pure _) fun _ => ih _ current
      · refine .bind (fun c => findEntryInDir_cwd current component) fun hit => ?_
        cases hit with
        | error err => exact splits_pure _
        | ok hit =>
            refine .ite (fun _ => splits_pure _) fun _ => ?_
            cases rest with
            | nil =>
                refine .ite (fun _ => ?_) fun _ => splits_pure _
                refine .bind (fun c => readSymlinkTarget_cwd _) fun target => ?_
                cases target with
                | error err => exact splits_pure _
                | ok target => exact splits_recurse target
            | cons next rest => exact .ite (fun _ => splits_pure _) fun _ => ih _ current

end Walks

section Links

theorem setCwd_self (s : Fs) : s.setCwd s.gCwdBlock = s := rfl

/-- A program that does not go on with a path goes on with none. -/
theorem GoesOn.not_fixed (goes : GoesOn now path s target t)
    (fixed : ∀ recurse c, walk now true recurse (components path.tail) 1 1 (s.setCwd c) =
      (walk now true (fun _ => Prog.fault) (components path.tail) 1 1 s).map
        (Prod.map id fun t : Fs => t.setCwd c)) : False := by
  have stops := fixed (fun _ => pure (.ok, .zero)) s.gCwdBlock
  rw [setCwd_self, goes, goes] at stops
  cases stops

theorem GoesOn.unique (goes : GoesOn now path s target t) (goes' : GoesOn now path s target' t') :
    target = target' ∧ t = t' := by
  let probe : List UInt8 → FsM (PennFatErr × ResolvedPath) := fun other =>
    if other = target then pure (.ok, .zero) else pure (.io, .zero)
  have same : probe target t = probe target' t' := (goes probe).symm.trans (goes' probe)
  by_cases equal : target' = target
  · simp only [probe, equal, ↓reduceIte, Prog.pure_run, Option.some.injEq, Prod.mk.injEq, true_and] at same
    exact ⟨equal.symm, same⟩
  · simp only [probe, ↓reduceIte, if_neg equal, Prog.pure_run, Option.some.injEq, Prod.mk.injEq,
      reduceCtorEq, false_and] at same

/-- A path is resolved alike from two directories exactly if a path that is not absolute, which it
comes to, is. -/
theorem alikeFrom_iff (levels : Nat) (path : List UInt8) (s : Fs) :
    AlikeFrom now levels path s c₁ c₂ ↔ ∀ levels' path' u,
      ComesTo now levels path s levels' path' u → AlikeFrom now levels' path' u c₁ c₂ := by
  induction levels generalizing path s with
  | zero =>
      have range : ∀ path s, AlikeFrom now 0 path s c₁ c₂ := fun _ _ => rfl
      constructor
      · intro _ levels' path' u comes
        cases comes with
        | relative starts => exact range path s
      · exact fun _ => range path s
  | succ levels ih =>
      by_cases starts : path.head? = some slash
      swap
      · constructor
        · intro alike levels' path' u comes
          cases comes with
          | relative => exact alike
          | link starts' => exact absurd starts' starts
        · exact fun all => all _ _ _ (.relative starts)
      obtain ⟨rest, rfl⟩ : ∃ rest, path = slash :: rest := by
        cases path with
        | nil => cases starts
        | cons first rest => exact ⟨rest, by rw [Option.some.inj starts]⟩
      by_cases top : rest = []
      · subst top
        refine ⟨fun _ levels' path' u comes => ?_, fun _ => rfl⟩
        cases comes with
        | relative starts' => exact absurd starts starts'
        | link _ proper => exact absurd rfl proper
      have step : ∀ c, resolvePathInternal now true (levels + 1) (slash :: rest) (s.setCwd c) =
          walk now true (resolvePathInternal now true levels) (components rest) 1 1 (s.setCwd c) := by
        intro c
        rw [resolvePathInternal, Prog.get_bind]
        simp only [↓reduceIte, top]
      rcases walk_splits now true (components rest) 1 1 s with fixed | ⟨target, t, goes⟩
      · constructor
        · intro _ levels' path' u comes
          cases comes with
          | relative starts' => exact absurd starts starts'
          | link _ _ goes => exact (goes.not_fixed fixed).elim
        · intro _
          rw [AlikeFrom, (step c₁).trans (fixed _ c₁), (step c₂).trans (fixed _ c₂), outcome, outcome,
            Option.map_map, Option.map_map]
          rfl
      · have here : GoesOn now (slash :: rest) s target (t.setCwd s.gCwdBlock) :=
          fun recurse => goes recurse s.gCwdBlock
        have alike : AlikeFrom now (levels + 1) (slash :: rest) s c₁ c₂ ↔
            AlikeFrom now levels target (t.setCwd s.gCwdBlock) c₁ c₂ := by
          rw [AlikeFrom, (step c₁).trans (goes _ c₁), (step c₂).trans (goes _ c₂)]
          rfl
        rw [alike, ih target]
        constructor
        · intro all levels' path' u comes
          cases comes with
          | relative starts' => exact absurd starts starts'
          | link _ _ other later =>
              obtain ⟨rfl, rfl⟩ := here.unique other
              exact all _ _ _ later
        · exact fun all levels' path' u comes =>
            all _ _ _ (.link starts (fun same => top (List.cons.inj same).2) here comes)

/-- A path is resolved alike from two directories, unless it, or a target the links on its way lead to,
is not absolute. -/
theorem absolute_alike (s : Fs) (now : UInt64) (path : CStr) (c₁ c₂ : Nat)
    (rooted : ∀ levels target t, ComesTo now symlinkLevels path.bytes s levels target t → levels = 0) :
    outcome (resolvePath now path.bytes (s.setCwd c₁)) =
      outcome (resolvePath now path.bytes (s.setCwd c₂)) := by
  rw [resolvePath]
  by_cases top : path.bytes = [slash]
  · rw [if_pos top]
    rfl
  · rw [if_neg top]
    apply (alikeFrom_iff symlinkLevels path.bytes s).mpr
    intro levels target t comes
    obtain rfl := rooted levels target t comes
    rfl

/-- A link is read to its target, and the lookups on the way leave the state as it is. -/
theorem GoesOn.known (goes : GoesOn now path s target t) (next : List UInt8) (host : s.host = [])
    (reads : (walk now true (fun other => if other = next then pure (.ok, .zero) else Prog.fault)
      (components path.tail) 1 1 s).isSome = true) : target = next ∧ t = s := by
  have same : target = next := by
    by_contra other
    rw [goes, if_neg other] at reads
    cases reads
  have ends : walk now true (fun _ => pure (.ok, .zero)) (components path.tail) 1 1 s =
      some ((.ok, .zero), t) := goes _
  have only := walk_preserves findEntryInDir_host readSymlinkTarget_host (fun _ => .pure (.ok, .zero))
    (components path.tail) 1 1 s _ t ends
  exact ⟨same, only.eq host⟩

/-- A directory "d" with a file "x", a link "m" to "/d/x" and a link "l" to "/m". -/
def linkChain : List Call :=
  [.mkdir 1 (.literal [100]), .touch 2 (.literal [100, 47, 120]),
    .symlink 3 (.literal [47, 100, 47, 120]) (.literal [109]),
    .symlink 4 (.literal [47, 109]) (.literal [108])]

/-- "/l" leads over "/m" to the file "/d/x" from the root directory and from "d". -/
theorem absolute_alike_linkChain :
    outcome (resolvePath 5 [47, 108] (((runCalls linkChain).after blankVolume).setCwd 1)) =
      outcome (resolvePath 5 [47, 108] (((runCalls linkChain).after blankVolume).setCwd 2)) := by
  obtain ⟨s, isS⟩ : ∃ s, s = (runCalls linkChain).after blankVolume := ⟨_, rfl⟩
  rw [← isS]
  have host : s.host = [] := isS ▸ (by decide +kernel)
  refine absolute_alike s 5 ⟨[47, 108], by decide⟩ 1 2 fun levels target t comes => ?_
  cases comes with
  | relative starts => exact absurd rfl starts
  | link _ _ first second =>
      obtain ⟨rfl, rfl⟩ := first.known [47, 109] host (isS ▸ (by decide +kernel))
      cases second with
      | relative starts => exact absurd rfl starts
      | link _ _ first second =>
          obtain ⟨rfl, rfl⟩ := first.known [47, 100, 47, 120] host (isS ▸ (by decide +kernel))
          cases second with
          | relative starts => exact absurd rfl starts
          | link _ _ third _ =>
              subst isS
              have stops : (walk 5 true (fun _ => Prog.fault) (components [100, 47, 120]) 1 1
                  ((runCalls linkChain).after blankVolume)).isSome = true := by decide +kernel
              rw [show walk 5 true _ (components [100, 47, 120]) 1 1 _ = _ from third _] at stops
              cases stops

/-- A directory "d", a file "x" and a link "l" to "x" in the root directory. -/
def relativeLink : List Call :=
  [.mkdir 1 (.literal [100]), .touch 2 (.literal [120]),
    .symlink 3 (.literal [120]) (.literal [108])]

/-- "/l" is found from the root directory, and not from "d". -/
theorem absolute_depends_on_cwd :
    ¬ ∀ (s : Fs) (now : UInt64) (path : CStr) (c₁ c₂ : Nat), path.bytes.head? = some slash →
      s.disk.Dir c₁ → s.disk.Dir c₂ →
      outcome (resolvePath now path.bytes (s.setCwd c₁)) =
        outcome (resolvePath now path.bytes (s.setCwd c₂)) := by
  intro always
  obtain ⟨s, isS⟩ : ∃ s, s = (runCalls relativeLink).after blankVolume := ⟨_, rfl⟩
  have sub : s.disk.Dir (s.disk.firstOf (1, 0)) := by
    subst isS
    exact .sub .root .start (by decide +kernel) (by decide +kernel) (fun isDot => isDot.1 rfl)
      (by decide +kernel)
  have first : s.disk.firstOf (1, 0) = 2 := by
    subst isS
    decide +kernel
  rw [first] at sub
  have alike := always s 4 ⟨[47, 108], by decide⟩ 1 2 rfl .root sub
  have found : (outcome (resolvePath 4 [47, 108] (s.setCwd 1))).map (·.2.1) = some true := by
    subst isS
    decide +kernel
  have missing : (outcome (resolvePath 4 [47, 108] (s.setCwd 2))).map (·.2.1) = some false := by
    subst isS
    decide +kernel
  rw [alike, missing] at found
  exact absurd (Option.some.inj found) (by decide)

end Links

end PennOs.Fat
