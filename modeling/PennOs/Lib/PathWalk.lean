import Mathlib.Data.List.Basic

set_option autoImplicit false

/- Walks along the components of a path through a tree of directories. -/
namespace PathWalk

inductive Component (Name : Type) where
  | stay | up | name (n : Name)

/-- Where a walk ends. -/
inductive Outcome (Dir File : Type) where
  | dir (d : Dir) | file (f : File) | absent | notDir
  deriving DecidableEq

/-- Directories with a way up; the names in them lead to directories and files. -/
structure Tree (Dir File Name : Type) where
  up : Dir → Dir
  lookup : Dir → Name → Option (Dir ⊕ File)

variable {Dir File Name Part : Type} {tree : Tree Dir File Name} {d d' : Dir} {f : File}
  {path rest : List (Component Name)}

/-- The walk from a directory. Only the last component may lead to a file. -/
def Tree.walk (tree : Tree Dir File Name) : List (Component Name) → Dir → Outcome Dir File
  | [], d => .dir d
  | .stay :: rest, d => tree.walk rest d
  | .up :: rest, d => tree.walk rest (tree.up d)
  | .name n :: rest, d =>
      match tree.lookup d n with
      | none => .absent
      | some (.inl d') => tree.walk rest d'
      | some (.inr f) => if rest.isEmpty then .file f else .notDir

/-- A walk goes on where its first part ended. -/
theorem walk_append (path rest : List (Component Name)) (d : Dir) :
    tree.walk (path ++ rest) d = match tree.walk path d with
      | .dir d' => tree.walk rest d'
      | .file f => if rest.isEmpty then .file f else .notDir
      | .absent => .absent
      | .notDir => .notDir := by
  induction path generalizing d with
  | nil => rfl
  | cons component path ih =>
      cases component with
      | stay => exact ih d
      | up => exact ih (tree.up d)
      | name n =>
          simp only [List.cons_append, Tree.walk]
          cases tree.lookup d n with
          | none => rfl
          | some target =>
              cases target with
              | inl d' => exact ih d'
              | inr f =>
                  cases path with
                  | nil => rfl
                  | cons next path => rfl

/-- On the way to a directory a walk goes through directories. -/
theorem walk_front_dir (ends : tree.walk (path ++ rest) d = .dir d') : ∃ x, tree.walk path d = .dir x := by
  rw [walk_append] at ends
  cases walked : tree.walk path d with
  | dir x => exact ⟨x, rfl⟩
  | file f =>
      rw [walked] at ends
      simp only at ends
      split at ends <;> cases ends
  | absent =>
      rw [walked] at ends
      cases ends
  | notDir =>
      rw [walked] at ends
      cases ends

/-- Files are reached by their names only. -/
theorem walk_file (ends : tree.walk path d = .file f) : ∃ d n, tree.lookup d n = some (.inr f) := by
  induction path generalizing d with
  | nil => cases ends
  | cons component path ih =>
      cases component with
      | stay => exact ih ends
      | up => exact ih ends
      | name n =>
          rw [Tree.walk] at ends
          cases found : tree.lookup d n with
          | none =>
              rw [found] at ends
              cases ends
          | some target =>
              rw [found] at ends
              cases target with
              | inl d' => exact ih ends
              | inr f' =>
                  simp only at ends
                  split at ends
                  · cases ends
                    exact ⟨d, n, found⟩
                  · cases ends

/-- The outcome with its directory under another name. -/
def Outcome.map {Dir' : Type} (rename : Dir → Dir') : Outcome Dir File → Outcome Dir' File
  | .dir d => .dir (rename d)
  | .file f => .file f
  | .absent => .absent
  | .notDir => .notDir

/-- A tree that does what another one does, with other names for the directories, is walked like it. -/
theorem walk_map {Dir' : Type} {tree' : Tree Dir' File Name} {rename : Dir → Dir'} {P : Dir → Prop}
    (up : ∀ d, P d → tree'.up (rename d) = rename (tree.up d) ∧ P (tree.up d))
    (lookup : ∀ d, P d → ∀ n, tree'.lookup (rename d) n = (tree.lookup d n).map (Sum.map rename id) ∧
      ∀ d', tree.lookup d n = some (.inl d') → P d') (path : List (Component Name)) (here : P d) :
    tree'.walk path (rename d) = (tree.walk path d).map rename := by
  induction path generalizing d with
  | nil => rfl
  | cons component path ih =>
      cases component with
      | stay => exact ih here
      | up =>
          simp only [Tree.walk, (up d here).1]
          exact ih (up d here).2
      | name n =>
          obtain ⟨same, later⟩ := lookup d here n
          simp only [Tree.walk, same]
          cases found : tree.lookup d n with
          | none => rfl
          | some target =>
              cases target with
              | inl d' => exact ih (later d' found)
              | inr f =>
                  simp only [Option.map_some, Sum.map_inr, id_eq]
                  split <;> rfl

/-- Trees that agree on directories that the walk does not leave are walked alike. -/
theorem walk_congr {tree' : Tree Dir File Name} {P : Dir → Prop}
    (up : ∀ d, P d → tree'.up d = tree.up d ∧ P (tree.up d))
    (lookup : ∀ d, P d → ∀ n, tree'.lookup d n = tree.lookup d n ∧
      ∀ d', tree.lookup d n = some (.inl d') → P d') (path : List (Component Name)) (here : P d) :
    tree'.walk path d = tree.walk path d := by
  have alike := @walk_map _ _ _ tree d _ tree' id P up (fun d here n => ⟨?_, (lookup d here n).2⟩) path here
  · rw [id_eq] at alike
    rw [alike]
    cases tree.walk path d <;> rfl
  · rw [id_eq, (lookup d here n).1, Sum.map_id_id, Option.map_id, id_eq]

/-- What the steps between directories keep holds where a walk ends. -/
theorem walk_keeps {P : Dir → Prop} (up : ∀ d, P d → P (tree.up d))
    (lookup : ∀ d, P d → ∀ n d', tree.lookup d n = some (.inl d') → P d') (here : P d)
    (ends : tree.walk path d = .dir d') : P d' := by
  induction path generalizing d with
  | nil =>
      cases ends
      exact here
  | cons component path ih =>
      cases component with
      | stay => exact ih here ends
      | up => exact ih (up d here) ends
      | name n =>
          rw [Tree.walk] at ends
          cases found : tree.lookup d n with
          | none =>
              rw [found] at ends
              cases ends
          | some target =>
              rw [found] at ends
              cases target with
              | inl x => exact ih (lookup d here n x found) ends
              | inr f =>
                  simp only at ends
                  split at ends <;> cases ends

section Skipping

variable {component : Part → Component Name} {keep : Part → Bool}

/-- Where a component is left out at the end, a file is in its way. -/
def Outcome.before (dropped : Bool) : Outcome Dir File → Outcome Dir File
  | .dir d => .dir d
  | .file f => if dropped then .notDir else .file f
  | .absent => .absent
  | .notDir => .notDir

theorem before_false (o : Outcome Dir File) : o.before false = o := by cases o <;> rfl

theorem before_dir {dropped : Bool} {o : Outcome Dir File} : o.before dropped = .dir d ↔ o = .dir d := by
  cases o with
  | dir x => rfl
  | file f => cases dropped <;> simp [Outcome.before]
  | absent => rfl
  | notDir => rfl

/-- The last part is one that is left out. -/
def endsDropped (keep : Part → Bool) (parts : List Part) : Bool := parts.getLast?.any fun part => !keep part

theorem endsDropped_cons (part : Part) {parts : List Part} (more : parts ≠ []) :
    endsDropped keep (part :: parts) = endsDropped keep parts := by
  cases parts with
  | nil => exact absurd rfl more
  | cons next parts => rfl

theorem endsDropped_of_filter {parts : List Part} (more : parts ≠ []) (none : parts.filter keep = []) :
    endsDropped keep parts = true := by
  have last := List.filter_eq_nil_iff.mp none _ (List.getLast_mem more)
  rw [endsDropped, List.getLast?_eq_some_getLast more, Option.any_some]
  simpa using last

/-- Components that stay where they are may be left out, unless one of them comes after a file. -/
theorem walk_filter (skipped : ∀ part, keep part = false → component part = .stay)
    (parts : List Part) (d : Dir) :
    tree.walk (parts.map component) d =
      (tree.walk ((parts.filter keep).map component) d).before (endsDropped keep parts) := by
  induction parts generalizing d with
  | nil => rfl
  | cons part parts ih =>
      by_cases alone : parts = []
      · subst alone
        by_cases kept : keep part = true
        · rw [List.filter_cons_of_pos kept]
          have ends : endsDropped keep [part] = false := by simp [endsDropped, kept]
          rw [ends, before_false, List.filter_nil]
        · rw [List.filter_cons_of_neg kept, List.map_cons, skipped part (Bool.eq_false_iff.mpr kept)]
          rfl
      rw [endsDropped_cons part alone]
      by_cases kept : keep part = true
      · rw [List.filter_cons_of_pos kept, List.map_cons, List.map_cons]
        cases component part with
        | stay => exact ih d
        | up => exact ih (tree.up d)
        | name n =>
            simp only [Tree.walk]
            cases tree.lookup d n with
            | none => rfl
            | some target =>
                cases target with
                | inl d' => exact ih d'
                | inr f =>
                    have more : (parts.map component).isEmpty = false := by
                      rw [List.isEmpty_eq_false_iff]
                      exact fun none => alone (List.map_eq_nil_iff.mp none)
                    simp only [more, Bool.false_eq_true, ↓reduceIte]
                    by_cases none : parts.filter keep = []
                    · simp only [none, List.map_nil, List.isEmpty_nil, ↓reduceIte, Outcome.before,
                        endsDropped_of_filter alone none]
                    · have some : ((parts.filter keep).map component).isEmpty = false := by
                        rw [List.isEmpty_eq_false_iff]
                        exact fun empty => none (List.map_eq_nil_iff.mp empty)
                      simp only [some, Bool.false_eq_true, ↓reduceIte, Outcome.before]
      · rw [List.filter_cons_of_neg kept, List.map_cons, skipped part (Bool.eq_false_iff.mpr kept)]
        exact ih d

end Skipping

end PathWalk
