import Mathlib.Logic.Function.Basic
import Mathlib.Logic.Relation

set_option autoImplicit false

variable {α π : Type}

/-- Directories that each point to their parent, and links from places in directories to
nodes. A node has one link at most, and a linked directory points back to its holder. Loose
nodes have no link yet. -/
structure Hierarchy (root : α) (dir : α → Prop) (parent : α → α) (loose : α → Prop)
    (holds : α → π → α → Prop) : Prop where
  rootDir : dir root
  parentDir : ∀ d, dir d → d ≠ root → dir (parent d)
  holder : ∀ d p c, holds d p c → dir d
  notRoot : ∀ d p c, holds d p c → c ≠ root
  unique : ∀ d p d' p' c, holds d p c → holds d' p' c → d = d' ∧ p = p'
  parentOf : ∀ d p c, holds d p c → dir c → parent c = d
  looseFree : ∀ c, loose c → ∀ d p, ¬ holds d p c
  rank : ∃ rank : α → Nat, ∀ d, dir d → d ≠ root → rank (parent d) < rank d

namespace Hierarchy

/-- `top` is the node itself or one of the nodes its parent pointers lead to, up to the root. -/
inductive Below (root : α) (parent : α → α) (top : α) : α → Prop where
  | self : Below root parent top top
  | up {d : α} : d ≠ root → Below root parent top (parent d) → Below root parent top d

variable {root : α} {dir dir' : α → Prop} {parent parent' : α → α} {loose loose' : α → Prop}
  {holds holds' : α → π → α → Prop} {d top node owner : α}

section Climbing

theorem Below.at_root (below : Below root parent top root) : top = root := by
  cases below with
  | self => rfl
  | up notRoot _ => exact absurd rfl notRoot

theorem Below.trans {middle : α} (upper : Below root parent top middle)
    (lower : Below root parent middle d) : Below root parent top d := by
  induction lower with
  | self => exact upper
  | up notRoot _ ih => exact .up notRoot ih

theorem Below.congr (below : Below root parent top d) (here : dir d)
    (closed : ∀ d, dir d → d ≠ root → dir (parent d))
    (same : ∀ d, dir d → d ≠ root → parent' d = parent d) : Below root parent' top d := by
  induction below with
  | self => exact .self
  | up notRoot _ ih =>
      refine .up notRoot ?_
      rw [same _ here notRoot]
      exact ih (closed _ here notRoot)

variable (tree : Hierarchy root dir parent loose holds)

include tree

theorem below_dir (below : Below root parent top d) (here : dir d) : dir top := by
  induction below with
  | self => exact here
  | up notRoot _ ih => exact ih (tree.parentDir _ here notRoot)

/-- Parent pointers lead to the root. -/
theorem below_root (here : dir d) : Below root parent root d := by
  obtain ⟨rank, lower⟩ := tree.rank
  induction level : rank d using Nat.strongRecOn generalizing d with
  | ind n ih =>
      by_cases top : d = root
      · subst top
        exact .self
      · exact .up top (ih _ (level ▸ lower d here top) (tree.parentDir d here top) rfl)

theorem not_below_parent (here : dir d) (notRoot : d ≠ root) :
    ¬ Below root parent d (parent d) := by
  obtain ⟨rank, lower⟩ := tree.rank
  have above : ∀ x, Below root parent d x → dir x → rank d ≤ rank x := by
    intro x below
    induction below with
    | self => exact fun _ => Nat.le_refl _
    | up other _ ih =>
        intro there
        have step := lower _ there other
        have rest := ih (tree.parentDir _ there other)
        omega
  intro below
  have climb := above _ below (tree.parentDir d here notRoot)
  have step := lower d here notRoot
  omega

/-- Where every directory has a holder, links lead from the root to all of them. -/
theorem reached (held : ∀ d, dir d → d ≠ root → ∃ d' p, holds d' p d) (here : dir d) :
    Relation.ReflTransGen (fun d c => dir c ∧ ∃ p, holds d p c) root d := by
  obtain ⟨rank, lower⟩ := tree.rank
  induction level : rank d using Nat.strongRecOn generalizing d with
  | ind n ih =>
      by_cases top : d = root
      · subst top
        exact .refl
      · obtain ⟨d', p, link⟩ := held d here top
        have pointer := tree.parentOf d' p d link here
        have step := lower d here top
        rw [pointer] at step
        exact (ih _ (level ▸ step) (tree.holder d' p d link) rfl).tail ⟨here, p, link⟩

end Climbing

section Changes

variable (tree : Hierarchy root dir parent loose holds)

include tree

/-- Links and directories may go away, as long as every directory keeps its parent. -/
theorem shrink (rootDir : dir' root) (dirs : ∀ d, dir' d → dir d)
    (up : ∀ d, dir' d → d ≠ root → dir' (parent d))
    (parents : ∀ d, dir' d → d ≠ root → parent' d = parent d)
    (links : ∀ d p c, holds' d p c → holds d p c ∧ dir' d)
    (looseFree : ∀ c, loose' c → ∀ d p, ¬ holds' d p c) :
    Hierarchy root dir' parent' loose' holds' where
  rootDir := rootDir
  parentDir d here notRoot := by
    rw [parents d here notRoot]
    exact up d here notRoot
  holder d p c link := (links d p c link).2
  notRoot d p c link := tree.notRoot d p c (links d p c link).1
  unique d p d' p' c first second :=
    tree.unique d p d' p' c (links d p c first).1 (links d' p' c second).1
  parentOf d p c link here := by
    rw [parents c here (tree.notRoot d p c (links d p c link).1)]
    exact tree.parentOf d p c (links d p c link).1 (dirs c here)
  looseFree := looseFree
  rank := by
    obtain ⟨rank, lower⟩ := tree.rank
    refine ⟨rank, fun d here notRoot => ?_⟩
    rw [parents d here notRoot]
    exact lower d (dirs d here) notRoot

/-- Only links and loose nodes go away. -/
theorem unlink (parents : ∀ d, dir d → d ≠ root → parent' d = parent d)
    (links : ∀ d p c, holds' d p c → holds d p c)
    (looseFree : ∀ c, loose' c → ∀ d p, ¬ holds' d p c) :
    Hierarchy root dir parent' loose' holds' :=
  tree.shrink tree.rootDir (fun _ here => here) tree.parentDir parents
    (fun d p c link => ⟨links d p c link, tree.holder d p c (links d p c link)⟩) looseFree

/-- A node and everything below it stop being directories. -/
theorem dropBelow (proper : top ≠ root)
    (dirs : ∀ d, dir' d ↔ dir d ∧ ¬ Below root parent top d)
    (parents : ∀ d, dir' d → d ≠ root → parent' d = parent d)
    (links : ∀ d p c, holds' d p c → holds d p c ∧ dir' d)
    (looseFree : ∀ c, loose' c → ∀ d p, ¬ holds' d p c) :
    Hierarchy root dir' parent' loose' holds' := by
  refine tree.shrink ?_ (fun d here => ((dirs d).mp here).1) ?_ parents links looseFree
  · exact (dirs root).mpr ⟨tree.rootDir, fun below => proper below.at_root⟩
  · intro d here notRoot
    obtain ⟨there, outside⟩ := (dirs d).mp here
    exact (dirs _).mpr ⟨tree.parentDir d there notRoot, fun below => outside (.up notRoot below)⟩

/-- A loose node gets a link. -/
theorem attach {place : π} (owned : dir owner) (proper : node ≠ root) (free : loose node)
    (agrees : dir node → parent node = owner)
    (parents : ∀ d, dir d → d ≠ root → parent' d = parent d)
    (links : ∀ d p c, holds' d p c → holds d p c ∨ (d = owner ∧ p = place ∧ c = node))
    (rest : ∀ c, loose' c → loose c ∧ c ≠ node) :
    Hierarchy root dir parent' loose' holds' where
  rootDir := tree.rootDir
  parentDir d here notRoot := by
    rw [parents d here notRoot]
    exact tree.parentDir d here notRoot
  holder d p c link := by
    rcases links d p c link with old | ⟨rfl, _, _⟩
    · exact tree.holder d p c old
    · exact owned
  notRoot d p c link := by
    rcases links d p c link with old | ⟨_, _, rfl⟩
    · exact tree.notRoot d p c old
    · exact proper
  unique d p d' p' c first second := by
    rcases links d p c first with old | ⟨rfl, rfl, rfl⟩
    · rcases links d' p' c second with old' | ⟨_, _, rfl⟩
      · exact tree.unique d p d' p' c old old'
      · exact absurd old (tree.looseFree c free d p)
    · rcases links d' p' c second with old' | ⟨rfl, rfl, _⟩
      · exact absurd old' (tree.looseFree c free d' p')
      · exact ⟨rfl, rfl⟩
  parentOf d p c link here := by
    rcases links d p c link with old | ⟨rfl, _, rfl⟩
    · rw [parents c here (tree.notRoot d p c old)]
      exact tree.parentOf d p c old here
    · rw [parents c here proper]
      exact agrees here
  looseFree c free' d p link := by
    obtain ⟨old, other⟩ := rest c free'
    rcases links d p c link with link' | ⟨_, _, same⟩
    · exact tree.looseFree c old d p link'
    · exact other same
  rank := by
    obtain ⟨rank, lower⟩ := tree.rank
    refine ⟨rank, fun d here notRoot => ?_⟩
    rw [parents d here notRoot]
    exact lower d here notRoot

/-- A loose node becomes a directory that holds nothing. -/
theorem adopt (owned : dir owner) (proper : node ≠ root) (free : loose node) (fresh : ¬ dir node)
    (dirs : ∀ d, dir' d ↔ dir d ∨ d = node) (pointer : parent' node = owner)
    (parents : ∀ d, dir d → d ≠ root → parent' d = parent d)
    (links : ∀ d p c, holds' d p c → holds d p c)
    (rest : ∀ c, loose' c → loose c) : Hierarchy root dir' parent' loose' holds' where
  rootDir := (dirs root).mpr (.inl tree.rootDir)
  parentDir d here notRoot := by
    rcases (dirs d).mp here with old | rfl
    · rw [parents d old notRoot]
      exact (dirs _).mpr (.inl (tree.parentDir d old notRoot))
    · rw [pointer]
      exact (dirs _).mpr (.inl owned)
  holder d p c link := (dirs d).mpr (.inl (tree.holder d p c (links d p c link)))
  notRoot d p c link := tree.notRoot d p c (links d p c link)
  unique d p d' p' c first second :=
    tree.unique d p d' p' c (links d p c first) (links d' p' c second)
  parentOf d p c link here := by
    have old := links d p c link
    rcases (dirs c).mp here with there | rfl
    · rw [parents c there (tree.notRoot d p c old)]
      exact tree.parentOf d p c old there
    · exact absurd old (tree.looseFree _ free d p)
  looseFree c free' d p link := tree.looseFree c (rest c free') d p (links d p c link)
  rank := by
    classical
    obtain ⟨rank, lower⟩ := tree.rank
    refine ⟨Function.update rank node (rank owner + 1), fun d here notRoot => ?_⟩
    have apart : ∀ x, dir x → x ≠ node := by
      rintro x there rfl
      exact fresh there
    rcases (dirs d).mp here with old | rfl
    · rw [parents d old notRoot, Function.update_of_ne (apart d old),
        Function.update_of_ne (apart _ (tree.parentDir d old notRoot))]
      exact lower d old notRoot
    · rw [pointer, Function.update_self, Function.update_of_ne (apart _ owned)]
      exact Nat.lt_succ_self _

end Changes

end Hierarchy
