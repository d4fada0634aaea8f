import Mathlib.Logic.Function.Basic
import Mathlib.Data.List.Nodup

set_option autoImplicit false

/- Singly linked chains through a successor map. A node with no successor ends its chain. -/
namespace LinkedChain

variable {α : Type}

/-- Following `next` from `start` visits exactly the listed nodes, in order, and stops. -/
def Links (next : α → Option α) : Option α → List α → Prop
  | start, [] => start = none
  | start, node :: rest => start = some node ∧ Links next (next node) rest

/-- The node reached from `start` by `count` links. -/
def walk (next : α → Option α) : Nat → Option α → Option α
  | 0, start => start
  | count + 1, start => walk next count (start.bind next)

variable {next next' : α → Option α} {start : Option α} {nodes : List α}

@[simp] theorem links_nil : Links next start [] ↔ start = none := Iff.rfl

@[simp] theorem links_cons {node : α} {rest : List α} :
    Links next start (node :: rest) ↔ start = some node ∧ Links next (next node) rest := Iff.rfl

theorem Links.unique {other : List α} (first : Links next start nodes)
    (second : Links next start other) : nodes = other := by
  induction nodes generalizing start other with
  | nil =>
      cases other with
      | nil => rfl
      | cons node rest => simp_all
  | cons node rest ih =>
      cases other with
      | nil => simp_all
      | cons node' rest' =>
          obtain ⟨head, tail⟩ := first
          obtain ⟨head', tail'⟩ := second
          obtain rfl : node = node' := by simpa [head] using head'
          rw [ih tail tail']

theorem Links.congr (links : Links next start nodes)
    (same : ∀ node ∈ nodes, next' node = next node) : Links next' start nodes := by
  induction nodes generalizing start with
  | nil => exact links
  | cons node rest ih =>
      refine ⟨links.1, ?_⟩
      rw [same node (by simp)]
      exact ih links.2 (fun other member => same other (by simp [member]))

theorem Links.drop {front back : List α} {node : α}
    (links : Links next start (front ++ node :: back)) : Links next (some node) (node :: back) := by
  induction front generalizing start with
  | nil => exact ⟨rfl, links.2⟩
  | cons first rest ih => exact ih links.2

/-- Links do not leave the chain. -/
theorem Links.closed {node after : α} (links : Links next start nodes) (member : node ∈ nodes)
    (link : next node = some after) : after ∈ nodes := by
  induction nodes generalizing start with
  | nil => cases member
  | cons first rest ih =>
      obtain ⟨_, tail⟩ := links
      rcases List.mem_cons.mp member with rfl | later
      · cases rest with
        | nil =>
            rw [links_nil, link] at tail
            cases tail
        | cons second rest =>
            obtain rfl := Option.some.inj (link.symm.trans tail.1)
            simp
      · exact List.mem_cons_of_mem _ (ih tail later)

/-- A chain that stops never returns to a node it has visited. -/
theorem Links.nodup (links : Links next start nodes) : nodes.Nodup := by
  induction nodes generalizing start with
  | nil => exact List.nodup_nil
  | cons node rest ih =>
      refine List.nodup_cons.mpr ⟨?_, ih links.2⟩
      intro again
      obtain ⟨front, back, split⟩ := List.append_of_mem again
      have shorter : Links next (some node) (node :: back) := by
        have tail := links.2
        rw [split] at tail
        exact tail.drop
      have whole : Links next (some node) (node :: rest) := ⟨rfl, links.2⟩
      have lengths := congrArg List.length (shorter.unique whole)
      rw [split] at lengths
      simp only [List.length_cons, List.length_append] at lengths
      omega

section Along

/-- `count` links lead from `node` to `target`, past nodes that `passes` holds of. -/
inductive Along (next : α → Option α) (passes : α → Prop) (target : α) : α → Nat → Prop where
  | here : Along next passes target target 0
  | on {node after : α} {count : Nat} : passes node → next node = some after →
      Along next passes target after count → Along next passes target node (count + 1)

variable {passes passes' : α → Prop} {node after target : α} {count : Nat}

/-- One link more. -/
theorem Along.push (along : Along next passes target node count) (passed : passes target)
    (link : next target = some after) : Along next passes after node (count + 1) := by
  induction along with
  | here => exact .on passed link .here
  | on passed' link' _ ih => exact .on passed' link' ih

/-- Links that are the same on the way lead to the same node. -/
theorem Along.congr (along : Along next passes target node count)
    (same : ∀ x count y, Along next passes x node count → passes x → next x = some y →
      passes' x ∧ next' x = some y) : Along next' passes' target node count := by
  induction along with
  | here => exact .here
  | on passed link _ ih =>
      obtain ⟨passed', link'⟩ := same _ 0 _ .here passed link
      refine .on passed' link' (ih fun x count y along => ?_)
      exact same x (count + 1) y (.on passed link along)

/-- The same, where what is known is known of the nodes that the other links lead to. -/
theorem Along.transfer (along : Along next passes target node count)
    (same : ∀ x count y, Along next' passes' x node count → passes x → next x = some y →
      passes' x ∧ next' x = some y) : Along next' passes' target node count := by
  induction along with
  | here => exact .here
  | on passed link _ ih =>
      obtain ⟨passed', link'⟩ := same _ 0 _ .here passed link
      refine .on passed' link' (ih fun x count y along => ?_)
      exact same x (count + 1) y (.on passed' link' along)

/-- A node without a successor is the last one that links lead to. -/
theorem Along.unique {other : α} {count' : Nat} (along : Along next passes target node count)
    (along' : Along next passes' other node count') (ends : next target = none) (ends' : next other = none) :
    target = other := by
  induction along generalizing count' with
  | here =>
      cases along' with
      | here => rfl
      | on _ link _ => exact absurd (ends.symm.trans link) (by rintro ⟨⟩)
  | on _ link _ ih =>
      cases along' with
      | here => exact absurd (ends'.symm.trans link) (by rintro ⟨⟩)
      | on _ link' along' =>
          obtain rfl := Option.some.inj (link.symm.trans link')
          exact ih along'

theorem Along.mono (along : Along next passes target node count) (weaker : ∀ x, passes x → passes' x) :
    Along next passes' target node count :=
  along.congr fun x _ _ _ passed link => ⟨weaker x passed, link⟩

theorem Along.forget (along : Along next passes target node count) :
    Along next (fun _ => True) target node count :=
  along.mono fun _ _ => trivial

end Along

section Update

variable [DecidableEq α]

/-- Appending a fresh last node. -/
theorem Links.push {front : List α} {last new : α}
    (links : Links next start (front ++ [last])) (fresh : new ∉ front ++ [last])
    (ends : next new = none) :
    Links (Function.update next last (some new)) start (front ++ [last, new]) := by
  have distinct := links.nodup
  induction front generalizing start with
  | nil =>
      have other : new ≠ last := by simpa using fresh
      simpa [Function.update_of_ne other, ends] using links.1
  | cons node rest ih =>
      obtain ⟨head, tail⟩ := links
      have apart : node ≠ last := by
        intro same
        simp [same] at distinct
      refine ⟨head, ?_⟩
      rw [Function.update_of_ne apart]
      apply ih tail
      · simp only [List.cons_append, List.mem_cons, not_or] at fresh
        exact fresh.2
      · exact (List.nodup_cons.mp distinct).2

/-- Unlinking the node after `node`. -/
theorem Links.unlink {front back : List α} {node removed : α}
    (links : Links next start (front ++ node :: removed :: back)) :
    Links (Function.update next node (next removed)) start (front ++ node :: back) := by
  have distinct := links.nodup
  induction front generalizing start with
  | nil =>
      obtain ⟨head, _, tail⟩ := links
      have absent : node ∉ back := by
        simp only [List.nil_append, List.nodup_cons, List.mem_cons, not_or] at distinct
        exact distinct.1.2
      refine ⟨head, ?_⟩
      simp only [Function.update_self]
      apply tail.congr
      intro other member
      have apart : other ≠ node := fun same => absent (same ▸ member)
      exact Function.update_of_ne apart _ _
  | cons first rest ih =>
      obtain ⟨head, tail⟩ := links
      have apart : first ≠ node := by
        intro same
        simp [same] at distinct
      refine ⟨head, ?_⟩
      rw [Function.update_of_ne apart]
      exact ih tail (List.nodup_cons.mp distinct).2

/-- A write to a node off the chain leaves the chain alone. -/
theorem Links.frame {node : α} {target : Option α} (links : Links next start nodes)
    (outside : node ∉ nodes) : Links (Function.update next node target) start nodes := by
  apply links.congr
  intro other member
  have apart : other ≠ node := fun same => outside (same ▸ member)
  exact Function.update_of_ne apart _ _

end Update

end LinkedChain
