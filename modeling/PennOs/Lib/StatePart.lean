import PennOs.Lib.Prog

set_option autoImplicit false

/-- A part of a state that can be read and replaced. -/
structure StatePart (τ σ : Type) where
  read : τ → σ
  write : σ → τ → τ
  read_write : ∀ s t, read (write s t) = s

attribute [simp] StatePart.read_write

namespace Prog

variable {τ σ α : Type} {part : StatePart τ σ} {p : Prog σ α}

/-- A program on a part of the state. -/
def on (part : StatePart τ σ) (p : Prog σ α) : Prog τ α := fun t =>
  (p (part.read t)).map fun result => (result.1, part.write result.2 t)

theorem on_run {t : τ} {a : α} {s : σ} (run : p (part.read t) = some (a, s)) :
    p.on part t = some (a, part.write s t) := by
  rw [on, run]
  rfl

theorem on_inv {t u : τ} {a : α} (run : p.on part t = some (a, u)) :
    ∃ s, p (part.read t) = some (a, s) ∧ u = part.write s t := by
  obtain ⟨⟨b, s⟩, run', same⟩ := Option.map_eq_some_iff.mp run
  cases same
  exact ⟨s, run', rfl⟩

/-- A triple about the part holds around the program on the whole state. -/
theorem Hoare.on {pre : σ → Prop} {post : α → σ → Prop} (holds : Hoare pre p post) :
    Hoare (fun t => pre (part.read t)) (p.on part) fun a t => post a (part.read t) := by
  intro t a u start run
  obtain ⟨s, run', rfl⟩ := on_inv run
  rw [part.read_write]
  exact holds _ a s start run'

end Prog
