import Mathlib.Algebra.Group.Int.Defs
import Mathlib.Algebra.Group.Nat.Defs
import Mathlib.Order.Defs.Unbundled

set_option autoImplicit false

/-- A deterministic program over a state. `none` is a run the source language gives
no meaning to, or one that never ends. -/
def Prog (σ α : Type) : Type := σ → Option (α × σ)

namespace Prog

variable {σ α β : Type}

def fault : Prog σ α := fun _ => none

def get : Prog σ σ := fun s => some (s, s)

def modify (f : σ → σ) : Prog σ Unit := fun s => some ((), f s)

instance : Monad (Prog σ) where
  pure a := fun s => some (a, s)
  bind p f := fun s => match p s with
    | none => none
    | some (a, s') => f a s'

@[simp] theorem pure_run (a : α) (s : σ) : (pure a : Prog σ α) s = some (a, s) := rfl

@[simp] theorem get_run (s : σ) : (get : Prog σ σ) s = some (s, s) := rfl

@[simp] theorem modify_run (f : σ → σ) (s : σ) : modify f s = some ((), f s) := rfl

@[simp] theorem fault_run (s : σ) : (fault : Prog σ α) s = none := rfl

theorem bind_run (p : Prog σ α) (f : α → Prog σ β) (s : σ) :
    (p >>= f) s = match p s with
      | none => none
      | some (a, s') => f a s' := rfl

theorem bind_of_run {p : Prog σ α} {a : α} {s s' : σ} (run : p s = some (a, s'))
    (f : α → Prog σ β) : (p >>= f) s = f a s' := by
  simp only [bind_run, run]

theorem bind_of_fault {p : Prog σ α} {s : σ} (run : p s = none) (f : α → Prog σ β) :
    (p >>= f) s = none := by
  simp only [bind_run, run]

theorem bind_inv {p : Prog σ α} {f : α → Prog σ β} {s s'' : σ} {b : β}
    (run : (p >>= f) s = some (b, s'')) :
    ∃ a s', p s = some (a, s') ∧ f a s' = some (b, s'') := by
  cases first : p s with
  | none => simp [bind_run, first] at run
  | some result =>
      refine ⟨result.1, result.2, rfl, ?_⟩
      simpa only [bind_run, first] using run

theorem bind_some_iff {p : Prog σ α} {f : α → Prog σ β} {s : σ} {r : β × σ} :
    (p >>= f) s = some r ↔ ∃ a s', p s = some (a, s') ∧ f a s' = some r := by
  constructor
  · intro run
    obtain ⟨b, s''⟩ := r
    exact bind_inv run
  · rintro ⟨a, s', run, rest⟩
    rw [bind_of_run run, rest]

@[simp] theorem get_bind (f : σ → Prog σ β) (s : σ) : (get >>= f) s = f s s := rfl

@[simp] theorem modify_bind (g : σ → σ) (f : Unit → Prog σ β) (s : σ) :
    (modify g >>= f) s = f () (g s) := rfl

@[simp] theorem pure_bind_run (a : α) (f : α → Prog σ β) (s : σ) :
    ((pure a : Prog σ α) >>= f) s = f a s := rfl

theorem ite_run (c : Prop) [Decidable c] (p q : Prog σ α) (s : σ) :
    (if c then p else q) s = if c then p s else q s := by
  split <;> rfl

/-- The state `p` leads to from `s`; `s` itself where it has no run. -/
def after (p : Prog σ α) (s : σ) : σ := ((p s).map Prod.snd).getD s

/-- A run that is known by its result. -/
theorem run_after {p : Prog σ α} {s : σ} {a : α} (result : (p s).map Prod.fst = some a) :
    p s = some (a, p.after s) := by
  obtain ⟨⟨b, t⟩, run, same⟩ := Option.map_eq_some_iff.mp result
  obtain rfl : b = a := same
  rw [after, run]
  rfl

/-- A run that is known by its value. -/
theorem run_ok {ε : Type} {p : Prog σ (Except ε α)} {s : σ} {a : α}
    (result : (p s).map (fun x => x.1.toOption) = some (some a)) : p s = some (.ok a, p.after s) := by
  obtain ⟨⟨b, t⟩, run, same⟩ := Option.map_eq_some_iff.mp result
  cases b with
  | error err => cases same
  | ok b =>
      obtain rfl : b = a := Option.some.inj same
      rw [after, run]
      rfl

/-- The run from `s` ends and its result and final state satisfy `post`. -/
def Ensures (p : Prog σ α) (s : σ) (post : α → σ → Prop) : Prop :=
  ∃ a s', p s = some (a, s') ∧ post a s'

theorem Ensures.of_run {p : Prog σ α} {s s' : σ} {a : α} {post : α → σ → Prop}
    (run : p s = some (a, s')) (holds : post a s') : Ensures p s post :=
  ⟨a, s', run, holds⟩

theorem ensures_iff_of_run {p : Prog σ α} {s s' : σ} {a : α} (run : p s = some (a, s'))
    (post : α → σ → Prop) : Ensures p s post ↔ post a s' := by
  constructor
  · rintro ⟨b, t, other, holds⟩
    rw [run] at other
    cases other
    exact holds
  · exact Ensures.of_run run

theorem Ensures.mono {p : Prog σ α} {s : σ} {post post' : α → σ → Prop}
    (holds : Ensures p s post) (weaker : ∀ a s', post a s' → post' a s') :
    Ensures p s post' := by
  obtain ⟨a, s', run, this⟩ := holds
  exact ⟨a, s', run, weaker a s' this⟩

theorem Ensures.bind {p : Prog σ α} {f : α → Prog σ β} {s : σ} {mid : α → σ → Prop}
    {post : β → σ → Prop} (first : Ensures p s mid)
    (rest : ∀ a s', mid a s' → Ensures (f a) s' post) : Ensures (p >>= f) s post := by
  obtain ⟨a, s', run, holds⟩ := first
  obtain ⟨b, s'', run', holds'⟩ := rest a s' holds
  exact ⟨b, s'', by rw [bind_of_run run, run'], holds'⟩

theorem Ensures.pure {s : σ} {a : α} {post : α → σ → Prop} (holds : post a s) :
    Ensures (Pure.pure a) s post := ⟨a, s, rfl, holds⟩

theorem Ensures.get {f : σ → Prog σ β} {s : σ} {post : β → σ → Prop} (rest : Ensures (f s) s post) :
    Ensures (Prog.get >>= f) s post := rest

theorem Ensures.modify {g : σ → σ} {f : Unit → Prog σ β} {s : σ} {post : β → σ → Prop}
    (rest : Ensures (f ()) (g s) post) : Ensures (Prog.modify g >>= f) s post := rest

/-- The first program is known to run. -/
theorem Ensures.step {p : Prog σ α} {f : α → Prog σ β} {s s' : σ} {a : α} {post : β → σ → Prop}
    (run : p s = some (a, s')) (rest : Ensures (f a) s' post) : Ensures (p >>= f) s post := by
  obtain ⟨b, s'', run', holds⟩ := rest
  exact ⟨b, s'', by rw [bind_of_run run, run'], holds⟩

theorem Ensures.ite {c : Prop} [Decidable c] {p q : Prog σ α} {s : σ} {post : α → σ → Prop}
    (yes : c → Ensures p s post) (no : ¬ c → Ensures q s post) :
    Ensures (if c then p else q) s post := by
  split
  · next holds => exact yes holds
  · next fails => exact no fails

theorem Ensures.of_eq {p : Prog σ α} {s s' : σ} {a : α} {post : α → σ → Prop}
    (holds : Ensures p s post) (run : p s = some (a, s')) : post a s' :=
  (ensures_iff_of_run run post).mp holds

/-- Every run relates its first state to its last. -/
def Keeps (R : σ → σ → Prop) (p : Prog σ α) : Prop := ∀ s a s', p s = some (a, s') → R s s'

namespace Keeps

variable {R : σ → σ → Prop} {p q : Prog σ α} {f : α → Prog σ β}

theorem bind [IsTrans σ R] (first : Keeps R p) (rest : ∀ a, Keeps R (f a)) :
    Keeps R (p >>= f) := by
  intro s b s'' run
  obtain ⟨a, s', run, run'⟩ := bind_inv run
  exact IsTrans.trans _ _ _ (first s a s' run) (rest a s' b s'' run')

theorem pure [Std.Refl R] (a : α) : Keeps R (Pure.pure a : Prog σ α) := by
  intro s b s' run
  simp only [pure_run, Option.some.injEq, Prod.mk.injEq] at run
  exact run.2 ▸ Std.Refl.refl s

theorem get [Std.Refl R] : Keeps R Prog.get := by
  intro s b s' run
  simp only [get_run, Option.some.injEq, Prod.mk.injEq] at run
  exact run.2 ▸ Std.Refl.refl s

theorem fault : Keeps R (Prog.fault : Prog σ α) := by
  intro s b s' run
  cases run

theorem modify {g : σ → σ} (changes : ∀ s, R s (g s)) : Keeps R (Prog.modify g) := by
  intro s b s' run
  simp only [modify_run, Option.some.injEq, Prod.mk.injEq, true_and] at run
  exact run ▸ changes s

theorem of_state [Std.Refl R] (same : ∀ s a s', p s = some (a, s') → s = s') : Keeps R p := by
  intro s a s' run
  exact same s a s' run ▸ Std.Refl.refl s

theorem ite {c : Prop} [Decidable c] (yes : c → Keeps R p) (no : ¬ c → Keeps R q) :
    Keeps R (if c then p else q) := by
  split
  · next holds => exact yes holds
  · next fails => exact no fails

end Keeps

/-- Every run from a state with `pre` that ends, ends with `post`. -/
def Hoare (pre : σ → Prop) (p : Prog σ α) (post : α → σ → Prop) : Prop :=
  ∀ s a s', pre s → p s = some (a, s') → post a s'

namespace Hoare

variable {pre pre' : σ → Prop} {post post' : α → σ → Prop} {p q : Prog σ α}

theorem pure {a : α} (holds : ∀ s, pre s → post a s) : Hoare pre (Pure.pure a : Prog σ α) post := by
  intro s b s' start run
  simp only [pure_run, Option.some.injEq, Prod.mk.injEq] at run
  exact run.1 ▸ run.2 ▸ holds s start

theorem bind {f : α → Prog σ β} {mid : α → σ → Prop} {last : β → σ → Prop}
    (first : Hoare pre p mid) (rest : ∀ a, Hoare (mid a) (f a) last) : Hoare pre (p >>= f) last := by
  intro s b s'' start run
  obtain ⟨a, s', run, run'⟩ := bind_inv run
  exact rest a s' b s'' (first s a s' start run) run'

/-- `bind` with the condition between the two programs. -/
theorem seq {f : α → Prog σ β} {last : β → σ → Prop} (mid : α → σ → Prop)
    (first : Hoare pre p mid) (rest : ∀ a, Hoare (mid a) (f a) last) : Hoare pre (p >>= f) last :=
  first.bind rest

/-- The program may depend on the state it starts in. -/
theorem get {f : σ → Prog σ β} {last : β → σ → Prop}
    (rest : ∀ s, Hoare (fun t => t = s ∧ pre t) (f s) last) : Hoare pre (Prog.get >>= f) last := by
  intro s b s' start run
  exact rest s s b s' ⟨rfl, start⟩ run

theorem modify {g : σ → σ} {post : Unit → σ → Prop} (holds : ∀ s, pre s → post () (g s)) :
    Hoare pre (Prog.modify g) post := by
  intro s b s' start run
  simp only [modify_run, Option.some.injEq, Prod.mk.injEq, true_and] at run
  exact run ▸ holds s start

theorem ite {c : Prop} [Decidable c] (yes : c → Hoare pre p post) (no : ¬ c → Hoare pre q post) :
    Hoare pre (if c then p else q) post := by
  split
  · next holds => exact yes holds
  · next fails => exact no fails

theorem fault : Hoare pre (Prog.fault : Prog σ α) post := by
  intro s b s' start run
  cases run

/-- The first program is known to run. -/
theorem step {f : α → Prog σ β} {s s' : σ} {a : α} {last : β → σ → Prop} (run : p s = some (a, s'))
    (rest : Hoare (fun t => t = s') (f a) last) : Hoare (fun t => t = s) (p >>= f) last := by
  rintro _ b s'' rfl run'
  rw [bind_of_run run] at run'
  exact rest s' b s'' rfl run'

theorem of_ensures {s : σ} (holds : Ensures p s post) : Hoare (fun t => t = s) p post := by
  rintro _ a s' rfl run
  exact holds.of_eq run

theorem mono (holds : Hoare pre p post) (stronger : ∀ s, pre' s → pre s)
    (weaker : ∀ a s, post a s → post' a s) : Hoare pre' p post' :=
  fun s a s' start run => weaker a s' (holds s a s' (stronger s start) run)

/-- A fact of the precondition that is not about the state. -/
theorem assume {fact : Prop} (holds : fact → Hoare pre p post) :
    Hoare (fun s => pre s ∧ fact) p post :=
  fun s a s' start run => holds start.2 s a s' start.1 run

/-- What a kept relation carries from the first state to the last. -/
theorem of_keeps {R : σ → σ → Prop} (keeps : Keeps R p) (carried : ∀ s s' a, pre s → R s s' → post a s') :
    Hoare pre p post :=
  fun s a s' start run => carried s s' a start (keeps s a s' run)

end Hoare

/-- A change `g` of the state before the run shows in the state after it, and nowhere else. -/
def Commutes (g : σ → σ) (p : Prog σ α) : Prop := ∀ s, p (g s) = (p s).map (Prod.map id g)

namespace Commutes

variable {g : σ → σ} {p q : Prog σ α} {f : α → Prog σ β}

theorem pure (a : α) : Commutes g (Pure.pure a : Prog σ α) := fun _ => rfl

theorem fault : Commutes g (Prog.fault : Prog σ α) := fun _ => rfl

theorem bind (first : Commutes g p) (rest : ∀ a, Commutes g (f a)) : Commutes g (p >>= f) := by
  intro s
  rw [bind_run, bind_run, first s]
  cases p s with
  | none => rfl
  | some result => exact rest result.1 result.2

/-- What the program reads of the state does not change. -/
theorem get {f : σ → Prog σ β} (same : ∀ s, f (g s) = f s) (rest : ∀ s, Commutes g (f s)) :
    Commutes g (Prog.get >>= f) := by
  intro s
  rw [get_bind, get_bind, same]
  exact rest s s

theorem modify {h : σ → σ} (swap : ∀ s, h (g s) = g (h s)) : Commutes g (Prog.modify h) := by
  intro s
  rw [modify_run, modify_run, swap]
  rfl

theorem ite {c : Prop} [Decidable c] (yes : c → Commutes g p) (no : ¬ c → Commutes g q) :
    Commutes g (if c then p else q) := by
  split
  · next holds => exact yes holds
  · next fails => exact no fails

end Commutes

/-- A run with a `good` result does not notice the change `g` of the state. -/
def Settles (g : σ → σ) (good : α → Prop) (p : Prog σ α) : Prop :=
  ∀ s a t, p s = some (a, t) → good a → p (g s) = some (a, g t)

namespace Settles

variable {g : σ → σ} {good : α → Prop} {last : β → Prop} {p q : Prog σ α} {f : α → Prog σ β}

theorem pure (a : α) : Settles g good (Pure.pure a : Prog σ α) := by
  intro s b t run _
  cases run
  rfl

theorem fault : Settles g good (Prog.fault : Prog σ α) := by
  intro s a t run
  cases run

/-- After a result that is not good nothing good comes. -/
theorem bind (first : Settles g good p) (rest : ∀ a, good a → Settles g last (f a))
    (fails : ∀ s a t, p s = some (a, t) → ¬ good a → ∀ b u, f a t = some (b, u) → ¬ last b) :
    Settles g last (p >>= f) := by
  intro s b u run holds
  obtain ⟨a, t, run, run'⟩ := bind_inv run
  have ok : good a := Classical.byContradiction fun bad => fails s a t run bad b u run' holds
  rw [bind_of_run (first s a t run ok)]
  exact rest a ok t b u run' holds

theorem get {f : σ → Prog σ β} (same : ∀ s, f (g s) = f s) (rest : ∀ s, Settles g last (f s)) :
    Settles g last (Prog.get >>= f) := by
  intro s b t run holds
  rw [get_bind, same]
  exact rest s s b t run holds

theorem ite {c : Prop} [Decidable c] (yes : c → Settles g good p) (no : ¬ c → Settles g good q) :
    Settles g good (if c then p else q) := by
  split
  · next holds => exact yes holds
  · next fails => exact no fails

theorem mono {good' : α → Prop} (settles : Settles g good p) (stronger : ∀ a, good' a → good a) :
    Settles g good' p :=
  fun s a t run holds => settles s a t run (stronger a holds)

end Settles

end Prog
