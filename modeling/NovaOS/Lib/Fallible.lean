import Mathlib.Tactic.Common

/-!
# Fallible computations on a state

`Fallible σ α` is a C function that reads and writes a state and either returns a value or reports
an error; the state after an error is kept, because what was written before the error stays written.
`Triple P x Q E` says that a run of `x` from a state in `P` either returns a value and a state
related by `Q`, or fails in a state in `E`.
-/

namespace NovaOS.Lib

/-- A computation that returns a value or fails, with the state after it in both cases. -/
def Fallible (σ α : Type) : Type := σ → Option α × σ

namespace Fallible

variable {σ α β : Type}

instance : Monad (Fallible σ) where
  pure a := fun s => (some a, s)
  bind x f := fun s =>
    match x s with
    | (some a, s') => f a s'
    | (none, s') => (none, s')

/-- `return -1`. -/
def fail : Fallible σ α := fun s => (none, s)

/-- A value read off the state. -/
def reads (f : σ → α) : Fallible σ α := fun s => (some (f s), s)

/-- A write to the state. -/
def update (f : σ → σ) : Fallible σ Unit := fun s => (some (), f s)

/-- An error unless the condition holds. -/
def check (c : Bool) : Fallible σ Unit := if c then Pure.pure () else fail

/-- `clean` where `x` fails. -/
def orClean (x : Fallible σ α) (clean : σ → σ) : Fallible σ α := fun s =>
  match x s with
  | (some a, s') => (some a, s')
  | (none, s') => (none, clean s')

/-- `y` where `x` fails. -/
def orTry (x y : Fallible σ α) : Fallible σ α := fun s =>
  match x s with
  | (some a, s') => (some a, s')
  | (none, s') => y s'

variable {f : α → Fallible σ β} {s s' : σ} {a : α}

theorem bind_some {x : Fallible σ α} (h : x s = (some a, s')) : (x >>= f) s = f a s' := by
  show (match x s with | (some a, s') => f a s' | (none, s') => (none, s')) = f a s'
  rw [h]

theorem bind_none {x : Fallible σ α} (h : x s = (none, s')) : (x >>= f) s = (none, s') := by
  show (match x s with | (some a, s') => f a s' | (none, s') => (none, s')) = (none, s')
  rw [h]

theorem bind_bind {γ : Type} (x : Fallible σ α) (f : α → Fallible σ β) (g : β → Fallible σ γ) :
    x >>= f >>= g = x >>= fun a => f a >>= g := by
  funext s
  rcases h : x s with ⟨_ | a, s'⟩
  · rw [bind_none h, bind_none (bind_none h)]
  · rw [bind_some h]
    rcases h' : f a s' with ⟨_ | b, s''⟩
    · rw [bind_none h', bind_none ((bind_some h).trans h')]
    · rw [bind_some h', bind_some ((bind_some h).trans h')]

theorem bind_reads (f : σ → α) (g : α → Fallible σ β) (s : σ) : (reads f >>= g) s = g (f s) s := rfl

theorem eq_of_fst_eq_some {r : Option α × σ} (h : r.1 = some a) : r = (some a, r.2) := by
  rw [← h]

/-! ## Triples -/

/-- From a state in `P`, `x` returns a value and a state in `Q` or fails in a state in `E`. -/
def Triple (P : σ → Prop) (x : Fallible σ α) (Q : α → σ → Prop) (E : σ → Prop) : Prop :=
  ∀ s, P s → match x s with
    | (some a, s') => Q a s'
    | (none, s') => E s'

variable {P P' E E' : σ → Prop} {Q Q' : α → σ → Prop} {R : β → σ → Prop} {x y : Fallible σ α}

theorem Triple.returns (h : Triple P x Q E) (hs : P s) (hx : x s = (some a, s')) : Q a s' := by
  have hpost := h s hs
  rw [hx] at hpost
  exact hpost

theorem Triple.fails (h : Triple P x Q E) (hs : P s) (hx : x s = (none, s')) : E s' := by
  have hpost := h s hs
  rw [hx] at hpost
  exact hpost

/-- A run that cannot end in `E` returns. -/
theorem Triple.total (h : Triple P x Q E) (hs : P s) (hE : ¬E (x s).2) :
    ∃ a s', x s = (some a, s') ∧ Q a s' := by
  rcases hx : x s with ⟨_ | a, s'⟩
  · rw [hx] at hE
    exact absurd (h.fails hs hx) hE
  · exact ⟨a, s', rfl, h.returns hs hx⟩

theorem Triple.mono (h : Triple P x Q E) (hP : ∀ s, P' s → P s) (hQ : ∀ a s, Q a s → Q' a s)
    (hE : ∀ s, E s → E' s) : Triple P' x Q' E' := by
  intro s hs
  rcases hx : x s with ⟨_ | a, s'⟩
  · exact hE _ (h.fails (hP _ hs) hx)
  · exact hQ _ _ (h.returns (hP _ hs) hx)

theorem Triple.pure (h : ∀ s, P s → Q a s) : Triple P (pure a) Q E := fun s hs => h s hs

theorem Triple.fail (h : ∀ s, P s → E s) : Triple P (fail : Fallible σ α) Q E := fun s hs => h s hs

theorem Triple.reads {f : σ → α} (h : ∀ s, P s → Q (f s) s) : Triple P (reads f) Q E :=
  fun s hs => h s hs

theorem Triple.update {Q : Unit → σ → Prop} {f : σ → σ} (h : ∀ s, P s → Q () (f s)) :
    Triple P (update f) Q E := fun s hs => h s hs

theorem Triple.bind (hx : Triple P x Q E) (hf : ∀ a, Triple (Q a) (f a) R E) :
    Triple P (x >>= f) R E := by
  intro s hs
  rcases h : x s with ⟨_ | a, s'⟩
  · rw [bind_none h]
    exact hx.fails hs h
  · rw [bind_some h]
    exact hf a s' (hx.returns hs h)

theorem Triple.ite {c : Prop} [Decidable c] (ht : c → Triple P x Q E)
    (he : ¬c → Triple P y Q E) : Triple P (if c then x else y) Q E := by
  split
  · exact ht ‹_›
  · exact he ‹_›

theorem Triple.orClean {clean : σ → σ} (h : Triple P x Q E') (hE : ∀ s, E' s → E (clean s)) :
    Triple P (x.orClean clean) Q E := by
  intro s hs
  unfold Fallible.orClean
  rcases hx : x s with ⟨_ | a, s'⟩
  · exact hE s' (h.fails hs hx)
  · exact h.returns hs hx

theorem Triple.orTry (hx : Triple P x Q E') (hy : Triple E' y Q E) : Triple P (x.orTry y) Q E := by
  intro s hs
  unfold Fallible.orTry
  rcases hr : x s with ⟨_ | a, s'⟩
  · exact hy s' (hx.fails hs hr)
  · exact hx.returns hs hr

theorem Triple.fail_mono (h : Triple P x Q E) (hE : ∀ s, E s → E' s) : Triple P x Q E' :=
  h.mono (fun _ hs => hs) (fun _ _ hq => hq) hE

variable {p : α → Prop}

/-- A continuation that is told what is known of the value it is given. -/
theorem Triple.bind_fact (hx : Triple P x (fun a s => P' s ∧ p a) E)
    (hf : ∀ a, p a → Triple P' (f a) R E) : Triple P (x >>= f) R E :=
  hx.bind fun a s hs => hf a hs.2 s hs.1

/-- What holds whatever the state is can be used to prove the triple. -/
theorem Triple.intro_pre {p : Prop} (hp : ∀ s, P s → p) (h : p → Triple P x Q E) :
    Triple P x Q E := fun s hs => h (hp s hs) s hs

/-- `x` keeps the predicate, whether it returns or fails. -/
abbrev Keeps (I : σ → Prop) (x : Fallible σ α) : Prop := Triple I x (fun _ => I) I

variable {I : σ → Prop}

theorem Keeps.apply (h : Keeps I x) (hs : I s) : I (x s).2 := by
  rcases hx : x s with ⟨_ | a, s'⟩
  · exact h.fails hs hx
  · exact h.returns hs hx

/-- What is known of the value is forgotten. -/
theorem Triple.keeps (h : Triple I x (fun a s => I s ∧ p a) I) :
    Keeps I x := h.mono (fun _ hs => hs) (fun _ _ hq => hq.1) fun _ he => he

theorem Triple.check (I : σ → Prop) (c : Bool) :
    Triple I (check c) (fun _ s => I s ∧ c = true) (fun s => I s ∧ c = false) :=
  .ite (fun hc => .pure fun _ hs => ⟨hs, hc⟩) fun hc => .fail fun _ hs => ⟨hs, Bool.not_eq_true c ▸ hc⟩

theorem Keeps.check (I : σ → Prop) (c : Bool) : Keeps I (check c) :=
  (Triple.check I c).mono (fun _ hs => hs) (fun _ _ h => h.1) fun _ h => h.1

end Fallible

end NovaOS.Lib
