import Mathlib.Data.List.Basic

/-!
# Plans

A computation that puts requests to a world it does not see and goes on with the answers. It ends
with a value, with an error, or with a panic. `run` plays it against a world with a state, and
`trace` lists what was asked and answered.

A `Contract` separates the answers after which a plan must come out right (`Clean`) from those that
make it fail. `Holds` is judged answer by answer, composes along `>>=` and loops, and decides the
outcome of every run (`Holds.run`).
-/

namespace Senko

open List

inductive Plan (ι : Type) (ρ : ι → Type) (ε α : Type) where
  | done (value : α)
  | fail (error : ε)
  | crash
  | ask (request : ι) (next : ρ request → Plan ι ρ ε α)

namespace Plan

variable {ι : Type} {ρ : ι → Type} {ε α β γ σ : Type}

def bind : Plan ι ρ ε α → (α → Plan ι ρ ε β) → Plan ι ρ ε β
  | done a, f => f a
  | fail e, _ => fail e
  | crash, _ => crash
  | ask request next, f => ask request fun answer => (next answer).bind f

instance : Monad (Plan ι ρ ε) where
  pure := done
  bind := bind

/-- A value that the program takes for granted. -/
def unwrap : Option α → Plan ι ρ ε α
  | some a => done a
  | none => crash

@[simp] theorem done_bind (a : α) (f : α → Plan ι ρ ε β) : (done a >>= f) = f a := rfl
@[simp] theorem fail_bind (e : ε) (f : α → Plan ι ρ ε β) : (fail e >>= f) = fail e := rfl
theorem bind_done (p : Plan ι ρ ε α) : (p >>= done) = p := by
  induction p with
  | done a => rfl
  | fail e => rfl
  | crash => rfl
  | ask request next ih =>
    show ask request _ = ask request _
    congr 1
    funext answer
    exact ih answer

variable {p : Plan ι ρ ε α}

theorem bind_eq_done {f : α → Plan ι ρ ε β} {b : β}
    (h : (p >>= f) = done b) : ∃ a, p = done a ∧ f a = done b := by
  cases p with
  | done a => exact ⟨a, rfl, h⟩
  | fail e => cases h
  | crash => cases h
  | ask request next => cases h

/-! ## Runs -/

section Run

variable (step : (request : ι) → σ → ρ request × σ)

/-- Play a plan against a world. -/
def run : Plan ι ρ ε α → σ → Option (Except ε α) × σ
  | done a, s => (some (.ok a), s)
  | fail e, s => (some (.error e), s)
  | crash, s => (none, s)
  | ask request next, s => (next (step request s).1).run (step request s).2

/-- A plan succeeds with a value and leaves a state. -/
def Runs (p : Plan ι ρ ε α) (s : σ) (a : α) (s' : σ) : Prop := p.run step s = (some (.ok a), s')

variable {step}

theorem run_bind (p : Plan ι ρ ε α) (f : α → Plan ι ρ ε β) (s : σ) : (p >>= f).run step s =
      match p.run step s with
      | (some (.ok a), s') => (f a).run step s'
      | (some (.error e), s') => (some (.error e), s')
      | (none, s') => (none, s') := by
  induction p generalizing s with
  | done a => rfl
  | fail e => rfl
  | crash => rfl
  | ask request next ih => exact ih _ _

theorem Runs.bind {p : Plan ι ρ ε α} {f : α → Plan ι ρ ε β} {s s' : σ} {a : α}
    (h : p.Runs step s a s') : (p >>= f).run step s = (f a).run step s' := by
  rw [run_bind, h]

/-- A loop whose steps succeed, one after another: `g` says what it has gathered so far, and `P`
what is known of the state. -/
theorem Runs.foldlM {f : β → γ → Plan ι ρ ε β} {g : List γ → β} {P : σ → Prop}
    (hf : ∀ before item s, P s →
      ∃ s', (f (g before) item).Runs step s (g (before ++ [item])) s' ∧ P s')
    (items : List γ) {s : σ} (hs : P s) :
    ∃ s', (items.foldlM f (g [])).Runs step s (g items) s' ∧ P s' := by
  have hloop (before : List γ) :
      ∃ s', (items.foldlM f (g before)).Runs step s (g (before ++ items)) s' ∧ P s' := by
    induction items generalizing before s with
    | nil => exact ⟨s, by rw [append_nil]; rfl, hs⟩
    | cons item items ih =>
      obtain ⟨s₁, hrun, hs₁⟩ := hf before item s hs
      obtain ⟨s₂, hrest, hs₂⟩ := ih hs₁ (before ++ [item])
      refine ⟨s₂, ?_, hs₂⟩
      unfold Runs
      rw [foldlM_cons, hrun.bind, append_cons before item items]
      exact hrest
  exact hloop []

variable (step)

/-- The requests of a run with their answers. -/
def trace : Plan ι ρ ε α → σ → List (Σ request, ρ request)
  | done _, _ | fail _, _ | crash, _ => []
  | ask request next, s =>
    ⟨request, (step request s).1⟩ :: (next (step request s).1).trace (step request s).2

end Run

/-! ## Contracts -/

/-- What a world may answer, which answers do no harm, and what errors may and may not look like. -/
structure Contract (ι : Type) (ρ : ι → Type) (ε : Type) where
  Sound : (request : ι) → ρ request → Prop
  Clean : (request : ι) → ρ request → Prop
  Good : ε → Prop
  Bad : ε → Prop

variable (c : Contract ι ρ ε)

/-- While the answers are clean the plan goes on, to a value with `Q` or a good error. With the
first answer that is not clean it ends, with a bad error. -/
def Holds (Q : α → Prop) : Plan ι ρ ε α → Prop
  | done a => Q a
  | fail e => c.Good e
  | crash => False
  | ask request next => ∀ answer, c.Sound request answer →
    (c.Clean request answer → (next answer).Holds Q) ∧
      (¬c.Clean request answer → ∃ e, next answer = fail e ∧ c.Bad e)

variable {c} {Q : α → Prop} {R : β → Prop}

theorem Holds.bind {f : α → Plan ι ρ ε β} (hp : p.Holds c Q)
    (hf : ∀ a, Q a → (f a).Holds c R) : (p >>= f).Holds c R := by
  induction p with
  | done a => exact hf a hp
  | fail e => exact hp
  | crash => exact hp
  | ask request next ih =>
    intro answer hsound
    obtain ⟨hclean, hbad⟩ := hp answer hsound
    constructor
    · intro h
      exact ih answer (hclean h)
    · intro h
      obtain ⟨e, he, hebad⟩ := hbad h
      refine ⟨e, ?_, hebad⟩
      show (next answer >>= f) = fail e
      rw [he, fail_bind]

/-- A loop keeps its invariant. -/
theorem Holds.foldlM {f : β → γ → Plan ι ρ ε β} {items : List γ} {b : β}
    (hf : ∀ b item, item ∈ items → R b → (f b item).Holds c R) (hb : R b) :
    (items.foldlM f b).Holds c R := by
  induction items generalizing b with
  | nil => exact hb
  | cons item items ih =>
    rw [foldlM_cons]
    apply Holds.bind (hf b item mem_cons_self hb)
    intro b' hb'
    exact ih (fun b item hitem => hf b item (mem_cons_of_mem _ hitem)) hb'

variable (c) in
/-- All answers of a trace are clean. -/
def AllClean (trace : List (Σ request, ρ request)) : Prop :=
  ∀ exchange ∈ trace, c.Clean exchange.1 exchange.2

/-- **The outcome of a run is decided by its answers**: a value or a good error if all of them were
clean, a bad error otherwise. -/
theorem Holds.run {step : (request : ι) → σ → ρ request × σ}
    (hp : p.Holds c Q) (hsound : ∀ request s, c.Sound request (step request s).1) (s : σ) :
    (AllClean c (p.trace step s) ∧ ((∃ a, (p.run step s).1 = some (.ok a) ∧ Q a) ∨
      ∃ e, (p.run step s).1 = some (.error e) ∧ c.Good e)) ∨
    (¬AllClean c (p.trace step s) ∧ ∃ e, (p.run step s).1 = some (.error e) ∧ c.Bad e) := by
  induction p generalizing s with
  | done a => exact .inl ⟨by rintro _ ⟨⟩, .inl ⟨a, rfl, hp⟩⟩
  | fail e => exact .inl ⟨by rintro _ ⟨⟩, .inr ⟨e, rfl, hp⟩⟩
  | crash => exact hp.elim
  | ask request next ih =>
    obtain ⟨hclean, hbad⟩ := hp _ (hsound request s)
    by_cases h : c.Clean request (step request s).1
    · have hall : AllClean c ((ask request next).trace step s) ↔
          AllClean c ((next (step request s).1).trace step (step request s).2) := by
        show (∀ exchange ∈ _ :: _, _) ↔ _
        rw [forall_mem_cons]
        exact and_iff_right h
      rw [hall]
      exact ih _ (hclean h) _
    · obtain ⟨e, he, hebad⟩ := hbad h
      refine .inr ⟨fun hall => h (hall _ mem_cons_self), e, ?_, hebad⟩
      show ((next (step request s).1).run step (step request s).2).1 = _
      rw [he]
      rfl

end Plan

end Senko
