import Mathlib.Data.List.Basic

/-!
# Runs of a machine

A machine takes operations one after the other. What every operation keeps, every run keeps; where
operations keep it only under a condition on the state they run in, the condition has to hold at
every step of the run.
-/

namespace Senko

open List

section Run

variable {σ ι : Type*} (step : σ → ι → σ)

/-- Every operation of a run meets a condition in the state it runs in. -/
def RunAll (safe : σ → ι → Prop) : σ → List ι → Prop
  | _, [] => True
  | s, op :: ops => safe s op ∧ RunAll safe (step s op) ops

instance RunAll.decidable {safe : σ → ι → Prop} [∀ s op, Decidable (safe s op)] :
    ∀ s ops, Decidable (RunAll step safe s ops)
  | _, [] => inferInstanceAs (Decidable True)
  | s, op :: ops =>
    let _ : Decidable (RunAll step safe (step s op) ops) := RunAll.decidable (step s op) ops
    inferInstanceAs (Decidable (safe s op ∧ RunAll step safe (step s op) ops))

variable {step} {P : σ → Prop} {safe : σ → ι → Prop} {s : σ}

/-- **Invariants of runs**: what every operation keeps, every run keeps. -/
theorem RunAll.induction (hstep : ∀ s op, P s → safe s op → P (step s op)) {ops : List ι}
    (hsafe : RunAll step safe s ops) (h : P s) : P (ops.foldl step s) := by
  induction ops generalizing s with
  | nil => exact h
  | cons op ops ih => exact ih hsafe.2 (hstep s op h hsafe.1)

/-- A run, and one operation more. -/
theorem RunAll.of_append_singleton {ops : List ι} {op : ι} (h : RunAll step safe s (ops ++ [op])) :
    RunAll step safe s ops ∧ safe (ops.foldl step s) op := by
  induction ops generalizing s with
  | nil => exact ⟨trivial, h.1⟩
  | cons first ops ih =>
    obtain ⟨hops, hop⟩ := ih h.2
    exact ⟨⟨h.1, hops⟩, hop⟩

/-! ## Collecting -/

variable {β : Type*} {H : σ → β → Prop} {p : ι → β → Prop}

/-- **Steps that add**: what a run has was there before, or came with an operation. -/
theorem foldl_adds {ops : List ι}
    (hstep : ∀ s, ∀ op ∈ ops, P s → P (step s op) ∧ ∀ b, H (step s op) b ↔ p op b ∨ H s b)
    (h : P s) : P (ops.foldl step s) ∧
      ∀ b, H (ops.foldl step s) b ↔ (∃ op ∈ ops, p op b) ∨ H s b := by
  induction ops generalizing s with
  | nil => exact ⟨h, fun b => by simp⟩
  | cons op ops ih =>
    obtain ⟨hfirst, hhas⟩ := hstep s op mem_cons_self h
    obtain ⟨hkept, hhas'⟩ := ih (fun s op' hop => hstep s op' (mem_cons_of_mem op hop)) hfirst
    refine ⟨hkept, fun b => ?_⟩
    rw [foldl_cons, hhas', hhas, exists_mem_cons_iff]
    exact or_left_comm.trans or_assoc.symm

/-- **Steps that select**: what is left after a run is what every operation left. -/
theorem foldl_selects (hstep : ∀ s op, P s → P (step s op) ∧ ∀ b, H (step s op) b ↔ H s b ∧ p op b)
    (ops : List ι) (h : P s) : P (ops.foldl step s) ∧
      ∀ b, H (ops.foldl step s) b ↔ H s b ∧ ∀ op ∈ ops, p op b := by
  induction ops generalizing s with
  | nil => exact ⟨h, fun b => by simp⟩
  | cons op ops ih =>
    obtain ⟨hfirst, hhas⟩ := hstep s op h
    obtain ⟨hkept, hhas'⟩ := ih hfirst
    refine ⟨hkept, fun b => ?_⟩
    rw [foldl_cons, hhas', hhas, forall_mem_cons, and_assoc]

end Run

end Senko
