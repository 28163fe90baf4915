import Mathlib.Data.Finset.Card

/-!
# Elections by majority

Voters vote for candidates in rounds. A candidate wins a round if a majority of the electorate has
voted for it. Where no voter votes for two candidates in one round, a round has at most one winner,
since two majorities share a voter.
-/

namespace Senko

variable {υ ρ γ : Type} (vote : υ → ρ → γ → Prop)

/-- No voter votes for two candidates in one round. -/
def VotesOnce : Prop := ∀ v r c c', vote v r c → vote v r c' → c = c'

/-- A majority of the electorate has voted for the candidate. -/
def Wins (electorate : Finset υ) (r : ρ) (c : γ) : Prop :=
  ∃ voters ⊆ electorate, electorate.card / 2 + 1 ≤ voters.card ∧ ∀ v ∈ voters, vote v r c

variable {vote} {electorate : Finset υ} {r : ρ} {c c' : γ}

/-- Votes that come later do not take a victory away. -/
theorem Wins.mono {vote' : υ → ρ → γ → Prop} (h : Wins vote electorate r c)
    (hvote : ∀ v, vote v r c → vote' v r c) : Wins vote' electorate r c := by
  obtain ⟨voters, hsub, hcard, hvotes⟩ := h
  exact ⟨voters, hsub, hcard, fun v hv => hvote v (hvotes v hv)⟩

/-- **A round has at most one winner.** -/
theorem Wins.unique [DecidableEq υ] (honce : VotesOnce vote) (h : Wins vote electorate r c)
    (h' : Wins vote electorate r c') : c = c' := by
  obtain ⟨voters, hsub, hcard, hvotes⟩ := h
  obtain ⟨voters', hsub', hcard', hvotes'⟩ := h'
  have hboth : (voters ∩ voters').Nonempty :=
    Finset.inter_nonempty_of_card_lt_card_add_card hsub hsub' (by omega)
  obtain ⟨v, hv⟩ := hboth
  obtain ⟨hv, hv'⟩ := Finset.mem_inter.1 hv
  exact honce v r c c' (hvotes v hv) (hvotes' v hv')

end Senko
