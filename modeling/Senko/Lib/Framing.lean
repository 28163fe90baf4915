import Senko.Lib.Bytes

/-!
# Framing a stream

A parser that is shown the part of a stream that has arrived either finds a frame at its front and
says how many symbols it has, or waits for more, or fails. It is *stable* if what it finds or
refuses is not revised when more arrives; a reader that keeps what is left between reads then
extracts the same frames however the stream was cut (`foldl_feed`).

A result of `none` is a panic. It counts as a decision.
-/

namespace Senko

open List

inductive ParseStatus (φ : Type) where
  | complete (frame : φ) (used : Nat)
  | incomplete (needed : Nat)
deriving DecidableEq, Repr

namespace Framing

variable {α φ ε : Type}

abbrev Outcome (φ ε : Type) := Option (Except ε (ParseStatus φ))

/-- The parser asks for more. -/
def Waits (outcome : Outcome φ ε) : Prop := ∃ needed, outcome = some (.ok (.incomplete needed))

theorem not_waits_complete (frame : φ) (used : Nat) :
    ¬Waits (some (.ok (.complete frame used)) : Outcome φ ε) := by
  rintro ⟨_, ⟨⟩⟩

/-- A later outcome keeps a decision that was made. -/
def Keeps (outcome later : Outcome φ ε) : Prop := ¬Waits outcome → later = outcome

/-- **A decision is not revised** when more arrives. -/
def Stable (parse : List α → Outcome φ ε) : Prop := ∀ x y, Keeps (parse x) (parse (x ++ y))

/-- A frame has at least one symbol, and all of them have arrived. -/
def Progresses (parse : List α → Outcome φ ε) : Prop :=
  ∀ x frame used, parse x = some (.ok (.complete frame used)) → 0 < used ∧ used ≤ x.length

/-! ## Decisions -/

theorem Keeps.refl (outcome : Outcome φ ε) : Keeps outcome outcome := fun _ => rfl

theorem keeps_of_incomplete (needed : Nat) (later : Outcome φ ε) :
    Keeps (some (.ok (.incomplete needed))) later := fun h => absurd ⟨needed, rfl⟩ h

section Consequences

variable {parse : List α → Outcome φ ε}

/-- **A frame that ends where the input ends is waited for**: no proper prefix is decided. -/
theorem waits_of_isPrefix (hstable : Stable parse) (hprogress : Progresses parse) {x x' : List α}
    {frame : φ} (hbefore : x <+: x') (hne : x ≠ x')
    (h : parse x' = some (.ok (.complete frame x'.length))) : Waits (parse x) := by
  by_contra hdecided
  obtain ⟨y, rfl⟩ := hbefore
  have hsame := hstable x y hdecided
  rw [h] at hsame
  obtain ⟨-, hle⟩ := hprogress x frame _ hsame.symm
  rw [length_append] at hle
  have hnil : y = [] := eq_nil_of_length_eq_zero (by omega)
  exact hne (by rw [hnil, append_nil])

end Consequences

/-! ## Reading a stream -/

/-- How a reader stands after what it has read: it waits with what is left, or it has stopped. -/
inductive Stop (α ε : Type) where
  | waiting (rest : List α)
  | failed (error : ε)
  | panicked

/-- Take frames from the front of the buffer, at most so many. -/
def drainLoop (parse : List α → Outcome φ ε) : Nat → List α → List φ × Stop α ε
  | 0, buffer => ([], .waiting buffer)
  | rounds + 1, buffer =>
    match parse buffer with
    | none => ([], .panicked)
    | some (.error e) => ([], .failed e)
    | some (.ok (.incomplete _)) => ([], .waiting buffer)
    | some (.ok (.complete frame used)) =>
      let rest := drainLoop parse rounds (buffer.drop used)
      (frame :: rest.1, rest.2)

/-- Take all frames from the front of the buffer. -/
def drain (parse : List α → Outcome φ ε) (buffer : List α) : List φ × Stop α ε :=
  drainLoop parse (buffer.length + 1) buffer

/-- Read another piece of the stream. -/
def feed (parse : List α → Outcome φ ε) (reader : List φ × Stop α ε) (piece : List α) :
    List φ × Stop α ε :=
  match reader.2 with
  | .waiting rest =>
    let read := drain parse (rest ++ piece)
    (reader.1 ++ read.1, read.2)
  | _ => reader

variable {parse : List α → Outcome φ ε}

/-- Every round but the last takes a symbol, so there are rounds enough. -/
theorem drainLoop_eq_drain (hprogress : Progresses parse) {rounds : Nat} {buffer : List α}
    (h : buffer.length < rounds) : drainLoop parse rounds buffer = drain parse buffer := by
  have hloop : ∀ n m (buffer : List α), buffer.length < n → buffer.length < m →
      drainLoop parse n buffer = drainLoop parse m buffer := by
    intro n
    induction n with
    | zero => exact fun m buffer hn _ => absurd hn (Nat.not_lt_zero _)
    | succ n ih =>
      intro m buffer hn hm
      obtain ⟨m, rfl⟩ := Nat.exists_eq_succ_of_ne_zero (Nat.ne_of_gt (Nat.zero_lt_of_lt hm))
      unfold drainLoop
      rcases hparse : parse buffer with _ | result
      · rfl
      match result, hparse with
      | .error e, _ => rfl
      | .ok (.incomplete needed), _ => rfl
      | .ok (.complete frame used), hparse =>
        have hused := hprogress buffer frame used hparse
        have hdrop : (buffer.drop used).length < buffer.length := by
          rw [length_drop]
          omega
        show (frame :: (drainLoop parse n _).1, (drainLoop parse n _).2) = _
        rw [ih m (buffer.drop used) (by omega) (by omega)]
  exact hloop _ _ buffer h (Nat.lt_succ_self _)

theorem drain_of_complete (hprogress : Progresses parse) {buffer : List α} {frame : φ} {used : Nat}
    (h : parse buffer = some (.ok (.complete frame used))) :
    drain parse buffer =
      (frame :: (drain parse (buffer.drop used)).1, (drain parse (buffer.drop used)).2) := by
  have hused := hprogress buffer frame used h
  rw [drain, drainLoop, h]
  dsimp only
  rw [drainLoop_eq_drain hprogress]
  rw [length_drop]
  omega

/-- **Reading on**: frames of the whole are those of the first part and those of what it left. -/
theorem drain_append (hstable : Stable parse) (hprogress : Progresses parse) (x y : List α) :
    drain parse (x ++ y) = feed parse (drain parse x) y := by
  -- the frames of the first part are taken one by one, each shortens it
  induction hlen : x.length using Nat.strong_induction_on generalizing x with
  | _ n ih =>
    rcases hparse : parse x with _ | result
    · have hsame := hstable x y (by rw [hparse]; rintro ⟨_, h⟩; cases h)
      rw [hparse] at hsame
      rw [drain, drainLoop, hsame, drain, drainLoop, hparse]
      rfl
    match result, hparse with
    | .error e, hparse =>
      have hsame := hstable x y (by rw [hparse]; rintro ⟨_, h⟩; cases h)
      rw [hparse] at hsame
      rw [drain, drainLoop, hsame, drain, drainLoop, hparse]
      rfl
    | .ok (.incomplete needed), hparse =>
      have hwaits : drain parse x = ([], .waiting x) := by rw [drain, drainLoop, hparse]
      rw [hwaits]
      rfl
    | .ok (.complete frame used), hparse =>
      have hused := hprogress x frame used hparse
      have hsame := hstable x y (by rw [hparse]; exact not_waits_complete frame used)
      rw [hparse] at hsame
      have hrest := ih (x.drop used).length (by rw [length_drop]; omega) (x.drop used) rfl
      rw [drain_of_complete hprogress hsame, drain_of_complete hprogress hparse,
        drop_append_of_le_length hused.2, hrest]
      unfold feed
      split <;> simp_all

/-- **The frames of a stream do not depend on how it is cut.** -/
theorem foldl_feed (hstable : Stable parse) (hprogress : Progresses parse)
    (hempty : Waits (parse [])) (pieces : List (List α)) :
    pieces.foldl (feed parse) ([], .waiting []) = drain parse pieces.flatten := by
  have hstart : drain parse [] = ([], .waiting []) := by
    obtain ⟨needed, hparse⟩ := hempty
    rw [drain, drainLoop, hparse]
  have hpieces : ∀ x,
      pieces.foldl (feed parse) (drain parse x) = drain parse (x ++ pieces.flatten) := by
    induction pieces with
    | nil => intro x; rw [flatten_nil, append_nil]; rfl
    | cons piece pieces ih =>
      intro x
      rw [foldl_cons, ← drain_append hstable hprogress, ih, flatten_cons, append_assoc]
  rw [← hstart, hpieces, nil_append]

end Framing

end Senko
