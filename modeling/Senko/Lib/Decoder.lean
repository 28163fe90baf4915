import Senko.Lib.Bytes

/-!
# Decoders

A decoder walks a buffer with a cursor. It returns a value and the place behind what it read, fails
with an error, or panics (`none`).

`Decodes p chunk a` says that `p` reads `a` from the bytes `chunk`, wherever they stand in a buffer.
It composes along the program (`Decodes.bind`, `exists_decodes_iterate`), so that a reader is shown
to invert a writer piece by piece, without a word about positions.
-/

namespace Senko

open List

/-- A reader of a buffer at a cursor. -/
def Decoder (ε α : Type) : Type := Bytes → Nat → Option (Except ε (α × Nat))

namespace Decoder

variable {ε α β σ ι : Type}

instance : Monad (Decoder ε) where
  pure a := fun _ cursor => some (.ok (a, cursor))
  bind p f := fun data cursor =>
    match p data cursor with
    | none => none
    | some (.error e) => some (.error e)
    | some (.ok (a, cursor)) => f a data cursor

def ofExcept : Except ε α → Decoder ε α
  | .ok a => pure a
  | .error e => fun _ _ => some (.error e)

/-- A step that panics on `none`. -/
def unwrap : Option α → Decoder ε α
  | some a => pure a
  | none => fun _ _ => none

/-- The next `n` bytes; an error if there are fewer. -/
def take (e : ε) (n : Nat) : Decoder ε Bytes := fun data cursor =>
  match getRange data cursor (cursor + n) with
  | none => some (.error e)
  | some bytes => some (.ok (bytes, cursor + n))

/-- A test of what lies ahead. -/
def ahead (test : Bytes → Nat → α) : Decoder ε α := fun data cursor =>
  some (.ok (test data cursor, cursor))

/-- A loop of `n` rounds. -/
def iterate (step : σ → Decoder ε σ) : Nat → σ → Decoder ε σ
  | 0, s => pure s
  | n + 1, s => do
    let s ← step s
    iterate step n s

theorem bind_apply (p : Decoder ε α) (f : α → Decoder ε β) (data : Bytes) (cursor : Nat) :
    (p >>= f) data cursor = match p data cursor with
      | none => none
      | some (.error e) => some (.error e)
      | some (.ok (a, cursor)) => f a data cursor := rfl

/-! ## Reading what was written -/

/-- The decoder reads the value from the bytes. -/
def Decodes (p : Decoder ε α) (chunk : Bytes) (a : α) : Prop :=
  ∀ pre post : Bytes, p (pre ++ chunk ++ post) pre.length =
    some (.ok (a, pre.length + chunk.length))

variable {p : Decoder ε α} {chunk chunk' : Bytes} {a : α} {b : β}

theorem decodes_pure (a : α) : Decodes (pure a : Decoder ε α) [] a := fun _ _ => rfl

theorem Decodes.bind {f : α → Decoder ε β} (hp : Decodes p chunk a) (hf : Decodes (f a) chunk' b) :
    Decodes (p >>= f) (chunk ++ chunk') b := by
  intro pre post
  have hfirst := hp pre (chunk' ++ post)
  have hsecond := hf (pre ++ chunk) post
  have hdata : pre ++ chunk ++ (chunk' ++ post) = pre ++ (chunk ++ chunk') ++ post := by simp
  have hdata' : pre ++ chunk ++ chunk' ++ post = pre ++ (chunk ++ chunk') ++ post := by simp
  rw [hdata] at hfirst
  rw [hdata', length_append] at hsecond
  rw [bind_apply, hfirst]
  dsimp only
  rw [hsecond, length_append, Nat.add_assoc]

/-- A decoder that is followed by one that reads nothing. -/
theorem Decodes.bind_nil {f : α → Decoder ε β} (hp : Decodes p chunk a) (hf : Decodes (f a) [] b) :
    Decodes (p >>= f) chunk b := by
  have hbind := hp.bind hf
  rwa [append_nil] at hbind

/-- A decoder whose value is only passed on. -/
theorem Decodes.map {g : α → β} (hp : Decodes p chunk a) :
    Decodes (do let a ← p; pure (g a)) chunk (g a) :=
  hp.bind_nil (decodes_pure (g a))

theorem decodes_take (e : ε) {n : Nat} (h : chunk.length = n) : Decodes (take e n) chunk chunk := by
  intro pre post
  rw [take, getRange_append pre chunk post rfl (by rw [h]), h]

/-- **A loop over the items that were written**: an invariant that every round carries from the
items read so far to one more holds of all of them in the end. -/
theorem exists_decodes_iterate {step : σ → Decoder ε σ} {write : ι → Bytes} (I : List ι → σ → Prop)
    {all items done : List ι} {s : σ} (hstep : ∀ done item rest s, all = done ++ item :: rest →
      I done s → ∃ s', Decodes (step s) (write item) s' ∧ I (done ++ [item]) s')
    (hall : all = done ++ items) (h : I done s) :
    ∃ s', Decodes (iterate step items.length s) (items.flatMap write) s' ∧ I all s' := by
  induction items generalizing done s with
  | nil => exact ⟨s, decodes_pure s, by rwa [hall, append_nil]⟩
  | cons item items ih =>
    obtain ⟨s₁, hread, hdone⟩ := hstep done item items s hall h
    obtain ⟨s', hrest, hend⟩ := ih (by rw [hall, append_assoc]; rfl) hdone
    exact ⟨s', hread.bind hrest, hend⟩

end Decoder

end Senko
