import EllipticSignatures.Bytes

/-!
# Replayed randomness

Randomness is a `Source` of bytes that is read from the front. A computation in `Draw ε` reads a
source and ends as an `Outcome ε`; the bytes it has read stay read when it fails. `Draw.retry`
repeats a step that gives no value, which ends because each try takes bytes from a finite source.
-/

namespace EllipticSignatures

/-- The random bytes not yet read. -/
structure Source where
  /-- The bytes, the next one first. -/
  rest : Bytes
  deriving DecidableEq, Repr

/-- A computation that reads random bytes. -/
abbrev Draw (ε : Type) : Type → Type := ExceptT (Failure ε) (StateM Source)

namespace Draw

variable {ε α : Type}

instance : MonadLift (Except (Failure ε)) (ExceptT (Failure ε) (StateM Source)) :=
  ⟨fun x => ExceptT.mk (pure x)⟩

/-- The next `count` bytes; nothing is read if fewer are left. -/
def fill (count : Nat) : Draw ε Bytes := ExceptT.mk fun source =>
  if source.rest.length < count then (.error (.fault .sourceExhausted), source)
  else (.ok (source.rest.take count), ⟨source.rest.drop count⟩)

/-- Runs a step until it gives a value, at most `tries` times. -/
def retryFor (step : Draw ε (Option α)) : (tries : Nat) → Draw ε α
  | 0 => throw (.fault .sourceExhausted)
  | tries + 1 => do
    match ← step with
    | some a => return a
    | none => retryFor step tries

/-- Runs a step until it gives a value. A step that gives none must have read at least one byte,
so there are at most as many failing tries as bytes. -/
def retry (step : Draw ε (Option α)) : Draw ε α := ExceptT.mk fun source =>
  retryFor step (source.rest.length + 1) source

end Draw

end EllipticSignatures
