import EllipticSignatures.Proofs.Bytes
import EllipticSignatures.Proofs.Random.Draw

/-!
# Draws that read up to the first suitable block

A rejection loop reads blocks of `w` bytes until one of them has a value. What blocks are worth is a
function `f : Block w → Option α`, and a block without a value is rejected.

- `Draw.Progresses.run_retry`: a repeated step whose failing tries read bytes is equal to its own
  unfolding, so the number of tries that bounds it does not show;
- `Draw.ReadsBlocks`: what a loop does with a source that starts with a given block, or with none;
- `Draw.ReadsBlocks.retry`: a loop that is repeated until a further test passes is again one loop,
  with both tests on each block;
- `Draw.ReadsBlocks.findsFirst`: the outcome for every source, in terms of the rejected blocks.
-/

namespace EllipticSignatures

/-- Bytes that are long enough start with a block. -/
theorem Block.exists_eq_append {w : ℕ} {bytes : Bytes} (h : w ≤ bytes.length) :
    ∃ (block : Block w) (rest : Bytes), bytes = block.bytes ++ rest :=
  ⟨⟨bytes.take w, List.length_take_of_le h⟩, bytes.drop w, (List.take_append_drop w bytes).symm⟩

namespace Draw

variable {ε α β : Type} {source source' : Source}

/-! ## Repetition -/

theorem run_bind_of_ok {x : Draw ε α} {a : α} (f : α → Draw ε β)
    (h : x.run source = (.ok a, source')) : (x >>= f).run source = (f a).run source' := by
  rw [ExceptT.run_bind]
  simp only [bind, StateT.bind, h]

theorem run_bind_of_error {x : Draw ε α} {cause : Failure ε} (f : α → Draw ε β)
    (h : x.run source = (.error cause, source')) :
    (x >>= f).run source = (.error cause, source') := by
  rw [ExceptT.run_bind]
  simp only [bind, StateT.bind, h]
  rfl

/-- Only the outcome of the first step matters for the second one. -/
theorem run_bind_congr {x : Draw ε α} (f : α → Draw ε β) (h : x.run source = x.run source') :
    (x >>= f).run source = (x >>= f).run source' := by
  rw [ExceptT.run_bind]
  simp only [bind, StateT.bind, h]

/-- A run of the step without a value has read at least one byte. -/
def Progresses (step : Draw ε (Option α)) : Prop :=
  ∀ ⦃source source' : Source⦄, step.run source = (.ok none, source') →
    source'.rest.length < source.rest.length

/-- The number of tries does not matter if there are more of them than bytes. -/
theorem Progresses.run_retryFor_eq {step : Draw ε (Option α)} (h : Progresses step) :
    ∀ {tries tries' : ℕ} {source : Source}, source.rest.length < tries →
      source.rest.length < tries' →
      (retryFor step tries).run source = (retryFor step tries').run source
  | tries + 1, tries' + 1, source, htries, htries' => by
    rw [retryFor, retryFor]
    rcases hstep : step.run source with ⟨cause | result, middle⟩
    · rw [run_bind_of_error _ hstep, run_bind_of_error _ hstep]
    · rw [run_bind_of_ok _ hstep, run_bind_of_ok _ hstep]
      cases result with
      | none =>
        have hless := h hstep
        exact h.run_retryFor_eq (by omega) (by omega)
      | some a => rfl

/-- A repeated step runs the step, and repeats it if that gave no value. -/
theorem Progresses.run_retry {step : Draw ε (Option α)} (h : Progresses step) (source : Source) :
    (retry step).run source = (step >>= fun
      | some a => pure a
      | none => retry step).run source := by
  change (retryFor step (source.rest.length + 1)).run source = _
  rw [retryFor]
  rcases hstep : step.run source with ⟨cause | result, middle⟩
  · rw [run_bind_of_error _ hstep, run_bind_of_error _ hstep]
  · rw [run_bind_of_ok _ hstep, run_bind_of_ok _ hstep]
    cases result with
    | none => exact h.run_retryFor_eq (h hstep) (Nat.lt_succ_self _)
    | some a => rfl

/-! ## The first block with a value -/

variable {w : ℕ}

/-- The bytes start with blocks of which only the last has a value, namely `a`; `rest` follows
them. -/
def FirstBlock (f : Block w → Option α) (bytes : Bytes) (a : α) (rest : Bytes) : Prop :=
  ∃ (rejected : List (Block w)) (block : Block w),
    bytes = rejected.flatMap Block.bytes ++ (block.bytes ++ rest) ∧
      (∀ b ∈ rejected, f b = none) ∧ f block = some a

/-- The bytes are blocks without a value, followed by `rest`, which is too short for another
block. -/
def NoBlock (f : Block w → Option α) (bytes rest : Bytes) : Prop :=
  ∃ rejected : List (Block w),
    bytes = rejected.flatMap Block.bytes ++ rest ∧ (∀ b ∈ rejected, f b = none) ∧ rest.length < w

/-- The computation reads blocks up to the first one with a value and gives that value. If no block
has a value, it reads them all and then asks for more bytes than the source holds. -/
structure FindsFirst (f : Block w → Option α) (x : Draw ε α) : Prop where
  /-- A value is that of the first block that has one, and what follows that block is left. -/
  run_eq_ok_iff : ∀ (source source' : Source) (a : α), x.run source = (.ok a, source') ↔
    FirstBlock f source.rest a source'.rest
  /-- There is no other end than a source without a suitable block. -/
  run_eq_error_iff : ∀ (source source' : Source) (cause : Failure ε),
    x.run source = (.error cause, source') ↔
      cause = .fault .sourceExhausted ∧ NoBlock f source.rest source'.rest

/-- What a loop over blocks does at the front of a source. -/
structure ReadsBlocks (f : Block w → Option α) (x : Draw ε α) : Prop where
  /-- A block with a value ends the loop. -/
  run_append_of_some : ∀ {block : Block w} {a : α} (rest : Bytes), f block = some a →
    x.run ⟨block.bytes ++ rest⟩ = (.ok a, ⟨rest⟩)
  /-- A block without a value is passed over. -/
  run_append_of_none : ∀ {block : Block w} (rest : Bytes), f block = none →
    x.run ⟨block.bytes ++ rest⟩ = x.run ⟨rest⟩
  /-- Too few bytes for a block are left alone. -/
  run_of_length_lt : ∀ {rest : Bytes}, rest.length < w →
    x.run ⟨rest⟩ = (.error (.fault .sourceExhausted), ⟨rest⟩)

/-- Reading bytes takes the next block, whatever it is. -/
theorem readsBlocks_fill (w : ℕ) :
    ReadsBlocks (fun block : Block w => some block.bytes) (fill w : Draw ε Bytes) where
  run_append_of_some := by
    rintro block _ rest ⟨⟩
    change (if (block.bytes ++ rest).length < w then _ else _) = _
    rw [if_neg (by simp [block.length_eq]), block.take_bytes_append, block.drop_bytes_append]
  run_append_of_none := by simp
  run_of_length_lt h := if_pos h

namespace ReadsBlocks

variable {f : Block w → Option α} {x : Draw ε α}

theorem run_of_rejected (h : ReadsBlocks f x) {rejected : List (Block w)}
    (hrejected : ∀ b ∈ rejected, f b = none) (rest : Bytes) :
    x.run ⟨rejected.flatMap Block.bytes ++ rest⟩ = x.run ⟨rest⟩ := by
  induction rejected with
  | nil => rfl
  | cons block rejected ih =>
    obtain ⟨hblock, hothers⟩ := List.forall_mem_cons.mp hrejected
    rw [List.flatMap_cons, List.append_assoc, h.run_append_of_none _ hblock, ih hothers]

theorem run_of_firstBlock (h : ReadsBlocks f x) {bytes rest : Bytes} {a : α}
    (hfirst : FirstBlock f bytes a rest) : x.run ⟨bytes⟩ = (.ok a, ⟨rest⟩) := by
  obtain ⟨rejected, block, rfl, hrejected, hblock⟩ := hfirst
  rw [h.run_of_rejected hrejected, h.run_append_of_some rest hblock]

theorem run_of_noBlock (h : ReadsBlocks f x) {bytes rest : Bytes} (hnone : NoBlock f bytes rest) :
    x.run ⟨bytes⟩ = (.error (.fault .sourceExhausted), ⟨rest⟩) := by
  obtain ⟨rejected, rfl, hrejected, hshort⟩ := hnone
  rw [h.run_of_rejected hrejected, h.run_of_length_lt hshort]

end ReadsBlocks

/-- Every byte string has a first block with a value, or none and a rest. -/
theorem firstBlock_or_noBlock (f : Block w → Option α) (hw : 0 < w) (bytes : Bytes) :
    (∃ a rest, FirstBlock f bytes a rest) ∨ ∃ rest, NoBlock f bytes rest := by
  induction hn : bytes.length using Nat.strongRecOn generalizing bytes with
  | ind n ih =>
    by_cases hshort : bytes.length < w
    · exact .inr ⟨bytes, [], rfl, by simp, hshort⟩
    obtain ⟨block, more, rfl⟩ := Block.exists_eq_append (not_lt.mp hshort)
    cases hblock : f block with
    | some a => exact .inl ⟨a, more, [], block, rfl, by simp, hblock⟩
    | none =>
      have hless : more.length < n := by
        rw [← hn, List.length_append, block.length_eq]
        omega
      -- The block joins those that are rejected later.
      obtain ⟨a, rest, rejected, last, rfl, hrejected, hlast⟩ | ⟨rest, rejected, rfl, hrejected,
        hrest⟩ := ih _ hless more rfl
      · exact .inl ⟨a, rest, block :: rejected, last, by simp,
          List.forall_mem_cons.mpr ⟨hblock, hrejected⟩, hlast⟩
      · exact .inr ⟨rest, block :: rejected, by simp,
          List.forall_mem_cons.mpr ⟨hblock, hrejected⟩, hrest⟩

namespace ReadsBlocks

variable {f : Block w → Option α} {x : Draw ε α}

/-- A loop over blocks of at least one byte finds the first block with a value. -/
theorem findsFirst (h : ReadsBlocks f x) (hw : 0 < w) : FindsFirst f x where
  run_eq_ok_iff := by
    intro ⟨bytes⟩ ⟨rest⟩ a
    refine ⟨fun hrun => ?_, h.run_of_firstBlock⟩
    -- A first block with a value, or that there is none, decides the run.
    obtain ⟨a', rest', hfirst⟩ | ⟨rest', hnone⟩ := firstBlock_or_noBlock f hw bytes
    · rw [h.run_of_firstBlock hfirst] at hrun
      cases hrun
      exact hfirst
    · rw [h.run_of_noBlock hnone] at hrun
      cases hrun
  run_eq_error_iff := by
    intro ⟨bytes⟩ ⟨rest⟩ cause
    constructor
    · intro hrun
      obtain ⟨a', rest', hfirst⟩ | ⟨rest', hnone⟩ := firstBlock_or_noBlock f hw bytes
      · rw [h.run_of_firstBlock hfirst] at hrun
        cases hrun
      · rw [h.run_of_noBlock hnone] at hrun
        cases hrun
        exact ⟨rfl, hnone⟩
    · rintro ⟨rfl, hnone⟩
      exact h.run_of_noBlock hnone

/-- A value has cost at least one block. -/
theorem length_lt (h : ReadsBlocks f x) (hw : 0 < w) {a : α}
    (hrun : x.run source = (.ok a, source')) : source'.rest.length < source.rest.length := by
  obtain ⟨rejected, block, hbytes, -, -⟩ := ((h.findsFirst hw).run_eq_ok_iff _ _ _).mp hrun
  rw [hbytes, List.length_append, List.length_append, block.length_eq]
  omega

/-- A loop that is repeated until its value passes a further test reads blocks until one of them
passes both tests. -/
theorem retry (h : ReadsBlocks f x) (hw : 0 < w) (g : α → Option β) :
    ReadsBlocks (fun block => (f block).bind g) (Draw.retry do return g (← x)) := by
  have hprogress : Progresses (do return g (← x)) := by
    intro source source' hrun
    obtain ⟨a, middle, hx, hpure⟩ := run_bind_eq_ok.mp hrun
    obtain ⟨-, rfl⟩ := run_pure_eq_ok.mp hpure
    exact h.length_lt hw hx
  -- A block with a value ends the inner loop, and the further test decides about the outer one.
  have hstep {block : Block w} {a : α} (rest : Bytes) (hblock : f block = some a) :
      (do return g (← x) : Draw ε (Option β)).run ⟨block.bytes ++ rest⟩ = (.ok (g a), ⟨rest⟩) :=
    run_bind_of_ok _ (h.run_append_of_some rest hblock)
  refine ⟨fun {block b} rest hblock => ?_, fun {block} rest hblock => ?_, fun {rest} hshort => ?_⟩
  · obtain ⟨a, hfa, hga⟩ := Option.bind_eq_some_iff.mp hblock
    rw [hprogress.run_retry, run_bind_of_ok _ (hstep rest hfa), hga]
    rfl
  · cases hf : f block with
    | none =>
      rw [hprogress.run_retry, hprogress.run_retry]
      exact run_bind_congr _ (run_bind_congr _ (h.run_append_of_none rest hf))
    | some a =>
      have hga : g a = none := by simpa [hf] using hblock
      rw [hprogress.run_retry, run_bind_of_ok _ (hstep rest hf), hga]
  · have hrun : (do return g (← x) : Draw ε (Option β)).run ⟨rest⟩ =
        (.error (.fault .sourceExhausted), ⟨rest⟩) :=
      run_bind_of_error _ (h.run_of_length_lt hshort)
    rw [hprogress.run_retry, run_bind_of_error _ hrun]

end ReadsBlocks

end Draw

end EllipticSignatures
