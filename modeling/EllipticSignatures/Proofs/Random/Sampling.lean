import Mathlib.SetTheory.Cardinal.Finite
import EllipticSignatures.Random.Sampling
import EllipticSignatures.Proofs.Random.FirstBlock

/-!
# Rejection sampling is uniform

The candidate of a block keeps the low bits of its number, as many as the bound has. For blocks of
as many bytes as the bound has, this clears at most seven bits, all in the first byte
(`Draw.candidate_eq_toNat_clearTop`), and leaves each number below the bound equally many blocks
(`Draw.card_candidate_eq`). A draw is the candidate of the first block whose candidate is acceptable
(`Draw.findsFirst_below`, `Draw.findsFirst_nonzeroBelow`), so none of these numbers is preferred.
-/

namespace EllipticSignatures

/-- Blocks are the numbers below the power of 256. -/
def Block.equivFin (n : ℕ) : Block n ≃ Fin (256 ^ n) where
  toFun block := ⟨block.toNat, by
    have h := Bytes.toNat_lt block.bytes
    rwa [block.length_eq] at h⟩
  invFun i := .ofNat n i
  left_inv block := by
    obtain ⟨bytes, rfl⟩ := block
    simp only [ofNat, toNat, Bytes.bigEndian_toNat]
  right_inv i := by
    ext
    exact (Bytes.toNat_bigEndian n i).trans (Nat.mod_eq_of_lt i.isLt)

theorem Block.card_eq (n : ℕ) : Nat.card (Block n) = 256 ^ n := by
  rw [Nat.card_congr (equivFin n), Nat.card_fin]

/-- Each residue modulo `m` has `k` members below `m * k`. -/
theorem card_mod_eq {m k v : ℕ} (hv : v < m) :
    Nat.card { i : Fin (m * k) // i.val % m = v } = k := by
  have hm : 0 < m := Nat.zero_lt_of_lt hv
  let quotient : { i : Fin (m * k) // i.val % m = v } ≃ Fin k :=
    { toFun := fun i => ⟨i.val.val / m, Nat.div_lt_of_lt_mul i.val.isLt⟩
      invFun := fun q => ⟨⟨v + m * q.val, by
          calc v + m * q.val < m + m * q.val := Nat.add_lt_add_right hv _
            _ = m * (q.val + 1) := by rw [Nat.mul_succ, Nat.add_comm]
            _ ≤ m * k := Nat.mul_le_mul_left m q.isLt⟩, by
        rw [Nat.add_mul_mod_self_left, Nat.mod_eq_of_lt hv]⟩
      left_inv := by
        rintro ⟨i, rfl⟩
        exact Subtype.ext (Fin.ext (Nat.mod_add_div i.val m))
      right_inv := fun q => Fin.ext (by
        simp only [Nat.add_mul_div_left v q.val hm, Nat.div_eq_of_lt hv, zero_add]) }
  rw [Nat.card_congr quotient, Nat.card_fin]

namespace Draw

variable {ε : Type} {bound w : ℕ}

/-! ## Candidates -/

/-- The bytes with the given number of highest bits of the first byte cleared. -/
def clearTop (excess : ℕ) : Bytes → Bytes
  | [] => []
  | top :: rest => (top &&& (0xff >>> UInt8.ofNat excess)) :: rest

/-- A byte with its highest bits cleared is a remainder. -/
theorem toNat_and_shiftRight (top : UInt8) {excess : ℕ} (h : excess < 8) :
    (top &&& (0xff >>> UInt8.ofNat excess)).toNat = top.toNat % 2 ^ (8 - excess) := by
  have hmask : ∀ e < 8, ((0xff : UInt8) >>> UInt8.ofNat e).toNat = 2 ^ (8 - e) - 1 := by decide
  rw [UInt8.toNat_and, hmask excess h, Nat.and_two_pow_sub_one_eq_mod]

theorem toNat_clearTop {excess : ℕ} {bytes : Bytes} (h : excess < 8) (hbytes : bytes ≠ []) :
    (clearTop excess bytes).toNat = bytes.toNat % 2 ^ (8 * bytes.length - excess) := by
  cases bytes with
  | nil => exact absurd rfl hbytes
  | cons top rest =>
    have hpow : 2 ^ (8 * (top :: rest).length - excess) = 256 ^ rest.length * 2 ^ (8 - excess) := by
      rw [show 256 = 2 ^ 8 by rfl, ← pow_mul, ← pow_add, List.length_cons]
      congr 1
      omega
    have hrest := Bytes.toNat_lt rest
    -- The first byte is the quotient by the power that the others stay below.
    have hquotient : (top.toNat * 256 ^ rest.length + Bytes.toNat rest) / 256 ^ rest.length =
        top.toNat := by
      rw [mul_comm, Nat.mul_add_div (Nat.pow_pos (by norm_num)), Nat.div_eq_of_lt hrest, add_zero]
    rw [clearTop, Bytes.toNat_cons, Bytes.toNat_cons, toNat_and_shiftRight top h, hpow, Nat.mod_mul,
      hquotient, Nat.mul_add_mod_of_lt hrest]
    ring

theorem candidate_eq_mod (bound : ℕ) (bytes : Bytes) :
    candidate bound bytes = bytes.toNat % 2 ^ bitLength bound := by
  rw [candidate, Nat.one_shiftLeft]

theorem byteLength_pos (h : 1 ≤ bound) : 0 < byteLength bound := by
  rw [Nat.pos_iff_ne_zero]
  intro hzero
  have hlt := lt_pow_byteLength bound
  rw [hzero, pow_zero] at hlt
  omega

/-- The number of bits in the bytes of a bound that the bound does not use. -/
def excess (bound : ℕ) : ℕ := 8 * byteLength bound - bitLength bound

theorem excess_lt (bound : ℕ) : excess bound < 8 := by
  rw [excess, byteLength]
  omega

theorem bitLength_add_excess (bound : ℕ) :
    bitLength bound + excess bound = 8 * byteLength bound := by
  rw [excess, byteLength]
  omega

/-- The candidate of a block is the number that is left when the unused bits of its first byte are
cleared. -/
theorem candidate_eq_toNat_clearTop (h : 1 ≤ bound) (block : Block (byteLength bound)) :
    candidate bound block.bytes = (clearTop (excess bound) block.bytes).toNat := by
  have hbytes : block.bytes ≠ [] := by
    rw [← List.length_pos_iff, block.length_eq]
    exact byteLength_pos h
  rw [toNat_clearTop (excess_lt bound) hbytes, candidate_eq_mod, block.length_eq,
    ← bitLength_add_excess, Nat.add_sub_cancel]

/-- Every number below the bound is the candidate of equally many blocks. -/
theorem card_candidate_eq {v : ℕ} (h : v < bound) :
    Nat.card { block : Block (byteLength bound) // candidate bound block.bytes = v } =
      2 ^ excess bound := by
  have hpow : 256 ^ byteLength bound = 2 ^ bitLength bound * 2 ^ excess bound := by
    rw [← pow_add, bitLength_add_excess, pow_mul]
    norm_num
  let numbers := (Block.equivFin (byteLength bound)).trans (finCongr hpow)
  have hnumbers (block : Block (byteLength bound)) :
      candidate bound block.bytes = v ↔ (numbers block).val % 2 ^ bitLength bound = v := by
    rw [candidate_eq_mod]
    rfl
  calc Nat.card { block : Block (byteLength bound) // candidate bound block.bytes = v }
      = Nat.card { i : Fin (2 ^ bitLength bound * 2 ^ excess bound) //
          i.val % 2 ^ bitLength bound = v } := Nat.card_congr (numbers.subtypeEquiv hnumbers)
    _ = 2 ^ excess bound := card_mod_eq (h.trans (lt_two_pow_bitLength bound))

/-! ## Loops -/

theorem readsBlocks_below (h : 1 ≤ bound) :
    ReadsBlocks (fun block : Block (byteLength bound) =>
      Option.guard (· < bound) (candidate bound block.bytes)) (below bound : Draw ε ℕ) := by
  have hfill : ReadsBlocks _ (fill (byteLength bound) : Draw ε Bytes) := readsBlocks_fill _
  have hloop := hfill.retry (byteLength_pos h) fun bytes =>
    if candidate bound bytes < bound then some (candidate bound bytes) else none
  rw [below, if_neg (by omega)]
  simpa [Option.guard] using hloop

theorem readsBlocks_nonzeroBelow (h : 2 ≤ bound) :
    ReadsBlocks (fun block : Block (byteLength bound) =>
      Option.guard (fun v => v ≠ 0 ∧ v < bound) (candidate bound block.bytes))
      (nonzeroBelow bound : Draw ε ℕ) := by
  have hpos : 1 ≤ bound := by omega
  have hbelow : ReadsBlocks _ (below bound : Draw ε ℕ) := readsBlocks_below hpos
  have hloop := hbelow.retry (byteLength_pos hpos) fun v => if v ≠ 0 then some v else none
  have hboth (block : Block (byteLength bound)) :
      ((Option.guard (· < bound) (candidate bound block.bytes)).bind fun v =>
        if v ≠ 0 then some v else none) =
      Option.guard (fun v => v ≠ 0 ∧ v < bound) (candidate bound block.bytes) := by
    by_cases hv : candidate bound block.bytes < bound <;> simp [Option.guard, hv]
  rw [nonzeroBelow, if_neg (by omega)]
  simpa only [hboth] using hloop

theorem findsFirst_below (h : 1 ≤ bound) :
    FindsFirst (fun block : Block (byteLength bound) =>
      Option.guard (· < bound) (candidate bound block.bytes)) (below bound : Draw ε ℕ) :=
  (readsBlocks_below h).findsFirst (byteLength_pos h)

theorem findsFirst_nonzeroBelow (h : 2 ≤ bound) :
    FindsFirst (fun block : Block (byteLength bound) =>
      Option.guard (fun v => v ≠ 0 ∧ v < bound) (candidate bound block.bytes))
      (nonzeroBelow bound : Draw ε ℕ) :=
  (readsBlocks_nonzeroBelow h).findsFirst (byteLength_pos (by omega))

/-- A number that was drawn is in the range. -/
theorem range_of_nonzeroBelow {source source' : Source} {v : ℕ}
    (h : (nonzeroBelow bound : Draw ε ℕ).run source = (.ok v, source')) : v ≠ 0 ∧ v < bound := by
  by_cases hbound : bound ≤ 1
  · rw [nonzeroBelow, if_pos hbound] at h
    cases h
  · obtain ⟨-, block, -, -, hvalue⟩ :=
      ((findsFirst_nonzeroBelow (by omega)).run_eq_ok_iff _ _ _).mp h
    obtain ⟨rfl, hrange⟩ := Option.guard_eq_some_iff.mp hvalue
    exact of_decide_eq_true hrange

end Draw

/-- A number that is drawn for a scalar is one, so the scalar is found at the first try. -/
theorem Scalar.random_eq_map {ε : Type} (c : Curve) :
    (Scalar.random c : Draw ε Scalar) = Scalar.mk <$> Draw.nonzeroBelow c.n := by
  funext source
  -- The loop's first step is all that runs, so only its bound has to be unfolded.
  change (Draw.retryFor _ (source.rest.length + 1)).run source =
    (_ <$> _ : Draw ε Scalar).run source
  rw [map_eq_pure_bind, Draw.retryFor]
  rcases hdraw : (Draw.nonzeroBelow c.n : Draw ε ℕ).run source with ⟨cause | v, middle⟩
  · rw [Draw.run_bind_of_error _ hdraw, Draw.run_bind_of_error _ (Draw.run_bind_of_error _ hdraw)]
  · obtain ⟨hv, hlt⟩ := Draw.range_of_nonzeroBelow hdraw
    have hscalar : (Scalar.ofNat v c).toOption = some ⟨v⟩ := by
      simp [Scalar.ofNat, Curve.inScalarRange, hv, hlt, Except.toOption]
    have hstep : (do return (Scalar.ofNat (← Draw.nonzeroBelow c.n) c).toOption :
        Draw ε (Option Scalar)).run source = (.ok (some ⟨v⟩), middle) := by
      rw [Draw.run_bind_of_ok _ hdraw, hscalar]
      rfl
    rw [Draw.run_bind_of_ok _ hstep, Draw.run_bind_of_ok _ hdraw]

/-- A random scalar is in the range of the curve. -/
theorem Scalar.inScalarRange_of_random {ε : Type} {c : Curve} {k : Scalar}
    {source source' : Source}
    (h : (Scalar.random c : Draw ε Scalar).run source = (.ok k, source')) :
    c.inScalarRange k.value := by
  rw [Scalar.random_eq_map, map_eq_pure_bind] at h
  obtain ⟨v, middle, hdraw, hpure⟩ := Draw.run_bind_eq_ok.mp h
  obtain ⟨rfl, -⟩ := Draw.run_pure_eq_ok.mp hpure
  simpa [Curve.inScalarRange] using Draw.range_of_nonzeroBelow hdraw

/-- Rejection sampling is uniform for every bound. Blocks have as many bytes as the bound. Each
number below the bound is the candidate of `2 ^ excess bound` of them, where `excess bound` counts
the highest bits of the first byte, which are cleared. From every source, a number below the bound
is the candidate of the first block whose candidate is below the bound, and a nonzero one that of
the first block whose candidate is nonzero as well; the blocks up to that one are read and no byte
more, and a draw fails only if the source holds no such block. A random scalar of a curve is a
nonzero number below the group order that was drawn once. -/
theorem rejectionSampling_uniform {ε : Type} {bound : ℕ} (hbound : 1 ≤ bound) :
    Nat.card (Block (byteLength bound)) = 256 ^ byteLength bound ∧
    (∀ block : Block (byteLength bound),
      Draw.candidate bound block.bytes =
        (Draw.clearTop (Draw.excess bound) block.bytes).toNat) ∧
    (∀ v < bound,
      Nat.card { block : Block (byteLength bound) // Draw.candidate bound block.bytes = v } =
        2 ^ Draw.excess bound) ∧
    Draw.FindsFirst (fun block : Block (byteLength bound) =>
      Option.guard (· < bound) (Draw.candidate bound block.bytes))
      (Draw.below bound : Draw ε ℕ) ∧
    (2 ≤ bound → Draw.FindsFirst (fun block : Block (byteLength bound) =>
      Option.guard (fun v => v ≠ 0 ∧ v < bound) (Draw.candidate bound block.bytes))
      (Draw.nonzeroBelow bound : Draw ε ℕ)) ∧
    ∀ c : Curve, (Scalar.random c : Draw ε Scalar) = Scalar.mk <$> Draw.nonzeroBelow c.n ∧
      ∀ source source' k, (Scalar.random c : Draw ε Scalar).run source = (.ok k, source') →
        1 ≤ k.value ∧ k.value ≤ c.n - 1 := by
  refine ⟨Block.card_eq _, Draw.candidate_eq_toNat_clearTop hbound,
    fun v hv => Draw.card_candidate_eq hv, Draw.findsFirst_below hbound,
    fun h => Draw.findsFirst_nonzeroBelow h, fun c => ⟨Scalar.random_eq_map c, ?_⟩⟩
  intro source source' k hrun
  have hrange := Scalar.inScalarRange_of_random hrun
  simp only [Curve.inScalarRange, bne_iff_ne, Bool.and_eq_true, decide_eq_true_eq] at hrange
  omega

/-- The bound 257 has nine bits, so two bytes are read and seven bits cleared. Three is the
candidate of 128 blocks. The first of three blocks is 257 itself, the second is read as zero and the
third as three. -/
theorem rejectionSampling_twoHundredFiftySeven :
    (1 ≤ 257 ∧ Nat.card { block : Block 2 // Draw.candidate 257 block.bytes = 3 } = 128) ∧
      (Draw.below 257 : Draw CurveError ℕ).run ⟨[1, 1, 0x80, 0, 0xfe, 3, 9]⟩ =
        (.ok 0, ⟨[0xfe, 3, 9]⟩) ∧
      (Draw.nonzeroBelow 257 : Draw CurveError ℕ).run ⟨[1, 1, 0x80, 0, 0xfe, 3, 9]⟩ =
        (.ok 3, ⟨[9]⟩) ∧
      (Draw.below 257 : Draw CurveError ℕ).run ⟨[1, 1, 9]⟩ =
        (.error (.fault .sourceExhausted), ⟨[9]⟩) := by
  obtain ⟨-, -, hcount, hbelow, hnonzero, -⟩ :=
    @rejectionSampling_uniform CurveError 257 (by decide)
  let first : Block 2 := ⟨[1, 1], rfl⟩
  let second : Block 2 := ⟨[0x80, 0], rfl⟩
  let third : Block 2 := ⟨[0xfe, 3], rfl⟩
  refine ⟨⟨by decide, hcount 3 (by decide)⟩, ?_, ?_, ?_⟩
  · exact (hbelow.run_eq_ok_iff _ _ _).mpr ⟨[first], second, rfl, by decide, by decide⟩
  · exact ((hnonzero (by decide)).run_eq_ok_iff _ _ _).mpr
      ⟨[first, second], third, rfl, by decide, by decide⟩
  · exact (hbelow.run_eq_error_iff _ _ _).mpr ⟨rfl, [first], rfl, by decide, by decide⟩

end EllipticSignatures
