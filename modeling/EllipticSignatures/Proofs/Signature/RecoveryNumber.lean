import EllipticSignatures.Proofs.Signature.Message

/-!
# The recovery number identifies the signer

The header of a message signature tells the parity of the ordinate of the nonce point. If the
abscissa of the nonce point is below the group order, it is the signed number, so lifting that
number with this parity gives the nonce point back. Of the two public points that the signature can
belong to, the one of the lifted point is the public key of the signer, and it is what recovery
finds for the lifted point (`lifted_candidate_eq_publicKey`).

The group order need not annihilate every point of the curve: both nonce points are multiples of the
generator.
-/

namespace EllipticSignatures

open FieldElement

namespace MessageSignature

/-- The public point `r⁻¹ (s R - z G)` that belongs to the nonce point `R`. -/
def candidateOf (c : Curve) (sig : EcdsaSignature) (z : ℕ) (R : Affine) :
    Outcome CurveError Affine := do
  let inverse ← (← c.scalarElement sig.r).invert
  let sR ← PointGroup.scalarMul R sig.s c
  let zG ← PointGroup.scalarMul c.generator z c
  PointGroup.scalarMul (← sR.add (← zG.negate) c) inverse.value c

/-- What recovery finds for the nonce point `(x, y)`, with the multipliers `-z / r` and `s / r`. -/
def recoverAt (c : Curve) (sig : EcdsaSignature) (z : ℕ) (x y : FieldElement) :
    Checked (Option Affine) :=
  recoverFrom c (-z * (sig.r : ZMod c.n)⁻¹ : ZMod c.n).val
    (sig.s * (sig.r : ZMod c.n)⁻¹ : ZMod c.n).val x y

/-- The signature of `z` and the parity of its nonce point tell that the nonce point is `(x, y)` and
the public point `Q`. -/
structure Identifies (c : Curve) (sig : EcdsaSignature) (z : ℕ) (odd : Bool) (x y : FieldElement)
    (Q : Affine) : Prop where
  /-- Lifting the signed number with the parity gives the nonce point. -/
  lifted : Affine.liftX ⟨sig.r, c.p⟩ odd c = .ok (some (.point x y))
  /-- The public point belongs to the nonce point. -/
  candidate : candidateOf c sig z (.point x y) = .ok Q
  /-- Recovery finds the public points of the nonce point and of its opposite, less the identity. -/
  candidates : ∃ opposite other candidates, y.neg = .ok opposite ∧
    candidateOf c sig z (.point x opposite) = .ok other ∧
    recoverCandidates c sig z = .ok candidates ∧
    candidates.Perm ([Q, other].filter (!·.isInfinity))
  /-- What recovery finds for the lifted point is the public point, unless that is the identity. -/
  found : recoverAt c sig z x y = .ok ((some Q).filter (!·.isInfinity))
  /-- Recovery lists what it finds for the lifted point and for its opposite, and nothing else. -/
  listed : ∃ opposite first second, y.neg = .ok opposite ∧ recoverAt c sig z x y = .ok first ∧
    recoverAt c sig z x opposite = .ok second ∧
    (recoverCandidates c sig z = .ok (first.toList ++ second.toList) ∨
      recoverCandidates c sig z = .ok (second.toList ++ first.toList))

variable {c : Curve} [Fact c.p.Prime] [Fact c.n.Prime] {r s z : ℕ}

/-- For a multiple of the generator the candidate is the recovered public point. -/
theorem candidateOf_multiples (hc : c.Checks) (hr : c.inScalarRange r) (k : ZMod c.n) :
    candidateOf c ⟨r, s⟩ z (Affine.ofPoint (hc.multiples k)) =
      .ok (Affine.ofPoint (recovered hc z r s (hc.multiples k))) := by
  have hsame : recovered hc z r s (hc.multiples k) =
      ((r : ZMod c.n)⁻¹).val • (s • hc.multiples k + -hc.multiples z) := by
    rw [recovered, Curve.val_smul_multiples, ← map_add, ← map_nsmul hc.multiples s, ← map_neg,
      ← map_add, Curve.val_smul_multiples, nsmul_eq_mul]
    congr 1
    ring
  rw [hsame]
  simp only [candidateOf, Curve.scalarElement, ofNat_eq_ofZMod, Outcome.liftM_checked,
    Outcome.ofChecked_ok, ok_bind, invert_ofZMod (Curve.cast_ne_zero_of_inScalarRange hr),
    Affine.scalarMul_ofPoint hc, hc.scalarMul_generator, Affine.negate_ofPoint,
    Affine.add_ofPoint hc, value_ofZMod]

/-- The candidates are the public points of both nonce points of abscissa `r`, less the identity,
in one order or the other. -/
theorem recoverCandidates_eq_or (hc : c.Checks) (hr : c.inScalarRange r)
    (hs : c.inScalarRange s) (hrp : r < c.p) {x y : ZMod c.p} (hx : x = (r : ZMod c.p))
    (h : c.weierstrass.Nonsingular x y) (hopposite : c.weierstrass.Nonsingular x (-y)) :
    recoverCandidates c ⟨r, s⟩ z =
        .ok ([Affine.ofPoint (recovered hc z r s (.some x y h)),
          Affine.ofPoint (recovered hc z r s (.some x (-y) hopposite))].filter (!·.isInfinity)) ∨
      recoverCandidates c ⟨r, s⟩ z =
        .ok ([Affine.ofPoint (recovered hc z r s (.some x (-y) hopposite)),
          Affine.ofPoint (recovered hc z r s (.some x y h))].filter (!·.isInfinity)) := by
  have hy := Curve.equation_iff_rhs.mp h.left
  obtain ⟨root, hroot, hsqrt⟩ := sqrt_of_isSquare hc.p_ne_two ⟨y, hy.symm⟩
  -- The root that is found is the ordinate or its opposite.
  obtain rfl | rfl := mul_self_eq_mul_self_iff.mp (hroot.trans hy.symm)
  · exact .inl (recoverCandidates_of_sqrt hc hr hs hrp z hx hsqrt h hopposite)
  · have hlisted := recoverCandidates_of_sqrt hc hr hs hrp z hx hsqrt hopposite (by rwa [neg_neg])
    simp only [neg_neg] at hlisted
    exact .inr hlisted

theorem exists_recoverCandidates_perm (hc : c.Checks) (hr : c.inScalarRange r)
    (hs : c.inScalarRange s) (hrp : r < c.p) {x y : ZMod c.p} (hx : x = (r : ZMod c.p))
    (h : c.weierstrass.Nonsingular x y) (hopposite : c.weierstrass.Nonsingular x (-y)) :
    ∃ candidates, recoverCandidates c ⟨r, s⟩ z = .ok candidates ∧
      candidates.Perm ([Affine.ofPoint (recovered hc z r s (.some x y h)),
        Affine.ofPoint (recovered hc z r s (.some x (-y) hopposite))].filter
          (!·.isInfinity)) := by
  obtain hlisted | hlisted := recoverCandidates_eq_or (z := z) hc hr hs hrp hx h hopposite
  · exact ⟨_, hlisted, .refl _⟩
  · exact ⟨_, hlisted, (List.Perm.swap _ _ _).filter _⟩

/-- What recovery finds for a nonce point is its public point, unless that is the identity. -/
theorem recoverAt_eq (hc : c.Checks) {x y : ZMod c.p} (h : c.weierstrass.Nonsingular x y) :
    recoverAt c ⟨r, s⟩ z (ofZMod x) (ofZMod y) =
      .ok ((some (Affine.ofPoint (recovered hc z r s (.some x y h)))).filter (!·.isInfinity)) :=
  recoverFrom_eq hc z r s h

/-- Recovery lists what it finds for both nonce points of abscissa `r`, in one order or the
other. -/
theorem exists_recoverAt (hc : c.Checks) (hr : c.inScalarRange r) (hs : c.inScalarRange s)
    (hrp : r < c.p) {x y : ZMod c.p} (hx : x = (r : ZMod c.p))
    (h : c.weierstrass.Nonsingular x y) (hopposite : c.weierstrass.Nonsingular x (-y)) :
    ∃ first second, recoverAt c ⟨r, s⟩ z (ofZMod x) (ofZMod y) = .ok first ∧
      recoverAt c ⟨r, s⟩ z (ofZMod x) (ofZMod (-y)) = .ok second ∧
      (recoverCandidates c ⟨r, s⟩ z = .ok (first.toList ++ second.toList) ∨
        recoverCandidates c ⟨r, s⟩ z = .ok (second.toList ++ first.toList)) := by
  refine ⟨_, _, recoverAt_eq hc h, recoverAt_eq hc hopposite, ?_⟩
  simp only [Option.toList_filter, Option.toList_some, ← List.filter_append,
    List.singleton_append]
  exact recoverCandidates_eq_or hc hr hs hrp hx h hopposite

/-- A signature whose first number is the abscissa of a multiple of the generator identifies that
multiple and its public point. -/
theorem identifies_recovered (hc : c.Checks) (hs : c.inScalarRange s) {k : ZMod c.n}
    {x y : ZMod c.p} {h : c.weierstrass.Nonsingular x y} (hpoint : hc.multiples k = .some x y h)
    (hr : c.inScalarRange x.val) :
    Identifies c ⟨x.val, s⟩ z (ofZMod y).isOdd (ofZMod x) (ofZMod y)
      (Affine.ofPoint (recovered hc z x.val s (.some x y h))) := by
  have hrp := ZMod.val_lt x
  have hx : x = (x.val : ZMod c.p) := (ZMod.natCast_zmod_val x).symm
  -- The opposite of the nonce point is a multiple of the generator, too.
  obtain ⟨hopposite, hneg⟩ := Curve.exists_neg_some h
  rw [← hpoint, ← map_neg] at hneg
  have hcandidate (j : ZMod c.n) := candidateOf_multiples (s := s) (z := z) hc hr j
  obtain ⟨candidates, hcandidates, hperm⟩ :=
    exists_recoverCandidates_perm (z := z) hc hr hs hrp hx h hopposite
  obtain ⟨first, second, hfirst, hsecond, hlisted⟩ :=
    exists_recoverAt (z := z) hc hr hs hrp hx h hopposite
  refine
    { lifted := (Affine.liftX_eq_some_iff hc).mpr ⟨y, h.left, rfl, fun _ => rfl⟩
      candidate := ?_
      candidates := ⟨_, _, candidates, neg_ofZMod y, ?_, hcandidates, hperm⟩
      found := recoverAt_eq hc h
      listed := ⟨_, first, second, neg_ofZMod y, hfirst, hsecond, hlisted⟩ }
  · rw [← Affine.ofPoint_some (h := h), ← hpoint, hcandidate]
  · rw [← Affine.ofPoint_some (h := hopposite), ← hneg, hcandidate]

end MessageSignature

namespace SigningKey

variable {key : SigningKey} [Fact key.curve.p.Prime] [Fact key.curve.n.Prime]

/-- The nonce point is finite, and if its abscissa is below the group order, the signature and the
parity that comes along identify the public key. -/
theorem exists_identifies_publicKey (hc : key.curve.Checks) {z : ℕ} {k : Scalar}
    (hk : key.curve.inScalarRange k.value) {signed : RecoverableSignature}
    (h : key.signWithNonce (ofZMod (z : ZMod key.curve.n)) k = .ok (some signed)) :
    ∃ x y, PointGroup.scalarMul key.curve.generator k.value key.curve = .ok (.point x y) ∧
      (x.value < key.curve.n → MessageSignature.Identifies key.curve signed.signature z
        signed.oddNonce x y (key.publicKey hc).point) := by
  have hk₀ := Curve.cast_ne_zero_of_inScalarRange hk
  obtain ⟨⟨r, s⟩, oddNonce⟩ := signed
  obtain ⟨hr, hs⟩ := inScalarRange_of_signWithNonce hc hk h
  obtain ⟨x, y, hxy, hpoint, hr₀, -, hsigned⟩ := (signWithNonce_eq_some_iff hc hk₀).mp h
  dsimp only at hr hs ⊢
  simp only [RecoverableSignature.mk.injEq, EcdsaSignature.mk.injEq] at hsigned
  obtain ⟨⟨hrx, hsk⟩, rfl⟩ := hsigned
  refine ⟨ofZMod x, ofZMod y, ?_, ?_⟩
  · rw [hc.scalarMul_generator, hpoint, Affine.ofPoint_some]
  intro hlt
  -- The abscissa is below the group order, so it is the signed number itself.
  rw [value_ofZMod] at hlt
  rw [ZMod.val_natCast_of_lt hlt] at hrx
  subst hrx
  -- The public point of the nonce point is the public key.
  have hown : MessageSignature.recovered hc z x.val s (.some x y hxy) =
      hc.multiples (key.scalar.value : ZMod key.curve.n) := by
    rw [← hpoint, hsk, ZMod.natCast_zmod_val]
    exact recovered_nonce_point hc hr₀ hk₀
  rw [publicKey, ← hown]
  exact MessageSignature.identifies_recovered hc hs hpoint hr

end SigningKey

/-- The recovery number identifies the signer. On an accepted curve of prime modulus and group
order, the header of a message signature is 27 plus the parity of the ordinate of the nonce point,
plus four exactly for the compressed form. If the abscissa of that point is below the group order,
the numbers of the signature and this parity identify the public key of the signer, among the
candidates of recovery as well. The nonce is the only one in range that makes the signature. -/
theorem lifted_candidate_eq_publicKey [Digests] {key : SigningKey} (hc : key.curve.Accepted)
    (hp : key.curve.p.Prime) (hn : key.curve.n.Prime) {message : Bytes} {format : PointFormat}
    {sig : MessageSignature} {source source' : Source}
    (h : (key.signMessage message format).run source = (.ok sig, source')) :
    let z := (SignedMessage.digest message).toNat
    ∃ vk k oddNonce x y, key.verifyingKey = .ok vk ∧ (1 ≤ k ∧ k < key.curve.n) ∧
      key.signWithNonce ⟨z % key.curve.n, key.curve.n⟩ ⟨k⟩ =
        .ok (some ⟨sig.toEcdsa, oddNonce⟩) ∧
      (∀ k' oddNonce', 1 ≤ k' → k' < key.curve.n →
        key.signWithNonce ⟨z % key.curve.n, key.curve.n⟩ ⟨k'⟩ =
          .ok (some ⟨sig.toEcdsa, oddNonce'⟩) → k' = k) ∧
      PointGroup.scalarMul key.curve.generator k key.curve = .ok (.point x y) ∧
      sig.header.toNat = 27 + oddNonce.toNat + (if format = .compressed then 4 else 0) ∧
      (x.value < key.curve.n →
        MessageSignature.Identifies key.curve sig.toEcdsa z oddNonce x y vk.point) := by
  intro z
  have := Fact.mk hp
  have := Fact.mk hn
  have hk := hc.checks
  obtain ⟨signed, hsigned, rfl, hnumbers, hrecovery⟩ :=
    SigningKey.exists_signPrehash_recovery_of_signMessage h
  obtain ⟨k, hrange, hsign⟩ := SigningKey.exists_nonce_of_signPrehash hsigned
  obtain ⟨x, y, hpoint, hidentifies⟩ := SigningKey.exists_identifies_publicKey hk hrange hsign
  rw [← ofZMod_natCast, hnumbers]
  refine ⟨key.publicKey hk, k.value, signed.oddNonce, x, y, SigningKey.verifyingKey_eq hk,
    Curve.inScalarRange_iff.mp hrange, hsign, ?_, hpoint, ?_, hidentifies⟩
  · intro k' oddNonce' hle hlt hsign'
    have hrange' : key.curve.inScalarRange k' := Curve.inScalarRange_iff.mpr ⟨hle, hlt⟩
    have hsame : (⟨k'⟩ : Scalar) = k :=
      SigningKey.eq_of_signWithNonce hk hrange' hrange hsign' hsign rfl
    exact congrArg Scalar.value hsame
  · rw [MessageSignature.toNat_header, hrecovery]
    cases signed.oddNonce <;> cases sig.format <;> rfl

/-- On the curve with 13 points the nonce one signs a message of two bytes under the secret one.
The parity of the header picks the generator from the two candidates. -/
theorem thirteen_lifted_candidate :
    ∃ sig vk x y, ((SigningKey.mk ⟨1⟩ Curve.thirteen).signMessage [0x68, 0x69] .compressed).run
        ⟨[1]⟩ = (.ok sig, ⟨[]⟩) ∧
      (SigningKey.mk ⟨1⟩ Curve.thirteen).verifyingKey = .ok vk ∧ sig.header = 32 ∧
      Affine.liftX ⟨sig.toEcdsa.r, 19⟩ true Curve.thirteen = .ok (some (.point x y)) ∧
      MessageSignature.candidateOf Curve.thirteen sig.toEcdsa
        (SignedMessage.digest [0x68, 0x69]).toNat (.point x y) = .ok vk.point := by
  have hrun : @Eq (Except (Failure SignatureError) MessageSignature × Source)
      (((SigningKey.mk ⟨1⟩ Curve.thirteen).signMessage [0x68, 0x69] .compressed).run ⟨[1]⟩)
      (.ok ⟨.compressed, 1, Block.ofNat 32 4, Block.ofNat 32 10⟩, ⟨[]⟩) := by
    decide +kernel
  obtain ⟨vk, k, oddNonce, x, y, hvk, -, hsign, hunique, hpoint, hheader, hidentifies⟩ :=
    @lifted_candidate_eq_publicKey _ ⟨⟨1⟩, Curve.thirteen⟩ Curve.accepted_thirteen
      Curve.prime_p_thirteen Curve.prime_n_thirteen _ _ _ _ _ hrun
  dsimp only at hsign hunique
  rw [digest_mod_thirteen] at hsign hunique
  have hone : (SigningKey.mk ⟨1⟩ Curve.thirteen).signWithNonce ⟨6, Curve.thirteen.n⟩ ⟨1⟩ =
      .ok (some ⟨⟨4, 10⟩, true⟩) := by
    rfl
  have hnumbers : (MessageSignature.mk .compressed 1 (Block.ofNat 32 4)
      (Block.ofNat 32 10)).toEcdsa = ⟨4, 10⟩ := by
    decide
  rw [hnumbers] at hsign hunique
  -- The nonce is one, so its point is the generator.
  obtain rfl : 1 = k := hunique 1 true le_rfl (by decide) hone
  rw [hone, Except.ok.injEq, Option.some.injEq, RecoverableSignature.mk.injEq] at hsign
  obtain ⟨-, rfl⟩ := hsign
  have hgenerator : PointGroup.scalarMul Curve.thirteen.generator 1 Curve.thirteen =
      .ok (.point ⟨4, 19⟩ ⟨3, 19⟩) := by
    rfl
  rw [hgenerator, Except.ok.injEq, Affine.point.injEq] at hpoint
  obtain ⟨rfl, rfl⟩ := hpoint
  have hid := hidentifies (by decide)
  exact ⟨_, vk, _, _, hrun, hvk, UInt8.toNat.inj hheader, hid.lifted, hid.candidate⟩

end EllipticSignatures
