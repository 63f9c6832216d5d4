import EllipticSignatures.Proofs.Signature.Ecdsa
import EllipticSignatures.Proofs.Signature.Recovery
import EllipticSignatures.Proofs.Text.Base64

/-!
# Message signatures and the address of the signer

A message signature holds the abscissa of the nonce point modulo the group order, and verification
takes it for the abscissa itself. On a curve of cofactor one, the signature of a key is therefore
valid for the address of the key exactly if the abscissa of the nonce point is below the group
order, or another recovered point has the address too.
-/

namespace EllipticSignatures

open FieldElement

/-! ## Texts -/

namespace MessageSignature

theorem toNat_header (sig : MessageSignature) :
    sig.header.toNat = (if sig.format = .compressed then 31 else 27) + sig.recovery.val := by
  obtain ⟨format, recovery, r, s⟩ := sig
  have hlt := recovery.isLt
  cases format <;> simp [header, isCompressed, headerBase, compressedOffset] <;> omega

/-- The form and the recovery number are read back from the header. -/
theorem ofHeader?_header (sig : MessageSignature) :
    ofHeader? sig.header = some (sig.format, sig.recovery) := by
  have hlt := sig.recovery.isLt
  -- The headers of the compressed form are 31 to 34, those of the other form 27 to 30.
  simp only [ofHeader?, toNat_header, headerBase, compressedOffset]
  cases hformat : sig.format
  · simp only [if_true]
    rw [if_neg (by omega), if_pos (by omega), Option.some.injEq, Prod.mk.injEq, Fin.ext_iff,
      Fin.val_ofNat]
    exact ⟨rfl, by omega⟩
  · simp only [reduceCtorEq, if_false]
    rw [if_neg (by omega), if_neg (by omega), Option.some.injEq, Prod.mk.injEq, Fin.ext_iff,
      Fin.val_ofNat]
    exact ⟨rfl, by omega⟩

theorem length_toBytes (sig : MessageSignature) : sig.toBytes.length = encodedBytes := by
  simp [toBytes, encodedBytes, sig.r.length_eq, sig.s.length_eq]

/-- A signature is read back from its bytes. -/
theorem ofBytes_toBytes (sig : MessageSignature) : ofBytes sig.toBytes = .ok sig := by
  simp [ofBytes, ofBytes?, toBytes, ofHeader?_header]

/-- A signature is read back from its text. -/
theorem ofBase64_toBase64 (sig : MessageSignature) : ofBase64 sig.toBase64 = .ok sig := by
  rw [ofBase64, toBase64, Blank.trim_ofList fun _ => Base64.isBlank_of_mem_encodeChars,
    String.toList_ofList, Base64.decodeChars?_encodeChars]
  exact ofBytes_toBytes sig

/-- A number that fits is read back from its block. -/
theorem toNat_of_blockOf {value : ℕ} {block : Block 32} (h : blockOf value = .ok block) :
    block.toNat = value := by
  rw [blockOf] at h
  by_cases hw : 32 < Bytes.width value
  · rw [if_pos hw] at h
    cases h
  · rw [if_neg hw, Except.ok.injEq] at h
    rw [← h]
    exact Bytes.toNat_bigEndian_of_width_le (not_lt.mp hw)

end MessageSignature

/-! ## Signing -/

namespace SigningKey

variable {key : SigningKey}

/-- A message signature holds the two numbers of a signature of the digest, and the parity of the
nonce point as recovery number. -/
theorem exists_signPrehash_recovery_of_signMessage [Digests] {message : Bytes}
    {format : PointFormat} {sig : MessageSignature} {source source' : Source}
    (h : (key.signMessage message format).run source = (.ok sig, source')) :
    ∃ signed, (key.signPrehash (SignedMessage.digest message).toNat).run source =
        (.ok signed, source') ∧
      sig.format = format ∧ sig.toEcdsa = signed.signature ∧
      sig.recovery = if signed.oddNonce then 1 else 0 := by
  obtain ⟨signed, middle, hsigned, h⟩ := Draw.run_bind_eq_ok.mp h
  obtain ⟨hbuild, rfl⟩ := Draw.run_lift_eq_ok.mp h
  obtain ⟨r, hr, hbuild⟩ := bind_eq_ok.mp (Outcome.ofExcept_eq_ok.mp hbuild)
  obtain ⟨s, hs, hbuild⟩ := bind_eq_ok.mp hbuild
  rw [pure_eq_ok, Except.ok.injEq] at hbuild
  subst hbuild
  refine ⟨signed, hsigned, rfl, ?_, rfl⟩
  rw [MessageSignature.toEcdsa, MessageSignature.toNat_of_blockOf hr,
    MessageSignature.toNat_of_blockOf hs]

theorem exists_signPrehash_of_signMessage [Digests] {message : Bytes} {format : PointFormat}
    {sig : MessageSignature} {source source' : Source}
    (h : (key.signMessage message format).run source = (.ok sig, source')) :
    ∃ signed, (key.signPrehash (SignedMessage.digest message).toNat).run source =
        (.ok signed, source') ∧
      sig.format = format ∧ sig.toEcdsa = signed.signature := by
  obtain ⟨signed, hsigned, hformat, hnumbers, -⟩ := exists_signPrehash_recovery_of_signMessage h
  exact ⟨signed, hsigned, hformat, hnumbers⟩

variable [Fact key.curve.p.Prime] [Fact key.curve.n.Prime]

/-- The public point recovered from the nonce point is the public key. -/
theorem recovered_nonce_point (hc : key.curve.Checks) {z r k : ZMod key.curve.n} (hr : r ≠ 0)
    (hk : k ≠ 0) :
    MessageSignature.recovered hc z r (key.response z r k) (hc.multiples k) =
      hc.multiples (key.scalar.value : ZMod key.curve.n) := by
  rw [MessageSignature.recovered, Curve.val_smul_multiples, ← map_add, response]
  -- Both sides are multiples of the generator, so the residues are compared.
  congr 1
  field_simp
  ring

/-- The public key is not the identity. -/
theorem publicKey_ne_zero (hc : key.curve.Checks)
    (hd : key.curve.inScalarRange key.scalar.value) :
    hc.multiples (key.scalar.value : ZMod key.curve.n) ≠ 0 := by
  rw [Ne, hc.multiples_eq_zero_iff Fact.out]
  exact Curve.cast_ne_zero_of_inScalarRange hd

end SigningKey

/-! ## Verification under the own address -/

namespace SigningKey

variable {key : SigningKey} [Fact key.curve.p.Prime] [Fact key.curve.n.Prime]

/-- A nonce point has the abscissa that the signature holds exactly if that abscissa is below the
group order; it then gives the public key. -/
theorem recovered_eq_publicKey_iff (hc : key.curve.Checks) (hnp : key.curve.n ≤ key.curve.p)
    (hone : key.curve.CofactorOne) {z k : ZMod key.curve.n} (hk : k ≠ 0) {x y : ZMod key.curve.p}
    {h : key.curve.weierstrass.Nonsingular x y} (hpoint : hc.multiples k = .some x y h)
    (hr : (x.val : ZMod key.curve.n) ≠ 0) (hs : key.response z x.val k ≠ 0) :
    (∃ v hv, MessageSignature.recovered hc z x.val (key.response z x.val k)
        (.some ((x.val : ZMod key.curve.n).val : ZMod key.curve.p) v hv) =
          hc.multiples (key.scalar.value : ZMod key.curve.n)) ↔
      x.val < key.curve.n := by
  have hinj := MessageSignature.recovered_injective hc (hone.order_smul hc) z hr hs
  -- Reduction modulo the smaller group order keeps exactly the abscissas below it.
  have hval : ((x.val : ZMod key.curve.n).val : ZMod key.curve.p) = x ↔ x.val < key.curve.n := by
    have hlt := ZMod.val_lt (x.val : ZMod key.curve.n)
    constructor
    · intro hx
      have hxval := congrArg ZMod.val hx
      rw [ZMod.val_natCast_of_lt (hlt.trans_le hnp)] at hxval
      rwa [hxval] at hlt
    · intro hx
      rw [ZMod.val_natCast_of_lt hx, ZMod.natCast_zmod_val]
  rw [← recovered_nonce_point hc (z := z) hr hk, hpoint, ← hval]
  constructor
  · rintro ⟨v, hv, hrecovered⟩
    exact (WeierstrassCurve.Affine.Point.some.inj (hinj hrecovered)).left
  · intro hx
    generalize ((x.val : ZMod key.curve.n).val : ZMod key.curve.p) = abscissa at hx
    subst hx
    exact ⟨y, h, rfl⟩

/-- Recovery from an own signature gives an answer, and the public key is among the candidates
exactly if the abscissa of the nonce point is below the group order. -/
theorem exists_recoverCandidates_own (hc : key.curve.Checks) (hnp : key.curve.n ≤ key.curve.p)
    (hone : key.curve.CofactorOne) (hd : key.curve.inScalarRange key.scalar.value) {z : ℕ}
    {k : Scalar} (hrange : key.curve.inScalarRange k.value) {signed : RecoverableSignature}
    (h : key.signWithNonce (ofZMod (z : ZMod key.curve.n)) k = .ok (some signed)) :
    ∃ x y candidates,
      PointGroup.scalarMul key.curve.generator k.value key.curve = .ok (.point x y) ∧
      MessageSignature.recoverCandidates key.curve signed.signature z = .ok candidates ∧
      (∀ Q ∈ candidates, ∃ T : key.curve.Point, T ≠ 0 ∧ Q = Affine.ofPoint T) ∧
      ((key.publicKey hc).point ∈ candidates ↔ x.value < key.curve.n) := by
  have hk₀ := Curve.cast_ne_zero_of_inScalarRange hrange
  obtain ⟨hr, hs⟩ := inScalarRange_of_signWithNonce hc hrange h
  obtain ⟨x, y, hxy, hpoint, hr₀, hs₀, rfl⟩ := (signWithNonce_eq_some_iff hc hk₀).mp h
  obtain ⟨candidates, hcandidates, hmem⟩ := MessageSignature.exists_recoverCandidates hc hr hs
    ((ZMod.val_lt _).trans_le hnp) z
  simp only [ZMod.natCast_zmod_val] at hmem
  refine ⟨ofZMod x, ofZMod y, candidates, ?_, hcandidates, ?_, ?_⟩
  · rw [hc.scalarMul_generator, hpoint, Affine.ofPoint_some]
  · intro Q hQ
    obtain ⟨v, hv, hne, hQ⟩ := (hmem Q).mp hQ
    exact ⟨_, hne, hQ⟩
  · rw [hmem, value_ofZMod, ← recovered_eq_publicKey_iff hc hnp hone hk₀ hpoint hr₀ hs₀]
    constructor
    · rintro ⟨v, hv, -, hQ⟩
      exact ⟨v, hv, (Affine.ofPoint_injective hQ).symm⟩
    · rintro ⟨v, hv, hQ⟩
      exact ⟨v, hv, hQ ▸ publicKey_ne_zero hc hd, congrArg Affine.ofPoint hQ.symm⟩

end SigningKey

/-- Verification under an address reads both texts back and searches the candidates. -/
theorem SignedMessage.verifyOn_toText [Digests] (c : Curve) (address : Address) (message : Bytes)
    (sig : MessageSignature) :
    verifyOn c address.toText message sig.toBase64 = (do
      let candidates ← MessageSignature.recoverCandidates c sig.toEcdsa (digest message).toNat
      MessageSignature.anyHasAddress c sig.format address candidates) := by
  rw [verifyOn, Address.ofText_toText, MessageSignature.ofBase64_toBase64]

/-- A message signature is valid for the address of the signer exactly if the abscissa of the nonce
point is below the group order, or another recovered point has that address. The curve is accepted,
has prime modulus and group order and cofactor one, and the secret is in range. The digests of
messages, public points and texts are arbitrary. -/
theorem verifyOn_signMessage_iff [Digests] {key : SigningKey} (hc : key.curve.Accepted)
    (hp : key.curve.p.Prime) (hn : key.curve.n.Prime) (hnp : key.curve.n ≤ key.curve.p)
    (hone : key.curve.CofactorOne) (hd : key.curve.inScalarRange key.scalar.value)
    {message : Bytes} {format : PointFormat} {sig : MessageSignature} {source source' : Source}
    (h : (key.signMessage message format).run source = (.ok sig, source')) :
    ∃ vk address k oddNonce x y candidates valid,
      key.verifyingKey = .ok vk ∧ vk.address format = .ok address ∧
      (1 ≤ k ∧ k < key.curve.n) ∧
      key.signWithNonce ⟨(SignedMessage.digest message).toNat % key.curve.n, key.curve.n⟩ ⟨k⟩ =
        .ok (some ⟨sig.toEcdsa, oddNonce⟩) ∧
      PointGroup.scalarMul key.curve.generator k key.curve = .ok (.point x y) ∧
      MessageSignature.recoverCandidates key.curve sig.toEcdsa
        (SignedMessage.digest message).toNat = .ok candidates ∧
      SignedMessage.verifyOn key.curve address.toText message sig.toBase64 = .ok valid ∧
      (valid = true ↔ x.value < key.curve.n ∨ ∃ Q ∈ candidates, Q ≠ vk.point ∧
        (⟨Q, key.curve⟩ : VerifyingKey).address format = .ok address) := by
  have := Fact.mk hp
  have := Fact.mk hn
  have hk := hc.checks
  obtain ⟨signed, hsigned, rfl, hnumbers⟩ := SigningKey.exists_signPrehash_of_signMessage h
  obtain ⟨k, hrange, hsign⟩ := SigningKey.exists_nonce_of_signPrehash hsigned
  -- The signer's own key is among the candidates exactly if the abscissa was not reduced.
  obtain ⟨x, y, candidates, hpoint, hcandidates, hfinite, hown⟩ :=
    SigningKey.exists_recoverCandidates_own hk hnp hone hd hrange hsign
  obtain ⟨address, haddress⟩ :=
    VerifyingKey.exists_address (SigningKey.publicKey_ne_zero hk hd) sig.format
  obtain ⟨valid, hvalid, hiff⟩ :=
    MessageSignature.exists_anyHasAddress sig.format address hfinite
  refine ⟨key.publicKey hk, address, k.value, signed.oddNonce, x, y, candidates, valid,
    SigningKey.verifyingKey_eq hk, haddress, Curve.inScalarRange_iff.mp hrange, ?_, hpoint, ?_, ?_,
    ?_⟩
  · rw [ofZMod, ZMod.val_natCast] at hsign
    rwa [hnumbers]
  · rw [hnumbers, hcandidates]
  · rw [SignedMessage.verifyOn_toText, hnumbers, hcandidates, ok_bind, hvalid]
  · rw [hiff, ← hown]
    constructor
    · -- A candidate with the address is the public key or another point.
      rintro ⟨Q, hQ, hsame⟩
      by_cases hne : Q = (key.publicKey hk).point
      · exact .inl (hne ▸ hQ)
      · exact .inr ⟨Q, hQ, hne, hsame⟩
    · rintro (hQ | ⟨Q, hQ, -, hsame⟩)
      · exact ⟨_, hQ, haddress⟩
      · exact ⟨Q, hQ, hsame⟩

/-- The digest of a message of two bytes, modulo thirteen. -/
theorem digest_mod_thirteen : (SignedMessage.digest [0x68, 0x69]).toNat % Curve.thirteen.n = 6 := by
  decide +kernel

/-- The nonce one has a point of abscissa four, which is below the group order of the curve with 13
points, and its signature is valid for the address of the signer. -/
theorem thirteen_verifyOn_signMessage :
    ∃ sig vk address, ((SigningKey.mk ⟨1⟩ Curve.thirteen).signMessage [0x68, 0x69]
        .compressed).run ⟨[1]⟩ = (.ok sig, ⟨[]⟩) ∧
      (SigningKey.mk ⟨1⟩ Curve.thirteen).verifyingKey = .ok vk ∧
      vk.address .compressed = .ok address ∧
      SignedMessage.verifyOn Curve.thirteen address.toText [0x68, 0x69] sig.toBase64 =
        .ok true := by
  have hrun : @Eq (Except (Failure SignatureError) MessageSignature × Source)
      (((SigningKey.mk ⟨1⟩ Curve.thirteen).signMessage [0x68, 0x69] .compressed).run ⟨[1]⟩)
      (.ok ⟨.compressed, 1, Block.ofNat 32 4, Block.ofNat 32 10⟩, ⟨[]⟩) := by
    decide +kernel
  have hnonce : ∀ k < 13, ∀ oddNonce,
      (SigningKey.mk ⟨1⟩ Curve.thirteen).signWithNonce ⟨6, Curve.thirteen.n⟩ ⟨k⟩ =
        .ok (some ⟨⟨4, 10⟩, oddNonce⟩) → k = 1 := by
    decide +kernel
  -- One is the only nonce that gives this signature, and its point is the generator.
  have hone : PointGroup.scalarMul Curve.thirteen.generator 1 Curve.thirteen =
      .ok (.point ⟨4, 19⟩ ⟨3, 19⟩) := by
    rfl
  obtain ⟨vk, address, k, oddNonce, x, y, candidates, valid, hvk, haddress, hrange, hsign, hpoint,
    -, hvalid, hiff⟩ := @verifyOn_signMessage_iff _ ⟨⟨1⟩, Curve.thirteen⟩
      Curve.accepted_thirteen Curve.prime_p_thirteen Curve.prime_n_thirteen (by decide)
      Curve.cofactorOne_thirteen (by decide) _ _ _ _ _ hrun
  dsimp only at hsign
  rw [digest_mod_thirteen] at hsign
  obtain rfl : k = 1 := hnonce k hrange.right oddNonce hsign
  rw [hone, Except.ok.injEq, Affine.point.injEq] at hpoint
  obtain ⟨rfl, -⟩ := hpoint
  have htrue : valid = true := hiff.mpr (.inl (by decide))
  exact ⟨_, vk, address, hrun, hvk, haddress, htrue ▸ hvalid⟩

/-- The nonce two has a point of abscissa 18, which exceeds the group order of the curve with 13
points. The curve keeps every promise, and yet the signature is not valid for the address of the
signer. -/
theorem thirteen_not_verifyOn_signMessage :
    Curve.thirteen.Accepted ∧ Curve.thirteen.p.Prime ∧ Curve.thirteen.n.Prime ∧
      Curve.thirteen.n ≤ Curve.thirteen.p ∧ Curve.thirteen.CofactorOne ∧
      Curve.thirteen.inScalarRange 1 ∧
      ∃ sig vk address, ((SigningKey.mk ⟨1⟩ Curve.thirteen).signMessage [0x68, 0x69]
          .compressed).run ⟨[2]⟩ = (.ok sig, ⟨[]⟩) ∧
        (SigningKey.mk ⟨1⟩ Curve.thirteen).verifyingKey = .ok vk ∧
        vk.address .compressed = .ok address ∧
        SignedMessage.verifyOn Curve.thirteen address.toText [0x68, 0x69] sig.toBase64 =
          .ok false := by
  refine ⟨Curve.accepted_thirteen, Curve.prime_p_thirteen, Curve.prime_n_thirteen, by decide,
    Curve.cofactorOne_thirteen, by decide, ?_⟩
  have hrun : @Eq (Except (Failure SignatureError) MessageSignature × Source)
      (((SigningKey.mk ⟨1⟩ Curve.thirteen).signMessage [0x68, 0x69] .compressed).run ⟨[2]⟩)
      (.ok ⟨.compressed, 0, Block.ofNat 32 5, Block.ofNat 32 12⟩, ⟨[]⟩) := by
    decide +kernel
  have hnumbers : (MessageSignature.mk .compressed 0 (Block.ofNat 32 5)
      (Block.ofNat 32 12)).toEcdsa = ⟨5, 12⟩ := by
    decide
  -- No point of the curve has abscissa five, so there is no candidate to compare.
  have hnone : MessageSignature.recoverCandidates Curve.thirteen ⟨5, 12⟩
      (SignedMessage.digest [0x68, 0x69]).toNat = .ok [] := by
    rfl
  refine ⟨_, ⟨.point ⟨4, 19⟩ ⟨3, 19⟩, Curve.thirteen⟩, Address.ofSec1 [0x03, 0x04], hrun, by rfl,
    by rfl, ?_⟩
  rw [SignedMessage.verifyOn_toText, hnumbers, hnone, ok_bind, MessageSignature.anyHasAddress]

end EllipticSignatures
