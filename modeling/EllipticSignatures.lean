import EllipticSignatures.Encoding.Signature
import EllipticSignatures.Key.ImportFormat
import EllipticSignatures.Proofs.Encoding.Der
import EllipticSignatures.Proofs.Encoding.StoredValues
import EllipticSignatures.Proofs.Field.AnyModulus
import EllipticSignatures.Proofs.Field.Arithmetic
import EllipticSignatures.Proofs.Field.EndlessSearch
import EllipticSignatures.Proofs.Field.LegendreSymbol
import EllipticSignatures.Proofs.Key.ImportFormat
import EllipticSignatures.Proofs.Key.SharedPoint
import EllipticSignatures.Proofs.Key.StoredKeys
import EllipticSignatures.Proofs.Key.Verifying
import EllipticSignatures.Proofs.Point.AnyModulus
import EllipticSignatures.Proofs.Point.CanonicalEncoding
import EllipticSignatures.Proofs.Point.CurveCheck
import EllipticSignatures.Proofs.Point.JointMultiplication
import EllipticSignatures.Proofs.Point.RepeatedAddition
import EllipticSignatures.Proofs.Point.SamePoint
import EllipticSignatures.Proofs.Point.Simulation
import EllipticSignatures.Proofs.Point.SumOfMultiples
import EllipticSignatures.Proofs.Random.Sampling
import EllipticSignatures.Proofs.Signature.AddressVerification
import EllipticSignatures.Proofs.Signature.DeterministicEcdsa
import EllipticSignatures.Proofs.Signature.NormalForm
import EllipticSignatures.Proofs.Signature.Preimage
import EllipticSignatures.Proofs.Signature.RecoveryNumber
import EllipticSignatures.Proofs.Signature.SchnorrSigning
import EllipticSignatures.Proofs.Signature.Termination
import EllipticSignatures.Proofs.Signature.Totality
import EllipticSignatures.Proofs.Signature.UniqueResponse
import EllipticSignatures.Proofs.Signature.WireForm
import EllipticSignatures.Proofs.Text.Base58Check
