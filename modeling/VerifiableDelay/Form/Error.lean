/-!
# What can be wrong with a form

The causes for which a form, its encoding, a discriminant or the search for
a prime is refused, and the wording of each.
-/

namespace VerifiableDelay

/-- Why two coefficients are those of no form. -/
inductive CoefficientFault where
  | leadingNotPositive
  | notDivisible
  deriving Repr, DecidableEq

/-- Why bytes are the encoding of no form, or of no chain of forms. -/
inductive EncodingFault where
  | leadingNotPositive
  | notInvertible
  | notSquare
  | factorSize
  | truncated
  | bufferSize
  | discriminantSize
  | doesNotFit
  | notCanonical
  | otherDiscriminant
  | notReduced
  | depth
  | length
  | compactLength
  deriving Repr, DecidableEq

/-- Why an integer is not taken as a discriminant. -/
inductive DiscriminantFault where
  | notNegative
  | residue
  | size
  deriving Repr, DecidableEq

/-- Why no prime can be looked for. -/
inductive PrimeFault where
  | length
  | emptySeed
  | forcedBit
  deriving Repr, DecidableEq

/-- Why an operation on forms gave no result. -/
inductive FormError where
  | coefficients (fault : CoefficientFault)
  | encoding (fault : EncodingFault)
  | discriminant (fault : DiscriminantFault)
  | primeParameters (fault : PrimeFault)
  /-- A field of the encoding is too narrow, at this size of discriminant. -/
  | overflow (bits : Nat)
  /-- No nonce of the seed's length leads to a prime. -/
  | noPrime
  /-- Only coefficients with a positive first, or two equal ones, have a
  compressed representation. -/
  | notCompressible
  deriving Repr, DecidableEq

/-- The wording of a cause. -/
def CoefficientFault.message : CoefficientFault → String
  | .leadingNotPositive => "a must be positive"
  | .notDivisible => "b^2 - D is not divisible by 4a"

/-- The wording of a cause. -/
def EncodingFault.message : EncodingFault → String
  | .leadingNotPositive => "a must be positive"
  | .notInvertible => "t is not invertible mod a"
  | .notSquare => "D * t^2 is not a square mod a"
  | .factorSize => "g_size out of range"
  | .truncated => "truncated field"
  | .bufferSize => "wrong buffer size"
  | .discriminantSize => "discriminant too large"
  | .doesNotFit => "decoded form does not fit"
  | .notCanonical => "non-canonical encoding"
  | .otherDiscriminant => "not a form of this discriminant"
  | .notReduced => "form is not reduced"
  | .depth => "proof depth above 63"
  | .length => "proof length does not match its depth"
  | .compactLength => "compact proof length does not match its depth"

/-- The wording of a cause. -/
def DiscriminantFault.message : DiscriminantFault → String
  | .notNegative => "must be negative"
  | .residue => "must be 1 mod 8"
  | .size => "the size must be a positive multiple of 256 bits"

/-- The wording of a cause. -/
def PrimeFault.message : PrimeFault → String
  | .length => "the length must be a positive multiple of 8"
  | .emptySeed => "the seed must not be empty"
  | .forcedBit => "a forced bit lies outside of the requested length"

/-- The wording of an error. -/
def FormError.message : FormError → String
  | .coefficients fault => "invalid form: " ++ fault.message
  | .encoding fault => "malformed form encoding: " ++ fault.message
  | .discriminant fault => "invalid discriminant: " ++ fault.message
  | .primeParameters fault => "invalid hash-to-prime parameters: " ++ fault.message
  | .overflow bits =>
    "the form does not fit the encoding of a " ++ toString bits ++ "-bit discriminant"
  | .noPrime => "no nonce of the seed's length leads to a prime"
  | .notCompressible => "only a form with a positive leading coefficient is compressed"

end VerifiableDelay
