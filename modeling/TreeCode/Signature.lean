import TreeCode.DataType
import TreeCode.Method

/-!
# Signatures

Whoever calls a method has to name the types that are passed and returned, and they have to be the
declared ones.
-/

namespace TreeCode

/-- The types that a method takes and returns. -/
structure Signature where
  params : List DataType
  result : DataType
  deriving DecidableEq, Repr

/-- A signature in messages. -/
def Signature.render (s : Signature) : String :=
  "(" ++ ", ".intercalate (s.params.map DataType.name) ++ ") -> " ++ s.result.name

/-- The signature that a method declares. -/
def Method.signature (m : Method) : Signature := ⟨m.params, m.returnType⟩

/-- A call asks for another signature than the method declares. -/
structure SignatureMismatch where
  declared : Signature
  requested : Signature
  deriving DecidableEq, Repr

/-- The wording of the error. -/
def SignatureMismatch.message (e : SignatureMismatch) : String :=
  "signature mismatch: method is " ++ e.declared.render ++ ", requested " ++ e.requested.render

/-- Checks that a call asks for the declared signature. -/
def Method.checkSignature (m : Method) (requested : Signature) : Except SignatureMismatch Unit :=
  if requested = m.signature then .ok () else .error ⟨m.signature, requested⟩

end TreeCode
