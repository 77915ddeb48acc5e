/-!
# Type names

A type is known by a namespace URI and a local name; an empty namespace means that it lies in none.
Names are ordered by namespace first, each part by its code points.
-/

namespace SoapBinding

/-- The namespace of the built-in types. -/
def xsdNamespace : String := "http://www.w3.org/2001/XMLSchema"

/-- The name of a type. -/
structure TypeName where
  /-- The namespace URI, empty for none. -/
  space : String
  /-- The local name. -/
  localName : String
  deriving Repr, DecidableEq, Inhabited

namespace TypeName

/-- A built-in type. -/
def xsd (localName : String) : TypeName := ⟨xsdNamespace, localName⟩

/-- Whether the name lies in the namespace of the built-in types. -/
def isXsd (n : TypeName) : Bool := n.space == xsdNamespace

/-- The name with its namespace between braces, or alone where it has none. -/
def display (n : TypeName) : String :=
  if n.space.isEmpty then n.localName else "\x7b" ++ n.space ++ "\x7d" ++ n.localName

/-- The order by namespace, then by local name. -/
def compare (a b : TypeName) : Ordering :=
  (Ord.compare a.space b.space).then (Ord.compare a.localName b.localName)

instance : Ord TypeName := ⟨compare⟩

/-- The names in ascending order, each of them once. -/
def sorted (names : List TypeName) : List TypeName :=
  (names.mergeSort fun a b => (compare a b).isLE).eraseReps

end TypeName
end SoapBinding
