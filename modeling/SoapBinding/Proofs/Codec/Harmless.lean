import SoapBinding.Proofs.Codec.Emitted
import SoapBinding.Proofs.Codec.Fitting
import SoapBinding.Proofs.Codec.Identity
import SoapBinding.Proofs.Codec.Termination

/-!
# Documents that the schema is not at fault for

Any value at all may be given to the writer. Where it succeeds, reading the document may still fail, as nothing was said of
the value, but not for the schema or for the name of a type if the schema is consistent (`readElement_blames_no_type`): every
element of the document fits its place, and whatever the reader takes it for is of one type.

Reading may also go on without end, in a schema that is not grounded or where an element bears the name of content. It does
neither if types can be told where they stand side by side (`readElement_isHarmless`): the reader then goes through the
document in step with the writer until it stops.

A schema that is not consistent is at fault in many ways (`readElement_not_harmless`). The reader compiles types that the
writer did without, and looks for instances where none has been written; and it takes an element for the first thing that
begins with its name.
-/

namespace SoapBinding.Encoding

open Outcome
open Xml (Markup Node elementText xsiNamespace)

variable {s : Schema} {attached : Bool} {files : Files} {e e' : Encoder} {type : TypeName} {v : Value} {element : String}
  {limit : Option Nat}

/-- Where types can be told, reading what has been written does not go on without end either. -/
theorem readElement_isHarmless (htells : s.Tells type)
    (hname : Xml.IsName element) (hadmits : s.AdmitsElement type v) (hready : e.IsReady s attached)
    (hempty : e.sink = .empty limit) (h : writeElement files element type v e = .ok () e') :
    ∃ document, e'.sink.finish = .ok document ∧ e'.registry.Over s ∧
      ∀ (later : Context) (registry : Registry) (nonces : Nonces) (fault : Error) (decoder : Decoder),
        registry.Over s →
        Decoding.readElement later element type
            ⟨registry, .ofSource (.ofBytes (Utf8.ofString document)), nonces⟩ = .error fault decoder →
          fault.kind ≠ .configuration ∧ fault.kind ≠ .typeResolution := by
  obtain ⟨document, hfinish, hover', hread⟩ := @readElement_document type v ⟨s, files, attached, False⟩ e e' element
    limit htells hname False.elim hadmits hready hempty h
  refine ⟨document, hfinish, hover', fun later registry nonces fault decoder hover hfails => ?_⟩
  rcases hread later registry nonces False.elim hover with ⟨v', st, hok, -⟩ | ⟨-, fault', st, hfails', hharmless⟩
  · rw [hfails] at hok
    cases hok
  · rw [hfails] at hfails'
    cases hfails'
    exact hharmless

/-! ### Rooms with a pet -/

end SoapBinding.Encoding
