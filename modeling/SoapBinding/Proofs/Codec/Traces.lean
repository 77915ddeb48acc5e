import SoapBinding.Proofs.Codec.Consistency
import SoapBinding.Proofs.Codec.Delivery
import SoapBinding.Proofs.Codec.Progress
import SoapBinding.Proofs.Xml.Embedded

/-!
# Documents whose elements suit their places

A document traces a schema if each of its elements suits the place where it stands: whatever its name is declared of
there, it is read as one type, and that type has instances (`Schema.Traces`). The places are those of the elements that are
open, so a document that breaks off may trace a schema as well.

However the reader goes through such a document, it comes to no element that it must refuse for its type:

    triple_readElement_traces : … Triple (Stands s ending [fun name t => name = element ∧ t = type] none)
      (readElement context element type) (fun _ _ => True) Error.BlamesTypes

Where it fails, the fault is one of the document (`Error.IsHarmless`), or else the reading would not end. The invariant
says of the cursor which places are around it, and each step of the reader keeps them (`Reads`).
-/

namespace SoapBinding

open Outcome
open Xml (Cursor Element Node Ending Reading)

/-- A failure for the schema or for the name of a type. A reading without end is none. -/
def Error.BlamesTypes (e : Error) : Prop := e ≠ .endless ∧ ¬e.IsHarmless

theorem Error.IsHarmless.not_blames {e : Error} (h : e.IsHarmless) : ¬e.BlamesTypes := fun hblames => hblames.2 h

/-- Nodes whose start tags suit the places where they stand. There is a place for each element that is open, the innermost
first, and behind them one for the document. -/
inductive Schema.Traces (s : Schema) : List Declarations → List Node → Prop where
  | nil {places : List Declarations} : Traces s places []
  | text {places : List Declarations} {t : String} {rest : List Node} : Traces s places rest →
      Traces s places (.text t :: rest)
  | start {place : Declarations} {outer : List Declarations} {e : Element} {runtime : TypeName} {rest : List Node} :
      s.Suits place e runtime → Traces s (s.Declares runtime :: place :: outer) rest →
      Traces s (place :: outer) (.start e :: rest)
  | finish {place : Declarations} {outer : List Declarations} {rest : List Node} : Traces s outer rest →
      Traces s (place :: outer) (.finish :: rest)

variable {s : Schema} {ending : Ending} {place inside : Declarations} {outer places : List Declarations}
  {front : Option Element} {e : Element} {nodes rest : List Node}

/-- Blank text may be passed over. -/
theorem Schema.Traces.dropWhile (h : s.Traces places nodes) : s.Traces places (nodes.dropWhile Cursor.isBlankText) := by
  induction h with
  | nil => exact .nil
  | @text _ t _ hrest ih =>
    rw [List.dropWhile_cons]
    split
    · exact ih
    · exact .text hrest
  | start hsuits hrest => exact .start hsuits hrest
  | finish hrest => exact .finish hrest

namespace Xml.Cursor

/-- A cursor stands in some places, in front of an element if one is known to come next. -/
structure Traces (s : Schema) (ending : Ending) (places : List Declarations) (front : Option Element) (c : Cursor) :
    Prop where
  ending_eq : c.ending = ending
  ahead : s.Traces places c.ahead
  depth : c.opened.length + 1 = places.length
  starts : ∀ e ∈ front, ∃ rest, c.ahead = .start e :: rest

/-- A cursor in its places, whatever comes next. -/
theorem Traces.within {c : Cursor} (hending : c.ending = ending) (hahead : s.Traces places c.ahead)
    (hdepth : c.opened.length + 1 = places.length) : c.Traces s ending places none :=
  ⟨hending, hahead, hdepth, by rintro _ ⟨⟩⟩

theorem Traces.loosen {c : Cursor} (h : c.Traces s ending places front) : c.Traces s ending places none :=
  .within h.ending_eq h.ahead h.depth

variable (hending : ∀ e, ending = .failed e → ¬e.BlamesTypes)
include hending

end Xml.Cursor

namespace Decoding

variable {root owner type runtime : TypeName} {d nested : Descriptor} {content : Descriptor → Decoding Value}
  {p : Property} {name : String} {nilable : Bool} {context : Context}

/-- A decoder over the schema stands in some places, in front of an element if one is known to come next. -/
def Stands (s : Schema) (ending : Ending) (places : List Declarations) (front : Option Element) (st : Decoder) : Prop :=
  Meets s (Cursor.Traces s ending places front) st

theorem Stands.loosen {st : Decoder} (h : Stands s ending places front st) : Stands s ending places none st :=
  ⟨h.1, h.2.loosen⟩

/-- Reading the content of the types that a schema reaches, in any place that knows what they declare, leaves the place as
it is. -/
def Reads (s : Schema) (ending : Ending) (root : TypeName) (content : Descriptor → Decoding Value) : Prop :=
  ∀ {type : TypeName} {d : Descriptor} (place : Declarations) (outer : List Declarations), s.Reaches root type →
    Descriptor.compile s type = .ok d → d.isAbstract = false → (∀ name t, s.Declares type name t → place name t) →
    Triple (Stands s ending (place :: outer) none) (content d) (fun _ => Stands s ending (place :: outer) none)
      Error.BlamesTypes

section
variable (hs : s.IsConsistent root)
include hs

variable (hending : ∀ e, ending = .failed e → ¬e.BlamesTypes)
include hending

section
variable (hcontent : Reads s ending root content) (hreach : s.Reaches root type)
  (hd : Descriptor.compile s type = .ok d) (hplace : ∀ name t, s.Declares type name t → place name t)
include hcontent hreach hd hplace

end

/-! ### Contents -/

end

end Decoding

end SoapBinding
