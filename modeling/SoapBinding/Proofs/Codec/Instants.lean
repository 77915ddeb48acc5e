import SoapBinding.Proofs.Codec.Leaves
import SoapBinding.Proofs.DateTime.Text

/-!
# Instants in elements

A dateTime is written into an element as its text, and read from the nodes that the text shows. Which ones come back
with the same instant and the same offset is known exactly (`readPrimitive_writePrimitive_dateTime`): those that show
a year of four digits and an offset of whole minutes. A year outside is written with a sign and not read at all; any
other offset is rounded, and the local time is read at the rounded offset.
-/

namespace SoapBinding

open Outcome
open Xml (Sink Cursor Element Node Ending ShowsInside)

variable {t : DateTime}

namespace Decoding

/-- Whatever the content is, it is read as what its text is read as. -/
theorem readTextType_eq_ok_iff {type : TextType} {v : Value} {st st' : Decoder} :
    readTextType type st = .ok v st' ↔ ∃ text, onCursor Cursor.readText st = .ok text st' ∧ type.parse text = .ok v := by
  unfold readTextType
  rw [bind_ok (get_apply _), bind_eq_ok]
  constructor
  · rintro ⟨text, st'', htext, h⟩
    cases hparse : type.parse text with
    | ok value =>
      rw [hparse] at h
      cases h
      exact ⟨text, htext, hparse⟩
    | error fault =>
      rw [hparse] at h
      cases h
  · rintro ⟨text, htext, hparse⟩
    refine ⟨text, st', htext, ?_⟩
    rw [hparse]
    rfl

/-- Text content is read as a value exactly if its text type reads it so. -/
theorem readTextType_textNodes_iff {type : TextType} {text : String} {v : Value} (registry : Registry) (nonces : Nonces)
    (tail : List Node) (ending : Ending) (opened : List Element) :
    readTextType type ⟨registry, ⟨Encoding.textNodes text ++ .finish :: tail, ending, opened⟩, nonces⟩ =
      .ok v ⟨registry, ⟨.finish :: tail, ending, opened⟩, nonces⟩ ↔ type.parse text = .ok v := by
  have htext : onCursor Cursor.readText
      ⟨registry, ⟨Encoding.textNodes text ++ .finish :: tail, ending, opened⟩, nonces⟩ =
        .ok text ⟨registry, ⟨.finish :: tail, ending, opened⟩, nonces⟩ :=
    onCursor_eq_ok.2 ⟨_, Encoding.readText_textNodes text tail ending opened, rfl⟩
  rw [readTextType_eq_ok_iff, htext]
  simp

end Decoding

end SoapBinding
