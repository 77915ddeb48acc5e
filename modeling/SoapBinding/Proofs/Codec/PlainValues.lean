import SoapBinding.Proofs.Codec.Inline
import SoapBinding.Proofs.Codec.Instants

/-!
# Plain values in elements

A text type writes values of its own kind, and some write narrower numbers as well: a long an int, a decimal and an
integer both. What is read of the text is a value of the type's own kind again (`TextType.ReadsBack`): the same one, or
the same number. Writing and reading have a table each, and the two agree on which values belong to a type: those that are
read back are written (`ReadsBack.render`), and any other value is refused (`render?_eq_none`).

    readPrimitive_writePrimitive : … ReadsBack type v v' → reading the text that is written for v gives v'

Doubles and dateTimes, which not every text stands for, are left to modules of their own.
-/

namespace SoapBinding

open Outcome
open Xml (Sink Element Node Ending PendingTag elementText ShowsInside)

/-! ### Numbers -/

/-- The number that an integer value stands for. -/
def Value.integer? : Value → Option Int
  | .int i => some i.toInt
  | .long i => some i.toInt
  | _ => none

namespace Decimal

/-- The text of an integer is a decimal. -/
theorem isLexical_toString (i : Int) : isLexical (toString i).toList = true :=
  isLexical_iff.2 ⟨false, Text.isNumeral_toString i⟩

/-- The decimal of an integer. -/
def ofInt (i : Int) : Decimal := ⟨toString i, isLexical_toString i⟩

end Decimal

namespace TextType

variable {type : TextType} {v v' : Value} {text : String}

/-- A value that is written as a value of a text type is read as another: as itself if it is of the type's own kind, and
as the same number if it is a narrower integer. -/
inductive ReadsBack : TextType → Value → Value → Prop where
  | own {type : TextType} {v : Value} : type.holds v = true → ReadsBack type v v
  | widened {i : Int32} {l : Int64} : l.toInt = i.toInt → ReadsBack .long (.int i) (.long l)
  | spelled {type : TextType} {v : Value} {n : Int} : type = .decimal ∨ type = .integer → v.integer? = some n →
      ReadsBack type v (.decimal (.ofInt n))

/-! ### Texts -/

/-- A value that is written has a value that it is read back as. -/
theorem exists_readsBack (h : type.render? v = some text) : ∃ v', type.ReadsBack v v' := by
  unfold render? at h
  -- One case for each row of the table that values are written by.
  split at h
  · exact ⟨_, .own rfl⟩
  · exact ⟨_, .own rfl⟩
  · exact ⟨_, .own rfl⟩
  · next i => exact ⟨_, .widened i.toInt_toInt64⟩
  · exact ⟨_, .own rfl⟩
  · exact ⟨_, .own rfl⟩
  · exact ⟨_, .spelled (.inl rfl) rfl⟩
  · exact ⟨_, .spelled (.inl rfl) rfl⟩
  · next d =>
    split at h
    · next hinteger => exact ⟨_, .own hinteger⟩
    · cases h
  · exact ⟨_, .spelled (.inr rfl) rfl⟩
  · exact ⟨_, .spelled (.inr rfl) rfl⟩
  · exact ⟨_, .own rfl⟩
  · exact ⟨_, .own rfl⟩
  · cases h

/-- A value that is read back is written, a narrower integer by its digits. -/
theorem ReadsBack.render (h : type.ReadsBack v v') : ∃ text, type.render? v = some text := by
  cases h with
  | own hholds => exact render?_of_holds hholds
  | widened _ => exact ⟨_, rfl⟩
  | spelled htype hn =>
    rcases htype with rfl | rfl
    · cases v <;> cases hn <;> exact ⟨_, rfl⟩
    · cases v <;> cases hn <;> exact ⟨_, rfl⟩

/-- Where no value is read back, none is written. -/
theorem render?_eq_none (h : ∀ v', ¬type.ReadsBack v v') : type.render? v = none := by
  rw [Option.eq_none_iff_forall_ne_some]
  intro text hrender
  obtain ⟨v', hv⟩ := exists_readsBack hrender
  exact h v' hv

/-- Only a dateTime holds an instant. -/
theorem instants_of_holds (hinstant : type ≠ .dateTime) (h : type.holds v = true) : v.instants = [] := by
  cases type with
  | dateTime => exact absurd rfl hinstant
  | _ => cases v <;> first | rfl | cases h

/-- **What is read of the text of a value** is the value that it is read back as. -/
theorem ReadsBack.parse (hdouble : type ≠ .double) (hinstant : type ≠ .dateTime) (h : type.ReadsBack v v')
    (hrender : type.render? v = some text) : type.parse text = .ok v' := by
  cases h with
  | own hholds =>
    have hinstants : v.HasWritableInstants := by
      intro t ht
      rw [instants_of_holds hinstant hholds] at ht
      cases ht
    obtain ⟨v'', hparse, hconveyed⟩ := @parse_render? .none false type v text hholds hinstants hrender
    cases hconveyed with
    | same => exact hparse
    | nan => cases type <;> first | exact absurd rfl hdouble | cases hholds
    | _ => cases type <;> cases hholds
  | @widened i l hl =>
    obtain rfl : toString i.toInt = text := Option.some.inj hrender
    rw [← hl]
    refine parse_long_iff.2 ?_
    rw [Text.trim_toString]
    exact ⟨Text.isNumeral_toString _, l, Text.number_toString _, rfl⟩
  | @spelled _ _ n htype hn =>
    have htext : text = (Decimal.ofInt n).text := by
      rcases htype with rfl | rfl
      · cases v <;> cases hn <;> exact (Option.some.inj hrender).symm
      · cases v <;> cases hn <;> exact (Option.some.inj hrender).symm
    have hread : ∃ d : Decimal, d.text = Text.trim text ∧ Value.decimal (.ofInt n) = .decimal d :=
      ⟨.ofInt n, by rw [htext, Decimal.trim_text], rfl⟩
    rcases htype with rfl | rfl
    · exact parse_decimal_iff.2 hread
    · refine parse_integer_iff.2 ⟨?_, hread⟩
      rw [htext, Decimal.trim_text]
      exact Text.isNumeral_toString n

end TextType

/-! ### Elements -/

variable {type : TextType} {v v' : Value} {text : String} {files : Files}

/-- A value that has a text is written as the text, and nothing else changes. -/
theorem Encoding.writePrimitive_of_render (hrender : type.render? v = some text) (registry : Registry) (context : Context)
    {sink : Sink} (hlimit : sink.limit = none) : writePrimitive files (.text type) v ⟨registry, context, sink⟩ =
      .ok () ⟨registry, context, sink.wrote [] (some (Xml.escape text))⟩ := by
  obtain ⟨sink', hok⟩ := Sink.text_ok hlimit text
  rw [writePrimitive, hrender]
  dsimp only
  rw [onSink_of_ok hok, Sink.text_eq hok]

/-- The element of a value that has a text, in a new document. -/
theorem Encoding.writeAround_of_render (hrender : type.render? v = some text) (registry : Registry) (context : Context)
    (tag : PendingTag) : ∃ e', writeAround tag (writePrimitive files (.text type) v) ⟨registry, context, .empty none⟩ =
      .ok () e' ∧ e'.context = context ∧ e'.sink.finish = .ok (elementText tag (some (Xml.escape text))) := by
  have hstands : (Sink.empty none).Stands [] := ⟨rfl, rfl⟩
  have hwritten := @writePrimitive_of_render type v text files hrender registry context
    (((Sink.empty none).started tag.name).wrote tag.attributes none) ((hstands.started tag.name).wrote _ _).limit
  rw [Sink.wrote_attributes] at hwritten
  refine ⟨_, writeAround_of_ok hstands hwritten, rfl, ?_⟩
  show Except.ok ("" ++ "" ++ elementText (tag.adding []) _) = _
  rw [String.empty_append, String.empty_append, Sink.adding_nil]

/-- **Whatever a text type writes it reads back**, in an element of any plain tag and at any place: booleans, strings with all
their characters, decimals with their texts, and numbers as the same numbers of the type's own kind. A value that is not
read back is of another kind, or a decimal with a point where an integer is expected, and is refused. -/
theorem readPrimitive_writePrimitive (hdouble : type ≠ .double) (hinstant : type ≠ .dateTime) (files : Files) (v : Value) :
    (∀ v', type.ReadsBack v v' → ∃ text, type.render? v = some text ∧
      (∀ registry context (sink : Sink), sink.limit = none →
        Encoding.writePrimitive files (.text type) v ⟨registry, context, sink⟩ =
          .ok () ⟨registry, context, sink.wrote [] (some (Xml.escape text))⟩) ∧
      ShowsInside (Xml.escape text) (Encoding.textNodes text) ∧
      (∀ context registry nonces (tail : List Node) (ending : Ending) (opened : List Element),
        Decoding.readPrimitive context (.text type)
            ⟨registry, ⟨Encoding.textNodes text ++ .finish :: tail, ending, opened⟩, nonces⟩ =
          .ok v' ⟨registry, ⟨.finish :: tail, ending, opened⟩, nonces⟩) ∧
      ∀ tag : PendingTag, tag.IsPlain → ∀ registry context, ∃ e' document,
        Encoding.writeAround tag (Encoding.writePrimitive files (.text type) v) ⟨registry, context, .empty none⟩ = .ok () e' ∧
        e'.context = context ∧ e'.sink.finish = .ok document ∧ document = elementText tag (some (Xml.escape text)) ∧
        ∀ reader registry' nonces, Decoding.readAround (Decoding.readPrimitive reader (.text type))
            ⟨registry', .ofSource (.ofBytes (Utf8.ofString document)), nonces⟩ =
          .ok v' ⟨registry', ⟨[], .complete, []⟩, nonces⟩) ∧
    ((∀ v', ¬type.ReadsBack v v') → ∀ e, ∃ fault, fault.kind = .validation ∧
      fault = .value (.notPrimitive v.kind type.name) ∧
      Encoding.writePrimitive files (.text type) v e = .error fault e) := by
  constructor
  · intro v' hv
    obtain ⟨text, hrender⟩ := hv.render
    have hparse := hv.parse hdouble hinstant hrender
    have hshows := Xml.showsInside_text text
    have hread (context : Context) (registry : Registry) (nonces : Nonces) (tail : List Node) (ending : Ending)
        (opened : List Element) : Decoding.readPrimitive context (.text type)
          ⟨registry, ⟨Encoding.textNodes text ++ .finish :: tail, ending, opened⟩, nonces⟩ =
        .ok v' ⟨registry, ⟨.finish :: tail, ending, opened⟩, nonces⟩ := by
      rw [Decoding.readPrimitive]
      exact (Decoding.readTextType_textNodes_iff registry nonces tail ending opened).2 hparse
    refine ⟨text, hrender, fun registry context sink => Encoding.writePrimitive_of_render hrender registry context, hshows,
      hread, fun tag htag registry context => ?_⟩
    obtain ⟨e', hwritten, hcontext, hfinish⟩ := @Encoding.writeAround_of_render type v text files hrender registry context tag
    exact ⟨e', _, hwritten, hcontext, hfinish, rfl, fun reader registry' nonces =>
      Decoding.readAround_ok htag hshows (hread reader registry' nonces [] .complete [tag.element])⟩
  · intro hnone e
    refine ⟨_, rfl, rfl, ?_⟩
    rw [Encoding.writePrimitive, TextType.render?_eq_none hnone]
    rfl

/-- The lowest long as an integer, a string of markup and white space, and a number with a point that is no integer. -/
theorem readPrimitive_writePrimitive_markup :
    (∃ e', Encoding.writeAround ⟨"n", [("lang", "en")]⟩ (Encoding.writePrimitive .none (.text .integer) (.long Int64.minValue))
        ⟨.ofSchema .empty, .inline, .empty none⟩ = .ok () e' ∧
      e'.sink.finish = .ok "<n lang=\"en\">-9223372036854775808</n>") ∧
    Decoding.readAround (Decoding.readPrimitive .inline (.text .string)) ⟨.ofSchema .empty,
        .ofSource (.ofBytes (Utf8.ofString "<s> &lt;b&gt;\r\n&amp;amp; </s>")), .fresh⟩ =
      .ok (.string " <b>\r\n&amp; ") ⟨.ofSchema .empty, ⟨[], .complete, []⟩, .fresh⟩ ∧
    ∀ e, Encoding.writePrimitive .none (.text .integer) (.decimal ⟨"1.0", by decide +kernel⟩) e =
      .error (.value (.notPrimitive .decimal "integer")) e := by
  obtain ⟨hinteger, -⟩ := @readPrimitive_writePrimitive .integer (by decide) (by decide) .none (.long Int64.minValue)
  obtain ⟨hstring, -⟩ := @readPrimitive_writePrimitive .string (by decide) (by decide) .none (.string " <b>\r\n&amp; ")
  obtain ⟨-, hpoint⟩ :=
    @readPrimitive_writePrimitive .integer (by decide) (by decide) .none (.decimal ⟨"1.0", by decide +kernel⟩)
  refine ⟨?_, ?_, fun e => ?_⟩
  · obtain ⟨text, hrender, -, -, -, hdocument⟩ := hinteger _ (.spelled (.inr rfl) rfl)
    obtain rfl : toString Int64.minValue.toInt = text := Option.some.inj hrender
    obtain ⟨e', document, hwritten, -, hfinish, rfl, -⟩ :=
      hdocument ⟨"n", [("lang", "en")]⟩ (by decide +kernel) (.ofSchema .empty) .inline
    exact ⟨e', hwritten, hfinish.trans (by decide +kernel)⟩
  · obtain ⟨text, hrender, -, -, -, hdocument⟩ := hstring _ (.own rfl)
    obtain rfl : " <b>\r\n&amp; " = text := Option.some.inj hrender
    obtain ⟨e', document, -, -, -, hdocument, hread⟩ :=
      hdocument ⟨"s", []⟩ (by decide +kernel) (.ofSchema .empty) .inline
    have htext : document = "<s> &lt;b&gt;\r\n&amp;amp; </s>" := hdocument.trans (by decide +kernel)
    rw [← htext]
    exact hread .inline (.ofSchema .empty) .fresh
  · obtain ⟨fault, -, rfl, hrefused⟩ := hpoint (by
      intro v' hv
      cases hv with
      | own hholds => exact absurd hholds (by decide +kernel)
      | spelled _ hn => cases hn) e
    exact hrefused

end SoapBinding
