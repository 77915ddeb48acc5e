import SoapBinding.Base64.Basic
import SoapBinding.Base64.Chunks
import SoapBinding.Base64.Incremental
import SoapBinding.Binary
import SoapBinding.Codec.Decoding
import SoapBinding.Codec.Encoding
import SoapBinding.Codec.Matching
import SoapBinding.Context
import SoapBinding.DateTime.Basic
import SoapBinding.DateTime.Civil
import SoapBinding.DateTime.Text
import SoapBinding.Decimal
import SoapBinding.Descriptor.Basic
import SoapBinding.Descriptor.Description
import SoapBinding.Double.Basic
import SoapBinding.Double.Shortest
import SoapBinding.Double.Text
import SoapBinding.Error
import SoapBinding.Multipart.Chunk
import SoapBinding.Multipart.ContentType
import SoapBinding.Multipart.Envelope
import SoapBinding.Multipart.Framing
import SoapBinding.Multipart.Headers
import SoapBinding.Multipart.Part
import SoapBinding.Percent
import SoapBinding.Primitive.Basic
import SoapBinding.Primitive.Text
import SoapBinding.Proofs.Base64.Pieces
import SoapBinding.Proofs.Base64.RoundTrip
import SoapBinding.Proofs.Codec.Alone
import SoapBinding.Proofs.Codec.Beginning
import SoapBinding.Proofs.Codec.Cache
import SoapBinding.Proofs.Codec.Children
import SoapBinding.Proofs.Codec.Choices
import SoapBinding.Proofs.Codec.ContentModel
import SoapBinding.Proofs.Codec.Continuing
import SoapBinding.Proofs.Codec.Conveyable
import SoapBinding.Proofs.Codec.Conveyed
import SoapBinding.Proofs.Codec.Delivery
import SoapBinding.Proofs.Codec.Elements
import SoapBinding.Proofs.Codec.Embedded
import SoapBinding.Proofs.Codec.Emitted
import SoapBinding.Proofs.Codec.FieldNames
import SoapBinding.Proofs.Codec.Harmless
import SoapBinding.Proofs.Codec.Identity
import SoapBinding.Proofs.Codec.InPlace
import SoapBinding.Proofs.Codec.Inline
import SoapBinding.Proofs.Codec.Instants
import SoapBinding.Proofs.Codec.Items
import SoapBinding.Proofs.Codec.Leafwise
import SoapBinding.Proofs.Codec.Leaves
import SoapBinding.Proofs.Codec.Locality
import SoapBinding.Proofs.Codec.NameTable
import SoapBinding.Proofs.Codec.NilMarks
import SoapBinding.Proofs.Codec.Numerals
import SoapBinding.Proofs.Codec.Payloads
import SoapBinding.Proofs.Codec.Placement
import SoapBinding.Proofs.Codec.PlainValues
import SoapBinding.Proofs.Codec.Progress
import SoapBinding.Proofs.Codec.Properties
import SoapBinding.Proofs.Codec.Referenced
import SoapBinding.Proofs.Codec.References
import SoapBinding.Proofs.Codec.Resent
import SoapBinding.Proofs.Codec.RoundTrip
import SoapBinding.Proofs.Codec.Rows
import SoapBinding.Proofs.Codec.Selection
import SoapBinding.Proofs.Codec.Singles
import SoapBinding.Proofs.Codec.Soundness
import SoapBinding.Proofs.Codec.Steps
import SoapBinding.Proofs.Codec.Termination
import SoapBinding.Proofs.Codec.Typing
import SoapBinding.Proofs.Codec.Writable
import SoapBinding.Proofs.Context
import SoapBinding.Proofs.DateTime.Civil
import SoapBinding.Proofs.DateTime.Text
import SoapBinding.Proofs.Decimal
import SoapBinding.Proofs.Descriptor
import SoapBinding.Proofs.Double.Nearest
import SoapBinding.Proofs.Double.Shortest
import SoapBinding.Proofs.Double.Text
import SoapBinding.Proofs.Exchange
import SoapBinding.Proofs.Fields
import SoapBinding.Proofs.Inheritance
import SoapBinding.Proofs.Multipart.Capacity
import SoapBinding.Proofs.Multipart.Content
import SoapBinding.Proofs.Multipart.ContentType
import SoapBinding.Proofs.Multipart.Delimiters
import SoapBinding.Proofs.Multipart.Folding
import SoapBinding.Proofs.Multipart.Ids
import SoapBinding.Proofs.Multipart.Lines
import SoapBinding.Proofs.Multipart.Lossless
import SoapBinding.Proofs.Multipart.Parameters
import SoapBinding.Proofs.Multipart.Populate
import SoapBinding.Proofs.Multipart.Refinement
import SoapBinding.Proofs.Multipart.Unbuffered
import SoapBinding.Proofs.Multipart.Written
import SoapBinding.Proofs.Outcome
import SoapBinding.Proofs.Percent
import SoapBinding.Proofs.Percent.Scanning
import SoapBinding.Proofs.Primitive
import SoapBinding.Proofs.Registry
import SoapBinding.Proofs.Text.Case
import SoapBinding.Proofs.Text.Integer
import SoapBinding.Proofs.Text.Numeral
import SoapBinding.Proofs.Text.Spacing
import SoapBinding.Proofs.Text.Trim
import SoapBinding.Proofs.Text.Utf8
import SoapBinding.Proofs.Xml.Calls
import SoapBinding.Proofs.Xml.Captured
import SoapBinding.Proofs.Xml.Element
import SoapBinding.Proofs.Xml.Embedded
import SoapBinding.Proofs.Xml.Entity
import SoapBinding.Proofs.Xml.Facing
import SoapBinding.Proofs.Xml.Forest
import SoapBinding.Proofs.Xml.Marking
import SoapBinding.Proofs.Xml.Marks
import SoapBinding.Proofs.Xml.Passing
import SoapBinding.Proofs.Xml.Shown
import SoapBinding.Proofs.Xml.Standing
import SoapBinding.Proofs.Xml.Tag
import SoapBinding.Proofs.Xml.Tokens
import SoapBinding.Proofs.Xml.TypeMarks
import SoapBinding.Proofs.Xml.Written
import SoapBinding.Registry
import SoapBinding.Schema.Basic
import SoapBinding.Settings.Basic
import SoapBinding.Settings.Text
import SoapBinding.Source
import SoapBinding.Text.Blank
import SoapBinding.Text.Concealed
import SoapBinding.Text.Integer
import SoapBinding.Text.Quoted
import SoapBinding.Text.Record
import SoapBinding.Text.Split
import SoapBinding.Text.Utf8
import SoapBinding.TypeName
import SoapBinding.Value
import SoapBinding.Xml.Cursor
import SoapBinding.Xml.Document
import SoapBinding.Xml.Element
import SoapBinding.Xml.Entity
import SoapBinding.Xml.RawAttribute
import SoapBinding.Xml.Scope
import SoapBinding.Xml.Sink
import SoapBinding.Xml.Token
import SoapBinding.Yaml.Basic
import SoapBinding.Yaml.Document
import SoapBinding.Yaml.Line
import SoapBinding.Yaml.Scalar
import SoapBinding.Yaml.Token
