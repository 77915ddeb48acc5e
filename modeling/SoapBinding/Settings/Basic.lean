import SoapBinding.Context
import SoapBinding.Multipart.Part

/-!
# Settings

The settings of an application: how payloads are encoded, and how much of a body in parts is read at
a time. Settings are usable when whole base64 quanta are encoded at a time and both limits are
positive.
-/

namespace SoapBinding

/-- How payloads are written. -/
structure PayloadSettings where
  /-- How many bytes of an inline payload are encoded at a time. -/
  chunkSize : Nat
  /-- How messages refer to attachments. -/
  reference : Reference
  deriving Repr, DecidableEq

/-- The settings of an application. -/
structure Settings where
  /-- The version of the settings. -/
  version : String
  /-- How payloads are written. -/
  payload : PayloadSettings
  /-- How bodies in parts are read. -/
  limits : Multipart.Limits
  deriving Repr, DecidableEq

namespace Settings

/-- What holds unless a setting tells otherwise. -/
def usual : Settings := ⟨"1", ⟨Context.defaultChunkSize, .xopInclude⟩, .usual⟩

/-- Checks that the settings can be used. -/
def check (s : Settings) : Except SettingsFault Unit :=
  if s.payload.chunkSize = 0 ∨ s.payload.chunkSize % 3 ≠ 0 then
    .error (.chunkSize s.payload.chunkSize)
  else if s.limits.lineBuffer = 0 then .error .lineBuffer
  else if s.limits.maxParts = 0 then .error .maxParts
  else .ok ()

/-- The settings as they are, if they can be used. -/
def checked (s : Settings) : Except Error Settings :=
  match s.check with
  | .ok () => .ok s
  | .error fault => .error (.settings fault)

/-- A context with these settings. -/
def context (s : Settings) : Context := .ofSettings s.payload.reference s.payload.chunkSize

theorem check_usual : usual.check = .ok () := by
  simp [check, usual, Context.defaultChunkSize, Multipart.Limits.usual]

end Settings
end SoapBinding
