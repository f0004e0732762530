import Mathlib.Data.Finset.Basic
import VersionedEnvelope.Exec

/-!
# Field names and errors

The names of the two fields of an envelope, and the error types of the readers.  `E` is
`serde_json::Error`; what users supply is `DynError`.

* `UnsupportedVersion.kind` — where a version stands that is not listed.
* `ReadError.map` — an error with its `serde_json` errors replaced; with `fun _ => ()` this is
  the error up to what `serde_json` says.
-/

set_option autoImplicit false

namespace VersionedEnvelope

def VERSION_FIELD : String := "version"

def VERSIONED_DATA_FIELD : String := "versioned_data"

/-- `Box<dyn Error + Send + Sync>`: what it displays, and its source. -/
inductive DynError where
  | mk (message : String) (source : Option DynError)

/-- Which envelope field or fields an error is about. -/
inductive EnvelopeFieldSet where
  | version
  | data
  | versionAndData
  deriving DecidableEq, Repr

/-- The JSON kind of a root that is not an object. -/
inductive NonObjectKind where
  | null
  | bool
  | number
  | string
  | array
  deriving DecidableEq, Repr

inductive NotAnEnvelopeReason where
  | nonObjectRoot (kind : NonObjectKind)
  | missing (fields : EnvelopeFieldSet)
  deriving DecidableEq, Repr

inductive EnvelopeError (E : Type) where
  | json (source : E)
  | notAnEnvelope (reason : NotAnEnvelopeReason)
  | duplicateFields (fields : EnvelopeFieldSet)
  | unknownFields (names : Finset String)
  | version (source : E)

structure UnsupportedVersion where
  found : UInt32
  supported : List UInt32
  deriving DecidableEq

/-- The relative position of an unsupported version. -/
inductive UnsupportedVersionKind where
  | newer (latest : UInt32)
  | older (oldest : UInt32)
  | gap
  deriving DecidableEq, Repr

/-- `UnsupportedVersion::kind`, which looks at the two ends of the list. -/
def UnsupportedVersion.kind (u : UnsupportedVersion) : Exec Empty UnsupportedVersionKind := do
  let expected := "the supported versions are non-empty, which " ++
    "assert_version_set_well_formed established"
  let oldest ← Exec.expect u.supported.head? expected
  let latest ← Exec.expect u.supported.getLast? expected
  if u.found > latest then pure (.newer latest)
  else if u.found < oldest then pure (.older oldest)
  else pure .gap

structure ConversionFailed where
  original : UInt32
  fromVersion : UInt32
  toVersion : UInt32
  source : DynError

inductive ReadError (E : Type) where
  | envelope (e : EnvelopeError E)
  | unsupportedVersion (e : UnsupportedVersion)
  | data (version : UInt32) (source : E)
  | conversion (e : ConversionFailed)

structure VersionAttempt (E : Type) where
  version : UInt32
  error : E

structure NoMatchingVersion (E : Type) where
  attempts : List (VersionAttempt E)

inductive UntaggedError (E : Type) where
  | json (source : E)
  | noMatchingVersion (e : NoMatchingVersion E)
  | conversion (e : ConversionFailed)

inductive ReadOrFallbackError (E : Type) where
  | read (e : ReadError E)
  | fallback (notAnEnvelope : NotAnEnvelopeReason) (source : DynError)

inductive ReadOrUntaggedError (E : Type) where
  | read (e : ReadError E)
  | untagged (notAnEnvelope : NotAnEnvelopeReason) (source : UntaggedError E)

variable {E F : Type}

def EnvelopeError.map (f : E → F) : EnvelopeError E → EnvelopeError F
  | .json source => .json (f source)
  | .notAnEnvelope reason => .notAnEnvelope reason
  | .duplicateFields fields => .duplicateFields fields
  | .unknownFields names => .unknownFields names
  | .version source => .version (f source)

def ReadError.map (f : E → F) : ReadError E → ReadError F
  | .envelope e => .envelope (e.map f)
  | .unsupportedVersion e => .unsupportedVersion e
  | .data version source => .data version (f source)
  | .conversion e => .conversion e

end VersionedEnvelope
