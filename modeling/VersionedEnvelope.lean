import VersionedEnvelope.Exec
import VersionedEnvelope.Ascending
import VersionedEnvelope.Ladder
import VersionedEnvelope.Grouping
import VersionedEnvelope.DigitRuns
import VersionedEnvelope.Unambiguous
import VersionedEnvelope.Layering
import VersionedEnvelope.Json.Lexer
import VersionedEnvelope.Json.Reader
import VersionedEnvelope.Json.Decimal
import VersionedEnvelope.Json.Schema
import VersionedEnvelope.Json.Prefix
import VersionedEnvelope.SerdeJson
import VersionedEnvelope.Errors
import VersionedEnvelope.Display
import VersionedEnvelope.ErrorChain
import VersionedEnvelope.Messages
import VersionedEnvelope.VersionSet
import VersionedEnvelope.Upgrade
import VersionedEnvelope.Validate
import VersionedEnvelope.Document
import VersionedEnvelope.Read
import VersionedEnvelope.Write
import VersionedEnvelope.Declaration
import VersionedEnvelope.Verdict
import VersionedEnvelope.Passes
import VersionedEnvelope.ModelRead
import VersionedEnvelope.Provenance
import VersionedEnvelope.Unsupported
import VersionedEnvelope.MemberOrder
import VersionedEnvelope.RoundTrip
import VersionedEnvelope.Untagged
import VersionedEnvelope.Part
import VersionedEnvelope.DropOldest
import VersionedEnvelope.FixedVersion
import VersionedEnvelope.Evolution
import VersionedEnvelope.Releases
import VersionedEnvelope.Legacy
import VersionedEnvelope.Adoption
import VersionedEnvelope.SideBySide
import VersionedEnvelope.Torn
import VersionedEnvelope.Shortcut
import VersionedEnvelope.Blame
import VersionedEnvelope.Munch
import VersionedEnvelope.Schema
import VersionedEnvelope.SchemaPayload
