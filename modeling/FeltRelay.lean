import FeltRelay.Text.Blank
import FeltRelay.Text.Case
import FeltRelay.Text.Printable
import FeltRelay.Text.Numeral
import FeltRelay.Json.Reader
import FeltRelay.Json.Writer
import FeltRelay.Text.Quoted
import FeltRelay.Text.Utf8
import FeltRelay.Text.Hex
import FeltRelay.Decimal.Layout
import FeltRelay.Failure
import FeltRelay.Schema.Naming
import FeltRelay.Schema.Layout
import FeltRelay.Schema.Containment
import FeltRelay.Schema.Definitions
import FeltRelay.Schema.Lock.Reader
import FeltRelay.Cairo.Declarations
import FeltRelay.Codec.Flat.Decode
import FeltRelay.Codec.Unchecked
import FeltRelay.Codec.Event.Decode
import FeltRelay.Server.Table
import FeltRelay.Text.Template
import FeltRelay.Journal
import FeltRelay.Main
import FeltRelay.Process.Rehearsal
import FeltRelay.Failure.Described
import FeltRelay.Proofs.Codec.Flat.Canonical
import FeltRelay.Proofs.Codec.Agreement
import FeltRelay.Proofs.Schema.Lock.RoundTrip
import FeltRelay.Proofs.Codec.Flat.Field
import FeltRelay.Proofs.Dispatch.Ask
import FeltRelay.Proofs.Dispatch.Drift
import FeltRelay.Proofs.Schema.Lock.Ambiguous
import FeltRelay.Proofs.Codec.Flat.Layout
import FeltRelay.Proofs.Cairo.Serialised
import FeltRelay.Proofs.Codec.Delimited
import FeltRelay.Proofs.Codec.Failures
import FeltRelay.Proofs.Codec.Event.Canonical
import FeltRelay.Proofs.Schema.Routes
import FeltRelay.Proofs.Dispatch.Endpoints
import FeltRelay.Proofs.Schema.Complete
import FeltRelay.Proofs.Schema.Package
import FeltRelay.Proofs.Schema.ServiceNames
import FeltRelay.Proofs.Cairo.Scope
import FeltRelay.Proofs.Schema.Places
import FeltRelay.Proofs.Schema.Definitions.Parsed
import FeltRelay.Proofs.Codec.Termination
import FeltRelay.Proofs.Codec.Flat.Smallest
import FeltRelay.Proofs.Codec.Event.Offset
import FeltRelay.Proofs.Polling
import FeltRelay.Proofs.Loading
import FeltRelay.Proofs.Server.Address
import FeltRelay.Proofs.Dispatch.ExpectedHash
import FeltRelay.Proofs.Schema.Selector
import FeltRelay.Proofs.Schema.Variants
import FeltRelay.Proofs.Codec.Scalar
import FeltRelay.Proofs.Failure
