import CodeTrail.Main
import CodeTrail.Proofs.Program.Ending
import CodeTrail.Proofs.Program.Composition
import CodeTrail.Proofs.Program.Immediates
import CodeTrail.Proofs.Code.Fingerprint
import CodeTrail.Proofs.Code.Session
import CodeTrail.Proofs.Expression.Extension
import CodeTrail.Proofs.Expression.Operands
import CodeTrail.Proofs.Hex.WordReaders
import CodeTrail.Proofs.Listing.Changes
import CodeTrail.Proofs.Listing.Deployment
import CodeTrail.Proofs.Listing.Labels
import CodeTrail.Proofs.Listing.Landings
import CodeTrail.Proofs.Listing.Segments
import CodeTrail.Proofs.Trace.Continuation
import CodeTrail.Proofs.Trace.Fingerprints
import CodeTrail.Proofs.Trace.Notation
import CodeTrail.Proofs.Trace.Candidates
import CodeTrail.Proofs.Trace.Frames
import CodeTrail.Proofs.Trace.LegacyPlaces
import CodeTrail.Proofs.Trace.Calls
import CodeTrail.Proofs.Trace.Failures
import CodeTrail.Proofs.CommandLine.Codes
import CodeTrail.Proofs.Json.Numeral
import CodeTrail.Proofs.Json.Text
import CodeTrail.Proofs.Json.Record
import CodeTrail.Proofs.Wire.Program
import CodeTrail.Proofs.Wire.Trace
import CodeTrail.Proofs.Wire.RoundTrip
