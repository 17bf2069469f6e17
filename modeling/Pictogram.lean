import Pictogram.Dom.Session
import Pictogram.Element.Inspect
import Pictogram.Element.Order
import Pictogram.Export
import Pictogram.Workbench
import Pictogram.Proofs.Text.Delimited
import Pictogram.Proofs.Text.Quoted
import Pictogram.Proofs.Text.Scanning
import Pictogram.Proofs.Element.Building
import Pictogram.Proofs.Element.Layout
import Pictogram.Proofs.Element.Numbering
import Pictogram.Proofs.Element.Searching
import Pictogram.Proofs.Element.Texts
import Pictogram.Proofs.Element.Tokens
import Pictogram.Proofs.Element.Writes
import Pictogram.Proofs.Json.Acceptance
import Pictogram.Proofs.Json.Arrivals
import Pictogram.Proofs.Json.Beginnings
import Pictogram.Proofs.Json.Completeness
import Pictogram.Proofs.Json.Denotation
import Pictogram.Proofs.Json.Exports
import Pictogram.Proofs.Json.Format
import Pictogram.Proofs.Json.Items
import Pictogram.Proofs.Json.Levels
import Pictogram.Proofs.Json.Mismatches
import Pictogram.Proofs.Json.Numbers
import Pictogram.Proofs.Json.Places
import Pictogram.Proofs.Json.RoundTrip
import Pictogram.Proofs.Json.Skipping
import Pictogram.Proofs.Json.Soundness
import Pictogram.Proofs.Json.Strings
import Pictogram.Proofs.Json.UnknownMembers
import Pictogram.Proofs.Json.Verdicts
import Pictogram.Proofs.Markup.Quotes
import Pictogram.Proofs.Markup.Unambiguous
import Pictogram.Proofs.Dom.Calls
import Pictogram.Proofs.Dom.Drawing
import Pictogram.Proofs.Dom.Forest
import Pictogram.Proofs.Dom.Lookups
import Pictogram.Proofs.Dom.Mounting
import Pictogram.Proofs.Dom.Refusal
import Pictogram.Proofs.Dom.Reports
import Pictogram.Proofs.Dom.Runs
import Pictogram.Proofs.Dom.Tour
import Pictogram.Proofs.Dom.Wording
import Pictogram.Proofs.Json.Characters
