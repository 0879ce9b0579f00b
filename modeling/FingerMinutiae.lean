import FingerMinutiae.Conformance.Check
import FingerMinutiae.Conversion.Convert
import FingerMinutiae.Decoding.Records
import FingerMinutiae.Encoding.Write
import FingerMinutiae.Navigation
import FingerMinutiae.Proofs.BuiltData
import FingerMinutiae.Proofs.ComputedLength
import FingerMinutiae.Proofs.Conformance.Breaches
import FingerMinutiae.Proofs.Conformance.Conforms
import FingerMinutiae.Proofs.Conformance.NumberReports
import FingerMinutiae.Proofs.Conformance.Reports
import FingerMinutiae.Proofs.Conformance.Sequence
import FingerMinutiae.Proofs.Conformance.Structure
import FingerMinutiae.Proofs.Conformance.ViewNumbers
import FingerMinutiae.Proofs.Conformance.Written
import FingerMinutiae.Proofs.Conversion.Conformance
import FingerMinutiae.Proofs.Conversion.Convert
import FingerMinutiae.Proofs.Conversion.Encodable
import FingerMinutiae.Proofs.Conversion.Headers
import FingerMinutiae.Proofs.Conversion.Outcome
import FingerMinutiae.Proofs.Conversion.ThereAndBack
import FingerMinutiae.Proofs.DeclaredLength
import FingerMinutiae.Proofs.Decoding.Announced
import FingerMinutiae.Proofs.Decoding.BlockLoop
import FingerMinutiae.Proofs.Decoding.Canonical
import FingerMinutiae.Proofs.Decoding.CardBytes
import FingerMinutiae.Proofs.Decoding.Cards
import FingerMinutiae.Proofs.Decoding.CutShort
import FingerMinutiae.Proofs.Decoding.CutShortViews
import FingerMinutiae.Proofs.Decoding.Diagnosis
import FingerMinutiae.Proofs.Decoding.Ending
import FingerMinutiae.Proofs.Decoding.Ensures
import FingerMinutiae.Proofs.Decoding.Extended
import FingerMinutiae.Proofs.Decoding.Extents
import FingerMinutiae.Proofs.Decoding.FailingReaders
import FingerMinutiae.Proofs.Decoding.Image
import FingerMinutiae.Proofs.Decoding.LastBlock
import FingerMinutiae.Proofs.Decoding.Machine
import FingerMinutiae.Proofs.Decoding.MachineRecords
import FingerMinutiae.Proofs.Decoding.Malformed
import FingerMinutiae.Proofs.Decoding.Marks
import FingerMinutiae.Proofs.Decoding.Reaching
import FingerMinutiae.Proofs.Decoding.Record
import FingerMinutiae.Proofs.Decoding.RecordStreams
import FingerMinutiae.Proofs.Decoding.Requests
import FingerMinutiae.Proofs.Decoding.RoundTrip
import FingerMinutiae.Proofs.Decoding.Sources
import FingerMinutiae.Proofs.Decoding.Truncation
import FingerMinutiae.Proofs.Decoding.WholeBlocks
import FingerMinutiae.Proofs.Encoding.AsWritten
import FingerMinutiae.Proofs.Encoding.Fits
import FingerMinutiae.Proofs.Encoding.InBits
import FingerMinutiae.Proofs.Encoding.Lengths
import FingerMinutiae.Proofs.Encoding.Sinks
import FingerMinutiae.Proofs.Encoding.Spelling
import FingerMinutiae.Proofs.LengthsInWords
import FingerMinutiae.Proofs.Lists
import FingerMinutiae.Proofs.RecordLength
import FingerMinutiae.Proofs.Selection.Conversion
import FingerMinutiae.Proofs.Selection.Ellipse
import FingerMinutiae.Proofs.Selection.Polar
import FingerMinutiae.Proofs.Selection.Preservation
import FingerMinutiae.Proofs.Selection.Select
import FingerMinutiae.Proofs.Stream.Failing
import FingerMinutiae.Proofs.Stream.Simulation
import FingerMinutiae.Proofs.Stream.Sinks
import FingerMinutiae.Proofs.Truncate
import FingerMinutiae.Proofs.WellFormed
import FingerMinutiae.Proofs.Wire.Layouts
import FingerMinutiae.Selection.Select
import FingerMinutiae.Stream.Reader
