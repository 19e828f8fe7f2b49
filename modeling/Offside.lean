import Offside.Cursor
import Offside.Host.Registry
import Offside.Host.Walk
import Offside.Main
import Offside.Proofs.AppendedText
import Offside.Proofs.BreakExtent
import Offside.Proofs.ByteReads
import Offside.Proofs.CanonicalForm
import Offside.Proofs.CheckpointRun
import Offside.Proofs.ContentRuns
import Offside.Proofs.CutBytes
import Offside.Proofs.DecodeSaved
import Offside.Proofs.DefectLabel
import Offside.Proofs.HexGrammar
import Offside.Proofs.HostAgreement
import Offside.Proofs.HostRounds
import Offside.Proofs.LevelRecords
import Offside.Proofs.LineEnding
import Offside.Proofs.NarrowerLine
import Offside.Proofs.PlainHost
import Offside.Proofs.PlainUnits
import Offside.Proofs.Reindentation
import Offside.Proofs.RenderedLines
import Offside.Proofs.RepeatedSaves
import Offside.Proofs.Resumption
import Offside.Proofs.SessionLedger
import Offside.Proofs.SharedHandle
import Offside.Proofs.SiblingLines
import Offside.Proofs.SpanOrder
import Offside.Proofs.StateText
import Offside.Proofs.Truncation
import Offside.Proofs.WrittenBytes
