import SymbolLog.FileSystem
import SymbolLog.Listing.Reader
import SymbolLog.Main
import SymbolLog.Sink
import SymbolLog.Proofs.Json.Quoted
import SymbolLog.Proofs.Listing.RoundTrip
import SymbolLog.Proofs.Log.Chunks
import SymbolLog.Proofs.Log.Lines
import SymbolLog.Proofs.Log.Survey
import SymbolLog.Proofs.FileSystem
import SymbolLog.Proofs.Job.Stages
import SymbolLog.Proofs.Symbol.Catalogue
import SymbolLog.Proofs.Table.Reader
import SymbolLog.Proofs.Symbol.Pattern
import SymbolLog.Proofs.Job.Outputs
import SymbolLog.Proofs.Json.Grammar
import SymbolLog.Proofs.Json.Numbers
import SymbolLog.Proofs.Json.Reading
import SymbolLog.Proofs.Entry
import SymbolLog.Proofs.Log.ReadBack
import SymbolLog.Proofs.Table.Quoting
import SymbolLog.Proofs.Collection.Intakes
import SymbolLog.Proofs.Collection.Accounting
import SymbolLog.Proofs.Collection.Joining
import SymbolLog.Proofs.Job.Repetition
import SymbolLog.Proofs.Symbol.Padding
import SymbolLog.Proofs.Finding
import SymbolLog.Proofs.Log.Restating
import SymbolLog.Proofs.Symbol.Ties
import SymbolLog.Proofs.Collection.Reordering
import SymbolLog.Proofs.CommandLine.Session
import SymbolLog.Proofs.Symbol.Search
import SymbolLog.Proofs.Log.Newlines
import SymbolLog.Proofs.Symbol.Law
import SymbolLog.Proofs.Symbol.Merging
import SymbolLog.Proofs.Log.Containment
import SymbolLog.Proofs.Log.Interruption
import SymbolLog.Proofs.Json.Decoding
import SymbolLog.Proofs.Json.Limits
import SymbolLog.Proofs.Envelope
import SymbolLog.Proofs.Symbol.Description
import SymbolLog.Proofs.Sink
import SymbolLog.Proofs.Collection.Events
import SymbolLog.Proofs.CommandLine.Messages
import SymbolLog.Proofs.Log.Progress
import SymbolLog.Proofs.Json.Copying
import SymbolLog.Proofs.Listing.Recognition
