import SourceClosure.Text.Blank
import SourceClosure.Text.Word
import SourceClosure.Path.Candidates
import SourceClosure.Json.Shape
import SourceClosure.Json.Printer
import SourceClosure.Options.Document
import SourceClosure.Options.Basic
import SourceClosure.Specifier.Basic
import SourceClosure.Specifier.Scan
import SourceClosure.Manifest
import SourceClosure.Settings
import SourceClosure.Store.Tree
import SourceClosure.Store.Change
import SourceClosure.Session.Operation
import SourceClosure.Store.Record
import SourceClosure.Main
import SourceClosure.Specifier.Run
import SourceClosure.Proofs.Session.Feeding
import SourceClosure.Proofs.Session.Closure
import SourceClosure.Proofs.Session.Activation
import SourceClosure.Proofs.Path.Plain
import SourceClosure.Proofs.Json.Token
import SourceClosure.Proofs.Session.Visited
import SourceClosure.Proofs.Json.Reading
import SourceClosure.Proofs.Json.Skipping
import SourceClosure.Proofs.Json.Shape
import SourceClosure.Proofs.Jsonc.Layout
import SourceClosure.Proofs.Options.Document
import SourceClosure.Proofs.Config.Unfolding
import SourceClosure.Proofs.Path.Join
import SourceClosure.Proofs.Config.Answers
import SourceClosure.Proofs.Session.Answers
import SourceClosure.Proofs.Session.Asking
import SourceClosure.Proofs.Session.Confined
import SourceClosure.Proofs.Session.Packages
import SourceClosure.Proofs.Session.Order
import SourceClosure.Proofs.Specifier.Package
import SourceClosure.Proofs.Session.Preload
import SourceClosure.Proofs.Store.Tree
import SourceClosure.Proofs.Session.Territory
import SourceClosure.Proofs.Jsonc.Scan
import SourceClosure.Proofs.Jsonc.Accepted
import SourceClosure.Proofs.Session.Depth
import SourceClosure.Proofs.Session.Live
import SourceClosure.Proofs.Session.Bookkeeping
import SourceClosure.Proofs.Alias.Resolution
import SourceClosure.Proofs.Session.Counting
import SourceClosure.Proofs.Session.Miss
import SourceClosure.Proofs.Store.Names
import SourceClosure.Proofs.Session.Findings
import SourceClosure.Proofs.Session.Search
import SourceClosure.Proofs.Store.History
import SourceClosure.Proofs.Store.Strays
import SourceClosure.Proofs.Specifier.Extraction
import SourceClosure.Proofs.Alias.Table
import SourceClosure.Proofs.Specifier.Stub
import SourceClosure.Proofs.Path.Normal
import SourceClosure.Proofs.Session.Probing
import SourceClosure.Proofs.Jsonc.Fragments
import SourceClosure.Proofs.Jsonc.Draft
