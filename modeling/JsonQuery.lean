import JsonQuery.Document.Merge
import JsonQuery.Document.Settings
import JsonQuery.Engine.Session
import JsonQuery.Engine.Standard
import JsonQuery.Proofs.Accessors
import JsonQuery.Proofs.Attempts
import JsonQuery.Proofs.Bare
import JsonQuery.Proofs.Batch
import JsonQuery.Proofs.Blanks
import JsonQuery.Proofs.Chaining
import JsonQuery.Proofs.Closure
import JsonQuery.Proofs.CodeUnits
import JsonQuery.Proofs.Collected
import JsonQuery.Proofs.CutBatch
import JsonQuery.Proofs.Delimiters
import JsonQuery.Proofs.Depth
import JsonQuery.Proofs.Descent
import JsonQuery.Proofs.Encoding
import JsonQuery.Proofs.FirstMatch
import JsonQuery.Proofs.Flattening
import JsonQuery.Proofs.Fragments
import JsonQuery.Proofs.HandedOn
import JsonQuery.Proofs.Independence
import JsonQuery.Proofs.IntegerFilters
import JsonQuery.Proofs.Integers
import JsonQuery.Proofs.Items
import JsonQuery.Proofs.Labels
import JsonQuery.Proofs.Layers
import JsonQuery.Proofs.Literals
import JsonQuery.Proofs.Lookahead
import JsonQuery.Proofs.Meeting
import JsonQuery.Proofs.Mentions
import JsonQuery.Proofs.Merging
import JsonQuery.Proofs.Offsets
import JsonQuery.Proofs.OneLine
import JsonQuery.Proofs.Ordering
import JsonQuery.Proofs.Patterns
import JsonQuery.Proofs.Printing
import JsonQuery.Proofs.Reversal
import JsonQuery.Proofs.RoundTrip
import JsonQuery.Proofs.Sessions
import JsonQuery.Proofs.Stages
import JsonQuery.Proofs.Streams
import JsonQuery.Proofs.Values
import JsonQuery.Result.Location
import JsonQuery.Result.Timestamp
