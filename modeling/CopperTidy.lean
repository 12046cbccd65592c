import CopperTidy.Board.Change.Json
import CopperTidy.Board.Connection
import CopperTidy.Board.History
import CopperTidy.Board.Lemmas
import CopperTidy.Board.Replay
import CopperTidy.Board.ZoneConnection
import CopperTidy.Copper.Alignment
import CopperTidy.Design.Json
import CopperTidy.Files.Tree
import CopperTidy.Main
import CopperTidy.SExpr.Grammar
import CopperTidy.SExpr.Normal
import CopperTidy.Proofs.Moves
import CopperTidy.Proofs.Passes
import CopperTidy.Proofs.Undo
import CopperTidy.Proofs.Tidy
import CopperTidy.Proofs.Settled
import CopperTidy.Proofs.Islands.Groups
import CopperTidy.Proofs.Islands.Links
import CopperTidy.Proofs.Islands.Count
import CopperTidy.Proofs.Islands.Reach
import CopperTidy.Proofs.Islands.Removal
import CopperTidy.Proofs.Islands.Sound
import CopperTidy.Proofs.Islands.Kept
import CopperTidy.Proofs.Islands.Cleaned
import CopperTidy.Proofs.SExpr.Printed
import CopperTidy.Proofs.SExpr.RoundTrip
import CopperTidy.Proofs.Design.Normal
import CopperTidy.Proofs.Decimal.Whole
import CopperTidy.Proofs.Decimal.Nearest
import CopperTidy.Proofs.Decimal.Places
import CopperTidy.Proofs.Decimal.Millimetres
import CopperTidy.Proofs.Survivors
import CopperTidy.Proofs.SExpr.Replace
import CopperTidy.Proofs.Design.Placed
import CopperTidy.Proofs.Design.Source
import CopperTidy.Proofs.Document.Walk
import CopperTidy.Proofs.Document.Moved
import CopperTidy.Proofs.Document.Revised
import CopperTidy.Proofs.Document.RoundTrip
import CopperTidy.Proofs.Document.Edited
import CopperTidy.Proofs.Connection.Contact
import CopperTidy.Proofs.Connection.Steps
import CopperTidy.Proofs.Reasons
import CopperTidy.Proofs.Reopened
import CopperTidy.Proofs.Zones.Kept
import CopperTidy.Proofs.SExpr.Outcomes
import CopperTidy.Proofs.Scanning
import CopperTidy.Proofs.Accounts
import CopperTidy.Proofs.Spared
import CopperTidy.Proofs.Document.Bounds
import CopperTidy.Proofs.Repeated
import CopperTidy.Proofs.Pruning
import CopperTidy.Proofs.Rearranged
import CopperTidy.Proofs.Renaming.Mirror
import CopperTidy.Proofs.Renaming.Cleaned
import CopperTidy.Proofs.Condemned
import CopperTidy.Proofs.Extent
import CopperTidy.Proofs.Stacks
import CopperTidy.Proofs.Document.Loaded
import CopperTidy.Proofs.Copies
import CopperTidy.Proofs.Gathered
import CopperTidy.Proofs.Islands.Components
import CopperTidy.Proofs.Design.Itemwise
import CopperTidy.Proofs.Document.Failed
import CopperTidy.Proofs.Document.Respelled
import CopperTidy.Proofs.Heard
import CopperTidy.Copper.Words
import CopperTidy.Proofs.Aligned
import CopperTidy.Proofs.Superseded
import CopperTidy.Proofs.Nets.Part
import CopperTidy.Proofs.Nets.Runs
import CopperTidy.Proofs.Json.Scanned
import CopperTidy.Proofs.Json.RoundTrip
import CopperTidy.Proofs.Json.Changes
import CopperTidy.Proofs.Zones.Redrawn
