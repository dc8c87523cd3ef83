import TemplateTree.Log
import TemplateTree.Main
import TemplateTree.Node.Query
import TemplateTree.Proofs.Grammar
import TemplateTree.Proofs.Rendering
import TemplateTree.Proofs.Spelling
import TemplateTree.Proofs.Words
import TemplateTree.Proofs.Plain
import TemplateTree.Proofs.Scanning
import TemplateTree.Proofs.Canonical
import TemplateTree.Proofs.Placing
import TemplateTree.Proofs.RoundTrip
import TemplateTree.Proofs.Balance
import TemplateTree.Proofs.Pending
import TemplateTree.Proofs.TokenMarkup
import TemplateTree.Proofs.WellFormed
import TemplateTree.Proofs.Above
import TemplateTree.Proofs.Composition
import TemplateTree.Proofs.Failure
import TemplateTree.Proofs.InHand
import TemplateTree.Proofs.Readings
import TemplateTree.Proofs.Inventory
import TemplateTree.Proofs.Replacement
import TemplateTree.Proofs.Mirror
import TemplateTree.Proofs.Independence
import TemplateTree.Proofs.Nest
import TemplateTree.Proofs.Conservation
import TemplateTree.Proofs.Regular
import TemplateTree.Proofs.Entries
import TemplateTree.Proofs.Height
import TemplateTree.Proofs.BlockLimit
import TemplateTree.Proofs.DepthLimit
import TemplateTree.Proofs.HiddenMarkup
import TemplateTree.Proofs.OneCharacter
import TemplateTree.Proofs.Texts
import TemplateTree.Proofs.Routing
import TemplateTree.Proofs.Rereading
import TemplateTree.Proofs.Respacing
import TemplateTree.Proofs.Unplaced
import TemplateTree.Proofs.Recut
import TemplateTree.Proofs.Origins
import TemplateTree.Proofs.Squeezing
import TemplateTree.Proofs.ReadFrom
import TemplateTree.Proofs.Weights
import TemplateTree.Proofs.Delimited
import TemplateTree.Proofs.SourceForm
import TemplateTree.Proofs.SpelledAs
import TemplateTree.Proofs.Slices
import TemplateTree.Proofs.Offsets
import TemplateTree.Proofs.Walk
import TemplateTree.Proofs.FirstFault
import TemplateTree.Proofs.ValueOrder
import TemplateTree.Proofs.StrayBrackets
import TemplateTree.Proofs.Cursor
import TemplateTree.Proofs.CommentText
import TemplateTree.Proofs.TagSpelling
import TemplateTree.Proofs.Coordinates
import TemplateTree.Proofs.History
import TemplateTree.Proofs.SourceOrder
import TemplateTree.Proofs.Queries
