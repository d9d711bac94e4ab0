import Estree.CommandLine.Directory
import Estree.Cursor.Session
import Estree.Main
import Estree.Proofs.Grammar.Soundness
import Estree.Proofs.Number.Numeral
import Estree.Proofs.Grammar.Completeness
import Estree.Proofs.Grammar.Reader
import Estree.Proofs.Expr.Nodes
import Estree.Proofs.Expr.Inspected
import Estree.Proofs.Expr.Spine
import Estree.Proofs.Expr.Shape
import Estree.Proofs.Grammar.Shape
import Estree.Proofs.Source.Text
import Estree.Proofs.Expr.Unplaced
import Estree.Proofs.Source.Defects
import Estree.Proofs.Expr.Views
import Estree.Proofs.Grammar.Lookahead
import Estree.Proofs.Grammar.Comparison
import Estree.Proofs.Grammar.Likeness
import Estree.Proofs.Source.Follow
import Estree.Proofs.Source.Links
import Estree.Proofs.Source.Reading
import Estree.Proofs.Source.Lists
import Estree.Proofs.Source.Opening
import Estree.Proofs.Source.Runs
import Estree.Proofs.Source.Operators
import Estree.Proofs.Source.Reread
import Estree.Proofs.Expr.Points
import Estree.Proofs.Grammar.Points
import Estree.Proofs.Source.Points
import Estree.Proofs.Source.RoundTrip
import Estree.Proofs.Source.Nesting
import Estree.Proofs.Source.Residue
import Estree.Proofs.Source.Grouping
import Estree.Proofs.Grammar.Spans
import Estree.Proofs.Grammar.Depth
import Estree.Proofs.Grammar.Parser
import Estree.Proofs.Grammar.Handover
import Estree.Proofs.Grammar.Blanks
import Estree.Proofs.Transfer.Groups
import Estree.Proofs.Transfer.Slices
import Estree.Proofs.Transfer.Rejected
import Estree.Proofs.Source.Numbers
import Estree.Proofs.Number.Nearest
import Estree.Proofs.Number.Scanned
import Estree.Proofs.Grammar.Begun
import Estree.Proofs.Cursor.Session
import Estree.Proofs.Json.Tree
import Estree.Proofs.CommandLine.Agreement
import Estree.Proofs.Source.Precedence
import Estree.Proofs.Source.Spellings
import Estree.Proofs.Grammar.Sequences
import Estree.Proofs.Grammar.Constructs
import Estree.Proofs.Grammar.Commas
import Estree.Proofs.Transfer.InPlace
import Estree.Proofs.Runs.Link
import Estree.Proofs.Runs.Fold
import Estree.Proofs.Runs.New
import Estree.Proofs.Runs.Listing
import Estree.Proofs.Grammar.Faults
import Estree.Proofs.Text.Locations
import Estree.Proofs.Grammar.Absent
