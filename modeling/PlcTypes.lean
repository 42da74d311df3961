import PlcTypes.Main
import PlcTypes.Proofs.Name
import PlcTypes.Proofs.Decimal
import PlcTypes.Proofs.Text.Lines
import PlcTypes.Proofs.Grammar.Tokens
import PlcTypes.Proofs.Field.WellFormed
import PlcTypes.Proofs.Grammar.BodyLine
import PlcTypes.Proofs.RoundTrip.Declaration
import PlcTypes.Proofs.RoundTrip.Field
import PlcTypes.Proofs.Field.Built
import PlcTypes.Proofs.RoundTrip.Definition
import PlcTypes.Proofs.Grammar.Declaration
import PlcTypes.Proofs.RoundTrip.Built
import PlcTypes.Proofs.Trace
import PlcTypes.Proofs.Source.WellFormed
import PlcTypes.Proofs.RoundTrip.Read
import PlcTypes.Proofs.Source.Reference
import PlcTypes.Proofs.Loading.Following
import PlcTypes.Proofs.Loading.Machine
import PlcTypes.Proofs.Loading.Chain
import PlcTypes.Proofs.Loading.Termination
import PlcTypes.Proofs.Loading.Independence
import PlcTypes.Proofs.Layout.Packed
import PlcTypes.Proofs.FieldPath
import PlcTypes.Proofs.Leaf.Walk
import PlcTypes.Proofs.Leaf.LookUp
import PlcTypes.Proofs.Files.Path
import PlcTypes.Proofs.Source.Guarantees
import PlcTypes.Proofs.Text.Utf8
import PlcTypes.Proofs.Files.Tree
import PlcTypes.Proofs.Loading.Place
import PlcTypes.Proofs.Source.Alike
import PlcTypes.Proofs.Loading.Rewriting
import PlcTypes.Proofs.Command.Format
import PlcTypes.Proofs.Files.Making
import PlcTypes.Proofs.Source.Heading
import PlcTypes.Proofs.Source.Stopping
import PlcTypes.Proofs.Loading.Entrances
import PlcTypes.Proofs.Loading.Stopping
import PlcTypes.Proofs.Source.Body
import PlcTypes.Proofs.Loading.Outline
import PlcTypes.Proofs.RoundTrip.Spelling
import PlcTypes.Proofs.RoundTrip.Inlining
import PlcTypes.Proofs.Layout.Plain
import PlcTypes.Proofs.Layout.Concatenation
import PlcTypes.Proofs.Leaf.Column
import PlcTypes.Proofs.Files.Directory
import PlcTypes.Proofs.Loading.Confinement
import PlcTypes.Proofs.Grammar.Spaced
import PlcTypes.Proofs.Grammar.Wording
import PlcTypes.Proofs.Source.Wording
import PlcTypes.Proofs.Field.ArrayRange
import PlcTypes.Proofs.Text.Ending
import PlcTypes.Proofs.Loading.OuterBlanks
import PlcTypes.Proofs.Source.Insertion
import PlcTypes.Proofs.Loading.Insertion
import PlcTypes.Proofs.Files.Candidate
import PlcTypes.Proofs.Loading.TwoTrees
import PlcTypes.Proofs.Loading.Legacy
import PlcTypes.Proofs.Text.Mark
import PlcTypes.Proofs.Loading.Mark
import PlcTypes.Proofs.Layout.Bounds
import PlcTypes.Proofs.Leaf.Identifier
