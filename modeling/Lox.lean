import Lox.Main
import Lox.Proofs.ParserSound
import Lox.Proofs.ParserComplete
import Lox.Proofs.Prediction
import Lox.Proofs.BoundNames
import Lox.Proofs.Frame
import Lox.Proofs.Dependence
import Lox.Proofs.LongestMatch
import Lox.Proofs.Layout
import Lox.Proofs.Reading
import Lox.Proofs.Lines
import Lox.Proofs.InTurn
import Lox.Proofs.OpenLevels
import Lox.Proofs.LayoutFree
import Lox.Proofs.ErrorLines
import Lox.Proofs.FaithfulJson
import Lox.Proofs.VisibleStructure
import Lox.Proofs.Places
import Lox.Proofs.Resolving
import Lox.Proofs.FirstError
import Lox.Proofs.KnownOperators
import Lox.Proofs.SourcePaths
import Lox.Proofs.FirstMistake
import Lox.Proofs.Openers
import Lox.Proofs.DepthRange
import Lox.Proofs.Groupings
import Lox.Proofs.FieldWrites
import Lox.Proofs.Choices
import Lox.Proofs.Respelling
import Lox.Proofs.Congruence
import Lox.Proofs.Arity
import Lox.Proofs.WholeNumbers
import Lox.Proofs.LastBinding
