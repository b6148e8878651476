import LoopDirectives.Call
import LoopDirectives.Main
import LoopDirectives.Proofs.CommandLine.Faulty
import LoopDirectives.Proofs.Document.Copying
import LoopDirectives.Proofs.Expression.ReadBack
import LoopDirectives.Proofs.Import.Failing
import LoopDirectives.Proofs.Import.Renaming
import LoopDirectives.Proofs.Loop.RangeEquality
import LoopDirectives.Proofs.Loop.Search
import LoopDirectives.Proofs.Markup.Outline
import LoopDirectives.Proofs.Pragma.Neighbours
import LoopDirectives.Proofs.Pragma.Recognition
import LoopDirectives.Proofs.Reference.Dimensions
import LoopDirectives.Proofs.Run.FixedPoint
import LoopDirectives.Proofs.Run.Pairing
import LoopDirectives.Proofs.Run.Removing
import LoopDirectives.Proofs.SiblingRanges
import LoopDirectives.Proofs.Transformation.Interchange
import LoopDirectives.Proofs.Transformation.Locality
import LoopDirectives.Proofs.Transformation.Scalars
