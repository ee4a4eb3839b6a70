import Blindfold.Main
import Blindfold.Proofs.Verdicts
import Blindfold.Proofs.Notation
import Blindfold.Proofs.Operators
import Blindfold.Proofs.Effect
import Blindfold.Proofs.Rearrangement
import Blindfold.Proofs.Orientations
import Blindfold.Proofs.Symmetries
import Blindfold.Proofs.SharedPieces
import Blindfold.Proofs.Sheets
import Blindfold.Proofs.Leaves
import Blindfold.Proofs.Punctuation
import Blindfold.Proofs.Solved
import Blindfold.Proofs.Renaming
import Blindfold.Proofs.Regrips
import Blindfold.Proofs.Wrapping
import Blindfold.Proofs.Spacing
import Blindfold.Proofs.MoveText
import Blindfold.Proofs.Groups
import Blindfold.Proofs.SheetFiles
import Blindfold.Proofs.Progress
