import Keystream.BitVector.Lemmas
import Keystream.Generator
import Keystream.TruthTable.Cursor
import Keystream.TruthTable.Text
import Keystream.Proofs.ParitySum
import Keystream.Proofs.PolynomialSum
import Keystream.Proofs.Grammar
import Keystream.Proofs.Layout
import Keystream.Proofs.Readers
import Keystream.Proofs.Parsing
import Keystream.Proofs.Printing
import Keystream.Proofs.SubsetSum
import Keystream.Proofs.Transform
import Keystream.Proofs.Tables
import Keystream.Proofs.Inversion
import Keystream.Proofs.Runs
import Keystream.Proofs.Views
import Keystream.Proofs.Calls
import Keystream.Proofs.Canonical
import Keystream.Proofs.Streams
import Keystream.Proofs.InnerProduct
import Keystream.Proofs.Recurrence
import Keystream.Proofs.BitLists
import Keystream.NormalForm.Operators
import Keystream.Proofs.Operators
import Keystream.Proofs.BooleanRing
import Keystream.Proofs.Combination
import Keystream.ShiftRegister.Setters
import Keystream.Proofs.Settings
import Keystream.Proofs.HexText
import Keystream.Proofs.Storage
import Keystream.Proofs.Sources
import Keystream.Proofs.Stages
import Keystream.Proofs.Cuts
import Keystream.Proofs.Faults
import Keystream.Proofs.Invertibility
import Keystream.Proofs.HexRoundTrip
import Keystream.Proofs.Checked.Programs
import Keystream.Proofs.Checked.Constructions
import Keystream.Proofs.Periods
import Keystream.Proofs.Superposition
import Keystream.Proofs.Deepening
import Keystream.Proofs.Spacing
import Keystream.Proofs.Degrees
import Keystream.Proofs.Renumbering
import Keystream.Proofs.MonomialLists
import Keystream.Proofs.Coefficients
import Keystream.Proofs.Butterfly
import Keystream.Proofs.Walks
import Keystream.Proofs.HexNumerals
import Keystream.Proofs.WordViews
import Keystream.Proofs.Progress
