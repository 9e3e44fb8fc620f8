import SharedValues.Answer
import SharedValues.Cell
import SharedValues.Compare
import SharedValues.Copy
import SharedValues.Datum
import SharedValues.Decimal.Layout
import SharedValues.Decimal.Shortest
import SharedValues.Edit
import SharedValues.Erased
import SharedValues.Event
import SharedValues.Function
import SharedValues.Inspect
import SharedValues.Object
import SharedValues.Picture
import SharedValues.Program.Machine
import SharedValues.Program.Run
import SharedValues.Program.Step
import SharedValues.Reader
import SharedValues.Registry.Basic
import SharedValues.Registry.Threads
import SharedValues.Release
import SharedValues.Render
import SharedValues.Request
import SharedValues.Store.Basic
import SharedValues.Text.CodePoint
import SharedValues.Text.Quoted
import SharedValues.Text.Stable
import SharedValues.Ty.Basic
import SharedValues.Ty.Catalog
import SharedValues.Ty.Name
import SharedValues.Value.Basic
import SharedValues.Value.Levels
import SharedValues.Value.Map
import SharedValues.Value.Scalar
import SharedValues.Variables
import SharedValues.World
import SharedValues.Proofs.Pieces
import SharedValues.Proofs.Counting
import SharedValues.Proofs.Typing
import SharedValues.Proofs.Moves
import SharedValues.Proofs.Sound
import SharedValues.Proofs.Accounts
import SharedValues.Proofs.Primitives
import SharedValues.Proofs.Copies
import SharedValues.Proofs.Observers
import SharedValues.Proofs.Looking
import SharedValues.Proofs.Turns
import SharedValues.Proofs.Building
import SharedValues.Proofs.Reading
import SharedValues.Proofs.Cells
import SharedValues.Proofs.Edits
import SharedValues.Proofs.Bindings
import SharedValues.Proofs.Publishing
import SharedValues.Proofs.Performing
import SharedValues.Proofs.Extraction
import SharedValues.Proofs.Steps
import SharedValues.Proofs.Calls
import SharedValues.Proofs.Chronicle
import SharedValues.Proofs.Runs
import SharedValues.Proofs.ShareCounts
import SharedValues.Proofs.Reachability
import SharedValues.Proofs.LastShares
import SharedValues.Proofs.SlotTypes
import SharedValues.Proofs.Interleavings
import SharedValues.Proofs.Paths
import SharedValues.Proofs.DeepCopies
import SharedValues.Proofs.Unwinding
import SharedValues.Proofs.Separation
import SharedValues.Proofs.Independence
import SharedValues.Proofs.Equality
import SharedValues.Proofs.Texts
import SharedValues.Proofs.Duplicates
import SharedValues.Proofs.Erasure
import SharedValues.Proofs.Overwriting
import SharedValues.Proofs.DropOrder
import SharedValues.Proofs.CopyAndDrop
import SharedValues.Proofs.Accessors
import SharedValues.Proofs.Rendering
import SharedValues.Proofs.CellWrites
import SharedValues.Proofs.EqualTexts
import SharedValues.Proofs.FunctionCopies
import SharedValues.Proofs.ObjectStates
import SharedValues.Proofs.ObjectViews
import SharedValues.Proofs.Effects
import SharedValues.Proofs.StoredCopies
import SharedValues.Proofs.Termination
import SharedValues.Proofs.Cycles
import SharedValues.Proofs.Permissions
import SharedValues.Proofs.Registering
import SharedValues.Proofs.Cascades
import SharedValues.Proofs.Footprints
