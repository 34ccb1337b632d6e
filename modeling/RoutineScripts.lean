import RoutineScripts.Catalog.Basic
import RoutineScripts.Catalog.Memory
import RoutineScripts.Catalog.Replay
import RoutineScripts.Command.Arguments
import RoutineScripts.Command.Execute
import RoutineScripts.Command.Help
import RoutineScripts.Command.Supply
import RoutineScripts.Digest.Sha256
import RoutineScripts.Encoding.Hex
import RoutineScripts.Encoding.Utf16
import RoutineScripts.Encoding.Utf8
import RoutineScripts.Encoding.Windows1252
import RoutineScripts.Error
import RoutineScripts.Files.Disk
import RoutineScripts.Files.Folder
import RoutineScripts.Files.Path
import RoutineScripts.Files.Pattern
import RoutineScripts.Files.SourceFile
import RoutineScripts.Files.Walk
import RoutineScripts.Guid
import RoutineScripts.Lexical.Mode
import RoutineScripts.Lexical.Position
import RoutineScripts.Lexical.Scan
import RoutineScripts.Main
import RoutineScripts.Marker.Basic
import RoutineScripts.Marker.Placement
import RoutineScripts.Routine.Attributes
import RoutineScripts.Routine.Definition
import RoutineScripts.Routine.Fingerprint
import RoutineScripts.Routine.Header
import RoutineScripts.Routine.Literal
import RoutineScripts.Routine.Name
import RoutineScripts.Routine.Options
import RoutineScripts.Routine.Remark
import RoutineScripts.Routine.Script
import RoutineScripts.Sync
import RoutineScripts.Text.Basic
import RoutineScripts.Text.Blank
import RoutineScripts.Text.LineEnding
import RoutineScripts.Text.Recogniser
import RoutineScripts.Text.WordCharacter
import RoutineScripts.Proofs.Catalog.Carried
import RoutineScripts.Proofs.Catalog.Fresh
import RoutineScripts.Proofs.Catalog.Memory
import RoutineScripts.Proofs.Files.Overwrite
import RoutineScripts.Proofs.Guid
import RoutineScripts.Proofs.Lexical.Cut
import RoutineScripts.Proofs.Lexical.Structure
import RoutineScripts.Proofs.Marker.Again
import RoutineScripts.Proofs.Marker.Basic
import RoutineScripts.Proofs.Marker.Declaration
import RoutineScripts.Proofs.Marker.Edit
import RoutineScripts.Proofs.Marker.Fingerprint
import RoutineScripts.Proofs.Marker.Lines
import RoutineScripts.Proofs.Marker.Overwrite
import RoutineScripts.Proofs.Routine.Exchange
import RoutineScripts.Proofs.Routine.Header
import RoutineScripts.Proofs.Routine.Literal
import RoutineScripts.Proofs.Routine.Opening
import RoutineScripts.Proofs.Sync
import RoutineScripts.Proofs.Sync.Fixpoint
import RoutineScripts.Proofs.Sync.Kept
import RoutineScripts.Proofs.Sync.Stability
import RoutineScripts.Proofs.Text.LineEnding
import RoutineScripts.Proofs.Text.Recogniser
import RoutineScripts.Proofs.Text.Rows
import RoutineScripts.Proofs.Text.Search
import RoutineScripts.Proofs.Lexical.Position
import RoutineScripts.Proofs.Lexical.Token
import RoutineScripts.Proofs.Lexical.Refinement
import RoutineScripts.Proofs.Routine.Keyword
import RoutineScripts.Proofs.Routine.Reader
import RoutineScripts.Proofs.Routine.Coherence
import RoutineScripts.Proofs.Text.Words
import RoutineScripts.Proofs.Routine.Options
import RoutineScripts.Proofs.Lexical.Balance
import RoutineScripts.Proofs.Routine.Name
import RoutineScripts.Proofs.Routine.Printing
import RoutineScripts.Proofs.Marker.Replacement
import RoutineScripts.Proofs.Marker.Comment
import RoutineScripts.Proofs.Text.Normalization
import RoutineScripts.Proofs.Text.Spacing
import RoutineScripts.Proofs.Routine.Normalization
import RoutineScripts.Proofs.Routine.Spacing
import RoutineScripts.Proofs.Routine.Remark
import RoutineScripts.Proofs.Routine.Definition
import RoutineScripts.Proofs.Marker.Resolution
import RoutineScripts.Proofs.Sync.Rewritten
import RoutineScripts.Proofs.Encoding.Windows1252
import RoutineScripts.Proofs.Files.WriteBack
import RoutineScripts.Proofs.Sync.Halt
import RoutineScripts.Proofs.Sync.Footprint
import RoutineScripts.Proofs.Sync.Preview
import RoutineScripts.Proofs.Sync.Failure
import RoutineScripts.Proofs.Sync.Calls
import RoutineScripts.Proofs.Catalog.History
import RoutineScripts.Proofs.Routine.Characters
import RoutineScripts.Proofs.Routine.Summary
import RoutineScripts.Proofs.Routine.Change
import RoutineScripts.Proofs.Routine.Semicolon
import RoutineScripts.Proofs.Routine.Suffix
import RoutineScripts.Proofs.Routine.Preface
import RoutineScripts.Proofs.Marker.Language
import RoutineScripts.Proofs.Marker.Branch
import RoutineScripts.Proofs.Routine.Layout
import RoutineScripts.Proofs.Routine.Clause
import RoutineScripts.Proofs.Routine.Declared
import RoutineScripts.Proofs.Routine.Order
import RoutineScripts.Proofs.Routine.Returns
import RoutineScripts.Proofs.Routine.Commented
import RoutineScripts.Proofs.Lexical.Rewording
import RoutineScripts.Proofs.Routine.Reworded
import RoutineScripts.Proofs.Routine.Division
import RoutineScripts.Proofs.Routine.Quoted
import RoutineScripts.Proofs.Lexical.Writing
import RoutineScripts.Proofs.Routine.Conversion
import RoutineScripts.Proofs.Lexical.Masking
import RoutineScripts.Proofs.Marker.Identifier
import RoutineScripts.Proofs.Lexical.Parentheses
import RoutineScripts.Proofs.Bytes.Access
import RoutineScripts.Proofs.Bytes.Transition
import RoutineScripts.Proofs.Bytes.Scan
import RoutineScripts.Proofs.Bytes.Search
import RoutineScripts.Proofs.Bytes.Keyword
import RoutineScripts.Proofs.Bytes.Trim
import RoutineScripts.Proofs.Bytes.Literal
import RoutineScripts.Proofs.Bytes.Remark
import RoutineScripts.Proofs.Bytes.Definition
import RoutineScripts.Proofs.Bytes.Marker
import RoutineScripts.Proofs.Bytes.Safety
import RoutineScripts.Proofs.Encoding.Order
import RoutineScripts.Proofs.Files.Route
import RoutineScripts.Proofs.Files.Walk
import RoutineScripts.Proofs.Sync.Listing
import RoutineScripts.Proofs.Text.Ends
import RoutineScripts.Proofs.Text.Trimming
import RoutineScripts.Proofs.Marker.Carrying
import RoutineScripts.Proofs.Sync.Identity
import RoutineScripts.Proofs.Routine.Silent
