import ScriptOutline.Diagnostic.Callout
import ScriptOutline.Main
import ScriptOutline.Text.Lines
import ScriptOutline.Proofs.Semicolons
import ScriptOutline.Proofs.LoopHeader
import ScriptOutline.Proofs.Coverage
import ScriptOutline.Proofs.Gaps
import ScriptOutline.Proofs.Scanning
import ScriptOutline.Proofs.Position
import ScriptOutline.Proofs.Grouping
import ScriptOutline.Proofs.Truncation
import ScriptOutline.Proofs.Agreement
import ScriptOutline.Proofs.Located
import ScriptOutline.Proofs.Shape
import ScriptOutline.Proofs.Termination
import ScriptOutline.Proofs.Nesting
import ScriptOutline.Proofs.Kept
import ScriptOutline.Proofs.Warnings
import ScriptOutline.Proofs.Numbering
import ScriptOutline.Proofs.Occurrence
import ScriptOutline.Proofs.Resolution
import ScriptOutline.Proofs.Declarations
import ScriptOutline.Proofs.Hoisting
import ScriptOutline.Proofs.Tails
import ScriptOutline.Proofs.Comments
import ScriptOutline.Proofs.ScopeNest
import ScriptOutline.Proofs.FirstLine
import ScriptOutline.Proofs.LineEndings
import ScriptOutline.Proofs.Brackets
import ScriptOutline.Proofs.Failing
import ScriptOutline.Proofs.HandOver
import ScriptOutline.Proofs.PrintedComments
import ScriptOutline.Proofs.WarningOrder
import ScriptOutline.Proofs.Reemitting
import ScriptOutline.Proofs.HoistedForm
import ScriptOutline.Proofs.Ascent
import ScriptOutline.Proofs.RecordOrder
import ScriptOutline.Proofs.SharedNames
import ScriptOutline.Proofs.ScriptsBelow
import ScriptOutline.Proofs.Substitution
import ScriptOutline.Proofs.LineTable
import ScriptOutline.Proofs.Capacity
import ScriptOutline.Proofs.ByteGap
import ScriptOutline.Proofs.LineBreaks
import ScriptOutline.Proofs.Held
import ScriptOutline.Proofs.Reindenting
import ScriptOutline.Proofs.Indentation
