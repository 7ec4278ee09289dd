import RuneAsm.Text.Hex
import RuneAsm.Text.Controls
import RuneAsm.Text.Utf8
import RuneAsm.Text.Printable
import RuneAsm.Text.Quoted
import RuneAsm.Text.Integer
import RuneAsm.Text.Similar
import RuneAsm.Diagnostic
import RuneAsm.Failure
import RuneAsm.Opcode
import RuneAsm.SymbolTable
import RuneAsm.Path
import RuneAsm.Disk
import RuneAsm.Settings
import RuneAsm.Event
import RuneAsm.Token
import RuneAsm.Lexeme
import RuneAsm.Reader
import RuneAsm.MacroTable
import RuneAsm.Expander
import RuneAsm.Record
import RuneAsm.Layout
import RuneAsm.Image
import RuneAsm.Listing
import RuneAsm.Assembler
import RuneAsm.Command
import RuneAsm.Main
import RuneAsm.Proofs.Ends
import RuneAsm.Proofs.LabelTable
import RuneAsm.Proofs.Names
import RuneAsm.Proofs.Brackets
import RuneAsm.Proofs.Regular
import RuneAsm.Proofs.Reading
import RuneAsm.Proofs.Custody
import RuneAsm.Proofs.Copying
import RuneAsm.Proofs.Expansion
import RuneAsm.Proofs.Laying
import RuneAsm.Proofs.Outcomes
import RuneAsm.Proofs.Subroutines
import RuneAsm.Proofs.Renaming
import RuneAsm.Proofs.Alike
import RuneAsm.Proofs.Respacing.Reading
import RuneAsm.Proofs.Respacing.Words
import RuneAsm.Proofs.Respacing.Shapes
import RuneAsm.Proofs.Respacing.Expansion
import RuneAsm.Proofs.Respacing.Layout
import RuneAsm.Proofs.Respacing.Images
import RuneAsm.Proofs.Substitution
import RuneAsm.Proofs.Scanning
import RuneAsm.Proofs.Progress
import RuneAsm.Proofs.Reuse
import RuneAsm.Proofs.Splicing.Gathering
import RuneAsm.Proofs.Splicing.Expansion
import RuneAsm.Proofs.Splicing.Layout
import RuneAsm.Proofs.Splicing.Images
import RuneAsm.Proofs.Inputs
import RuneAsm.Proofs.Stability
import RuneAsm.Proofs.Limits
import RuneAsm.Proofs.Moments
import RuneAsm.Proofs.Companions
import RuneAsm.Proofs.OpenFiles
import RuneAsm.Proofs.Following
import RuneAsm.Proofs.Readings
import RuneAsm.Proofs.Carrying
import RuneAsm.Proofs.Parents
import RuneAsm.Proofs.Moving
import RuneAsm.Proofs.Writing
import RuneAsm.Proofs.Relocation
import RuneAsm.Proofs.StoredText
import RuneAsm.Proofs.Spelling.Images
import RuneAsm.Proofs.Emitting
import RuneAsm.Proofs.Untouched
import RuneAsm.Proofs.Cursor
import RuneAsm.Proofs.Resolution
import RuneAsm.Proofs.FixedPoint
import RuneAsm.Proofs.Repetition
import RuneAsm.Proofs.Positions
import RuneAsm.Proofs.Lexing
import RuneAsm.Proofs.Bracketing
import RuneAsm.Proofs.SharedLabels
import RuneAsm.Proofs.Lines
import RuneAsm.Proofs.Refusals
import RuneAsm.Proofs.Utf8
import RuneAsm.Proofs.SymbolFile
import RuneAsm.Proofs.Grouping
import RuneAsm.Proofs.ListingText
import RuneAsm.Proofs.Respacing.Gaps
import RuneAsm.Proofs.TableHistory
import RuneAsm.Proofs.ParentNames
import RuneAsm.Proofs.Sessions
import RuneAsm.Proofs.ReferredNames
