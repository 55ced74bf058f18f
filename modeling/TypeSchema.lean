import TypeSchema.Main
import TypeSchema.Proofs.Closure
import TypeSchema.Proofs.Namespaces
import TypeSchema.Proofs.RoundTrip
import TypeSchema.Schema.Equality
import TypeSchema.Syntax.Format
import TypeSchema.Proofs.FileSpelling
import TypeSchema.Proofs.Literals
import TypeSchema.Proofs.Reads
import TypeSchema.Proofs.TypeReading
import TypeSchema.Proofs.Parallel
import TypeSchema.Proofs.Refusals
import TypeSchema.Proofs.Cycles
import TypeSchema.Proofs.Inlining
import TypeSchema.Proofs.Titles
import TypeSchema.Proofs.ValueEquality
import TypeSchema.Proofs.BracketReading
import TypeSchema.Proofs.FileReading
import TypeSchema.Proofs.PrintedDocuments
import TypeSchema.Proofs.DeclarationOrder
import TypeSchema.Proofs.Independence
import TypeSchema.Proofs.Termination
import TypeSchema.Proofs.Hoisting
import TypeSchema.Proofs.Renaming
import TypeSchema.Proofs.Stripping
import TypeSchema.Proofs.Agreement
import TypeSchema.Proofs.StrippedFiles
import TypeSchema.Proofs.Fields
import TypeSchema.Proofs.StoredForm
import TypeSchema.Proofs.Documentation
import TypeSchema.Proofs.Encodable
import TypeSchema.Proofs.Outlines
import TypeSchema.Proofs.CommentSafety
import TypeSchema.Proofs.CommentLosses
import TypeSchema.Proofs.Places
import TypeSchema.Proofs.Unwritable
import TypeSchema.Proofs.MemberComments
import TypeSchema.Proofs.ScopedDecoding
import TypeSchema.Proofs.Quoting
import TypeSchema.Proofs.StringLiterals
import TypeSchema.Proofs.IntegerLiterals
import TypeSchema.Proofs.StructuralEquality
import TypeSchema.Proofs.PropertyOrder
import TypeSchema.Proofs.TagContent
import TypeSchema.Proofs.ExportedFiles
import TypeSchema.Proofs.SoleDeclarations
import TypeSchema.Proofs.Positions
import TypeSchema.Proofs.MergedAnnotations
