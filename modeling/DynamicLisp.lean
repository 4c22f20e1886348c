import DynamicLisp.Main
import DynamicLisp.Editor.Service
import DynamicLisp.Environment.Inspect
import DynamicLisp.Server.Basic
import DynamicLisp.Proofs.Evaluation.Frame
import DynamicLisp.Proofs.Environment.Lifetimes
import DynamicLisp.Proofs.Reader.Earliest
import DynamicLisp.Proofs.Datum.RoundTrip
import DynamicLisp.Proofs.Evaluation.History
import DynamicLisp.Proofs.Evaluation.StructOperators
import DynamicLisp.Proofs.Evaluation.StructLayout
import DynamicLisp.Proofs.Evaluation.NestedLet
import DynamicLisp.Proofs.Server.Requests
import DynamicLisp.Proofs.Evaluation.WellFormed
import DynamicLisp.Proofs.Evaluation.ReservedWords
import DynamicLisp.Proofs.Library.Lists
import DynamicLisp.Proofs.Session.Joined
import DynamicLisp.Proofs.Session.Loading
import DynamicLisp.Proofs.Editor.Diagnostics
import DynamicLisp.Proofs.Reader.Partition
import DynamicLisp.Proofs.Reader.Stream
import DynamicLisp.Proofs.Server.Pieces
import DynamicLisp.Proofs.Server.Dialogue
import DynamicLisp.Proofs.Editor.Store
import DynamicLisp.Proofs.Editor.Definitions
import DynamicLisp.Proofs.Editor.Words
import DynamicLisp.Proofs.Editor.Boundaries
import DynamicLisp.Proofs.Datum.Sameness
import DynamicLisp.Proofs.Evaluation.Application
import DynamicLisp.Proofs.Evaluation.Branches
import DynamicLisp.Proofs.Evaluation.SuperScope
import DynamicLisp.Proofs.Evaluation.NestedDefinition
import DynamicLisp.Proofs.Evaluation.StructDeclaration
import DynamicLisp.Proofs.Evaluation.Format
import DynamicLisp.Proofs.Evaluation.Quotation
import DynamicLisp.Proofs.Editor.Quotes
import DynamicLisp.Proofs.Host.Files
import DynamicLisp.Proofs.Library.Range
import DynamicLisp.Proofs.Datum.Printer
