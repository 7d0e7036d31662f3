import DeclTree.NodeId
import DeclTree.Span
import DeclTree.Payload
import DeclTree.Store.Copy
import DeclTree.Store.Equality
import DeclTree.Store.Validate
import DeclTree.Store.Edit
import DeclTree.Store.InPlace
import DeclTree.Text.LineIndex
import DeclTree.Literal.Constant
import DeclTree.Literal.Parallel
import DeclTree.CompilationUnit.Copy
import DeclTree.CompilationUnit.Walk
import DeclTree.Session.Basic
import DeclTree.Proofs.Store.Descendants
import DeclTree.Proofs.Store.Runs
import DeclTree.Proofs.Store.Validation
import DeclTree.Proofs.Store.Unfolding
import DeclTree.Proofs.Store.Refusals
import DeclTree.Proofs.CompilationUnit.Runs
import DeclTree.Proofs.Store.Mirrors
import DeclTree.Proofs.CompilationUnit.Grafting
import DeclTree.Proofs.CompilationUnit.Copies
import DeclTree.Proofs.CompilationUnit.Nesting
import DeclTree.Proofs.Store.Independence
import DeclTree.Session.Parallel
import DeclTree.Proofs.Text.LineIndex
import DeclTree.Proofs.Literal.Reading
import DeclTree.Proofs.Literal.Numbering
import DeclTree.Proofs.Literal.Interleaving
import DeclTree.Proofs.Session.Classification
import DeclTree.Proofs.Session.Reclassification
import DeclTree.Proofs.Store.Identity
import DeclTree.Proofs.Store.Legality
import DeclTree.Proofs.Session.Constants
import DeclTree.Proofs.CompilationUnit.Snapshots
import DeclTree.Proofs.Store.Ancestry
import DeclTree.Proofs.Store.FirstFault
import DeclTree.Proofs.CompilationUnit.PrunedWalks
import DeclTree.Proofs.Store.Relocation
import DeclTree.Proofs.Store.CopyAgreement
import DeclTree.Proofs.Store.Misaddressing
import DeclTree.Proofs.Store.BulkCopies
import DeclTree.Proofs.Store.Reversal
import DeclTree.Proofs.Store.Updates
import DeclTree.Proofs.CompilationUnit.HookNames
import DeclTree.Proofs.Store.DepthFirst
import DeclTree.Proofs.Text.Columns
import DeclTree.Proofs.TestCase.Constructors
import DeclTree.Proofs.TestCase.Annotations
import DeclTree.Proofs.TestCase.Registrations
import DeclTree.Proofs.Literal.Acceptance
import DeclTree.Proofs.CompilationUnit.ImportResolution
import DeclTree.Proofs.Traversals
import DeclTree.Proofs.Text.Arithmetic
