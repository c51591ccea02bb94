import PhraseTree.Diagnostic.Message
import PhraseTree.Diagnostic.Record
import PhraseTree.Grammar.Build
import PhraseTree.Proofs.Run.Completeness
import PhraseTree.Proofs.Run.Conservation
import PhraseTree.Proofs.Run.Freezing
import PhraseTree.Proofs.Run.Refusal
import PhraseTree.Proofs.Run.Segmentation
import PhraseTree.Proofs.Run.Size
import PhraseTree.Proofs.Run.Spacing
import PhraseTree.Proofs.Tree.Acceptance
import PhraseTree.Session
import PhraseTree.Proofs.Grammar.Building
import PhraseTree.Proofs.Run.Reporting
import PhraseTree.Proofs.Run.Unknown
import PhraseTree.Proofs.Run.Configuration
import PhraseTree.Proofs.Tree.Pruning
import PhraseTree.Proofs.Grammar.Comments
import PhraseTree.Proofs.Run.Lockstep
import PhraseTree.Proofs.Tree.Comments
import PhraseTree.Proofs.Run.Comments
import PhraseTree.Proofs.Run.Transparency
import PhraseTree.Proofs.Grammar.Reordering
import PhraseTree.Proofs.Tree.Relabelling
import PhraseTree.Proofs.Run.Relabelling
import PhraseTree.Proofs.Run.OpenText
import PhraseTree.Proofs.Run.Unclosed
import PhraseTree.Proofs.Run.Separators
import PhraseTree.Proofs.Run.Diagnosis
import PhraseTree.Proofs.Run.Expectation
import PhraseTree.Proofs.Capture.Stretch
import PhraseTree.Proofs.Tree.Layout
import PhraseTree.Proofs.Tree.Laying
import PhraseTree.Proofs.Run.Layout
import PhraseTree.Proofs.Capture.Parallel
import PhraseTree.Proofs.Run.Rereading
import PhraseTree.Proofs.Run.Shortest
import PhraseTree.Proofs.Tree.DirectText
import PhraseTree.Proofs.Run.DirectText
import PhraseTree.Proofs.Tree.Sequence
import PhraseTree.Proofs.Capture.Modifiers
import PhraseTree.Proofs.Grammar.Expected
import PhraseTree.Proofs.Run.Accounting
import PhraseTree.Proofs.Text.Advance
import PhraseTree.Proofs.Diagnostic.Storage
