import PropertyIndex.Config.Document
import PropertyIndex.Index.Query
import PropertyIndex.Node.Outline
import PropertyIndex.Proofs.Chain.Integrity
import PropertyIndex.Proofs.Chain.Traversal
import PropertyIndex.Proofs.Index.Ledger
import PropertyIndex.Proofs.Index.Maintained
import PropertyIndex.Proofs.Match.Gathered
import PropertyIndex.Workspace
import PropertyIndex.Proofs.Index.Unordered
import PropertyIndex.Proofs.Index.Mirrored
import PropertyIndex.Proofs.Index.Postings
import PropertyIndex.Proofs.Index.Refused
import PropertyIndex.Proofs.Index.Lookups
import PropertyIndex.Proofs.Key.Passes
import PropertyIndex.Proofs.Config.Spellings
import PropertyIndex.Proofs.Index.Insertion
import PropertyIndex.Proofs.Index.Spliced
import PropertyIndex.Proofs.Workspace.Sharing
import PropertyIndex.Proofs.Index.Ranges
import PropertyIndex.Proofs.Index.Removed
import PropertyIndex.Proofs.Index.Updates
import PropertyIndex.Proofs.Key.Canonical
import PropertyIndex.Proofs.Index.Answers
import PropertyIndex.Proofs.Index.Counted
import PropertyIndex.Proofs.Workspace.Copied
import PropertyIndex.Proofs.Chain.Previous
import PropertyIndex.Proofs.Match.Counts
import PropertyIndex.Proofs.Match.InPlace
import PropertyIndex.Proofs.Path.Slashes
