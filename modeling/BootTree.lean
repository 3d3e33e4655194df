import BootTree.Bytes
import BootTree.Text
import BootTree.Log
import BootTree.Value.Error
import BootTree.Value.Cells
import BootTree.Value.StringList
import BootTree.Blob.Header
import BootTree.Blob.Reservation
import BootTree.Blob.Strings
import BootTree.Blob.Token
import BootTree.Tree.Error
import BootTree.Tree.Basic
import BootTree.Tree.Walk
import BootTree.Tree.Property
import BootTree.Tree.Path
import BootTree.Tree.Phandle
import BootTree.Tree.Edit
import BootTree.Image.Basic
import BootTree.Image.Edit
import BootTree.Document.Basic
import BootTree.Document.Grammar
import BootTree.Document.Place
import BootTree.Partition.Resource
import BootTree.Partition.Controller
import BootTree.KeyService.Ipc
import BootTree.KeyService.Message
import BootTree.KeyService.Identity
import BootTree.Event
import BootTree.Plan
import BootTree.Fixup.Basic
import BootTree.Fixup.Growth
import BootTree.Edma.ChannelMap
import BootTree.Edma.Mask
import BootTree.Edma.Removal
import BootTree.Edma.Reconcile
import BootTree.PowerDomain.Demand
import BootTree.PowerDomain.Restrict
import BootTree.Masters.Plan
import BootTree.Masters.Bind
import BootTree.Setup.Error
import BootTree.Setup.Seed
import BootTree.Setup.SecureOs
import BootTree.Setup.Run
import BootTree.Proofs.Blob.Tokens
import BootTree.Proofs.Tree.Place
import BootTree.Proofs.Tree.Reading
import BootTree.Proofs.Blob.Strings
import BootTree.Proofs.Tree.Editing
import BootTree.Proofs.Document.Unique
import BootTree.Proofs.Document.Written
import BootTree.Proofs.Document.Overlay
import BootTree.Proofs.Tree.SetValue
import BootTree.Proofs.Blob.Blocks
import BootTree.Proofs.Blob.Header
import BootTree.Proofs.Image.Layout
import BootTree.Proofs.Image.Moving
import BootTree.Proofs.Image.Editing
import BootTree.Proofs.Image.Measured
import BootTree.Proofs.Image.Reached
import BootTree.Proofs.Image.Recorded
import BootTree.Proofs.Image.Accepted
import BootTree.Proofs.Image.Atomic
import BootTree.Proofs.Tree.Walking
import BootTree.Proofs.Tree.Paths
import BootTree.Proofs.Tree.Visits
import BootTree.Proofs.Document.Queries
import BootTree.Proofs.Tree.Typed
import BootTree.Proofs.Document.Malformed
import BootTree.Proofs.Fixup.Growth
import BootTree.Proofs.Image.Growing
import BootTree.Proofs.Fixup.Refusal
import BootTree.Proofs.Fixup.Keeping
import BootTree.Proofs.Edma.Removal
import BootTree.Proofs.Edma.Compaction
import BootTree.Proofs.Edma.Searching
import BootTree.Proofs.Value.StringList
import BootTree.Proofs.Edma.Settle
import BootTree.Proofs.Edma.Masking
import BootTree.Proofs.Edma.Dropping
import BootTree.Proofs.Edma.Lockstep
import BootTree.Proofs.Edma.Trimming
import BootTree.Proofs.Edma.Frame
import BootTree.Proofs.Edma.Idle
import BootTree.Proofs.Document.Kept
import BootTree.Proofs.Tree.AddChild
import BootTree.Proofs.Tree.Iteration
import BootTree.Proofs.Tree.Inserting
import BootTree.Proofs.PowerDomain.Dependence
import BootTree.Proofs.PowerDomain.Demand
import BootTree.Proofs.PowerDomain.Warnings
import BootTree.Proofs.PowerDomain.Restrict
import BootTree.Proofs.PowerDomain.Repeat
import BootTree.Proofs.PowerDomain.Legacy
import BootTree.Proofs.PowerDomain.Monotone
import BootTree.Proofs.PowerDomain.Generic
import BootTree.Proofs.PowerDomain.Outcome
import BootTree.Proofs.Masters.Resources
import BootTree.Proofs.KeyService.Fetching
import BootTree.Proofs.KeyService.Storing
import BootTree.Proofs.KeyService.Leaving
import BootTree.Proofs.Setup.Confined
import BootTree.Proofs.Fixup.Leading
import BootTree.Proofs.Setup.Preserved
import BootTree.Proofs.Bounds.Checked
import BootTree.Proofs.Bounds.Walks
import BootTree.Proofs.Bounds.Queries
import BootTree.Proofs.Bounds.Entries
import BootTree.Proofs.Document.References
import BootTree.Proofs.Bounds.Edits
import BootTree.Proofs.Bounds.Framed
import BootTree.Proofs.Bounds.History
import BootTree.Proofs.Masters.Bindings
import BootTree.Proofs.PowerDomain.Course
import BootTree.Proofs.Tree.Replacing
import BootTree.Proofs.Edma.Whole
import BootTree.Proofs.PowerDomain.Chains
import BootTree.Proofs.Document.Searches
import BootTree.Proofs.Document.Children
import BootTree.Proofs.Document.Gaining
import BootTree.Proofs.Setup.Notices
import BootTree.Proofs.Image.Naming
