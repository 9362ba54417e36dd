import DesignTree.Span
import DesignTree.Name.Handle
import DesignTree.NodeId.Supply
import DesignTree.Source
import DesignTree.Index.InPlace
import DesignTree.Index.Walk
import DesignTree.Elaboration.Scope
import DesignTree.Design.Elaborate
import DesignTree.Design.Renumber
import DesignTree.Nesting
import DesignTree.Proofs.Audit
import DesignTree.Proofs.Tree
import DesignTree.Proofs.Grouping
import DesignTree.Proofs.Grouping.Partition
import DesignTree.Proofs.Layout.Numbered
import DesignTree.Proofs.Layout.Sourced
import DesignTree.Proofs.Index
import DesignTree.Proofs.Index.InPlace
import DesignTree.Proofs.Index.WriteOnce
import DesignTree.Proofs.Faults
import DesignTree.Proofs.Accounting
import DesignTree.Proofs.Reachable
import DesignTree.Proofs.Faithful
import DesignTree.Proofs.Regions
import DesignTree.Proofs.Ports.Ansi
import DesignTree.Proofs.Ports.Referred
import DesignTree.Proofs.Iterations
import DesignTree.Proofs.Untaken
import DesignTree.Proofs.Renaming.Design
import DesignTree.Proofs.Renumbered
import DesignTree.Proofs.Names.Interning
import DesignTree.Proofs.Assembly.Accepted
import DesignTree.Proofs.Walk.Designs
import DesignTree.Proofs.Assembly.InTurn
import DesignTree.Proofs.Assembly.Offer
import DesignTree.Proofs.Assembly.Session
import DesignTree.Proofs.Refusal
import DesignTree.Proofs.Concurrent.Dealing
import DesignTree.Proofs.Concurrent.Agreement
import DesignTree.Proofs.Concurrent.Apart
import DesignTree.Proofs.Corruption
import DesignTree.Proofs.Start
import DesignTree.Proofs.Exhaustion
import DesignTree.Proofs.Subtrees
import DesignTree.Proofs.Layout.Ordered
import DesignTree.Proofs.SourceOrder
import DesignTree.Proofs.Assembly.Compatible
import DesignTree.Proofs.Ports.Explicit
import DesignTree.Proofs.Names.Numbering
import DesignTree.Proofs.Names.Size
import DesignTree.Proofs.Span
import DesignTree.Proofs.Span.Hull
import DesignTree.Proofs.Counter
