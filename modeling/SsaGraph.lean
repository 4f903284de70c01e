import SsaGraph.Graph.Folding
import SsaGraph.Proofs.Pages
import SsaGraph.Proofs.Preconditions
import SsaGraph.Proofs.TypeKeeping
import SsaGraph.Proofs.TypeText
import SsaGraph.Session
import SsaGraph.Snapshot
import SsaGraph.Proofs.Handles
import SsaGraph.Proofs.Folding
import SsaGraph.Proofs.Limits
import SsaGraph.Proofs.Relabelling
import SsaGraph.Proofs.SlotLaws
import SsaGraph.Proofs.Reattachment
import SsaGraph.Proofs.Removal
import SsaGraph.Proofs.Reinsertion
import SsaGraph.Proofs.Arithmetic
import SsaGraph.Proofs.ElementPointers
import SsaGraph.Proofs.PhiEntries
import SsaGraph.Proofs.ListOrder
import SsaGraph.Proofs.NameSearch
import SsaGraph.Proofs.PrintingAfterRemoval
import SsaGraph.Proofs.CleanPhis
