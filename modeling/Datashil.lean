import Datashil.Proofs.Checksum
import Datashil.Proofs.Cuts
import Datashil.Proofs.DatabaseFile
import Datashil.Proofs.DoublyLinked
import Datashil.Proofs.FailedRequests
import Datashil.Proofs.FiniteMap
import Datashil.Proofs.InternalSurgery
import Datashil.Proofs.LeafOperations
import Datashil.Proofs.OverflowChains
import Datashil.Proofs.SlotSearch
import Datashil.Proofs.SplitPartition
import Datashil.Proofs.ThreeTuples
import Datashil.Proofs.Transcripts
import Datashil.Proofs.UsedSpace
