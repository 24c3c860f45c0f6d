import EduMpi.Ddt.ElementCountLaws
import EduMpi.Ddt.PackRuns
import EduMpi.Ddt.PaddedBounds
import EduMpi.Ompi.ContextIdRuns
import EduMpi.Opal.BitmapLaws
import EduMpi.Opal.EpochsLaws
import EduMpi.Opal.IntervalTreeLaws
import EduMpi.Opal.PointerArrayGrowth
import EduMpi.Opal.ProcTableLaws
import EduMpi.Pml.Ob1AddComm
import EduMpi.Pml.Ob1Overtake
import EduMpi.Pml.UcxCollective
import EduMpi.Pml.UcxDropped
import EduMpi.Pml.UcxOnce
import EduMpi.Pml.UcxTagLaws
import EduMpi.Pml.UcxWriters
import EduMpi.Shmem.BuddyPartition
import EduMpi.Shmem.LockExclusion
import EduMpi.Shmem.LockServer
import EduMpi.Topo.CartShiftLaws
import EduMpi.Topo.CartSubLaws
import EduMpi.Topo.DimsLaws
import EduMpi.Trace.AmtInstants
import EduMpi.Trace.SingleRingLaws
import EduMpi.Pml.Ob1Complete
import EduMpi.Pml.Ob1Partners
import EduMpi.Pml.UcxHandshake
import EduMpi.Pml.UcxSameRow
import EduMpi.Ddt.Subarray
