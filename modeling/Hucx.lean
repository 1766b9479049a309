import Hucx.Tag.ReassemblyTheorems
import Hucx.Failover.LaneTheorems
import Hucx.Failover.AgreementTheorems
import Hucx.Failover.AckTheorems
import Hucx.Ud.DeliveryTheorems
import Hucx.Ucs.PgtableTheorems
import Hucx.Wireup.AddressTheorems
import Hucx.Failover.CompletionTheorems
import Hucx.Ucs.PtrArrayTheorems
import Hucx.Proto.BulkTheorems
import Hucx.Proto.SelectTheorems
import Hucx.Tag.OffloadTheorems
import Hucx.Ucs.ArbiterTheorems
import Hucx.Ucs.PtrMapTheorems
import Hucx.Core.RkeyTheorems
import Hucx.Core.ExportedMemhTheorems
import Hucx.Core.AmLongTheorems
import Hucx.Core.AmDescTheorems
import Hucx.Tcp.ReplaceTheorems
import Hucx.Stream.RecvTheorems
import Hucx.Tcp.OutstandingTheorems
import Hucx.Rma.WorkerFlushTheorems
import Hucx.Sm.SdmaTheorems
import Hucx.Ucs.TimerWheelTheorems
import Hucx.Failover.PollTx
import Hucx.Failover.CreditTheorems
import Hucx.Ud.PeerTimeout
import Hucx.Ud.PendingFlag
import Hucx.Ucs.FragRuns
import Hucx.Dt.SliceTheorems
import Hucx.Core.AmTable
import Hucx.Core.RkeyDestroy
import Hucx.Sm.MmPending
import Hucx.Ucs.MemUnits
import Hucx.Ucs.MpoolSet
import Hucx.Urma.Fence
