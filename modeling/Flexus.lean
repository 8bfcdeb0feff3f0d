import Flexus.CMPCache.Announcements
import Flexus.CMPCache.ArrayImport
import Flexus.CMPCache.BackInvalidations
import Flexus.CMPCache.EvictScans
import Flexus.CMPCache.Leaks
import Flexus.CMPCache.Stalls
import Flexus.Cache.Arrivals
import Flexus.Cache.BackSideOrder
import Flexus.Cache.CheckpointOrder
import Flexus.Common.DoubleWord
import Flexus.Common.HistoryRecovery
import Flexus.Common.PrimeTable
import Flexus.DRAMController.Replies
import Flexus.Decoder.AnnulledTransfers
import Flexus.Decoder.BranchFeedback
import Flexus.Decoder.Division
import Flexus.Decoder.Replay
import Flexus.Decoder.TrapOnCondition
import Flexus.FastCMPCache.Dirty
import Flexus.FastCMPCache.TaglessCheckpoint
import Flexus.FastCache.Container
import Flexus.FastCache.RegionSkew
import Flexus.FastCache.Victims
import Flexus.Mmu.TsbPointers
import Flexus.NetShim.Switch
import Flexus.Stat.Log2Histogram
import Flexus.UArch.AssignedRegisters
import Flexus.UArch.Invalidation
import Flexus.UArch.MissAborts
import Flexus.UArch.MmuLeaks
import Flexus.UArch.Privacy
import Flexus.UArch.Restoring
import Flexus.UArch.Rollback
import Flexus.UArch.Traps
import Flexus.UArch.WindowRenaming
import Flexus.UFetch.Evictions
