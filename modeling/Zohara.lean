import Zohara.KernelMapping
import Zohara.CacheRuns
import Zohara.VfsShape
import Zohara.ZohfsGaps
import Zohara.FatMap
import Zohara.DeferredWork
import Zohara.Keyboard
import Zohara.ArgumentBlock
import Zohara.FatLongNames
import Zohara.FatNames
import Zohara.FatTermination
import Zohara.ElfGrammar
import Zohara.ProcessFailure
import Zohara.TableWalks
import Zohara.ExecveFailure
import Zohara.RoundRobin
import Zohara.SleepTimes
import Zohara.WakeUps
import Zohara.UserStrings
import Zohara.PathWalk
import Zohara.ReadDelivery
import Zohara.ZohfsFreeCount
import Zohara.FatNewClusters
import Zohara.FatMount
import Zohara.FatReserved
import Zohara.HeapPeak
import Zohara.KernelLog
import Zohara.Ext2
import Zohara.AcpiTables
import Zohara.Gpt
