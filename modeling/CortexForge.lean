import CortexForge.Theory.ActiveTable
import CortexForge.Theory.Asids
import CortexForge.Theory.Conservation
import CortexForge.Theory.Crc
import CortexForge.Theory.Dhcp
import CortexForge.Theory.Duplicates
import CortexForge.Theory.ElfSafety
import CortexForge.Theory.Fat32Copies
import CortexForge.Theory.Fat32Images
import CortexForge.Theory.ForkReturn
import CortexForge.Theory.HostFramer
import CortexForge.Theory.Linking
import CortexForge.Theory.NodeCache
import CortexForge.Theory.Pci
import CortexForge.Theory.Resync
import CortexForge.Theory.RtChain
import CortexForge.Theory.RtWaits
import CortexForge.Theory.SignalFp
import CortexForge.Theory.StackPages
import CortexForge.Theory.TableMap
import CortexForge.Theory.LoadCleanup
import CortexForge.Theory.Timer
import CortexForge.Theory.Uart1
import CortexForge.Theory.UsedRing
import CortexForge.Theory.Alarm
import CortexForge.Theory.BlkSpace
import CortexForge.Theory.Strings
