import MagiskNative.Sepolicy.Separators
import MagiskNative.Sepolicy.PrintRules
import MagiskNative.Compress.RawChunker
import MagiskNative.Compress.Faults
import MagiskNative.Cpio.Merge
import MagiskNative.Cpio.StoredNames
import MagiskNative.Cpio.Bounds
import MagiskNative.Boot.HeaderTrip
import MagiskNative.Boot.RawTail
import MagiskNative.Daemon.ThreadPool
import MagiskNative.Daemon.SuCache
import MagiskNative.Daemon.DenyList
import MagiskNative.Daemon.Announced
import MagiskNative.Daemon.SigningBlock
import MagiskNative.Resetprop.Listing
import MagiskNative.Sepolicy.Vectors
import MagiskNative.Base.MoveInto
import MagiskNative.Base.CStr
import MagiskNative.Cpio.Extract
import MagiskNative.Boot.HexPatch
import MagiskNative.Boot.Fstab
import MagiskNative.Cpio.Commands
import MagiskNative.Boot.NewTail
import MagiskNative.Boot.Locators
import MagiskNative.Boot.ParseImpl
import MagiskNative.Boot.AvbRoom
import MagiskNative.Boot.AvbFooter
import MagiskNative.Boot.BlockLayout
import MagiskNative.Boot.LegacyBlocks
import MagiskNative.Boot.Dhtb
import MagiskNative.Boot.Codecs
import MagiskNative.Daemon.Modules
