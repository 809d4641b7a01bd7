import PureUnix.Ext2.AllocContract
import PureUnix.Tools.ImageAgreement
import PureUnix.Ext2.DirContract
import PureUnix.Fat16.Mount
import PureUnix.Kernel.DriverAppend
import PureUnix.Kernel.Frames
import PureUnix.Kernel.Sched
import PureUnix.Fat16.Overwrite
import PureUnix.Ext2.DirSafe
import PureUnix.Ext2.Booking
import PureUnix.Ext2.CacheFaults
import PureUnix.Ext2.CacheOrder
import PureUnix.Ext2.InodeTable
import PureUnix.Kernel.ElfBounds
import PureUnix.Kernel.Offsets
import PureUnix.Ext2.Symlinks
import PureUnix.Ext2.RenameAtomic
import PureUnix.Ext2.GraphRuns
import PureUnix.Editor.Undo
import PureUnix.Vfs.Mounts
import PureUnix.Shell.Execute
import PureUnix.Libc.Strtol
import PureUnix.Libc.String
import PureUnix.Shell.History
import PureUnix.Drivers.Keyboard
import PureUnix.Kernel.Calendar
