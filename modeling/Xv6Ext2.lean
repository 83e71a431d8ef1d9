import Xv6Ext2.BmapStable
import Xv6Ext2.BufLru
import Xv6Ext2.Coherence
import Xv6Ext2.Create
import Xv6Ext2.DirEmpty
import Xv6Ext2.Grep
import Xv6Ext2.InodeRefs
import Xv6Ext2.InodeTable
import Xv6Ext2.Listing
import Xv6Ext2.LogCrash
import Xv6Ext2.Memmove
import Xv6Ext2.PipeRead
import Xv6Ext2.Proc.Kill
import Xv6Ext2.Proc.Tree
import Xv6Ext2.Proc.Wakeup
import Xv6Ext2.ScanEnds
import Xv6Ext2.Shell.Run
import Xv6Ext2.Skipelem
import Xv6Ext2.Sys.PipeFailure
import Xv6Ext2.Truncate
import Xv6Ext2.UserCopy
import Xv6Ext2.Vm.ExecFailure
import Xv6Ext2.Vm.Grow
import Xv6Ext2.Vprintf
