import OsZ.Base.Word
import OsZ.Base.Table
import OsZ.Base.Run
import OsZ.Base.Recurse
import OsZ.Base.Regions
import OsZ.Base.Bitmap
import OsZ.Base.Ram
import OsZ.Base.DList
import OsZ.Base.SList
import OsZ.Base.Ring
import OsZ.Base.Asm
import OsZ.Base.Radix
import OsZ.Base.Overlay
import OsZ.Base.Bytes
import OsZ.Base.Cstr
import OsZ.Base.Store
import OsZ.Base.Crc
import OsZ.Base.CrcBits
import OsZ.Bzt.Model
import OsZ.Bzt.Spec
import OsZ.Bzt.Blocks
import OsZ.Bzt.Calls
import OsZ.Bzt.Empty
import OsZ.Bzt.Contents
import OsZ.Bzt.Fresh
import OsZ.Bzt.Failed
import OsZ.Bzt.Balance
import OsZ.Pmm.Model
import OsZ.Fs.Model
import OsZ.Fs.Read
import OsZ.Fs.Write
import OsZ.Fs.Flush
import OsZ.Fs.Cache
import OsZ.Fs.Chains
import OsZ.Fs.Freeing
import OsZ.Fs.Fstab
import OsZ.Fs.CacheRuns
import OsZ.Fs.CacheFlush
import OsZ.Fs.CacheSync
import OsZ.Fs.Device
import OsZ.Fs.Files
import OsZ.Fs.Slots
import OsZ.Fs.Release
import OsZ.Fs.Exclusive
import OsZ.Fs.Dup
import OsZ.Fs.Context
import OsZ.Fs.Chdir
import OsZ.Fsz.Layout
import OsZ.Fsz.Read
import OsZ.Fsz.Locate
import OsZ.Fs.Path
import OsZ.Fs.Devdir
import OsZ.Fs.Canon
import OsZ.Fs.Suffix
import OsZ.Fs.Bounds
import OsZ.Fs.Lookup
import OsZ.Fs.Mounts
import OsZ.Fs.Umount
import OsZ.Fs.Automount
import OsZ.Fsz.Tree
import OsZ.Fsz.Updir
import OsZ.Fsz.Ends
import OsZ.Fs.Restart
import OsZ.Fsz.Mkfs
import OsZ.Fsz.Super
import OsZ.Fsz.Detect
import OsZ.Fsz.Alloc
import OsZ.Pmm.Spec
import OsZ.Pmm.Safety
import OsZ.Pmm.Conserve
import OsZ.Pmm.Capacity
import OsZ.Pmm.Init
import OsZ.Pmm.Areas
import OsZ.Elf.Link
import OsZ.Elf.Linked
import OsZ.Elf.Dispatch
import OsZ.Sched.Model
import OsZ.Sched.Spec
import OsZ.Sched.Queues
import OsZ.Sched.Shares
import OsZ.Sched.Syscall
import OsZ.Sched.Alarm
import OsZ.Sched.Timer
import OsZ.Sched.Clock
import OsZ.Msg.Queue
import OsZ.Msg.Args
import OsZ.Msg.Buffer
import OsZ.Msg.Wakeup
import OsZ.Security.Acl
import OsZ.Security.Dest
import OsZ.Lib.Bsearch
import OsZ.Lib.Date
import OsZ.Lib.Number
import OsZ.Lib.Digits
import OsZ.Fs.Fsck
import OsZ.Fsz.Disk
import OsZ.Fsz.Link
import OsZ.Bzt.Success
import OsZ.Lib.Copy
import OsZ.Lib.Compare
import OsZ.Lib.Casecmp
import OsZ.Fs.PathStack
import OsZ.Bzt.Quantum
