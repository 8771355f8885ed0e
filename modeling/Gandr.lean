import Gandr.Atf.Kickstart
import Gandr.Bios.Bytes
import Gandr.Bios.Calls
import Gandr.Bios.Cdrom
import Gandr.Bios.CdromReads
import Gandr.Bios.Fallback
import Gandr.Bios.Mmap
import Gandr.Bios.ModeList
import Gandr.Bios.Scan
import Gandr.Bios.Services
import Gandr.Bios.Sizes
import Gandr.Bios.Tables
import Gandr.Bios.Vbe
import Gandr.DeviceTree.Memory
import Gandr.DeviceTree.Mirror
import Gandr.DeviceTree.Path
import Gandr.DeviceTree.Regs
import Gandr.DeviceTree.System
import Gandr.DeviceTree.Tree
import Gandr.Eltorito.Directory
import Gandr.Eltorito.Storage
import Gandr.Fb.Accesses
import Gandr.Fb.Bounds
import Gandr.Fb.Console
import Gandr.Fb.Geometry
import Gandr.Fb.Model
import Gandr.Fb.Screen
import Gandr.Fb.Scroll
import Gandr.Fs.Iso9660
import Gandr.Ioctl.Accepted
import Gandr.Ioctl.Agreement
import Gandr.Ioctl.Dispatch
import Gandr.Ioctl.Generator
import Gandr.Lib.Access
import Gandr.Lib.Buffer
import Gandr.Lib.Cover
import Gandr.Lib.Fallible
import Gandr.Lib.LinkedTree
import Gandr.Lib.Links
import Gandr.Lib.Program
import Gandr.Lib.RedBlack
import Gandr.Lib.Run
import Gandr.Lib.Strings
import Gandr.Lib.Word
import Gandr.Mmap.AddEntry
import Gandr.Mmap.AddSpec
import Gandr.Mmap.Alike
import Gandr.Mmap.Alloc
import Gandr.Mmap.Ensures
import Gandr.Mmap.Free
import Gandr.Mmap.FreePages
import Gandr.Mmap.Fuel
import Gandr.Mmap.Jams
import Gandr.Mmap.Key
import Gandr.Mmap.Maximal
import Gandr.Mmap.MergedRuns
import Gandr.Mmap.Model
import Gandr.Mmap.Overlap
import Gandr.Mmap.Own
import Gandr.Mmap.Ownership
import Gandr.Mmap.PageTypes
import Gandr.Mmap.Redundant
import Gandr.Mmap.Refill
import Gandr.Mmap.Runs
import Gandr.Mmap.Session
import Gandr.Mmap.Settle
import Gandr.Mmap.Steps
import Gandr.Mmap.Success
import Gandr.Mmap.Tidy
import Gandr.Mmap.Top
import Gandr.Mmap.Types
import Gandr.Pxe.Boot
import Gandr.Pxe.Entry
import Gandr.Pxe.Serve
import Gandr.Pxe.Storage
import Gandr.RbTree.Clients
import Gandr.RbTree.Insert
import Gandr.RbTree.Model
import Gandr.RbTree.Remove
import Gandr.RbTree.Rotate
import Gandr.RbTree.Runs
import Gandr.RbTree.Walk
import Gandr.Stage1.A20
import Gandr.Stage1.Boot
import Gandr.Stage1.Driver
import Gandr.Stage1.Output
import Gandr.Uart.Fifo
import Gandr.Uart.Ns16c550
import Gandr.Uart.Pl011
