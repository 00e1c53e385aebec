import Xv6Lab.Lib.MaskAlign
import Xv6Lab.Lib.Replay
import Xv6Lab.Lib.ListSeg
import Xv6Lab.Dalloc.Code
import Xv6Lab.Dalloc.BlockList
import Xv6Lab.Dalloc.HeapInvariant
import Xv6Lab.Dalloc.Runs
import Xv6Lab.Dalloc.Callers
import Xv6Lab.Lib.WriteList
import Xv6Lab.Log.Code
import Xv6Lab.Log.Crash
import Xv6Lab.Log.Run
import Xv6Lab.Lib.Interleave
import Xv6Lab.Log.Space
import Xv6Lab.FS.Block
import Xv6Lab.FS.Bmap
import Xv6Lab.FS.ReadWrite
import Xv6Lab.FS.Mkfs
import Xv6Lab.FS.Content
import Xv6Lab.FS.Ops
import Xv6Lab.FS.Alloc
import Xv6Lab.FS.Ownership
import Xv6Lab.FS.MkfsOwned
import Xv6Lab.FS.Safety
import Xv6Lab.FS.Holes
import Xv6Lab.Dalloc.Frame
import Xv6Lab.Kalloc.Code
import Xv6Lab.Kalloc.Partition
import Xv6Lab.Pipe.Code
import Xv6Lab.Pipe.Fifo
import Xv6Lab.Lib.DList
import Xv6Lab.Bio.Code
import Xv6Lab.Bio.Cache
import Xv6Lab.Proc.Code
import Xv6Lab.Proc.Table
import Xv6Lab.File.Code
import Xv6Lab.File.Ledger
import Xv6Lab.File.Refs
import Xv6Lab.File.Safety
import Xv6Lab.Dalloc.Algebra
import Xv6Lab.Dalloc.Limits
import Xv6Lab.FS.Path
import Xv6Lab.Kalloc.Memory
import Xv6Lab.Vm.Code
import Xv6Lab.Vm.Copy
import Xv6Lab.Vm.Pte
import Xv6Lab.Vm.Table
import Xv6Lab.Vm.Walk
import Xv6Lab.Vm.Map
import Xv6Lab.Vm.Unmap
import Xv6Lab.Vm.Space
import Xv6Lab.Vm.Grow
import Xv6Lab.Vm.Free
import Xv6Lab.Vm.Fork
import Xv6Lab.Str.Memmove
import Xv6Lab.Dalloc.Coalesce
import Xv6Lab.Proc.Pid
import Xv6Lab.User.Grep
import Xv6Lab.Umalloc.Code
import Xv6Lab.Umalloc.Limits
import Xv6Lab.Umalloc.Heap
import Xv6Lab.Umalloc.Runs
import Xv6Lab.Lib.RingIndex
import Xv6Lab.Console.Code
import Xv6Lab.Console.Spec
import Xv6Lab.Console.Ring
import Xv6Lab.Console.Runs
import Xv6Lab.Printf.Code
import Xv6Lab.Printf.Format
