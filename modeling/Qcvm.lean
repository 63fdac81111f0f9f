import Qcvm.Lib.Arr
import Qcvm.Lib.Prog
import Qcvm.Num
import Qcvm.Opcode
import Qcvm.Error
import Qcvm.Progs.Load
import Qcvm.Vm.Heap
import Qcvm.Vm.Strings
import Qcvm.Vm.Memory
import Qcvm.Vm.Core
import Qcvm.Interp.View
import Qcvm.Interp.Access
import Qcvm.Interp.Micro
import Qcvm.Interp.Statement
import Qcvm.Interp.Run
import Qcvm.Vm.Multiprogs
import Qcvm.Vm.Host
import Qcvm.Vm.Calls
import Qcvm.Vm.Layout
import Qcvm.Interp.FastPath
import Qcvm.Interp.Moves
import Qcvm.Progs.Sound
import Qcvm.Progs.Assemble
import Qcvm.Interp.Placed
import Qcvm.Interp.Alike
import Qcvm.Vm.Quiet
import Qcvm.Vm.Rules
import Qcvm.Vm.Linked
import Qcvm.Vm.StringTable
import Qcvm.Vm.Collections
import Qcvm.Vm.Boot
import Qcvm.Vm.Partition
import Qcvm.Vm.Words
import Qcvm.Vm.Blocks
import Qcvm.Vm.Relocate
import Qcvm.Vm.Unify
import Qcvm.Vm.Switch
import Qcvm.Vm.Refuse
import Qcvm.Vm.Wake
import Qcvm.Vm.Running
import Qcvm.Interp.Targets
import Qcvm.Vm.Operands
import Qcvm.Interp.Depth
import Qcvm.Vm.Restore
import Qcvm.Vm.Resume
import Qcvm.Vm.LocalStack
import Qcvm.Vm.Allocator
import Qcvm.Vm.Bounded
import Qcvm.Vm.Entities
import Qcvm.Interp.PointerMemory
import Qcvm.Lib.Flow
import Qcvm.Lib.Scan
import Qcvm.Lib.Slots
import Qcvm.Stdlib.Tokenize
import Qcvm.Stdlib.Coverage
import Qcvm.Stdlib.Containers
import Qcvm.Stdlib.Builtins
import Qcvm.Stdlib.Accounting
import Qcvm.Stdlib.HashTable
import Qcvm.Stdlib.Json
import Qcvm.Vm.Unwind
import Qcvm.Lib.Overlap
import Qcvm.Stdlib.Search
import Qcvm.Stdlib.Wildcard
import Qcvm.Stdlib.Charset
import Qcvm.Stdlib.Utf8
import Qcvm.Lib.Cuts
import Qcvm.Stdlib.Offsets
import Qcvm.Stdlib.Substring
import Qcvm.Stdlib.Case
import Qcvm.Stdlib.Separators
import Qcvm.Stdlib.Quote
import Qcvm.Lib.Loop
import Qcvm.Stdlib.Info
import Qcvm.Stdlib.InfoMap
import Qcvm.Stdlib.InfoRoom
import Qcvm.Lib.Rose
import Qcvm.Stdlib.JsonLayout
import Qcvm.Stdlib.JsonWriter
import Qcvm.Stdlib.JsonWalk
import Qcvm.Vm.ThreadLimits
import Qcvm.Interp.Warned
import Qcvm.Vm.Warnings
import Qcvm.Stdlib.Base64
import Qcvm.Stdlib.Digits
import Qcvm.Stdlib.Uri
import Qcvm.Stdlib.AltStr
import Qcvm.Stdlib.Strtol
import Qcvm.Lib.Gregorian
import Qcvm.Stdlib.Calendar
import Qcvm.Vm.Registry
import Qcvm.Stdlib.Chains
import Qcvm.Stdlib.Format
import Qcvm.Lib.Binary
import Qcvm.Binary64
import Qcvm.Stdlib.HexFloat
import Qcvm.Progs.Formats
import Qcvm.Lib.Bitfield
import Qcvm.Interp.Bitfield
import Qcvm.Progs.Names
import Qcvm.Interp.Spent
import Qcvm.Vm.Chunks
import Qcvm.Vm.Spots
import Qcvm.Vm.Aims
import Qcvm.Vm.Checked
import Qcvm.Interp.Views
import Qcvm.Vm.Windows
import Qcvm.Vm.Traced
import Qcvm.Lib.Decimal
import Qcvm.Stdlib.FloatText
import Qcvm.Stdlib.Sprintf
import Qcvm.Stdlib.Directives
import Qcvm.Stdlib.Printed
import Qcvm.Stdlib.Strtod
import Qcvm.Stdlib.FloatRead
import Qcvm.Lib.Store
import Qcvm.Stdlib.MemoryBlocks
import Qcvm.Stdlib.MemoryBuiltins
import Qcvm.Lib.Visits
import Qcvm.Stdlib.Searches
import Qcvm.Stdlib.Compare
import Qcvm.Stdlib.Joins
import Qcvm.Lib.Fails
import Qcvm.Interp.Faults
import Qcvm.Vm.Faults
