import ParaNut.Lsu.Refinement
import ParaNut.SysC.Ifu
import ParaNut.Memu.WritePort
import ParaNut.Memu.ReadPort
import ParaNut.Memu.BusIf
import ParaNut.Memu.LineLock
import ParaNut.Memu.TagWrites
import ParaNut.Memu.Uncached
import ParaNut.Exu.CacheControl
import ParaNut.Sw.Sync
import ParaNut.Sw.ParallelSort
import ParaNut.Memu.Exclusion
import ParaNut.Memu.BankSelect
import ParaNut.SysC.Arbiter
import ParaNut.SysC.LsuAgreement
import ParaNut.Exu.Mexu
import ParaNut.Exu.Pipeline
import ParaNut.Cpu.Ports
import ParaNut.SysC.BankPorts
import ParaNut.SysC.Misaligned
import ParaNut.Lsu.Misaligned
import ParaNut.Lsu.Simple
import ParaNut.Lib.Ram
import ParaNut.Memu.Banks
import ParaNut.Lib.Adder
import ParaNut.Lib.Handshake
import ParaNut.Lib.Recency
import ParaNut.Exu.AddSub
import ParaNut.Exu.Shifter
import ParaNut.Exu.Multiplier
import ParaNut.Memu.Lru
import ParaNut.SysC.Alu
import ParaNut.SysC.Exu
import ParaNut.SysC.Decode
import ParaNut.SysC.AluAgreement
import ParaNut.SysC.TagRam
import ParaNut.SysC.Exceptions
import ParaNut.Memu.Replace
import ParaNut.Memu.Victim
import ParaNut.Memu.LineFill
import ParaNut.Memu.Replacement
import ParaNut.Lib.Slice
import ParaNut.Memu.TagEntry
import ParaNut.Memu.AddressParts
import ParaNut.SysC.Address
import ParaNut.SysC.Memory
import ParaNut.Lib.Writes
import ParaNut.SysC.ElfLoader
import ParaNut.Exu.Histogram
import ParaNut.Lib.Process
import ParaNut.SysC.Interconnect
import ParaNut.Cpu.Link
import ParaNut.Lib.Attempt
import ParaNut.Memu.Conditional
import ParaNut.SysC.WritePort
import ParaNut.SysC.Conditional
import ParaNut.Lib.LinkRegister
import ParaNut.Memu.Linked
import ParaNut.SysC.Linked
import ParaNut.Memu.OneWay
import ParaNut.Memu.CachedOnly
import ParaNut.Memu.Refill
import ParaNut.Memu.Exchange
import ParaNut.Memu.Coherent
import ParaNut.Memu.Contents
import ParaNut.Lib.Atomic
import ParaNut.Memu.AtomicMemory
import ParaNut.Lsu.Entries
import ParaNut.Lsu.Shared
import ParaNut.Nut.Mparanut
import ParaNut.Nut.Handover
import ParaNut.Nut.Program
import ParaNut.Memu.CachesOff
import ParaNut.Exu.InMemory
import ParaNut.Nut.CachesOff
