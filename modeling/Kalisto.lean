import Kalisto.Include
import Kalisto.Lib.Outcome
import Kalisto.Lib.ByteMemory
import Kalisto.Lib.Numeral
import Kalisto.Lib.Ring
import Kalisto.Lib.RedBlack
import Kalisto.Lib.RedBlackDelete
import Kalisto.Adt.Rbtree
import Kalisto.Adt.RbtreeRepr
import Kalisto.Adt.RbtreeLinks
import Kalisto.Adt.RbtreeInsert
import Kalisto.Adt.RbtreeDelete
import Kalisto.Adt.RbtreeMap
import Kalisto.Adt.RbtreeIterate
import Kalisto.Adt.RbtreeRotations
import Kalisto.Mm.Tlb
import Kalisto.Mm.Vmm
import Kalisto.Mm.Malloc
import Kalisto.Mm.HeapLayout
import Kalisto.Mm.MallocSteps
import Kalisto.Mm.HeapList
import Kalisto.Mm.AddressSpace
import Kalisto.Mm.AddressSpaceSteps
import Kalisto.Mm.FrameOwnership
import Kalisto.Mm.TlbSteps
import Kalisto.Mm.TlbCoherence
import Kalisto.Mm.TlbRuns
import Kalisto.Mm.MallocSpec
import Kalisto.Mm.FreeSpec
import Kalisto.Mm.HeapRuns
import Kalisto.Drivers.Dorder
import Kalisto.Drivers.DorderInterleaving
import Kalisto.Adt.List
import Kalisto.Lib.Linearizable
import Kalisto.Lib.LoadLinked
import Kalisto.Adt.Atomic
import Kalisto.Proc.Thread
import Kalisto.Proc.Queues
import Kalisto.Proc.Act
import Kalisto.Sched.RoundRobin
import Kalisto.Proc.ThreadInv
import Kalisto.Proc.ThreadSteps
import Kalisto.Proc.ThreadActs
import Kalisto.Proc.ThreadRuns
import Kalisto.Proc.ContextRuns
import Kalisto.Lib.Flag
import Kalisto.Mm.Asid
import Kalisto.Mm.PageMap
import Kalisto.Mm.Interrupts
import Kalisto.Proc.Interrupts
import Kalisto.Time.Timer
import Kalisto.Mm.HeapNormal
import Kalisto.Mm.HeapLaws
import Kalisto.Mm.HeapUndo
import Kalisto.Proc.Creation
import Kalisto.Proc.Sleep
import Kalisto.Print.Number
import Kalisto.Print.Vprintk
import Kalisto.Adt.AtomicRuns
import Kalisto.Boot
import Kalisto.Lib.MipsException
import Kalisto.Lib.MipsRoutines
import Kalisto.Exc.Handlers
import Kalisto.Exc.HandlerSteps
import Kalisto.Exc.Refill
import Kalisto.Exc.General
import Kalisto.Exc.Exception
