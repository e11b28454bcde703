import Qsym.Procedure.Program
import Qsym.Procedure.Terminates
import Qsym.Builder.SignedQuotient
import Qsym.Builder.Pruned
import Qsym.Builder.Terminates
import Qsym.Builder.Condition
import Qsym.Flags.Condition
import Qsym.Shadow.Registers
import Qsym.Instrument.Default
import Qsym.Solver.Record
import Qsym.Solver.SolveAll
import Qsym.Coverage.AflTraceMap
import Qsym.Coverage.Minimizer
import Qsym.Schedule.AFLExecutor
import Qsym.Shadow.Paging
import Qsym.Instrument.Negation
import Qsym.Instrument.Carry
import Qsym.Instrument.Shift
import Qsym.Instrument.Multiply
import Qsym.Instrument.ByteMove
import Qsym.Instrument.PartialMove
import Qsym.Instrument.DoubleShift
import Qsym.Instrument.Logical
import Qsym.Instrument.BitScan
import Qsym.Instrument.BitTest
import Qsym.Builder.Narrow
import Qsym.Instrument.EffectiveAddress
import Qsym.Instrument.Atomic
import Qsym.Instrument.Assign
import Qsym.Instrument.Clearing
import Qsym.Instrument.Compare
import Qsym.Instrument.Conditional
import Qsym.Instrument.Accumulator
import Qsym.Instrument.VexForm
import Qsym.Bits.Arc
import Qsym.Range.RangeSet
import Qsym.Frames.Unwinding
import Qsym.Coverage.CallStackManager
import Qsym.Bits.Backoff
import Qsym.Coverage.ContextSampling
import Qsym.Instrument.PackForm
import Qsym.Instrument.Returning
import Qsym.Instrument.Source
import Qsym.Instrument.Extract
import Qsym.Instrument.Undivided
import Qsym.Instrument.Align
import Qsym.Instrument.PackedShift
import Qsym.Instrument.Packed
import Qsym.Instrument.Shuffle
import Qsym.Weak.Index
import Qsym.Builder.Cache
import Qsym.Shadow.Brk
import Qsym.Search.Blocking
import Qsym.Solver.Z3
import Qsym.Solver.Extremum
import Qsym.Solver.Canonical
import Qsym.Solver.PathCondition
import Qsym.Solver.Explore
import Qsym.Solver.Slice
import Qsym.Solver.Generate
import Qsym.Solver.Bounds
import Qsym.Concolic.Machine
import Qsym.Concolic.Describes
import Qsym.Concolic.Relational
import Qsym.Concolic.Tame
import Qsym.Concolic.Simulation
import Qsym.Concolic.Moves
import Qsym.Concolic.Arithmetic
import Qsym.Concolic.Requests
import Qsym.Concolic.Step
import Qsym.Concolic.Watch
import Qsym.Shadow.Input
import Qsym.Concolic.Path
