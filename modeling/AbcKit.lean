import AbcKit.Text.Hex
import AbcKit.Error
import AbcKit.Word.Checked
import AbcKit.Word.VarInt
import AbcKit.Buffer
import AbcKit.Cursor
import AbcKit.Opcode
import AbcKit.Opcode.Effect
import AbcKit.Instruction
import AbcKit.Instruction.Codec
import AbcKit.Pool.Table
import AbcKit.Pool.Name
import AbcKit.Pool
import AbcKit.Pool.Display
import AbcKit.Record.Trait
import AbcKit.Record.Method
import AbcKit.Record.Class
import AbcKit.Module
import AbcKit.Text.Printable
import AbcKit.Text.GraphemeExtend
import AbcKit.Text.Quoted
import AbcKit.Decimal.Shortest
import AbcKit.Code
import AbcKit.Listing
import AbcKit.NativeHeader
import AbcKit.Toml.Value
import AbcKit.Toml.Lexical
import AbcKit.Toml.Document
import AbcKit.Emit.Config
import AbcKit.Emit.Error
import AbcKit.Emit.State
import AbcKit.Emit.Method
import AbcKit.Emit.Assembler
import AbcKit.Emit.Traits
import AbcKit.Emit.Debug
import AbcKit.Emit.Emitter
import AbcKit.Emit.Ops
import AbcKit.Emit.Handlers
import AbcKit.Emit.Flow
import AbcKit.Emit.Program
import AbcKit.Emit.Call
import AbcKit.Main
import AbcKit.Proofs.Wire
import AbcKit.Proofs.VarIntCodec
import AbcKit.Proofs.Slots
import AbcKit.Proofs.Container
import AbcKit.Proofs.Triple
import AbcKit.Proofs.Interning
import AbcKit.Proofs.Frame
import AbcKit.Proofs.Tables
import AbcKit.Proofs.Assembly
import AbcKit.Proofs.Code
import AbcKit.Proofs.Writing
import AbcKit.Proofs.StackEffect
import AbcKit.Proofs.Effects
import AbcKit.Proofs.Constructs
import AbcKit.Proofs.OutOfOrder
import AbcKit.Proofs.Bits
import AbcKit.Proofs.Canonical
import AbcKit.Proofs.Layout
import AbcKit.Proofs.Landing
import AbcKit.Proofs.Regions
import AbcKit.Proofs.TryRegions
import AbcKit.Proofs.MethodStack
import AbcKit.Proofs.ExceptionTables
import AbcKit.Proofs.PoolEntries
import AbcKit.Proofs.PoolCalls
import AbcKit.Proofs.AssemblerTables
import AbcKit.Proofs.TableHistory
import AbcKit.Proofs.MethodNames
import AbcKit.Proofs.ModuleTables
import AbcKit.Proofs.Counters
import AbcKit.Proofs.Rendering
import AbcKit.Proofs.Traits
import AbcKit.Proofs.Registers
import AbcKit.Proofs.RegisterCover
import AbcKit.Proofs.LocalCount
import AbcKit.Proofs.RegisterRange
import AbcKit.Proofs.Unwinding
import AbcKit.Proofs.Leaving
import AbcKit.Proofs.LastJumps
import AbcKit.Proofs.Tracking
import AbcKit.Proofs.FlowTracking
import AbcKit.Proofs.HandlerTracking
import AbcKit.Proofs.JumpTargets
