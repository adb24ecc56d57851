import DeltaModels.Sdram.CommandTable
import DeltaModels.Sdram.ReadOrder
import DeltaModels.Sdram.ByteMask
import DeltaModels.Sdram.Requests
import DeltaModels.Sdram.Region
import DeltaModels.Sdram.SilentReads
import DeltaModels.Sdram.RoundTrip
import DeltaModels.Flash.QuadRead
import DeltaModels.Flash.Deselect
import DeltaModels.Flash.DummyCycles
import DeltaModels.Network.Bridge
import DeltaModels.Network.Checksum
import DeltaModels.Network.Helpers
import DeltaModels.Network.TxBounds
import DeltaModels.Or1k.Decoder
import DeltaModels.Or1k.Text
import DeltaModels.Or1k.OpcodeBits
import DeltaModels.Or1k.DataTracer
import DeltaModels.Wishbone.RamBounds
import DeltaModels.Tlm.Bounds
import DeltaModels.Tlm.Counters
import DeltaModels.Tlm.Rom
import DeltaModels.Tlm.WordMemory
import DeltaModels.Tlm.Overlap
import DeltaModels.Tlm.BusRules
import DeltaModels.Tlm.Timeout
import DeltaModels.Tlm.Transfer
import DeltaModels.Clocking.ClockGen
import DeltaModels.Sdram.Controller
import DeltaModels.Sdram.LogFile
import DeltaModels.Sdram.Session
import DeltaModels.Network.MockGmii
import DeltaModels.Network.Delivery
import DeltaModels.Network.Generate
import DeltaModels.Network.Duplex
import DeltaModels.Tlm.WordStream
import DeltaModels.Tlm.RouterFile
import DeltaModels.Tlm.Bench
import DeltaModels.Or1k.InstructionTracer
import DeltaModels.Or1k.DataFile
import DeltaModels.Flash.LogFile
import DeltaModels.Flash.BitStream
import DeltaModels.Clocking.Waveforms
