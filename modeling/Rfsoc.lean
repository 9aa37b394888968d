import Rfsoc.Axi.RamWriterAddress
import Rfsoc.Lago.Grammar
import Rfsoc.Lago.Pps
import Rfsoc.Lago.Readout
import Rfsoc.Axi.AxisReader
import Rfsoc.Axi.CfgRegister
import Rfsoc.Host.LagoRecorder
import Rfsoc.Axi.AxisWriter
import Rfsoc.Axi.StsRegister
import Rfsoc.Core.ResponseSlot
import Rfsoc.Axi.Responses
import Rfsoc.Axi.RamWriterFifo
import Rfsoc.Host.BlockServer
import Rfsoc.Host.RingReader
import Rfsoc.Host.HandOff
import Rfsoc.Host.Schedule
import Rfsoc.Host.Reconnect
import Rfsoc.Host.DacPlayer
import Rfsoc.Axis.Oscilloscope
import Rfsoc.Axis.Trigger
import Rfsoc.Axis.Packetizer
import Rfsoc.Core.Window
import Rfsoc.Lago.Capture
import Rfsoc.Lago.Charge
import Rfsoc.Axi.RamWriterFraming
import Rfsoc.Axi.ReadIndex
import Rfsoc.Axi.CfgReset
import Rfsoc.Axis.Framers
import Rfsoc.Axis.Decimator
import Rfsoc.Axis.Interpolator
import Rfsoc.Axis.Resampling
import Rfsoc.Channelizer.Selector
import Rfsoc.Channelizer.Reversal
import Rfsoc.Axis.Interpolation
import Rfsoc.Core.Mailbox
import Rfsoc.Lago.Exclusion
import Rfsoc.Axis.Decimation
import Rfsoc.Axis.Parallelizer
import Rfsoc.Channelizer.GenTonos
import Rfsoc.Channelizer.StartUp
import Rfsoc.Channelizer.Oversampled
import Rfsoc.Lago.PpsGen
import Rfsoc.Lago.FalsePps
import Rfsoc.Axi.WidthHelpers
import Rfsoc.Axis.Polarity
import Rfsoc.Axis.Variable
import Rfsoc.Board.DnaReader
import Rfsoc.Board.RpDac
import Rfsoc.Core.BinaryFloat
import Rfsoc.Core.QuarterWave
import Rfsoc.Generator.SignalGen
import Rfsoc.Host.Numerals
import Rfsoc.Host.ParseParam
import Rfsoc.Host.RegisterValue
import Rfsoc.Lago.ArrayBounds
import Rfsoc.Axi.CfgBus
import Rfsoc.Axis.StreamCores
import Rfsoc.System.Acquisition
import Rfsoc.System.Receiver
import Rfsoc.System.Transmitter
import Rfsoc.Core.Sessions
import Rfsoc.Host.LiaRp
import Rfsoc.Core.Rotation
import Rfsoc.System.Synthesizer
import Rfsoc.Axi.CfgScript
import Rfsoc.System.Scope
import Rfsoc.System.ScopeWindow
import Rfsoc.System.SnapshotPrint
import Rfsoc.Board.RpAdc
import Rfsoc.Core.DeadTime
import Rfsoc.Core.Octets
import Rfsoc.Host.BitFile
import Rfsoc.Lago.Scene
import Rfsoc.System.FrontEnd
