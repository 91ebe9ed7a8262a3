import AncPrototype.Library.CountedLoop
import AncPrototype.Library.Ring
import AncPrototype.Library.Clamp
import AncPrototype.Library.LeakyLms
import AncPrototype.Library.DeviceProgram
import AncPrototype.Library.Interrupt
import AncPrototype.Library.SeqSpec
import AncPrototype.Library.Simulation
import AncPrototype.Library.BitField
import AncPrototype.Model.Filter
import AncPrototype.Model.ShiftRegister
import AncPrototype.Model.ClosedLoop
import AncPrototype.Model.Pdc
import AncPrototype.Model.Handler
import AncPrototype.Model.Machine
import AncPrototype.Model.Dacc
import AncPrototype.Model.Chip
import AncPrototype.Model.Drivers
import AncPrototype.Model.Firmware
import AncPrototype.Proofs.Filter
import AncPrototype.Proofs.DelayLine
import AncPrototype.Proofs.ExactFilter
import AncPrototype.Proofs.Bounds
import AncPrototype.Proofs.Rail
import AncPrototype.Proofs.Stability
import AncPrototype.Proofs.Agreement
import AncPrototype.Proofs.Handler
import AncPrototype.Proofs.Transducer
import AncPrototype.Proofs.Pairing
import AncPrototype.Proofs.Channel
import AncPrototype.Proofs.Fifo
import AncPrototype.Proofs.Interrupts
import AncPrototype.Proofs.History
import AncPrototype.Proofs.Tags
import AncPrototype.Proofs.Storage
import AncPrototype.Proofs.Arrivals
import AncPrototype.Proofs.Frames
import AncPrototype.Proofs.Descent
import AncPrototype.Proofs.Dacc
import AncPrototype.Proofs.Chip
import AncPrototype.Proofs.PeripheralClocks
import AncPrototype.Proofs.Drivers
import AncPrototype.Proofs.Startup
import AncPrototype.Proofs.Firmware
import AncPrototype.Proofs.Refinement
import AncPrototype.Proofs.Invocations
import AncPrototype.Proofs.Reuse
import AncPrototype.Library.RoundRobin
import AncPrototype.Library.Rounding
import AncPrototype.Model.Binary32
import AncPrototype.Proofs.AdcSettings
import AncPrototype.Proofs.Binary32
import AncPrototype.Proofs.DaccSettings
import AncPrototype.Proofs.LeastMinSquares
import AncPrototype.Proofs.Range
import AncPrototype.Proofs.Sequencer
import AncPrototype.Proofs.Stream
