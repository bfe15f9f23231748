import LinoStm32.Num
import LinoStm32.Lib.Machine
import LinoStm32.Lib.Clock
import LinoStm32.Config
import LinoStm32.Encoder
import LinoStm32.Odom
import LinoStm32.Pid
import LinoStm32.ControlCore
import LinoStm32.ControlLoop
import LinoStm32.Proofs.Symmetry
import LinoStm32.Proofs.Braking
import LinoStm32.Tasks
import LinoStm32.Proofs.Deadman
import LinoStm32.Proofs.Command
import LinoStm32.Lib.Versions
import LinoStm32.Proofs.Snapshot
import LinoStm32.Proofs.Odometry
import LinoStm32.Proofs.Poison
import LinoStm32.Motor
import LinoStm32.Proofs.PwmStart
import LinoStm32.Lib.Lifecycle
import LinoStm32.Uros
import LinoStm32.Proofs.Reconnect
import LinoStm32.Proofs.Sequential
import LinoStm32.Lib.Window
import LinoStm32.Proofs.PidLaw
import LinoStm32.Proofs.HBridge
import LinoStm32.Proofs.Limiter
import LinoStm32.Proofs.Tracking
import LinoStm32.Imu
import LinoStm32.Proofs.GyroFault
import LinoStm32.Transport
import LinoStm32.Proofs.ByteCount
import LinoStm32.Publish
import LinoStm32.Proofs.Stamps
import LinoStm32.Proofs.Published
import LinoStm32.Lib.Region
import LinoStm32.Heap
import LinoStm32.Proofs.HeapBreak
import LinoStm32.Proofs.Prescaler
import LinoStm32.Proofs.Division
import LinoStm32.Proofs.Switching
import LinoStm32.Proofs.ImuHealth
import LinoStm32.Proofs.Leftover
import LinoStm32.Lib.Planar
import LinoStm32.Lib.Rotation
import LinoStm32.Proofs.Frames
import LinoStm32.Proofs.Setup
import LinoStm32.Proofs.Atomics
import LinoStm32.Proofs.HeapLock
import LinoStm32.Proofs.Epoch
import LinoStm32.Proofs.PingGate
import LinoStm32.Lib.Drive
import LinoStm32.Proofs.DeadReckoning
import LinoStm32.I2c
import LinoStm32.Proofs.ImuBus
import LinoStm32.ControlTask
import LinoStm32.Proofs.Pace
import LinoStm32.Board
import LinoStm32.Proofs.Silence
import LinoStm32.Proofs.Recovery
import LinoStm32.Proofs.Freshness
import LinoStm32.Proofs.Overrun
import LinoStm32.BringUp
import LinoStm32.Proofs.BringUp
