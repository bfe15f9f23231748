/-
The micro-ROS transport of `Src/microros_glue.c`: `cubemx_transport_write`
and `cubemx_transport_read` over the blocking HAL UART calls.

# The UART

`UartHal` is the part of the HAL that is called, which is not in the
repository. A call may transfer any prefix of what it was asked for:
`transmit` says how many bytes went out, `receive` which came in. The
state stands for whatever decides that, the arrivals on the line
included. `Documented` is what the HAL promises.

Both HAL calls take their size as a `uint16_t`; `len` is a `size_t`, and
is converted.
-/
import Mathlib.Data.BitVec

namespace LinoStm32

-- =================================================================== HAL

/-- `uint8_t`. -/
abbrev Byte := BitVec 8

/-- `HAL_StatusTypeDef`. -/
inductive HalStatus
  | ok
  | error
  | busy
  | timeout
  deriving DecidableEq

/-- The blocking calls on one UART: `HAL_UART_Transmit` of some bytes, and
`HAL_UART_Receive` of a number of bytes, each with a timeout. -/
structure UartHal where
  State : Type
  transmit : State → List Byte → BitVec 32 → HalStatus × Nat × State
  receive : State → Nat → BitVec 32 → HalStatus × List Byte × State

/-- What the HAL documents: at most the size asked for is transferred, and
all of it when the call returns `HAL_OK`. -/
structure UartHal.Documented (H : UartHal) : Prop where
  transmit_le : ∀ s data t, (H.transmit s data t).2.1 ≤ data.length
  transmit_ok : ∀ s data t, (H.transmit s data t).1 = .ok →
    (H.transmit s data t).2.1 = data.length
  receive_le : ∀ s size t, (H.receive s size t).2.1.length ≤ size
  receive_ok : ∀ s size t, (H.receive s size t).1 = .ok →
    (H.receive s size t).2.1.length = size

-- ============================================================= the calls

/-- `len` as the `uint16_t` the HAL takes. -/
def halSize (len : Nat) : Nat := len % 2 ^ 16

/-- What one transport call did: what the HAL returned, the bytes of the
buffer the UART really sent or delivered, and the value returned. -/
structure Transfer where
  status : HalStatus
  moved : List Byte
  returned : Nat

/-- `cubemx_transport_write`. -/
def cubemxTransportWrite (H : UartHal) (s : H.State) (buf : List Byte)
    (len : Nat) : H.State × Transfer :=
  let data := buf.take (halSize len)
  let r := H.transmit s data 100
  (r.2.2, { status := r.1, moved := data.take r.2.1, returned := len })

/-- `cubemx_transport_read`. -/
def cubemxTransportRead (H : UartHal) (s : H.State) (len : Nat)
    (timeout : Int) : H.State × Transfer :=
  let r := H.receive s (halSize len) (BitVec.ofInt 32 timeout)
  (r.2.2,
    { status := r.1
      moved := r.2.1
      returned := if r.1 = .ok then len else 0 })

/-- The buffer after a read into it: what was delivered, then what it held
before. -/
def Transfer.buffer (tr : Transfer) (buf : List Byte) : List Byte :=
  tr.moved ++ buf.drop tr.moved.length

end LinoStm32
