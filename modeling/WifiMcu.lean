import WifiMcu.Library.Word
import WifiMcu.Library.Memory
import WifiMcu.Library.Munch
import WifiMcu.Library.Base128
import WifiMcu.Library.Wire
import WifiMcu.Library.Levels
import WifiMcu.Library.Delivery
import WifiMcu.Library.Transition
import WifiMcu.Library.LastWrite
import WifiMcu.Library.Bits
import WifiMcu.Library.LongDivision
import WifiMcu.Library.Rounding
import WifiMcu.Library.Counter
import WifiMcu.Library.RefCount
import WifiMcu.Library.OnesComplement
import WifiMcu.Library.Pieces
import WifiMcu.Format.Syntax
import WifiMcu.Format.Parsers
import WifiMcu.Format.Output
import WifiMcu.Format.Program
import WifiMcu.Format.Splitting
import WifiMcu.Format.Composition
import WifiMcu.Format.C99
import WifiMcu.Format.Integers
import WifiMcu.Format.Strings
import WifiMcu.Format.Returned
import WifiMcu.Format.FixedPoint
import WifiMcu.Format.Buffers
import WifiMcu.Format.Operations
import WifiMcu.Format.Overflow
import WifiMcu.Mqtt.Network
import WifiMcu.Mqtt.Packet
import WifiMcu.Mqtt.Bounds
import WifiMcu.Mqtt.Framing
import WifiMcu.Mqtt.Successive
import WifiMcu.Mqtt.Client
import WifiMcu.Mqtt.Yield
import WifiMcu.Mqtt.Send
import WifiMcu.Mqtt.Dead
import WifiMcu.Mqtt.Connect
import WifiMcu.Mqtt.Timer
import WifiMcu.Mqtt.Serialize
import WifiMcu.Mqtt.Deserialize
import WifiMcu.Mqtt.RoundTrip
import WifiMcu.Mqtt.ConnectPacket
import WifiMcu.Mqtt.Answers
import WifiMcu.Mqtt.Topics
import WifiMcu.Mqtt.Reactions
import WifiMcu.Mqtt.Serving
import WifiMcu.Mqtt.Requests
import WifiMcu.Mqtt.Answered
import WifiMcu.Mqtt.Growth
import WifiMcu.Mqtt.Calls
import WifiMcu.Mqtt.Identifiers
import WifiMcu.Sdio.Transfer
import WifiMcu.Sdio.Tokens
import WifiMcu.Sdio.Returns
import WifiMcu.Sdio.Sizing
import WifiMcu.Ws2812.Driver
import WifiMcu.Ws2812.Frame
import WifiMcu.Ws2812.Clocking
import WifiMcu.Ws2812.Sending
import WifiMcu.Ws2812.Latch
import WifiMcu.Ws2812.Completion
import WifiMcu.System.VectorTable
import WifiMcu.System.Nvic
import WifiMcu.System.Heap
import WifiMcu.System.Clocks
import WifiMcu.System.Usart
import WifiMcu.System.Ping
import WifiMcu.Gpio.Port
import WifiMcu.Gpio.Configuration
import WifiMcu.Gpio.Led
import WifiMcu.Lwip.Pbuf
import WifiMcu.Lwip.Etharp
import WifiMcu.Lwip.Ownership
import WifiMcu.Lwip.Queueing
import WifiMcu.Lwip.Checksum
import WifiMcu.Lwip.Icmp
import WifiMcu.Lwip.Reassembly
import WifiMcu.Lwip.Removal
import WifiMcu.Lwip.Slots
import WifiMcu.Lwip.Reassembled
import WifiMcu.Lwip.Assertions
import WifiMcu.Lwip.Lookup
import WifiMcu.Lwip.Cut
import WifiMcu.Lwip.Arrival
import WifiMcu.Lwip.InOrder
import WifiMcu.Lwip.Fragmentation
import WifiMcu.Lwip.FragmentationRefs
