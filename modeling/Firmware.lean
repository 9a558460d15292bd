import Firmware.Lib.Runs
import Firmware.Lib.Buffer
import Firmware.Lib.Countdown
import Firmware.Lib.Bytes
import Firmware.Update.Protocol
import Firmware.Update.Server
import Firmware.Update.Bounds
import Firmware.Update.Termination
import Firmware.Update.Replies
import Firmware.Update.Delivery
import Firmware.Update.Commit
import Firmware.Hal.Tick
import Firmware.Lib.Ring
import Firmware.Lib.Stretch
import Firmware.Update.Segmentation
import Firmware.Eth.Transmit
import Firmware.Eth.Receive
import Firmware.Eth.Frames
import Firmware.Eth.Wakeup
import Firmware.Uart.Polling
import Firmware.Uart.DmaReceive
import Firmware.Gpio.Ownership
import Firmware.Gpio.Vectors
import Firmware.Eth.Result
import Firmware.I2c.SoftBus
import Firmware.I2c.Recovery
import Firmware.Spi.Transfer
import Firmware.Eth.Phy
import Firmware.Eth.LinkTimer
import Firmware.Eth.Lock
import Firmware.Eth.Handover
import Firmware.Hal.Delay
import Firmware.Uart.Receive
import Firmware.Update.Receive
import Firmware.Lib.Nor
import Firmware.Lib.Program
import Firmware.Flash.Chip
import Firmware.Flash.Sfud
import Firmware.Flash.Erase
import Firmware.Flash.Write
import Firmware.Flash.Device
import Firmware.Flash.Image
import Firmware.Lib.Window
import Firmware.Uart.Fifo
import Firmware.Uart.DmaFifo
import Firmware.Uart.DmaTransmit
import Firmware.I2c.Lines
import Firmware.I2c.Pulses
import Firmware.I2c.Peripheral
import Firmware.Lib.Blocks
import Firmware.Heap.Mem
import Firmware.Heap.Chain
import Firmware.Heap.Plug
import Firmware.Heap.Calls
import Firmware.Heap.Client
import Firmware.Heap.Layout
import Firmware.Heap.Realloc
import Firmware.Heap.Peak
