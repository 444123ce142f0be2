import Ch32fun.Machine.Fair
import Ch32fun.Machine.Refine
import Ch32fun.Machine.Tally
import Ch32fun.Machine.Relay
import Ch32fun.Msc.Step
import Ch32fun.Msc.Move
import Ch32fun.Msc.Protocol
import Ch32fun.Msc.Reply
import Ch32fun.Msc.Accounting
import Ch32fun.Msc.Complete
import Ch32fun.Msc.Transfer
import Ch32fun.Msc.Bounds
import Ch32fun.Msc.Image
import Ch32fun.Msc.Invariant
import Ch32fun.Msc.Filter
import Ch32fun.Msc.Play
import Ch32fun.Msc.Write
import Ch32fun.Msc.Save
import Ch32fun.Msc.SaveOrder
import Ch32fun.Fat16.Reader
import Ch32fun.Msc.Volume
import Ch32fun.Machine.Routine
import Ch32fun.Machine.Reduction
import Ch32fun.Msc.Stmts
import Ch32fun.Msc.Interrupt
import Ch32fun.Msc.Atomic
import Ch32fun.Msc.Snoop
import Ch32fun.Msc.Directory
import Ch32fun.Msc.Script
import Ch32fun.Msc.Reading
import Ch32fun.Msc.Alike
import Ch32fun.Msc.Query
import Ch32fun.Msc.Disk
import Ch32fun.Msc.Refine
import Ch32fun.Msc.Fetch
import Ch32fun.Mem.Accessor
import Ch32fun.Mem.Bounds
import Ch32fun.Mem.Single
import Ch32fun.Mem.Copy
import Ch32fun.Mem.Script
import Ch32fun.Mem.Register
import Ch32fun.Mem.Apart
import Ch32fun.Delay
import Ch32fun.Signal
import Ch32fun.Pins.Basic
import Ch32fun.Pins.Logical
import Ch32fun.Pins.Methods
import Ch32fun.Pins.Refine
import Ch32fun.Data.Word
import Ch32fun.Data.Copy
import Ch32fun.Object
import Ch32fun.Machine.Calls
import Ch32fun.Machine.Part
import Ch32fun.Data.Ring
import Ch32fun.Isler.Basic
import Ch32fun.Isler.Frames
import Ch32fun.Isler.Count
import Ch32fun.Isler.Link
import Ch32fun.Isler.Advertise
import Ch32fun.Console.Basic
import Ch32fun.Console.Idle
import Ch32fun.Console.Race
import Ch32fun.Console.Cdc
import Ch32fun.Console.Keys
import Ch32fun.Console.Flow
import Ch32fun.Console.Pace
import Ch32fun.Isler.Queue
import Ch32fun.Isler.Wakeup
import Ch32fun.Usb.Device
import Ch32fun.Usb.Bulk
import Ch32fun.Usb.Config
import Ch32fun.Usb.Transport
