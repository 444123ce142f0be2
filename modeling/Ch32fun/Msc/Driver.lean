import Ch32fun.Msc.DataIn

/-!
# The handlers and the machine they form

`HandleDataOut` on `EP_MSC_OUT` (`handleMscOut`: the acceptance of a CBW, and the data-out phase),
`HandleInRequest` and the mass-storage half of `poll_usb_input`, each run without interruption,
and the machine `mscMachine` whose inputs are

* `out p` : the host sends the packet `p` to `EP_MSC_OUT`;
* `take` : the host takes the packet of `EP_MSC_IN`;
* `poll` : the main loop calls `poll_usb_input`.

An input that cannot happen, or a handler that would spin in its send for ever, is `none`.
-/

namespace Ch32fun

namespace Msc

/-! ### Accepting a CBW -/

/-- `HandleDataOut` in `MSC_IDLE`, after the signature check: the status wrapper is initialised
and the command dispatched. -/
def dispatch (s : Msc) : Option (Msc × List Event) :=
  let c := s.cbw
  let s := { s with
    csw := { signature := 0x53425355, tag := c.tag, dataResidue := 0, status := 0 } }
  match c.opcode with
  | .requestSense | .inquiry | .readCapacity10 | .modeSense6 | .modeSense10 =>
    mscPrepareDataIn { s with
      mscState := .dataIn
      mscCurrentOffset := 0
      mscBytesRemaining := c.dataTransferLength }
  | .read10 =>
    mscPrepareDataIn { s with
      mscState := .dataIn
      mscCurrentOffset := c.lba * mscBlockSize
      mscBytesRemaining := c.blocks * mscBlockSize }
  | .write10 =>
    some ({ s with
      mscState := .dataOut
      mscCurrentOffset := c.lba * mscBlockSize
      mscBytesRemaining := c.blocks * mscBlockSize }, [])
  | .testUnitReady | .preventAllowRemoval | .other =>
    if 0 < c.dataTransferLength ∧ c.flags &&& 0x80 ≠ 0 then
      sendStatus { s with csw := { s.csw with status := 1 } }
    else
      sendStatus s

/-- `HandleDataOut` in `MSC_IDLE`. -/
def receiveCbw (s : Msc) (p : OutPacket) : Option (Msc × List Event) :=
  if p.len ≠ 31 then some (s, [])
  else
    let s := { s with cbw := p.cbw }
    if s.cbw.signature ≠ Cbw.goodSignature then some (s, [])
    else (dispatch s).map fun (s', ev) => (s', .accepted s.cbw :: ev)

/-! ### The data-out phase -/

/-- The first ten bytes of the directory entry the driver looks for. -/
def snoopName : List UInt8 := ascii "main    py"

/-- `memcmp(data + i, "main    py", 10) == 0`. -/
def nameAt (f : ℕ → UInt8) (i : ℕ) : Bool :=
  (List.range 10).all fun k => f (i + k) == snoopName.getD k 0

/-- `(new_size > MSC_RAM_DISK_SIZE) ? MSC_RAM_DISK_SIZE : new_size`. -/
def clampSize (n : UInt32) : UInt32 := if n > mscRamDiskSize then mscRamDiskSize else n

/-- One turn of the directory loop: the 32-byte record at index `i`. -/
def snoopEntry (f : ℕ → UInt8) (s : Msc) (i : ℕ) : Msc :=
  if nameAt f i ∧ le16 f (i + 26) ≠ 0 then
    { s with
      activeFileCluster := le16 f (i + 26)
      activeFileSize := clampSize (le32 f (i + 0x1C))
      fileChanged := true }
  else s

/-- `for (int i = 0; i < write_len; i += 32)`. -/
def snoopDirectory (f : ℕ → UInt8) (writeLen : ℕ) (s : Msc) : Msc :=
  (List.range' 0 ((writeLen + 31) / 32) 32).foldl (snoopEntry f) s

/-- `target_cluster` of a data sector. -/
def targetCluster (lba : UInt32) : UInt32 := 2 + (lba - startData) / 8

/-- `byte_offset` within the RAM buffer of a packet for the disk offset `offset`. -/
def ramByteOffset (offset : UInt32) : UInt32 :=
  (offset / 512 - startData) % 8 * 512 + offset % 512

/-- Case B: a packet of a data sector. -/
def writeDataArea (s : Msc) (p : OutPacket) (writeLen : UInt32) : Msc × List Event :=
  let byteOffset := ramByteOffset s.mscCurrentOffset
  if targetCluster (s.mscCurrentOffset / 512) ≥ s.activeFileCluster.toUInt32 ∧
      byteOffset + writeLen ≤ mscRamDiskSize then
    ({ s with
        mscRamDisk := s.mscRamDisk.write byteOffset.toNat writeLen.toNat p.data.get },
      (List.range writeLen.toNat).map fun i => .stored (byteOffset.toNat + i))
  else (s, [])

/-- The two cases of a data-out packet: directory sectors are observed, data sectors filtered. -/
def absorb (s : Msc) (p : OutPacket) (writeLen : UInt32) : Msc × List Event :=
  let currentLba := s.mscCurrentOffset / 512
  if startRoot ≤ currentLba ∧ currentLba < startData then
    (snoopDirectory p.data.get writeLen.toNat s, [])
  else if startData ≤ currentLba then
    writeDataArea s p writeLen
  else (s, [])

/-- `(len < msc_bytes_remaining) ? len : msc_bytes_remaining`. -/
def writeLen (s : Msc) (p : OutPacket) : UInt32 :=
  if UInt32.ofNat p.len < s.mscBytesRemaining then UInt32.ofNat p.len else s.mscBytesRemaining

/-- `HandleDataOut` in `MSC_DATA_OUT`. -/
def receiveData (s : Msc) (p : OutPacket) : Option (Msc × List Event) :=
  let n := s.writeLen p
  let (s', log) := s.absorb p n
  let s' := { s' with
    mscCurrentOffset := s'.mscCurrentOffset + n
    mscBytesRemaining := s'.mscBytesRemaining - n }
  let log := log ++ [.consumed n.toNat]
  if s'.mscBytesRemaining = 0 then s'.sendStatus.map fun (s, ev) => (s, log ++ ev)
  else some (s', log)

/-! ### The handlers -/

/-- `HandleDataOut` on `EP_MSC_OUT`. -/
def handleMscOut (s : Msc) (p : OutPacket) : Option (Msc × List Event) :=
  match s.mscState with
  | .idle => s.receiveCbw p
  | .dataOut => s.receiveData p
  | .dataIn | .sendCsw => some (s, [])

/-- `HandleInRequest` on `EP_MSC_IN`. -/
def handleInRequest (s : Msc) : Msc :=
  if s.mscState = .sendCsw then { s with mscState := .idle } else s

/-- The mass-storage half of `poll_usb_input`. -/
def pollUsbInput (s : Msc) : Option (Msc × List Event) :=
  if s.mscState = .dataIn then s.mscPrepareDataIn else some (s, [])

/-- The host takes the packet of `EP_MSC_IN`, and the interrupt is handled. -/
def hostTake (s : Msc) : Option (Msc × List Event) :=
  match s.epMscIn with
  | none => none
  | some p => some (({ s with epMscIn := none } : Msc).handleInRequest, [.taken p])

end Msc

/-- What the host and the main loop can do. -/
inductive Input
  | out (p : OutPacket)
  | take
  | poll

/-- The driver, each handler run without interruption. -/
def mscMachine : Machine Msc Input Event where
  step s
    | .out p => s.handleMscOut p
    | .take => s.hostTake
    | .poll => s.pollUsbInput

/-- The states the driver can reach from power-up. -/
def Msc.Reachable (s : Msc) : Prop := mscMachine.Reachable usbInit s

end Ch32fun
