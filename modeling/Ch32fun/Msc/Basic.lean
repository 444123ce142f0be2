import Ch32fun.Data.Block
import Ch32fun.Machine.Basic
import Mathlib.Data.Fintype.Pi

/-!
# The mass-storage function: globals, wrappers, observations

The USB mass-storage function of `usbfs_cdc_msc.c` offers the script `main.py` as the only file of
a synthetic FAT16 volume.  This file declares its data:

* `Cbw`, `Csw` : the command block wrapper and the command status wrapper, `Opcode` the SCSI
  operation codes the driver distinguishes;
* `OutPacket` : a packet on `EP_MSC_OUT`, with the whole 64-byte endpoint buffer (the bytes
  behind the packet are stale);
* `InPacket` : a packet on `EP_MSC_IN`, tagged with the send that queued it;
* `Msc` : the global variables, and the single slot of `EP_MSC_IN`;
* `Event` : what can be observed of a step.
-/

namespace Ch32fun

/-- ASCII bytes. -/
def ascii (s : String) : List UInt8 := s.toList.map Char.toUInt8

/-! ### Constants -/

/-- `MSC_RAM_DISK_SIZE`, as an array bound. -/
abbrev ramDiskSize : ℕ := 2048

/-- `MSC_RAM_DISK_SIZE`, as the operand of 32-bit arithmetic. -/
abbrev mscRamDiskSize : UInt32 := 2 * 1024

/-- `MSC_BLOCK_SIZE`. -/
abbrev mscBlockSize : UInt32 := 512

/-- `MSC_TOTAL_SECTORS`. -/
abbrev mscTotalSectors : UInt32 := 0x4000

/-- `FILE_CLUSTER`. -/
abbrev fileCluster : UInt16 := 2

/-- `START_FAT1`. -/
abbrev startFat1 : UInt32 := 1

/-- `START_FAT2`. -/
abbrev startFat2 : UInt32 := 17

/-- `START_ROOT`. -/
abbrev startRoot : UInt32 := 33

/-- `START_DATA`. -/
abbrev startData : UInt32 := 65

section Sectors

variable (x : UInt32)

theorem toNat_div_512 : (x / 512).toNat = x.toNat / 512 := UInt32.toNat_div x 512

theorem toNat_mod_512 : (x % 512).toNat = x.toNat % 512 := UInt32.toNat_mod x 512

theorem toNat_mul_blockSize : (x * mscBlockSize).toNat = x.toNat * 512 % 2 ^ 32 :=
  UInt32.toNat_mul x mscBlockSize

variable {x}

theorem toNat_sub_startData (h : startData ≤ x) : (x - startData).toNat = x.toNat - 65 :=
  UInt32.toNat_sub_of_le _ _ h

end Sectors

/-- The script in the RAM disk at power-up (`MAIN_PY`, without the closing zero byte). -/
def mainPy : List UInt8 :=
  ascii ("from machine import Pin\n" ++
    "from time import sleep\n" ++
    "led = Pin(Pin.PA8, Pin.OUT)\n" ++
    "while True:\n" ++
    "    led.on()\n" ++
    "    sleep(.3)\n" ++
    "    led.off()\n" ++
    "    sleep(.3)\n")

/-- `sizeof(MAIN_PY) - 1`. -/
abbrev mainPySize : UInt32 := 142

example : mainPy.length = mainPySize.toNat := by decide +kernel

/-- The initialised head of `BootSector`; the bytes up to the signature are zero. -/
def bootSectorHead : List UInt8 :=
  [0xEB, 0x3C, 0x90] ++             -- jump instruction
  ascii "ch32fun " ++               -- OEM name
  [0x00, 0x02] ++                   -- bytes per sector
  [0x08] ++                         -- sectors per cluster
  [0x01, 0x00] ++                   -- reserved sectors
  [0x02] ++                         -- number of FATs
  [0x00, 0x02] ++                   -- root directory entries
  [0x00, 0x40] ++                   -- total sectors
  [0xF8] ++                         -- media descriptor
  [0x10, 0x00] ++                   -- sectors per FAT
  [0x3F, 0x00, 0xFF, 0x00] ++       -- sectors per track, heads
  [0x00, 0x00, 0x00, 0x00] ++       -- hidden sectors
  [0x00, 0x00, 0x00, 0x00] ++       -- large sectors
  [0x80, 0x00, 0x29] ++             -- drive number, reserved, extended signature
  [0x12, 0x34, 0x56, 0x78] ++       -- serial number
  ascii "MICROPYTHON" ++            -- volume label
  ascii "FAT16   "                  -- file system type

/-- `BootSector[512]`. -/
def bootSector : Block UInt8 512 := fun i =>
  if i.val = 510 then 0x55 else if i.val = 511 then 0xAA else bootSectorHead.getD i 0

/-- `fat_head` : the first bytes of both FAT copies. -/
def fatHead : Block UInt8 6 := Block.ofList [0xF8, 0xFF, 0xFF, 0xFF, 0xFF, 0xFF]

/-- The name field of the directory entry (11 bytes). -/
def rootDirName : List UInt8 := ascii "main    py "

/-- `RootDirEntry[32]` at power-up: name, attribute 0x20, times, cluster `FILE_CLUSTER`, size. -/
def rootDirEntryInit : Block UInt8 32 := Block.ofList
  (rootDirName ++
    [0x20, 0x00, 0x00, 0x00, 0x00, 0x00, 0x00, 0x00, 0x00, 0x00, 0x00,
     0x21, 0x00, 0x21, 0x00, 0x02, 0x00, 142, 0, 0, 0])

/-! ### Wrappers and packets -/

/-- `msc_state_t`. -/
inductive MscState
  /-- Waiting for a CBW. -/
  | idle
  /-- Receiving data from the host. -/
  | dataOut
  /-- Sending data to the host. -/
  | dataIn
  /-- Sending the status wrapper. -/
  | sendCsw
  deriving DecidableEq

theorem MscState.dataIn_or_sendCsw {st : MscState} (h₁ : st ≠ .idle) (h₂ : st ≠ .dataOut) :
    st = .dataIn ∨ st = .sendCsw := by
  cases st with
  | idle => exact absurd rfl h₁
  | dataOut => exact absurd rfl h₂
  | dataIn => exact .inl rfl
  | sendCsw => exact .inr rfl

/-- The operation codes of the two `switch (cbw.CB[0])`. -/
inductive Opcode
  | testUnitReady
  | requestSense
  | inquiry
  | modeSense6
  | preventAllowRemoval
  | readCapacity10
  | read10
  | write10
  | modeSense10
  /-- Anything else (`default:`). -/
  | other
  deriving DecidableEq

/-- The operation code of a command block's first byte. -/
def Opcode.ofByte (b : UInt8) : Opcode :=
  if b = 0x00 then .testUnitReady
  else if b = 0x03 then .requestSense
  else if b = 0x12 then .inquiry
  else if b = 0x1A then .modeSense6
  else if b = 0x1E then .preventAllowRemoval
  else if b = 0x25 then .readCapacity10
  else if b = 0x28 then .read10
  else if b = 0x2A then .write10
  else if b = 0x5A then .modeSense10
  else .other

/-- The six operation codes with a data-in phase. -/
def Opcode.isDataIn : Opcode → Bool
  | .requestSense | .inquiry | .modeSense6 | .readCapacity10 | .read10 | .modeSense10 => true
  | .testUnitReady | .preventAllowRemoval | .write10 | .other => false

/-- `struct CBW`. -/
structure Cbw where
  signature : UInt32
  tag : UInt32
  dataTransferLength : UInt32
  flags : UInt8
  lun : UInt8
  cbLength : UInt8
  /-- The SCSI command block. -/
  cb : Block UInt8 16
  deriving DecidableEq

/-- `struct CSW`. -/
structure Csw where
  signature : UInt32
  tag : UInt32
  dataResidue : UInt32
  status : UInt8
  deriving DecidableEq

namespace Cbw

/-- The operation code of the latched command. -/
def opcode (c : Cbw) : Opcode := .ofByte (c.cb.get 0)

/-- `(CB[2] << 24) | (CB[3] << 16) | (CB[4] << 8) | CB[5]`. -/
def lba (c : Cbw) : UInt32 :=
  (c.cb.get 2).toUInt32 <<< 24 ||| (c.cb.get 3).toUInt32 <<< 16 ||| (c.cb.get 4).toUInt32 <<< 8 |||
    (c.cb.get 5).toUInt32

/-- `(CB[7] << 8) | CB[8]`. -/
def blocks (c : Cbw) : UInt32 := (c.cb.get 7).toUInt32 <<< 8 ||| (c.cb.get 8).toUInt32

/-- The signature `USBC` the driver accepts. -/
def goodSignature : UInt32 := 0x43425355

theorem blocks_toNat_lt (c : Cbw) : c.blocks.toNat < 65536 := by
  have h7 := (c.cb.get 7).toNat_lt
  have h8 := (c.cb.get 8).toNat_lt
  have hs : (c.cb.get 7).toNat <<< 8 % 2 ^ 32 < 2 ^ 16 := by
    rw [Nat.shiftLeft_eq]; omega
  simp only [blocks, UInt32.toNat_or, UInt32.toNat_shiftLeft, UInt8.toNat_toUInt32]
  exact Nat.or_lt_two_pow hs (by omega)

theorem blocks_mul_toNat (c : Cbw) : (c.blocks * mscBlockSize).toNat = c.blocks.toNat * 512 := by
  have := c.blocks_toNat_lt
  rw [toNat_mul_blockSize]
  exact Nat.mod_eq_of_lt (by omega)

/-- A `READ(10)` whose length is that of its blocks, all of them on the disk. -/
structure InRange (c : Cbw) : Prop where
  opcode : c.opcode = .read10
  length : c.dataTransferLength.toNat = c.blocks.toNat * 512
  fits : c.lba.toNat + c.blocks.toNat ≤ mscTotalSectors.toNat

end Cbw

/-- A packet received on `EP_MSC_OUT`: the 64-byte endpoint buffer and the packet's length. -/
structure OutPacket where
  data : Block UInt8 64
  len : ℕ
  len_le : len ≤ 64

/-- `memcpy((void*)&cbw, data, 31)`. -/
def OutPacket.cbw (p : OutPacket) : Cbw where
  signature := le32 p.data.get 0
  tag := le32 p.data.get 4
  dataTransferLength := le32 p.data.get 8
  flags := p.data.get 12
  lun := p.data.get 13
  cbLength := p.data.get 14
  cb := fun i => p.data.get (15 + i)

/-- The packet a host sends for a CBW. -/
def Cbw.toPacket (c : Cbw) : OutPacket where
  data i :=
    if i.val < 4 then leByte c.signature i
    else if i.val < 8 then leByte c.tag (i - 4)
    else if i.val < 12 then leByte c.dataTransferLength (i - 8)
    else if i.val = 12 then c.flags
    else if i.val = 13 then c.lun
    else if i.val = 14 then c.cbLength
    else c.cb.get (i - 15)
  len := 31
  len_le := by omega

theorem Cbw.cbw_toPacket (c : Cbw) : c.toPacket.cbw = c := by
  have word : ∀ (x : UInt32) (i : ℕ), (∀ k, k < 4 → c.toPacket.data.get (i + k) = leByte x k) →
      le32 c.toPacket.data.get i = x := by
    intro x i h
    rw [le32_congr (g := leByte x) (j := 0) (by simpa using h), le32_leByte]
  have byte : ∀ i (h : i < 64), c.toPacket.data.get i = c.toPacket.data ⟨i, h⟩ :=
    fun i h => Block.get_of_lt h
  have h0 : le32 c.toPacket.data.get 0 = c.signature := word _ _ fun k hk => by
    rw [byte _ (by omega)]; simp [Cbw.toPacket, hk]
  have h4 : le32 c.toPacket.data.get 4 = c.tag := word _ _ fun k hk => by
    rw [byte _ (by omega)]; simp [Cbw.toPacket, show 4 + k < 8 by omega]
  have h8 : le32 c.toPacket.data.get 8 = c.dataTransferLength := word _ _ fun k hk => by
    rw [byte _ (by omega)]
    simp [Cbw.toPacket, show ¬ 8 + k < 4 by omega, show ¬ 8 + k < 8 by omega,
      show 8 + k < 12 by omega]
  have hcb : (fun i : Fin 16 => c.toPacket.data.get (15 + i)) = c.cb := by
    funext i
    have := i.isLt
    rw [byte _ (by omega)]
    simp [Cbw.toPacket, show ¬ 15 + i.val < 4 by omega, show ¬ 15 + i.val < 8 by omega,
      show ¬ 15 + i.val < 12 by omega, show 15 + i.val ≠ 12 by omega,
      show 15 + i.val ≠ 13 by omega, show 15 + i.val ≠ 14 by omega, Block.get]
  unfold OutPacket.cbw
  rw [h0, h4, h8, hcb]
  rfl

/-- The CBW of a command block. -/
def Cbw.ofBlock (tag dataTransferLength : UInt32) (flags : UInt8) (cb : List UInt8) : Cbw where
  signature := goodSignature
  tag := tag
  dataTransferLength := dataTransferLength
  flags := flags
  lun := 0
  cbLength := cb.length.toUInt8
  cb := Block.ofList cb

/-- A packet queued on `EP_MSC_IN`: bytes of a data phase, or the status wrapper. -/
inductive InPacket
  | data (bytes : List UInt8)
  | csw (w : Csw)
  deriving DecidableEq

/-- A byte of one of the arrays a `READ(10)` response is copied from. -/
inductive Src
  | bootSector (i : ℕ)
  | fatHead (i : ℕ)
  | rootDirEntry (i : ℕ)
  | mscRamDisk (i : ℕ)
  deriving DecidableEq

/-- The index lies inside the array. -/
def Src.InBounds : Src → Prop
  | .bootSector i => i < 512
  | .fatHead i => i < 6
  | .rootDirEntry i => i < 32
  | .mscRamDisk i => i < ramDiskSize

instance : DecidablePred Src.InBounds
  | .bootSector i => inferInstanceAs (Decidable (i < 512))
  | .fatHead i => inferInstanceAs (Decidable (i < 6))
  | .rootDirEntry i => inferInstanceAs (Decidable (i < 32))
  | .mscRamDisk i => inferInstanceAs (Decidable (i < ramDiskSize))

/-- What a step does that an observer can see. -/
inductive Event
  /-- A CBW was accepted. -/
  | accepted (c : Cbw)
  /-- A byte was copied into a response. -/
  | copied (src : Src)
  /-- A byte was stored at this index of `msc_ram_disk`. -/
  | stored (i : ℕ)
  /-- `n` bytes were consumed by the `MSC_DATA_OUT` branch. -/
  | consumed (n : ℕ)
  /-- The fallback branch of `MSC_PrepareDataIn` was taken. -/
  | fallback
  /-- A packet was put into the slot of `EP_MSC_IN`. -/
  | sent (p : InPacket)
  /-- The host took the packet of `EP_MSC_IN`. -/
  | taken (p : InPacket)
  deriving DecidableEq

/-! ### The globals -/

/-- The globals of the mass-storage function and the single slot of `EP_MSC_IN`. -/
structure Msc where
  mscState : MscState
  cbw : Cbw
  csw : Csw
  mscCurrentOffset : UInt32
  mscBytesRemaining : UInt32
  mscRamDisk : Block UInt8 ramDiskSize
  rootDirEntry : Block UInt8 32
  activeFileCluster : UInt16
  activeFileSize : UInt32
  fileChanged : Bool
  /-- The packet of `EP_MSC_IN` that the host has not taken yet. -/
  epMscIn : Option InPacket

/-- `usb_init` : the state at power-up. -/
def usbInit : Msc where
  mscState := .idle
  cbw := ⟨0, 0, 0, 0, 0, 0, fun _ => 0⟩
  csw := ⟨0, 0, 0, 0⟩
  mscCurrentOffset := 0
  mscBytesRemaining := 0
  mscRamDisk := Block.ofList mainPy
  rootDirEntry := rootDirEntryInit
  activeFileCluster := fileCluster
  activeFileSize := mainPySize
  fileChanged := false
  epMscIn := none

/-- The byte a copy reads. -/
def Src.load (s : Msc) : Src → UInt8
  | .bootSector i => Ch32fun.bootSector.get i
  | .fatHead i => Ch32fun.fatHead.get i
  | .rootDirEntry i => s.rootDirEntry.get i
  | .mscRamDisk i => s.mscRamDisk.get i

/-! ### Reading a log -/

namespace Event

/-- The packets an event puts into the slot of `EP_MSC_IN`. -/
@[simp] def sentPackets : Event → List InPacket
  | .sent p => [p]
  | _ => []

/-- The CBWs an event accepts. -/
@[simp] def acceptedCbws : Event → List Cbw
  | .accepted c => [c]
  | _ => []

/-- The status wrappers an event puts into the slot. -/
@[simp] def sentCsws : Event → List Csw
  | .sent (.csw w) => [w]
  | _ => []

/-- The status wrappers the host takes. -/
@[simp] def takenCsws : Event → List Csw
  | .taken (.csw w) => [w]
  | _ => []

/-- The data bytes an event puts into the slot. -/
@[simp] def dataInBytes : Event → List UInt8
  | .sent (.data bs) => bs
  | _ => []

/-- The data bytes an event consumes. -/
@[simp] def dataOutCount : Event → ℕ
  | .consumed n => n
  | _ => 0

/-- The source bytes an event copies into a response. -/
@[simp] def copies : Event → List Src
  | .copied src => [src]
  | _ => []

end Event

/-- The packets put into the slot of `EP_MSC_IN`, in order. -/
def sentPackets (log : List Event) : List InPacket := log.flatMap Event.sentPackets

-- The readers below are reducible: the simp set of `List.flatMap` says what they read of a log.

/-- The accepted CBWs, in order. -/
abbrev acceptedCbws (log : List Event) : List Cbw := log.flatMap Event.acceptedCbws

/-- The status wrappers put into the slot, in order. -/
abbrev sentCsws (log : List Event) : List Csw := log.flatMap Event.sentCsws

/-- The status wrappers the host took, in order. -/
abbrev takenCsws (log : List Event) : List Csw := log.flatMap Event.takenCsws

/-- The bytes of the data packets put into the slot, in order. -/
abbrev dataInBytes (log : List Event) : List UInt8 := log.flatMap Event.dataInBytes

/-- The number of bytes consumed by the `MSC_DATA_OUT` branch. -/
def dataOutCount (log : List Event) : ℕ := (log.map Event.dataOutCount).sum

/-- The source bytes copied into responses, in order. -/
def copies (log : List Event) : List Src := log.flatMap Event.copies

section Log

variable (e : Event) (l l' : List Event)

@[simp] theorem sentPackets_nil : sentPackets [] = [] := rfl

@[simp] theorem sentPackets_cons : sentPackets (e :: l) = e.sentPackets ++ sentPackets l := rfl

@[simp] theorem sentPackets_append : sentPackets (l ++ l') = sentPackets l ++ sentPackets l' :=
  List.flatMap_append

@[simp] theorem dataOutCount_nil : dataOutCount [] = 0 := rfl

@[simp] theorem dataOutCount_cons : dataOutCount (e :: l) = e.dataOutCount + dataOutCount l := by
  simp [dataOutCount]

@[simp] theorem dataOutCount_append :
    dataOutCount (l ++ l') = dataOutCount l + dataOutCount l' := by
  simp [dataOutCount]

@[simp] theorem copies_nil : copies [] = [] := rfl

@[simp] theorem copies_cons : copies (e :: l) = e.copies ++ copies l := rfl

@[simp] theorem copies_append : copies (l ++ l') = copies l ++ copies l' :=
  List.flatMap_append

end Log

end Ch32fun
