import Ch32fun.Msc.Basic

/-!
# The data-in path: `MSC_PrepareDataIn`

What the driver queues next on `EP_MSC_IN`.  The function is cut where the source is cut by
comments: the choice of the data source (`dataSource`, the `switch` over the command block), the
send, and the update of the transfer counters (`updateState`).

* `sendEndpoint` : `while(USBFS_SendEndpointNEW(EP_MSC_IN, …) == -1);`.  The result `none` means
  that the loop spins: the packet in the slot has not been taken yet.
* `read10Src` : where a byte of a `READ(10)` response comes from; `none` is a byte of the scratch
  buffer that is left zero.  The three copies of the source (two `memcpy` and the two loops) are
  described byte by byte, so that every index they read can be spoken about.
* `mscPrepareDataIn` : the function itself.
-/

namespace Ch32fun

namespace Msc

/-- `while(USBFS_SendEndpointNEW(EP_MSC_IN, …) == -1);` : `none` while the slot is occupied. -/
def sendEndpoint (s : Msc) (p : InPacket) : Option (Msc × List Event) :=
  match s.epMscIn with
  | some _ => none
  | none => some ({ s with epMscIn := some p }, [.sent p])

/-- `msc_state = MSC_SEND_CSW;` and the send of `csw`. -/
def sendStatus (s : Msc) : Option (Msc × List Event) :=
  sendEndpoint { s with mscState := .sendCsw } (.csw s.csw)

/-! ### READ(10) -/

/-- `cbw.DataTransferLength - msc_bytes_remaining`, in 32-bit arithmetic. -/
def transferOffset (s : Msc) : UInt32 := s.cbw.dataTransferLength - s.mscBytesRemaining

/-- `current_lba = lba_start + lba_offset`. -/
def currentLba (s : Msc) : UInt32 := s.cbw.lba + s.transferOffset / 512

/-- `byte_offset_in_sector`. -/
def byteOffsetInSector (s : Msc) : UInt32 := s.transferOffset % 512

/-- `(msc_bytes_remaining > 64) ? 64 : msc_bytes_remaining`. -/
def readLen (s : Msc) : UInt32 := if s.mscBytesRemaining > 64 then 64 else s.mscBytesRemaining

/-- The source of byte `i` of a `READ(10)` packet of length `len` at byte `off` of sector `lba`. -/
def read10Src (lba off len : UInt32) (i : ℕ) : Option Src :=
  if lba = 0 then
    some (.bootSector (off.toNat + i))
  else if startFat1 ≤ lba ∧ lba < startRoot then
    if (lba = startFat1 ∨ lba = startFat2) ∧ off < 6 ∧ off.toNat + i < 6 then
      some (.fatHead (off.toNat + i))
    else none
  else if startRoot ≤ lba ∧ lba < startData then
    if lba = startRoot ∧ off.toNat + i < 32 then some (.rootDirEntry (off.toNat + i)) else none
  else if startData ≤ lba then
    let ramOffset := (lba - startData) * 512 + off
    if ramOffset + len ≤ mscRamDiskSize then some (.mscRamDisk (ramOffset.toNat + i)) else none
  else none

section Regions

variable {lba off len : UInt32} {i : ℕ}

theorem region_cases (lba : UInt32) : lba = 0 ∨ (startFat1 ≤ lba ∧ lba < startRoot) ∨
    (startRoot ≤ lba ∧ lba < startData) ∨ startData ≤ lba := by
  have h : lba.toNat = 0 ∨ (1 ≤ lba.toNat ∧ lba.toNat < 33) ∨
      (33 ≤ lba.toNat ∧ lba.toNat < 65) ∨ 65 ≤ lba.toNat := by omega
  simp only [UInt32.le_iff_toNat_le, UInt32.lt_iff_toNat_lt, ← UInt32.toNat_inj]
  exact h

section Ite

variable {α : Sort*} (boot fat root data none : α)

theorem ite_region_fat (h : startFat1 ≤ lba ∧ lba < startRoot) :
    (if lba = 0 then boot else if startFat1 ≤ lba ∧ lba < startRoot then fat
      else if startRoot ≤ lba ∧ lba < startData then root
      else if startData ≤ lba then data else none) = fat := by
  have h0 : lba ≠ 0 := by rintro rfl; exact absurd h.1 (by decide)
  rw [if_neg h0, if_pos h]

theorem ite_region_root (h : startRoot ≤ lba ∧ lba < startData) :
    (if lba = 0 then boot else if startFat1 ≤ lba ∧ lba < startRoot then fat
      else if startRoot ≤ lba ∧ lba < startData then root
      else if startData ≤ lba then data else none) = root := by
  have h0 : lba ≠ 0 := by rintro rfl; exact absurd h.1 (by decide)
  have h1 : ¬ (startFat1 ≤ lba ∧ lba < startRoot) := fun h' => absurd h.1 (UInt32.not_le.2 h'.2)
  rw [if_neg h0, if_neg h1, if_pos h]

theorem ite_region_data (h : startData ≤ lba) :
    (if lba = 0 then boot else if startFat1 ≤ lba ∧ lba < startRoot then fat
      else if startRoot ≤ lba ∧ lba < startData then root
      else if startData ≤ lba then data else none) = data := by
  have h0 : lba ≠ 0 := by rintro rfl; exact absurd h (by decide)
  have h1 : ¬ (startFat1 ≤ lba ∧ lba < startRoot) := fun h' =>
    absurd (UInt32.le_trans (by decide : startRoot ≤ startData) h) (UInt32.not_le.2 h'.2)
  have h2 : ¬ (startRoot ≤ lba ∧ lba < startData) := fun h' => absurd h (UInt32.not_le.2 h'.2)
  rw [if_neg h0, if_neg h1, if_neg h2, if_pos h]

end Ite

theorem read10Src_fat (h : startFat1 ≤ lba ∧ lba < startRoot) : read10Src lba off len i =
    if (lba = startFat1 ∨ lba = startFat2) ∧ off < 6 ∧ off.toNat + i < 6 then
      some (.fatHead (off.toNat + i))
    else none :=
  ite_region_fat _ _ _ _ _ h

theorem read10Src_root (h : startRoot ≤ lba ∧ lba < startData) : read10Src lba off len i =
    if lba = startRoot ∧ off.toNat + i < 32 then some (.rootDirEntry (off.toNat + i))
    else none :=
  ite_region_root _ _ _ _ _ h

theorem read10Src_data (h : startData ≤ lba) : read10Src lba off len i =
    if (lba - startData) * 512 + off + len ≤ mscRamDiskSize then
      some (.mscRamDisk (((lba - startData) * 512 + off).toNat + i))
    else none :=
  ite_region_data _ _ _ _ _ h

end Regions

/-- The effect of preparing a packet of the first root directory sector: the active cluster is
reset, and the size field of the cached entry is brought up to date. -/
def refreshRoot (s : Msc) : Msc :=
  if s.currentLba = startRoot then
    { s with
      activeFileCluster := fileCluster
      rootDirEntry := s.rootDirEntry.write 28 4 (leByte s.activeFileSize) }
  else s

/-! ### The response -/

/-- The local variables of `MSC_PrepareDataIn` after the `switch`. -/
structure Response where
  lenToSend : UInt32
  /-- `src_ptr`, `none` for `NULL`. -/
  srcPtr : Option (ℕ → UInt8)
  isShortTransfer : Bool
  /-- The source bytes that were copied. -/
  copied : List Src

/-- A generated header: `bytes`, then zeros. -/
def Response.header (bytes : List UInt8) (len : UInt32) : Response :=
  ⟨len, some fun i => bytes.getD i 0, true, []⟩

/-- The bytes that are sent. -/
def Response.bytes (r : Response) : List UInt8 :=
  (List.range r.lenToSend.toNat).map (r.srcPtr.getD fun _ => 0)

/-- The response of `READ(10)`. -/
def read10Response (s : Msc) : Response :=
  let src := read10Src s.currentLba s.byteOffsetInSector s.readLen
  { lenToSend := s.readLen
    srcPtr := some fun i => (src i).elim 0 (Src.load s.refreshRoot)
    isShortTransfer := false
    copied := (List.range s.readLen.toNat).filterMap src }

/-- The big-endian bytes of a word, as `__builtin_bswap32` and a little-endian store leave them. -/
def beBytes (x : UInt32) : List UInt8 := [leByte x 3, leByte x 2, leByte x 1, leByte x 0]

/-- The 36 bytes set by `INQUIRY`. -/
def inquiryData : List UInt8 :=
  [0x00, 0x80, 0x02, 0x02, 32, 0, 0, 0] ++ ascii "WCH     " ++ ascii "ch32fun_MSC     " ++
    ascii "1.00"

/-- The one-shot commands of the `switch (cbw.CB[0])`, and its `default`, with `remaining` bytes
left. -/
def oneShotResponse (remaining : UInt32) : Opcode → Response
  | .requestSense => .header [0x70, 0, 0, 0, 0, 0, 0, 0x0A] 18
  | .inquiry =>
    let actualLen : UInt32 := 37
    .header inquiryData (if remaining < actualLen then remaining else actualLen)
  | .readCapacity10 => .header (beBytes (mscTotalSectors - 1) ++ beBytes mscBlockSize) 8
  | .modeSense6 => .header [3, 0, 0, 0] 4
  | .modeSense10 => .header [0, 6, 0, 0, 0, 0, 0, 0] 8
  | .testUnitReady | .preventAllowRemoval | .write10 | .read10 | .other => ⟨0, none, false, []⟩

/-- The `switch (cbw.CB[0])` of `MSC_PrepareDataIn`. -/
def dataSource (s : Msc) : Msc × Response :=
  match s.cbw.opcode with
  | .read10 => (s.refreshRoot, s.read10Response)
  | opcode => (s, oneShotResponse s.mscBytesRemaining opcode)

/-- Step 4, after the packet was queued. -/
def updateState (s : Msc) (r : Response) : Msc :=
  if r.isShortTransfer then
    { s with
      csw := { s.csw with dataResidue := s.mscBytesRemaining - r.lenToSend }
      mscBytesRemaining := 0 }
  else
    { s with
      mscBytesRemaining := s.mscBytesRemaining - r.lenToSend
      mscCurrentOffset := s.mscCurrentOffset + r.lenToSend }

/-- `MSC_PrepareDataIn`. -/
def mscPrepareDataIn (s : Msc) : Option (Msc × List Event) :=
  if s.mscState = .sendCsw then some (s, [])
  else if s.mscBytesRemaining = 0 then sendStatus s
  else
    let (s, r) := s.dataSource
    let log := r.copied.map .copied
    if 0 < r.lenToSend ∧ r.srcPtr.isSome then
      (s.sendEndpoint (.data r.bytes)).map fun (s, ev) => (s.updateState r, log ++ ev)
    else
      s.sendStatus.map fun (s, ev) => (s, log ++ .fallback :: ev)

end Msc

end Ch32fun
