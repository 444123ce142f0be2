import Ch32fun.Console.Basic
import Ch32fun.Data.Word

/-!
# The CDC buffer in the integers of C

`usb_inbuf_idx` and `len` are of type `int`, `sizeof` is unsigned: the headroom is computed modulo
`2^32`, and the loop that frees up space compares a signed index with an unsigned bound.  This file
spells the interrupt out in these types, with array accesses that fail outside of the array, and
joins it to `Console.handleCdcOut`.

* `CdcVars.handleCdcOut` : `HandleDataOut` for `EP_CDC_OUT`.
* `CdcVars.poll` : the console half of `poll_usb_input`, as far as it touches the buffer.
* `handleCdcOut_simulates`, `poll_simulates` : they never fail, and do what `Console` says.
* `cdc_keeps_newest` : in every run the buffer holds the newest bytes since the last poll.
-/

namespace Ch32fun

/-- `usb_inputbuffer` and `usb_inbuf_idx`. -/
structure CdcVars where
  usbInputbuffer : Block UInt8 usbfsPacketSize
  usbInbufIdx : Int32

namespace CdcVars

/-- `int headroom = (sizeof(usb_inputbuffer) - usb_inbuf_idx) - len;`, in `size_t`. -/
def headroom (v : CdcVars) (len : Int32) : Int32 :=
  (((64 : UInt32) - v.usbInbufIdx.toUInt32) - len.toUInt32).toInt32

/-- `for(int i = offset; i < sizeof(usb_inputbuffer); i++)`, from `i` on. -/
def freeUp (buf : Block UInt8 usbfsPacketSize) (offset i : Int32) :
    Option (Block UInt8 usbfsPacketSize) :=
  if i.toUInt32 < 64 then do
    let b ← buf.load i
    let buf ← buf.store (i - offset) b
    freeUp buf offset (i + 1)
  else some buf
  termination_by 64 - i.toUInt32.toNat
  decreasing_by
    rename_i h
    have hlt : i.toUInt32.toNat < 64 := UInt32.lt_iff_toNat_lt.1 h
    have hnext : (i + 1).toUInt32.toNat = i.toUInt32.toNat + 1 := by
      rw [Int32.toUInt32_add, UInt32.toNat_add]
      change (i.toUInt32.toNat + 1) % 2 ^ 32 = _
      omega
    omega

/-- `if(headroom < 0)`. -/
def makeRoom (v : CdcVars) (len : Int32) : Option CdcVars :=
  if v.headroom len < 0 then do
    let offset := -v.headroom len
    let buf ← freeUp v.usbInputbuffer offset offset
    some ⟨buf, v.usbInbufIdx - offset⟩
  else some v

/-- `usb_inputbuffer[usb_inbuf_idx++] = b;`. -/
def append (v : CdcVars) (b : UInt8) : Option CdcVars := do
  let buf ← v.usbInputbuffer.store v.usbInbufIdx b
  some ⟨buf, v.usbInbufIdx + 1⟩

/-- `HandleDataOut` for `EP_CDC_OUT`. -/
def handleCdcOut (v : CdcVars) (data : List UInt8) : Option CdcVars := do
  let v ← v.makeRoom (Int32.ofNat data.length)
  data.foldlM append v

/-- The bytes `data[0], data[1], …` that `handle_input` is called for. -/
def handed (v : CdcVars) : Option (List UInt8) :=
  (List.range v.usbInbufIdx.toInt.toNat).mapM fun i => v.usbInputbuffer.load (Int32.ofNat i)

/-- `if(usb_inbuf_idx) { handle_usb_input(usb_inbuf_idx, usb_inputbuffer); usb_inbuf_idx = 0; }` -/
def poll (v : CdcVars) : Option (CdcVars × List UInt8) :=
  if v.usbInbufIdx ≠ 0 then do
    let data ← v.handed
    some ({ v with usbInbufIdx := 0 }, data)
  else some (v, [])

end CdcVars

/-- The interrupt and the poll. -/
inductive CdcInput
  | packet (p : CdcPacket)
  | poll

/-- The buffer; the bytes that a poll hands on are observed. -/
def cdcMachine : Machine CdcVars CdcInput (List UInt8) where
  step v
    | .packet p => (v.handleCdcOut p.data).map fun v => (v, [])
    | .poll => v.poll.map fun (v, data) => (v, [data])

/-- The bytes that arrived since the last poll, one input later. -/
def CdcInput.arrive (bytes : List UInt8) : CdcInput → List UInt8
  | .packet p => bytes ++ p.data
  | .poll => []

/-- The bytes that arrived since the last poll. -/
def sinceLastPoll (as : List CdcInput) : List UInt8 := as.foldl CdcInput.arrive []

namespace CdcVars

/-- The variables of a console. -/
structure Represents (v : CdcVars) (c : Console) : Prop where
  buf : v.usbInputbuffer = c.usbInputbuffer
  idx : v.usbInbufIdx.toInt = c.usbInbufIdx

variable {v : CdcVars} {c : Console}

/-! ### The steps of the interrupt -/

/-- The unsigned differences wrap around to the signed one. -/
theorem Represents.headroom (h : v.Represents c) (p : CdcPacket) :
    (v.headroom (Int32.ofNat p.data.length)).toInt = c.headroom p := by
  have hidx : c.usbInbufIdx ≤ 64 := c.idx_le
  have hlen : p.data.length ≤ 64 := p.length_le
  have hroom : c.headroom p = (64 - c.usbInbufIdx) - p.data.length := rfl
  have h64 : (64 : Int32).toInt = 64 := rfl
  have hp : (Int32.ofNat p.data.length).toInt = p.data.length :=
    Int32.toInt_ofNat_of_lt (by omega)
  have hsub : ((64 : Int32) - v.usbInbufIdx).toInt = 64 - c.usbInbufIdx := by
    rw [toInt_sub_of_bounds (by rw [h64, h.idx]; omega) (by rw [h64, h.idx]; omega), h64, h.idx]
  have hwords : v.headroom (Int32.ofNat p.data.length) =
      64 - v.usbInbufIdx - Int32.ofNat p.data.length := by
    simp [CdcVars.headroom]
  rw [hwords, toInt_sub_of_bounds (by rw [hsub, hp]; omega) (by rw [hsub, hp]; omega), hsub, hp,
    hroom]

theorem freeUp_eq {offset : Int32} {k : ℕ} (hk : offset.toInt = k) (n : ℕ) :
    ∀ (buf : Block UInt8 usbfsPacketSize) (i : Int32), k ≤ 64 - n → n ≤ 64 →
      i.toInt = (64 - n : ℕ) → freeUp buf offset i =
        some ((List.range' (64 - n) n).foldl
          (fun buf i => buf.write (i - k) 1 fun _ => buf.get i) buf) := by
  induction n with
  | zero =>
    intro buf i _ _ hi
    have hnat := toNat_toUInt32 i
    rw [freeUp, if_neg]
    · rfl
    · rw [UInt32.lt_iff_toNat_lt, show (64 : UInt32).toNat = 64 from rfl]
      omega
  | succ n ih =>
    intro buf i hle hn hi
    have hnat := toNat_toUInt32 i
    have hlt : i.toUInt32 < 64 := by
      rw [UInt32.lt_iff_toNat_lt, show (64 : UInt32).toNat = 64 from rfl]
      omega
    have hsub : (i - offset).toInt = ((64 - (n + 1) - k : ℕ) : ℤ) := by
      rw [toInt_sub_of_bounds (by omega) (by omega)]
      omega
    have hnext : (i + 1).toInt = ((64 - n : ℕ) : ℤ) := by
      have h1 : (1 : Int32).toInt = 1 := rfl
      rw [toInt_add_of_bounds (by rw [h1]; omega) (by rw [h1]; omega), h1]
      omega
    have hidx : 64 - (n + 1) + 1 = 64 - n := by omega
    rw [freeUp, if_pos hlt, Block.load_of_toInt hi (by rw [Console.packetSize_eq]; omega)]
    simp only [Option.bind_eq_bind, Option.bind_some]
    rw [Block.store_of_toInt buf _ hsub (by rw [Console.packetSize_eq]; omega), Option.bind_some,
      ih _ _ (by omega) (by omega) hnext, List.range'_succ, List.foldl_cons, hidx]

theorem Represents.makeRoom (h : v.Represents c) (p : CdcPacket) :
    ∃ v', v.makeRoom (Int32.ofNat p.data.length) = some v' ∧ v'.Represents (c.makeRoom p) := by
  have hroom := h.headroom p
  have hdef : c.headroom p = (64 - c.usbInbufIdx) - p.data.length := rfl
  have hidx : c.usbInbufIdx ≤ 64 := c.idx_le
  have hlen : p.data.length ≤ 64 := p.length_le
  have hneg : v.headroom (Int32.ofNat p.data.length) < 0 ↔ c.headroom p < 0 := by
    rw [Int32.lt_iff_toInt_lt, hroom]
    rfl
  unfold CdcVars.makeRoom Console.makeRoom
  by_cases hc : c.headroom p < 0
  · rw [if_pos (hneg.2 hc), if_pos hc]
    -- the offset is positive and at most the size of the buffer
    have hoff : (-v.headroom (Int32.ofNat p.data.length)).toInt = ((-c.headroom p).toNat : ℤ) := by
      rw [toInt_neg_of_bounds (by rw [hroom]; omega), hroom]
      omega
    have hloop := freeUp_eq hoff (64 - (-c.headroom p).toNat) v.usbInputbuffer
      (-v.headroom (Int32.ofNat p.data.length)) (by omega) (by omega) (by rw [hoff]; omega)
    rw [show 64 - (64 - (-c.headroom p).toNat) = (-c.headroom p).toNat by omega] at hloop
    refine ⟨_, by dsimp only; rw [hloop]; rfl, ?_, ?_⟩
    · rw [h.buf]
      rfl
    · have hsub := toInt_sub_of_bounds (x := v.usbInbufIdx)
        (y := -v.headroom (Int32.ofNat p.data.length)) (by rw [h.idx, hoff]; omega)
        (by rw [h.idx, hoff]; omega)
      dsimp only
      rw [hsub, h.idx, hoff]
      omega
  · rw [if_neg (mt hneg.1 hc), if_neg hc]
    exact ⟨v, rfl, h⟩

theorem foldlM_append (data : List UInt8) : ∀ (v : CdcVars) (k : ℕ), v.usbInbufIdx.toInt = k →
    k + data.length ≤ usbfsPacketSize → ∃ v', data.foldlM append v = some v' ∧
      v'.usbInputbuffer = v.usbInputbuffer.write k data.length (fun i => data.getD i 0) ∧
      v'.usbInbufIdx.toInt = (k + data.length : ℕ) := by
  induction data with
  | nil =>
    intro v k hk _
    exact ⟨v, rfl, (Block.write_zero _ _ _).symm, hk⟩
  | cons b data ih =>
    intro v k hk hle
    rw [Console.packetSize_eq, List.length_cons] at hle
    have h1 : (1 : Int32).toInt = 1 := rfl
    have hnext : (v.usbInbufIdx + 1).toInt = ((k + 1 : ℕ) : ℤ) := by
      rw [toInt_add_of_bounds (by rw [h1]; omega) (by rw [h1]; omega), h1, hk]
      rfl
    have hstep : v.append b =
        some ⟨v.usbInputbuffer.write k 1 fun _ => b, v.usbInbufIdx + 1⟩ := by
      rw [append, Block.store_of_toInt _ _ hk (by rw [Console.packetSize_eq]; omega)]
      rfl
    obtain ⟨v', hv', hbuf, hidx⟩ := ih ⟨v.usbInputbuffer.write k 1 fun _ => b, v.usbInbufIdx + 1⟩
      (k + 1) hnext (by rw [Console.packetSize_eq]; omega)
    refine ⟨v', by rw [List.foldlM_cons, hstep]; exact hv', ?_, ?_⟩
    · have happ := Block.write_append v.usbInputbuffer k 1 data.length
        fun i => (b :: data).getD i 0
      simp only [Nat.add_comm 1, List.getD_cons_succ] at happ
      rw [hbuf, List.length_cons, ← happ]
      dsimp only
      congr 1
      refine Block.write_congr _ _ fun i hi => ?_
      rw [Nat.lt_one_iff.1 hi, List.getD_cons_zero]
    · rw [hidx, List.length_cons]
      omega

/-- **The interrupt never leaves the buffer, and does what `Console.handleCdcOut` says.** -/
theorem handleCdcOut_simulates (h : v.Represents c) (p : CdcPacket) :
    ∃ v', v.handleCdcOut p.data = some v' ∧ v'.Represents (c.handleCdcOut p) := by
  obtain ⟨v₁, hroom, hrep⟩ := h.makeRoom p
  obtain ⟨v₂, hfold, hbuf, hidx⟩ := foldlM_append p.data v₁ _ hrep.idx (c.makeRoom_le p)
  refine ⟨v₂, ?_, ?_, hidx⟩
  · rw [CdcVars.handleCdcOut, hroom]
    exact hfold
  · rw [hbuf, hrep.buf]
    rfl

/-! ### Runs -/

theorem mapM_eq_some {α β : Type} {f : α → Option β} {g : α → β} {l : List α}
    (h : ∀ x ∈ l, f x = some (g x)) : l.mapM f = some (l.map g) := by
  induction l with
  | nil => rfl
  | cons x l ih =>
    rw [List.mapM_cons, h x List.mem_cons_self, ih fun y hy => h y (List.mem_cons_of_mem _ hy)]
    rfl

theorem Represents.handed (h : v.Represents c) : v.handed = some c.buffered := by
  have hidx : c.usbInbufIdx ≤ 64 := c.idx_le
  have hload : ∀ i ∈ List.range c.usbInbufIdx,
      v.usbInputbuffer.load (Int32.ofNat i) = some (c.usbInputbuffer.get i) := by
    intro i hi
    have hi := List.mem_range.1 hi
    rw [h.buf]
    exact Block.load_of_toInt (Int32.toInt_ofNat_of_lt (by omega))
      (by rw [Console.packetSize_eq]; omega)
  rw [CdcVars.handed, h.idx, Int.toNat_natCast, Console.buffered]
  exact mapM_eq_some hload

theorem poll_simulates (h : v.Represents c) :
    ∃ v', v.poll = some (v', c.buffered) ∧ v'.Represents c.pollUsbInput.1 := by
  have hzero : v.usbInbufIdx = 0 ↔ c.usbInbufIdx = 0 := by
    rw [← Int32.toInt_inj, h.idx, show (0 : Int32).toInt = 0 from rfl]
    omega
  rw [Console.pollUsbInput_fst, CdcVars.poll]
  by_cases hc : c.usbInbufIdx = 0
  · refine ⟨v, ?_, h.buf, h.idx.trans (by rw [hc])⟩
    rw [if_neg (not_not.2 (hzero.2 hc)), Console.buffered, hc]
    rfl
  · exact ⟨{ v with usbInbufIdx := 0 }, by rw [if_pos (mt hzero.1 hc), h.handed]; rfl, h.buf, rfl⟩

theorem rtake_rtake_append {α : Type*} (l l' : List α) (n : ℕ) :
    (l.rtake n ++ l').rtake n = (l ++ l').rtake n := by
  simp only [List.rtake, List.length_append, List.length_drop]
  by_cases h : l.length ≤ n
  · rw [Nat.sub_eq_zero_of_le h, List.drop_zero, Nat.sub_zero]
  · rw [← List.drop_append_of_le_length (by omega), List.drop_drop]
    congr 1
    omega

theorem run_exists (as : List CdcInput) (h : v.Represents c) {bytes : List UInt8}
    (hbytes : c.buffered = bytes.rtake usbfsPacketSize) :
    ∃ log v' c', cdcMachine.Run Machine.Free v as log v' ∧ v'.Represents c' ∧
      c'.buffered = (as.foldl CdcInput.arrive bytes).rtake usbfsPacketSize := by
  induction as generalizing v c bytes with
  | nil => exact ⟨[], v, c, .nil v, h, hbytes⟩
  | cons a as ih =>
    cases a with
    | packet p =>
      obtain ⟨v₁, hv₁, hrep⟩ := handleCdcOut_simulates h p
      have hnew : (c.handleCdcOut p).buffered = (bytes ++ p.data).rtake usbfsPacketSize := by
        rw [Console.buffered_handleCdcOut, hbytes, rtake_rtake_append]
      obtain ⟨log, v', c', hr, hrep', hbuf⟩ := ih hrep hnew
      have hst : cdcMachine.step v (.packet p) = some (v₁, []) :=
        Option.map_eq_some_iff.2 ⟨_, hv₁, rfl⟩
      exact ⟨_, v', c', .cons trivial hst hr, hrep', hbuf⟩
    | poll =>
      obtain ⟨v₁, hv₁, hrep⟩ := poll_simulates h
      have hnone : c.pollUsbInput.1.buffered = ([] : List UInt8).rtake usbfsPacketSize := by
        rw [Console.pollUsbInput_fst]
        rfl
      obtain ⟨log, v', c', hr, hrep', hbuf⟩ := ih hrep hnone
      have hst : cdcMachine.step v .poll = some (v₁, [c.buffered]) :=
        Option.map_eq_some_iff.2 ⟨_, hv₁, rfl⟩
      exact ⟨_, v', c', .cons trivial hst hr, hrep', hbuf⟩

/-- **The CDC buffer keeps the newest bytes.**  From power-up, with anything in the buffer, no
sequence of packets and polls leads to an access outside of it; the index stays in its range, and
the bytes below it are the last 64, or all, of those that arrived since the last poll. -/
theorem cdc_keeps_newest (buf : Block UInt8 usbfsPacketSize) (as : List CdcInput) :
    ∃ log v, cdcMachine.Run Machine.Free ⟨buf, 0⟩ as log v ∧
      0 ≤ v.usbInbufIdx.toInt ∧ v.usbInbufIdx.toInt ≤ usbfsPacketSize ∧
      v.usbInbufIdx.toInt = min usbfsPacketSize (sinceLastPoll as).length ∧
      (List.range v.usbInbufIdx.toInt.toNat).map v.usbInputbuffer.get =
        (sinceLastPoll as).rtake usbfsPacketSize := by
  have h₀ : Represents ⟨buf, 0⟩ { consoleInit with usbInputbuffer := buf } := ⟨rfl, rfl⟩
  obtain ⟨log, v, c, hr, hrep, hbuf⟩ :=
    run_exists as h₀ (show _ = ([] : List UInt8).rtake _ from rfl)
  have hidx : c.usbInbufIdx ≤ usbfsPacketSize := c.idx_le
  have hlen := congrArg List.length hbuf
  rw [Console.length_buffered, List.rtake, List.length_drop] at hlen
  refine ⟨log, v, hr, ?_, ?_, ?_, ?_⟩
  · rw [hrep.idx]
    omega
  · rw [hrep.idx]
    omega
  · rw [hrep.idx, hlen, sinceLastPoll]
    omega
  · rw [hrep.idx, Int.toNat_natCast, hrep.buf]
    exact hbuf

end CdcVars

end Ch32fun
