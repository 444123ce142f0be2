import Ch32fun.Data.Block
import Ch32fun.Mem.Accessor
import Mathlib.Data.List.GetD

/-!
# The radio: transmission

`iSLER.tx` builds a packet on the stack and passes it to `iSLERTX` : a header byte, a length byte,
the MAC address in reversed order, and the payload.

* `packetFills` : what is written to the array of 256 bytes, as slices.
* `funIslerTx` : `fun_isler_tx`, once its arguments are converted.
* `decode` : the MAC address and the payload of a frame.
* `transmission_spec` : what is transmitted is inside the array, says its own length, and decodes to
  what was passed.
-/

namespace Ch32fun

namespace Isler

/-- The size of the arrays `packet` and `adv`. -/
abbrev packetSize : ℕ := 256

/-- One slice that is written to an array. -/
structure Fill where
  off : ℕ
  len : ℕ
  src : ℕ → UInt8

/-- Write a slice; what lies outside of the array is lost. -/
def Fill.apply (packet : Block UInt8 packetSize) (fill : Fill) : Block UInt8 packetSize :=
  packet.write fill.off fill.len fill.src

/-- The slices of a packet: `packet[0]`, `packet[1]`, the loop, and the `memcpy`. -/
def packetFills (mac payload : List UInt8) : List Fill :=
  [⟨0, 1, fun _ => 0x02⟩, ⟨1, 1, fun _ => UInt8.ofNat payload.length + 6⟩,
    ⟨2, 6, fun i => mac.getD (5 - i) 0⟩, ⟨8, payload.length, fun i => payload.getD i 0⟩]

/-- The packet; `stack` is what the array held before. -/
def packet (stack : Block UInt8 packetSize) (mac payload : List UInt8) :
    Block UInt8 packetSize := (packetFills mac payload).foldl Fill.apply stack

/-- A call of `iSLERTX`. -/
structure Transmission where
  accessAddr : UInt32
  adv : Block UInt8 packetSize
  len : ℕ
  channel : UInt8
  phyMode : UInt8

/-- The bytes that are transmitted. -/
def Transmission.bytes (t : Transmission) : List UInt8 := (List.range t.len).map t.adv.get

/-- `fun_isler_tx`. -/
def funIslerTx (accessAddr : UInt32) (mac payload : List UInt8) (channel phyMode : UInt8)
    (stack : Block UInt8 packetSize) : Except MpException Transmission :=
  if payload.length > 245 then .error (.valueError "payload too large")
  else if mac.length ≠ 6 then .error (.valueError "MAC address is 6 bytes")
  else .ok ⟨accessAddr, packet stack mac payload, payload.length + 6 + 2, channel, phyMode⟩

/-- The MAC address and the payload of a frame. -/
def decode (frame : List UInt8) : List UInt8 × List UInt8 :=
  (((frame.drop 2).take 6).reverse, frame.drop 8)

/-! ### What is transmitted -/

variable {stack : Block UInt8 packetSize} {mac payload : List UInt8} {accessAddr : UInt32}
  {channel phyMode : UInt8} {t : Transmission}

theorem funIslerTx_ok (h : funIslerTx accessAddr mac payload channel phyMode stack = .ok t) :
    payload.length ≤ 245 ∧ mac.length = 6 ∧ t.adv = packet stack mac payload ∧
      t.len = payload.length + 8 := by
  unfold funIslerTx at h
  split_ifs at h with hlen hmac
  cases h
  exact ⟨not_lt.1 hlen, not_not.1 hmac, rfl, rfl⟩

theorem packet_get {i : ℕ} (hi : i < payload.length + 8) (h : payload.length + 8 ≤ packetSize) :
    (packet stack mac payload).get i = if i = 0 then 0x02 else
      if i = 1 then UInt8.ofNat payload.length + 6 else
      if i < 8 then mac.getD (7 - i) 0 else payload.getD (i - 8) 0 := by
  have hlt : i < packetSize := by omega
  -- the last slice that covers the index decides, and no two slices overlap
  simp only [packet, packetFills, List.foldl_cons, List.foldl_nil, Fill.apply,
    Block.get_write hlt]
  by_cases h₀ : i = 0
  · rw [if_neg (by omega), if_neg (by omega), if_neg (by omega), if_pos (by omega), if_pos h₀]
  by_cases h₁ : i = 1
  · rw [if_neg (by omega), if_neg (by omega), if_pos (by omega), if_neg h₀, if_pos h₁]
  by_cases h₈ : i < 8
  · rw [if_neg (by omega), if_pos (by omega), if_neg h₀, if_neg h₁, if_pos h₈]
    congr 1
    omega
  · rw [if_pos (by omega), if_neg h₀, if_neg h₁, if_neg h₈]

theorem bytes_eq (hmac : mac.length = 6) (hlen : payload.length + 8 ≤ packetSize)
    (hadv : t.adv = packet stack mac payload) (ht : t.len = payload.length + 8) :
    t.bytes = 0x02 :: (UInt8.ofNat payload.length + 6) :: (mac.reverse ++ payload) := by
  refine List.ext_getElem (by simp [Transmission.bytes, ht, hmac]; omega) fun i hi hi' => ?_
  have hi : i < payload.length + 8 := by simpa [Transmission.bytes, ht] using hi
  simp only [Transmission.bytes, List.getElem_map, List.getElem_range]
  rw [hadv, packet_get hi hlen]
  match i with
  | 0 => rfl
  | 1 => rfl
  | i + 2 =>
    -- six bytes of the MAC address from its end on, then the payload
    rw [if_neg (by omega), if_neg (by omega), List.getElem_cons_succ, List.getElem_cons_succ]
    by_cases h₈ : i + 2 < 8
    · rw [if_pos h₈, List.getElem_append_left (by simp; omega), List.getElem_reverse,
        List.getD_eq_getElem _ _ (by omega)]
      congr 1
      omega
    · rw [if_neg h₈, List.getElem_append_right (by simp; omega),
        List.getD_eq_getElem _ _ (by omega)]
      congr 1
      simp [hmac]

/-- The length byte says the length as long as it fits into eight bits. -/
theorem packet_length (h : payload.length + 8 ≤ packetSize) :
    ((packet stack mac payload).get 1).toNat = (payload.length + 6) % 256 := by
  have hsecond : (packet stack mac payload).get 1 = UInt8.ofNat payload.length + 6 := by
    rw [packet_get (by omega) h]
    rfl
  rw [hsecond, UInt8.toNat_add, UInt8.toNat_ofNat']
  exact Nat.mod_add_mod _ _ _

theorem packetFills_in_bounds (h : payload.length + 8 ≤ packetSize) :
    ∀ fill ∈ packetFills mac payload, fill.off + fill.len ≤ packetSize := by
  simp only [packetFills, List.forall_mem_cons]
  exact ⟨by decide, by decide, by decide, by rwa [Nat.add_comm], by simp⟩

/-- **What `tx` transmits** is inside the array, has the length that its second byte says, and
decodes to what was passed. -/
theorem transmission_spec (h : funIslerTx accessAddr mac payload channel phyMode stack = .ok t) :
    (∀ fill ∈ packetFills mac payload, fill.off + fill.len ≤ packetSize) ∧
      (t.adv.get 1).toNat + 2 = t.len ∧ t.len = payload.length + 8 ∧
      decode t.bytes = (mac, payload) := by
  obtain ⟨hlen, hmac, hadv, ht⟩ := funIslerTx_ok h
  have hsize : payload.length + 8 ≤ 256 := by omega
  refine ⟨packetFills_in_bounds hsize, ?_, ht, ?_⟩
  · rw [hadv, packet_length hsize, ht]
    omega
  · have hrev : mac.reverse.length = 6 := by rw [List.length_reverse, hmac]
    rw [bytes_eq hmac hsize hadv ht, decode]
    simp [hrev]

end Isler

end Ch32fun
