import Ch32fun.Isler.Link

/-!
# Advertising

`iSLER.adv` builds its packet in the same way as `iSLER.tx`, but accepts longer payloads: 250 bytes
where `tx` accepts 245.  Five limits meet here: the accepted payload, the header of 8 bytes, the
array of 256, the length byte, and the range test of the receiver.

* `funIslerAdv` : `fun_isler_adv`, once its arguments are converted.
* `AdvRight` : it raises, or builds its packet inside the array, and the packet says its length and
  arrives.
* `adv_right_iff` : this is so exactly for payloads of at most 246 bytes and for those that are
  refused.
-/

namespace Ch32fun

namespace Isler

/-- `fun_isler_adv`; the transmissions in order.  `PHY_1M` is a constant of the radio. -/
def funIslerAdv (PHY_1M : UInt8) (mac payload : List UInt8) (stack : Block UInt8 packetSize) :
    Except MpException (List Transmission) :=
  if payload.length > 250 then .error (.valueError "payload too large")
  else if mac.length ≠ 6 then .error (.valueError "MAC address is 6 bytes")
  else
    let adv := packet stack mac payload
    .ok [⟨0x8E89BED6, adv, payload.length + 6 + 2, 37, PHY_1M⟩,
      ⟨0x8E89BED6, adv, payload.length + 6 + 2, 38, PHY_1M⟩,
      ⟨0x8E89BED6, adv, payload.length + 6 + 2, 39, PHY_1M⟩]

/-- A peer with an empty FIFO stores the whole packet, whatever `LLE_BUF` held before. -/
def Received (t : Transmission) : Prop := ∀ (peer : Isler) (lle : LleBuf),
  peer.rxFifo.count = 0 → (modIslerRxIsr peer (arrived t lle)).1.rxFifo.stored = t.bytes

/-- `adv` raises `ValueError`, or everything it writes is inside the array, the length byte says
the length, and the same packet is sent on the three channels and received. -/
def AdvRight (PHY_1M : UInt8) (mac payload : List UInt8) (stack : Block UInt8 packetSize) : Prop :=
  match funIslerAdv PHY_1M mac payload stack with
  | .error e => ∃ msg, e = .valueError msg
  | .ok ts => ∃ adv, ts.map Transmission.channel = [37, 38, 39] ∧
    (∀ t ∈ ts, t.adv = adv ∧ t.len = payload.length + 8) ∧
    (∀ fill ∈ packetFills mac payload, fill.off + fill.len ≤ packetSize) ∧
    (adv.get 1).toNat = payload.length + 6 ∧
    ∀ t ∈ ts, Received t

variable {PHY_1M : UInt8} {mac payload : List UInt8} {stack : Block UInt8 packetSize}
variable {t : Transmission}

/-- **The receiver takes a packet that says its length exactly when it has at most 254 bytes.** -/
theorem received_iff (h : (t.adv.get 1).toNat + 2 = t.len) : Received t ↔ t.len ≤ 254 := by
  have hlen : t.bytes.length = t.len := by simp [Transmission.bytes]
  constructor
  · intro hr
    by_contra hlong
    have hone : arrived t (fun _ => 0) 1 = t.adv.get 1 := if_pos (by omega)
    have hstored := congrArg List.length (hr islerInit (fun _ => 0) rfl)
    rw [isr_stored, isrBytes_of_gt (by rw [hone]; omega), hlen] at hstored
    -- of a longer frame at most one byte is stored
    have hshort : (if arrived t (fun _ => 0) 1 = 255 then [arrived t (fun _ => 0) 0] else
      []).length ≤ 1 := by
      split_ifs <;> simp
    have hempty : islerInit.rxFifo.stored = [] := rfl
    rw [hempty, List.nil_append, List.length_take] at hstored
    omega
  · intro hle peer lle hempty
    have hstored : peer.rxFifo.stored = [] := by
      rw [← List.length_eq_zero_iff, Ring.length_stored, hempty]
    rw [isr_stored, isrBytes_arrived h hle, hstored, hempty, List.nil_append]
    exact List.take_of_length_le (by rw [hlen]; exact hle.trans (by decide))

/-- **When advertising goes right**: for a MAC address of the wrong length, and for a payload that
is refused or has at most 246 bytes.  The limit 250 of `adv` lets four lengths pass that do not
fit. -/
theorem adv_right_iff (PHY_1M : UInt8) (mac payload : List UInt8)
    (stack : Block UInt8 packetSize) : AdvRight PHY_1M mac payload stack ↔
      mac.length ≠ 6 ∨ 250 < payload.length ∨ payload.length ≤ 246 := by
  unfold AdvRight funIslerAdv
  by_cases hlong : payload.length > 250
  · rw [if_pos hlong]
    exact ⟨fun _ => .inr (.inl hlong), fun _ => ⟨_, rfl⟩⟩
  by_cases hmac : mac.length ≠ 6
  · rw [if_neg hlong, if_pos hmac]
    exact ⟨fun _ => .inl hmac, fun _ => ⟨_, rfl⟩⟩
  rw [if_neg hlong, if_neg hmac]
  dsimp only
  constructor
  · rintro ⟨adv, -, hts, -, hlen, hreceived⟩
    obtain ⟨hadv, ht⟩ := hts _ List.mem_cons_self
    have hshort := (received_iff (by rw [hadv, hlen, ht])).1 (hreceived _ List.mem_cons_self)
    exact .inr (.inr (by omega))
  · intro h
    have hshort : payload.length ≤ 246 := by
      rcases h with h | h | h
      · exact absurd h hmac
      · exact absurd h hlong
      · exact h
    have hsize : payload.length + 8 ≤ 256 := by omega
    have hlen : ((packet stack mac payload).get 1).toNat = payload.length + 6 := by
      rw [packet_length hsize, Nat.mod_eq_of_lt (by omega)]
    -- the three transmissions differ in the channel only
    have hall : ∀ channel, Received
        ⟨0x8E89BED6, packet stack mac payload, payload.length + 6 + 2, channel, PHY_1M⟩ :=
      fun channel => (received_iff (by rw [hlen])).2 (show payload.length + 6 + 2 ≤ 254 by omega)
    refine ⟨packet stack mac payload, rfl, ?_, packetFills_in_bounds hsize, hlen, ?_⟩
    · simp
    · simp [hall]

/-- A payload of 250 bytes is accepted; its last two bytes are written behind the array. -/
theorem adv_overflows : ¬ AdvRight 1 (List.replicate 6 0) (List.replicate 250 0) fun _ => 0 := by
  unfold AdvRight funIslerAdv
  rw [List.length_replicate, if_neg (by omega), List.length_replicate, if_neg (by omega)]
  rintro ⟨adv, -, -, hfills, -⟩
  have hlast := hfills _ (.tail _ (.tail _ (.tail _ (.head _))))
  dsimp only at hlast
  rw [List.length_replicate] at hlast
  exact absurd hlast (by decide)

end Isler

end Ch32fun
