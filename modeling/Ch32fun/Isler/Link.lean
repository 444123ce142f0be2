import Ch32fun.Isler.Frames
import Ch32fun.Isler.Transmit

/-!
# From one radio to another

A script transmits with `iSLER.tx`, and a script on another device reads with `iSLER.read`.  In
between the packets are in the air: the radio of the peer puts the transmitted bytes into
`LLE_BUF`, whose other bytes are arbitrary, and raises the receive interrupt.

* `linkMachine` : transmissions, deliveries and the calls of the peer, in any order.
* `Roomy` : a delivered frame fits into the receive FIFO.
* `link_round_trip` : the stream of the peer, cut at the length bytes, decodes to what was passed to
  `tx`, and wherever the reads end, what was read so far decodes to the beginning of it.
-/

namespace Ch32fun

namespace Isler

open Machine

/-- The packets in the air, the oldest first, and the radio of the peer. -/
structure Link where
  air : List Transmission
  peer : Isler

/-- Nothing was transmitted, and the peer is at power-up. -/
def linkInit : Link := ⟨[], islerInit⟩

/-- What happens on the link. -/
inductive LinkInput
  /-- A call of `iSLER.tx`; `stack` is what the array `packet` held before. -/
  | tx (accessAddr : UInt32) (mac payload : List UInt8) (channel phyMode : UInt8)
      (stack : Block UInt8 packetSize)
  /-- The oldest packet reaches the peer; `lle` is what `LLE_BUF` held before. -/
  | deliver (lle : LleBuf)
  /-- The calls of the peer. -/
  | read (req : Option Int32)
  | any
  | irq (handler : Option ℕ)

/-- What is observed on the link. -/
inductive LinkEvent
  /-- `tx` transmitted `t` for these arguments. -/
  | sent (mac payload : List UInt8) (t : Transmission)
  | raised (e : MpException)
  | peer (e : IslerEvent)

/-- The content of `LLE_BUF` when a packet has arrived: its first `len` bytes are those of the
packet. -/
def arrived (t : Transmission) (lle : LleBuf) : LleBuf :=
  fun i => if i < t.len then t.adv.get i else lle i

/-- A step of the peer. -/
def peerStep (s : Link) (a : IslerInput) : Option (Link × List LinkEvent) :=
  (islerMachine.step s.peer a).map fun (peer, o) => ({ s with peer }, o.map .peer)

/-- The link. -/
def linkMachine : Machine Link LinkInput LinkEvent where
  step s
    | .tx accessAddr mac payload channel phyMode stack =>
      match funIslerTx accessAddr mac payload channel phyMode stack with
      | .ok t => some ({ s with air := s.air ++ [t] }, [.sent mac payload t])
      | .error e => some (s, [.raised e])
    | .deliver lle =>
      match s.air with
      | [] => none
      | t :: air => peerStep { s with air } (.rx (arrived t lle))
    | .read req => peerStep s (.read req)
    | .any => peerStep s .any
    | .irq handler => peerStep s (.irq handler)

/-- A packet that arrives finds room for all its bytes. -/
def Roomy (s : Link) (a : LinkInput) : Prop :=
  ∀ lle, a = .deliver lle → ∀ t ∈ s.air.head?, s.peer.rxFifo.count + t.len ≤ rxFifoSize - 1

/-! ### Reading a log -/

/-- What the peer observes. -/
def peerLog (log : List LinkEvent) : List IslerEvent :=
  log.flatMap fun
    | .peer e => [e]
    | _ => []

/-- The pairs of MAC address and payload that `tx` accepted. -/
def sentPairs (log : List LinkEvent) : List (List UInt8 × List UInt8) :=
  log.flatMap fun
    | .sent mac payload _ => [(mac, payload)]
    | _ => []

variable {s s' : Link} {a : LinkInput} {as : List LinkInput} {o log : List LinkEvent}

section Log

variable (l l' : List LinkEvent) (es : List IslerEvent)

@[simp] theorem peerLog_append : peerLog (l ++ l') = peerLog l ++ peerLog l' :=
  List.flatMap_append

@[simp] theorem sentPairs_append : sentPairs (l ++ l') = sentPairs l ++ sentPairs l' :=
  List.flatMap_append

@[simp] theorem peerLog_peer : peerLog (es.map .peer) = es := by
  simp [peerLog, List.flatMap_map]

@[simp] theorem sentPairs_peer : sentPairs (es.map .peer) = [] := by
  simp [sentPairs, List.flatMap_map]

end Log

/-! ### What a step can do -/

theorem tx_cases {accessAddr : UInt32} {mac payload : List UInt8} {channel phyMode : UInt8}
    {stack : Block UInt8 packetSize}
    (h : linkMachine.step s (.tx accessAddr mac payload channel phyMode stack) = some (s', o)) :
    (∃ t, funIslerTx accessAddr mac payload channel phyMode stack = .ok t ∧
      s' = { s with air := s.air ++ [t] } ∧ o = [.sent mac payload t]) ∨
    ∃ e, s' = s ∧ o = [.raised e] := by
  unfold linkMachine at h
  dsimp only at h
  split at h
  case h_1 t ht =>
    cases h
    exact .inl ⟨t, ht, rfl, rfl⟩
  case h_2 e _ =>
    cases h
    exact .inr ⟨e, rfl, rfl⟩

theorem deliver_cases {lle : LleBuf} (h : linkMachine.step s (.deliver lle) = some (s', o)) :
    ∃ t air, s.air = t :: air ∧ peerStep { s with air } (.rx (arrived t lle)) = some (s', o) := by
  obtain ⟨_ | ⟨t, air⟩, peer⟩ := s
  · cases h
  · exact ⟨t, air, rfl, h⟩

theorem peerStep_cases {c : IslerInput} (h : peerStep s c = some (s', o)) :
    ∃ peer e, islerMachine.step s.peer c = some (peer, e) ∧ s' = { s with peer } ∧
      o = e.map .peer := by
  obtain ⟨⟨peer, e⟩, hpeer, he⟩ := Option.map_eq_some_iff.1 h
  cases he
  exact ⟨peer, e, hpeer, rfl, rfl⟩

/-! ### The invariant -/

/-- What is transmitted of a packet is its length, its second byte says so, and it is short. -/
def Sound (t : Transmission) : Prop := (t.adv.get 1).toNat + 2 = t.len ∧ t.len ≤ 253

theorem complete_arrived {t : Transmission} (h : (t.adv.get 1).toNat + 2 = t.len) (lle : LleBuf) :
    complete (arrived t lle) = t.bytes := by
  have hone : arrived t lle 1 = t.adv.get 1 := if_pos (by omega)
  rw [complete, hone, h, Transmission.bytes]
  refine List.map_congr_left fun i hi => ?_
  exact if_pos (List.mem_range.1 hi)

/-- It pushes them when they are at most 254. -/
theorem isrBytes_arrived {t : Transmission} (h : (t.adv.get 1).toNat + 2 = t.len)
    (hlen : t.len ≤ 254) (lle : LleBuf) : isrBytes (arrived t lle) = t.bytes := by
  have hone : arrived t lle 1 = t.adv.get 1 := if_pos (by omega)
  rw [isrBytes_of_le (by rw [hone]; omega), complete_arrived h]

/-- The stream of the peer is one of complete frames, and these frames and the packets in the air
decode to what was passed to `tx`. -/
def Linked (s : Link) (log : List LinkEvent) : Prop :=
  (∀ t ∈ s.air, Sound t) ∧ ∃ frames : List LleBuf,
    bytesRead (peerLog log) ++ s.peer.rxFifo.stored = frames.flatMap complete ∧
    (frames.map complete ++ s.air.map Transmission.bytes).map decode = sentPairs log

theorem call_stream {p p' : Isler} {c : IslerInput} {e : List IslerEvent}
    (h : islerMachine.step p c = some (p', e)) (hc : ∀ frame, c ≠ .rx frame) :
    bytesRead e ++ p'.rxFifo.stored = p.rxFifo.stored := by
  cases c with
  | rx frame => exact absurd rfl (hc frame)
  | read req =>
    cases h
    simpa [bytesRead] using funIslerRead_stored p req
  | any | irq =>
    cases h
    rfl

theorem Linked.call {c : IslerInput} (h : Linked s log) (hc : ∀ frame, c ≠ .rx frame)
    (hst : peerStep s c = some (s', o)) : Linked s' (log ++ o) := by
  obtain ⟨hsound, frames, hstream, hpairs⟩ := h
  obtain ⟨peer, e, hpeer, rfl, rfl⟩ := peerStep_cases hst
  refine ⟨hsound, frames, ?_, by simpa using hpairs⟩
  rw [← hstream, ← call_stream hpeer hc]
  simp

theorem Linked.deliver {lle : LleBuf} (h : Linked s log) (hg : Roomy s (.deliver lle))
    (hst : linkMachine.step s (.deliver lle) = some (s', o)) : Linked s' (log ++ o) := by
  obtain ⟨hsound, frames, hstream, hpairs⟩ := h
  obtain ⟨t, air, hair, hst⟩ := deliver_cases hst
  obtain ⟨peer, e, hpeer, rfl, rfl⟩ := peerStep_cases hst
  obtain ⟨rfl, rfl⟩ := isr_eq hpeer
  have hroom := hg lle rfl t (by simp [hair])
  rw [hair] at hsound hpairs
  have ht := hsound t List.mem_cons_self
  -- the length byte hides what stands behind the packet in `LLE_BUF`
  have hcomplete := complete_arrived ht.1 lle
  have hbytes := isrBytes_arrived ht.1 (ht.2.trans (by decide)) lle
  have hlen : t.bytes.length = t.len := by simp [Transmission.bytes]
  have hstored : (modIslerRxIsr s.peer (arrived t lle)).1.rxFifo.stored =
      s.peer.rxFifo.stored ++ t.bytes := by
    rw [← hbytes]
    exact s.peer.rxFifo.stored_pushAll_of_le _ (by rw [hbytes, hlen]; exact hroom)
  refine ⟨fun u hu => hsound u (List.mem_cons_of_mem _ hu), frames ++ [arrived t lle], ?_, ?_⟩
  · rw [List.flatMap_append, ← hstream]
    simp [hstored, hcomplete]
  · simpa [hcomplete] using hpairs

theorem Linked.tx {accessAddr : UInt32} {mac payload : List UInt8} {channel phyMode : UInt8}
    {stack : Block UInt8 packetSize} (h : Linked s log)
    (hst : linkMachine.step s (.tx accessAddr mac payload channel phyMode stack) = some (s', o)) :
    Linked s' (log ++ o) := by
  obtain ⟨hsound, frames, hstream, hpairs⟩ := h
  obtain ⟨t, ht, rfl, rfl⟩ | ⟨e, rfl, rfl⟩ := tx_cases hst
  · obtain ⟨-, hone, hlen, hdecode⟩ := transmission_spec ht
    have hshort := (funIslerTx_ok ht).1
    refine ⟨fun u hu => ?_, frames, ?_, ?_⟩
    · rcases List.mem_append.1 hu with hu | hu
      · exact hsound u hu
      · rw [List.mem_singleton.1 hu]
        exact ⟨hone, by omega⟩
    · simpa [peerLog] using hstream
    · rw [sentPairs_append, ← hpairs]
      simp [sentPairs, hdecode]
  · exact ⟨hsound, frames, by simpa [peerLog] using hstream, by simpa [sentPairs] using hpairs⟩

theorem Linked.step (h : Linked s log) (hg : Roomy s a)
    (hst : linkMachine.step s a = some (s', o)) : Linked s' (log ++ o) := by
  cases a with
  | tx => exact h.tx hst
  | deliver lle => exact h.deliver hg hst
  | read req => exact h.call (c := .read req) (fun _ => nofun) hst
  | any => exact h.call (c := .any) (fun _ => nofun) hst
  | irq handler => exact h.call (c := .irq handler) (fun _ => nofun) hst

/-- **The link in a run.** -/
theorem linked_of_run (h : linkMachine.Run Roomy linkInit as log s) : Linked s log := by
  have h₀ : Linked linkInit [] := ⟨by simp [linkInit], [], rfl, rfl⟩
  simpa using h.invariant Linked [] h₀ fun _ _ _ _ _ hi hg hst => hi.step hg hst

/-! ### What was sent is what is read -/

/-- The writes of a call of `tx` that transmitted `t` are inside its array, and the second byte says
the transmitted length. -/
def SentWell : LinkEvent → Prop
  | .sent mac payload t =>
    (∀ fill ∈ packetFills mac payload, fill.off + fill.len ≤ packetSize) ∧
      (t.adv.get 1).toNat + 2 = t.len
  | _ => True

theorem sentWell_peerStep {c : IslerInput} (hst : peerStep s c = some (s', o)) :
    ∀ e ∈ o, SentWell e := by
  obtain ⟨peer, es, -, rfl, rfl⟩ := peerStep_cases hst
  intro e he
  obtain ⟨e, -, rfl⟩ := List.mem_map.1 he
  trivial

theorem sentWell_step (hst : linkMachine.step s a = some (s', o)) : ∀ e ∈ o, SentWell e := by
  cases a with
  | tx =>
    obtain ⟨t, ht, rfl, rfl⟩ | ⟨e, rfl, rfl⟩ := tx_cases hst
    · obtain ⟨hfills, hone, -⟩ := transmission_spec ht
      exact List.forall_mem_singleton.2 ⟨hfills, hone⟩
    · exact List.forall_mem_singleton.2 trivial
  | deliver lle =>
    obtain ⟨t, air, -, hpeer⟩ := deliver_cases hst
    exact sentWell_peerStep hpeer
  | read req => exact sentWell_peerStep (c := .read req) hst
  | any => exact sentWell_peerStep (c := .any) hst
  | irq handler => exact sentWell_peerStep (c := .irq handler) hst

/-- What was read so far is cut into the first frames of the stream. -/
theorem cutFrames_append (l l' : List UInt8) : cutFrames l <+: cutFrames (l ++ l') := by
  fun_induction cutFrames l with
  | case1 | case2 => exact List.nil_prefix
  | case3 t len rest hle ih =>
    have hle' : len.toNat ≤ (rest ++ l').length := by
      rw [List.length_append]
      omega
    rw [List.cons_append, List.cons_append, cutFrames, if_pos hle',
      List.take_append_of_le_length hle, List.drop_append_of_le_length hle]
    exact (List.prefix_cons_inj _).2 ih
  | case4 => exact List.nil_prefix

/-- **Transmit and receive agree.**  In every run in which the delivered packets find room, every
accepted call of `tx` stays inside its array and transmits as many bytes as the second one says.
The stream of the peer, cut at the length bytes, and the packets in the air decode to the pairs
passed to `tx`, in order.  Wherever the reads cut the stream, what was read decodes to the first of
these pairs, and to all of them when everything is delivered and read. -/
theorem link_round_trip (h : linkMachine.Run Roomy linkInit as log s) :
    (∀ e ∈ log, SentWell e) ∧
      (cutFrames (bytesRead (peerLog log) ++ s.peer.rxFifo.stored) ++
        s.air.map Transmission.bytes).map decode = sentPairs log ∧
      (cutFrames (bytesRead (peerLog log))).map decode <+: sentPairs log ∧
      (s.air = [] → s.peer.rxFifo.stored = [] →
        (cutFrames (bytesRead (peerLog log))).map decode = sentPairs log) := by
  have hwell : ∀ e ∈ log, SentWell e := by
    have hinv := h.invariant (fun _ log => ∀ e ∈ log, SentWell e) [] (by simp)
      fun _ _ _ _ _ hlog _ hst e he => (List.mem_append.1 he).elim (hlog e) (sentWell_step hst e)
    simpa using hinv
  obtain ⟨-, frames, hstream, hpairs⟩ := linked_of_run h
  have hcut : cutFrames (bytesRead (peerLog log) ++ s.peer.rxFifo.stored) =
      frames.map complete := by
    rw [hstream]
    simpa [cutFrames] using cutFrames_flatMap frames []
  have hall : (cutFrames (bytesRead (peerLog log) ++ s.peer.rxFifo.stored) ++
      s.air.map Transmission.bytes).map decode = sentPairs log := by
    rw [hcut, hpairs]
  refine ⟨hwell, hall, ?_, fun hair hempty => ?_⟩
  · -- what was read is a first part of the stream, and is cut at the same places
    rw [← hall, List.map_append]
    have hprefix := (cutFrames_append (bytesRead (peerLog log)) s.peer.rxFifo.stored).map decode
    exact hprefix.trans (List.prefix_append _ _)
  · rw [← hall, hair, hempty]
    simp

/-- Two packets are sent and delivered; the reads cut the first one, and cross over into the second
one. -/
def crossingReads : List LinkInput :=
  [.tx 0x8E89BED6 [1, 2, 3, 4, 5, 6] [7, 8] 37 0 (fun _ => 0),
    .tx 0x8E89BED6 [1, 2, 3, 4, 5, 6] [9, 10, 11] 37 0 (fun _ => 0), .deliver (fun _ => 0),
    .read (some 3), .deliver (fun _ => 0xFF), .read (some 12), .read none]

theorem link_round_trip_crossingReads : ∃ log s,
    linkMachine.Run Roomy linkInit crossingReads log s ∧
    (cutFrames (bytesRead (peerLog log))).map decode =
      [([1, 2, 3, 4, 5, 6], [7, 8]), ([1, 2, 3, 4, 5, 6], [9, 10, 11])] := by
  have hr : ∃ log s, linkMachine.Run Roomy linkInit crossingReads log s ∧ s.air = [] ∧
      s.peer.rxFifo.stored = [] ∧
      sentPairs log = [([1, 2, 3, 4, 5, 6], [7, 8]), ([1, 2, 3, 4, 5, 6], [9, 10, 11])] := by
    refine ⟨_, _, .cons (fun _ => nofun) rfl (.cons (fun _ => nofun) rfl (.cons ?_ rfl
      (.cons (fun _ => nofun) rfl (.cons ?_ rfl (.cons (fun _ => nofun) rfl
        (.cons (fun _ => nofun) rfl (.nil _))))))), rfl, ?_, rfl⟩
    · rintro lle - t ht
      cases ht
      decide +kernel
    · rintro lle - t ht
      cases ht
      decide +kernel
    · decide +kernel
  obtain ⟨log, s, hr, hair, hempty, hpairs⟩ := hr
  exact ⟨log, s, hr, hpairs ▸ (link_round_trip hr).2.2.2 hair hempty⟩

end Isler

end Ch32fun
