import Ch32fun.Msc.Refine
import Ch32fun.Usb.Bulk
import Ch32fun.Usb.Config
import Ch32fun.Usb.Device

/-!
# The bulk-only transport, from the other end

What a host makes of the packets on `EP_MSC_IN`.  It knows the commands it has sent and the packet
size in the descriptor of the endpoint; for each command it asks for the announced number of bytes,
if they are to come from the device, and then for a status wrapper.

* `wire` : the packets that the host took, as bytes.
* `Play.wire` : a command is answered with full packets of data, a last one that may be short, and
  the status wrapper.
* `Cbw.receive`, `receiveAll` : the host.
* `Cbw.Framed` : the command announces what the driver does; `session_received` : these are the
  commands whose answers the host gets as the disk gives them.
-/

namespace Ch32fun

/-! ### On the wire -/

/-- The bytes of a 32-bit word, the lowest first. -/
def leBytes (x : UInt32) : List UInt8 := (List.range 4).map (leByte x)

theorem le32_leBytes (x : UInt32) : le32 ((leBytes x).getD · 0) 0 = x := by
  rw [← le32_leByte x]
  refine le32_congr fun k hk => ?_
  rw [le32_leByte, leBytes, List.getD_eq_getElem?_getD, List.getElem?_map,
    List.getElem?_range (by omega)]
  rfl

namespace Csw

/-- The bytes of a status wrapper. -/
def bytes (w : Csw) : List UInt8 :=
  leBytes w.signature ++ leBytes w.tag ++ leBytes w.dataResidue ++ [w.status]

/-- A status wrapper, from its 13 bytes. -/
def ofBytes (l : List UInt8) : Option Csw :=
  if l.length = 13 then
    some ⟨le32 (l.getD · 0) 0, le32 (l.getD · 0) 4, le32 (l.getD · 0) 8, l.getD 12 0⟩
  else none

theorem length_bytes (w : Csw) : w.bytes.length = 13 := rfl

theorem ofBytes_bytes (w : Csw) : ofBytes w.bytes = some w := by
  have hsig : le32 (w.bytes.getD · 0) 0 = w.signature := le32_leBytes w.signature
  have htag : le32 (w.bytes.getD · 0) 4 = w.tag := le32_leBytes w.tag
  have hres : le32 (w.bytes.getD · 0) 8 = w.dataResidue := le32_leBytes w.dataResidue
  rw [ofBytes, if_pos w.length_bytes, hsig, htag, hres]
  rfl

end Csw

/-- The bytes of a packet. -/
def InPacket.bytes : InPacket → List UInt8
  | .data bs => bs
  | .csw w => w.bytes

/-- The packet that the host takes. -/
@[simp] def Event.takenPackets : Event → List InPacket
  | .taken p => [p]
  | _ => []

/-- The packets that the host took, in order. -/
def takenPackets (log : List Event) : List InPacket := log.flatMap Event.takenPackets

/-- The bytes of the packets that the host took. -/
def wire (log : List Event) : List (List UInt8) := (takenPackets log).map InPacket.bytes

@[simp] theorem takenPackets_append (l l' : List Event) :
    takenPackets (l ++ l') = takenPackets l ++ takenPackets l' := List.flatMap_append

theorem Quiet.takenPackets {l : List Event} (h : Quiet l) : takenPackets l = [] :=
  h.flatMap_eq_nil fun e he => by cases e <;> first | rfl | exact absurd he id

theorem wire_append (l l' : List Event) : wire (l ++ l') = wire l ++ wire l' := by
  rw [wire, takenPackets_append, List.map_append]
  rfl

namespace Msc

open Machine Bulk

variable {s s' : Msc} {a : Input} {o log : List Event} {logs : List (List Event)} {c : Cbw}
  {x : Command} {xs : List Command} {data : ℕ → UInt8}

theorem Prepare.taken (h : s.Prepare o s') :
    takenPackets o = [] ∧ sentPackets o = s'.epMscIn.toList := by
  cases h with
  | data _ =>
    rw [takenPackets_append, sentPackets_append, (Quiet.map_copied _).takenPackets,
      (Quiet.map_copied _).sentPackets]
    exact ⟨rfl, rfl⟩
  | status _ => exact ⟨rfl, rfl⟩

theorem Move.taken (h : s.Move a o s') (hs : s.SlotInv) :
    s.epMscIn.toList ++ sentPackets o = takenPackets o ++ s'.epMscIn.toList := by
  cases h with
  | ignored _ => simp [Ch32fun.takenPackets]
  | rejected _ _ _ => simp [Ch32fun.takenPackets]
  | accept ha hb =>
    have he := hs.idle ha.1
    cases hb with
    | dataIn ho hp =>
      obtain ⟨ht, hsent⟩ := hp.taken
      rw [he, sentPackets_cons, hsent, ← List.singleton_append, takenPackets_append, ht]
      rfl
    | write10 _ =>
      rw [begin_epMscIn, he]
      rfl
    | noData _ _ =>
      rw [he]
      rfl
  | receive hst _ =>
    rw [hs.dataOut hst, sentPackets_append, takenPackets_append, (absorb_quiet s _ _).sentPackets,
      (absorb_quiet s _ _).takenPackets, received_epMscIn, hs.dataOut hst]
    rfl
  | receiveLast hst _ =>
    rw [hs.dataOut hst, sentPackets_append, takenPackets_append, (absorb_quiet s _ _).sentPackets,
      (absorb_quiet s _ _).takenPackets, afterStatus, received_csw]
    rfl
  | takeData _ he =>
    rw [he]
    rfl
  | takeStatus hst =>
    rw [hs.sendCsw hst]
    rfl
  | pollNothing _ => simp [Ch32fun.takenPackets]
  | pollDataIn _ he hp =>
    obtain ⟨ht, hsent⟩ := hp.taken
    rw [he, hsent, ht]
    rfl

theorem Play.taken (h : s.Play c data log s') (hs : s.SlotInv) :
    takenPackets log = sentPackets log := by
  have hend := (h.slotInv hs).idle h.idle
  obtain ⟨p, e₁, s₁, as, e₂, -, hst, hrun, -, rfl⟩ := h
  have hall : mscMachine.Run Free s (.out p :: as) (e₁ ++ e₂) s' := .cons trivial hst.2 hrun.free
  have hinv := run_invariant (fun t log => sentPackets log = takenPackets log ++ t.epMscIn.toList)
    [] hall hs (by rw [hs.idle hst.1.1]; rfl) fun t a t' o log ht hi _ hm => by
      rw [sentPackets_append, takenPackets_append, hi, List.append_assoc, hm.taken ht,
        List.append_assoc]
  rw [hend, List.nil_append, Option.toList_none, List.append_nil] at hinv
  exact hinv.symm

/-! ### Full packets and short ones -/

theorem length_header_le (c : Cbw) : c.header.length ≤ 37 := by
  unfold Cbw.header
  cases c.opcode
  case inquiry => exact (List.length_take_le' ..).trans (by decide)
  all_goals exact of_decide_eq_true rfl

theorem header_ne_nil (ho : c.opcode.isDataIn = true) (hn : c.opcode ≠ .read10)
    (hD : c.dataTransferLength ≠ 0) : c.header ≠ [] := by
  unfold Cbw.header
  cases hc : c.opcode
  case inquiry =>
    intro hnil
    rcases List.take_eq_nil_iff.1 hnil with h | h
    · exact hD (UInt32.toNat_inj.1 h)
    · exact absurd h (by decide)
  case read10 => exact absurd hc hn
  case requestSense | readCapacity10 | modeSense6 | modeSense10 => exact List.cons_ne_nil _ _
  all_goals rw [hc] at ho; cases ho

/-- **The packets of an answer** are those of its data, and the status wrapper. -/
theorem replies_cut (s : Msc) (c : Cbw) : ∃ (ds : List (List UInt8)) (w : Csw),
    sentPackets (s.replies c) = ds.map .data ++ [.csw w] ∧ cut 64 ds.flatten = ds := by
  by_cases hr : c.opcode = .read10
  · -- all packets of a `READ(10)` are full
    have hflat : ∀ l : List ℕ, ∃ ds : List (List UInt8),
        sentPackets (l.flatMap (s.readLog c)) = ds.map .data ∧ ∀ d ∈ ds, d.length = 64 := by
      intro l
      induction l with
      | nil => exact ⟨[], rfl, nofun⟩
      | cons k l ih =>
        obtain ⟨ds, hds, hall⟩ := ih
        refine ⟨(List.range 64).map (fun i => (c.readSrc k i).elim 0 (Src.load s.upToDate)) :: ds,
          ?_, List.forall_mem_cons.2 ⟨by simp, hall⟩⟩
        rw [List.flatMap_cons, sentPackets_append, hds, readLog, sentPackets_append,
          (Quiet.map_copied _).sentPackets]
        rfl
    obtain ⟨ds, hds, hall⟩ := hflat (List.range (8 * c.blocks.toNat))
    refine ⟨ds, ⟨0x53425355, c.tag, 0, 0⟩, ?_, cut_flatten (by omega) hall⟩
    rw [replies_read10_eq s hr, sentPackets_append, hds]
    rfl
  by_cases ho : c.opcode.isDataIn = true
  · by_cases hD : c.dataTransferLength = 0
    · exact ⟨[], _, replies_oneShot_of_eq s ho hr hD, cut_nil 64⟩
    · obtain ⟨w, hw, -⟩ := replies_oneShot_of_ne s ho hr hD
      refine ⟨[(s.begin c).packet], w, hw, ?_⟩
      have hle := length_header_le c
      rw [List.flatten_singleton, packet_begin s ho hr,
        cut_of_le (header_ne_nil ho hr hD) (by omega)]
  · refine ⟨[], (s.begin c).csw, ?_, cut_nil 64⟩
    unfold replies
    split_ifs with hw
    · rw [todo_dataOut (begin_write10 s (hw.resolve_left ho)).1]
      rfl
    · rfl

end Msc

/-! ### The host -/

open Bulk

/-- The packets of an answer. -/
def Reply.packets (r : Reply) : List (List UInt8) := cut 64 r.data ++ [r.csw.bytes]

/-- The packet size of `EP_MSC_IN`, as the device announces it. -/
def mscInPacketSize : ℕ := (maxPacketSize (0x80 ||| epMscIn.toUInt8)).getD 0

theorem mscInPacketSize_eq : mscInPacketSize = 64 := by
  rw [mscInPacketSize, maxPacketSize_eq]
  decide

namespace Cbw

/-- The number of bytes that the host asks the device for. -/
def request (c : Cbw) : ℕ := if c.flags &&& 0x80 ≠ 0 then c.dataTransferLength.toNat else 0

/-- The host takes the answer to `c` from the packets: the bytes it asked for, and a status wrapper
that belongs to the command. -/
def receive (c : Cbw) (ps : List (List UInt8)) : Option (Reply × List (List UInt8)) := do
  let d ← Bulk.receive mscInPacketSize c.request ps
  let w ← Bulk.receive mscInPacketSize 13 d.2
  let csw ← Csw.ofBytes w.1
  if csw.signature = 0x53425355 ∧ csw.tag = c.tag then some (⟨d.1, csw⟩, w.2) else none

/-- The command announces what the driver does: no data; or data to the host, at least as many bytes
as the header has that the driver generates; or data to the device. -/
def Framed (c : Cbw) : Prop :=
  c.dataTransferLength = 0 ∨
    if c.opcode.isDataIn then c.flags &&& 0x80 ≠ 0 ∧ c.header.length ≤ c.dataTransferLength.toNat
    else c.flags &&& 0x80 = 0

instance : DecidablePred Framed := fun c => by
  unfold Framed
  exact inferInstance

end Cbw

/-- The answers to a sequence of commands. -/
def receiveAll : List Cbw → List (List UInt8) → Option (List Reply × List (List UInt8))
  | [], ps => some ([], ps)
  | c :: cs, ps => do
    let r ← c.receive ps
    let rs ← receiveAll cs r.2
    return (r.1 :: rs.1, rs.2)

section Receive

variable {c : Cbw} {r r' : Reply} {ps rest rest' : List (List UInt8)} {x : Command}
  {d : ScriptDisk}

/-- The host gets the answer, if it asks for as much and can see the end. -/
theorem receive_packets (hsig : r.csw.signature = 0x53425355) (htag : r.csw.tag = c.tag)
    (hle : r.data.length ≤ c.request) (hend : r.data.length = c.request ∨ ¬ 64 ∣ r.data.length) :
    c.receive (r.packets ++ rest) = some (r, rest) := by
  have hcsw : Bulk.receive 64 13 (r.csw.bytes :: rest) = some (r.csw.bytes, rest) :=
    receive_short (by omega) (by rw [Csw.length_bytes]; omega)
  rw [Cbw.receive, mscInPacketSize_eq, Reply.packets, List.append_assoc,
    receive_cut (by omega) hle hend]
  simp only [Option.bind_eq_bind, Option.bind_some, List.singleton_append, hcsw,
    Csw.ofBytes_bytes, if_pos (And.intro hsig htag)]

theorem receive_data (h : c.receive ps = some (r, rest)) :
    ∃ qs, Bulk.receive 64 c.request ps = some (r.data, qs) := by
  unfold Cbw.receive at h
  rw [mscInPacketSize_eq] at h
  obtain ⟨x, hx, h⟩ := Option.bind_eq_some_iff.1 h
  obtain ⟨w, -, h⟩ := Option.bind_eq_some_iff.1 h
  obtain ⟨csw, -, h⟩ := Option.bind_eq_some_iff.1 h
  split_ifs at h
  cases h
  exact ⟨x.2, hx⟩

theorem data_of_request_zero (hc : c.request = 0) (h : c.receive ps = some (r, rest)) :
    r.data = [] := by
  obtain ⟨qs, hq⟩ := receive_data h
  rw [hc, receive_zero] at hq
  exact (congrArg Prod.fst (Option.some.inj hq)).symm

theorem data_of_short {p : List UInt8} (hc : 0 < c.request) (hp : p.length < 64)
    (h : c.receive (p :: ps) = some (r, rest)) : p.length ≤ c.request ∧ r.data = p := by
  obtain ⟨qs, hq⟩ := receive_data h
  rw [receive_short hc hp] at hq
  split_ifs at hq with hlt
  exact ⟨Nat.le_of_not_lt hlt, (congrArg Prod.fst (Option.some.inj hq)).symm⟩

theorem serve_csw (d : ScriptDisk) (x : Command) :
    (d.serve x).2.csw.signature = 0x53425355 ∧ (d.serve x).2.csw.tag = x.cbw.tag := by
  have hhead : x.cbw.headerReply.csw.signature = 0x53425355 ∧
      x.cbw.headerReply.csw.tag = x.cbw.tag := by
    unfold Cbw.headerReply
    split_ifs <;> exact ⟨rfl, rfl⟩
  unfold ScriptDisk.serve
  split
  all_goals first | exact hhead | exact ⟨rfl, rfl⟩

/-- The data of an answer: none, what was announced, or a header. -/
theorem serve_data_cases (d : ScriptDisk) (hx : x.OnDisk) :
    (x.cbw.opcode.isDataIn = false ∧ (d.serve x).2.data = []) ∨
    (x.cbw.opcode.isDataIn = true ∧ (d.serve x).2.data.length = x.cbw.dataTransferLength.toNat ∧
      (x.cbw.dataTransferLength = 0 ∨ x.cbw.header = [])) ∨
    (x.cbw.opcode.isDataIn = true ∧ x.cbw.dataTransferLength ≠ 0 ∧ x.cbw.header ≠ [] ∧
      (d.serve x).2.data = x.cbw.header) := by
  -- a header is sent if any byte is asked for
  have hhead : (d.serve x).2 = x.cbw.headerReply → x.cbw.dataTransferLength = 0 ∧
      (d.serve x).2.data.length = x.cbw.dataTransferLength.toNat ∨
      x.cbw.dataTransferLength ≠ 0 ∧ (d.serve x).2.data = x.cbw.header := by
    intro hr
    rw [hr, Cbw.headerReply]
    split_ifs with hD
    · exact .inl ⟨hD, by rw [hD]; rfl⟩
    · exact .inr ⟨hD, rfl⟩
  cases ho : x.cbw.opcode
  case read10 =>
    refine .inr (.inl ⟨rfl, ?_, .inr (by rw [Cbw.header, ho])⟩)
    rw [hx.2.1 ho, ScriptDisk.serve, ho]
    dsimp only
    rw [ScriptDisk.sectors_eq, List.length_map, List.length_range]
  case write10 | testUnitReady | preventAllowRemoval | other =>
    refine .inl ⟨rfl, ?_⟩
    rw [ScriptDisk.serve, ho]
  all_goals
    rcases hhead (by rw [ScriptDisk.serve, ho]) with ⟨hD, hlen⟩ | ⟨hD, hdata⟩
    · exact .inr (.inl ⟨rfl, hlen, .inl hD⟩)
    · have hne := Msc.header_ne_nil (by rw [ho]; rfl) (by rw [ho]; decide) hD
      exact .inr (.inr ⟨rfl, hD, hne, hdata⟩)

theorem receive_serve (d : ScriptDisk) (hx : x.OnDisk) (hf : x.cbw.Framed)
    (rest : List (List UInt8)) :
    x.cbw.receive ((d.serve x).2.packets ++ rest) = some ((d.serve x).2, rest) := by
  obtain ⟨hsig, htag⟩ := serve_csw d x
  have hzero : x.cbw.dataTransferLength = 0 → x.cbw.request = 0 := by
    intro h
    rw [Cbw.request, h]
    exact ite_self 0
  unfold Cbw.Framed at hf
  rcases serve_data_cases d hx with ⟨ho, hdata⟩ | ⟨ho, hlen, -⟩ | ⟨ho, hD, hne, hdata⟩
  · -- no data
    rw [ho, if_neg Bool.false_ne_true] at hf
    have hc : x.cbw.request = 0 := hf.elim hzero fun h => if_neg (not_not.2 h)
    exact receive_packets hsig htag (by simp [hdata]) (.inl (by rw [hdata, hc]; rfl))
  · -- as many bytes as announced
    rw [ho, if_pos rfl] at hf
    have hc : (d.serve x).2.data.length = x.cbw.request := by
      rw [hlen]
      rcases hf with h | ⟨h, -⟩
      · rw [hzero h, h]
        rfl
      · exact (if_pos h).symm
    exact receive_packets hsig htag hc.le (.inl hc)
  · -- a header, which is a short packet
    rw [ho, if_pos rfl] at hf
    obtain ⟨hin, hle⟩ := hf.resolve_left hD
    have hc : x.cbw.request = x.cbw.dataTransferLength.toNat := if_pos hin
    have hpos := List.length_pos_of_ne_nil hne
    have h37 := Msc.length_header_le x.cbw
    refine receive_packets hsig htag (by rw [hdata, hc]; exact hle) (.inr ?_)
    rw [hdata]
    omega

/-- Other commands are not: the host takes the status wrapper for data, or a packet brings more than
it asked for. -/
theorem framed_of_receive (hx : x.OnDisk)
    (h : x.cbw.receive ((d.serve x).2.packets ++ rest) = some ((d.serve x).2, rest')) :
    x.cbw.Framed := by
  unfold Cbw.Framed
  by_contra hf
  obtain ⟨hD, hf⟩ := not_or.1 hf
  have hpos : 0 < x.cbw.dataTransferLength.toNat :=
    Nat.pos_of_ne_zero fun h0 => hD (UInt32.toNat_inj.1 h0)
  have hin : x.cbw.flags &&& 0x80 ≠ 0 → x.cbw.request = x.cbw.dataTransferLength.toNat :=
    fun hi => if_pos hi
  have hout : ¬ x.cbw.flags &&& 0x80 ≠ 0 → (d.serve x).2.data = [] :=
    fun hi => data_of_request_zero (if_neg hi) h
  rcases serve_data_cases d hx with ⟨ho, hdata⟩ | ⟨ho, hlen, hhead⟩ | ⟨ho, -, hne, hdata⟩
  · rw [ho, if_neg Bool.false_ne_true] at hf
    -- the first packet is the status wrapper
    rw [Reply.packets, hdata, cut_nil] at h
    obtain ⟨-, hcsw⟩ := data_of_short (by rw [hin hf]; exact hpos)
      (by rw [Csw.length_bytes]; omega) h
    exact absurd (congrArg List.length (hdata.symm.trans hcsw)) (by simp [Csw.length_bytes])
  · rw [ho, if_pos rfl] at hf
    by_cases hi : x.cbw.flags &&& 0x80 ≠ 0
    · exact hf ⟨hi, by rw [hhead.resolve_left hD]; exact Nat.zero_le _⟩
    · rw [hout hi, List.length_nil] at hlen
      omega
  · rw [ho, if_pos rfl] at hf
    by_cases hi : x.cbw.flags &&& 0x80 ≠ 0
    · -- the first packet is the header
      have h37 := Msc.length_header_le x.cbw
      rw [Reply.packets, hdata, cut_of_le hne (by omega)] at h
      obtain ⟨hle, -⟩ := data_of_short (by rw [hin hi]; exact hpos) (by omega) h
      exact hf ⟨hi, by rw [← hin hi]; exact hle⟩
    · exact hne (hdata ▸ hout hi)

end Receive

namespace Msc

open Machine

variable {s s' : Msc} {log : List Event} {logs : List (List Event)} {r : Reply} {c : Cbw}
  {x : Command} {xs : List Command} {data : ℕ → UInt8}

theorem Play.wire (h : s.Play c data log s') (hs : s.SlotInv) (ha : Answers log r) :
    wire log = r.packets := by
  obtain ⟨ds, w, hsent, hcut⟩ := replies_cut s c
  obtain ⟨hbytes, hcsw⟩ := h.answers hs ds hsent
  have hr : r = ⟨ds.flatten, w⟩ := by
    obtain ⟨d, csw⟩ := r
    rw [Reply.mk.injEq]
    exact ⟨ha.1.symm.trans hbytes, List.singleton_inj.1 (ha.2.symm.trans hcsw)⟩
  rw [Ch32fun.wire, h.taken hs, ← sentPackets_outputs, h.outputs hs, hsent, hr, Reply.packets,
    hcut, List.map_append, List.map_map]
  simp [InPacket.bytes, Function.comp_def]

theorem Session.disk_wire (h : Session s xs logs s') (hr : s.Reachable)
    (hxs : ∀ x ∈ xs, x.OnDisk) (hf' : s'.FileInv) :
    ∃ rs, diskMachine.Run Free (s.disk hr.fileInv) xs rs (s'.disk hf') ∧
      Ch32fun.wire logs.flatten = rs.flatMap Reply.packets ∧
      ∀ rest, receiveAll (xs.map Command.cbw) (rs.flatMap Reply.packets ++ rest) = some (rs, rest) ↔
        ∀ x ∈ xs, x.cbw.Framed := by
  induction h with
  | nil s => exact ⟨[], .nil _, rfl, fun rest => iff_of_true rfl nofun⟩
  | @cons s t s' x xs log logs hp _ ih =>
    have ht := hp.reachable hr
    obtain ⟨hx, hxs⟩ := List.forall_mem_cons.1 hxs
    obtain ⟨hd, ha⟩ := hp.serve hr.slotInv hr.fileInv ht.fileInv hx
    obtain ⟨rs, hrun, hwire, hall⟩ := ih ht hxs hf'
    refine ⟨((s.disk hr.fileInv).serve x).2 :: rs, .cons trivial (if_pos hx) (hd ▸ hrun), ?_, ?_⟩
    · rw [List.flatten_cons, wire_append, hp.wire hr.slotInv ha, hwire]
      rfl
    · intro rest
      rw [List.forall_mem_cons, List.map_cons, List.flatMap_cons, List.append_assoc, receiveAll]
      constructor
      · intro h
        obtain ⟨⟨r, ps⟩, hfirst, h⟩ := Option.bind_eq_some_iff.1 h
        obtain ⟨⟨rs', ps'⟩, hrest, h⟩ := Option.bind_eq_some_iff.1 h
        cases h
        -- the rest begins where the first answer ends
        have hframed := framed_of_receive hx hfirst
        rw [receive_serve _ hx hframed] at hfirst
        cases hfirst
        exact ⟨hframed, (hall _).1 hrest⟩
      · rintro ⟨hframed, h⟩
        rw [receive_serve _ hx hframed]
        simp only [Option.bind_eq_bind, Option.bind_some, (hall rest).2 h]
        rfl

theorem serve_of_run {d d' : ScriptDisk} {rs : List Reply}
    (h : diskMachine.Run Free d (x :: xs) rs d') :
    ∃ rs', rs = (d.serve x).2 :: rs' ∧ diskMachine.Run Free (d.serve x).1 xs rs' d' := by
  obtain ⟨d₁, r, rs', -, hstep, hrun, rfl⟩ := Run.cons_iff.1 h
  rw [diskMachine] at hstep
  dsimp only at hstep
  split_ifs at hstep
  cases hstep
  exact ⟨rs', rfl, hrun⟩

/-- **What a host makes of the packets.**  In every session of commands on the disk the host takes
the answers of the disk, each as full packets, a last one that may be short, and the status wrapper;
and it can tell them apart, knowing no more than the commands and the packet size in the
descriptor, if and only if every command announces what the driver does. -/
theorem session_received (hr : s.Reachable) (hxs : ∀ x ∈ xs, x.OnDisk)
    (h : Session s xs logs s') : ∃ rs d, diskMachine.Run Free (s.disk hr.fileInv) xs rs d ∧
      Ch32fun.wire logs.flatten = rs.flatMap Reply.packets ∧
      (receiveAll (xs.map Command.cbw) (Ch32fun.wire logs.flatten) = some (rs, []) ↔
        ∀ x ∈ xs, x.cbw.Framed) := by
  obtain ⟨rs, hrun, hwire, hall⟩ := h.disk_wire hr hxs (h.reachable hr).fileInv
  refine ⟨rs, _, hrun, hwire, ?_⟩
  rw [hwire, ← hall [], List.append_nil]

/-- `INQUIRY`, asking for all that the driver has. -/
def inquiryCommand : Command := ⟨Cbw.ofBlock 4 37 0x80 [0x12, 0, 0, 0, 37], fun _ => 0⟩

/-- An entry is written and the directory read, and then the host asks what the disk is: it gets a
sector and the 37 bytes of the answer, and three status wrappers. -/
theorem session_received_inquiry : ∃ logs s' rs,
    Session usbInit [directoryWrite 2, fillRead 33 1, inquiryCommand] logs s' ∧
      receiveAll ([directoryWrite 2, fillRead 33 1, inquiryCommand].map Command.cbw)
        (Ch32fun.wire logs.flatten) = some (rs, []) ∧
      rs.map (fun r => r.data.length) = [0, 512, 37] := by
  have hon : ∀ x ∈ [directoryWrite 2, fillRead 33 1, inquiryCommand], x.OnDisk := by
    simp only [List.forall_mem_cons]
    exact ⟨by decide, by decide, by decide, by simp⟩
  have hframed : ∀ x ∈ [directoryWrite 2, fillRead 33 1, inquiryCommand], x.cbw.Framed := by
    simp only [List.forall_mem_cons]
    exact ⟨by decide, by decide, by decide, by simp⟩
  obtain ⟨logs, s', h⟩ := exists_session_onDisk _ slotInv_usbInit rfl hon
  obtain ⟨rs, _, hrun, -, hiff⟩ := session_received (.refl usbInit) hon h
  refine ⟨logs, s', rs, h, hiff.2 hframed, ?_⟩
  obtain ⟨rs₁, rfl, hrun₁⟩ := serve_of_run hrun
  obtain ⟨rs₂, rfl, hrun₂⟩ := serve_of_run hrun₁
  obtain ⟨rs₃, rfl, hrun₃⟩ := serve_of_run hrun₂
  obtain ⟨rfl, -⟩ := Run.nil_iff.1 hrun₃
  have hread : ∀ d : ScriptDisk, (d.serve (fillRead 33 1)).2.data.length = 512 := fun d => by
    rw [ScriptDisk.serve, show (fillRead 33 1).cbw.opcode = .read10 by decide]
    dsimp only
    rw [ScriptDisk.sectors_eq, List.length_map, List.length_range]
    decide
  have hheader : ∀ d : ScriptDisk, (d.serve inquiryCommand).2.data.length = 37 := fun d => by
    rw [ScriptDisk.serve, show inquiryCommand.cbw.opcode = .inquiry by decide]
    change inquiryCommand.cbw.headerReply.data.length = 37
    decide
  simp only [List.map_cons, List.map_nil, hread, hheader]
  rfl

/-- `READ FORMAT CAPACITIES`, which the driver answers with a status wrapper and no data. -/
example : ¬ (Cbw.ofBlock 1 252 0x80 [0x23]).Framed := by decide

end Msc

end Ch32fun
