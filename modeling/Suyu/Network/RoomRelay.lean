import Suyu.Network.RoomNetwork

/-
  Proxy and LDN packets: from a member through the room to other members.

  1. **Program** - `SendProxyPacket` and `SendLdnPacket` write a packet.  The room reads where it should go,
     and sends the SAME bytes on; the handlers of the members read them.

  2. **Specification (`packet_relayed`)** - it goes ONCE to the member that has the address, or to every
     member but the sender, and to nobody else; and who receives it is called back with what was sent.

  3. **The crux (`Packet.readIPv4Address_at`)** - the room skips fields by their sizes.
-/

namespace Suyu.Network

open PacketStream (Short store write writeAll)

open Room

/-! ## Program -/

structure ProxyPacket where
  localFamily : BitVec 8
  localIp : IPv4Address
  localPort : BitVec 16
  remoteFamily : BitVec 8
  remoteIp : IPv4Address
  remotePort : BitVec 16
  protocol : BitVec 8
  broadcast : Bool
  data : List (BitVec 8)

structure LDNPacket where
  type : BitVec 8
  localIp : IPv4Address
  remoteIp : IPv4Address
  broadcast : Bool
  data : List (BitVec 8)

/-- What the room relays. -/
inductive Relayed where
  | proxy (p : ProxyPacket)
  | ldn (p : LDNPacket)

namespace Relayed

def remoteIp : Relayed → IPv4Address
  | proxy p => p.remoteIp
  | ldn p => p.remoteIp

def broadcast : Relayed → Bool
  | proxy p => p.broadcast
  | ldn p => p.broadcast

def data : Relayed → List (BitVec 8)
  | proxy p => p.data
  | ldn p => p.data

/-- `SendProxyPacket` and `SendLdnPacket`, behind the message type. -/
def fields : Relayed → List (Sigma PacketStream.Value)
  | proxy p =>
      [⟨.scalar .u8, p.localFamily⟩, ip p.localIp, ⟨.scalar .u16, p.localPort⟩, ⟨.scalar .u8, p.remoteFamily⟩,
        ip p.remoteIp, ⟨.scalar .u16, p.remotePort⟩, ⟨.scalar .u8, p.protocol⟩, ⟨.scalar .bool, p.broadcast⟩,
        ⟨.vector (.scalar .u8), p.data⟩]
  | ldn p =>
      [⟨.scalar .u8, p.type⟩, ip p.localIp, ip p.remoteIp, ⟨.scalar .bool, p.broadcast⟩,
        ⟨.vector (.scalar .u8), p.data⟩]

def id : Relayed → Nat
  | proxy _ => 5
  | ldn _ => 6

def encode (p : Relayed) : Bytes := writeAll (u8 p.id :: p.fields)

/-- The packet as a member is called back with it. -/
def callback : Relayed → Callback
  | proxy p =>
      .proxyPacket ⟨some p.localFamily, store ipv4 p.localIp.octets, some p.localPort⟩
        ⟨some p.remoteFamily, store ipv4 p.remoteIp.octets, some p.remotePort⟩ (some p.protocol)
        (some p.broadcast) (p.data.map some)
  | ldn p =>
      .ldnPacket (some p.type) (store ipv4 p.localIp.octets) (store ipv4 p.remoteIp.octets) (some p.broadcast)
        (p.data.map some)

/-- A peer gets the packet: it is another member's, or that of the member with the address. -/
def Reaches (p : Relayed) (r : Room) (sender q : Peer) : Prop :=
  ∃ m ∈ r.members, m.peer = q ∧ if p.broadcast then q ≠ sender else m.fakeIp = p.remoteIp

end Relayed

/-! ## The room reads the destination -/

namespace Packet

variable {p : Packet} {rest : Bytes}

theorem readU8_at {b : UInt8} (h : p.data.drop p.readPos = b :: rest) (hvalid : p.isValid = true)
    (old : UInt8) : p.readU8 old = (b, p.ignoreBytes 1) := by
  have hlt : p.readPos + 1 ≤ p.data.length := by
    have hlength := congrArg List.length h
    rw [List.length_drop, List.length_cons] at hlength; omega
  simp [readU8, readBytes, checkSize, ignoreBytes, hvalid, hlt, h]

theorem drop_ignoreBytes (bytes : Bytes) (h : p.data.drop p.readPos = bytes ++ rest) :
    (p.ignoreBytes bytes.length).data.drop (p.ignoreBytes bytes.length).readPos = rest := by
  show p.data.drop (p.readPos + bytes.length) = rest
  rw [← List.drop_drop, h, List.drop_left]

theorem readIPv4Address_at {x : IPv4Address} (h : p.data.drop p.readPos = [x.a, x.b, x.c, x.d] ++ rest)
    (hvalid : p.isValid = true) (old : IPv4Address) : p.readIPv4Address old = (x, p.ignoreBytes 4) := by
  have h₁ := drop_ignoreBytes [x.a] h
  have h₂ := drop_ignoreBytes [x.b] h₁
  have r₁ : (p.ignoreBytes 1).readU8 old.b = (x.b, p.ignoreBytes 2) := readU8_at h₁ hvalid _
  have r₂ : (p.ignoreBytes 2).readU8 old.c = (x.c, p.ignoreBytes 3) := readU8_at h₂ hvalid _
  have r₃ : (p.ignoreBytes 3).readU8 old.d = (x.d, p.ignoreBytes 4) :=
    readU8_at (drop_ignoreBytes [x.c] h₂) hvalid _
  simp only [readIPv4Address, readU8_at h hvalid, r₁, r₂, r₃]

theorem readBool_at {v : Bool} (h : p.data.drop p.readPos = UInt8.ofNat (if v then 1 else 0) :: rest)
    (hvalid : p.isValid = true) (old : Bool) : p.readBool old = (v, p.ignoreBytes 1) := by
  unfold readBool
  rw [readU8_at h hvalid]
  cases v <;> exact Prod.ext (if_pos hvalid) rfl

/-- The destination, and the flag behind some other fields. -/
theorem destination_at {x : IPv4Address} {v : Bool} (skipped : Bytes) (h : p.data.drop p.readPos =
      [x.a, x.b, x.c, x.d] ++ (skipped ++ UInt8.ofNat (if v then 1 else 0) :: rest))
    (hvalid : p.isValid = true) (ip : IPv4Address) (old : Bool) :
    p.readIPv4Address ip = (x, p.ignoreBytes 4) ∧
      (((p.ignoreBytes 4).ignoreBytes skipped.length).readBool old).1 = v :=
  ⟨readIPv4Address_at h hvalid ip, congrArg Prod.fst
    (readBool_at (drop_ignoreBytes skipped (drop_ignoreBytes [x.a, x.b, x.c, x.d] h)) hvalid old)⟩

end Packet

theorem write_ip (x : IPv4Address) : write (ip x).1 (ip x).2 [] = [x.a, x.b, x.c, x.d] := by
  show [UInt8.ofNat x.a.toNat, UInt8.ofNat x.b.toNat, UInt8.ofNat x.c.toNat, UInt8.ofNat x.d.toNat] = _
  rw [UInt8.ofNat_toNat, UInt8.ofNat_toNat, UInt8.ofNat_toNat, UInt8.ofNat_toNat]

theorem Relayed.head_encode (p : Relayed) : p.encode.head? = some (UInt8.ofNat p.id) := by
  cases p <;> (rw [encode, writeAll_cons]; rfl)

/-- The room sends on what it reads the destination from. -/
theorem handlePacket_relayed (r : Room) (peer : Peer) (p : Relayed) (chances : Chances) :
    r.handlePacket peer p.encode chances =
      some (r, [⟨some (r.receivers peer p.remoteIp p.broadcast), .forward p.encode⟩]) := by
  unfold handlePacket messageType
  rw [p.head_encode]
  cases p with
  | proxy p =>
    obtain ⟨x, y, z, rest, h⟩ : ∃ x y z rest, (Relayed.proxy p).encode.drop 9 =
        [p.remoteIp.a, p.remoteIp.b, p.remoteIp.c, p.remoteIp.d] ++
          ([x, y, z] ++ UInt8.ofNat (if p.broadcast then 1 else 0) :: rest) := by
      simp only [Relayed.encode, Relayed.fields, writeAll_cons, write_ip]; exact ⟨_, _, _, _, rfl⟩
    show some (r.handleProxyPacket peer _ chances) = _
    generalize (Relayed.proxy p).encode = data at h ⊢
    obtain ⟨hip, hflag⟩ := @Packet.destination_at ((Packet.append data).ignoreBytes 9) _ _ _ [x, y, z] h rfl
      chances.uninitializedIp chances.uninitializedBool
    simp only [handleProxyPacket, hip]
    exact congrArg (fun b => some (r, [(⟨some (r.receivers peer p.remoteIp b), .forward data⟩ : Sent)])) hflag
  | ldn p =>
    obtain ⟨rest, h⟩ : ∃ rest, (Relayed.ldn p).encode.drop 6 =
        [p.remoteIp.a, p.remoteIp.b, p.remoteIp.c, p.remoteIp.d] ++
          ([] ++ UInt8.ofNat (if p.broadcast then 1 else 0) :: rest) := by
      simp only [Relayed.encode, Relayed.fields, writeAll_cons, write_ip]; exact ⟨_, rfl⟩
    show some (r.handleLdnPacket peer _ chances) = _
    generalize (Relayed.ldn p).encode = data at h ⊢
    obtain ⟨hip, hflag⟩ := @Packet.destination_at ((Packet.append data).ignoreBytes 6) _ _ _ [] h rfl
      chances.uninitializedIp chances.uninitializedBool
    simp only [handleLdnPacket, hip]
    exact congrArg (fun b => some (r, [(⟨some (r.receivers peer p.remoteIp b), .forward data⟩ : Sent)])) hflag

/-! ## The members read it -/

theorem length_foldl_write (l : List (BitVec 8)) (data : Bytes) :
    (l.foldl (fun data x => write (.scalar .u8) x data) data).length = data.length + l.length := by
  induction l generalizing data with
  | nil => rfl
  | cons x l ih =>
    rw [List.foldl_cons, ih, List.length_cons]
    show (data ++ [_]).length + _ = _
    rw [List.length_append, List.length_singleton]; omega

theorem length_writeAll_cons (v : Sigma PacketStream.Value) (vs : List (Sigma PacketStream.Value)) :
    (writeAll (v :: vs)).length = (write v.1 v.2 []).length + (writeAll vs).length := by
  rw [writeAll_cons, List.length_append]

theorem Relayed.length_encode (p : Relayed) : p.encode.length ≤ 21 + p.data.length := by
  have hvector : ∀ l, (write (.vector (.scalar .u8)) l []).length = 4 + List.length l := fun l =>
    length_foldl_write l _
  cases p with
  | proxy p =>
    simp only [encode, fields, length_writeAll_cons, hvector]
    show 1 + (1 + (4 + (2 + (1 + (4 + (2 + (1 + (1 + (4 + p.data.length + 0))))))))) ≤ 21 + p.data.length
    omega
  | ldn p =>
    simp only [encode, fields, length_writeAll_cons, hvector]
    show 1 + (1 + (4 + (4 + (1 + (4 + p.data.length + 0))))) ≤ 21 + p.data.length
    omega

theorem Relayed.ahead (p : Relayed) (h : p.data.length < 2 ^ 32) :
    Ahead (RoomMember.body p.encode) p.fields [] := by
  refine ⟨⟨rfl, ⟨write (u8 p.id).1 (u8 p.id).2 [], ?_, rfl⟩, ?_⟩, ?_⟩
  · rw [List.append_nil, ← writeAll_cons]
    rfl
  · show p.encode.length < 2 ^ 64
    have hlength := p.length_encode
    omega
  · cases p <;> simp [fields, Short, ip] <;> exact h

namespace RoomMember

theorem readEndpoint_spec {r : PacketStream.Reader} {family : BitVec 8} {x : IPv4Address} {port : BitVec 16}
    {vs : List (Sigma PacketStream.Value)} {rest : Bytes}
    (h : Ahead r (⟨.scalar .u8, family⟩ :: ip x :: ⟨.scalar .u16, port⟩ :: vs) rest) :
    ∃ r', readEndpoint r = (⟨some family, store ipv4 x.octets, some port⟩, r') ∧ Ahead r' vs rest := by
  obtain ⟨r₁, h₁, a₁⟩ := h.scalar none
  obtain ⟨r₂, h₂, a₂⟩ := a₁.ip
  obtain ⟨r₃, h₃, a₃⟩ := a₂.scalar (some 0)
  simp only [readEndpoint, h₁, h₂, h₃]
  exact ⟨_, rfl, a₃⟩

theorem receive_relayed (m : RoomMember) (p : Relayed) (h : p.data.length < 2 ^ 32) :
    m.receive p.encode = m.invoke p.callback := by
  have hahead := p.ahead h
  unfold receive
  rw [p.head_encode]
  cases p with
  | proxy p =>
    obtain ⟨r₁, h₁, a₁⟩ := readEndpoint_spec hahead
    obtain ⟨r₂, h₂, a₂⟩ := readEndpoint_spec a₁
    obtain ⟨r₃, h₃, a₃⟩ := a₂.scalar none
    obtain ⟨r₄, h₄, a₄⟩ := a₃.scalar (some false)
    obtain ⟨r₅, h₅, a₅⟩ := a₄.next []
    show m.handleProxyPackets _ = _
    simp only [handleProxyPackets, h₁, h₂, h₃, h₄, h₅]; rfl
  | ldn p =>
    obtain ⟨r₁, h₁, a₁⟩ := hahead.scalar none
    obtain ⟨r₂, h₂, a₂⟩ := a₁.ip
    obtain ⟨r₃, h₃, a₃⟩ := a₂.ip
    obtain ⟨r₄, h₄, a₄⟩ := a₃.scalar (some false)
    obtain ⟨r₅, h₅, a₅⟩ := a₄.next []
    show m.handleLdnPackets _ = _
    simp only [handleLdnPackets, h₁, h₂, h₃, h₄, h₅]; rfl

end RoomMember

/-! ## Who receives it -/

theorem receivers_count {r : Room} (h : Consistent r) (sender q : Peer) (p : Relayed) :
    ((r.receivers sender p.remoteIp p.broadcast).count q = 1 ∧ p.Reaches r sender q) ∨
      ((r.receivers sender p.remoteIp p.broadcast).count q = 0 ∧ ¬ p.Reaches r sender q) := by
  have hnodup : (r.receivers sender p.remoteIp p.broadcast).Nodup := by
    unfold receivers
    split
    · exact (List.filter_sublist.map _).nodup h.peers
    · cases r.members.find? fun m => decide (m.fakeIp = p.remoteIp) with
      | none => exact List.nodup_nil
      | some m => exact List.nodup_singleton _
  have hmem : q ∈ r.receivers sender p.remoteIp p.broadcast ↔ p.Reaches r sender q := by
    unfold receivers Relayed.Reaches
    cases p.broadcast with
    | true =>
      simp only [if_true, List.mem_map, List.mem_filter, decide_eq_true_eq]
      exact ⟨fun ⟨m, ⟨hm, hne⟩, hq⟩ => ⟨m, hm, hq, hq ▸ hne⟩, fun ⟨m, hm, hq, hne⟩ => ⟨m, ⟨hm, hq ▸ hne⟩, hq⟩⟩
    | false =>
      simp only [Bool.false_eq_true, if_false, Option.mem_toList, Option.map_eq_some_iff]
      have hfound : ∀ {m}, r.members.find? (fun m => decide (m.fakeIp = p.remoteIp)) = some m →
          m ∈ r.members ∧ m.fakeIp = p.remoteIp := fun hfind =>
        ⟨List.mem_of_find?_eq_some hfind, by simpa using List.find?_some hfind⟩
      refine ⟨fun ⟨m, hfind, hq⟩ => ⟨m, (hfound hfind).1, hq, (hfound hfind).2⟩, fun ⟨m, hm, hq, hip⟩ => ?_⟩
      have hsome : (r.members.find? fun m => decide (m.fakeIp = p.remoteIp)).isSome :=
        List.find?_isSome.mpr ⟨m, hm, by simpa using hip⟩
      obtain ⟨m', hfind⟩ := Option.isSome_iff_exists.mp hsome
      -- an address belongs to one member
      have heq := List.inj_on_of_nodup_map h.fakeIps (hfound hfind).1 hm ((hfound hfind).2.trans hip.symm)
      exact ⟨m', hfind, heq ▸ hq⟩
  by_cases hq : p.Reaches r sender q
  · exact Or.inl ⟨List.count_eq_one_of_mem hnodup (hmem.mpr hq), hq⟩
  · exact Or.inr ⟨List.count_eq_zero_of_not_mem fun h => hq (hmem.mp h), hq⟩

namespace RoomNetwork

/-- **ONCE, AND TO NOBODY ELSE**: whatever led to the state, the packet of a connected peer changes nothing at
    the room, is appended once to the queue of each peer that it reaches, and to no other queue; and a member
    that takes it out while it is connected is called back with it. -/
theorem packet_relayed (n : RoomNetwork) (h : Reachable n) (sender : Peer) (p : Relayed)
    (chances : Chances) (hsender : n.room.peerState sender = .connected) (hdata : p.data.length < 2 ^ 32) :
    ∃ sent, n.room.serverLoop (.receive sender p.encode chances) = some (n.room, sent) ∧
      (∀ q, p.Reaches n.room sender q → (n.sending n.room sent).queue q = n.queue q ++ [p.encode]) ∧
      (∀ q, ¬ p.Reaches n.room sender q → (n.sending n.room sent).queue q = n.queue q) ∧
      ∀ m : RoomMember, m.receive p.encode = m.invoke p.callback ∧
        (m.isConnected = true → m.memberLoop p.encode = m.invoke p.callback) := by
  have hqueue : ∀ q, (n.sending n.room
      [⟨some (n.room.receivers sender p.remoteIp p.broadcast), .forward p.encode⟩]).queue q =
        n.queue q ++ List.replicate ((n.room.receivers sender p.remoteIp p.broadcast).count q) p.encode :=
    fun q => congrArg (n.queue q ++ ·) (packets_one _)
  refine ⟨_, (if_pos hsender).trans (handlePacket_relayed _ _ p chances), fun q hq => ?_, fun q hq => ?_,
    fun m => ⟨m.receive_relayed p hdata, fun hc => ?_⟩⟩
  · rcases receivers_count h.synced.consistent sender q p with ⟨hone, -⟩ | ⟨-, hnot⟩
    · rw [hqueue, hone]
      rfl
    · exact absurd hq hnot
  · rcases receivers_count h.synced.consistent sender q p with ⟨-, hreaches⟩ | ⟨hnone, -⟩
    · exact absurd hreaches hq
    · rw [hqueue, hnone]; exact List.append_nil _
  · -- a call-back leaves the member connected
    have hafter : (m.invoke p.callback).isConnected = true := hc
    unfold RoomMember.memberLoop
    rw [if_pos hc, m.receive_relayed p hdata, if_pos hafter]

/-- One byte for everybody. -/
def shortPacket : Relayed := .ldn ⟨0, noPreferredIP, noPreferredIP, true, [1]⟩

/-- Of two members, the one that sends a broadcast does not get it and the other one does. -/
theorem packet_relayed_broadcast : ∃ n, Reachable n ∧
    ∃ sent, n.room.serverLoop (.receive 0 shortPacket.encode noChances) = some (n.room, sent) ∧
      (n.sending n.room sent).queue 0 = n.queue 0 ∧ (n.sending n.room sent).queue 1 = [shortPacket.encode] ∧
      (n.member 1).memberLoop shortPacket.encode = (n.member 1).invoke shortPacket.callback := by
  obtain ⟨n, h, hmembers, hpeer, hqueue, hc⟩ := reachable_pair
  obtain ⟨sent, hsent, hone, hnone, hback⟩ :=
    packet_relayed n h 0 shortPacket noChances hpeer (of_decide_eq_true rfl)
  have hreach : shortPacket.Reaches n.room 0 1 := by
    refine ⟨fourLetters 0x62 1, ?_, rfl, by decide⟩
    rw [hmembers]; exact List.mem_cons_of_mem _ List.mem_cons_self
  have hnot : ¬ shortPacket.Reaches n.room 0 0 := fun ⟨_, _, _, hne⟩ => hne rfl
  have hafter := hone 1 hreach
  rw [hqueue] at hafter
  exact ⟨n, h, sent, hsent, hnone 0 hnot, hafter, (hback _).2 hc⟩

end RoomNetwork

end Suyu.Network
