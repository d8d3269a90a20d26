import Suyu.Network.RoomMember

/-
  A room and its members, with a queue of packets from the room to each peer.

  1. **Program (`Step`)** - an event at the room, whose messages go into the queues; a packet that a member
     takes out of its queue; a member that leaves; a queue that ENet drops with its connection.

  2. **Specification (`room_network_synced`)** - whatever the order of the steps, a member that has read all
     its packets sees the MEMBERS OF THE ROOM, and its own address is the one the room has for it; and none
     hears of its join before it has heard of a member.

  3. **The crux (`Synced`)** - all this holds of a member as it WILL be behind its queue, from the moment the
     room has sent.  `serverLoop_tells`: an event that changes the members tells everybody, last of all.

  Peers send what they like: `serverLoop` takes any bytes.  No step is a double join.
-/

namespace Suyu.Network

open Function (update update_eq_self update_self update_of_ne)

open PacketStream (store)

open Room

/-! ## Program -/

/-- How often a message goes out to a peer. -/
def Sent.copies (r : Room) (p : Peer) (s : Sent) : Nat :=
  match s.peers with
  | none => if r.peerState p = .connected then 1 else 0
  | some peers => peers.count p

def packets (r : Room) (sent : List Sent) (p : Peer) : List Bytes :=
  sent.flatMap fun s => List.replicate (s.copies r p) (s.message.encode r.information)

structure RoomNetwork where
  room : Room
  queue : Peer → List Bytes
  member : Peer → RoomMember

namespace RoomNetwork

/-- The room has sent. -/
def sending (n : RoomNetwork) (r : Room) (sent : List Sent) : RoomNetwork :=
  { n with room := r, queue := fun p => n.queue p ++ packets r sent p }

/-- One step of anybody. -/
inductive Step (n : RoomNetwork) : RoomNetwork → Prop
  | connect {peer : Peer} {address : Bytes} {m : RoomMember} {r : Room} {sent : List Sent}
      (h : n.room.serverLoop (.connect peer address) = some (r, sent)) (hasserted : m.asserted = true) :
      Step n ⟨r, update n.queue peer [], update n.member peer { m with state := .joining }⟩
  | room {e : Event} {r : Room} {sent : List Sent} (h : n.room.serverLoop e = some (r, sent))
      (hjoin : ¬ DoubleJoin n.room e) (hfits : ∀ s ∈ sent, s.message.Fits r.information) :
      Step n (n.sending r sent)
  | receive {p : Peer} {data : Bytes} {rest : List Bytes} (h : n.queue p = data :: rest) :
      Step n ⟨n.room, update n.queue p rest, update n.member p ((n.member p).memberLoop data)⟩
  | leave (p : Peer) :
      Step n { n with member := update n.member p ((n.member p).setState .idle).disconnect }
  | lost {p : Peer} (h : (n.member p).state = .joined ∨ (n.member p).state = .moderator) :
      Step n { n with
        member := update n.member p (((n.member p).setState .idle).setError .lostConnection).disconnect }
  | drop {p : Peer} (h : n.room.peerState p ≠ .connected) : Step n { n with queue := update n.queue p [] }

inductive Reachable : RoomNetwork → Prop
  | create (information : RoomInformation) (usernameBanList ipBanList : List Bytes) {member : Peer → RoomMember}
      (hasserted : ∀ p, (member p).asserted = true) :
      Reachable ⟨.create information usernameBanList ipBanList, fun _ => [], member⟩
  | step {n n' : RoomNetwork} (h : Reachable n) (hs : n.Step n') : Reachable n'

end RoomNetwork

/-! ## One packet at a member -/

/-- Neither the list of members nor a join. -/
def Message.Quiet : Message → Prop
  | .roomInformation _ | .joinSuccess _ | .joinSuccessAsMod _ => False
  | .forward data => data.head? = some 5 ∨ data.head? = some 6
  | _ => True

/-- The first byte of such a message. -/
def Quiet (head : Option UInt8) : Prop := head ≠ some 2 ∧ head ≠ some 3 ∧ head ≠ some 24

instance (head : Option UInt8) : Decidable (Quiet head) := inferInstanceAs (Decidable (_ ∧ _))

theorem Message.Quiet.encode {message : Message} (h : message.Quiet)
    (information : RoomInformation) : Network.Quiet (message.encode information).head? := by
  cases message with
  | forward data =>
    have hhead : data.head? = some 5 ∨ data.head? = some 6 := h
    show Network.Quiet data.head?
    rcases hhead with hhead | hhead <;> rw [hhead] <;> decide
  | roomInformation | joinSuccess | joinSuccessAsMod => exact h.elim
  | _ =>
    rw [Message.head_encode]
    · exact of_decide_eq_true rfl
    · exact Nat.succ_ne_zero _

namespace RoomMember

variable {m x y z : RoomMember} {data : Bytes} {list list' : List MemberInformation}
  {information : RoomInformation}

/-- Packets from `x` to `y` that tell of these members, and of no join. -/
structure Hears (x y : RoomMember) (list : List MemberInformation) : Prop where
  asserted : y.asserted = x.asserted
  connected : y.isConnected = true → x.isConnected = true ∧ y.memberInformation = list ∧
    y.fakeIp = x.fakeIp ∧ y.state = x.state

/-- They tell of neither. -/
abbrev Keeps (x y : RoomMember) : Prop := Hears x y x.memberInformation

theorem Keeps.refl (x : RoomMember) : Keeps x x := ⟨rfl, fun h => ⟨h, rfl, rfl, rfl⟩⟩

theorem Hears.trans (h : Hears x y list) (h' : Hears y z list') : Hears x z list' := by
  refine ⟨h'.asserted.trans h.asserted, fun hz => ?_⟩
  obtain ⟨hy, hlist, hfakeIp, hstate⟩ := h'.connected hz
  obtain ⟨hx, -, hfakeIp', hstate'⟩ := h.connected hy
  exact ⟨hx, hlist, hfakeIp.trans hfakeIp', hstate.trans hstate'⟩

theorem Hears.keeps (h : Hears x y list) (h' : Keeps y z) : Hears x z list := by
  refine ⟨(h.trans h').asserted, fun hz => ?_⟩
  obtain ⟨hx, hlist, hrest⟩ := (h.trans h').connected hz
  exact ⟨hx, hlist.trans (h.connected (h'.connected hz).1).2.1, hrest⟩

theorem keeps_invoke (data : Callback) : Keeps m (m.invoke data) := ⟨rfl, fun h => ⟨h, rfl, rfl, rfl⟩⟩

theorem keeps_idle (error : MemberError) : Keeps m ((m.setState .idle).setError error) := by
  unfold setState
  split
  · exact ⟨rfl, fun h => absurd h Bool.false_ne_true⟩
  · exact keeps_invoke _

theorem keeps_receive (h : Quiet data.head?) : Keeps m (m.receive data) := by
  obtain ⟨hjoin, hroom, hmod⟩ := h
  unfold receive
  split
  case h_5 hhead => exact absurd hhead hroom
  case h_6 hhead => exact absurd hhead hjoin
  case h_7 hhead => exact absurd hhead hmod
  all_goals first | exact keeps_idle _ | exact .refl m | exact keeps_invoke _

theorem keeps_memberLoop (h : Quiet data.head?) : Keeps m (m.memberLoop data) := by
  unfold memberLoop
  split
  · split
    · exact keeps_receive h
    · next hnot => exact ⟨(keeps_receive h).asserted, fun hc => absurd hc hnot⟩
  · exact .refl m

theorem hears_information {members : List Member} (h : (Message.roomInformation members).Fits information) :
    Hears m (m.memberLoop ((Message.roomInformation members).encode information))
      (members.map .ofMember) := by
  unfold memberLoop
  rw [receive_encode h]
  split
  · next hc =>
    have hroom : (m.told information (.roomInformation members)).isConnected = true := hc
    rw [if_pos hroom]
    exact ⟨rfl, fun _ => ⟨hc, rfl, rfl, rfl⟩⟩
  · next hc => exact ⟨rfl, fun h => absurd h hc⟩

/-- Behind the packet of a join. -/
structure Joins (m m' : RoomMember) (fakeIp : IPv4Address) : Prop where
  connected : m'.isConnected = m.isConnected
  asserted : m'.asserted = (m.asserted && (!m.isConnected || decide (m.memberInformation ≠ [])))
  list : m'.memberInformation = m.memberInformation
  joined : m.isConnected = true → m'.fakeIp = store ipv4 fakeIp.octets ∧
    (m'.state = .joined ∨ m'.state = .moderator)

theorem joins_join {state : MemberState} (hstate : state = .joined ∨ state = .moderator)
    (fakeIp : IPv4Address) (hc : m.isConnected = true) : Joins m (m.join fakeIp state) fakeIp := by
  have hafter : (m.join fakeIp state).state = state ∧ (m.join fakeIp state).fakeIp = store ipv4 fakeIp.octets ∧
      (m.join fakeIp state).memberInformation = m.memberInformation ∧
      (m.join fakeIp state).asserted = m.assertMembers.asserted := by
    unfold join setState
    split
    · exact ⟨rfl, rfl, rfl, rfl⟩
    · next h => exact ⟨not_not.mp h, rfl, rfl, rfl⟩
  obtain ⟨hs, hfakeIp, hlist, hasserted⟩ := hafter
  refine ⟨?_, ?_, hlist, fun _ => ⟨hfakeIp, hs.symm ▸ hstate⟩⟩
  · rw [hc]
    unfold isConnected
    rw [hs]
    rcases hstate with rfl | rfl <;> rfl
  · rw [hasserted, hc]; rfl

theorem joins_memberLoop {message : Message} {fakeIp : IPv4Address} (h : message.Fits information)
    (hmessage : message = .joinSuccess fakeIp ∨ message = .joinSuccessAsMod fakeIp) :
    Joins m (m.memberLoop (message.encode information)) fakeIp := by
  obtain ⟨state, hstate, htold⟩ : ∃ state, (state = .joined ∨ state = .moderator) ∧
      m.told information message = m.join fakeIp state := by
    rcases hmessage with rfl | rfl
    · exact ⟨_, Or.inl rfl, rfl⟩
    · exact ⟨_, Or.inr rfl, rfl⟩
  unfold memberLoop
  rw [receive_encode h, htold]
  split
  · next hc =>
    have hjoins := joins_join hstate fakeIp hc
    rw [if_pos (hjoins.connected.trans hc)]
    exact hjoins
  · next hc =>
    have hnot := Bool.eq_false_of_not_eq_true hc
    exact ⟨rfl, by simp [hnot], rfl, fun h => absurd h hc⟩

theorem asserted_setState (state : MemberState) : (m.setState state).asserted = m.asserted := by
  unfold setState
  split <;> rfl

theorem state_idle : (m.setState .idle).state = .idle := by
  unfold setState
  split
  · rfl
  · next h => exact not_not.mp h

theorem not_connected_idle {x : RoomMember} (h : x.state = (m.setState .idle).state) :
    x.isConnected = false := by
  unfold isConnected
  rw [h, state_idle]
  rfl

/-- An assertion that has failed stays so. -/
theorem asserted_of_receive (h : (m.receive data).asserted = true) : m.asserted = true := by
  by_cases hroom : data.head? = some 3
  · obtain ⟨room, members, heq⟩ : ∃ room members,
        m.handleRoomInformationPacket data = m.setRoom room members := ⟨_, _, rfl⟩
    have hreceive : m.receive data = m.setRoom room members := by
      unfold receive
      rw [hroom, ← heq]; rfl
    rw [hreceive] at h; exact h
  by_cases hjoin : data.head? = some 2 ∨ data.head? = some 24
  · obtain ⟨state, hreceive⟩ : ∃ state,
        m.receive data = (m.assertMembers.handleJoinPacket data).setState state := by
      unfold receive
      rcases hjoin with hhead | hhead <;> rw [hhead] <;> exact ⟨_, rfl⟩
    rw [hreceive, asserted_setState] at h
    exact (Bool.and_eq_true_iff.mp h).1
  · obtain ⟨hnot, hnot'⟩ := not_or.mp hjoin; exact (keeps_receive ⟨hnot, hroom, hnot'⟩).asserted ▸ h

/-- All packets of a queue. -/
def hear (m : RoomMember) (queue : List Bytes) : RoomMember := queue.foldl memberLoop m

theorem hear_append (queue queue' : List Bytes) : m.hear (queue ++ queue') = (m.hear queue).hear queue' :=
  List.foldl_append

theorem keeps_hear (queue : List Bytes) (h : ∀ data ∈ queue, Quiet data.head?) : Keeps m (m.hear queue) := by
  induction queue generalizing m with
  | nil => exact .refl m
  | cons data queue ih =>
    exact Hears.keeps (keeps_memberLoop (h data List.mem_cons_self))
      (ih fun d hd => h d (List.mem_cons_of_mem data hd))

theorem asserted_of_hear (queue : List Bytes) (h : (m.hear queue).asserted = true) : m.asserted = true := by
  induction queue generalizing m with
  | nil => exact h
  | cons data queue ih =>
    have hone := ih h
    unfold memberLoop at hone
    split at hone
    · split at hone <;> exact asserted_of_receive hone
    · exact hone

theorem hear_of_not (hc : m.isConnected = false) (queue : List Bytes) : m.hear queue = m := by
  induction queue with
  | nil => rfl
  | cons data queue ih =>
    have hone : m.memberLoop data = m := if_neg (by rw [hc]; exact Bool.false_ne_true)
    show (m.memberLoop data).hear queue = m
    rw [hone, ih]

end RoomMember

/-! ## One event at the room -/

/-- What an event tells the peers. -/
inductive Tells (r r' : Room) : List Sent → Prop
  | quiet {sent : List Sent} (hmembers : r'.members = r.members) (hquiet : ∀ s ∈ sent, s.message.Quiet) :
      Tells r r' sent
  | announce {sent : List Sent} (hquiet : ∀ s ∈ sent, s.message.Quiet)
      (hmembers : ∀ m' ∈ r'.members, ∃ m ∈ r.members, m.peer = m'.peer ∧ m.fakeIp = m'.fakeIp) :
      Tells r r' (sent ++ [r'.broadcastRoomInformation])
  | join {member : Member} {s : Sent} {message : Message} (hquiet : s.message.Quiet)
      (hmembers : r'.members = r.members ++ [member])
      (hmessage : message = .joinSuccess member.fakeIp ∨ message = .joinSuccessAsMod member.fakeIp) :
      Tells r r' [s, r'.broadcastRoomInformation, toPeer member.peer message]

theorem Tells.one {r r' : Room} {s : Sent} (hmembers : r'.members = r.members) (h : s.message.Quiet) :
    Tells r r' [s] := .quiet hmembers (List.forall_mem_singleton.mpr h)

theorem Tells.erase {r r' : Room} {p : Member → Bool} {sent : List Sent} (h : r'.members = r.members.eraseP p)
    (hquiet : ∀ s ∈ sent, s.message.Quiet) : Tells r r' (sent ++ [r'.broadcastRoomInformation]) :=
  .announce hquiet fun m hm => ⟨m, List.eraseP_subset (h ▸ hm), rfl, rfl⟩

theorem mk_inj {r₁ r₂ : Room} {sent₁ sent₂ : List Sent} (h : some (r₁, sent₁) = some (r₂, sent₂)) :
    r₁ = r₂ ∧ sent₁ = sent₂ := Prod.mk.inj (Option.some.inj h)

theorem handleJoinRequest_tells {r r' : Room} {peer : Peer} {data : Bytes} {chances : Chances}
    {sent : List Sent} (h : r.handleJoinRequest peer data chances = some (r', sent)) : Tells r r' sent := by
  have hstop : ∀ {message : Message}, (r, [toPeer peer message]) = (r', sent) → message.Quiet →
      Tells r r' sent := by
    intro message heq hquiet
    obtain ⟨rfl, rfl⟩ := Prod.mk.inj heq; exact .one rfl hquiet
  unfold Room.handleJoinRequest at h
  dsimp only at h
  split at h
  · exact hstop (Option.some.inj h) trivial
  split at h
  · exact hstop (Option.some.inj h) trivial
  split at h
  · exact hstop (Option.some.inj h) trivial
  split at h
  · exact hstop (Option.some.inj h) trivial
  obtain ⟨fakeIp, -, heq⟩ := Option.map_eq_some_iff.mp h
  split at heq
  · exact hstop heq trivial
  split at heq
  · exact hstop heq trivial
  split at heq
  · exact hstop heq trivial
  obtain ⟨rfl, rfl⟩ := Prod.mk.inj heq
  refine @Tells.join r _ ⟨_, _, fakeIp, _, peer⟩ _ _ trivial rfl ?_
  split
  · exact Or.inr rfl
  · exact Or.inl rfl

theorem forward_quiet {data : Bytes} (h : messageType data = .proxyPacket ∨ messageType data = .ldnPacket) :
    (Message.forward data).Quiet := by
  show data.head? = some 5 ∨ data.head? = some 6
  unfold messageType at h
  split at h <;> rename_i hhead <;> first | exact Or.inl hhead | exact Or.inr hhead | simp at h

/-- **What an event tells**: an event that changes the members tells all of them, last of all. -/
theorem serverLoop_tells {r r' : Room} {e : Event} {sent : List Sent}
    (h : r.serverLoop e = some (r', sent)) : Tells r r' sent := by
  have htwo : ∀ {s s' : Sent}, s.message.Quiet → s'.message.Quiet → ∀ t ∈ [s, s'], t.message.Quiet :=
    fun hs hs' => List.forall_mem_cons.mpr ⟨hs, List.forall_mem_singleton.mpr hs'⟩
  unfold Room.serverLoop at h
  cases e with
  | connect peer address =>
    dsimp only at h
    split at h
    · obtain ⟨rfl, rfl⟩ := mk_inj h
      exact .quiet rfl (List.forall_mem_nil _)
    · cases h
  | disconnect peer =>
    unfold Room.handleClientDisconnection at h
    dsimp only at h
    split at h
    · cases h
    split at h <;> obtain ⟨rfl, rfl⟩ := mk_inj h
    · exact .erase rfl (List.forall_mem_nil _)
    · exact @Tells.erase r _ _ [_] rfl (List.forall_mem_singleton.mpr trivial)
  | receive peer data chances =>
    unfold Room.handlePacket at h
    dsimp only at h
    split at h
    swap
    · cases h
    split at h
    · exact handleJoinRequest_tells h
    · obtain ⟨rfl, rfl⟩ := mk_inj h
      refine .announce (List.forall_mem_nil _) fun m' hm' => ?_
      have hmem := List.mem_map_of_mem hm' (f := fun m : Member => (m.peer, m.fakeIp))
      rw [map_setGameInfo _ fun _ _ => rfl] at hmem
      obtain ⟨m, hm, heq⟩ := List.mem_map.mp hmem
      exact ⟨m, hm, Prod.mk.inj heq⟩
    · next htype =>
      obtain ⟨rfl, rfl⟩ := mk_inj h
      exact .one rfl (forward_quiet (Or.inl htype))
    · next htype =>
      obtain ⟨rfl, rfl⟩ := mk_inj h
      exact .one rfl (forward_quiet (Or.inr htype))
    · unfold Room.handleChatPacket at h
      dsimp only at h
      split at h <;> obtain ⟨rfl, rfl⟩ := mk_inj h
      · exact .quiet rfl (List.forall_mem_nil _)
      · exact .one rfl trivial
    · unfold Room.handleModKickPacket at h
      dsimp only at h
      split at h
      · obtain ⟨rfl, rfl⟩ := mk_inj h; exact .one rfl trivial
      split at h <;> obtain ⟨rfl, rfl⟩ := mk_inj h
      · exact .one rfl trivial
      · exact @Tells.erase r _ _ [_, _] rfl (htwo trivial trivial)
    · unfold Room.handleModBanPacket at h
      dsimp only at h
      split at h
      · obtain ⟨rfl, rfl⟩ := mk_inj h; exact .one rfl trivial
      split at h <;> obtain ⟨rfl, rfl⟩ := mk_inj h
      · exact .one rfl trivial
      · exact @Tells.erase r _ _ [_, _] rfl (htwo trivial trivial)
    · unfold Room.handleModUnbanPacket at h
      dsimp only at h
      split at h <;> obtain ⟨rfl, rfl⟩ := mk_inj h
      · exact .one rfl trivial
      · refine .one rfl ?_
        split <;> exact trivial
    · unfold Room.handleModGetBanListPacket at h
      split at h <;> obtain ⟨rfl, rfl⟩ := mk_inj h <;> exact .one rfl trivial
    · obtain ⟨rfl, rfl⟩ := mk_inj h; exact .quiet rfl (List.forall_mem_nil _)

/-! ## All packets of an event at one member -/

section Packets

variable {r : Room} {sent : List Sent} {p : Peer} {x : RoomMember}

theorem packets_append (sent' : List Sent) :
    packets r (sent ++ sent') p = packets r sent p ++ packets r sent' p := List.flatMap_append

theorem packets_one (s : Sent) :
    packets r [s] p = List.replicate (s.copies r p) (s.message.encode r.information) :=
  List.flatMap_singleton _ _

theorem keeps_packets (hquiet : ∀ s ∈ sent, s.message.Quiet) : x.Keeps (x.hear (packets r sent p)) := by
  refine RoomMember.keeps_hear _ fun data hdata => ?_
  obtain ⟨s, hs, hmem⟩ := List.mem_flatMap.mp hdata
  rw [(List.mem_replicate.mp hmem).2]
  exact (hquiet s hs).encode r.information

/-- A connected peer hears of the members. -/
theorem hears_packets (hquiet : ∀ s ∈ sent, s.message.Quiet)
    (hfits : r.broadcastRoomInformation.message.Fits r.information) (hp : r.peerState p = .connected) :
    x.Hears (x.hear (packets r (sent ++ [r.broadcastRoomInformation]) p)) (r.members.map .ofMember) := by
  have hone : r.broadcastRoomInformation.copies r p = 1 := if_pos hp
  rw [packets_append, packets_one, RoomMember.hear_append, hone]
  exact (keeps_packets hquiet).trans (RoomMember.hears_information hfits)

theorem asserted_packets (hquiet : ∀ s ∈ sent, s.message.Quiet)
    (hfits : r.broadcastRoomInformation.message.Fits r.information) :
    (x.hear (packets r (sent ++ [r.broadcastRoomInformation]) p)).asserted = x.asserted := by
  by_cases hp : r.peerState p = .connected
  · exact (hears_packets hquiet hfits hp).asserted
  · have hnone : r.broadcastRoomInformation.copies r p = 0 := if_neg hp
    rw [packets_append, packets_one, hnone, List.replicate_zero, List.append_nil]
    exact (keeps_packets hquiet).asserted

/-- Only the peer that joins hears of it. -/
theorem packets_join (q : Peer) (message : Message) :
    packets r [toPeer q message] p = if p = q then [message.encode r.information] else [] := by
  rw [packets_one]
  show List.replicate ([q].count p) _ = _
  rw [List.count_singleton]
  by_cases h : p = q
  · rw [if_pos h, if_pos (beq_iff_eq.mpr h.symm)]
    rfl
  · rw [if_neg h, if_neg fun hb => h (beq_iff_eq.mp hb).symm]; rfl

end Packets

/-! ## Any order of steps -/

namespace RoomNetwork

variable {n n' : RoomNetwork}

/-- A member behind its queue. -/
def final (n : RoomNetwork) (p : Peer) : RoomMember := (n.member p).hear (n.queue p)

theorem final_sending (r : Room) (sent : List Sent) (p : Peer) :
    (n.sending r sent).final p = (n.final p).hear (packets r sent p) := RoomMember.hear_append _ _

/-- What a member in the room has seen. -/
structure Seen (members : List Member) (m : Member) (x : RoomMember) : Prop where
  list : x.memberInformation = members.map .ofMember
  fakeIp : x.fakeIp = store ipv4 m.fakeIp.octets
  state : x.state = .joined ∨ x.state = .moderator

structure Synced (n : RoomNetwork) : Prop where
  consistent : Consistent n.room
  asserted : ∀ p, (n.final p).asserted = true
  seen : ∀ m ∈ n.room.members, (n.final m.peer).isConnected = true →
    Seen n.room.members m (n.final m.peer)

theorem Synced.room (h : Synced n) {e : Event} {r : Room} {sent : List Sent}
    (hs : n.room.serverLoop e = some (r, sent)) (hjoin : ¬ DoubleJoin n.room e)
    (hfits : ∀ s ∈ sent, s.message.Fits r.information) : Synced (n.sending r sent) := by
  have hconsistent := (h.consistent.step_iff (serverLoop_cases hs)).mpr hjoin
  cases serverLoop_tells hs with
  | quiet hmembers hquiet =>
    refine ⟨hconsistent, fun p => ?_, fun m hm hc => ?_⟩
    · rw [final_sending, (keeps_packets hquiet).asserted]
      exact h.asserted p
    · rw [final_sending] at hc ⊢
      obtain ⟨hx, hlist, hfakeIp, hstate⟩ := (keeps_packets hquiet).connected hc
      have hseen := h.seen m (hmembers ▸ hm) hx
      have hsame : (n.sending r sent).room.members = n.room.members := hmembers
      rw [hsame]
      exact ⟨hlist ▸ hseen.list, hfakeIp.trans hseen.fakeIp, hstate ▸ hseen.state⟩
  | announce hquiet hmembers =>
    have hinfo := hfits _ (List.mem_append_right _ List.mem_cons_self)
    refine ⟨hconsistent, fun p => ?_, fun m hm hc => ?_⟩
    · rw [final_sending, asserted_packets hquiet hinfo]
      exact h.asserted p
    · rw [final_sending] at hc ⊢
      obtain ⟨m', hm', hpeer, hip⟩ := hmembers m hm
      obtain ⟨hx, hlist, hfakeIp, hstate⟩ :=
        (hears_packets hquiet hinfo (hconsistent.connected m hm)).connected hc
      rw [← hpeer] at hx hfakeIp hstate hlist ⊢
      have hseen := h.seen m' hm' hx
      exact ⟨hlist, hfakeIp.trans (hip ▸ hseen.fakeIp), hstate ▸ hseen.state⟩
  | join hquiet hmembers hmessage =>
    rename_i member s message
    have hone : ∀ s' ∈ [s], s'.message.Quiet := List.forall_mem_singleton.mpr hquiet
    have hinfo := hfits _ (List.mem_cons_of_mem _ List.mem_cons_self)
    have htold := hfits _ (List.mem_cons_of_mem _ (List.mem_cons_of_mem _ List.mem_cons_self))
    have hmember : member ∈ r.members := hmembers ▸ List.mem_append_right _ List.mem_cons_self
    -- the list goes to everybody first, and then the peer that joins hears of it
    obtain ⟨before, hbefore⟩ : ∃ before, before = n.sending r ([s] ++ [r.broadcastRoomInformation]) :=
      ⟨_, rfl⟩
    have hsplit : ∀ p, (n.sending r [s, r.broadcastRoomInformation, toPeer member.peer message]).final p =
        (before.final p).hear (if p = member.peer then [message.encode r.information] else []) := fun p => by
      rw [hbefore, final_sending, final_sending, ← packets_join, ← RoomMember.hear_append, ← packets_append]
      rfl
    have hold : ∀ p, p ≠ member.peer →
        (n.sending r [s, r.broadcastRoomInformation, toPeer member.peer message]).final p = before.final p :=
      fun p hp => by
        rw [hsplit, if_neg hp]; rfl
    have hhears : ∀ p, r.peerState p = .connected →
        (n.final p).Hears (before.final p) (r.members.map .ofMember) := fun p hp => by
      rw [hbefore, final_sending]; exact hears_packets hone hinfo hp
    have hasserted : ∀ p, (before.final p).asserted = true := fun p => by
      rw [hbefore, final_sending, asserted_packets hone hinfo]; exact h.asserted p
    have hjoins : (before.final member.peer).Joins
        ((n.sending r [s, r.broadcastRoomInformation, toPeer member.peer message]).final member.peer)
        member.fakeIp := by
      rw [hsplit, if_pos rfl]; exact RoomMember.joins_memberLoop htold hmessage
    have hlist := hhears member.peer (hconsistent.connected _ hmember)
    refine ⟨hconsistent, fun p => ?_, fun m hm hc => ?_⟩
    · by_cases hp : p = member.peer
      · rw [hp, hjoins.asserted, hasserted, Bool.true_and, Bool.or_eq_true]
        cases hc : (before.final member.peer).isConnected with
        | false => exact Or.inl rfl
        | true =>
          refine Or.inr (decide_eq_true ?_)
          rw [(hlist.connected hc).2.1]
          exact fun hnil => List.ne_nil_of_mem hmember (List.map_eq_nil_iff.mp hnil)
      · rw [hold p hp]; exact hasserted p
    · by_cases hp : m.peer = member.peer
      · obtain rfl := List.inj_on_of_nodup_map hconsistent.peers hm hmember hp
        have hy := hjoins.connected.symm.trans hc
        obtain ⟨hfakeIp, hstate⟩ := hjoins.joined hy
        exact ⟨hjoins.list.trans (hlist.connected hy).2.1, hfakeIp, hstate⟩
      · rw [hold _ hp] at hc ⊢
        have hm' : m ∈ n.room.members := by
          rcases List.mem_append.mp (hmembers ▸ hm) with hm | hm
          · exact hm
          · exact absurd (congrArg _ (List.mem_singleton.mp hm)) hp
        obtain ⟨hx, hlist', hfakeIp, hstate⟩ := (hhears _ (hconsistent.connected m hm)).connected hc
        have hseen := h.seen m hm' hx
        exact ⟨hlist', hfakeIp.trans hseen.fakeIp, hstate ▸ hseen.state⟩

/-- A step of one member. -/
theorem Synced.member (h : Synced n) {p : Peer} {queue : List Bytes} {m : RoomMember}
    (hasserted : (m.hear queue).asserted = true)
    (hseen : ∀ m' ∈ n.room.members, m'.peer = p → (m.hear queue).isConnected = true →
      Seen n.room.members m' (m.hear queue)) :
    Synced ⟨n.room, update n.queue p queue, update n.member p m⟩ := by
  have hself : final ⟨n.room, update n.queue p queue, update n.member p m⟩ p = m.hear queue := by
    unfold final
    dsimp only
    rw [update_self, update_self]
  have hother : ∀ q, q ≠ p → final ⟨n.room, update n.queue p queue, update n.member p m⟩ q = n.final q := by
    intro q hq
    unfold final
    dsimp only
    rw [update_of_ne hq, update_of_ne hq]
  refine ⟨h.consistent, fun q => ?_, fun m' hm' hc => ?_⟩
  · by_cases hq : q = p
    · rw [hq, hself]
      exact hasserted
    · rw [hother q hq]; exact h.asserted q
  · by_cases hq : m'.peer = p
    · rw [hq, hself] at hc ⊢
      exact hseen m' hm' hq hc
    · rw [hother _ hq] at hc ⊢; exact h.seen m' hm' hc

/-- A member that is not connected any more hears nothing. -/
theorem Synced.gone (h : Synced n) {p : Peer} {m : RoomMember} (hasserted : m.asserted = true)
    (hc : m.isConnected = false) : Synced { n with member := update n.member p m } := by
  have hleft := RoomMember.hear_of_not hc (n.queue p)
  have hstep := @Synced.member n h p (n.queue p) m (by rw [hleft]; exact hasserted)
    fun _ _ _ hc' => absurd hc' (by rw [hleft, hc]; exact Bool.false_ne_true)
  rwa [update_eq_self] at hstep

/-- **One step** of anybody. -/
theorem Synced.step (h : Synced n) (hs : n.Step n') : Synced n' := by
  have hmember : ∀ p, (n.member p).asserted = true := fun p => RoomMember.asserted_of_hear _ (h.asserted p)
  -- a peer that is not connected has no member
  have hnone : ∀ {p : Peer}, n.room.peerState p ≠ .connected → ∀ m ∈ n.room.members, m.peer ≠ p :=
    fun hp m hm heq => hp (heq ▸ h.consistent.connected m hm)
  cases hs with
  | connect hloop hasserted =>
    rename_i peer address m r sent
    have heffect := serverLoop_cases hloop
    have hconsistent := (h.consistent.step_iff heffect).mpr fun hjoin => hjoin
    cases heffect with
    | connect hstate =>
      have hgone := hnone (p := peer) (by rw [hstate]; decide)
      exact @Synced.member ⟨_, n.queue, n.member⟩ ⟨hconsistent, h.asserted, h.seen⟩ peer [] _ hasserted
        fun m' hm' heq => absurd heq (hgone m' hm')
  | room hloop hjoin hfits => exact h.room hloop hjoin hfits
  | receive hqueue =>
    rename_i p data rest
    have hfinal : ((n.member p).memberLoop data).hear rest = n.final p := by
      unfold final
      rw [hqueue]; rfl
    refine h.member (by rw [hfinal]; exact h.asserted p) fun m hm heq hc => ?_
    rw [hfinal, ← heq] at hc ⊢; exact h.seen m hm hc
  | leave p =>
    exact h.gone ((RoomMember.asserted_setState .idle).trans (hmember p)) (RoomMember.not_connected_idle rfl)
  | lost hstate =>
    rename_i p
    exact h.gone ((RoomMember.asserted_setState .idle).trans (hmember p)) (RoomMember.not_connected_idle rfl)
  | drop hp =>
    rename_i p
    have hstep := @Synced.member n h p [] (n.member p) (hmember p)
      fun m hm heq => absurd heq (hnone hp m hm)
    rwa [update_eq_self] at hstep

theorem Reachable.synced (h : Reachable n) : Synced n := by
  induction h with
  | create information usernameBanList ipBanList hasserted =>
    exact ⟨consistent_create _ _ _, hasserted, fun m hm => absurd hm List.not_mem_nil⟩
  | step _ hs ih => exact ih.step hs

/-- **A ROOM AND ITS MEMBERS AGREE**: in every state that any steps lead to, the assertion about joins has
    never failed, and a member that has read all its packets sees the members of the room and has its own
    address there. -/
theorem room_network_synced (n : RoomNetwork) (h : Reachable n) :
    (∀ p, (n.member p).asserted = true) ∧
    ∀ m ∈ n.room.members, n.queue m.peer = [] → (n.member m.peer).isConnected = true →
      (n.member m.peer).memberInformation = n.room.members.map .ofMember ∧
      (n.member m.peer).fakeIp = store ipv4 m.fakeIp.octets ∧
      ((n.member m.peer).state = .joined ∨ (n.member m.peer).state = .moderator) := by
  refine ⟨fun p => RoomMember.asserted_of_hear _ (h.synced.asserted p), fun m hm hqueue hc => ?_⟩
  have hseen := h.synced.seen m hm
  unfold final at hseen
  rw [hqueue] at hseen
  exact ⟨(hseen hc).list, (hseen hc).fakeIp, (hseen hc).state⟩

/-- The member of `joinPacket`. -/
def fourLetters (letter : UInt8) (peer : Peer) : Member :=
  ⟨[letter, letter, letter, letter], ⟨[], 0, []⟩, ⟨10, 0, 0, letter⟩, ⟨[], [], [], false⟩, peer⟩

/-- What its join sends. -/
def fourLettersSent (r : Room) (letter : UInt8) (peer : Peer) : List Sent :=
  [toMembers r (.memberJoin [letter, letter, letter, letter] []),
    ⟨none, .roomInformation (r.members ++ [fourLetters letter peer])⟩,
    toPeer peer (.joinSuccess ⟨10, 0, 0, letter⟩)]

theorem fits_fourLetters {r : Room} {information : RoomInformation} {letter : UInt8} {peer : Peer}
    (h : (Message.roomInformation (r.members ++ [fourLetters letter peer])).Fits information) :
    ∀ s ∈ fourLettersSent r letter peer, s.message.Fits information := by
  refine List.forall_mem_cons.mpr ⟨?_, List.forall_mem_cons.mpr ⟨h, List.forall_mem_singleton.mpr ?_⟩⟩
  · refine ⟨?_, of_decide_eq_true rfl, fun _ h => by cases h⟩
    simp [Message.fields, toMembers, PacketStream.Short, text, u8]
  · refine ⟨?_, of_decide_eq_true rfl, fun _ h => by cases h⟩
    simp [Message.fields, toPeer, PacketStream.Short, ip]

set_option maxRecDepth 4000 in
/-- Peers 0 and 1 connect and join as `aaaa` and `bbbb`, and both read the packets they get. -/
theorem reachable_pair : ∃ n, Reachable n ∧ n.room.members = [fourLetters 0x61 0, fourLetters 0x62 1] ∧
    n.room.peerState 0 = .connected ∧ n.queue 1 = [] ∧ (n.member 1).isConnected = true := by
  have h₀ : Reachable ⟨smallRoom, fun _ => [], fun _ => RoomMember.idleMember⟩ := .create _ _ _ fun _ => rfl
  have h₁ := (h₀.step (@Step.connect _ 0 [] RoomMember.idleMember _ _ rfl rfl)).step
    (@Step.connect _ 1 [] RoomMember.idleMember _ _ rfl rfl)
  have hone : (Message.roomInformation [fourLetters 0x61 0]).Fits smallRoom.information := by
    refine ⟨?_, of_decide_eq_true rfl, fun _ h => by cases h; decide⟩
    simp [Message.fields, memberFields, PacketStream.Short, text, u16, u32, u64, ip, smallRoom, create,
      fourLetters]
  have h₂ := h₁.step (@Step.room _ (.receive 0 (joinPacket 0x61) noChances) _ _ rfl
    (fun h => List.not_mem_nil h.2.1) (fits_fourLetters hone))
  have htwo : (Message.roomInformation [fourLetters 0x61 0, fourLetters 0x62 1]).Fits
      smallRoom.information := by
    refine ⟨?_, of_decide_eq_true rfl, fun _ h => by cases h; decide⟩
    simp [Message.fields, memberFields, PacketStream.Short, text, u16, u32, u64, ip, smallRoom, create,
      fourLetters]
  have h₃ := h₂.step (@Step.room _ (.receive 1 (joinPacket 0x62) noChances) _ _ rfl
    (fun h => absurd h.2.1 (by decide)) (fits_fourLetters htwo))
  have h₄ := (h₃.step (@Step.receive _ 1 _ _ rfl)).step (@Step.receive _ 1 _ _ rfl)
  have h₅ := h₄.step (@Step.receive _ 1 _ _ rfl)
  exact ⟨_, h₅, rfl, rfl, rfl, rfl⟩

theorem room_network_synced_joined : ∃ n, Reachable n ∧ (n.member 1).asserted = true ∧
    (n.member 1).memberInformation = [.ofMember (fourLetters 0x61 0), .ofMember (fourLetters 0x62 1)] := by
  obtain ⟨n, h, hmembers, -, hqueue, hc⟩ := reachable_pair
  obtain ⟨hasserted, hseen⟩ := room_network_synced n h
  have hmem : fourLetters 0x62 1 ∈ n.room.members := by
    rw [hmembers]; exact List.mem_cons_of_mem _ List.mem_cons_self
  have hlist := (hseen _ hmem hqueue hc).1
  rw [hmembers] at hlist
  exact ⟨n, h, hasserted 1, hlist⟩

end RoomNetwork

end Suyu.Network
