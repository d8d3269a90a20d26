import Suyu.Network.PacketStream
import Suyu.Network.RoomRuns

/-
  `Network::RoomMember`: the other end of the packets of a room.

  1. **Program** - what the room writes (`Message.encode`), and what `MemberLoop` does with a packet: the
     handler of its first byte reads it, changes the member, and calls back.

  2. **Specification (`RoomMember.told`, `RoomMember.hears`)** - what a message says, without any bytes; a
     refusal, a kick or a ban ends the loop, and what comes later is not heard.

  3. **The crux (`receive_encode`)** - for every message the bytes say the same.
-/

namespace Suyu.Network

open PacketStream (Reader Scalar Short Stored Ty Value At many read readLength readScalar readString store
  write writeAll)

/-! ## The packets of the room -/

abbrev ipv4 : Ty := .array (.scalar .u8) 4

def u8 (x : Nat) : Sigma Value := ⟨.scalar .u8, BitVec.ofNat 8 x⟩

def u16 (x : Nat) : Sigma Value := ⟨.scalar .u16, BitVec.ofNat 16 x⟩

def u32 (x : Nat) : Sigma Value := ⟨.scalar .u32, BitVec.ofNat 32 x⟩

def u64 (x : Nat) : Sigma Value := ⟨.scalar .u64, BitVec.ofNat 64 x⟩

def text (x : Bytes) : Sigma Value := ⟨.string, x⟩

def IPv4Address.octets (x : IPv4Address) : Value ipv4 :=
  ⟨[x.a.toBitVec, x.b.toBitVec, x.c.toBitVec, x.d.toBitVec], rfl⟩

def ip (x : IPv4Address) : Sigma Value := ⟨ipv4, x.octets⟩

def memberFields (m : Member) : List (Sigma Value) :=
  [text m.nickname, ip m.fakeIp, text m.gameInfo.name, u64 m.gameInfo.id, text m.gameInfo.version,
    text m.userData.username, text m.userData.displayName, text m.userData.avatarUrl]

/-- `RoomMessageTypes`. -/
def Message.id : Message → Nat
  | .joinSuccess _ => 2
  | .roomInformation _ => 3
  | .chat _ _ _ => 7
  | .nameCollision => 8
  | .ipCollision => 9
  | .versionMismatch => 10
  | .wrongPassword => 11
  | .roomIsFull => 13
  | .memberJoin _ _ | .memberLeave _ _ | .memberKicked _ _ | .memberBanned _ _ | .addressUnbanned _ => 14
  | .userKicked => 15
  | .userBanned => 16
  | .modBanListResponse _ _ => 21
  | .modPermissionDenied => 22
  | .modNoSuchUser => 23
  | .joinSuccessAsMod _ => 24
  | .forward _ => 0

/-- What is written for a message behind its type. -/
def Message.fields (information : RoomInformation) : Message → List (Sigma Value)
  | .versionMismatch => [u32 Room.networkVersion]
  | .joinSuccess fakeIp | .joinSuccessAsMod fakeIp => [ip fakeIp]
  | .modBanListResponse usernames ips => [⟨.vector .string, usernames⟩, ⟨.vector .string, ips⟩]
  | .memberJoin nickname username => [u8 1, text nickname, text username]
  | .memberLeave nickname username => [u8 2, text nickname, text username]
  | .memberKicked nickname username => [u8 3, text nickname, text username]
  | .memberBanned nickname username => [u8 4, text nickname, text username]
  | .addressUnbanned address => [u8 5, text address, text []]
  | .roomInformation members =>
      [text information.name, text information.description, u32 information.memberSlots, u16 information.port,
        text information.preferredGame.name, text information.hostUsername, u32 members.length] ++
        members.flatMap memberFields
  | .chat nickname username message => [text nickname, text username, text message]
  | _ => []

/-- The bytes of a message; a proxy or LDN packet is sent on as it came. -/
def Message.encode (information : RoomInformation) : Message → Bytes
  | .forward data => data
  | message => writeAll (u8 message.id :: message.fields information)

/-! ## The member -/

/-- `RoomMember::State`. -/
inductive MemberState where
  | uninitialized
  | idle
  | joining
  | joined
  | moderator
  deriving DecidableEq, Repr

/-- `RoomMember::Error`, as far as packets lead to it. -/
inductive MemberError where
  | lostConnection
  | hostKicked
  | nameCollision
  | ipCollision
  | wrongVersion
  | wrongPassword
  | roomIsFull
  | hostBanned
  | permissionDenied
  | noSuchUser
  deriving DecidableEq, Repr

structure MemberInformation where
  nickname : Bytes
  fakeIp : Stored ipv4
  gameName : Bytes
  gameId : Option (BitVec 64)
  gameVersion : Bytes
  username : Bytes
  displayName : Bytes
  avatarUrl : Bytes
  deriving DecidableEq

/-- The `room_information` of a member. -/
structure SeenRoom where
  name : Bytes
  description : Bytes
  memberSlots : Option (BitVec 32)
  port : Option (BitVec 16)
  preferredGame : Bytes
  hostUsername : Bytes
  deriving DecidableEq

structure SockAddrIn where
  family : Option (BitVec 8)
  ip : Stored ipv4
  portno : Option (BitVec 16)
  deriving DecidableEq

/-- What the callbacks are called with. -/
inductive Callback where
  | proxyPacket (localEndpoint remoteEndpoint : SockAddrIn) (protocol : Option (BitVec 8))
      (broadcast : Option Bool) (data : List (Option (BitVec 8)))
  | ldnPacket (type : Option (BitVec 8)) (localIp remoteIp : Stored ipv4) (broadcast : Option Bool)
      (data : List (Option (BitVec 8)))
  | chat (nickname username message : Bytes)
  | status (type : Option (BitVec 8)) (nickname username : Bytes)
  | banList (usernames ips : List Bytes)
  | roomInformation (room : SeenRoom)
  | state (state : MemberState)
  | error (error : MemberError)
  deriving DecidableEq

/-- `RoomMemberImpl`, what has been called back, and whether its assertion has held so far. -/
structure RoomMember where
  state : MemberState
  nickname : Bytes
  username : Bytes
  fakeIp : Stored ipv4
  roomInformation : SeenRoom
  memberInformation : List MemberInformation
  invoked : List Callback
  asserted : Bool

namespace RoomMember

def invoke (m : RoomMember) (data : Callback) : RoomMember := { m with invoked := m.invoked ++ [data] }

def setState (m : RoomMember) (state : MemberState) : RoomMember :=
  if m.state ≠ state then { m with state := state }.invoke (.state state) else m

def setError (m : RoomMember) (error : MemberError) : RoomMember := m.invoke (.error error)

def isConnected (m : RoomMember) : Bool :=
  decide (m.state = .joining) || decide (m.state = .joined) || decide (m.state = .moderator)

/-- A packet behind the message id. -/
def body (data : Bytes) : Reader := (Reader.start data).ignoreBytes 1

def readIp (r : Reader) : Stored ipv4 × Reader := read ipv4 [] r

/-- One round of the loop over `member_information`. -/
def readMember (r : Reader) : MemberInformation × Reader :=
  let (nickname, r) := readString r
  let (fakeIp, r) := readIp r
  let (gameName, r) := readString r
  let (gameId, r) := readScalar .u64 (some 0) r
  let (gameVersion, r) := readString r
  let (username, r) := readString r
  let (displayName, r) := readString r
  let (avatarUrl, r) := readString r
  (⟨nickname, fakeIp, gameName, gameId, gameVersion, username, displayName, avatarUrl⟩, r)

/-- The room and the members that a packet tells of; the last one with the own nickname has the own
    username. -/
def setRoom (m : RoomMember) (room : SeenRoom) (members : List MemberInformation) : RoomMember :=
  { m with
    roomInformation := room
    memberInformation := members
    username := members.foldl (fun username (member : MemberInformation) =>
      if member.nickname = m.nickname then member.username else username) m.username }.invoke
        (.roomInformation room)

def handleRoomInformationPacket (m : RoomMember) (data : Bytes) : RoomMember :=
  let (name, r) := readString (body data)
  let (description, r) := readString r
  let (memberSlots, r) := readScalar .u32 (some 0) r
  let (port, r) := readScalar .u16 (some 0) r
  let (preferredGame, r) := readString r
  let (hostUsername, r) := readString r
  let (numMembers, r) := readLength r
  m.setRoom ⟨name, description, memberSlots, port, preferredGame, hostUsername⟩ (many readMember numMembers r).1

def handleJoinPacket (m : RoomMember) (data : Bytes) : RoomMember :=
  { m with fakeIp := (readIp (body data)).1 }

def readEndpoint (r : Reader) : SockAddrIn × Reader :=
  let (family, r) := readScalar .u8 none r
  let (ip, r) := readIp r
  let (portno, r) := readScalar .u16 (some 0) r
  (⟨family, ip, portno⟩, r)

def handleProxyPackets (m : RoomMember) (data : Bytes) : RoomMember :=
  let (localEndpoint, r) := readEndpoint (body data)
  let (remoteEndpoint, r) := readEndpoint r
  let (protocol, r) := readScalar .u8 none r
  let (broadcast, r) := readScalar .bool (some false) r
  let (data, _) := read (.vector (.scalar .u8)) [] r
  m.invoke (.proxyPacket localEndpoint remoteEndpoint protocol broadcast data)

def handleLdnPackets (m : RoomMember) (data : Bytes) : RoomMember :=
  let (type, r) := readScalar .u8 none (body data)
  let (localIp, r) := readIp r
  let (remoteIp, r) := readIp r
  let (broadcast, r) := readScalar .bool (some false) r
  let (data, _) := read (.vector (.scalar .u8)) [] r
  m.invoke (.ldnPacket type localIp remoteIp broadcast data)

def handleChatPacket (m : RoomMember) (data : Bytes) : RoomMember :=
  let (nickname, r) := readString (body data)
  let (username, r) := readString r
  let (message, _) := readString r
  m.invoke (.chat nickname username message)

def handleStatusMessagePacket (m : RoomMember) (data : Bytes) : RoomMember :=
  let (type, r) := readScalar .u8 (some 0) (body data)
  let (nickname, r) := readString r
  let (username, _) := readString r
  m.invoke (.status type nickname username)

def handleModBanListResponsePacket (m : RoomMember) (data : Bytes) : RoomMember :=
  let (usernames, r) := read (.vector .string) [] (body data)
  let (ips, _) := read (.vector .string) [] r
  m.invoke (.banList usernames ips)

/-- There must be a member in the room when the room says that the join was successful. -/
def assertMembers (m : RoomMember) : RoomMember :=
  { m with asserted := m.asserted && decide (m.memberInformation ≠ []) }

/-- The packet of one `ENET_EVENT_TYPE_RECEIVE`, by its first byte.  An empty packet, whose first byte the
    source reads behind its end, changes nothing here. -/
def receive (m : RoomMember) (data : Bytes) : RoomMember :=
  match data.head? with
  | some 5 => m.handleProxyPackets data
  | some 6 => m.handleLdnPackets data
  | some 7 => m.handleChatPacket data
  | some 14 => m.handleStatusMessagePacket data
  | some 3 => m.handleRoomInformationPacket data
  | some 2 => (m.assertMembers.handleJoinPacket data).setState .joined
  | some 24 => (m.assertMembers.handleJoinPacket data).setState .moderator
  | some 21 => m.handleModBanListResponsePacket data
  | some 13 => (m.setState .idle).setError .roomIsFull
  | some 8 => (m.setState .idle).setError .nameCollision
  | some 9 => (m.setState .idle).setError .ipCollision
  | some 10 => (m.setState .idle).setError .wrongVersion
  | some 11 => (m.setState .idle).setError .wrongPassword
  | some 12 => (m.setState .idle).setError .lostConnection
  | some 15 => (m.setState .idle).setError .hostKicked
  | some 16 => (m.setState .idle).setError .hostBanned
  | some 22 => m.setError .permissionDenied
  | some 23 => m.setError .noSuchUser
  | _ => m

/-- `Disconnect`, behind the loop. -/
def disconnect (m : RoomMember) : RoomMember :=
  { m with
    memberInformation := []
    roomInformation := { m.roomInformation with memberSlots := some 0, name := [] } }

/-- One round of `MemberLoop`; a member that is not connected any more has left the loop. -/
def memberLoop (m : RoomMember) (data : Bytes) : RoomMember :=
  if m.isConnected then
    if (m.receive data).isConnected then m.receive data else (m.receive data).disconnect
  else m

end RoomMember

/-! ## What a message says -/

def MemberInformation.ofMember (m : Member) : MemberInformation :=
  ⟨m.nickname, store ipv4 m.fakeIp.octets, m.gameInfo.name, some (BitVec.ofNat 64 m.gameInfo.id),
    m.gameInfo.version, m.userData.username, m.userData.displayName, m.userData.avatarUrl⟩

def SeenRoom.ofRoom (information : RoomInformation) : SeenRoom :=
  ⟨information.name, information.description, some (BitVec.ofNat 32 information.memberSlots),
    some (BitVec.ofNat 16 information.port), information.preferredGame.name, information.hostUsername⟩

namespace RoomMember

/-- A member that is told it has joined. -/
def join (m : RoomMember) (fakeIp : IPv4Address) (state : MemberState) : RoomMember :=
  { m.assertMembers with fakeIp := store ipv4 fakeIp.octets }.setState state

/-- The member behind a message, whatever its bytes. -/
def told (information : RoomInformation) (m : RoomMember) : Message → RoomMember
  | .roomIsFull => (m.setState .idle).setError .roomIsFull
  | .wrongPassword => (m.setState .idle).setError .wrongPassword
  | .nameCollision => (m.setState .idle).setError .nameCollision
  | .ipCollision => (m.setState .idle).setError .ipCollision
  | .versionMismatch => (m.setState .idle).setError .wrongVersion
  | .joinSuccess fakeIp => m.join fakeIp .joined
  | .joinSuccessAsMod fakeIp => m.join fakeIp .moderator
  | .userKicked => (m.setState .idle).setError .hostKicked
  | .userBanned => (m.setState .idle).setError .hostBanned
  | .modPermissionDenied => m.setError .permissionDenied
  | .modNoSuchUser => m.setError .noSuchUser
  | .modBanListResponse usernames ips => m.invoke (.banList usernames ips)
  | .memberJoin nickname username => m.invoke (.status (some 1) nickname username)
  | .memberLeave nickname username => m.invoke (.status (some 2) nickname username)
  | .memberKicked nickname username => m.invoke (.status (some 3) nickname username)
  | .memberBanned nickname username => m.invoke (.status (some 4) nickname username)
  | .addressUnbanned address => m.invoke (.status (some 5) address [])
  | .roomInformation members =>
      m.setRoom (.ofRoom information) (members.map .ofMember)
  | .forward data => m.receive data
  | .chat nickname username message => m.invoke (.chat nickname username message)

/-- A message at a member in its loop: it ends the loop where it ends the connection, and behind the loop it
    is not heard. -/
def hears (information : RoomInformation) (m : RoomMember) (message : Message) : RoomMember :=
  if m.isConnected then
    let m := m.told information message
    if m.isConnected then m else m.disconnect
  else m

end RoomMember

/-! ## Bytes and fields -/

theorem writeAll_cons (v : Sigma Value) (vs : List (Sigma Value)) :
    writeAll (v :: vs) = write v.1 v.2 [] ++ writeAll vs :=
  PacketStream.foldl_append (fun data v => PacketStream.write_append v.1 v.2 data) vs (write v.1 v.2 [])

theorem writeAll_append (vs ws : List (Sigma Value)) : writeAll (vs ++ ws) = writeAll vs ++ writeAll ws := by
  induction vs with
  | nil => rfl
  | cons v vs ih => rw [List.cons_append, writeAll_cons, writeAll_cons, ih, List.append_assoc]

theorem writeAll_flatMap {α : Type} (f : α → List (Sigma Value)) (l : List α) :
    writeAll (l.flatMap f) = l.foldl (fun data x => data ++ writeAll (f x)) [] := by
  induction l with
  | nil => rfl
  | cons x l ih =>
    rw [List.flatMap_cons, writeAll_append, ih, List.foldl_cons, List.nil_append]
    exact (PacketStream.foldl_append (fun data x => by rw [List.nil_append]) l _).symm

/-- A reader in front of these fields. -/
structure Ahead (r : Reader) (vs : List (Sigma Value)) (rest : Bytes) : Prop where
  here : At r (writeAll vs ++ rest)
  short : ∀ v ∈ vs, Short v.1 v.2

/-- The next field is read, and the reader is in front of the others. -/
theorem Ahead.next {r : Reader} {v : Sigma Value} {vs : List (Sigma Value)} {rest : Bytes}
    (h : Ahead r (v :: vs) rest) (old : Stored v.1) :
    ∃ r', read v.1 old r = (store v.1 v.2, r') ∧ Ahead r' vs rest := by
  have hhere := h.here
  rw [writeAll_cons, List.append_assoc] at hhere
  obtain ⟨hvalue, hnext⟩ := PacketStream.read_back v.1 v.2 (h.short v List.mem_cons_self) old r _ hhere
  exact ⟨_, Prod.ext hvalue rfl, hnext, fun w hw => h.short w (List.mem_cons_of_mem v hw)⟩

theorem Ahead.text {r : Reader} {x : Bytes} {vs : List (Sigma Value)} {rest : Bytes}
    (h : Ahead r (Network.text x :: vs) rest) : ∃ r', readString r = (x, r') ∧ Ahead r' vs rest :=
  h.next []

theorem Ahead.ip {r : Reader} {x : IPv4Address} {vs : List (Sigma Value)} {rest : Bytes}
    (h : Ahead r (Network.ip x :: vs) rest) :
    ∃ r', RoomMember.readIp r = (store ipv4 x.octets, r') ∧ Ahead r' vs rest :=
  h.next []

theorem Ahead.scalar {r : Reader} {s : Scalar} {x : s.Value} {vs : List (Sigma Value)} {rest : Bytes}
    (h : Ahead r (⟨.scalar s, x⟩ :: vs) rest) (old : Option s.Value) :
    ∃ r', readScalar s old r = (some x, r') ∧ Ahead r' vs rest :=
  h.next old

/-- A message whose strings and lists have lengths of 32 bits. -/
structure Message.Fits (information : RoomInformation) (message : Message) : Prop where
  short : ∀ v ∈ message.fields information, Short v.1 v.2
  bounded : (message.encode information).length < 2 ^ 64
  members : ∀ members, message = .roomInformation members → members.length < 2 ^ 32

theorem Message.encode_eq {message : Message} (hid : message.id ≠ 0)
    (information : RoomInformation) :
    message.encode information = writeAll (u8 message.id :: message.fields information) := by
  unfold Message.encode
  split
  · exact absurd rfl hid
  · rfl

/-- Behind the message type. -/
theorem Message.Fits.ahead {information : RoomInformation} {message : Message}
    (h : message.Fits information) (hid : message.id ≠ 0) :
    Ahead (RoomMember.body (message.encode information)) (message.fields information) [] := by
  have hbounded := h.bounded
  rw [Message.encode_eq hid] at hbounded ⊢
  refine ⟨⟨rfl, ⟨write (u8 message.id).1 (u8 message.id).2 [], ?_, rfl⟩, hbounded⟩, h.short⟩
  rw [List.append_nil, ← writeAll_cons]
  rfl

theorem Message.head_encode {message : Message} (hid : message.id ≠ 0)
    (information : RoomInformation) :
    (message.encode information).head? = some (UInt8.ofNat (BitVec.ofNat 8 message.id).toNat) := by
  rw [Message.encode_eq hid, writeAll_cons]; rfl

namespace RoomMember

variable {information : RoomInformation} {m : RoomMember} {r : Reader} {rest : Bytes}

theorem readMember_spec {member : Member} (h : Ahead r (memberFields member) rest) :
    (readMember r).1 = .ofMember member ∧ At (readMember r).2 rest := by
  obtain ⟨r₁, h₁, a₁⟩ := h.text
  obtain ⟨r₂, h₂, a₂⟩ := a₁.ip
  obtain ⟨r₃, h₃, a₃⟩ := a₂.text
  obtain ⟨r₄, h₄, a₄⟩ := a₃.scalar (some 0)
  obtain ⟨r₅, h₅, a₅⟩ := a₄.text
  obtain ⟨r₆, h₆, a₆⟩ := a₅.text
  obtain ⟨r₇, h₇, a₇⟩ := a₆.text
  obtain ⟨r₈, h₈, a₈⟩ := a₇.text
  simp only [readMember, h₁, h₂, h₃, h₄, h₅, h₆, h₇, h₈]
  exact ⟨rfl, a₈.here⟩

theorem readMembers_spec {members : List Member} (h : Ahead r (members.flatMap memberFields) rest) :
    (many readMember members.length r).1 = members.map .ofMember := by
  have hhere := h.here
  rw [writeAll_flatMap] at hhere
  refine (At.many (fun data x => by rw [List.nil_append]) (fun x hx r' rest' hr => ?_) hhere).1
  rw [List.nil_append] at hr
  exact readMember_spec ⟨hr, fun v hv => h.short v (List.mem_flatMap.mpr ⟨x, hx, hv⟩)⟩

theorem handleRoomInformationPacket_spec {members : List Member} {data : Bytes}
    (hmembers : members.length < 2 ^ 32)
    (h : Ahead (body data) ((Message.roomInformation members).fields information) []) :
    m.handleRoomInformationPacket data = m.setRoom (.ofRoom information) (members.map .ofMember) := by
  obtain ⟨r₁, h₁, a₁⟩ := h.text
  obtain ⟨r₂, h₂, a₂⟩ := a₁.text
  obtain ⟨r₃, h₃, a₃⟩ := a₂.scalar (some 0)
  obtain ⟨r₄, h₄, a₄⟩ := a₃.scalar (some 0)
  obtain ⟨r₅, h₅, a₅⟩ := a₄.text
  obtain ⟨r₆, h₆, a₆⟩ := a₅.text
  obtain ⟨r₇, h₇, a₇⟩ := a₆.scalar (some 0)
  have hlength : readLength r₆ = (members.length, r₇) := by
    unfold readLength
    rw [h₇]
    exact Prod.ext ((BitVec.toNat_ofNat _ _).trans (Nat.mod_eq_of_lt hmembers)) rfl
  simp only [handleRoomInformationPacket, h₁, h₂, h₃, h₄, h₅, h₆, hlength, readMembers_spec a₇]
  rfl

theorem handleStatusMessagePacket_spec {type : Nat} {nickname username data : Bytes}
    (h : Ahead (body data) [u8 type, text nickname, text username] []) :
    m.handleStatusMessagePacket data = m.invoke (.status (some (BitVec.ofNat 8 type)) nickname username) := by
  obtain ⟨r₁, h₁, a₁⟩ := h.scalar (some 0)
  obtain ⟨r₂, h₂, a₂⟩ := a₁.text
  obtain ⟨r₃, h₃, a₃⟩ := a₂.text
  simp only [handleStatusMessagePacket, h₁, h₂, h₃]

theorem handleChatPacket_spec {nickname username message data : Bytes}
    (h : Ahead (body data) [text nickname, text username, text message] []) :
    m.handleChatPacket data = m.invoke (.chat nickname username message) := by
  obtain ⟨r₁, h₁, a₁⟩ := h.text
  obtain ⟨r₂, h₂, a₂⟩ := a₁.text
  obtain ⟨r₃, h₃, a₃⟩ := a₂.text
  simp only [handleChatPacket, h₁, h₂, h₃]

theorem handleModBanListResponsePacket_spec {usernames ips : List Bytes} {data : Bytes}
    (h : Ahead (body data) [⟨.vector .string, usernames⟩, ⟨.vector .string, ips⟩] []) :
    m.handleModBanListResponsePacket data = m.invoke (.banList usernames ips) := by
  obtain ⟨r₁, h₁, a₁⟩ := h.next []
  obtain ⟨r₂, h₂, a₂⟩ := a₁.next []
  simp only [handleModBanListResponsePacket, h₁, h₂, store, List.map_id']

theorem handleJoinPacket_spec {fakeIp : IPv4Address} {data : Bytes} (h : Ahead (body data) [ip fakeIp] []) :
    m.handleJoinPacket data = { m with fakeIp := store ipv4 fakeIp.octets } := by
  obtain ⟨r₁, h₁, a₁⟩ := h.ip; simp only [handleJoinPacket, h₁]

/-- **The bytes of a message say what the message says.** -/
theorem receive_encode {message : Message} (h : message.Fits information) :
    m.receive (message.encode information) = m.told information message := by
  by_cases hid : message.id = 0
  · cases message with
    | forward data => rfl
    | _ => exact absurd hid (Nat.succ_ne_zero _)
  have hhead := Message.head_encode hid information
  have hahead := h.ahead hid
  unfold receive
  rw [hhead]
  cases message with
  | forward data => exact absurd rfl hid
  | roomInformation members => exact handleRoomInformationPacket_spec (h.members _ rfl) hahead
  | joinSuccess fakeIp => exact congrArg (setState · .joined) (handleJoinPacket_spec hahead)
  | joinSuccessAsMod fakeIp => exact congrArg (setState · .moderator) (handleJoinPacket_spec hahead)
  | modBanListResponse usernames ips => exact handleModBanListResponsePacket_spec hahead
  | chat nickname username message => exact handleChatPacket_spec hahead
  | memberJoin | memberLeave | memberKicked | memberBanned | addressUnbanned =>
    exact handleStatusMessagePacket_spec hahead
  | _ => rfl

theorem memberLoop_encode {message : Message} (h : message.Fits information) :
    m.memberLoop (message.encode information) = m.hears information message := by
  unfold memberLoop hears
  rw [receive_encode h]

/-- **EVERY RUN OF MESSAGES** reaches a member as it was sent, up to the message that ends its loop. -/
theorem messages_arrive (sent : List (RoomInformation × Message))
    (h : ∀ s ∈ sent, s.2.Fits s.1) (m : RoomMember) :
    (sent.map fun s => s.2.encode s.1).foldl memberLoop m =
      sent.foldl (fun m s => m.hears s.1 s.2) m := by
  induction sent generalizing m with
  | nil => rfl
  | cons s sent ih =>
    rw [List.map_cons, List.foldl_cons, List.foldl_cons, memberLoop_encode (h s List.mem_cons_self)]
    exact ih (fun s' hs => h s' (List.mem_cons_of_mem s hs)) _

def idleMember : RoomMember :=
  ⟨.idle, [], [], store ipv4 noPreferredIP.octets, .ofRoom smallRoom.information, [], [], true⟩

/-- A chat message is heard, a kick ends the loop, and a second chat message is not heard any more. -/
theorem messages_arrive_kicked :
    [(Message.chat [0x61] [] [0x62]).encode smallRoom.information,
      Message.userKicked.encode smallRoom.information,
      (Message.chat [0x61] [] [0x63]).encode smallRoom.information].foldl memberLoop
        { idleMember with state := .joined } =
      { idleMember with
        roomInformation := { idleMember.roomInformation with memberSlots := some 0, name := [] }
        invoked := [.chat [0x61] [] [0x62], .state .idle, .error .hostKicked] } := by
  refine (messages_arrive [(smallRoom.information, .chat [0x61] [] [0x62]),
    (smallRoom.information, .userKicked),
    (smallRoom.information, .chat [0x61] [] [0x63])] ?_ { idleMember with state := .joined }).trans rfl
  refine List.forall_mem_cons.mpr ⟨?_, List.forall_mem_cons.mpr ⟨?_, List.forall_mem_singleton.mpr ?_⟩⟩ <;>
    refine ⟨?_, of_decide_eq_true rfl, fun _ h => by cases h⟩ <;>
    simp [Message.fields, Short, text]

end RoomMember

end Suyu.Network
