import Mathlib

/-
  `Network::Room`: the server of a multiplayer room.

  1. **Data** - the members, each with a nickname, a fake IP address and the peer it is connected
     through; two ban lists; and what the room sees of its peers through ENet.

  2. **Program** - `serverLoop` handles one event: a packet goes to the handler of its first byte, a
     disconnection removes the member of the peer.  Packets are BYTES, read by `Packet`.

  3. **What is left open (`Chances`)** - the answer of the verification backend, the random octets, and
     the variables that a short packet leaves uninitialized.

  ENet is not part of this: peers are numbers, a peer receives packets while it is connected, and
  `enet_peer_disconnect` stops that until the peer connects again.
-/

namespace Suyu.Network

/-! ## Packets -/

abbrev Bytes := List UInt8

structure IPv4Address where
  a : UInt8
  b : UInt8
  c : UInt8
  d : UInt8
  deriving DecidableEq, Repr

def noPreferredIP : IPv4Address := ⟨0xFF, 0xFF, 0xFF, 0xFF⟩

/-- `Network::Packet` as it is read. -/
structure Packet where
  data : Bytes
  readPos : Nat
  isValid : Bool
  deriving DecidableEq, Repr

namespace Packet

def append (data : Bytes) : Packet := ⟨data, 0, true⟩

def ignoreBytes (p : Packet) (length : Nat) : Packet := { p with readPos := p.readPos + length }

def checkSize (p : Packet) (size : Nat) : Packet :=
  { p with isValid := p.isValid && decide (p.readPos + size ≤ p.data.length) }

/-- `Read(void*, size_t)`: no bytes if the packet is too short, now or before. -/
def readBytes (p : Packet) (size : Nat) : Option Bytes × Packet :=
  let p := p.checkSize size
  if p.isValid then (some ((p.data.drop p.readPos).take size), p.ignoreBytes size) else (none, p)

/-- `Read(u8&)`: the variable keeps its value at the end of the packet. -/
def readU8 (p : Packet) (old : UInt8) : UInt8 × Packet :=
  let (bytes, p) := p.readBytes 1
  ((bytes.bind (·[0]?)).getD old, p)

/-- `Read(bool&)`. -/
def readBool (p : Packet) (old : Bool) : Bool × Packet :=
  let (value, p) := p.readU8 0
  (if p.isValid then decide (value ≠ 0) else old, p)

/-- A big-endian number. -/
def fromNetwork (bytes : Bytes) : Nat := bytes.foldl (fun n byte => n * 256 + byte.toNat) 0

def readU32 (p : Packet) : Nat × Packet :=
  let (bytes, p) := p.readBytes 4
  ((bytes.map fromNetwork).getD 0, p)

def readU64 (p : Packet) : Nat × Packet :=
  let (bytes, p) := p.readBytes 8
  ((bytes.map fromNetwork).getD 0, p)

def readString (p : Packet) : Bytes × Packet :=
  let (length, p) := p.readU32
  if 0 < length then
    let (bytes, p) := p.readBytes length
    (bytes.getD [], p)
  else ([], p)

def readIPv4Address (p : Packet) (old : IPv4Address) : IPv4Address × Packet :=
  let (a, p) := p.readU8 old.a
  let (b, p) := p.readU8 old.b
  let (c, p) := p.readU8 old.c
  let (d, p) := p.readU8 old.d
  (⟨a, b, c, d⟩, p)

end Packet

/-! ## The room -/

/-- An `ENetPeer*`. -/
abbrev Peer := Nat

inductive PeerState where
  | disconnected
  | connected
  | disconnecting
  deriving DecidableEq, Repr

/-- `enet_peer_disconnect`. -/
def PeerState.disconnect : PeerState → PeerState
  | .connected => .disconnecting
  | state => state

structure UserData where
  username : Bytes
  displayName : Bytes
  avatarUrl : Bytes
  moderator : Bool
  deriving DecidableEq, Repr

structure GameInfo where
  name : Bytes
  id : Nat
  version : Bytes
  deriving DecidableEq, Repr

structure Member where
  nickname : Bytes
  gameInfo : GameInfo
  fakeIp : IPv4Address
  userData : UserData
  peer : Peer
  deriving DecidableEq, Repr

/-- What `Room::Create` sets. -/
structure RoomInformation where
  name : Bytes
  description : Bytes
  memberSlots : Nat
  port : Nat
  preferredGame : GameInfo
  hostUsername : Bytes
  enableSuyuMods : Bool
  password : Bytes

/-- The members, the ban lists, and the peers with the text of their addresses. -/
structure Room where
  information : RoomInformation
  members : List Member
  usernameBanList : List Bytes
  ipBanList : List Bytes
  peerState : Peer → PeerState
  address : Peer → Bytes

/-- What a handler does not decide itself. -/
structure Chances where
  loadUserData : Bytes → UserData
  draws : List (Fin 0xFE × Fin 0xFE)
  uninitializedIp : IPv4Address
  uninitializedBool : Bool

inductive Message where
  | roomIsFull
  | wrongPassword
  | nameCollision
  | ipCollision
  | versionMismatch
  | joinSuccess (fakeIp : IPv4Address)
  | joinSuccessAsMod (fakeIp : IPv4Address)
  | userKicked
  | userBanned
  | modPermissionDenied
  | modNoSuchUser
  | modBanListResponse (usernames ips : List Bytes)
  | memberJoin (nickname username : Bytes)
  | memberLeave (nickname username : Bytes)
  | memberKicked (nickname username : Bytes)
  | memberBanned (nickname username : Bytes)
  | addressUnbanned (address : Bytes)
  | roomInformation (members : List Member)
  | forward (data : Bytes)
  | chat (nickname username message : Bytes)
  deriving DecidableEq, Repr

/-- A message to some peers, or with `none` to all that are connected. -/
structure Sent where
  peers : Option (List Peer)
  message : Message
  deriving DecidableEq, Repr

namespace Room

/-! ## Checks -/

def networkVersion : Nat := 1

def maxMessageSize : Nat := 500

/-- A character of the pattern `[ a-zA-Z0-9._-]`. -/
def isNicknameChar (c : UInt8) : Bool :=
  decide (c = 0x20) || decide (0x61 ≤ c ∧ c ≤ 0x7A) || decide (0x41 ≤ c ∧ c ≤ 0x5A) ||
    decide (0x30 ≤ c ∧ c ≤ 0x39) || decide (c = 0x2E) || decide (c = 0x5F) || decide (c = 0x2D)

/-- The pattern `^[ a-zA-Z0-9._-]{4,20}$`. -/
def nicknameRegex (nickname : Bytes) : Bool :=
  decide (4 ≤ nickname.length) && decide (nickname.length ≤ 20) && nickname.all isNicknameChar

def isValidNickname (r : Room) (nickname : Bytes) : Bool :=
  nicknameRegex nickname && r.members.all fun m => decide (m.nickname ≠ nickname)

def isValidFakeIPAddress (r : Room) (address : IPv4Address) : Bool :=
  r.members.all fun m => decide (m.fakeIp ≠ address)

/-- The member that is connected through a peer: the first one. -/
def memberOf (r : Room) (peer : Peer) : Option Member :=
  r.members.find? fun m => decide (m.peer = peer)

def hasModPermission (r : Room) (client : Peer) : Bool :=
  match r.memberOf client with
  | none => false
  | some member =>
      (r.information.enableSuyuMods && member.userData.moderator) ||
        (decide (r.information.hostUsername ≠ []) &&
          decide (member.userData.username = r.information.hostUsername))

/-- `GenerateFakeIPAddress`: the first of the draws that is free. -/
def generateFakeIPAddress (r : Room) (draws : List (Fin 0xFE × Fin 0xFE)) : Option IPv4Address :=
  (draws.map fun draw =>
    (⟨192, 168, UInt8.ofNat (draw.1 + 1), UInt8.ofNat (draw.2 + 1)⟩ : IPv4Address)).find?
      r.isValidFakeIPAddress

/-! ## Sending -/

/-- `SendStatusMessage` and the like: to every member. -/
def toMembers (r : Room) (message : Message) : Sent := ⟨some (r.members.map (·.peer)), message⟩

def broadcastRoomInformation (r : Room) : Sent := ⟨none, .roomInformation r.members⟩

def toPeer (peer : Peer) (message : Message) : Sent := ⟨some [peer], message⟩

/-! ## Joining -/

/-- The fields of a join request. -/
structure JoinRequest where
  nickname : Bytes
  preferredFakeIp : IPv4Address
  clientVersion : Nat
  pass : Bytes
  token : Bytes
  deriving DecidableEq, Repr

def readJoinRequest (data : Bytes) (chances : Chances) : JoinRequest :=
  let packet := (Packet.append data).ignoreBytes 1
  let (nickname, packet) := packet.readString
  let (preferredFakeIp, packet) := packet.readIPv4Address chances.uninitializedIp
  let (clientVersion, packet) := packet.readU32
  let (pass, packet) := packet.readString
  let (token, _) := packet.readString
  ⟨nickname, preferredFakeIp, clientVersion, pass, token⟩

/-- The username of a member is on the ban list; a member without one is not. -/
def usernameBanned (r : Room) (username : Bytes) : Bool :=
  decide (username ≠ []) && decide (username ∈ r.usernameBanList)

def ipBanned (r : Room) (ip : Bytes) : Bool := decide (ip ∈ r.ipBanList)

/-- `HandleJoinRequest`; `none` while `GenerateFakeIPAddress` has not found an address. -/
def handleJoinRequest (r : Room) (peer : Peer) (data : Bytes) (chances : Chances) :
    Option (Room × List Sent) :=
  if r.members.length ≥ r.information.memberSlots then some (r, [toPeer peer .roomIsFull])
  else
    let request := readJoinRequest data chances
    if request.pass ≠ r.information.password then some (r, [toPeer peer .wrongPassword])
    else if ¬ r.isValidNickname request.nickname then some (r, [toPeer peer .nameCollision])
    else if request.preferredFakeIp ≠ noPreferredIP ∧
        ¬ r.isValidFakeIPAddress request.preferredFakeIp then
      some (r, [toPeer peer .ipCollision])
    else
      let preferredFakeIp := if request.preferredFakeIp ≠ noPreferredIP then
        some request.preferredFakeIp else r.generateFakeIPAddress chances.draws
      preferredFakeIp.map fun fakeIp =>
        if request.clientVersion ≠ networkVersion then (r, [toPeer peer .versionMismatch])
        else
          let userData := chances.loadUserData request.token
          if r.usernameBanned userData.username then (r, [toPeer peer .userBanned])
          else if r.ipBanned (r.address peer) then (r, [toPeer peer .userBanned])
          else
            let member : Member := ⟨request.nickname, ⟨[], 0, []⟩, fakeIp, userData, peer⟩
            let r' := { r with members := r.members ++ [member] }
            (r', [r.toMembers (.memberJoin member.nickname userData.username),
              r'.broadcastRoomInformation,
              toPeer peer (if r'.hasModPermission peer then .joinSuccessAsMod fakeIp
                else .joinSuccess fakeIp)])

/-! ## Moderation -/

/-- The text argument of a moderation packet. -/
def readArgument (data : Bytes) : Bytes := ((Packet.append data).ignoreBytes 1).readString.1

/-- `members.erase` of the first member with a nickname, and `enet_peer_disconnect`. -/
def removeMember (r : Room) (target : Member) : Room :=
  { r with
    members := r.members.eraseP fun m => decide (m.nickname = target.nickname)
    peerState := Function.update r.peerState target.peer (r.peerState target.peer).disconnect }

def handleModKickPacket (r : Room) (peer : Peer) (data : Bytes) : Room × List Sent :=
  if ¬ r.hasModPermission peer then (r, [toPeer peer .modPermissionDenied])
  else
    let nickname := readArgument data
    match r.members.find? fun m => decide (m.nickname = nickname) with
    | none => (r, [toPeer peer .modNoSuchUser])
    | some target =>
        let r' := r.removeMember target
        (r', [toPeer target.peer .userKicked,
          r'.toMembers (.memberKicked nickname target.userData.username),
          r'.broadcastRoomInformation])

/-- A ban list with an entry, which is not put there twice. -/
def addBan (list : List Bytes) (entry : Bytes) : List Bytes :=
  if entry ∈ list then list else list ++ [entry]

def handleModBanPacket (r : Room) (peer : Peer) (data : Bytes) : Room × List Sent :=
  if ¬ r.hasModPermission peer then (r, [toPeer peer .modPermissionDenied])
  else
    let nickname := readArgument data
    match r.members.find? fun m => decide (m.nickname = nickname) with
    | none => (r, [toPeer peer .modNoSuchUser])
    | some target =>
        let username := target.userData.username
        let r' := { r.removeMember target with
          usernameBanList := if username ≠ [] then addBan r.usernameBanList username
            else r.usernameBanList
          ipBanList := addBan r.ipBanList (r.address target.peer) }
        (r', [toPeer target.peer .userBanned,
          r'.toMembers (.memberBanned target.nickname username),
          r'.broadcastRoomInformation])

def handleModUnbanPacket (r : Room) (peer : Peer) (data : Bytes) : Room × List Sent :=
  if ¬ r.hasModPermission peer then (r, [toPeer peer .modPermissionDenied])
  else
    let address := readArgument data
    let unbanned := decide (address ∈ r.usernameBanList) || decide (address ∈ r.ipBanList)
    ({ r with
      usernameBanList := r.usernameBanList.erase address
      ipBanList := r.ipBanList.erase address },
      [if unbanned then r.toMembers (.addressUnbanned address) else toPeer peer .modNoSuchUser])

def handleModGetBanListPacket (r : Room) (peer : Peer) : Room × List Sent :=
  if ¬ r.hasModPermission peer then (r, [toPeer peer .modPermissionDenied])
  else (r, [toPeer peer (.modBanListResponse r.usernameBanList r.ipBanList)])

/-! ## Other packets -/

/-- The receivers of a packet: all members except the sender, or the first with an address. -/
def receivers (r : Room) (peer : Peer) (remoteIp : IPv4Address) (broadcast : Bool) : List Peer :=
  if broadcast then (r.members.filter fun m => decide (m.peer ≠ peer)).map (·.peer)
  else ((r.members.find? fun m => decide (m.fakeIp = remoteIp)).map (·.peer)).toList

def handleProxyPacket (r : Room) (peer : Peer) (data : Bytes) (chances : Chances) :
    Room × List Sent :=
  let packet := (Packet.append data).ignoreBytes (1 + 1 + 4 + 2 + 1)
  let (remoteIp, packet) := packet.readIPv4Address chances.uninitializedIp
  let (broadcast, _) := ((packet.ignoreBytes 2).ignoreBytes 1).readBool chances.uninitializedBool
  (r, [⟨some (r.receivers peer remoteIp broadcast), .forward data⟩])

def handleLdnPacket (r : Room) (peer : Peer) (data : Bytes) (chances : Chances) :
    Room × List Sent :=
  let packet := (Packet.append data).ignoreBytes (1 + 1 + 4)
  let (remoteIp, packet) := packet.readIPv4Address chances.uninitializedIp
  let (broadcast, _) := packet.readBool chances.uninitializedBool
  (r, [⟨some (r.receivers peer remoteIp broadcast), .forward data⟩])

def handleChatPacket (r : Room) (peer : Peer) (data : Bytes) : Room × List Sent :=
  let message := readArgument data
  match r.memberOf peer with
  | none => (r, [])
  | some sender =>
      let others := (r.members.filter fun m => decide (m.peer ≠ peer)).map (·.peer)
      (r, [⟨some others,
        .chat sender.nickname sender.userData.username (message.take maxMessageSize)⟩])

def readGameInfo (data : Bytes) : GameInfo :=
  let packet := (Packet.append data).ignoreBytes 1
  let (name, packet) := packet.readString
  let (id, packet) := packet.readU64
  let (version, _) := packet.readString
  ⟨name, id, version⟩

/-- The first member of a peer gets the game. -/
def setGameInfo (peer : Peer) (gameInfo : GameInfo) : List Member → List Member
  | [] => []
  | m :: members =>
      if m.peer = peer then { m with gameInfo } :: members
      else m :: setGameInfo peer gameInfo members

def handleGameInfoPacket (r : Room) (peer : Peer) (data : Bytes) : Room × List Sent :=
  let r := { r with members := setGameInfo peer (readGameInfo data) r.members }
  (r, [r.broadcastRoomInformation])

/-- `HandleClientDisconnection`: the first member of the peer leaves. -/
def handleClientDisconnection (r : Room) (client : Peer) : Room × List Sent :=
  let r' := { r with
    members := r.members.eraseP fun m => decide (m.peer = client)
    peerState := Function.update r.peerState client (r.peerState client).disconnect }
  match r.memberOf client with
  | none => (r', [r'.broadcastRoomInformation])
  | some member =>
      (r', [r'.toMembers (.memberLeave member.nickname member.userData.username),
        r'.broadcastRoomInformation])

/-! ## The server loop -/

inductive RoomMessageTypes where
  | joinRequest
  | setGameInfo
  | proxyPacket
  | ldnPacket
  | chatMessage
  | modKick
  | modBan
  | modUnban
  | modGetBanList
  | other
  deriving DecidableEq, Repr

/-- The first byte of a packet; the loop ignores the types that only the server sends.  An EMPTY packet,
    whose first byte the source reads behind its data, is ignored too. -/
def messageType (data : Bytes) : RoomMessageTypes :=
  match data.head? with
  | some 1 => .joinRequest
  | some 4 => .setGameInfo
  | some 5 => .proxyPacket
  | some 6 => .ldnPacket
  | some 7 => .chatMessage
  | some 17 => .modKick
  | some 18 => .modBan
  | some 19 => .modUnban
  | some 20 => .modGetBanList
  | _ => .other

inductive Event where
  | connect (peer : Peer) (address : Bytes)
  | receive (peer : Peer) (data : Bytes) (chances : Chances)
  | disconnect (peer : Peer)

def handlePacket (r : Room) (peer : Peer) (data : Bytes) (chances : Chances) :
    Option (Room × List Sent) :=
  match messageType data with
  | .joinRequest => r.handleJoinRequest peer data chances
  | .setGameInfo => some (r.handleGameInfoPacket peer data)
  | .proxyPacket => some (r.handleProxyPacket peer data chances)
  | .ldnPacket => some (r.handleLdnPacket peer data chances)
  | .chatMessage => some (r.handleChatPacket peer data)
  | .modKick => some (r.handleModKickPacket peer data)
  | .modBan => some (r.handleModBanPacket peer data)
  | .modUnban => some (r.handleModUnbanPacket peer data)
  | .modGetBanList => some (r.handleModGetBanListPacket peer)
  | .other => some (r, [])

/-- One event of `ServerLoop`: `none` if ENet does not report it in this state, or if the handler has
    not returned. -/
def serverLoop (r : Room) : Event → Option (Room × List Sent)
  | .connect peer address =>
      if r.peerState peer = .disconnected then
        some ({ r with
          peerState := Function.update r.peerState peer .connected
          address := Function.update r.address peer address }, [])
      else none
  | .receive peer data chances =>
      if r.peerState peer = .connected then r.handlePacket peer data chances else none
  | .disconnect peer =>
      if r.peerState peer = .disconnected then none
      else
        some ({ r with
          peerState := Function.update r.peerState peer .disconnected }.handleClientDisconnection peer)

def create (information : RoomInformation) (usernameBanList ipBanList : List Bytes) : Room where
  information := information
  members := []
  usernameBanList := usernameBanList
  ipBanList := ipBanList
  peerState := fun _ => .disconnected
  address := fun _ => []

end Room

end Suyu.Network
