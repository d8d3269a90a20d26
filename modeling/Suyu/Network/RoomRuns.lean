import Mathlib
import Suyu.Network.Room

/-
  Runs of the server loop of a room: what stays true of the members.

  1. **Specification (`Consistent`, `Allowed`)** - no nickname, fake IP address or peer twice, at most
     `member_slots` members, every nickname of the pattern, every member behind a CONNECTED peer; and
     what a step may change.

  2. **The crux (`serverLoop_cases`)** - everything an event can do to a room, said once.
-/

namespace Suyu.Network

open Function (update update_idem update_apply update_self update_of_ne)

open Room

/-! ## Specification -/

/-- A member list that no client has broken.  A peer that has disconnected, or has been kicked or
    banned, is not connected, so that no member refers to it. -/
structure Consistent (r : Room) : Prop where
  nicknames : (r.members.map (·.nickname)).Nodup
  fakeIps : (r.members.map (·.fakeIp)).Nodup
  peers : (r.members.map (·.peer)).Nodup
  slots : r.members.length ≤ r.information.memberSlots
  pattern : ∀ m ∈ r.members, nicknameRegex m.nickname = true
  connected : ∀ m ∈ r.members, r.peerState m.peer = .connected

/-- A packet of a peer that `HasModPermission` accepts. -/
def Room.Event.byMod (r : Room) : Event → Prop
  | .receive peer _ _ => r.hasModPermission peer = true
  | _ => False

def Room.Event.peer : Event → Peer
  | .connect peer _ => peer
  | .receive peer _ _ => peer
  | .disconnect peer => peer

/-- What a step may change: new members are not banned, and only moderators change the ban lists or
    the memberships of other peers. -/
structure Allowed (r : Room) (e : Event) (r' : Room) : Prop where
  joined : ∀ m ∈ r'.members, m.nickname ∉ r.members.map (·.nickname) →
    r.usernameBanned m.userData.username = false ∧ r.ipBanned (r.address m.peer) = false
  banLists : (r'.usernameBanList ≠ r.usernameBanList ∨ r'.ipBanList ≠ r.ipBanList) → e.byMod r
  others : ∀ q, q ≠ e.peer →
    r'.members.filter (fun m => decide (m.peer = q)) ≠
      r.members.filter (fun m => decide (m.peer = q)) → e.byMod r

/-- The checks of `HandleJoinRequest`, without the search for a free address. -/
structure Admits (r : Room) (peer : Peer) (request : JoinRequest) (userData : UserData) : Prop where
  free : r.members.length < r.information.memberSlots
  pass : request.pass = r.information.password
  nickname : r.isValidNickname request.nickname = true
  fakeIp : request.preferredFakeIp ≠ noPreferredIP →
    r.isValidFakeIPAddress request.preferredFakeIp = true
  version : request.clientVersion = networkVersion
  username : r.usernameBanned userData.username = false
  ip : r.ipBanned (r.address peer) = false

/-- A join request that passes the checks, from a peer that has a member already. -/
def DoubleJoin (r : Room) : Event → Prop
  | .receive peer data chances => messageType data = .joinRequest ∧ peer ∈ r.members.map (·.peer) ∧
      Admits r peer (readJoinRequest data chances)
        (chances.loadUserData (readJoinRequest data chances).token)
  | _ => False

/-! ## What an event does -/

/-- A member that joins. -/
def newMember (request : JoinRequest) (fakeIp : IPv4Address) (userData : UserData) (peer : Peer) :
    Member := ⟨request.nickname, ⟨[], 0, []⟩, fakeIp, userData, peer⟩

variable {r r' : Room}

theorem handleJoinRequest_cases {peer : Peer} {data : Bytes} {chances : Chances} {sent : List Sent}
    (h : r.handleJoinRequest peer data chances = some (r', sent)) :
    (¬ Admits r peer (readJoinRequest data chances)
        (chances.loadUserData (readJoinRequest data chances).token) ∧ r' = r) ∨
    (Admits r peer (readJoinRequest data chances)
        (chances.loadUserData (readJoinRequest data chances).token) ∧
      ∃ fakeIp, r.isValidFakeIPAddress fakeIp = true ∧
        r' = { r with members := r.members ++ [newMember (readJoinRequest data chances) fakeIp
          (chances.loadUserData (readJoinRequest data chances).token) peer] }) := by
  unfold Room.handleJoinRequest at h
  dsimp only at h
  generalize readJoinRequest data chances = request at h ⊢
  -- A check that fails leaves the room as it is.
  have hstop : ∀ {sent' : List Sent}, some (r, sent') = some (r', sent) → r' = r := by
    intro sent' heq; exact (Prod.mk.inj (Option.some.inj heq)).1.symm
  split at h
  · rename_i hfull; exact Or.inl ⟨fun ha => absurd ha.free (by omega), hstop h⟩
  rename_i hfree
  split at h
  · rename_i hpass; exact Or.inl ⟨fun ha => hpass ha.pass, hstop h⟩
  rename_i hpass
  split at h
  · rename_i hnickname; exact Or.inl ⟨fun ha => hnickname ha.nickname, hstop h⟩
  rename_i hnickname
  split at h
  · rename_i hip; exact Or.inl ⟨fun ha => hip.2 (ha.fakeIp hip.1), hstop h⟩
  rename_i hip
  obtain ⟨fakeIp, hfakeIp, heq⟩ := Option.map_eq_some_iff.mp h
  -- The address is the one asked for, or one that the search has found free.
  have hvalid : r.isValidFakeIPAddress fakeIp = true := by
    split at hfakeIp
    · rename_i hpreferred
      obtain rfl := Option.some.inj hfakeIp
      by_contra hnot
      exact hip ⟨hpreferred, hnot⟩
    · exact List.find?_some hfakeIp
  split at heq
  · rename_i hversion; exact Or.inl ⟨fun ha => hversion ha.version, (Prod.mk.inj heq).1.symm⟩
  rename_i hversion
  split at heq
  · rename_i husername
    refine Or.inl ⟨fun ha => ?_, (Prod.mk.inj heq).1.symm⟩
    rw [ha.username] at husername; cases husername
  rename_i husername
  split at heq
  · rename_i hbanned
    refine Or.inl ⟨fun ha => ?_, (Prod.mk.inj heq).1.symm⟩
    rw [ha.ip] at hbanned; cases hbanned
  rename_i hbanned
  refine Or.inr ⟨⟨by omega, not_not.mp hpass, not_not.mp hnickname, ?_, not_not.mp hversion,
    Bool.eq_false_of_not_eq_true husername, Bool.eq_false_of_not_eq_true hbanned⟩, fakeIp, hvalid,
    (Prod.mk.inj heq).1.symm⟩
  intro hpreferred
  by_contra hnot
  exact hip ⟨hpreferred, hnot⟩

/-- Everything an event can do to a room. -/
inductive Effect (r : Room) : Event → Room → Prop
  | connect {peer : Peer} {address : Bytes} (hstate : r.peerState peer = .disconnected) :
      Effect r (.connect peer address) { r with
        peerState := update r.peerState peer .connected
        address := update r.address peer address }
  | nothing {peer : Peer} {data : Bytes} {chances : Chances}
      (hjoin : ¬ DoubleJoin r (.receive peer data chances)) : Effect r (.receive peer data chances) r
  | join {peer : Peer} {data : Bytes} {chances : Chances} {fakeIp : IPv4Address}
      (hstate : r.peerState peer = .connected) (htype : messageType data = .joinRequest)
      (hadmits : Admits r peer (readJoinRequest data chances)
        (chances.loadUserData (readJoinRequest data chances).token))
      (hfakeIp : r.isValidFakeIPAddress fakeIp = true) :
      Effect r (.receive peer data chances) { r with
        members := r.members ++ [newMember (readJoinRequest data chances) fakeIp
          (chances.loadUserData (readJoinRequest data chances).token) peer] }
  | gameInfo {peer : Peer} {data : Bytes} {chances : Chances} (gameInfo : GameInfo)
      (hjoin : ¬ DoubleJoin r (.receive peer data chances)) :
      Effect r (.receive peer data chances)
        { r with members := setGameInfo peer gameInfo r.members }
  | remove {peer : Peer} {data : Bytes} {chances : Chances} {target : Member} {nickname : Bytes}
      (usernameBanList ipBanList : List Bytes)
      (hjoin : ¬ DoubleJoin r (.receive peer data chances)) (hmod : r.hasModPermission peer = true)
      (hfind : r.members.find? (fun m => decide (m.nickname = nickname)) = some target) :
      Effect r (.receive peer data chances) { r.removeMember target with
        usernameBanList := usernameBanList, ipBanList := ipBanList }
  | unban {peer : Peer} {data : Bytes} {chances : Chances}
      (usernameBanList ipBanList : List Bytes)
      (hjoin : ¬ DoubleJoin r (.receive peer data chances)) (hmod : r.hasModPermission peer = true) :
      Effect r (.receive peer data chances)
        { r with usernameBanList := usernameBanList, ipBanList := ipBanList }
  | disconnect {peer : Peer} (hstate : r.peerState peer ≠ .disconnected) :
      Effect r (.disconnect peer) { r with
        members := r.members.eraseP fun m => decide (m.peer = peer)
        peerState := update r.peerState peer .disconnected }

theorem serverLoop_cases {e : Event} {sent : List Sent} (h : r.serverLoop e = some (r', sent)) :
    Effect r e r' := by
  cases e with
  | connect peer address =>
    unfold Room.serverLoop at h
    dsimp only at h
    split at h
    · rename_i hstate
      obtain ⟨rfl, -⟩ := Prod.mk.inj (Option.some.inj h)
      exact .connect hstate
    · cases h
  | disconnect peer =>
    unfold Room.serverLoop at h
    dsimp only at h
    split at h
    · cases h
    · rename_i hstate
      have hroom : ∀ s : Room, (s.handleClientDisconnection peer).1 = { s with
          members := s.members.eraseP fun m => decide (m.peer = peer)
          peerState := update s.peerState peer (s.peerState peer).disconnect } := by
        intro s
        unfold Room.handleClientDisconnection
        dsimp only
        split <;> rfl
      have heq := congrArg Prod.fst (Option.some.inj h)
      rw [hroom] at heq
      simp only [update_self, update_idem, PeerState.disconnect] at heq
      subst heq; exact .disconnect hstate
  | receive peer data chances =>
    unfold Room.serverLoop at h
    dsimp only at h
    split at h
    swap
    · cases h
    rename_i hstate
    unfold Room.handlePacket at h
    -- Only join requests can be a double join.
    have hother : messageType data ≠ .joinRequest → ¬ DoubleJoin r (.receive peer data chances) :=
      fun hne hjoin => hne hjoin.1
    split at h
    · rename_i htype
      rcases handleJoinRequest_cases h with ⟨hnot, rfl⟩ | ⟨hadmits, fakeIp, hvalid, rfl⟩
      · exact .nothing fun hjoin => hnot hjoin.2.2
      · exact .join hstate htype hadmits hvalid
    · rename_i htype
      obtain ⟨rfl, -⟩ := Prod.mk.inj (Option.some.inj h)
      exact .gameInfo _ (hother (by rw [htype]; decide))
    · rename_i htype
      obtain ⟨rfl, -⟩ := Prod.mk.inj (Option.some.inj h)
      exact .nothing (hother (by rw [htype]; decide))
    · rename_i htype
      obtain ⟨rfl, -⟩ := Prod.mk.inj (Option.some.inj h)
      exact .nothing (hother (by rw [htype]; decide))
    · rename_i htype
      have heq := Option.some.inj h
      unfold Room.handleChatPacket at heq
      dsimp only at heq
      split at heq <;> obtain ⟨rfl, -⟩ := Prod.mk.inj heq <;>
        exact .nothing (hother (by rw [htype]; decide))
    · rename_i htype
      have heq := Option.some.inj h
      unfold Room.handleModKickPacket at heq
      dsimp only at heq
      have hnot := hother (by rw [htype]; decide)
      split at heq
      · obtain ⟨rfl, -⟩ := Prod.mk.inj heq; exact .nothing hnot
      rename_i hmod
      split at heq
      · obtain ⟨rfl, -⟩ := Prod.mk.inj heq
        exact .nothing hnot
      · rename_i target hfind
        obtain ⟨rfl, -⟩ := Prod.mk.inj heq
        exact .remove r.usernameBanList r.ipBanList hnot (not_not.mp hmod) hfind
    · rename_i htype
      have heq := Option.some.inj h
      unfold Room.handleModBanPacket at heq
      dsimp only at heq
      have hnot := hother (by rw [htype]; decide)
      split at heq
      · obtain ⟨rfl, -⟩ := Prod.mk.inj heq; exact .nothing hnot
      rename_i hmod
      split at heq
      · obtain ⟨rfl, -⟩ := Prod.mk.inj heq
        exact .nothing hnot
      · rename_i target hfind
        obtain ⟨rfl, -⟩ := Prod.mk.inj heq
        exact .remove _ _ hnot (not_not.mp hmod) hfind
    · rename_i htype
      have heq := Option.some.inj h
      unfold Room.handleModUnbanPacket at heq
      dsimp only at heq
      have hnot := hother (by rw [htype]; decide)
      split at heq
      · obtain ⟨rfl, -⟩ := Prod.mk.inj heq; exact .nothing hnot
      rename_i hmod
      obtain ⟨rfl, -⟩ := Prod.mk.inj heq
      exact .unban _ _ hnot (not_not.mp hmod)
    · rename_i htype
      have heq := Option.some.inj h
      unfold Room.handleModGetBanListPacket at heq
      split at heq <;> obtain ⟨rfl, -⟩ := Prod.mk.inj heq <;>
        exact .nothing (hother (by rw [htype]; decide))
    · rename_i htype
      obtain ⟨rfl, -⟩ := Prod.mk.inj (Option.some.inj h)
      exact .nothing (hother (by rw [htype]; decide))

/-! ## Lists of members -/

theorem eraseP_of_find? {l : List Member} {p : Member → Bool} {a : Member}
    (h : l.find? p = some a) : ∃ l₁ l₂, l = l₁ ++ a :: l₂ ∧ l.eraseP p = l₁ ++ l₂ := by
  induction l with
  | nil => cases h
  | cons b l ih =>
    rw [List.find?_cons] at h
    cases hb : p b with
    | true =>
      rw [hb] at h
      obtain rfl := Option.some.inj h
      exact ⟨[], l, rfl, by rw [List.eraseP_cons_of_pos hb]; rfl⟩
    | false =>
      rw [hb] at h
      obtain ⟨l₁, l₂, rfl, herase⟩ := ih h
      refine ⟨b :: l₁, l₂, rfl, ?_⟩
      rw [List.eraseP_cons_of_neg (by rw [hb]; decide), herase]; rfl

theorem eraseP_of_find?_none {l : List Member} {p : Member → Bool} (h : l.find? p = none) :
    l.eraseP p = l :=
  List.eraseP_of_forall_not (List.find?_eq_none.mp h)

theorem map_setGameInfo {β : Type} (f : Member → β)
    (hf : ∀ m gameInfo, f { m with gameInfo := gameInfo } = f m) (peer : Peer) (gameInfo : GameInfo)
    (l : List Member) : (setGameInfo peer gameInfo l).map f = l.map f := by
  induction l with
  | nil => rfl
  | cons m l ih =>
    unfold setGameInfo
    split
    · rw [List.map_cons, List.map_cons, hf]
    · rw [List.map_cons, List.map_cons, ih]

theorem filter_setGameInfo {peer q : Peer} (hq : q ≠ peer) (gameInfo : GameInfo) (l : List Member) :
    (setGameInfo peer gameInfo l).filter (fun m => decide (m.peer = q)) =
      l.filter (fun m => decide (m.peer = q)) := by
  induction l with
  | nil => rfl
  | cons m l ih =>
    unfold setGameInfo
    split
    · rename_i hm
      have hne : m.peer ≠ q := fun h => hq (h.symm.trans hm)
      rw [List.filter_cons_of_neg (by simpa using hne), List.filter_cons_of_neg (by simpa using hne)]
    · rw [List.filter_cons, List.filter_cons, ih]

theorem nodup_map_concat {β : Type} (f : Member → β) (l : List Member) (m : Member) :
    ((l ++ [m]).map f).Nodup ↔ (l.map f).Nodup ∧ f m ∉ l.map f := by
  rw [List.map_append, List.map_singleton, ← List.concat_eq_append, List.nodup_concat]
  exact And.comm

/-! ## Steps -/

theorem Consistent.remove {r : Room} (h : Consistent r) {p : Member → Bool} {peer : Peer}
    (hgone : ∀ m ∈ r.members.eraseP p, m.peer ≠ peer) {usernameBanList ipBanList : List Bytes}
    (state : PeerState) :
    Consistent { r with
      members := r.members.eraseP p
      peerState := update r.peerState peer state
      usernameBanList := usernameBanList
      ipBanList := ipBanList } where
  nicknames := h.nicknames.sublist (List.eraseP_sublist.map _)
  fakeIps := h.fakeIps.sublist (List.eraseP_sublist.map _)
  peers := h.peers.sublist (List.eraseP_sublist.map _)
  slots := List.eraseP_sublist.length_le.trans h.slots
  pattern := fun m hm => h.pattern m (List.eraseP_subset hm)
  connected := by
    intro m hm
    dsimp only
    rw [update_of_ne (hgone m hm)]; exact h.connected m (List.eraseP_subset hm)

theorem Consistent.gone (h : Consistent r) {p : Member → Bool} {target : Member}
    (hfind : r.members.find? p = some target) : ∀ m ∈ r.members.eraseP p, m.peer ≠ target.peer := by
  obtain ⟨l₁, l₂, hmembers, herase⟩ := eraseP_of_find? hfind
  have hnodup := h.peers
  rw [hmembers, List.map_append, List.map_cons] at hnodup
  have hnot := (List.nodup_middle.mp hnodup)
  rw [herase]
  intro m hm heq
  refine (List.nodup_cons.mp hnot).1 ?_
  rw [← heq, ← List.map_append]
  exact List.mem_map_of_mem hm

/-- **One step** from a consistent room: the room is consistent after it exactly if the step is no
    double join. -/
theorem Consistent.step_iff {e : Event} (h : Consistent r) (he : Effect r e r') :
    Consistent r' ↔ ¬ DoubleJoin r e := by
  cases he with
  | connect hstate =>
    rename_i peer address
    refine ⟨fun _ hjoin => hjoin, fun _ => ⟨h.nicknames, h.fakeIps, h.peers, h.slots, h.pattern, ?_⟩⟩
    intro m hm
    show update r.peerState peer .connected m.peer = .connected
    rw [update_apply]
    split
    · rfl
    · exact h.connected m hm
  | nothing hjoin => exact ⟨fun _ => hjoin, fun _ => h⟩
  | join hstate htype hadmits hfakeIp =>
    rename_i peer data chances fakeIp
    constructor
    · intro hafter hjoin
      exact ((nodup_map_concat _ _ _).mp hafter.peers).2 hjoin.2.1
    · intro hnot
      have hnickname := hadmits.nickname
      unfold Room.isValidNickname at hnickname
      obtain ⟨hregex, hfree⟩ := Bool.and_eq_true_iff.mp hnickname
      refine ⟨(nodup_map_concat _ _ _).mpr ⟨h.nicknames, ?_⟩,
        (nodup_map_concat _ _ _).mpr ⟨h.fakeIps, ?_⟩,
        (nodup_map_concat _ _ _).mpr ⟨h.peers, fun hmem => hnot ⟨htype, hmem, hadmits⟩⟩, ?_, ?_, ?_⟩
      · intro hmem
        obtain ⟨m, hm, heq⟩ := List.mem_map.mp hmem
        exact of_decide_eq_true (List.all_eq_true.mp hfree m hm) heq
      · intro hmem
        obtain ⟨m, hm, heq⟩ := List.mem_map.mp hmem
        exact of_decide_eq_true (List.all_eq_true.mp hfakeIp m hm) heq
      · show (r.members ++ [_]).length ≤ r.information.memberSlots
        rw [List.length_append, List.length_singleton]
        exact hadmits.free
      · intro m hm
        rcases List.mem_append.mp hm with hm | hm
        · exact h.pattern m hm
        · rw [List.mem_singleton.mp hm]; exact hregex
      · intro m hm
        rcases List.mem_append.mp hm with hm | hm
        · exact h.connected m hm
        · rw [List.mem_singleton.mp hm]; exact hstate
  | gameInfo gameInfo hjoin =>
    rename_i peer data chances
    refine ⟨fun _ => hjoin, fun _ => ?_⟩
    have hmap := fun {β : Type} (f : Member → β)
      (hf : ∀ m gameInfo, f { m with gameInfo := gameInfo } = f m) =>
      map_setGameInfo f hf peer gameInfo r.members
    have hnickname := hmap (·.nickname) fun _ _ => rfl
    have hpeer := hmap (·.peer) fun _ _ => rfl
    refine ⟨?_, ?_, ?_, ?_, ?_, ?_⟩
    · exact hnickname.symm ▸ h.nicknames
    · exact (hmap (·.fakeIp) fun _ _ => rfl).symm ▸ h.fakeIps
    · exact hpeer.symm ▸ h.peers
    · have hlength := congrArg List.length hnickname
      rw [List.length_map, List.length_map] at hlength
      exact hlength.trans_le h.slots
    · intro m hm
      have hmem : m.nickname ∈ r.members.map (·.nickname) := hnickname ▸ List.mem_map_of_mem hm
      obtain ⟨m', hm', heq⟩ := List.mem_map.mp hmem
      rw [← heq]
      exact h.pattern m' hm'
    · intro m hm
      have hmem : m.peer ∈ r.members.map (·.peer) := hpeer ▸ List.mem_map_of_mem hm
      obtain ⟨m', hm', heq⟩ := List.mem_map.mp hmem
      show r.peerState m.peer = .connected
      rw [← heq]; exact h.connected m' hm'
  | remove usernameBanList ipBanList hjoin hmod hfind =>
    rename_i peer data chances target nickname
    refine ⟨fun _ => hjoin, fun _ => ?_⟩
    have hname : target.nickname = nickname := by simpa using List.find?_some hfind
    rw [← hname] at hfind; exact h.remove (h.gone hfind) _
  | unban usernameBanList ipBanList hjoin hmod =>
    exact ⟨fun _ => hjoin,
      fun _ => ⟨h.nicknames, h.fakeIps, h.peers, h.slots, h.pattern, h.connected⟩⟩
  | disconnect hstate =>
    rename_i peer
    refine ⟨fun _ hjoin => hjoin, fun _ => ?_⟩
    refine h.remove ?_ _
    cases hfind : r.members.find? fun m => decide (m.peer = peer) with
    | none =>
      intro m hm
      rw [eraseP_of_find?_none hfind] at hm
      exact of_decide_eq_false (Bool.eq_false_of_not_eq_true (List.find?_eq_none.mp hfind m hm))
    | some target =>
      have hpeer : target.peer = peer := by simpa using List.find?_some hfind
      rw [← hpeer] at hfind ⊢; exact h.gone hfind

/-- **Every step** is allowed, whatever the room. -/
theorem Effect.allowed {e : Event} (he : Effect r e r') : Allowed r e r' := by
  have hmember : ∀ {m : Member} {l : List Member}, m ∈ l → m.nickname ∉ l.map (·.nickname) → False :=
    fun hm hnot => hnot (List.mem_map_of_mem hm)
  cases he with
  | connect hstate =>
    exact ⟨fun m hm hnot => (hmember hm hnot).elim, fun h => (h.elim (· rfl) (· rfl)).elim,
      fun q _ hne => absurd rfl hne⟩
  | nothing hjoin =>
    exact ⟨fun m hm hnot => (hmember hm hnot).elim, fun h => (h.elim (· rfl) (· rfl)).elim,
      fun q _ hne => absurd rfl hne⟩
  | join hstate htype hadmits hfakeIp =>
    rename_i peer data chances fakeIp
    refine ⟨?_, fun h => (h.elim (· rfl) (· rfl)).elim, ?_⟩
    · intro m hm hnot
      rcases List.mem_append.mp hm with hm | hm
      · exact (hmember hm hnot).elim
      · rw [List.mem_singleton.mp hm]; exact ⟨hadmits.username, hadmits.ip⟩
    · intro q hq hne
      refine absurd ?_ hne
      show List.filter _ (r.members ++ [_]) = _
      rw [List.filter_append, List.filter_cons_of_neg]
      · exact List.append_nil _
      · show ¬ decide (peer = q) = true
        simpa using fun h : peer = q => hq h.symm
  | gameInfo gameInfo hjoin =>
    rename_i peer data chances
    refine ⟨?_, fun h => (h.elim (· rfl) (· rfl)).elim, ?_⟩
    · intro m hm hnot
      rw [← map_setGameInfo (·.nickname) (fun _ _ => rfl) peer gameInfo] at hnot
      exact (hmember hm hnot).elim
    · intro q hq hne; exact absurd (filter_setGameInfo hq gameInfo r.members) hne
  | remove usernameBanList ipBanList hjoin hmod hfind =>
    exact ⟨fun m hm hnot => (hmember (List.eraseP_subset hm) hnot).elim, fun _ => hmod,
      fun _ _ _ => hmod⟩
  | unban usernameBanList ipBanList hjoin hmod =>
    exact ⟨fun m hm hnot => (hmember hm hnot).elim, fun _ => hmod, fun _ _ _ => hmod⟩
  | disconnect hstate =>
    rename_i peer
    refine ⟨fun m hm hnot => (hmember (List.eraseP_subset hm) hnot).elim,
      fun h => (h.elim (· rfl) (· rfl)).elim, ?_⟩
    intro q hq hne
    refine absurd ?_ hne
    show List.filter _ (r.members.eraseP fun m => decide (m.peer = peer)) = _
    cases hfind : r.members.find? fun m => decide (m.peer = peer) with
    | none => rw [eraseP_of_find?_none hfind]
    | some target =>
      have hpeer : target.peer = peer := by simpa using List.find?_some hfind
      obtain ⟨l₁, l₂, hmembers, herase⟩ := eraseP_of_find? hfind
      rw [herase, hmembers, List.filter_append, List.filter_append, List.filter_cons_of_neg]
      simpa using fun h : target.peer = q => hq (h.symm.trans hpeer)

/-! ## Runs -/

/-- The rooms of the runs whose events are all of a kind. -/
inductive RoomRun (kind : Room → Event → Prop) : Room → Prop
  | create (information : RoomInformation) (usernameBanList ipBanList : List Bytes) :
      RoomRun kind (.create information usernameBanList ipBanList)
  | event {r r' : Room} {e : Event} {sent : List Sent} (h : RoomRun kind r) (hkind : kind r e)
      (hs : r.serverLoop e = some (r', sent)) : RoomRun kind r'

theorem consistent_create (information : RoomInformation) (usernameBanList ipBanList : List Bytes) :
    Consistent (.create information usernameBanList ipBanList) where
  nicknames := List.nodup_nil
  fakeIps := List.nodup_nil
  peers := List.nodup_nil
  slots := Nat.zero_le _
  pattern := List.forall_mem_nil _
  connected := List.forall_mem_nil _

theorem RoomRun.consistent (h : RoomRun (fun r e => ¬ DoubleJoin r e) r) : Consistent r := by
  induction h with
  | create information usernameBanList ipBanList => exact consistent_create _ _ _
  | event _ hkind hs ih => exact (ih.step_iff (serverLoop_cases hs)).mpr hkind

/-- **The members of a room**: runs without double joins keep the room consistent, every step of every
    run changes only what it may, and a consistent room is broken by the double joins alone. -/
theorem roomMembers_exact (r : Room) :
    (RoomRun (fun r e => ¬ DoubleJoin r e) r → Consistent r) ∧
    (∀ r' e sent, RoomRun (fun _ _ => True) r → r.serverLoop e = some (r', sent) →
      Allowed r e r' ∧ (Consistent r → (Consistent r' ↔ ¬ DoubleJoin r e))) := by
  refine ⟨fun h => h.consistent, ?_⟩
  intro r' e sent _ hs
  exact ⟨(serverLoop_cases hs).allowed, fun hr => hr.step_iff (serverLoop_cases hs)⟩

/-! ## A peer that joins twice -/

/-- A backend that knows no users. -/
def noChances : Chances := ⟨fun _ => ⟨[], [], [], false⟩, [], noPreferredIP, false⟩

/-- A join request with a nickname of four equal letters and an address of its own. -/
def joinPacket (letter : UInt8) : Bytes :=
  [1, 0, 0, 0, 4, letter, letter, letter, letter, 10, 0, 0, letter, 0, 0, 0, 1, 0, 0, 0, 0, 0, 0, 0, 0]

/-- A room with eight slots. -/
def smallRoom : Room := .create ⟨[], [], 8, 0, ⟨[], 0, []⟩, [], false, []⟩ [] []

/-- Peer 0 connects, joins as `aaaa` and as `bbbb`. -/
def joinTwice : List Event :=
  [.connect 0 [], .receive 0 (joinPacket 0x61) noChances, .receive 0 (joinPacket 0x62) noChances]

/-- The room after some events. -/
def runEvents (r : Room) (events : List Event) : Option Room :=
  events.foldlM (fun r e => (r.serverLoop e).map (·.1)) r

theorem runEvents_cons {e : Event} {events : List Event} (h : runEvents r (e :: events) = some r') :
    ∃ t sent, r.serverLoop e = some (t, sent) ∧ runEvents t events = some r' := by
  obtain ⟨t, ht, hrest⟩ := Option.bind_eq_some_iff.mp h
  obtain ⟨⟨t', sent⟩, hstep, rfl⟩ := Option.map_eq_some_iff.mp ht
  exact ⟨t', sent, hstep, hrest⟩

theorem runEvents_run {events : List Event} (h : RoomRun (fun _ _ => True) r)
    (hs : runEvents r events = some r') : RoomRun (fun _ _ => True) r' := by
  induction events generalizing r with
  | nil =>
    obtain rfl := Option.some.inj hs; exact h
  | cons e events ih =>
    obtain ⟨t, sent, hstep, hrest⟩ := runEvents_cons hs; exact ih (.event h trivial hstep) hrest

theorem joinTwice_members :
    (runEvents smallRoom joinTwice).map (fun r => r.members.map fun m => (m.nickname, m.peer)) =
      some [([0x61, 0x61, 0x61, 0x61], 0), ([0x62, 0x62, 0x62, 0x62], 0)] ∧
    (runEvents smallRoom (joinTwice ++ [.disconnect 0])).map
      (fun r => r.members.map fun m => (m.nickname, m.peer)) =
      some [([0x62, 0x62, 0x62, 0x62], 0)] := by
  decide +kernel

theorem not_consistent_of_members (h : r.members.map (fun m => (m.nickname, m.peer)) =
    [([0x61, 0x61, 0x61, 0x61], 0), ([0x62, 0x62, 0x62, 0x62], 0)]) : ¬ Consistent r := by
  intro hr
  have hboth : r.members.map (·.peer) = [0, 0] := by
    have hsnd := congrArg (List.map Prod.snd) h
    rw [List.map_map] at hsnd; exact hsnd
  have hpeers := hr.peers
  rw [hboth] at hpeers
  exact absurd hpeers (by decide)

theorem not_roomConsistent : ¬ ∀ r, RoomRun (fun _ _ => True) r → Consistent r := by
  intro h
  obtain ⟨r, hr, hmembers⟩ := Option.map_eq_some_iff.mp joinTwice_members.1
  exact not_consistent_of_members hmembers (h r (runEvents_run (.create _ _ _) hr))

/-- The second join request of the peer is a double join. -/
theorem roomMembers_exact_twice : ∃ r, RoomRun (fun r e => ¬ DoubleJoin r e) r ∧ Consistent r ∧
    DoubleJoin r (.receive 0 (joinPacket 0x62) noChances) := by
  obtain ⟨r₃, hr₃, hmembers⟩ := Option.map_eq_some_iff.mp joinTwice_members.1
  obtain ⟨r₁, sent₁, hstep₁, hrest₁⟩ := runEvents_cons hr₃
  obtain ⟨r₂, sent₂, hstep₂, hrest₂⟩ := runEvents_cons hrest₁
  obtain ⟨r₃', sent₃, hstep₃, hrest₃⟩ := runEvents_cons hrest₂
  obtain rfl := Option.some.inj hrest₃
  have hempty : r₁.members = [] :=
    (congrArg (fun s => s.1.members) (Option.some.inj hstep₁)).symm
  have hconnect : ¬ DoubleJoin smallRoom (.connect 0 []) := fun hjoin => hjoin
  have hrun₁ : RoomRun (fun r e => ¬ DoubleJoin r e) r₁ :=
    .event (.create _ _ _) hconnect hstep₁
  have hrun₂ : RoomRun (fun r e => ¬ DoubleJoin r e) r₂ := by
    refine .event hrun₁ ?_ hstep₂
    rintro ⟨-, hmem, -⟩
    rw [hempty] at hmem; cases hmem
  have hany : RoomRun (fun _ _ => True) r₂ :=
    .event (.event (.create _ _ _) trivial hstep₁) trivial hstep₂
  obtain ⟨hruns, hsteps⟩ := roomMembers_exact r₂
  refine ⟨r₂, hrun₂, hruns hrun₂, ?_⟩
  by_contra hnot
  exact not_consistent_of_members hmembers
    (((hsteps r₃' _ sent₃ hany hstep₃).2 (hruns hrun₂)).mpr hnot)

end Suyu.Network
