import Mathlib.Data.List.AList
import SfRs.Lib.RefCell
/-!
# The peer manager

The peers of a client by their identifiers, and the identifiers it has heard of.  A peer
is a reference to what one call of `Peer::new` allocated.
-/

namespace SfRs.Wasm

open SfRs.Lib

/-- `Peer(Rc<PeerInner>)`: the identifier, and the allocation the reference points to. -/
structure PeerRef (PeerID : Type) where
  id : PeerID
  inner : Nat
  deriving DecidableEq

/-- The counter has 64 bits, and a map of that many entries does not fit in memory. -/
structure PeerManager (PeerID : Type) where
  peers : AList fun _ : PeerID => PeerRef PeerID
  knownPeerIds : List PeerID
  peerCount : Nat

namespace PeerManager

variable {PeerID : Type}

def new : PeerManager PeerID := ⟨∅, [], 0⟩

variable [DecidableEq PeerID]

def addKnownPeerId (self : PeerManager PeerID) (id : PeerID) : PeerManager PeerID :=
  if id ∈ self.knownPeerIds then self
  else { self with knownPeerIds := self.knownPeerIds ++ [id] }

def addPeer (self : PeerManager PeerID) (peer : PeerRef PeerID) : PeerManager PeerID :=
  let self := { self with peers := self.peers.insert peer.id peer }
  let self := self.addKnownPeerId peer.id
  { self with peerCount := self.peerCount + 1 }

def getPeer (self : PeerManager PeerID) (id : PeerID) : Option (PeerRef PeerID) :=
  self.peers.lookup id

variable {pm : PeerManager PeerID} {id : PeerID} {peer : PeerRef PeerID}

theorem peers_addKnownPeerId (pm : PeerManager PeerID) (id : PeerID) :
    (pm.addKnownPeerId id).peers = pm.peers := by
  unfold addKnownPeerId
  split <;> rfl

theorem peerCount_addKnownPeerId (pm : PeerManager PeerID) (id : PeerID) :
    (pm.addKnownPeerId id).peerCount = pm.peerCount := by
  unfold addKnownPeerId
  split <;> rfl

theorem mem_knownPeerIds_addKnownPeerId (pm : PeerManager PeerID) (id : PeerID) :
    id ∈ (pm.addKnownPeerId id).knownPeerIds := by
  unfold addKnownPeerId
  split
  · assumption
  · simp

theorem prefix_addKnownPeerId (pm : PeerManager PeerID) (id : PeerID) :
    pm.knownPeerIds <+: (pm.addKnownPeerId id).knownPeerIds := by
  unfold addKnownPeerId
  split
  · exact List.prefix_rfl
  · exact List.prefix_append _ _

theorem prefix_addPeer (pm : PeerManager PeerID) (peer : PeerRef PeerID) :
    pm.knownPeerIds <+: (pm.addPeer peer).knownPeerIds :=
  prefix_addKnownPeerId { pm with peers := pm.peers.insert peer.id peer } peer.id

theorem nodup_addKnownPeerId (h : pm.knownPeerIds.Nodup) :
    (pm.addKnownPeerId id).knownPeerIds.Nodup := by
  unfold addKnownPeerId
  split
  case isTrue => exact h
  case isFalse hnew => simpa using List.Nodup.concat hnew h

theorem peers_addPeer (pm : PeerManager PeerID) (peer : PeerRef PeerID) :
    (pm.addPeer peer).peers = pm.peers.insert peer.id peer :=
  peers_addKnownPeerId { pm with peers := pm.peers.insert peer.id peer } peer.id

theorem getPeer_addPeer_self (pm : PeerManager PeerID) (peer : PeerRef PeerID) :
    (pm.addPeer peer).getPeer peer.id = some peer := by
  rw [getPeer, peers_addPeer, AList.lookup_insert]

/-- A new peer leaves the others as they are. -/
theorem getPeer_addPeer {old : PeerRef PeerID} (hold : pm.getPeer id = some old)
    (hnew : pm.getPeer peer.id = none) : (pm.addPeer peer).getPeer id = some old := by
  have hne : id ≠ peer.id := by
    rintro rfl
    exact absurd (hold.symm.trans hnew) (by simp)
  rw [getPeer, peers_addPeer, AList.lookup_insert_ne hne]
  exact hold

/-- The counter counts the peers, and their identifiers are known, each once. -/
structure Sound (pm : PeerManager PeerID) : Prop where
  known : ∀ id ∈ pm.peers, id ∈ pm.knownPeerIds
  nodup : pm.knownPeerIds.Nodup
  count : pm.peerCount = pm.peers.keys.length

omit [DecidableEq PeerID] in
theorem sound_new : (new : PeerManager PeerID).Sound :=
  ⟨fun _ h => absurd h (AList.notMem_empty _), List.nodup_nil, rfl⟩

theorem Sound.addKnownPeerId (h : pm.Sound) (id : PeerID) : (pm.addKnownPeerId id).Sound where
  known := by
    rw [peers_addKnownPeerId]
    exact fun id' hid => (prefix_addKnownPeerId pm id).subset (h.known id' hid)
  nodup := nodup_addKnownPeerId h.nodup
  count := by rw [peers_addKnownPeerId, peerCount_addKnownPeerId, h.count]

theorem Sound.addPeer (h : pm.Sound) (hnew : pm.getPeer peer.id = none) :
    (pm.addPeer peer).Sound where
  known := by
    rw [peers_addPeer]
    intro id hid
    rcases (AList.mem_insert pm.peers).mp hid with rfl | hid
    · exact mem_knownPeerIds_addKnownPeerId _ _
    · exact (prefix_addPeer pm peer).subset (h.known id hid)
  nodup := nodup_addKnownPeerId h.nodup
  count := by
    have habsent : peer.id ∉ pm.peers.keys := AList.lookup_eq_none.mp hnew
    rw [peers_addPeer, AList.keys_insert, List.erase_of_not_mem habsent, List.length_cons,
      ← h.count]
    exact congrArg (· + 1) (peerCount_addKnownPeerId _ _)

end PeerManager

end SfRs.Wasm
