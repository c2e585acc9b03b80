import SfRs.Protocol.Codec
import SfRs.Server.Loop
import SfRs.Wasm.Client
/-!
# The server and the pages connected to it

Any number of pages that run sf-wasm, each with its socket to the server.  A page queues
the texts of its requests for `websocket_writer_loop`, and `websocket_reader_loop` hands
the frames of the server to the client.  A socket keeps what is on its way in order; it
can break at either end at any time.

A page has one connection, so it is named by the handler of that connection.
-/

set_option linter.unusedSectionVars false

namespace SfRs.EndToEnd

open SfRs.Lib SfRs.Protocol SfRs.Server

/-- A message of `gloo_net`. -/
inductive Frame where
  | text (raw : String)
  | bytes
  deriving DecidableEq

/-- A page with its two loops.  `outbox` is the channel that the writer loop reads. -/
structure Tab (PeerID : Type) where
  client : Wasm.Client PeerID
  outbox : List String
  writing : Bool
  reading : Bool

/-- `up` and `down` are on their way to the server and from it, oldest first. -/
structure World (PeerID : Type) where
  server : ServerState PeerID
  tabs : PeerHandler PeerID → Tab PeerID
  up : PeerHandler PeerID → List String
  down : PeerHandler PeerID → List Frame

inductive WorldEvent (PeerID : Type) where
  | client (h : PeerHandler PeerID) (e : Wasm.Event PeerID)
  /-- `handle_incoming_text` of the page read `request`. -/
  | received (h : PeerHandler PeerID) (request : PeerRequest PeerID)
  | server (e : ServerEvent PeerID)

inductive WorldAction (PeerID : Type) where
  | client (h : PeerHandler PeerID) (action : Wasm.Action PeerID)
  /-- The writer loop takes the next text, and `write.send` ends. -/
  | write (h : PeerHandler PeerID) (ok : Bool)
  /-- The reader loop takes the next frame. -/
  | read (h : PeerHandler PeerID)
  /-- `read.next()` yields an error, or nothing more. -/
  | readError (h : PeerHandler PeerID)
  | server (action : ServerAction PeerID)
  /-- The next text of the page reaches the server. -/
  | arrive (h : PeerHandler PeerID)

variable {PeerID : Type}

/-- The request an event hands to `send_peer_request`. -/
def sentRequest : Wasm.Event PeerID → Option (PeerRequest PeerID)
  | .sent request => some request
  | _ => none

namespace Tab

def new : Tab PeerID := ⟨.new, [], true, true⟩

/-- The client goes on; its requests are queued while the writer loop runs. -/
def perform (codec : Codec PeerID) (t : Tab PeerID) (c : Wasm.Client PeerID)
    (es : List (Wasm.Event PeerID)) : Tab PeerID :=
  { t with
    client := c
    outbox :=
      if t.writing then t.outbox ++ (es.filterMap sentRequest).map codec.write else t.outbox }

/-- The reader loop waits for a frame. -/
def idle (t : Tab PeerID) : Bool := t.reading && t.client.reader.isNone

end Tab

namespace World

def init : World PeerID := ⟨.init, fun _ => .new, fun _ => [], fun _ => []⟩

variable [DecidableEq PeerID]

def setTab (w : World PeerID) (h : PeerHandler PeerID) (t : Tab PeerID) : World PeerID :=
  { w with tabs := Function.update w.tabs h t }

def setUp (w : World PeerID) (h : PeerHandler PeerID) (up : List String) : World PeerID :=
  { w with up := Function.update w.up h up }

def setDown (w : World PeerID) (h : PeerHandler PeerID) (down : List Frame) : World PeerID :=
  { w with down := Function.update w.down h down }

/-- The server goes on, and what it writes is on its way. -/
def serve (codec : Codec PeerID) (w : World PeerID) (s : ServerState PeerID)
    (es : List (ServerEvent PeerID)) : World PeerID :=
  { w with
    server := s
    down := fun h => w.down h ++ (written es h).map fun request => .text (codec.write request) }

/-- The server accepts the sockets that pages have opened, and texts reach it by `arrive`. -/
def admits (w : World PeerID) : ServerAction PeerID → Bool
  | .accept h => (w.tabs h).client.ws
  | .inbound _ (some (.text _)) => false
  | _ => true

/-- `handle_incoming_text`, with what is left in `w` of the frames. -/
def handleIncomingText (codec : Codec PeerID) (w : World PeerID) (h : PeerHandler PeerID)
    (text : String) : Option (World PeerID × List (WorldEvent PeerID)) :=
  match codec.fromStr text with
  | some request =>
      ((w.tabs h).client.step h.peerId (.receive request)).map fun r =>
        (w.setTab h ((w.tabs h).perform codec r.1 r.2),
          .received h request :: r.2.map (.client h))
  | none => some (w, [])

def step (codec : Codec PeerID) (w : World PeerID) :
    WorldAction PeerID → Option (World PeerID × List (WorldEvent PeerID))
  | .client _ (.receive _) => none
  | .client h a =>
      ((w.tabs h).client.step h.peerId a).map fun r =>
        (w.setTab h ((w.tabs h).perform codec r.1 r.2), r.2.map (.client h))
  | .write h ok =>
      match (w.tabs h).writing, (w.tabs h).outbox with
      | true, text :: outbox =>
          if ok then
            some ((w.setTab h { w.tabs h with outbox := outbox }).setUp h (w.up h ++ [text]), [])
          -- the loop is left, and the channel is dropped with its receiver
          else some (w.setTab h { w.tabs h with outbox := [], writing := false }, [])
      | _, _ => none
  | .read h =>
      if (w.tabs h).idle then
        match w.down h with
        | .text raw :: down => (w.setDown h down).handleIncomingText codec h raw
        | .bytes :: down => some (w.setDown h down, [])
        | [] => none
      else none
  | .readError h =>
      if (w.tabs h).idle then some (w.setTab h { w.tabs h with reading := false }, []) else none
  | .server a =>
      if w.admits a then
        (w.server.step codec.fromStr a).map fun r => (w.serve codec r.1 r.2, r.2.map .server)
      else none
  | .arrive h =>
      match w.up h with
      | text :: up =>
          (w.server.step codec.fromStr (.inbound h (some (.text text)))).map fun r =>
            ((w.setUp h up).serve codec r.1 r.2, r.2.map .server)
      | [] => none

/-! ## What a step can do -/

/-- The steps of the world, one constructor for each kind of effect. -/
inductive Steps (codec : Codec PeerID) (w : World PeerID) :
    WorldAction PeerID → World PeerID → List (WorldEvent PeerID) → Prop
  | client {h a c es} (hact : ∀ request, a ≠ .receive request)
      (hstep : (w.tabs h).client.step h.peerId a = some (c, es)) :
      Steps codec w (.client h a) (w.setTab h ((w.tabs h).perform codec c es))
        (es.map (.client h))
  | receive {h raw down request c es} (hdown : w.down h = .text raw :: down)
      (hread : codec.fromStr raw = some request)
      (hstep : (w.tabs h).client.step h.peerId (.receive request) = some (c, es)) :
      Steps codec w (.read h)
        ((w.setDown h down).setTab h ((w.tabs h).perform codec c es))
        (.received h request :: es.map (.client h))
  | ignore {h frame down} (hdown : w.down h = frame :: down)
      (hread : ∀ raw, frame = .text raw → codec.fromStr raw = none) :
      Steps codec w (.read h) (w.setDown h down) []
  | stopReading {h} :
      Steps codec w (.readError h) (w.setTab h { w.tabs h with reading := false }) []
  | wrote {h text outbox} (hwriting : (w.tabs h).writing = true)
      (houtbox : (w.tabs h).outbox = text :: outbox) :
      Steps codec w (.write h true)
        ((w.setTab h { w.tabs h with outbox := outbox }).setUp h (w.up h ++ [text])) []
  | stopWriting {h} (hwriting : (w.tabs h).writing = true) :
      Steps codec w (.write h false)
        (w.setTab h { w.tabs h with outbox := [], writing := false }) []
  | server {a s es} (hadmits : w.admits a)
      (hstep : w.server.step codec.fromStr a = some (s, es)) :
      Steps codec w (.server a) (w.serve codec s es) (es.map .server)
  | arrive {h text up s es} (hup : w.up h = text :: up)
      (hstep : w.server.step codec.fromStr (.inbound h (some (.text text))) = some (s, es)) :
      Steps codec w (.arrive h) ((w.setUp h up).serve codec s es) (es.map .server)

theorem steps_of_step {codec : Codec PeerID} {w w' : World PeerID} {l : WorldAction PeerID}
    {es : List (WorldEvent PeerID)} (h : w.step codec l = some (w', es)) :
    w.Steps codec l w' es := by
  unfold step at h
  split at h
  case h_1 => cases h
  case h_2 hact =>
      obtain ⟨⟨c, ces⟩, hstep, hpair⟩ := Option.map_eq_some_iff.mp h
      cases hpair
      refine .client (fun request heq => ?_) hstep
      exact hact request heq
  case h_3 ok =>
      split at h
      case h_1 hwriting houtbox =>
          cases ok with
          | true => cases h; exact .wrote hwriting houtbox
          | false => cases h; exact .stopWriting hwriting
      case h_2 => cases h
  case h_4 h₀ =>
      split at h
      case isTrue =>
          split at h
          case h_1 raw down hdown =>
              unfold handleIncomingText at h
              split at h
              case h_1 request hread =>
                  obtain ⟨⟨c, ces⟩, hstep, hpair⟩ := Option.map_eq_some_iff.mp h
                  cases hpair
                  exact .receive hdown hread hstep
              case h_2 hread =>
                  cases h
                  refine .ignore hdown fun text htext => ?_
                  cases htext
                  exact hread
          case h_2 down hdown =>
              cases h
              exact .ignore hdown fun text htext => by cases htext
          case h_3 => cases h
      case isFalse => cases h
  case h_5 =>
      split at h
      case isTrue => cases h; exact .stopReading
      case isFalse => cases h
  case h_6 =>
      split at h
      case isTrue hadmits =>
          obtain ⟨⟨s, ses⟩, hstep, hpair⟩ := Option.map_eq_some_iff.mp h
          cases hpair
          exact .server hadmits hstep
      case isFalse => cases h
  case h_7 =>
      split at h
      case h_1 text up hup =>
          obtain ⟨⟨s, ses⟩, hstep, hpair⟩ := Option.map_eq_some_iff.mp h
          cases hpair
          exact .arrive hup hstep
      case h_2 => cases h

end World

/-- The server and the pages, whatever the scripts of the pages, the schedulers, the
browsers and the sockets do. -/
def world [DecidableEq PeerID] (codec : Codec PeerID) :
    Machine (World PeerID) (WorldAction PeerID) (WorldEvent PeerID) :=
  ⟨.init, World.step codec⟩

/-! ## A page joins -/

def page (id : UInt16) : PeerHandler UInt16 := ⟨id, ⟨id.toNat, 32⟩⟩

/-- `g` connects and is added; its news is sent to `ids`. -/
def joining (g : PeerHandler UInt16) (ids : List UInt16) : List (WorldAction UInt16) :=
  [.client g .connect, .server (.accept g), .server (.advance g .go), .server (.advance g .go),
    .server (.advance g .go), .server (.advance g (.random (some 9))), .server (.advance g .go)] ++
  ids.map (fun id => .server (.advance g (.visit id))) ++
  .server (.advance g .stop) :: ids.map (fun _ => .server (.advance g .go)) ++
  [.server (.advance g .go), .server (.resume g)]

/-- The `i`-th send task ends, and its request is carried to `g`. -/
def carrying (i : Nat) (g : PeerHandler UInt16) : List (WorldAction UInt16) :=
  [.server (.runTask i), .server (.outbound g), .server (.written g true), .read g]

/-- A page joins, and reads the news of itself. -/
def newsRun : List (WorldAction UInt16) := joining (page 1) [1] ++ carrying 0 (page 1)

end SfRs.EndToEnd
