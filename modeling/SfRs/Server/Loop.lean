import SfRs.Server.ProcessWs
import SfRs.Server.Routing
/-!
# Every connection runs the loop

`server` keeps where each connection is and runs all of them on one state; `processWs` is
the loop of a single connection, whatever it is connected to.  What a connection does in
a run of the server is a run of the loop, on the items that its socket yielded and the
requests that its channel was given.
-/

set_option linter.unusedSectionVars false

namespace SfRs.Server

open SfRs.Lib SfRs.Protocol

/-! ## More items and requests -/

section Extend

variable {PeerID : Type} {p : LoopParams PeerID} {items : List ReadItem}
  {requests : List (PeerRequest PeerID)} {t t' : LoopState PeerID}
  {tr es : List (LoopEvent PeerID)}

/-- The stream yields more items at its end, and more requests arrive. -/
def LoopState.extend (t : LoopState PeerID) (items : List ReadItem)
    (requests : List (PeerRequest PeerID)) : LoopState PeerID :=
  { t with read := t.read ++ items, arriving := t.arriving ++ requests }

theorem onItem_extend (p : LoopParams PeerID) (t : LoopState PeerID) (item : ReadItem)
    (items : List ReadItem) (requests : List (PeerRequest PeerID)) :
    p.onItem (t.extend items requests) item =
      ((p.onItem t item).1.extend items requests, (p.onItem t item).2) := by
  cases item with
  | error => rfl
  | ok msg =>
      cases msg with
      | text raw =>
          simp only [LoopParams.onItem, LoopParams.processIncoming]
          split
          case h_1 => rw [LoopParams.handleRequest_eq, LoopParams.handleRequest_eq]; rfl
          case h_2 => rfl
      | binary | ping | pong | close => rfl

/-- What the loop can do it can do when more is to come. -/
theorem step_extend {l : LoopAction} (h : p.step t l = some (t', es)) :
    p.step (t.extend items requests) l = some (t'.extend items requests, es) := by
  cases l with
  | arrive =>
      simp only [LoopParams.step] at h
      split at h
      case h_1 request arriving harriving =>
          split at h
          case isTrue hroom =>
              cases h
              simp [LoopParams.step, LoopState.extend, harriving, hroom]
          case isFalse => cases h
      case h_2 => cases h
  | recv =>
      simp only [LoopParams.step] at h
      split at h
      case h_1 request queue hpc hqueue =>
          split at h
          case h_1 text htext =>
              cases h
              simp [LoopParams.step, LoopState.extend, hpc, hqueue, htext]
          case h_2 htext =>
              cases h
              simp [LoopParams.step, LoopState.extend, hpc, hqueue, htext]
      case h_2 => cases h
  | sent ok =>
      simp only [LoopParams.step] at h
      split at h
      case h_1 text hpc =>
          cases ok <;> cases h <;> simp [LoopParams.step, LoopState.extend, hpc]
      case h_2 => cases h
  | next =>
      simp only [LoopParams.step] at h
      split at h
      case h_1 item read hpc hread =>
          cases h
          have hitem := onItem_extend p { t with read := read } item items requests
          simp only [LoopParams.step, LoopState.extend, hpc, hread, List.cons_append] at hitem ⊢
          rw [hitem]
      case h_2 => cases h
  | dispatched =>
      simp only [LoopParams.step] at h
      split at h
      case h_1 hpc => cases h; simp [LoopParams.step, LoopState.extend, hpc]
      case h_2 => cases h
  | remove =>
      simp only [LoopParams.step] at h
      split at h
      case h_1 hpc => cases h; simp [LoopParams.step, LoopState.extend, hpc]
      case h_2 => cases h

theorem run_extend {ks : List LoopAction} (hrun : (processWs p items requests).Run ks t tr)
    (items' : List ReadItem) (requests' : List (PeerRequest PeerID)) :
    (processWs p (items ++ items') (requests ++ requests')).Run ks
      (t.extend items' requests') tr := by
  induction hrun with
  | nil => exact .nil
  | snoc _ hstep ih => exact ih.snoc (step_extend hstep)

/-- From `t` the loop can go on to `t'`, whatever else it is given. -/
def Goes (p : LoopParams PeerID) (t t' : LoopState PeerID) (es : List (LoopEvent PeerID)) :
    Prop :=
  ∀ items requests ks tr, (processWs p items requests).Run ks t tr →
    ∃ ks', (processWs p items requests).Run ks' t' (tr ++ es)

theorem Goes.rfl : Goes p t t [] := fun _ _ ks _ hrun => ⟨ks, by rwa [List.append_nil]⟩

theorem goes_step {l : LoopAction} (hstep : p.step t l = some (t', es)) : Goes p t t' es :=
  fun _ _ _ _ hrun => ⟨_, hrun.snoc hstep⟩

theorem Goes.trans {t'' : LoopState PeerID} {es' : List (LoopEvent PeerID)}
    (h : Goes p t t' es) (h' : Goes p t' t'' es') : Goes p t t'' (es ++ es') := by
  intro items requests ks tr hrun
  obtain ⟨ks₁, hrun₁⟩ := h items requests ks tr hrun
  rw [← List.append_assoc]
  exact h' items requests ks₁ (tr ++ es) hrun₁

@[simp] theorem extend_nil (t : LoopState PeerID) : t.extend [] [] = t := by
  simp [LoopState.extend]

end Extend

/-! ## A connection and its loop -/

variable {PeerID : Type} [DecidableEq PeerID]

/-- What the socket of `h` yielded. -/
def yielded (ls : List (ServerAction PeerID)) (h : PeerHandler PeerID) : List ReadItem :=
  ls.filterMap fun
    | .inbound g item => if g = h then some (item.elim .error .ok) else none
    | _ => none

/-- The requests that the frames of `h` parsed as. -/
def parsed (tr : List (ServerEvent PeerID)) (h : PeerHandler PeerID) :
    List (PeerRequest PeerID) :=
  tr.filterMap fun
    | .frame g _ request => if g = h then some request else none
    | _ => none

/-- The requests written to the socket of `h`. -/
def written (tr : List (ServerEvent PeerID)) (h : PeerHandler PeerID) :
    List (PeerRequest PeerID) :=
  tr.filterMap fun
    | .wrote g request => if g = h then some request else none
    | _ => none

/-- The requests that the channel of `h` was given. -/
def given (tr : List (ServerEvent PeerID)) (h : PeerHandler PeerID) :
    List (PeerRequest PeerID) :=
  enqueued (tr.filterMap ServerEvent.app?) h

theorem yielded_append (ls ks : List (ServerAction PeerID)) (h : PeerHandler PeerID) :
    yielded (ls ++ ks) h = yielded ls h ++ yielded ks h := by
  simp [yielded, List.filterMap_append]

theorem parsed_append (tr es : List (ServerEvent PeerID)) (h : PeerHandler PeerID) :
    parsed (tr ++ es) h = parsed tr h ++ parsed es h := by
  simp [parsed, List.filterMap_append]

theorem parsed_frame (h : PeerHandler PeerID) (n : Nat) (request : PeerRequest PeerID)
    (es : List (ServerEvent PeerID)) :
    parsed (.frame h n request :: es) h = request :: parsed es h := by
  simp [parsed]

theorem written_append (tr es : List (ServerEvent PeerID)) (h : PeerHandler PeerID) :
    written (tr ++ es) h = written tr h ++ written es h := by
  simp [written, List.filterMap_append]

theorem given_append (tr es : List (ServerEvent PeerID)) (h : PeerHandler PeerID) :
    given (tr ++ es) h = given tr h ++ given es h := by
  simp [given, enqueued, List.filterMap_append]

theorem parsed_map_app (aes : List (Event PeerID (CallId PeerID))) (h : PeerHandler PeerID) :
    parsed (aes.map .app) h = [] := by
  simp [parsed, List.filterMap_map]

theorem written_map_app (aes : List (Event PeerID (CallId PeerID))) (h : PeerHandler PeerID) :
    written (aes.map .app) h = [] := by
  simp [written, List.filterMap_map]

theorem given_map_app {aes : List (Event PeerID (CallId PeerID))}
    (hquiet : ∀ task, .enqueued task ∉ aes) (h : PeerHandler PeerID) :
    given (aes.map .app) h = [] := by
  rw [given, filterMap_map_app]
  refine List.filterMap_eq_nil_iff.mpr fun e he => ?_
  cases e with
  | enqueued task => exact absurd he (hquiet task)
  | _ => rfl

/-- The loop of `h`, with `write` for the texts of its requests. -/
def loopParams (write : PeerRequest PeerID → String)
    (fromStr : String → Option (PeerRequest PeerID)) (h : PeerHandler PeerID) :
    LoopParams PeerID where
  id := h.peerId
  capacity := h.sender.capacity
  toString request := some (write request)
  fromStr := fromStr

/-- Where the loop of a connection is.  A connection that was not added never enters it. -/
def InLoop (write : PeerRequest PeerID → String) : ConnState PeerID → LoopPc → Prop
  | .absent, pc | .adding, pc | .serving _, pc => pc = .select
  | .writing _ request, pc => pc = .sending (write request)
  | .dispatching _, pc => pc = .dispatching
  | .removing _, pc => pc = .closing
  | .gone, pc => pc = .returned ∨ pc = .select

section Simulation

variable {write : PeerRequest PeerID → String} {fromStr : String → Option (PeerRequest PeerID)}
  {h g : PeerHandler PeerID} {s s' : ServerState PeerID} {ls : List (ServerAction PeerID)}
  {l : ServerAction PeerID} {tr es : List (ServerEvent PeerID)} {t t' : LoopState PeerID}
  {ltr les : List (LoopEvent PeerID)}

/-- The loop reaches `t` with what the connection was given, and there it is where the
connection is. -/
structure Simulates (write : PeerRequest PeerID → String)
    (fromStr : String → Option (PeerRequest PeerID)) (h : PeerHandler PeerID)
    (ls : List (ServerAction PeerID)) (s : ServerState PeerID) (tr : List (ServerEvent PeerID))
    (t : LoopState PeerID) (ltr : List (LoopEvent PeerID)) : Prop where
  reached : ∃ ks, (processWs (loopParams write fromStr h) (yielded ls h) (given tr h)).Run ks
    t ltr
  read : t.read = []
  arriving : t.arriving = []
  pc : InLoop write (s.conns h) t.pc
  queue : s.conns h ≠ .gone → (s.app.channels h).queue = t.queue
  closed : (s.app.channels h).closed = true ↔ s.conns h = .gone
  calls : calls ltr = (parsed tr h).map (loopParams write fromStr h).callFor
  frames : frames ltr = (written tr h).map write
  rejected : s.conns h = .gone → t.pc = .select → ∃ e, s.app.calls (h, 0) = some (.failed e)

/-- The loop goes on to `t'`. -/
theorem Simulates.go {items : List ReadItem} {requests : List (PeerRequest PeerID)}
    (hsim : Simulates write fromStr h ls s tr t ltr)
    (hyielded : yielded [l] h = items) (hgiven : given es h = requests)
    (hgoes : Goes (loopParams write fromStr h) (t.extend items requests) t' les)
    (hread : t'.read = []) (harriving : t'.arriving = [])
    (hpc : InLoop write (s'.conns h) t'.pc)
    (hqueue : s'.conns h ≠ .gone → (s'.app.channels h).queue = t'.queue)
    (hclosed : (s'.app.channels h).closed = true ↔ s'.conns h = .gone)
    (hcalls : SfRs.Server.calls les = (parsed es h).map (loopParams write fromStr h).callFor)
    (hframes : SfRs.Server.frames les = (written es h).map write)
    (hrejected : s'.conns h = .gone → t'.pc = .select →
      ∃ e, s'.app.calls (h, 0) = some (.failed e)) :
    Simulates write fromStr h (ls ++ [l]) s' (tr ++ es) t' (ltr ++ les) := by
  obtain ⟨ks, hrun⟩ := hsim.reached
  constructor
  · rw [yielded_append, given_append, hyielded, hgiven]
    exact hgoes _ _ ks ltr (run_extend hrun items requests)
  · exact hread
  · exact harriving
  · exact hpc
  · exact hqueue
  · exact hclosed
  · rw [calls_append, hsim.calls, hcalls, parsed_append, List.map_append]
  · rw [frames_append, hsim.frames, hframes, written_append, List.map_append]
  · exact hrejected

/-- The connection goes on without its loop. -/
theorem Simulates.stay (hsim : Simulates write fromStr h ls s tr t ltr)
    (hyielded : yielded [l] h = []) (hgiven : given es h = []) (hparsed : parsed es h = [])
    (hwritten : written es h = []) (hpc : InLoop write (s'.conns h) t.pc)
    (hqueue : s'.conns h ≠ .gone → (s'.app.channels h).queue = t.queue)
    (hclosed : (s'.app.channels h).closed = true ↔ s'.conns h = .gone)
    (hrejected : s'.conns h = .gone → t.pc = .select →
      ∃ e, s'.app.calls (h, 0) = some (.failed e)) :
    Simulates write fromStr h (ls ++ [l]) s' (tr ++ es) t ltr := by
  have hstay : Simulates write fromStr h (ls ++ [l]) s' (tr ++ es) t (ltr ++ []) :=
    hsim.go hyielded hgiven (by rw [extend_nil]; exact .rfl) hsim.read hsim.arriving hpc
      hqueue hclosed (by rw [hparsed]; rfl) (by rw [hwritten]; rfl) hrejected
  rwa [List.append_nil] at hstay

/-- The connection goes on in the loop, and its channel stays as it is. -/
theorem Simulates.inLoop {items : List ReadItem}
    (hsim : Simulates write fromStr h ls s tr t ltr) (hlive : s.conns h ≠ .gone)
    (hchannels : s'.app.channels h = s.app.channels h)
    (hlive' : s'.conns h ≠ .gone) (hyielded : yielded [l] h = items) (hgiven : given es h = [])
    (hgoes : Goes (loopParams write fromStr h) (t.extend items []) t' les)
    (hread : t'.read = []) (harriving : t'.arriving = []) (hqueue : t'.queue = t.queue)
    (hpc : InLoop write (s'.conns h) t'.pc)
    (hcalls : SfRs.Server.calls les = (parsed es h).map (loopParams write fromStr h).callFor)
    (hframes : SfRs.Server.frames les = (written es h).map write) :
    Simulates write fromStr h (ls ++ [l]) s' (tr ++ es) t' (ltr ++ les) := by
  refine hsim.go hyielded hgiven hgoes hread harriving hpc ?_ ?_ hcalls hframes
    fun hgone => absurd hgone hlive'
  · intro
    rw [hchannels, hqueue]
    exact hsim.queue hlive
  · rw [hchannels]
    exact iff_of_false (fun hclosed => hlive (hsim.closed.mp hclosed)) hlive'

/-! ## Steps of other connections and of tasks -/

/-- A step that the connection `h` has no part in. -/
structure Apart (h : PeerHandler PeerID) (s s' : ServerState PeerID)
    (es : List (ServerEvent PeerID)) : Prop where
  conns : s'.conns h = s.conns h
  channels : s'.app.channels h = s.app.channels h
  calls : SameCalls s s' h
  given : given es h = []
  parsed : parsed es h = []
  written : written es h = []

theorem Simulates.apart (hsim : Simulates write fromStr h ls s tr t ltr)
    (hyielded : yielded [l] h = []) (hapart : Apart h s s' es) :
    Simulates write fromStr h (ls ++ [l]) s' (tr ++ es) t ltr := by
  refine hsim.stay hyielded hapart.given hapart.parsed hapart.written ?_ ?_ ?_ ?_
  · rw [hapart.conns]
    exact hsim.pc
  · rw [hapart.conns, hapart.channels]
    exact hsim.queue
  · rw [hapart.conns, hapart.channels]
    exact hsim.closed
  · intro hgone hselect
    rw [hapart.conns] at hgone
    obtain ⟨e, he⟩ := hsim.rejected hgone hselect
    rcases hapart.calls 0 with hcall | ⟨peerId, hcall⟩
    · exact ⟨e, hcall.trans he⟩
    · exact ⟨e, by rw [hcall, he]; rfl⟩

theorem apart_of_connSteps (hsteps : ConnSteps s s' g l es) (hne : h ≠ g) :
    Apart h s s' es := by
  obtain ⟨hconns, hcalls⟩ := hsteps.others hne
  cases hsteps with
  | start _ hstarts _ happ =>
      have hchannels : s'.app.channels h = s.app.channels h := by rw [happ]; rfl
      generalize s.conns g = conn at hstarts
      cases hstarts with
      | accept | leave => exact ⟨hconns, hchannels, hcalls, rfl, rfl, rfl⟩
      | forward =>
          exact ⟨hconns, hchannels, hcalls, rfl, by simp [parsed, hne.symm], rfl⟩
  | advance _ _ hadvance =>
      obtain ⟨hchannels, hquiet, -⟩ := hadvance.frame
      exact ⟨hconns, by rw [hchannels], hcalls, given_map_app hquiet h, parsed_map_app _ h,
        written_map_app _ h⟩
  | resume _ happ => exact ⟨hconns, by rw [happ], hcalls, rfl, rfl, rfl⟩
  | finish _ happ =>
      refine ⟨hconns, ?_, hcalls, rfl, rfl, rfl⟩
      rw [happ]
      exact Function.update_of_ne hne _ _
  | loop _ _ _ _ happ _ hes =>
      refine ⟨hconns, by rw [happ], hcalls, ?_, ?_, ?_⟩
      · refine List.filterMap_eq_nil_iff.mpr fun e he => ?_
        obtain ⟨e', he', happ'⟩ := List.mem_filterMap.mp he
        rcases hes e' he' with ⟨k, rfl⟩ | ⟨request, rfl⟩ <;> cases happ'
      · refine List.filterMap_eq_nil_iff.mpr fun e he => ?_
        rcases hes e he with ⟨k, rfl⟩ | ⟨request, rfl⟩
        · exact if_neg hne.symm
        · rfl
      · refine List.filterMap_eq_nil_iff.mpr fun e he => ?_
        rcases hes e he with ⟨k, rfl⟩ | ⟨request, rfl⟩
        · rfl
        · exact if_neg hne.symm
  | recv _ _ happ =>
      refine ⟨hconns, ?_, hcalls, rfl, rfl, rfl⟩
      rw [happ]
      exact Function.update_of_ne hne _ _

theorem InLoop.ne_returned {conn : ConnState PeerID} {pc : LoopPc} (hpc : InLoop write conn pc)
    (hlive : conn ≠ .gone) : pc ≠ .returned := by
  rintro rfl
  cases conn with
  | gone => exact hlive rfl
  | _ => cases hpc

/-- A send task runs, and its request arrives in the channel. -/
theorem Simulates.runTask {i : Nat} (hsim : Simulates write fromStr h ls s tr t ltr)
    (hstep : s.step fromStr (.runTask i) = some (s', es)) :
    ∃ t' ltr', Simulates write fromStr h (ls ++ [.runTask i]) s' (tr ++ es) t' ltr' := by
  simp only [ServerState.step, Option.map_eq_some_iff, Prod.mk.injEq] at hstep
  obtain ⟨⟨app, aes⟩, happ, rfl, rfl⟩ := hstep
  simp only [AppState.step, AppState.runTask] at happ
  split at happ
  case h_1 => cases happ
  case h_2 task htask =>
      split at happ
      case isTrue =>
          cases happ
          exact ⟨t, ltr, hsim.apart rfl ⟨rfl, rfl, fun _ => Or.inl rfl, rfl, rfl, rfl⟩⟩
      case isFalse hopen =>
          split at happ
          case isFalse => cases happ
          case isTrue hroom =>
              cases happ
              by_cases hhandler : task.handler = h
              · subst hhandler
                have hlive : s.conns task.handler ≠ .gone := fun hgone =>
                  hopen (hsim.closed.mpr hgone)
                have hqueue := hsim.queue hlive
                rw [hqueue] at hroom
                have hgiven : given [.app (.enqueued task)] task.handler = [task.payload] := by
                  simp [given, enqueued, ServerEvent.app?, SendTask.requestFor]
                have harrive : (loopParams write fromStr task.handler).step
                    (t.extend [] [task.payload]) .arrive =
                      some ({ t with queue := t.queue ++ [task.payload] }, []) := by
                  simp [LoopParams.step, LoopState.extend, loopParams, hsim.arriving, hroom,
                    hsim.pc.ne_returned hlive]
                have hyielded : yielded [.runTask i] task.handler = [] := rfl
                refine ⟨_, _, hsim.go hyielded hgiven (goes_step harrive) hsim.read
                  hsim.arriving hsim.pc (fun _ => ?_) ?_ rfl rfl hsim.rejected⟩
                · simp [AppState.enqueue, hqueue]
                · simpa [AppState.enqueue] using hsim.closed
              · have hchannels : (s.app.enqueue i task).channels h = s.app.channels h :=
                  Function.update_of_ne (Ne.symm hhandler) _ _
                refine ⟨t, ltr, hsim.apart rfl
                  ⟨rfl, hchannels, fun _ => Or.inl rfl, ?_, rfl, rfl⟩⟩
                simp [given, enqueued, ServerEvent.app?, SendTask.requestFor, hhandler]

/-! ## Steps of the connection -/

theorem perform_call {k : CallId PeerID} {call : Call PeerID} {conn : ConnState PeerID}
    (hperform : s.perform (.call k call) h conn = some (s', es)) :
    s'.conns = Function.update s.conns h conn ∧ s'.app.channels = s.app.channels ∧
      es = [.app (.called k call)] := by
  obtain ⟨aes, hsteps, hconns, rfl⟩ := perform_eq_some hperform
  generalize happ : s'.app = app at hsteps
  cases hsteps with
  | call => exact ⟨hconns, rfl, rfl⟩

/-- The loop is left, and the connection calls `remove_peer`. -/
theorem Simulates.leave {s₀ : ServerState PeerID} {n total : Nat} {items : List ReadItem}
    {k : LoopAction} (hsim : Simulates write fromStr h ls s tr t ltr)
    (hlive : s.conns h ≠ .gone) (happ : s₀.app = s.app)
    (hleave : s₀.leave h n = some (s', es)) (hyielded : yielded [l] h = items)
    (hstep : (loopParams write fromStr h).step (t.extend items []) k =
      some ({ t with msgRecvTotal := total, pc := .closing }, les))
    (hcalls : SfRs.Server.calls les = []) (hframes : SfRs.Server.frames les = []) :
    ∃ t' ltr', Simulates write fromStr h (ls ++ [l]) s' (tr ++ es) t' ltr' := by
  obtain ⟨hconns, hchannels, rfl⟩ := perform_call hleave
  have hconn : s'.conns h = .removing n := by rw [hconns, Function.update_self]
  refine ⟨_, _, hsim.inLoop hlive (by rw [hchannels, happ]) (by simp [hconn]) hyielded rfl
    (goes_step hstep) hsim.read hsim.arriving rfl ?_ hcalls hframes⟩
  rw [hconn]
  rfl

theorem Simulates.next (hsim : Simulates write fromStr h ls s tr t ltr) {n : Nat}
    (hserving : s.conns h = .serving n) (item : ReadItem) :
    (loopParams write fromStr h).step (t.extend [item] []) .next =
      some (((loopParams write fromStr h).onItem t item).1,
        .next item :: ((loopParams write fromStr h).onItem t item).2) := by
  obtain ⟨pc, read, queue, arriving, total⟩ := t
  obtain rfl : read = [] := hsim.read
  obtain rfl : pc = .select := by simpa [hserving, InLoop] using hsim.pc
  simp [LoopParams.step, LoopState.extend]

/-- A frame that makes no call. -/
theorem Simulates.ignore {n : Nat} {msg : Message}
    (hsim : Simulates write fromStr h ls s tr t ltr) (hserving : s.conns h = .serving n)
    (hitem : (loopParams write fromStr h).onItem t (.ok msg) =
      ({ t with msgRecvTotal := t.msgRecvTotal + 1 }, [])) :
    ∃ t' ltr', Simulates write fromStr h (ls ++ [.inbound h (some msg)])
      (s.incrementReceived h.peerId) (tr ++ []) t' ltr' := by
  have hlive : s.conns h ≠ .gone := by simp [hserving]
  have hyielded : yielded [.inbound h (some msg)] h = [.ok msg] := by simp [yielded]
  have hstep := hsim.next hserving (.ok msg)
  rw [hitem] at hstep
  exact ⟨_, _, hsim.inLoop hlive rfl hlive hyielded rfl (goes_step hstep) hsim.read
    hsim.arriving rfl hsim.pc rfl rfl⟩

/-- A frame that parses as a request. -/
theorem Simulates.request {n : Nat} {raw : String} {request : PeerRequest PeerID}
    (hsim : Simulates write fromStr h ls s tr t ltr) (hserving : s.conns h = .serving n)
    (hparsed : fromStr raw = some request)
    (hstep : (s.incrementReceived h.peerId).handleRequest h n request = some (s', es)) :
    ∃ t' ltr', Simulates write fromStr h (ls ++ [.inbound h (some (.text raw))]) s' (tr ++ es)
      t' ltr' := by
  have hlive : s.conns h ≠ .gone := by simp [hserving]
  have hyielded : yielded [.inbound h (some (.text raw))] h = [.ok (.text raw)] := by
    simp [yielded]
  have hparams : (loopParams write fromStr h).fromStr raw = some request := hparsed
  have hnext : (loopParams write fromStr h).step (t.extend [.ok (.text raw)] []) .next =
      some ({ t with msgRecvTotal := t.msgRecvTotal + 1, pc := .dispatching },
        [.next (.ok (.text raw)), .called ((loopParams write fromStr h).callFor request)]) := by
    rw [hsim.next hserving]
    simp only [LoopParams.onItem, LoopParams.processIncoming, hparams,
      LoopParams.handleRequest_eq]
  cases request with
  | keepAlive =>
      cases hstep
      have hdispatched : (loopParams write fromStr h).step
          { t with msgRecvTotal := t.msgRecvTotal + 1, pc := .dispatching } .dispatched =
            some ({ t with msgRecvTotal := t.msgRecvTotal + 1, pc := .select }, []) := rfl
      have hconn : ((s.incrementReceived h.peerId).setConn h (.serving (n + 1))).conns h =
          .serving (n + 1) := by
        simp [ServerState.setConn]
      refine ⟨_, _, hsim.inLoop hlive rfl (by simp [hconn]) hyielded rfl
        ((goes_step hnext).trans (goes_step hdispatched)) hsim.read hsim.arriving rfl ?_ ?_ rfl⟩
      · rw [hconn]
        rfl
      · rw [parsed_frame]
        rfl
  | forward fromPeerId toPeerId data =>
      simp only [ServerState.handleRequest, Option.map_eq_some_iff, Prod.mk.injEq] at hstep
      obtain ⟨⟨s₁, es₁⟩, hperform, rfl, rfl⟩ := hstep
      obtain ⟨hconns, hchannels, rfl⟩ := perform_call hperform
      have hconn : s₁.conns h = .dispatching n := by rw [hconns, Function.update_self]
      have hchannel : s₁.app.channels h = s.app.channels h := by rw [hchannels]; rfl
      refine ⟨_, _, hsim.inLoop hlive hchannel (by simp [hconn]) hyielded rfl
        (goes_step hnext) hsim.read hsim.arriving rfl ?_ ?_ rfl⟩
      · rw [hconn]
        rfl
      · rw [parsed_frame]
        rfl

theorem Simulates.inbound {item : Option Message}
    (hsim : Simulates write fromStr h ls s tr t ltr)
    (hstep : s.step fromStr (.inbound h item) = some (s', es)) :
    ∃ t' ltr', Simulates write fromStr h (ls ++ [.inbound h item]) s' (tr ++ es) t' ltr' := by
  simp only [ServerState.step] at hstep
  split at hstep
  case h_2 => cases hstep
  case h_1 n hserving =>
      have hlive : s.conns h ≠ .gone := by simp [hserving]
      cases item with
      | none =>
          have hyielded : yielded [.inbound h none] h = [.error] := by simp [yielded]
          exact hsim.leave hlive rfl hstep hyielded (hsim.next hserving .error) rfl rfl
      | some msg =>
          cases msg with
          | text raw =>
              simp only [ServerState.processIncoming] at hstep
              split at hstep
              case h_1 request hparsed => exact hsim.request hserving hparsed hstep
              case h_2 hparsed =>
                  have hparams : (loopParams write fromStr h).fromStr raw = none := hparsed
                  cases hstep
                  refine hsim.ignore hserving ?_
                  simp only [LoopParams.onItem, LoopParams.processIncoming, hparams]
          | binary | ping | pong =>
              cases hstep
              exact hsim.ignore hserving rfl
          | close =>
              have hyielded : yielded [.inbound h (some .close)] h = [.ok .close] := by
                simp [yielded]
              have hleave : (s.incrementReceived h.peerId).leave h n = some (s', es) := hstep
              have happ : (s.incrementReceived h.peerId).app = s.app := rfl
              exact hsim.leave hlive happ hleave hyielded (hsim.next hserving (.ok .close))
                rfl rfl

/-- The connection goes on and its loop stays where it is. -/
theorem Simulates.still (hsim : Simulates write fromStr h ls s tr t ltr)
    (hlive : s.conns h ≠ .gone) (hchannels : s'.app.channels h = s.app.channels h)
    (hlive' : s'.conns h ≠ .gone) (hyielded : yielded [l] h = []) (hgiven : given es h = [])
    (hparsed : parsed es h = []) (hwritten : written es h = [])
    (hpc : InLoop write (s'.conns h) t.pc) :
    Simulates write fromStr h (ls ++ [l]) s' (tr ++ es) t ltr := by
  refine hsim.stay hyielded hgiven hparsed hwritten hpc ?_ ?_ fun hgone => absurd hgone hlive'
  · rw [hchannels]
    exact fun _ => hsim.queue hlive
  · rw [hchannels]
    exact iff_of_false (fun hclosed => hlive (hsim.closed.mp hclosed)) hlive'

/-- The connection ends, and its receiver is dropped. -/
theorem perform_close (hperform : s.perform (.close h) h .gone = some (s', es)) :
    s'.conns h = .gone ∧ s'.app.channels h = { queue := [], closed := true } ∧
      s'.app.calls = s.app.calls ∧ es = [] := by
  cases hperform
  simp [ServerState.setConn, AppState.setChannel]

theorem Simulates.resume (hsim : Simulates write fromStr h ls s tr t ltr)
    (hstep : s.step fromStr (.resume h) = some (s', es)) :
    ∃ t' ltr', Simulates write fromStr h (ls ++ [.resume h]) s' (tr ++ es) t' ltr' := by
  have hyielded : yielded [.resume h] h = [] := rfl
  have hpc := hsim.pc
  simp only [ServerState.step] at hstep
  split at hstep
  case h_1 hadding =>
      rw [hadding] at hpc
      split at hstep
      case h_1 =>
          cases hstep
          have hconn : (s.setConn h (.serving 1)).conns h = .serving 1 := by
            simp [ServerState.setConn]
          exact ⟨t, ltr, hsim.still (by simp [hadding]) rfl (by simp [hconn]) hyielded rfl rfl
            rfl (by rw [hconn]; exact hpc)⟩
      case h_2 e hcall =>
          obtain ⟨hconn, hchannel, hcalls, rfl⟩ := perform_close hstep
          refine ⟨t, ltr, hsim.stay hyielded rfl rfl rfl ?_ (absurd hconn) ?_ fun _ _ => ?_⟩
          · rw [hconn]
            exact Or.inr hpc
          · simp [hconn, hchannel]
          · exact ⟨e, by rw [hcalls]; exact hcall⟩
      case h_3 => cases hstep
  case h_2 n hdispatching =>
      split at hstep
      case isFalse => cases hstep
      case isTrue =>
          cases hstep
          rw [hdispatching] at hpc
          have hconn : (s.setConn h (.serving (n + 1))).conns h = .serving (n + 1) := by
            simp [ServerState.setConn]
          have hdispatched : (loopParams write fromStr h).step (t.extend [] []) .dispatched =
              some ({ t with pc := .select }, []) := by
            rw [extend_nil]
            simp only [LoopParams.step, show t.pc = .dispatching from hpc]
          refine ⟨_, _, hsim.inLoop (by simp [hdispatching]) rfl (by simp [hconn]) hyielded rfl
            (goes_step hdispatched) hsim.read hsim.arriving rfl ?_ rfl rfl⟩
          rw [hconn]
          rfl
  case h_3 n hremoving =>
      split at hstep
      case isFalse => cases hstep
      case isTrue =>
          obtain ⟨hconn, hchannel, -, rfl⟩ := perform_close hstep
          rw [hremoving] at hpc
          have hremove : (loopParams write fromStr h).step (t.extend [] []) .remove =
              some ({ t with pc := .returned }, [.removePeer h.peerId]) := by
            rw [extend_nil]
            simp only [LoopParams.step, show t.pc = .closing from hpc]
            rfl
          have hgiven : given ([] : List (ServerEvent PeerID)) h = [] := rfl
          refine ⟨_, _, hsim.go hyielded hgiven (goes_step hremove) hsim.read hsim.arriving ?_
            (absurd hconn) ?_ rfl rfl ?_⟩
          · rw [hconn]
            exact Or.inl rfl
          · simp [hconn, hchannel]
          · simp
  case h_4 => cases hstep

theorem Simulates.outbound (hsim : Simulates write fromStr h ls s tr t ltr)
    (hstep : s.step fromStr (.outbound h) = some (s', es)) :
    ∃ t' ltr', Simulates write fromStr h (ls ++ [.outbound h]) s' (tr ++ es) t' ltr' := by
  have hyielded : yielded [.outbound h] h = [] := rfl
  have hpc := hsim.pc
  simp only [ServerState.step] at hstep
  split at hstep
  case h_2 => cases hstep
  case h_1 n request queue hserving hqueue =>
      rw [hserving] at hpc
      have hlive : s.conns h ≠ .gone := by simp [hserving]
      simp only [ServerState.perform, AppState.step, hqueue, Option.map_some, Option.some.injEq,
        Prod.mk.injEq] at hstep
      obtain ⟨rfl, rfl⟩ := hstep
      have hgiven : given [.app (.received h request)] h = [] := rfl
      have hrecv : (loopParams write fromStr h).step (t.extend [] []) .recv =
          some ({ t with queue := queue, pc := .sending (write request) },
            [.received request]) := by
        rw [extend_nil]
        simp only [LoopParams.step, show t.pc = .select from hpc, ← hsim.queue hlive, hqueue]
        rfl
      refine ⟨_, _, hsim.go hyielded hgiven (goes_step hrecv) hsim.read hsim.arriving ?_
        (fun _ => ?_) ?_ rfl rfl ?_⟩
      · simp [ServerState.setConn, InLoop]
      · simp [ServerState.setConn, AppState.setChannel]
      · have hopen := hsim.closed
        simp only [hserving] at hopen
        simpa [ServerState.setConn, AppState.setChannel] using hopen
      · simp [ServerState.setConn]

theorem Simulates.written {ok : Bool} (hsim : Simulates write fromStr h ls s tr t ltr)
    (hstep : s.step fromStr (.written h ok) = some (s', es)) :
    ∃ t' ltr', Simulates write fromStr h (ls ++ [.written h ok]) s' (tr ++ es) t' ltr' := by
  have hyielded : yielded [.written h ok] h = [] := rfl
  have hpc := hsim.pc
  simp only [ServerState.step] at hstep
  split at hstep
  case h_2 => cases hstep
  case h_1 n request hwriting =>
      rw [hwriting] at hpc
      have hlive : s.conns h ≠ .gone := by simp [hwriting]
      split at hstep
      case isTrue hok =>
          subst hok
          cases hstep
          have hwrote : (loopParams write fromStr h).step (t.extend [] []) (.sent true) =
              some ({ t with pc := .select }, [.wrote (write request)]) := by
            rw [extend_nil]
            simp [LoopParams.step, show t.pc = .sending (write request) from hpc]
          have hconn : (s.setConn h (.serving n)).conns h = .serving n := by
            simp [ServerState.setConn]
          refine ⟨_, _, hsim.inLoop hlive rfl (by simp [hconn]) hyielded rfl (goes_step hwrote)
            hsim.read hsim.arriving rfl ?_ rfl ?_⟩
          · rw [hconn]
            rfl
          · simp [SfRs.Server.written]
            rfl
      case isFalse hok =>
          obtain rfl : ok = false := by simpa using hok
          have hfailed : (loopParams write fromStr h).step (t.extend [] []) (.sent false) =
              some ({ t with msgRecvTotal := t.msgRecvTotal, pc := .closing },
                [.writeFailed]) := by
            rw [extend_nil]
            simp [LoopParams.step, show t.pc = .sending (write request) from hpc]
          exact hsim.leave hlive rfl hstep hyielded hfailed rfl rfl

/-- The connection's own steps. -/
theorem Simulates.own (hsim : Simulates write fromStr h ls s tr t ltr)
    (hl : l.handler? = some h) (hstep : s.step fromStr l = some (s', es)) :
    ∃ t' ltr', Simulates write fromStr h (ls ++ [l]) s' (tr ++ es) t' ltr' := by
  cases l with
  | accept =>
      cases hl
      have hpc := hsim.pc
      simp only [ServerState.step] at hstep
      split at hstep
      case isTrue haccept =>
          obtain ⟨hconns, hchannels, rfl⟩ := perform_call hstep
          have hconn : s'.conns h = .adding := by rw [hconns, Function.update_self]
          rw [haccept.1] at hpc
          exact ⟨t, ltr, hsim.still (by simp [haccept.1]) (by rw [hchannels]) (by simp [hconn])
            rfl rfl rfl rfl (by rw [hconn]; exact hpc)⟩
      case isFalse => cases hstep
  | advance =>
      cases hl
      have hpc := hsim.pc
      simp only [ServerState.step] at hstep
      split at hstep
      case h_1 n hcurrent =>
          have hlive : s.conns h ≠ .gone := by
            intro hgone
            simp [hgone, ConnState.currentCall] at hcurrent
          obtain ⟨aes, hsteps, hconns, rfl⟩ := perform_eq_some hstep
          rw [Function.update_eq_self] at hconns
          generalize happ : s'.app = app at hsteps
          cases hsteps with
          | advance _ _ _ hadvance =>
              obtain ⟨hchannels, hquiet, -⟩ := hadvance.frame
              exact ⟨t, ltr, hsim.still hlive (by rw [happ, hchannels]) (by rwa [hconns]) rfl
                (given_map_app hquiet h) (parsed_map_app _ h) (written_map_app _ h)
                (by rw [hconns]; exact hpc)⟩
      case h_2 => cases hstep
  | resume =>
      cases hl
      exact hsim.resume hstep
  | inbound =>
      cases hl
      exact hsim.inbound hstep
  | outbound =>
      cases hl
      exact hsim.outbound hstep
  | written =>
      cases hl
      exact hsim.written hstep
  | runTask => cases hl

theorem Simulates.step (hsim : Simulates write fromStr h ls s tr t ltr)
    (hstep : s.step fromStr l = some (s', es)) :
    ∃ t' ltr', Simulates write fromStr h (ls ++ [l]) s' (tr ++ es) t' ltr' := by
  cases hl : l.handler? with
  | none =>
      cases l with
      | runTask => exact hsim.runTask hstep
      | _ => cases hl
  | some g =>
      by_cases hg : g = h
      · subst hg
        exact hsim.own hl hstep
      · have hyielded : yielded [l] h = [] := by
          cases l with
          | inbound => cases hl; simp [yielded, hg]
          | _ => rfl
        have hapart := apart_of_connSteps (connSteps_of_step hl hstep) (Ne.symm hg)
        exact ⟨t, ltr, hsim.apart hyielded hapart⟩

/-- In every run of the server, what a connection does is a run of the loop. -/
theorem run_simulates (hrun : (server fromStr).Run ls s tr)
    (write : PeerRequest PeerID → String) (h : PeerHandler PeerID) :
    ∃ t ltr, Simulates write fromStr h ls s tr t ltr := by
  induction hrun with
  | nil =>
      refine ⟨_, [], ⟨[], .nil⟩, rfl, rfl, rfl, fun _ => rfl, ?_, rfl, rfl, ?_⟩
      · simp [server, ServerState.init, AppState.init]
      · intro hgone
        cases hgone
  | snoc _ hstep ih =>
      obtain ⟨t, ltr, hsim⟩ := ih
      exact hsim.step hstep

/-- What a connection does with what it is given. -/
structure ConnServed (write : PeerRequest PeerID → String)
    (fromStr : String → Option (PeerRequest PeerID)) (h : PeerHandler PeerID)
    (ls : List (ServerAction PeerID)) (s : ServerState PeerID) (tr : List (ServerEvent PeerID)) :
    Prop where
  written : (written tr h).map write <+: (given tr h).map write
  calls : (parsed tr h).map (loopParams write fromStr h).callFor =
    (yielded ls h).filterMap (loopParams write fromStr h).callOf
  ends : ∀ pre item post, yielded ls h = pre ++ item :: post → item.Stops →
    post = [] ∧ ((∃ n, s.conns h = .removing n) ∨ s.conns h = .gone)

theorem Simulates.left (hsim : Simulates write fromStr h ls s tr t ltr)
    (hleft : t.pc = .closing ∨ t.pc = .returned) :
    (∃ n, s.conns h = .removing n) ∨ s.conns h = .gone := by
  have hpc := hsim.pc
  cases hconn : s.conns h with
  | removing n => exact Or.inl ⟨n, rfl⟩
  | gone => exact Or.inr rfl
  | _ =>
      simp only [hconn, InLoop] at hpc
      simp [hpc] at hleft

/-- In every run of the server and for every connection: the requests written are the first
that its channel was given, the calls are those of the items its socket yielded, and the
first item that ends the loop is the last one. -/
theorem run_connServed (hrun : (server fromStr).Run ls s tr)
    (write : PeerRequest PeerID → String) (h : PeerHandler PeerID) :
    ConnServed write fromStr h ls s tr := by
  obtain ⟨t, ltr, hsim⟩ := run_simulates hrun write h
  obtain ⟨ks, hloop⟩ := hsim.reached
  have hreader := readerSide_of_run hloop
  have hleaves := leaves_of_run hloop
  have hconsumed : consumed ltr = yielded ls h := by
    simpa [hsim.read] using hreader.inbound
  constructor
  · obtain ⟨sent, hsent, htexts⟩ := exists_sent (writerSide_of_run hloop)
    have htexts' : (sent.map write).map some = ((SfRs.Server.written tr h).map write).map some := by
      rw [← hsim.frames, ← htexts, List.map_map]
      rfl
    rw [← List.map_injective_iff.mpr (Option.some_injective _) htexts']
    exact hsent.map write
  · rw [← hsim.calls, hreader.calls, hconsumed]
  · intro pre item post hyielded hstops
    rw [← hconsumed] at hyielded
    obtain ⟨ltr₁, ltr₂, rfl, -, hrest⟩ := List.filterMap_eq_append_iff.mp hyielded
    obtain ⟨quiet, e, ltr₃, rfl, -, he, hpost⟩ := List.filterMap_eq_cons_iff.mp hrest
    obtain rfl : e = .next item := by
      cases e with
      | next item' => exact congrArg _ (Option.some.inj he)
      | _ => cases he
    have hnext : (.next item : LoopEvent PeerID).Stops := hstops
    have hafter := hleaves.after (List.append_assoc ltr₁ quiet _).symm hnext
    refine ⟨?_, hsim.left (hleaves.exits_iff.mpr ⟨.next item, by simp, hstops⟩)⟩
    rw [← hpost]
    refine List.filterMap_eq_nil_iff.mpr fun e he => ?_
    rw [hafter e he]

end Simulation

end SfRs.Server
