import M4KK1.Copland.Callbacks

/-!
# The answers to frame callbacks

A frame never learns whether a ring took its events, and the rings test against `req_head`.
-/

namespace M4KK1.Copland

open M4KK1.Lib Function List

variable {c : Compositor} {i : Fin cpMaxClients}

/-- The compositor, the connection block of every client, and `cp_scratch`. -/
structure Session where
  comp : Compositor
  conns : Fin cpMaxClients → Conn
  scratch : CArray UInt8 cpMsgMax

namespace Session

/-- What a call on behalf of one client sees. -/
def link (s : Session) (i : Fin cpMaxClients) : Link := ⟨s.conns i, s.scratch⟩

/-- What such a call leaves behind. -/
def withLink (s : Session) (i : Fin cpMaxClients) (link : Link) : Session :=
  { s with conns := update s.conns i link.conn, scratch := link.scratch }

/-- The `cp_evt_send` calls of a frame, with the events that the rings took. -/
@[simp] def sendAll (s : Session) : List (Fin cpMaxClients × Event) →
    Except Fault (Session × List (Fin cpMaxClients × Event))
  | [] => .ok (s, [])
  | (i, event) :: rest => do
    let (link, message) ← emit (s.link i) event.obj event.opcode event.fields
    let (s, sent) ← sendAll (s.withLink i link) rest
    .ok (s, if message.isSome then (i, event) :: sent else sent)

/-- `cp_compositor_frame`. Rings change nothing in the compositor, so it sends its events last. -/
def frame (s : Session) : Except Fault (Session × List (Fin cpMaxClients × Event)) :=
  let (comp, _, events) := cpCompositorFrame s.comp
  sendAll { s with comp := comp } events

/-- `cp_compositor_dispatch` for one client. -/
def dispatch (s : Session) (i : Fin cpMaxClients) : Except Fault Session := do
  let (comp, link, _) ← cpCompositorDispatch s.comp i (s.link i)
  .ok { s.withLink i link with comp := comp }

end Session

/-- What happens, with the callbacks that entered the table and the events the rings took. -/
inductive Occurrence where
  | dispatched (i : Fin cpMaxClients) (ids : List Nat)
  | framed (sent : List (Fin cpMaxClients × Event))
  | exchanged (i : Fin cpMaxClients)

/-- One call, by the compositor or by a client on its own rings. -/
inductive SessionStep : Session → Occurrence → Session → Prop where
  | dispatch {s next : Session} {i : Fin cpMaxClients} (returned : s.dispatch i = .ok next) :
      SessionStep s (.dispatched i (entered s.comp.callbacks next.comp.callbacks)) next
  | frame {s next : Session} {sent : List (Fin cpMaxClients × Event)}
      (returned : s.frame = .ok (next, sent)) : SessionStep s (.framed sent) next
  | read {s : Session} {i : Fin cpMaxClients} {cap : Nat} {link : Link}
      {message : Option (List UInt8)} (returned : readEvent (s.link i) cap = .ok (link, message)) :
      SessionStep s (.exchanged i) (s.withLink i link)
  | write {s : Session} {i : Fin cpMaxClients} {request : List UInt8} {link : Link}
      {message : Option (List UInt8)}
      (returned : writeRequest (s.link i) request = .ok (link, message)) :
      SessionStep s (.exchanged i) (s.withLink i link)

/-- The test of `cp_ring_write` lets a 12-byte event for each callback into its client's ring. -/
def Takes (conns : Fin cpMaxClients → Conn) (callbacks : List (Fin cpMaxClients × Nat)) : Prop :=
  ∀ i n, n < (callbacks.map Prod.fst).count i →
    cpRingAccepts { (conns i).sendView with tail := add32 (conns i).evtTail (12 * n) } 12

/-- A frame finds room, by the ring's own test, for the callbacks it fires. -/
def FrameTaken (s : Session) : Occurrence → Prop
  | .framed _ => Takes s.conns (awaited s.comp)
  | _ => True

/-- The callbacks accepted since the last frame. -/
def awaitedAfter (start : List (Fin cpMaxClients × Nat)) (labels : List Occurrence) :
    List (Fin cpMaxClients × Nat) :=
  labels.foldl
    (fun waiting label =>
      match label with
      | .dispatched i ids => waiting ++ ids.map (i, ·)
      | .framed _ => []
      | .exchanged _ => waiting)
    start

def sentSerials (labels : List Occurrence) : List Nat :=
  labels.flatMap fun label =>
    match label with
    | .framed sent => sent.map fun entry => entry.2.serial
    | _ => []

/-- Each frame sends one event for each callback accepted since the last one, to who asked. -/
structure Answered (start : Compositor) (labels : List Occurrence) : Prop where
  once : ∀ prior sent rest, labels = prior ++ .framed sent :: rest →
    (sent.map fun entry => (entry.1, entry.2.obj)).Perm (awaitedAfter (awaited start) prior)
  done : ∀ sent, .framed sent ∈ labels → ∀ entry ∈ sent,
    entry.2 = callbackDone entry.2.obj entry.2.serial
  increasing : start.serial + (sentSerials labels).length < 4294967296 →
    (sentSerials labels).Pairwise (· < ·)

/-- A `CP_CALLBACK_DONE` event as it is spelled. -/
def doneBytes (cb serial : Nat) : List UInt8 :=
  headerOf cb 0 12 ++ [byteOf serial 0, byteOf serial 1, byteOf serial 2, byteOf serial 3]

def bytesTo (i : Fin cpMaxClients) (events : List (Fin cpMaxClients × Event)) : List UInt8 :=
  (events.filter fun entry => entry.1 = i).flatMap fun entry =>
    doneBytes entry.2.obj entry.2.serial

theorem emit_done {link : Link} (valid : link.conn.Valid) (cb serial : Nat) :
    ∃ scratch : CArray UInt8 cpMsgMax, (¬ cpRingAccepts link.conn.sendView 12 ∧
        emit link cb 0 [.u32 serial] = .ok ({ link with scratch := scratch }, none)) ∨
      (cpRingAccepts link.conn.sendView 12 ∧
        ∃ data, Stored link.conn.evtData data link.conn.evtTail scratch 0 12 ∧
          scratch.take 12 = doneBytes cb serial ∧
          emit link cb 0 [.u32 serial] =
            .ok ({ conn := { link.conn with
                      evtTail := add32 link.conn.evtTail 12, evtData := data },
                   scratch := scratch }, some (doneBytes cb serial))) := by
  obtain ⟨m, scratch, puts, -, header, body, outcome⟩ := emit_spec valid cb 0 [.u32 serial]
  rw [putFields, putField, cpPutU32_fits small_cpMsgMax serial (show 12 ≤ 4088 by decide), ok_bind,
    putFields] at puts
  have shape := Except.ok.inj puts
  have length : m.len = 12 := by rw [← shape]; rfl
  have spelled : scratch.take m.len = doneBytes cb serial := by
    have split : scratch.take 12 = scratch.take 8 ++ (List.range 4).map
        (fun index => scratch.cell (8 + index)) := rfl
    have payload : (List.range 4).map (fun index => scratch.cell (8 + index)) =
        (List.range 4).map (fun index => m.b.cell (8 + index)) :=
      map_congr_left fun index _ => body (8 + index) (Nat.le_add_right _ _)
    rw [length, split, header, payload, ← shape]
    rfl
  rw [length] at outcome spelled
  refine ⟨scratch, outcome.imp id ?_⟩
  rintro ⟨accepted, data, stored, done⟩
  rw [spelled] at done
  exact ⟨accepted, data, stored, spelled, done⟩

namespace Session

variable {s : Session}

/-- Every connection block is as `cp_client_conn_init` and the rings leave it. -/
def Valid (s : Session) : Prop := ∀ i, (s.conns i).Valid

theorem Valid.withLink (valid : s.Valid) {link : Link} (stays : link.conn.Valid) :
    (s.withLink i link).Valid := by
  intro j
  simp only [Session.withLink]
  by_cases here : j = i
  · rw [here, update_self]
    exact stays
  · rw [update_of_ne here]
    exact valid j

structure Sends (s : Session) (events : List (Fin cpMaxClients × Event)) (next : Session) :
    Prop where
  comp : next.comp = s.comp
  valid : next.Valid
  delivered : ∀ i bytes, Pending (s.conns i).events bytes →
    bytes.length + 12 * (events.map Prod.fst).count i ≤ cpRingSize →
    Pending (next.conns i).events (bytes ++ bytesTo i events)

theorem withLink_self {link : Link} : (s.withLink i link).conns i = link.conn :=
  update_self _ _ _

theorem withLink_other {link : Link} {j : Fin cpMaxClients} (other : j ≠ i) :
    (s.withLink i link).conns j = s.conns j :=
  update_of_ne other _ _

theorem takes_rest {link : Link} {cb : Nat} {rest : List (Fin cpMaxClients × Nat)}
    (takes : Takes s.conns ((i, cb) :: rest)) (reqHead : link.conn.reqHead = (s.conns i).reqHead)
    (size : link.conn.evtSize = (s.conns i).evtSize)
    (moved : link.conn.evtTail = add32 (s.conns i).evtTail 12) :
    Takes (s.withLink i link).conns rest := by
  intro j n few
  by_cases here : j = i
  · subst here
    have later := takes j (n + 1) (by
      rw [map_cons, count_cons_self]
      omega)
    have tail : add32 (add32 (s.conns j).evtTail 12) (12 * n) =
        add32 (s.conns j).evtTail (12 * (n + 1)) := by
      unfold add32
      omega
    rw [withLink_self, moved, tail]
    simpa only [cpRingAccepts, cpRingUsed, Conn.sendView, reqHead, size] using later
  · rw [withLink_other here]
    exact takes j n (by
      rw [map_cons, count_cons_of_ne (Ne.symm here)]
      exact few)

theorem sendAll_done {serial : Nat} {callbacks : List (Fin cpMaxClients × Nat)} (valid : s.Valid)
    (takes : Takes s.conns callbacks) :
    ∃ next, s.sendAll (doneEvents serial callbacks) = .ok (next, doneEvents serial callbacks) ∧
      s.Sends (doneEvents serial callbacks) next := by
  induction callbacks generalizing s serial with
  | nil =>
    refine ⟨s, rfl, rfl, valid, fun i bytes pending _ => ?_⟩
    simpa [doneEvents, bytesTo] using pending
  | cons entry rest ih =>
    obtain ⟨i, cb⟩ := entry
    obtain ⟨requests, events⟩ := valid i
    have accepted : cpRingAccepts (s.link i).conn.sendView 12 := by
      have first := takes i 0 (by simp)
      rw [Nat.mul_zero, add32_eq (show (s.conns i).evtTail + 0 < 4294967296 from events.tail)]
        at first
      exact first
    obtain ⟨scratch, outcome⟩ :=
      @emit_done (s.link i) ⟨requests, events⟩ cb (add32 serial 1)
    obtain ⟨-, data, stored, spelled, sent⟩ :=
      outcome.resolve_left fun refused => refused.1 accepted
    let link : Link := ⟨{ s.conns i with
      evtTail := add32 (s.conns i).evtTail 12, evtData := data }, scratch⟩
    have stays : link.conn.Valid :=
      ⟨requests, events.whole, events.ring, events.head, add32_lt _ _⟩
    obtain ⟨next, rested, comp, nextValid, delivered⟩ := @ih _ (add32 serial 1)
      (valid.withLink (i := i) stays) (@takes_rest _ _ link _ _ takes rfl rfl rfl)
    refine ⟨next, ?_, comp, nextValid, fun j bytes pending room => ?_⟩
    · rw [doneEvents, sendAll, callbackDone, sent, ok_bind]
      exact (congrArg (· >>= _) rested).trans rfl
    rw [doneEvents, map_cons] at room
    by_cases here : j = i
    · subst here
      rw [count_cons_self] at room
      have first := pending.store events (by omega) stored
      rw [spelled] at first
      have later := delivered j (bytes ++ doneBytes cb (add32 serial 1)) (by
        rw [withLink_self]
        exact first) (by
        rw [length_append]
        have : (doneBytes cb (add32 serial 1)).length = 12 := rfl
        omega)
      simpa [doneEvents, bytesTo, callbackDone, Event.serial] using later
    · rw [count_cons_of_ne (Ne.symm here)] at room
      have later := delivered j bytes (by
        rw [withLink_other here]
        exact pending) room
      simpa [doneEvents, bytesTo, Ne.symm here] using later

theorem sendAll_total (valid : s.Valid) (events : List (Fin cpMaxClients × Event)) :
    ∃ next sent, s.sendAll events = .ok (next, sent) ∧ next.comp = s.comp ∧ next.Valid := by
  induction events generalizing s with
  | nil => exact ⟨s, [], rfl, rfl, valid⟩
  | cons entry rest ih =>
    obtain ⟨i, event⟩ := entry
    obtain ⟨link, message, sent, stays⟩ :=
      @perform_total (s.link i) (valid i) (.emit event.obj event.opcode event.fields)
    obtain ⟨next, later, rested, comp, nextValid⟩ := ih (valid.withLink (i := i) stays)
    refine ⟨next, if message.isSome then (i, event) :: later else later, ?_, comp, nextValid⟩
    rw [sendAll, show emit (s.link i) _ _ _ = _ from sent, ok_bind]
    dsimp only
    rw [rested]
    rfl

theorem sendAll_refused {serial : Nat} {callbacks : List (Fin cpMaxClients × Nat)}
    (valid : s.Valid) (own : ∀ entry ∈ callbacks, entry.1 = i)
    (refused : ¬ cpRingAccepts (s.conns i).sendView 12) :
    ∃ next, s.sendAll (doneEvents serial callbacks) = .ok (next, []) ∧ next.comp = s.comp ∧
      next.conns = s.conns := by
  induction callbacks generalizing s serial with
  | nil => exact ⟨s, rfl, rfl, rfl⟩
  | cons entry rest ih =>
    obtain ⟨j, cb⟩ := entry
    obtain ⟨rfl, own⟩ := forall_mem_cons.mp own
    obtain ⟨scratch, ⟨-, dropped⟩ | ⟨accepted, -⟩⟩ :=
      @emit_done (s.link j) (valid j) cb (add32 serial 1)
    · obtain ⟨next, rested, comp, conns⟩ := @ih (s.withLink j ⟨s.conns j, scratch⟩)
        (add32 serial 1) (valid.withLink (valid j)) own (by rwa [withLink_self])
      refine ⟨next, ?_, comp, conns.trans (update_eq_self j s.conns)⟩
      rw [doneEvents, sendAll, callbackDone, dropped, ok_bind]
      exact (congrArg (· >>= _) rested).trans rfl
    · exact absurd accepted refused

theorem deliver_total {link : Link} (valid : link.conn.Valid) (events : List Event) :
    ∃ next, deliver link events = .ok next ∧ next.conn.Valid := by
  induction events generalizing link with
  | nil => exact ⟨link, rfl, valid⟩
  | cons event rest ih =>
    obtain ⟨middle, message, sent, stays⟩ :=
      perform_total valid (.emit event.obj event.opcode event.fields)
    obtain ⟨next, delivered, nextValid⟩ := ih stays
    refine ⟨next, ?_, nextValid⟩
    rw [deliver, show emit link _ _ _ = _ from sent, ok_bind]
    exact delivered

theorem cpCompositorDispatch_total {link : Link} (valid : link.conn.Valid) (c : Compositor)
    (i : Fin cpMaxClients) :
    ∃ comp next rc, cpCompositorDispatch c i link = .ok (comp, next, rc) ∧ next.conn.Valid := by
  obtain ⟨scratch, rc, head, small, read⟩ := cpRingRead_total valid.requests link.scratch
  have stays : Conn.Valid { link.conn with reqHead := head } :=
    ⟨{ valid.requests with head := small }, valid.events⟩
  unfold cpCompositorDispatch
  split
  · exact ⟨c, link, 0, rfl, valid⟩
  rw [read, ok_bind]
  dsimp only
  split
  · exact ⟨c, _, rc, rfl, stays⟩
  have word : headerObj scratch = .ok (messageWord scratch 0).toNat :=
    wordAt_messageWord (by decide)
  have code : headerOpcode scratch =
      .ok ((scratch.cell 4).toNat ||| (scratch.cell 5).toNat <<< 8) := by
    rw [headerOpcode, CArray.read_eq (by decide), ok_bind, CArray.read_eq (by decide), ok_bind]
  rw [word, ok_bind, code, ok_bind]
  generalize (⟨_, _, messageWords scratch rc.toNat⟩ : Request) = req
  obtain ⟨next, delivered, nextValid⟩ := @deliver_total
    ⟨{ link.conn with reqHead := head }, scratch⟩ stays (dispatchRequest c i req).2.1
  refine ⟨(dispatchRequest c i req).1, next, (dispatchRequest c i req).2.2, ?_, nextValid⟩
  exact (congrArg (· >>= _) delivered).trans rfl

theorem dispatch_total (valid : s.Valid) (i : Fin cpMaxClients) :
    ∃ next, s.dispatch i = .ok next ∧ next.Valid ∧
      (next.comp = s.comp ∨ ∃ req, CompositorStep s.comp (.request i req) next.comp) := by
  obtain ⟨comp, link, rc, returned, stays⟩ :=
    @cpCompositorDispatch_total (s.link i) (valid i) s.comp i
  refine ⟨{ s.withLink i link with comp := comp }, ?_, valid.withLink stays,
    cpCompositorDispatch_step returned⟩
  rw [dispatch, returned, ok_bind]

theorem frame_total (valid : s.Valid) :
    ∃ next sent, s.frame = .ok (next, sent) ∧ next.comp = (cpCompositorFrame s.comp).1 ∧
      next.Valid :=
  sendAll_total (s := { s with comp := (cpCompositorFrame s.comp).1 }) valid
    (cpCompositorFrame s.comp).2.2

theorem frame_done (valid : s.Valid) (takes : Takes s.conns (awaited s.comp)) :
    ∃ next, s.frame = .ok (next, doneEvents s.comp.serial (awaited s.comp)) ∧
      next.comp = (cpCompositorFrame s.comp).1 ∧ next.Valid ∧
      ∀ i bytes, Pending (s.conns i).events bytes →
        bytes.length + 12 * ((awaited s.comp).map Prod.fst).count i ≤ cpRingSize →
        Pending (next.conns i).events (bytes ++
          bytesTo i (doneEvents s.comp.serial (awaited s.comp))) := by
  obtain ⟨next, returned, comp, nextValid, delivered⟩ := @sendAll_done
    { s with comp := (cpCompositorFrame s.comp).1 } s.comp.serial _ valid takes
  refine ⟨next, ?_, comp, nextValid, fun i bytes pending room => ?_⟩
  · rw [← returned, frame, ← frame_events]
  · refine delivered i bytes pending ?_
    rw [doneEvents_clients]
    exact room

end Session

/-- What the events of a frame do to the ring of a client that has room for them. -/
def Delivers (s : Session) (label : Occurrence) (next : Session) : Prop :=
  match label with
  | .framed sent => ∀ i bytes, Pending (s.conns i).events bytes →
      bytes.length + 12 * (sent.map Prod.fst).count i ≤ cpRingSize →
      Pending (next.conns i).events (bytes ++ bytesTo i sent)
  | _ => True

theorem awaitedAfter_snoc (start : List (Fin cpMaxClients × Nat)) (labels : List Occurrence)
    (label : Occurrence) :
    awaitedAfter start (labels ++ [label]) = awaitedAfter (awaitedAfter start labels) [label] :=
  foldl_append

theorem sentSerials_append (prior rest : List Occurrence) :
    sentSerials (prior ++ rest) = sentSerials prior ++ sentSerials rest :=
  flatMap_append

/-- What a run whose frames find room keeps. -/
structure Progress (start : Compositor) (labels : List Occurrence) (s : Session) : Prop where
  valid : s.Valid
  reachable : Reachable s.comp
  awaits : (awaited s.comp).Perm (awaitedAfter (awaited start) labels)
  serial : s.comp.serial % 4294967296 =
    (start.serial + (sentSerials labels).length) % 4294967296
  serials : sentSerials labels = (List.range (sentSerials labels).length).map
    fun index => (start.serial + index + 1) % 4294967296
  once : ∀ prior sent rest, labels = prior ++ .framed sent :: rest →
    (sent.map fun entry => (entry.1, entry.2.obj)).Perm (awaitedAfter (awaited start) prior)
  done : ∀ sent, .framed sent ∈ labels → ∀ entry ∈ sent,
    entry.2 = callbackDone entry.2.obj entry.2.serial

theorem snoc_split {labels prior rest : List Occurrence} {last label : Occurrence}
    (split : labels ++ [last] = prior ++ label :: rest) :
    (prior = labels ∧ label = last) ∨ ∃ before, labels = prior ++ label :: before := by
  rcases rest.eq_nil_or_concat with rfl | ⟨before, final, rfl⟩
  · obtain ⟨same, isLast⟩ := append_inj' split rfl
    exact .inl ⟨same.symm, (List.cons.inj isLast).1.symm⟩
  · rw [concat_eq_append, ← cons_append, ← append_assoc] at split
    exact .inr ⟨before, (append_inj' split rfl).1⟩

namespace Progress

variable {start : Compositor} {labels : List Occurrence} {s next : Session}

section

variable (progress : Progress start labels s)

include progress

theorem quiet {label : Occurrence} (silent : ∀ sent, label ≠ .framed sent) (valid : next.Valid)
    (reachable : Reachable next.comp) (serial : next.comp.serial = s.comp.serial)
    (awaits : (awaited next.comp).Perm (awaitedAfter (awaited s.comp) [label])) :
    Progress start (labels ++ [label]) next := by
  have sent : sentSerials (labels ++ [label]) = sentSerials labels := by
    cases label with
    | dispatched i ids => simp [sentSerials]
    | framed sent => exact absurd rfl (silent sent)
    | exchanged i => simp [sentSerials]
  refine ⟨valid, reachable, ?_, ?_, ?_, fun prior sent rest split => ?_, fun sent member => ?_⟩
  · rw [awaitedAfter_snoc]
    refine awaits.trans ?_
    cases label with
    | dispatched i ids => exact progress.awaits.append_right _
    | framed sent => exact .refl _
    | exchanged i => exact progress.awaits
  · rw [sent, serial]
    exact progress.serial
  · rw [sent]
    exact progress.serials
  · rcases snoc_split split with ⟨-, framed⟩ | ⟨before, split⟩
    · exact absurd framed.symm (silent sent)
    · exact progress.once prior sent before split
  · refine progress.done sent ((mem_append.mp member).resolve_right fun last => ?_)
    exact silent sent (mem_singleton.mp last).symm

theorem frame (takes : Takes s.conns (awaited s.comp))
    {sent : List (Fin cpMaxClients × Event)} (returned : s.frame = .ok (next, sent)) :
    Progress start (labels ++ [.framed sent]) next := by
  obtain ⟨other, alsoReturned, comp, valid, -⟩ := Session.frame_done progress.valid takes
  obtain ⟨rfl, rfl⟩ : next = other ∧ sent = doneEvents s.comp.serial (awaited s.comp) := by
    simpa using returned.symm.trans alsoReturned
  have newSerials : sentSerials [.framed (doneEvents s.comp.serial (awaited s.comp))] =
      (List.range (awaited s.comp).length).map
        fun index => (s.comp.serial + index + 1) % 4294967296 := by
    rw [← doneEvents_serials]
    exact append_nil _
  have count :
    (sentSerials (labels ++ [.framed (doneEvents s.comp.serial (awaited s.comp))])).length =
      (sentSerials labels).length + (awaited s.comp).length := by
    rw [sentSerials_append, newSerials]
    simp
  have serial := progress.serial
  refine ⟨valid, ?_, ?_, ?_, ?_, fun prior sent rest split => ?_, fun sent member => ?_⟩
  · rw [comp]
    exact progress.reachable.step .frame
  · rw [comp, awaited_frame (waiting_of_reachable progress.reachable), awaitedAfter_snoc]
    exact .refl _
  · have fired : (cpCompositorFrame s.comp).2.2.length = (awaited s.comp).length := by
      rw [frame_events, ← length_map (f := Prod.fst), doneEvents_clients, length_map]
    rw [comp, frame_serial, fired, count]
    omega
  · rw [count, range_add, map_append, ← progress.serials, sentSerials_append, newSerials, map_map]
    refine congrArg (sentSerials labels ++ ·) (map_congr_left fun index _ => ?_)
    simp only [comp_apply]
    omega
  · rcases snoc_split split with ⟨rfl, framed⟩ | ⟨before, split⟩
    · cases framed
      rw [doneEvents_callbacks]
      exact progress.awaits
    · exact progress.once prior sent before split
  · rcases mem_append.mp member with old | last
    · exact progress.done sent old
    · cases mem_singleton.mp last
      exact doneEvents_done _ _

theorem step {label : Occurrence} (transition : Guarded SessionStep FrameTaken s label next) :
    Progress start (labels ++ [label]) next := by
  obtain ⟨taken, transition⟩ := transition
  have wired := wired_of_reachable progress.reachable
  -- a client's own call
  have exchange : ∀ {i : Fin cpMaxClients} (action : Action) {link : Link}
      {message : Option (List UInt8)}, Copland.perform (s.link i) action = .ok (link, message) →
      Progress start (labels ++ [.exchanged i]) (s.withLink i link) := by
    intro i action link message returned
    obtain ⟨other, same, alsoReturned, stays⟩ :=
      @perform_total (s.link i) (progress.valid i) action
    obtain ⟨rfl, -⟩ : link = other ∧ message = same := by
      simpa using returned.symm.trans alsoReturned
    exact progress.quiet (fun _ => nofun) (progress.valid.withLink stays) progress.reachable rfl
      (.refl _)
  cases transition with
  | @dispatch _ i returned =>
    obtain ⟨other, alsoReturned, valid, served⟩ := Session.dispatch_total progress.valid i
    obtain rfl : other = next := Except.ok.inj (alsoReturned.symm.trans returned)
    rcases served with same | ⟨req, transition⟩
    · have none : entered s.comp.callbacks other.comp.callbacks = [] := by
        refine filterMap_eq_nil_iff.mpr fun k _ => if_neg ?_
        rw [same]
        exact fun both => both.2 both.1
      refine progress.quiet (fun _ => nofun) valid (same ▸ progress.reachable)
        (congrArg Compositor.serial same) ?_
      rw [none, same]
      exact .of_eq (append_nil _).symm
    · have serial : other.comp.serial = s.comp.serial := by
        generalize other.comp = c at transition
        cases transition with
        | request active => exact dispatch_serial (dispatch_enters s.comp i req)
      exact progress.quiet (fun _ => nofun) valid (progress.reachable.step transition) serial
        (awaited_request wired transition)
  | frame returned => exact progress.frame taken returned
  | @read i cap _ _ returned => exact exchange (.readEvent cap) returned
  | @write i request _ _ returned => exact exchange (.writeRequest request) returned

theorem answered : Answered start labels := by
  refine ⟨progress.once, progress.done, fun noWrap => ?_⟩
  rw [progress.serials, pairwise_map]
  refine pairwise_lt_range.imp_of_mem fun {first second} _ inside ordered => ?_
  have := mem_range.mp inside
  omega

end

end Progress

theorem progress_of_run {start final : Session} {labels : List Occurrence} (valid : start.Valid)
    (reachable : Reachable start.comp)
    (run : Steps (Guarded SessionStep FrameTaken) start labels final) :
    Progress start.comp labels final :=
  run.history (Progress start.comp) (fun _ _ _ _ progress transition => progress.step transition)
    ⟨valid, reachable, .refl _, rfl, rfl, fun prior sent rest split => by simp at split,
      fun sent member => absurd member not_mem_nil⟩

/-- When frames find room, each accepted callback is answered once, at the next frame. -/
theorem callbacks_answered {start final : Session} {labels : List Occurrence}
    (reachable : Reachable start.comp) (valid : start.Valid)
    (run : Steps (Guarded SessionStep FrameTaken) start labels final) :
    Answered start.comp labels ∧
      Throughout (Guarded SessionStep FrameTaken) Delivers start labels ∧
      (∀ i, ∃ next, final.dispatch i = .ok next) ∧
      ∃ next sent, final.frame = .ok (next, sent) := by
  have progress := progress_of_run valid reachable run
  refine ⟨progress.answered, ?_, fun i => ?_, ?_⟩
  · intro prior label rest before after _ run transition
    obtain ⟨taken, transition⟩ := transition
    cases transition with
    | @frame _ sent returned =>
      obtain ⟨next, alsoReturned, -, -, delivered⟩ :=
        Session.frame_done (progress_of_run valid reachable run).valid taken
      obtain ⟨rfl, rfl⟩ : after = next ∧ sent =
          doneEvents before.comp.serial (awaited before.comp) := by
        simpa using returned.symm.trans alsoReturned
      intro i bytes pending room
      rw [doneEvents_clients] at room
      exact delivered i bytes pending room
    | dispatch => trivial
    | read => trivial
    | write => trivial
  · obtain ⟨next, returned, -, -⟩ := Session.dispatch_total progress.valid i
    exact ⟨next, returned⟩
  · obtain ⟨next, sent, returned, -, -⟩ := Session.frame_total progress.valid
    exact ⟨next, sent, returned⟩

/-- A `CP_DISPLAY_SYNC` request with the callback id 9. -/
def syncRequest : List UInt8 := headerOf 1 0 12 ++ [9, 0, 0, 0]

theorem syncRequest_isMessage : IsMessage syncRequest := by
  refine ⟨?_, ?_, ?_, rfl, rfl⟩ <;> simp [syncRequest, headerOf]

def freshSession : Session :=
  { comp := twoClients, conns := fun _ => cpClientConnInit blankConn, scratch := CArray.fill 0 }

/-- The compositor after so many of these requests of the first client. -/
def synced (count : Nat) : Compositor := (fun c => addCallback c 0 9 0)^[count] twoClients

/-- What the first client's connection is after so many of its requests. -/
structure Asked (count : Nat) (s : Session) : Prop where
  comp : s.comp = synced count
  valid : s.Valid
  reqHead : (s.conns 0).reqHead = 12 * count % 4294967296
  reqTail : (s.conns 0).reqTail = (s.conns 0).reqHead
  evtHead : (s.conns 0).evtHead = 0
  evtTail : (s.conns 0).evtTail = 0

theorem synced_rest (count : Nat) : ∃ callbacks,
    synced count = { twoClients with callbacks := callbacks } := by
  induction count with
  | zero => exact ⟨twoClients.callbacks, rfl⟩
  | succ count ih =>
    obtain ⟨callbacks, same⟩ := ih
    rw [synced, iterate_succ_apply', ← synced, same]
    unfold addCallback
    split
    · exact ⟨callbacks, rfl⟩
    · exact ⟨_, rfl⟩

theorem syncRequest_decodes {scratch : CArray UInt8 cpMsgMax}
    (copied : scratch.take 12 = syncRequest) :
    headerObj scratch = .ok 1 ∧ headerOpcode scratch = .ok 0 ∧ messageWords scratch 12 = [9] := by
  have spelled : syncRequest = [1, 0, 0, 0, 0, 0, 12, 0, 9, 0, 0, 0] := by decide
  have cells : [scratch.cell 0, scratch.cell 1, scratch.cell 2, scratch.cell 3, scratch.cell 4,
      scratch.cell 5, scratch.cell 6, scratch.cell 7, scratch.cell 8, scratch.cell 9,
      scratch.cell 10, scratch.cell 11] = [1, 0, 0, 0, 0, 0, 12, 0, 9, 0, 0, 0] :=
    copied.trans spelled
  simp only [List.cons.injEq, and_true] at cells
  obtain ⟨c0, c1, c2, c3, c4, c5, -, -, c8, c9, c10, c11⟩ := cells
  refine ⟨?_, ?_, ?_⟩
  · rw [headerObj, wordAt_messageWord (by decide), messageWord, c0, c1, c2, c3]
    rfl
  · rw [headerOpcode, CArray.read_eq (by decide), ok_bind, CArray.read_eq (by decide), ok_bind, c4,
      c5]
    rfl
  · have one : messageWords scratch 12 = [messageWord scratch 8] := rfl
    rw [one, messageWord, c8, c9, c10, c11]
    rfl

theorem Asked.next {count : Nat} {s : Session} (asked : Asked count s) :
    ∃ ids next, Steps (Guarded SessionStep FrameTaken) s [.exchanged 0, .dispatched 0 ids] next ∧
      Asked (count + 1) next := by
  obtain ⟨comp, valid, reqHead, reqTail, evtHead, evtTail⟩ := asked
  obtain ⟨filled, write, ⟨requests, events⟩, sameEvents, head, tail, scratch, read, copied⟩ :=
    @message_read (s.link 0) (valid 0) reqTail syncRequest syncRequest_isMessage
  obtain ⟨obj, opcode, words⟩ := syncRequest_decodes copied
  obtain ⟨callbacks, isComp⟩ := synced_rest count
  let link : Link := ⟨{ filled.conn with reqHead := add32 (s.conns 0).reqHead 12 }, scratch⟩
  have stays : link.conn.Valid :=
    ⟨{ requests with head := add32_lt _ _ }, events⟩
  have served : cpCompositorDispatch s.comp 0 filled = .ok (synced (count + 1), link, 1) := by
    have attached : ¬ ((s.comp.clients 0).active = false ∨ (s.comp.clients 0).conn = false) := by
      rw [comp, isComp]
      show ¬ ((twoClients.clients 0).active = false ∨ (twoClients.clients 0).conn = false)
      decide
    have request : dispatchRequest s.comp 0 ⟨1, 0, [9]⟩ = (addCallback s.comp 0 9 0, [], 1) := by
      rw [comp, isComp]
      rfl
    have length : (syncRequest.length : Int) = 12 := rfl
    rw [cpCompositorDispatch, if_neg attached, read, ok_bind]
    dsimp only
    rw [if_neg (by rw [length]; decide), obj, ok_bind, opcode, ok_bind,
      show messageWords scratch (syncRequest.length : Int).toNat = [9] from words, request,
      comp]
    rw [synced, synced, iterate_succ_apply']
    rfl
  have dispatched : (s.withLink 0 filled).dispatch 0 =
      .ok { (s.withLink 0 filled).withLink 0 link with comp := synced (count + 1) } := by
    have own : (s.withLink 0 filled).link 0 = filled := by
      rw [Session.link, Session.withLink_self]
      rfl
    rw [Session.dispatch, own, show (s.withLink 0 filled).comp = s.comp from rfl, served, ok_bind]
  refine ⟨_, _, (Steps.refl.step ⟨trivial, .write write⟩).step ⟨trivial, .dispatch dispatched⟩, rfl,
    (valid.withLink ⟨requests, events⟩).withLink stays, ?_, ?_, ?_, ?_⟩
  · rw [show (Session.conns _ 0) = link.conn from Session.withLink_self]
    show add32 (s.conns 0).reqHead 12 = _
    rw [reqHead, add32]
    omega
  all_goals rw [show (Session.conns _ 0) = link.conn from Session.withLink_self]
  · show filled.conn.reqTail = add32 (s.conns 0).reqHead 12
    rw [tail]
    exact congrArg (add32 · 12) reqTail
  · exact (congrArg Ring.head sameEvents).trans evtHead
  · exact (congrArg Ring.tail sameEvents).trans evtTail

theorem asked_fresh : Asked 0 freshSession :=
  ⟨rfl, fun _ => cpClientConnInit_valid blankConn, rfl, rfl, rfl, rfl⟩

theorem asked_from (count : Nat) :
    ∃ labels next, Steps (Guarded SessionStep FrameTaken) freshSession labels next ∧
      Asked count next := by
  induction count with
  | zero => exact ⟨[], _, .refl, asked_fresh⟩
  | succ count ih =>
    obtain ⟨labels, s, run, asked⟩ := ih
    obtain ⟨ids, next, more, askedToo⟩ := asked.next
    exact ⟨_, next, run.trans more, askedToo⟩

theorem freshSession_valid : freshSession.Valid := fun _ => cpClientConnInit_valid blankConn

theorem synced_full {count : Nat} (many : 16 ≤ count) : synced count = synced 16 := by
  obtain ⟨more, rfl⟩ := Nat.exists_eq_add_of_le' many
  rw [synced, iterate_add_apply, ← synced]
  refine iterate_fixed ?_ more
  have full : (firstSlot (synced 16).callbacks fun entry => entry.objId = 0) = none := by
    decide +kernel
  simp only [addCallback, full]

theorem awaited_full : awaited (synced 16) = List.replicate 16 (0, 9) := by decide +kernel

/-- After 357913600 requests between two frames the difference from `req_head` is that of a full
ring. -/
theorem callbacks_lost :
    ∃ labels final, Steps SessionStep freshSession labels final ∧
      (final.comp.clients 0).active = true ∧
      (final.conns 0).evtTail = (final.conns 0).evtHead ∧
      ¬ Answered freshSession.comp labels := by
  obtain ⟨labels, s, run, asked⟩ := asked_from 357913600
  have comp : s.comp = synced 16 := asked.comp.trans (synced_full (by decide))
  have waits : awaited s.comp = List.replicate 16 (0, 9) := by rw [comp, awaited_full]
  have refused : ¬ cpRingAccepts (s.conns 0).sendView 12 := by
    have used : cpRingUsed (s.conns 0).sendView = 4096 := by
      show sub32 (s.conns 0).evtTail (s.conns 0).reqHead = 4096
      rw [asked.evtTail, asked.reqHead, sub32]
    rw [cpRingAccepts, used, (asked.valid 0).sendView.whole]
    decide
  obtain ⟨next, dropped, sameComp, conns⟩ := @Session.sendAll_refused 0
    { s with comp := (cpCompositorFrame s.comp).1 } s.comp.serial (awaited s.comp) asked.valid
    (by
      rw [waits]
      decide)
    refused
  have framed : s.frame = .ok (next, []) := by
    rw [← dropped, Session.frame, ← frame_events]
  refine ⟨labels ++ [.framed []], next,
    (run.mono fun _ _ _ guarded => guarded.2).step (.frame framed),
    ?_, ?_, fun answered => ?_⟩
  · have tables := congrFun (congrArg Tables.active (frame_tables s.comp)) 0
    rw [sameComp]
    refine tables.trans ?_
    rw [comp]
    decide +kernel
  · rw [conns]
    exact asked.evtTail.trans asked.evtHead.symm
  · have awaits := (progress_of_run freshSession_valid reachable_twoClients run).awaits
    have none := answered.once labels [] [] rfl
    rw [waits] at awaits
    have count := (awaits.trans none.symm).length_eq
    simp at count

/-- Three requests for a callback, and the frame that answers them. -/
theorem callbacks_answered_thrice :
    ∃ labels final, Steps (Guarded SessionStep FrameTaken) freshSession
        (labels ++ [.framed (doneEvents 0 (List.replicate 3 (0, 9)))]) final ∧
      Answered freshSession.comp
        (labels ++ [.framed (doneEvents 0 (List.replicate 3 (0, 9)))]) := by
  obtain ⟨labels, s, run, asked⟩ := asked_from 3
  have waits : awaited s.comp = List.replicate 3 (0, 9) := by
    rw [asked.comp]
    decide +kernel
  have serial : s.comp.serial = 0 := by
    rw [asked.comp]
    decide +kernel
  have takes : Takes s.conns (awaited s.comp) := by
    intro i n few
    rw [waits, map_replicate, count_replicate] at few
    have first : i = 0 ∧ n < 3 := by
      split at few
      · exact ⟨(eq_of_beq ‹_›).symm, few⟩
      · omega
    obtain ⟨rfl, small⟩ := first
    have size : (s.conns 0).evtSize = cpRingSize := (asked.valid 0).events.whole
    show 12 ≤ (s.conns 0).evtSize ∧ 12 ≤ sub32 (s.conns 0).evtSize
      (sub32 (add32 (s.conns 0).evtTail (12 * n)) (s.conns 0).reqHead)
    rw [size, asked.evtTail, asked.reqHead]
    rcases (show n = 0 ∨ n = 1 ∨ n = 2 by omega) with rfl | rfl | rfl <;> decide
  obtain ⟨next, framed, -⟩ := Session.frame_done asked.valid takes
  rw [waits, serial] at framed
  have last : Guarded SessionStep FrameTaken s
      (.framed (doneEvents 0 (List.replicate 3 (0, 9)))) next :=
    ⟨takes, .frame framed⟩
  have whole := run.step last
  exact ⟨labels, next, whole, (callbacks_answered reachable_twoClients freshSession_valid whole).1⟩

end M4KK1.Copland
