import M4KK1.Copland.Rings
import M4KK1.Lib.Run

/-!
# Event delivery over one connection

A run is an interleaving of whole calls. `cp_evt_send` takes `req_head` for the free space.
-/

namespace M4KK1.Copland

open M4KK1.Lib List

/-- `CP_REQ_RING_SIZE` and `CP_EVT_RING_SIZE`. -/
def cpRingSize : Nat := 4096

def coplandConnMagic : Nat := 0x43434F4E

/-- `struct cp_conn` -/
structure Conn where
  magic : Nat
  version : Nat
  clientId : Nat
  reqHead : Nat
  reqTail : Nat
  reqSize : Nat
  reqData : CArray UInt8 cpRingSize
  evtHead : Nat
  evtTail : Nat
  evtSize : Nat
  evtData : CArray UInt8 cpRingSize
  serverPid : Nat
  clientPid : Nat
  disconnect : Nat

variable (conn : Conn)

/-- `cp_client_conn_init` clears every fourth byte of the request ring only. -/
def cpClientConnInit : Conn :=
  { magic := coplandConnMagic
    version := 1
    clientId := 0
    reqHead := 0
    reqTail := 0
    reqSize := cpRingSize
    reqData := ⟨fun index => if index % 4 = 0 then 0 else conn.reqData.cell index⟩
    evtHead := 0
    evtTail := 0
    evtSize := cpRingSize
    evtData := conn.evtData
    serverPid := 0
    clientPid := 0
    disconnect := 0 }

/-- A connection and the compositor's `cp_scratch`. -/
structure Link where
  conn : Conn
  scratch : CArray UInt8 cpMsgMax

/-- The ring over which clients write and the compositor reads requests. -/
def Conn.requests : Ring cpRingSize :=
  { head := conn.reqHead, tail := conn.reqTail, data := conn.reqData, size := conn.reqSize }

def Conn.events : Ring cpRingSize :=
  { head := conn.evtHead, tail := conn.evtTail, data := conn.evtData, size := conn.evtSize }

/-- The ring `cp_evt_send` sets up: its head is `req_head`. -/
def Conn.sendView : Ring cpRingSize :=
  { head := conn.reqHead, tail := conn.evtTail, data := conn.evtData, size := conn.evtSize }

/-- `cp_evt_send`, with the message that `cp_ring_write` accepted. -/
def cpEvtSend (link : Link) (m : Msgbuf cpMsgMax) :
    Except Fault (Link × Option (List UInt8)) := do
  let (m, rc) ← cpMsgFinish m
  let link := { link with scratch := m.b }
  if rc < 0 then .ok (link, none)
  else do
    let (r, rc) ← cpRingWrite link.conn.sendView m.b m.len
    let link := { link with conn := { link.conn with evtTail := r.tail, evtData := r.data } }
    .ok (link, if rc < 0 then none else some (m.b.take m.len))

/-- `cp_evt_begin`, the puts, and `cp_evt_send`. -/
def emit (link : Link) (obj opcode : Nat) (fields : List Field) :
    Except Fault (Link × Option (List UInt8)) := do
  let m ← putFields (cpMsgStart link.scratch obj opcode) fields
  cpEvtSend link m

/-- A client's `cp_ring_read` of its events into a buffer of `cap` bytes. -/
def readEvent (link : Link) (cap : Nat) : Except Fault (Link × Option (List UInt8)) := do
  let (r, buf, rc) ← cpRingRead link.conn.events (CArray.fill 0 : CArray UInt8 cap) cap
  let link := { link with conn := { link.conn with evtHead := r.head } }
  .ok (link, if rc ≤ 0 then none else some (buf.take rc.toNat))

/-- A client's `cp_ring_write` of a request. -/
def writeRequest (link : Link) (request : List UInt8) :
    Except Fault (Link × Option (List UInt8)) := do
  let (r, rc) ← cpRingWrite link.conn.requests (CArray.ofList request) request.length
  let link := { link with conn := { link.conn with reqTail := r.tail, reqData := r.data } }
  .ok (link, if rc < 0 then none else some request)

/-- The `cp_ring_read` with which `cp_compositor_dispatch` starts. -/
def readRequest (link : Link) : Except Fault (Link × Option (List UInt8)) := do
  let (r, scratch, rc) ← cpRingRead link.conn.requests link.scratch cpMsgMax
  let link := { link with conn := { link.conn with reqHead := r.head }, scratch := scratch }
  .ok (link, if rc ≤ 0 then none else some (scratch.take rc.toNat))

/-- What either side can do to the connection. -/
inductive Action where
  | emit (obj opcode : Nat) (fields : List Field)
  | readEvent (cap : Nat)
  | writeRequest (request : List UInt8)
  | readRequest

/-- One call, with the message it moved. -/
def perform (link : Link) : Action → Except Fault (Link × Option (List UInt8))
  | .emit obj opcode fields => emit link obj opcode fields
  | .readEvent cap => readEvent link cap
  | .writeRequest request => writeRequest link request
  | .readRequest => readRequest link

abbrev Exchange := Action × Option (List UInt8)

/-- A call that returns. -/
def LinkStep (link : Link) (exchange : Exchange) (next : Link) : Prop :=
  perform link exchange.1 = .ok (next, exchange.2)

/-- The event a call added to the ring. -/
def Exchange.sent : Exchange → Option (List UInt8)
  | (.emit _ _ _, message) => message
  | _ => none

/-- The event a call took from the ring. -/
def Exchange.received : Exchange → Option (List UInt8)
  | (.readEvent _, message) => message
  | _ => none

variable (exchanges : List Exchange)

/-- The events accepted over a run, in order. -/
def sentEvents : List (List UInt8) :=
  exchanges.filterMap Exchange.sent

/-- The events the client read over a run, in order. -/
def receivedEvents : List (List UInt8) :=
  exchanges.filterMap Exchange.received

/-- The events read are the first ones sent, bit for bit, and the rest still stand in the ring. -/
def EventsDelivered (link : Link) : Prop :=
  ∃ unread, sentEvents exchanges = receivedEvents exchanges ++ unread ∧
    Pending link.conn.events unread.flatten

/-- An event that `cp_evt_send` takes, by its test against `req_head`, fits behind the unread bytes.
-/
def EmissionFits (link : Link) (exchange : Exchange) : Prop :=
  match exchange.1 with
  | .emit obj opcode fields =>
    ∀ m, putFields (cpMsgStart link.scratch obj opcode) fields = .ok m →
      cpRingAccepts link.conn.sendView m.len →
      cpRingUsed link.conn.events + m.len ≤ link.conn.evtSize
  | _ => True

/-- What every call keeps of the counters and sizes. -/
structure Conn.Valid : Prop where
  requests : Sound conn.requests
  events : Sound conn.events

theorem ringSize_cpRingSize : RingSize cpRingSize := ⟨12, by decide, rfl⟩

theorem Conn.Valid.sendView {conn : Conn} (valid : conn.Valid) : Sound conn.sendView :=
  { valid.events with head := valid.requests.head }

theorem cpClientConnInit_valid : (cpClientConnInit conn).Valid := by
  have zero : 0 < 4294967296 := by decide
  exact ⟨⟨rfl, ringSize_cpRingSize, zero, zero⟩, ⟨rfl, ringSize_cpRingSize, zero, zero⟩⟩

theorem small_cpMsgMax : Small cpMsgMax := by
  unfold Small cpMsgMax
  decide

variable {link : Link}

theorem emit_spec (valid : link.conn.Valid) (obj opcode : Nat) (fields : List Field) :
    ∃ m scratch, putFields (cpMsgStart link.scratch obj opcode) fields = .ok m ∧
      IsMessage (scratch.take m.len) ∧ scratch.take 8 = headerOf m.obj m.op m.len ∧
      (∀ index, 8 ≤ index → scratch.cell index = m.b.cell index) ∧
      ((¬ cpRingAccepts link.conn.sendView m.len ∧
          emit link obj opcode fields = .ok ({ link with scratch := scratch }, none)) ∨
        (cpRingAccepts link.conn.sendView m.len ∧
          ∃ data, Stored link.conn.evtData data link.conn.evtTail scratch 0 m.len ∧
            emit link obj opcode fields =
              .ok ({ conn := { link.conn with
                        evtTail := add32 link.conn.evtTail m.len, evtData := data },
                     scratch := scratch }, some (scratch.take m.len)))) := by
  obtain ⟨m, puts, building⟩ := putFields_spec small_cpMsgMax fields _
    (cpMsgStart_building (by decide) link.scratch obj opcode)
  obtain ⟨scratch, finish, isMessage, header, body⟩ := cpMsgFinish_spec building building.fits
  have notNegative : ¬ (m.len : Int) < 0 := by omega
  refine ⟨m, scratch, puts, isMessage, header, body, ?_⟩
  by_cases accepted : cpRingAccepts link.conn.sendView m.len
  · obtain ⟨data, write, stored⟩ :=
      cpRingWrite_stored scratch valid.sendView building.fits accepted
    refine Or.inr ⟨accepted, data, stored, ?_⟩
    simp only [emit, cpEvtSend, puts, finish, ok_bind, if_neg notNegative, write]
    rfl
  · have write := cpRingWrite_refused scratch accepted
    refine Or.inl ⟨accepted, ?_⟩
    simp only [emit, cpEvtSend, puts, finish, ok_bind, if_neg notNegative, write]
    rfl

theorem readEvent_total (valid : link.conn.Valid) (cap : Nat) :
    ∃ head message, head < 4294967296 ∧
      readEvent link cap =
        .ok ({ link with conn := { link.conn with evtHead := head } }, message) := by
  obtain ⟨buf, rc, head, small, read⟩ :=
    cpRingRead_total valid.events (CArray.fill 0 : CArray UInt8 cap)
  refine ⟨head, if rc ≤ 0 then none else some (buf.take rc.toNat), small, ?_⟩
  rw [readEvent, read, ok_bind]

theorem writeRequest_total (valid : link.conn.Valid) (request : List UInt8) :
    ∃ tail data message, tail < 4294967296 ∧
      writeRequest link request =
        .ok ({ link with conn := { link.conn with reqTail := tail, reqData := data } },
          message) := by
  by_cases accepted : cpRingAccepts link.conn.requests request.length
  · obtain ⟨data, write, -⟩ :=
      cpRingWrite_stored (CArray.ofList request) valid.requests (Nat.le_refl _) accepted
    refine ⟨_, data, some request, add32_lt link.conn.reqTail request.length, ?_⟩
    have notNegative : ¬ (request.length : Int) < 0 := by omega
    simp only [writeRequest, write, ok_bind, if_neg notNegative]
    rfl
  · refine ⟨link.conn.reqTail, link.conn.reqData, none, valid.requests.tail, ?_⟩
    rw [writeRequest, cpRingWrite_refused (CArray.ofList request) accepted, ok_bind]
    rfl

theorem readRequest_total (valid : link.conn.Valid) : ∃ head scratch message, head < 4294967296 ∧
      readRequest link =
        .ok ({ conn := { link.conn with reqHead := head }, scratch := scratch }, message) := by
  obtain ⟨scratch, rc, head, small, read⟩ := cpRingRead_total valid.requests link.scratch
  refine ⟨head, scratch, if rc ≤ 0 then none else some (scratch.take rc.toNat), small, ?_⟩
  rw [readRequest, read, ok_bind]

theorem perform_total {link : Link} (valid : link.conn.Valid) (action : Action) :
    ∃ next message, perform link action = .ok (next, message) ∧ next.conn.Valid := by
  obtain ⟨requests, events⟩ := valid
  cases action with
  | emit obj opcode fields =>
    obtain ⟨m, scratch, -, -, -, -, ⟨-, refused⟩ | ⟨-, data, -, accepted⟩⟩ :=
      emit_spec ⟨requests, events⟩ obj opcode fields
    · exact ⟨_, _, refused, requests, events⟩
    · exact ⟨_, _, accepted, requests, events.whole, events.ring, events.head, add32_lt _ _⟩
  | readEvent cap =>
    obtain ⟨head, message, small, read⟩ := readEvent_total ⟨requests, events⟩ cap
    exact ⟨_, _, read, requests, events.whole, events.ring, small, events.tail⟩
  | writeRequest request =>
    obtain ⟨tail, data, message, small, write⟩ := writeRequest_total ⟨requests, events⟩ request
    exact ⟨_, _, write, { requests with tail := small }, events⟩
  | readRequest =>
    obtain ⟨head, scratch, message, small, read⟩ := readRequest_total ⟨requests, events⟩
    exact ⟨_, _, read, { requests with head := small }, events⟩

/-- The events not yet read are whole messages, exactly the contents of the event ring. -/
structure Delivering (link : Link) : Prop where
  valid : link.conn.Valid
  delivered : ∃ unread, sentEvents exchanges = receivedEvents exchanges ++ unread ∧
    Pending link.conn.events unread.flatten ∧ ∀ event ∈ unread, IsMessage event

theorem sentEvents_append (first second : List Exchange) :
    sentEvents (first ++ second) = sentEvents first ++ sentEvents second :=
  filterMap_append

theorem receivedEvents_append (first second : List Exchange) :
    receivedEvents (first ++ second) = receivedEvents first ++ receivedEvents second :=
  filterMap_append

@[simp] theorem sentEvents_snoc (exchange : Exchange) :
    sentEvents (exchanges ++ [exchange]) = sentEvents exchanges ++ exchange.sent.toList := by
  rw [sentEvents_append]
  cases value : exchange.sent <;> simp [sentEvents, value]

@[simp] theorem receivedEvents_snoc (exchange : Exchange) :
    receivedEvents (exchanges ++ [exchange]) =
      receivedEvents exchanges ++ exchange.received.toList := by
  rw [receivedEvents_append]
  cases value : exchange.received <;> simp [receivedEvents, value]

theorem Delivering.frame {exchanges : List Exchange} {link next : Link} {exchange : Exchange}
    (delivering : Delivering exchanges link) (valid : next.conn.Valid)
    (sameRing : next.conn.events = link.conn.events)
    (nothingSent : exchange.sent = none) (nothingReceived : exchange.received = none) :
    Delivering (exchanges ++ [exchange]) next := by
  obtain ⟨-, unread, history, pending, messages⟩ := delivering
  refine ⟨valid, unread, ?_, ?_, messages⟩
  · simpa [nothingSent, nothingReceived] using history
  · rwa [sameRing]

theorem Delivering.emit {exchanges : List Exchange} {next : Link} {obj opcode : Nat}
    {fields : List Field} {message : Option (List UInt8)}
    (delivering : Delivering exchanges link)
    (fits : EmissionFits link (.emit obj opcode fields, message))
    (valid : next.conn.Valid)
    (run : emit link obj opcode fields = .ok (next, message)) :
    Delivering (exchanges ++ [(.emit obj opcode fields, message)]) next := by
  obtain ⟨m, scratch, puts, isMessage, -, -, ⟨-, refused⟩ | ⟨accepted, data, stored, done⟩⟩ :=
    emit_spec delivering.valid obj opcode fields
  · obtain ⟨rfl, rfl⟩ : { link with scratch := scratch } = next ∧ none = message := by
      simpa using refused.symm.trans run
    exact delivering.frame valid rfl rfl rfl
  · obtain ⟨rfl, rfl⟩ : _ = next ∧ some (scratch.take m.len) = message := by
      simpa only [Except.ok.injEq, Prod.mk.injEq] using done.symm.trans run
    obtain ⟨before, unread, history, pending, messages⟩ := delivering
    have room : unread.flatten.length + m.len ≤ cpRingSize := by
      have inside : cpRingUsed link.conn.events + m.len ≤ link.conn.events.size :=
        fits m puts accepted
      rwa [pending.used, before.events.whole] at inside
    refine ⟨valid, unread ++ [scratch.take m.len], ?_, ?_, ?_⟩
    · simp [history, Exchange.sent, Exchange.received]
    · have joined : (unread ++ [scratch.take m.len]).flatten =
          unread.flatten ++ scratch.take m.len := by simp
      rw [joined]
      exact pending.store before.events room stored
    · intro event member
      rcases mem_append.mp member with old | new
      · exact messages event old
      · rw [mem_singleton.mp new]
        exact isMessage

theorem Delivering.readEvent {exchanges : List Exchange} {next : Link} {cap : Nat}
    {message : Option (List UInt8)} (delivering : Delivering exchanges link)
    (valid : next.conn.Valid) (run : readEvent link cap = .ok (next, message)) :
    Delivering (exchanges ++ [(.readEvent cap, message)]) next := by
  obtain ⟨before, unread, history, pending, messages⟩ := delivering
  have unchanged : ∀ rc : Int, rc ≤ 0 →
      cpRingRead link.conn.events (CArray.fill 0 : CArray UInt8 cap) cap =
        .ok (link.conn.events, CArray.fill 0, rc) →
      Delivering (exchanges ++ [(.readEvent cap, message)]) next := by
    intro rc nothing read
    simp only [Copland.readEvent, read, ok_bind, if_pos nothing] at run
    obtain ⟨same, rfl⟩ : _ = next ∧ none = message := by
      simpa only [Except.ok.injEq, Prod.mk.injEq] using run
    have unmoved : link = next := same
    subst unmoved
    exact Delivering.frame ⟨before, unread, history, pending, messages⟩ before rfl rfl rfl
  cases unread with
  | nil => exact unchanged 0 (by decide) (cpRingRead_empty pending.used _ _)
  | cons event rest =>
    rw [flatten_cons] at pending
    have whole : event.length ≤ cpRingUsed link.conn.events := by
      rw [pending.used, length_append]
      omega
    have positive : ¬ (event.length : Int) ≤ 0 := by
      have := (messages event mem_cons_self).long
      omega
    rcases cpRingRead_message before.events (messages event mem_cons_self)
      (Window.append_iff.mp pending.window).1 whole (CArray.fill 0 : CArray UInt8 cap) with
      ⟨-, narrow⟩ | ⟨buf, read, copied⟩
    · exact unchanged (-2) (by decide) narrow
    · simp only [Copland.readEvent, read, ok_bind, if_neg positive, Int.toNat_natCast,
        copied] at run
      obtain ⟨rfl, rfl⟩ : _ = next ∧ some event = message := by
        simpa only [Except.ok.injEq, Prod.mk.injEq] using run
      refine ⟨valid, rest, ?_, pending.take before.events, ?_⟩
      · simp [history, Exchange.sent, Exchange.received]
      · intro other member
        exact messages other (mem_cons_of_mem _ member)

theorem Delivering.step {exchanges : List Exchange} {link next : Link} {exchange : Exchange}
    (delivering : Delivering exchanges link)
    (transition : Guarded LinkStep EmissionFits link exchange next) :
    Delivering (exchanges ++ [exchange]) next := by
  obtain ⟨fits, run⟩ := transition
  obtain ⟨action, message⟩ := exchange
  have valid : next.conn.Valid := by
    obtain ⟨other, moved, done, valid⟩ := perform_total delivering.valid action
    obtain ⟨rfl, -⟩ : other = next ∧ moved = message := by
      simpa using done.symm.trans run
    exact valid
  cases action with
  | emit obj opcode fields => exact delivering.emit fits valid run
  | readEvent cap => exact delivering.readEvent valid run
  | writeRequest request =>
    obtain ⟨tail, data, moved, -, write⟩ := writeRequest_total delivering.valid request
    obtain ⟨rfl, -⟩ : _ = next ∧ moved = message := by
      simpa only [Except.ok.injEq, Prod.mk.injEq] using write.symm.trans run
    exact delivering.frame valid rfl rfl rfl
  | readRequest =>
    obtain ⟨head, scratch, moved, -, read⟩ := readRequest_total delivering.valid
    obtain ⟨rfl, -⟩ : _ = next ∧ moved = message := by
      simpa only [Except.ok.injEq, Prod.mk.injEq] using read.symm.trans run
    exact delivering.frame valid rfl rfl rfl

theorem Delivering.init (memory : Conn) (scratch : CArray UInt8 cpMsgMax) :
    Delivering [] { conn := cpClientConnInit memory, scratch := scratch } := by
  have empty : sub32 0 0 = 0 := by decide
  refine ⟨cpClientConnInit_valid memory, [], rfl, ⟨empty, Window.nil⟩, ?_⟩
  intro event member
  exact absurd member not_mem_nil

variable (obj : Nat)

/-- The `CP_DISPLAY_ERROR` event for an object that the compositor does not know. -/
def errorEvent : List UInt8 :=
  headerOf 1 0 16 ++ [byteOf obj 0, byteOf obj 1, byteOf obj 2, byteOf obj 3, 0, 0, 0, 0]

/-- The fields of that event: the object and `CP_ERR_INVALID_OBJECT`. -/
def errorFields : List Field := [.u32 obj, .u32 0]

theorem emit_error (valid : link.conn.Valid) (obj : Nat)
    (accepted : cpRingAccepts link.conn.sendView 16) :
    ∃ scratch data, Window data link.conn.evtTail (errorEvent obj) ∧
      emit link 1 0 (errorFields obj) =
        .ok ({ conn := { link.conn with evtTail := add32 link.conn.evtTail 16, evtData := data },
               scratch := scratch }, some (errorEvent obj)) := by
  obtain ⟨m, scratch, puts, -, header, body, outcome⟩ := emit_spec valid 1 0 (errorFields obj)
  rw [errorFields, putFields, putField,
    cpPutU32_fits small_cpMsgMax obj (show 12 ≤ 4088 by decide), ok_bind, putFields, putField,
    cpPutU32_fits small_cpMsgMax 0 (show 16 ≤ 4088 by decide), ok_bind, putFields] at puts
  have shape := Except.ok.inj puts
  have length : m.len = 16 := by rw [← shape]; rfl
  have spelled : scratch.take m.len = errorEvent obj := by
    have split : scratch.take 16 = scratch.take 8 ++ (List.range 8).map
        (fun index => scratch.cell (8 + index)) := rfl
    have payload : (List.range 8).map (fun index => scratch.cell (8 + index)) =
        (List.range 8).map (fun index => m.b.cell (8 + index)) :=
      map_congr_left fun index _ => body (8 + index) (Nat.le_add_right _ _)
    rw [length, split, header, payload, ← shape]
    rfl
  rw [length] at outcome spelled
  rcases outcome with ⟨refused, -⟩ | ⟨-, data, stored, done⟩
  · exact absurd accepted refused
  · rw [spelled] at done
    exact ⟨scratch, data, spelled ▸ stored.window, done⟩

def blankConn : Conn :=
  { magic := 0, version := 0, clientId := 0, reqHead := 0, reqTail := 0, reqSize := 0
    reqData := CArray.fill 0, evtHead := 0, evtTail := 0, evtSize := 0, evtData := CArray.fill 0
    serverPid := 0, clientPid := 0, disconnect := 0 }

def freshLink : Link := { conn := cpClientConnInit blankConn, scratch := CArray.fill 0 }

/-- A request without arguments, to object `obj`. -/
def bareRequest : List UInt8 := headerOf obj 0 8

theorem bareRequest_isMessage : IsMessage (bareRequest obj) := by
  refine ⟨?_, ?_, ?_, rfl, rfl⟩ <;> simp [bareRequest, headerOf]

theorem message_read {link : Link} (valid : link.conn.Valid)
    (empty : link.conn.reqTail = link.conn.reqHead) {message : List UInt8}
    (isMessage : IsMessage message) :
    ∃ filled : Link, writeRequest link message = .ok (filled, some message) ∧
      filled.conn.Valid ∧ filled.conn.events = link.conn.events ∧
      filled.conn.reqHead = link.conn.reqHead ∧
      filled.conn.reqTail = add32 link.conn.reqTail message.length ∧
      ∃ scratch : CArray UInt8 cpMsgMax, cpRingRead filled.conn.requests filled.scratch cpMsgMax =
          .ok ({ filled.conn.requests with head := add32 link.conn.reqHead message.length },
            scratch, (message.length : Int)) ∧
        scratch.take message.length = message := by
  have short := isMessage.short
  have used : sub32 link.conn.reqTail link.conn.reqHead = 0 := by
    rw [empty]
    exact (sub32_eq (Nat.le_refl _) valid.requests.head).trans (Nat.sub_self _)
  have accepted : cpRingAccepts link.conn.requests message.length := by
    rw [cpRingAccepts, show cpRingUsed link.conn.requests = 0 from used, valid.requests.whole,
      show sub32 cpRingSize 0 = 4096 from rfl, cpRingSize]
    omega
  obtain ⟨data, write, stored⟩ :=
    cpRingWrite_stored (CArray.ofList message) valid.requests (Nat.le_refl _) accepted
  have window := stored.window
  rw [CArray.take_ofList] at window
  have notNegative : ¬ (message.length : Int) < 0 := by omega
  refine ⟨{ link with conn := { link.conn with
      reqTail := add32 link.conn.reqTail message.length, reqData :=
        data } }, ?_, ?_, rfl, rfl, rfl, ?_⟩
  · simp only [writeRequest, write, ok_bind, if_neg notNegative]
    rfl
  · exact ⟨{ valid.requests with tail := add32_lt _ _ },
      valid.events⟩
  · have counted : sub32 (add32 link.conn.reqTail message.length) link.conn.reqHead =
        message.length := by
      rw [sub32_add32_left (by omega), used, Nat.zero_add]
    have fresh : Window data link.conn.reqHead message := by
      rw [← empty]
      exact window
    rcases cpRingRead_message
      (r := { link.conn.requests with
        tail := add32 link.conn.reqTail message.length, data := data })
      { valid.requests with tail := add32_lt _ _ } isMessage fresh
      (Nat.le_of_eq counted.symm) link.scratch with ⟨narrow, -⟩ | ⟨scratch, read, copied⟩
    · exact absurd narrow (Nat.not_lt.mpr short)
    · exact ⟨scratch, read, copied⟩

theorem request_exchanged (valid : link.conn.Valid)
    (empty : link.conn.reqTail = link.conn.reqHead) (obj : Nat) :
    ∃ next : Link, Steps (Guarded LinkStep EmissionFits) link
        [(.writeRequest (bareRequest obj), some (bareRequest obj)),
          (.readRequest, some (bareRequest obj))] next ∧
      next.conn.Valid ∧ next.conn.events = link.conn.events ∧
      next.conn.reqHead = add32 link.conn.reqHead 8 ∧
      next.conn.reqTail = add32 link.conn.reqTail 8 := by
  obtain ⟨filled, write, ⟨requests, events⟩, sameEvents, -, tail, scratch, read, copied⟩ :=
    message_read valid empty (bareRequest_isMessage obj)
  have positive : ¬ ((bareRequest obj).length : Int) ≤ 0 := show ¬ (8 : Int) ≤ 0 by decide
  have second : LinkStep filled (.readRequest, some (bareRequest obj))
      { conn := { filled.conn with reqHead := add32 link.conn.reqHead 8 },
        scratch := scratch } := by
    simp only [LinkStep, perform, readRequest, read, ok_bind, if_neg positive, Int.toNat_natCast,
      copied]
    rfl
  exact ⟨_, Steps.step (Steps.step Steps.refl ⟨trivial, write⟩) ⟨trivial, second⟩,
    ⟨{ requests with head := add32_lt _ _ }, events⟩, sameEvents, rfl, tail⟩

/-- The connection after `count` requests to unknown objects, and no event read. -/
structure Flooded (count : Nat) (exchanges : List Exchange) (link : Link) : Prop where
  valid : link.conn.Valid
  reqHead : link.conn.reqHead = 8 * count
  reqTail : link.conn.reqTail = 8 * count
  evtHead : link.conn.evtHead = 0
  evtTail : link.conn.evtTail = 16 * count
  sent : sentEvents exchanges = (List.range count).map fun index => errorEvent (index + 2)
  received : receivedEvents exchanges = []
  newest : ∀ last, count = last + 1 → Window link.conn.evtData (16 * last) (errorEvent (last + 2))

theorem Flooded.next {count : Nat} {exchanges : List Exchange} {link : Link}
    (flooded : Flooded count exchanges link) (few : count ≤ 256) :
    ∃ more next, Steps LinkStep link more next ∧ Flooded (count + 1) (exchanges ++ more) next := by
  obtain ⟨valid, reqHead, reqTail, evtHead, evtTail, sent, received, -⟩ := flooded
  obtain ⟨middle, exchanged, middleValid, sameEvents, headMoved, tailMoved⟩ :=
    request_exchanged valid (reqTail.trans reqHead.symm) (count + 2)
  rw [reqHead, add32_eq (by omega)] at headMoved
  rw [reqTail, add32_eq (by omega)] at tailMoved
  have headKept : middle.conn.evtHead = 0 := (congrArg Ring.head sameEvents).trans evtHead
  have tailKept : middle.conn.evtTail = 16 * count := (congrArg Ring.tail sameEvents).trans evtTail
  -- The request head stands where the compositor believes the client's event head is.
  have accepted : cpRingAccepts middle.conn.sendView 16 := by
    have free : 16 ≤ sub32 4096 (sub32 (16 * count) (8 * count + 8)) := by
      unfold sub32
      omega
    rw [← tailKept, ← headMoved] at free
    rw [cpRingAccepts, middleValid.sendView.whole]
    exact ⟨show 16 ≤ 4096 by decide, free⟩
  obtain ⟨scratch, data, window, answered⟩ := emit_error middleValid (count + 2) accepted
  have answer : LinkStep middle (.emit 1 0 (errorFields (count + 2)), some (errorEvent (count + 2)))
      { conn := { middle.conn with evtTail := add32 middle.conn.evtTail 16, evtData := data }
        scratch := scratch } := answered
  have exchanged := exchanged.mono fun _ _ _ transition => transition.2
  refine ⟨_, _, exchanged.step answer, ?_, ?_, ?_, headKept, ?_, ?_, ?_, ?_⟩
  · exact ⟨middleValid.requests, middleValid.events.whole, middleValid.events.ring,
      middleValid.events.head, add32_lt _ _⟩
  · exact headMoved
  · exact tailMoved
  · show add32 middle.conn.evtTail 16 = 16 * (count + 1)
    rw [tailKept, add32_eq (by omega)]
    omega
  · have added : sentEvents
        ([(.writeRequest (bareRequest (count + 2)), some (bareRequest (count + 2))),
          (.readRequest, some (bareRequest (count + 2)))] ++
          [(.emit 1 0 (errorFields (count + 2)), some (errorEvent (count + 2)))]) =
        [errorEvent (count + 2)] := rfl
    rw [sentEvents_append, sent, added, range_succ, map_append]
    rfl
  · rw [receivedEvents_append, received]
    rfl
  · intro last isLast
    obtain rfl : count = last := by omega
    rw [← tailKept]
    exact window

theorem flooded_from (memory : Conn) (scratch : CArray UInt8 cpMsgMax) (count : Nat)
    (few : count ≤ 257) :
    ∃ exchanges link,
      Steps LinkStep { conn := cpClientConnInit memory, scratch := scratch } exchanges link ∧
      Flooded count exchanges link := by
  induction count with
  | zero =>
    refine ⟨[], _, Steps.refl, cpClientConnInit_valid memory, rfl, rfl, rfl, rfl, rfl, rfl, ?_⟩
    intro last isLast
    omega
  | succ count ih =>
    obtain ⟨exchanges, link, run, flooded⟩ := ih (by omega)
    obtain ⟨more, next, further, grown⟩ := flooded.next (by omega)
    exact ⟨exchanges ++ more, next, run.trans further, grown⟩

theorem errorEvent_isMessage : IsMessage (errorEvent obj) := by
  refine ⟨?_, ?_, ?_, rfl, rfl⟩ <;> simp [errorEvent, headerOf]

/-- The connection after `count` requests to unknown objects, with every answer read. -/
structure AnswersRead (count : Nat) (exchanges : List Exchange) (link : Link) : Prop where
  valid : link.conn.Valid
  reqHead : link.conn.reqHead = 8 * count
  reqTail : link.conn.reqTail = 8 * count
  evtHead : link.conn.evtHead = 16 * count
  evtTail : link.conn.evtTail = 16 * count
  received : receivedEvents exchanges = (List.range count).map fun index => errorEvent (index + 2)

theorem AnswersRead.next {count : Nat} {exchanges : List Exchange} {link : Link}
    (answered : AnswersRead count exchanges link) (few : count ≤ 500) :
    ∃ more next, Steps (Guarded LinkStep EmissionFits) link more next ∧
      AnswersRead (count + 1) (exchanges ++ more) next := by
  obtain ⟨valid, reqHead, reqTail, evtHead, evtTail, received⟩ := answered
  obtain ⟨middle, exchanged, middleValid, sameEvents, headMoved, tailMoved⟩ :=
    request_exchanged valid (reqTail.trans reqHead.symm) (count + 2)
  rw [reqHead, add32_eq (by omega)] at headMoved
  rw [reqTail, add32_eq (by omega)] at tailMoved
  have headKept : middle.conn.evtHead = 16 * count := (congrArg Ring.head sameEvents).trans evtHead
  have tailKept : middle.conn.evtTail = 16 * count := (congrArg Ring.tail sameEvents).trans evtTail
  have accepted : cpRingAccepts middle.conn.sendView 16 := by
    have free : 16 ≤ sub32 4096 (sub32 (16 * count) (8 * count + 8)) := by
      unfold sub32
      omega
    rw [← tailKept, ← headMoved] at free
    rw [cpRingAccepts, middleValid.sendView.whole]
    exact ⟨show 16 ≤ 4096 by decide, free⟩
  have unused : cpRingUsed middle.conn.events = 0 := by
    show sub32 middle.conn.evtTail middle.conn.evtHead = 0
    rw [headKept, tailKept]
    exact (sub32_eq le_rfl (by omega)).trans (Nat.sub_self _)
  have fits : EmissionFits middle
      (.emit 1 0 (errorFields (count + 2)), some (errorEvent (count + 2))) := by
    intro m puts _
    obtain ⟨other, same, building⟩ := putFields_spec small_cpMsgMax (errorFields (count + 2)) _
      (cpMsgStart_building (by decide) middle.scratch 1 0)
    obtain rfl : other = m := Except.ok.inj (same.symm.trans puts)
    have whole : middle.conn.evtSize = 4096 := middleValid.events.whole
    rw [unused, Nat.zero_add, whole]
    exact Nat.le_trans building.fits (show 4088 ≤ 4096 by decide)
  obtain ⟨scratch, data, window, answer⟩ := emit_error middleValid (count + 2) accepted
  have filledTail : add32 middle.conn.evtTail 16 = 16 * (count + 1) := by
    rw [tailKept, add32_eq (by omega)]
    omega
  have filledEvents :
      Sound { middle.conn.events with tail := add32 middle.conn.evtTail 16, data := data } :=
    { middleValid.events with tail := add32_lt _ _ }
  rcases cpRingRead_message filledEvents (errorEvent_isMessage (count + 2))
      (show Window data middle.conn.evtHead _ from (tailKept.trans headKept.symm) ▸ window)
      (show 16 ≤ sub32 (add32 middle.conn.evtTail 16) middle.conn.evtHead by
        rw [filledTail, headKept, sub32_eq (by omega) (by omega)]
        omega) (CArray.fill 0 : CArray UInt8 4088) with ⟨narrow, -⟩ | ⟨buf, read, copied⟩
  · exact absurd narrow (show ¬ 4088 < 16 by decide)
  have positive : ¬ ((errorEvent (count + 2)).length : Int) ≤ 0 := show ¬ (16 : Int) ≤ 0 by decide
  have readBack : Guarded LinkStep EmissionFits
      { conn := { middle.conn with evtTail := add32 middle.conn.evtTail 16, evtData := data }
        scratch := scratch } (.readEvent 4088, some (errorEvent (count + 2)))
      { conn := { middle.conn with
          evtHead := add32 middle.conn.evtHead 16
          evtTail := add32 middle.conn.evtTail 16
          evtData := data }
        scratch := scratch } := by
    refine ⟨trivial, ?_⟩
    simp only [LinkStep, perform, readEvent, Conn.events] at read ⊢
    simp only [read, ok_bind, if_neg positive, Int.toNat_natCast, copied]
    rfl
  refine ⟨_, _, (exchanged.step ⟨fits, answer⟩).step readBack, ?_, headMoved, tailMoved,
    ?_, filledTail, ?_⟩
  · exact ⟨middleValid.requests, middleValid.events.whole, middleValid.events.ring, add32_lt _ _,
      add32_lt _ _⟩
  · show add32 middle.conn.evtHead 16 = 16 * (count + 1)
    rw [headKept, ← tailKept, filledTail]
  · rw [receivedEvents_append, received, range_succ, map_append]
    rfl

theorem answered_from (count : Nat) (few : count ≤ 501) :
    ∃ exchanges link, Steps (Guarded LinkStep EmissionFits) freshLink exchanges link ∧
      AnswersRead count exchanges link := by
  induction count with
  | zero => exact ⟨[], _, .refl, cpClientConnInit_valid blankConn, rfl, rfl, rfl, rfl, rfl⟩
  | succ count ih =>
    obtain ⟨exchanges, link, run, answered⟩ := ih (by omega)
    obtain ⟨more, next, further, grown⟩ := answered.next (by omega)
    exact ⟨exchanges ++ more, next, run.trans further, grown⟩

/-- When accepted emissions fit, the client reads the events sent, bit for bit. -/
theorem events_delivered {memory : Conn} {scratch : CArray UInt8 cpMsgMax}
    {exchanges : List Exchange} {final : Link}
    (run : Steps (Guarded LinkStep EmissionFits)
      { conn := cpClientConnInit memory, scratch := scratch } exchanges final) :
    EventsDelivered exchanges final := by
  have delivering := run.history Delivering
    (fun _ _ _ _ delivering transition => delivering.step transition)
    (Delivering.init memory scratch)
  obtain ⟨-, unread, history, pending, -⟩ := delivering
  exact ⟨unread, history, pending⟩

/-- 300 answers are sent and read, over the end of the ring. -/
theorem events_delivered_wrapped :
    ∃ exchanges final, Steps (Guarded LinkStep EmissionFits) freshLink exchanges final ∧
      cpRingSize < final.conn.evtHead ∧
      receivedEvents exchanges = ((List.range 300).map fun index => errorEvent (index + 2)) ∧
      EventsDelivered exchanges final := by
  obtain ⟨exchanges, final, run, answered⟩ := answered_from 300 (by decide)
  refine ⟨exchanges, final, run, ?_, answered.received, events_delivered run⟩
  rw [answered.evtHead]
  decide

/-- Of 257 unread answers the last has overwritten the first, and is read next. -/
theorem event_overwritten :
    ∃ exchanges link, Steps LinkStep freshLink exchanges link ∧
      ¬ EventsDelivered exchanges link := by
  obtain ⟨exchanges, link, run, flooded⟩ :=
    flooded_from blankConn (CArray.fill 0) 257 (Nat.le_refl _)
  have window : Window link.conn.events.data link.conn.events.head (errorEvent 258) := by
    show Window link.conn.evtData link.conn.evtHead (errorEvent 258)
    rw [flooded.evtHead]
    have wrapped : 16 * 256 % cpRingSize = 0 % cpRingSize := by decide
    exact Window.congr_start wrapped (flooded.newest 256 rfl)
  have whole : (errorEvent 258).length ≤ cpRingUsed link.conn.events := by
    show 16 ≤ sub32 link.conn.evtTail link.conn.evtHead
    rw [flooded.evtTail, flooded.evtHead]
    decide
  rcases cpRingRead_message flooded.valid.events (errorEvent_isMessage 258) window whole
    (CArray.fill 0 : CArray UInt8 4088) with ⟨narrow, -⟩ | ⟨buf, read, copied⟩
  · exact absurd narrow (show ¬ 4088 < 16 by decide)
  · have positive : ¬ ((errorEvent 258).length : Int) ≤ 0 := show ¬ (16 : Int) ≤ 0 by decide
    have readLast : LinkStep link (.readEvent 4088, some (errorEvent 258))
        { link with conn := { link.conn with evtHead := add32 link.conn.evtHead 16 } } := by
      simp only [LinkStep, perform, readEvent, read, ok_bind, if_neg positive,
        Int.toNat_natCast, copied]
      rfl
    refine ⟨_, _, run.step readLast, ?_⟩
    rintro ⟨unread, history, -⟩
    have firstSent : errorEvent 2 = errorEvent 258 := by
      rw [sentEvents_snoc, receivedEvents_snoc, flooded.sent, flooded.received] at history
      rw [range_succ_eq_map, map_cons] at history
      exact (List.cons.inj history).1
    exact absurd firstSent (by decide)

end M4KK1.Copland
