import M4KK1.Copland.Events
import M4KK1.Copland.Reaping

/-!
# Client turnover

Ids are numbers of adoptions, but a record is found by its id, so the records are used up.
-/

namespace M4KK1.Copland

open M4KK1.Lib Function List

def cpConnSlots : Nat := 8

def coplandProtoVersion : Nat := 1

structure ConnSlot where
  inUse : Bool
  clientPid : Nat
  connAddr : Nat

/-- The daemon: compositor, published connection table, connections by address, and
`next_client_id`. -/
structure Daemon where
  comp : Compositor
  slots : Fin cpConnSlots → ConnSlot
  conns : Nat → Conn
  nextClientId : Nat

namespace Daemon

/-- `cp_conn_table_init` and `cp_compositor_init`, whatever the memory held before. -/
def init (memory : Compositor) (conns : Nat → Conn) : Daemon where
  comp := cpCompositorInit memory
  slots := fun _ => ⟨false, 0, 0⟩
  conns := conns
  nextClientId := 1

def clientConnInit (d : Daemon) (addr : Nat) : Daemon :=
  { d with conns := update d.conns addr (cpClientConnInit (d.conns addr)) }

/-- `cp_client_connect`, with 0 or -1. -/
def clientConnect (d : Daemon) (addr clientPid : Nat) : Daemon × Int :=
  if (d.conns addr).magic ≠ coplandConnMagic then (d, -1)
  else
    let d := { d with conns := update d.conns addr { d.conns addr with clientPid := clientPid } }
    match firstSlot d.slots fun s => s.inUse = false with
    | none => (d, -1)
    | some i => ({ d with slots := update d.slots i ⟨true, clientPid, addr⟩ }, 0)

/-- A slot with a connection that is set up and has no client yet. -/
def Waits (d : Daemon) (i : Fin cpConnSlots) : Prop :=
  ((d.slots i).inUse = true ∧ (d.slots i).connAddr ≠ 0) ∧
    ((d.conns (d.slots i).connAddr).magic = coplandConnMagic ∧
      (d.conns (d.slots i).connAddr).version = coplandProtoVersion) ∧
    (d.conns (d.slots i).connAddr).clientId = 0

instance (d : Daemon) (i : Fin cpConnSlots) : Decidable (d.Waits i) :=
  inferInstanceAs (Decidable ((_ ∧ _) ∧ (_ ∧ _) ∧ _))

def adopt (d : Daemon) (addr : Nat) : Daemon :=
  { d with
    conns := update d.conns addr { d.conns addr with clientId := d.nextClientId }
    nextClientId := add32 d.nextClientId 1 }

/-- The loop of `cp_conn_table_poll`, with room for so many more connections in `out`. -/
def pollLoop : List (Fin cpConnSlots) → Nat → Daemon → Daemon × List Nat
  | [], _, d => (d, [])
  | i :: rest, room, d =>
    if room = 0 then (d, [])
    else if d.Waits i then
      let addr := (d.slots i).connAddr
      let polled := pollLoop rest (room - 1) (d.adopt addr)
      (polled.1, addr :: polled.2)
    else pollLoop rest room d

def connTablePoll (d : Daemon) (max : Nat) : Daemon × List Nat :=
  pollLoop (List.finRange cpConnSlots) max d

/-- The loop of `copland_protocol_tick` over the adopted connections, with what attaching
returns. -/
def attachAll : List Nat → Daemon → Daemon × List (Nat × Option (Fin cpMaxClients))
  | [], d => (d, [])
  | addr :: rest, d =>
    let attached := cpCompositorAttachClient d.comp (d.conns addr).clientId (d.conns addr).clientPid
    let others := attachAll rest { d with comp := attached.1 }
    (others.1, (addr, attached.2) :: others.2)

/-- The part of `copland_protocol_tick` that adopts connections. -/
def round (d : Daemon) : Daemon × List (Nat × Option (Fin cpMaxClients)) :=
  let polled := d.connTablePoll cpConnSlots
  attachAll polled.2 polled.1

def freeSlot (d : Daemon) (clientPid : Nat) : Daemon :=
  match firstSlot d.slots fun s => s.inUse = true ∧ s.clientPid = clientPid with
  | none => d
  | some t => { d with slots := update d.slots t ⟨false, 0, 0⟩ }

/-- `copland_reap_dead_clients`, with `alive` the processes `musr_sc_getprocs` lists. -/
def reap (d : Daemon) (alive : List Nat) : Daemon :=
  if alive = [] then d
  else (List.finRange cpMaxClients).foldl
    (fun d i =>
      if (d.comp.clients i).active = false ∨ (d.comp.clients i).connPid = 0 ∨
          (d.comp.clients i).connPid ∈ alive
      then d
      else { d.freeSlot (d.comp.clients i).connPid with comp := reapClient d.comp i })
    d

end Daemon

inductive DaemonAction where
  | connect (addr clientPid : Nat)
  | round
  | reap (alive : List Nat)
  | request (i : Fin cpMaxClients) (req : Request)
  | frame

def Daemon.perform (d : Daemon) : DaemonAction → Daemon
  | .connect addr clientPid => ((d.clientConnInit addr).clientConnect addr clientPid).1
  | .round => d.round.1
  | .reap alive => d.reap alive
  | .request i req =>
    if (d.comp.clients i).active = true then { d with comp := (dispatchRequest d.comp i req).1 }
      else d
  | .frame => { d with comp := (cpCompositorFrame d.comp).1 }

def Daemon.run (d : Daemon) (actions : List DaemonAction) : Daemon := actions.foldl Daemon.perform d

namespace Daemon

variable {d : Daemon}

def waiting (d : Daemon) : List Nat :=
  (((List.finRange cpConnSlots).filter fun i => d.Waits i).map fun i => (d.slots i).connAddr).dedup

/-- The round attaches a client to every slot that waits. -/
def AllAttached (d : Daemon) : Prop :=
  ∀ i, d.Waits i → ∃ j, ((d.slots i).connAddr, some j) ∈ d.round.2

/-- No two active clients have the same id. -/
def IdsUnique (d : Daemon) : Prop :=
  ∀ i j, (d.comp.clients i).active = true → (d.comp.clients j).active = true →
    (d.comp.clients i).clientId = (d.comp.clients j).clientId → i = j

theorem adopt_waits {addr : Nat} (positive : 0 < d.nextClientId) (i : Fin cpConnSlots) :
    (d.adopt addr).Waits i ↔ d.Waits i ∧ (d.slots i).connAddr ≠ addr := by
  unfold Waits adopt
  by_cases same : (d.slots i).connAddr = addr
  · subst same
    simp only [update_self, ne_eq, not_true_eq_false, and_false, iff_false, not_and]
    intro _ _
    omega
  · simp [same]

/-- What the loop adopts: the connections that wait, once each, under consecutive ids. -/
structure Polled (d : Daemon) (slots : List (Fin cpConnSlots)) (d' : Daemon) (out : List Nat) :
    Prop where
  distinct : out.Nodup
  members : ∀ addr, addr ∈ out ↔ ∃ i ∈ slots, d.Waits i ∧ (d.slots i).connAddr = addr
  ids : out.map (fun addr => (d'.conns addr).clientId) = List.range' d.nextClientId out.length
  others : ∀ addr, addr ∉ out → d'.conns addr = d.conns addr
  next : d'.nextClientId = d.nextClientId + out.length
  comp : d'.comp = d.comp

theorem polled_loop (slots : List (Fin cpConnSlots)) (room : Nat) (enough : slots.length ≤ room)
    (positive : 0 < d.nextClientId) (small : d.nextClientId + slots.length < 4294967296) :
    Polled d slots (pollLoop slots room d).1 (pollLoop slots room d).2 := by
  induction slots generalizing d room with
  | nil =>
    exact ⟨nodup_nil, fun addr => by simp [pollLoop], rfl, fun _ _ => rfl, rfl, rfl⟩
  | cons i rest ih =>
    rw [length_cons] at enough small
    rw [pollLoop, if_neg (by omega)]
    by_cases waits : d.Waits i
    · rw [if_pos waits]
      dsimp only
      have isNext : (d.adopt (d.slots i).connAddr).nextClientId = d.nextClientId + 1 := by
        simp only [adopt, add32]
        omega
      obtain ⟨distinct, members, ids, others, next, comp⟩ :=
        @ih (d.adopt (d.slots i).connAddr) (room - 1) (by omega) (by omega) (by omega)
      generalize pollLoop rest (room - 1) (d.adopt (d.slots i).connAddr) = polled at *
      have fresh : (d.slots i).connAddr ∉ polled.2 := by
        rw [members]
        rintro ⟨j, -, waits', same⟩
        exact ((adopt_waits positive j).mp waits').2 same
      refine ⟨nodup_cons.mpr ⟨fresh, distinct⟩, fun addr => ?_, ?_, fun addr absent => ?_, ?_, comp⟩
      · rw [mem_cons, members, exists_mem_cons_iff]
        constructor
        · rintro (rfl | ⟨j, member, waits', same⟩)
          · exact .inl ⟨waits, rfl⟩
          · exact .inr ⟨j, member, ((adopt_waits positive j).mp waits').1, same⟩
        · rintro (⟨-, rfl⟩ | ⟨j, member, waits', same⟩)
          · exact .inl rfl
          · by_cases here : addr = (d.slots i).connAddr
            · exact .inl here
            · exact .inr ⟨j, member,
                (adopt_waits positive j).mpr ⟨waits', fun is => here (same.symm.trans is)⟩, same⟩
      · rw [map_cons, ids, isNext, others _ fresh, length_cons, range'_succ]
        simp [adopt]
      · rw [mem_cons, not_or] at absent
        rw [others addr absent.2]
        exact update_of_ne absent.1 _ _
      · rw [next, isNext, length_cons]
        omega
    · rw [if_neg waits]
      obtain ⟨distinct, members, ids, others, next, comp⟩ :=
        @ih d room (by omega) positive (by omega)
      refine ⟨distinct, fun addr => ?_, ids, others, next, comp⟩
      rw [members, exists_mem_cons_iff]
      exact ⟨.inr, fun either => either.resolve_left fun here => waits here.1⟩

theorem polled (positive : 0 < d.nextClientId) (small : d.nextClientId + cpConnSlots < 4294967296) :
    Polled d (List.finRange cpConnSlots) (d.connTablePoll cpConnSlots).1
      (d.connTablePoll cpConnSlots).2 :=
  polled_loop _ _ (by rw [length_finRange]) positive (by rwa [length_finRange])

theorem polled_mem {d' : Daemon} {out : List Nat}
    (polled : Polled d (List.finRange cpConnSlots) d' out) {addr : Nat} :
    addr ∈ out ↔ ∃ i, d.Waits i ∧ (d.slots i).connAddr = addr := by
  rw [polled.members]
  simp

theorem polled_length {d' : Daemon} {out : List Nat}
    (polled : Polled d (List.finRange cpConnSlots) d' out) :
    out.length = d.waiting.length := by
  refine ((perm_ext_iff_of_nodup polled.distinct (nodup_dedup _)).mpr fun addr => ?_).length_eq
  rw [polled_mem polled, mem_dedup]
  simp

theorem attach_snd (c : Compositor) (clientId clientPid : Nat) :
    (cpCompositorAttachClient c clientId clientPid).2 = clientSlot clientId := by
  unfold cpCompositorAttachClient
  split
  · next outside => exact outside.symm
  · next i inside => exact inside.symm

theorem attachAll_eq (adopted : List Nat) (d : Daemon) :
    (attachAll adopted d).2 = adopted.map fun addr =>
    (addr, clientSlot (d.conns addr).clientId) := by
  induction adopted generalizing d with
  | nil => rfl
  | cons addr rest ih =>
    rw [attachAll, map_cons]
    dsimp only
    rw [ih, attach_snd]

theorem attachAll_rest (adopted : List Nat) (d : Daemon) :
    ∃ comp, (attachAll adopted d).1 = { d with comp := comp } := by
  induction adopted generalizing d with
  | nil => exact ⟨d.comp, rfl⟩
  | cons addr rest ih =>
    obtain ⟨comp, isState⟩ := ih { d with
      comp := (cpCompositorAttachClient d.comp (d.conns addr).clientId (d.conns addr).clientPid).1 }
    exact ⟨comp, isState⟩

theorem clientSlot_isSome {clientId : Nat} (positive : 0 < clientId) :
    (∃ i, clientSlot clientId = some i) ↔ clientId ≤ cpMaxClients := by
  unfold clientSlot
  constructor
  · rintro ⟨i, inside⟩
    split at inside
    · omega
    · cases inside
  · intro small
    rw [dif_pos (by omega), if_neg (by omega)]
    exact ⟨_, rfl⟩

theorem round_next (positive : 0 < d.nextClientId)
    (small : d.nextClientId + cpConnSlots < 4294967296) :
    d.round.1.nextClientId = d.nextClientId + d.waiting.length := by
  have polled := polled positive small
  obtain ⟨comp, isState⟩ :=
    attachAll_rest (d.connTablePoll cpConnSlots).2 (d.connTablePoll cpConnSlots).1
  rw [round, isState, ← polled_length polled]
  exact polled.next

theorem allAttached_iff (positive : 0 < d.nextClientId)
    (inside : d.nextClientId ≤ cpMaxClients + 1) :
    d.AllAttached ↔ d.nextClientId + d.waiting.length ≤ cpMaxClients + 1 := by
  have records : cpMaxClients = 8 := rfl
  have polled := polled positive (by have : cpConnSlots = 8 := rfl; omega)
  have length := polled_length polled
  have results : d.round.2 = (d.connTablePoll cpConnSlots).2.map fun addr =>
      (addr, clientSlot ((d.connTablePoll cpConnSlots).1.conns addr).clientId) := attachAll_eq _ _
  rw [AllAttached, results, ← length]
  have mem := fun addr => @polled_mem d _ _ polled addr
  have ids := polled.ids
  generalize d.connTablePoll cpConnSlots = polled' at *
  have isId : ∀ k, (inRange : k < polled'.2.length) →
      (polled'.1.conns polled'.2[k]).clientId = d.nextClientId + k := by
    intro k inRange
    have at_ := congrArg (fun list => list[k]?) ids
    simpa [getElem?_map, inRange] using at_
  constructor
  · intro attached
    by_cases none_ : polled'.2.length = 0
    · omega
    · -- the connection that was adopted last has the greatest id
      have inRange : polled'.2.length - 1 < polled'.2.length := by omega
      obtain ⟨i, waits, isAddr⟩ := (mem _).mp (getElem_mem inRange)
      obtain ⟨j, isResult⟩ := attached i waits
      obtain ⟨addr, -, same⟩ := mem_map.mp isResult
      obtain ⟨rfl, isSlot⟩ := Prod.mk.inj same
      rw [isAddr, isId _ inRange] at isSlot
      have := (clientSlot_isSome (by omega)).mp ⟨j, isSlot⟩
      omega
  · intro small i waits
    obtain ⟨k, inRange, isAddr⟩ := mem_iff_getElem.mp ((mem _).mpr ⟨i, waits, rfl⟩)
    have id := isId k inRange
    rw [isAddr] at id
    obtain ⟨j, isSlot⟩ :=
      (@clientSlot_isSome (polled'.1.conns (d.slots i).connAddr).clientId (by omega)).mpr (by omega)
    exact ⟨j, mem_map.mpr ⟨_, (mem _).mpr ⟨i, waits, rfl⟩, by rw [isSlot]⟩⟩

theorem attachAll_wired {adopted : List Nat} (wired : Wired d.comp.tables) :
    Wired (attachAll adopted d).1.comp.tables := by
  induction adopted generalizing d with
  | nil => exact wired
  | cons addr rest ih => exact ih (d := { d with comp := _ }) (wired.attach _ _)

theorem reap_rest (d : Daemon) (alive : List Nat) :
    (d.reap alive).nextClientId = d.nextClientId ∧
    (d.reap alive).comp = coplandReapDeadClients d.comp alive := by
  unfold reap coplandReapDeadClients
  split
  · exact ⟨rfl, rfl⟩
  generalize List.finRange cpMaxClients = slots
  induction slots generalizing d with
  | nil => exact ⟨rfl, rfl⟩
  | cons i rest ih =>
    rw [foldl_cons, foldl_cons]
    split
    · exact ih d
    · obtain ⟨next, comp⟩ :=
        ih { d.freeSlot (d.comp.clients i).connPid with comp := reapClient d.comp i }
      refine ⟨next.trans ?_, comp⟩
      dsimp only
      unfold freeSlot
      split <;> rfl

theorem connect_rest (d : Daemon) (addr clientPid : Nat) :
    ((d.clientConnInit addr).clientConnect addr clientPid).1.nextClientId = d.nextClientId ∧
      ((d.clientConnInit addr).clientConnect addr clientPid).1.comp = d.comp := by
  unfold clientConnect
  split
  · exact ⟨rfl, rfl⟩
  · dsimp only
    split <;> exact ⟨rfl, rfl⟩

theorem perform_wired (wired : Wired d.comp.tables) (positive : 0 < d.nextClientId)
    (inside : d.nextClientId ≤ cpMaxClients + 1) (action : DaemonAction) :
    Wired (d.perform action).comp.tables := by
  cases action with
  | connect addr clientPid =>
    rw [perform, (connect_rest d addr clientPid).2]
    exact wired
  | round =>
    have same :=
      (polled positive
      (by have : cpConnSlots = 8 := rfl; have : cpMaxClients = 8 := rfl; omega)).comp
    exact attachAll_wired (by rw [same]; exact wired)
  | reap alive =>
    rw [perform, (reap_rest d alive).2]
    exact wired.step .reap
  | request i req =>
    rw [perform]
    split
    · next active => exact wired.step (.request active)
    · exact wired
  | frame => exact wired.step .frame

theorem perform_next {action : DaemonAction} (other : action ≠ .round) :
    (d.perform action).nextClientId = d.nextClientId := by
  cases action with
  | connect addr clientPid => exact (connect_rest d addr clientPid).1
  | round => exact absurd rfl other
  | reap alive => exact (reap_rest d alive).1
  | request i req =>
    rw [perform]
    split <;> rfl
  | frame => rfl

theorem run_append (d : Daemon) (before : List DaemonAction) (action : DaemonAction) :
    d.run (before ++ [action]) = (d.run before).perform action := by
  rw [run, foldl_append]
  rfl

theorem idsUnique_of_wired (wired : Wired d.comp.tables) : d.IdsUnique := by
  intro i j active active' same
  have left : (d.comp.clients i).clientId = i + 1 := wired.ids i active
  have right : (d.comp.clients j).clientId = j + 1 := wired.ids j active'
  exact Fin.ext (by omega)

/-- At most as many connections have been adopted as there are client records. -/
def WithinRecords (d : Daemon) : Prop := d.nextClientId - 1 + d.waiting.length ≤ cpMaxClients

theorem run_within {memory : Compositor} {conns : Nat → Conn} (actions : List DaemonAction)
    (within : ∀ before after, actions = before ++ .round :: after →
      ((init memory conns).run before).WithinRecords) :
    (0 < ((init memory conns).run actions).nextClientId ∧
      ((init memory conns).run actions).nextClientId ≤ cpMaxClients + 1) ∧
      Wired ((init memory conns).run actions).comp.tables := by
  induction actions using List.reverseRecOn with
  | nil => exact ⟨⟨Nat.one_pos, Nat.succ_le_succ (Nat.zero_le _)⟩, wired_init memory⟩
  | append_singleton actions action ih =>
    obtain ⟨⟨positive, inside⟩, wired⟩ := ih fun before after split =>
      within before (after ++ [action]) (by simp [split])
    rw [run_append]
    refine ⟨?_, perform_wired wired positive inside action⟩
    by_cases isRound : action = .round
    · subst isRound
      have records := within actions [] rfl
      have small : cpConnSlots = 8 := rfl
      have records' : cpMaxClients = 8 := rfl
      rw [perform, round_next positive (by omega)]
      unfold WithinRecords at records
      omega
    · rw [perform_next isRound]
      exact ⟨positive, inside⟩

end Daemon

/-- Waiting connections are attached under ids of their own exactly when the records last. -/
theorem turnover_iff (memory : Compositor) (conns : Nat → Conn) (actions : List DaemonAction) :
    (∀ before after, actions = before ++ after → ((Daemon.init memory conns).run before).IdsUnique ∧
        ∀ rest, after = .round :: rest → ((Daemon.init memory conns).run before).AllAttached) ↔
      ∀ before after, actions = before ++ .round :: after →
        ((Daemon.init memory conns).run before).WithinRecords := by
  have here : ∀ {d : Daemon}, 0 < d.nextClientId → d.nextClientId ≤ cpMaxClients + 1 →
      (d.AllAttached ↔ d.WithinRecords) := by
    intro d positive inside
    rw [Daemon.allAttached_iff positive inside, Daemon.WithinRecords]
    omega
  constructor
  · intro always before
    -- the rounds before this one are within the records, so that the number is not yet out of range
    induction isLength : before.length using Nat.strong_induction_on generalizing before with
    | h length ih =>
      subst isLength
      intro after split
      obtain ⟨⟨positive, inside⟩, -⟩ := Daemon.run_within before fun earlier later split' =>
        ih earlier.length (by rw [split', length_append, length_cons]; omega) earlier rfl
          (later ++ .round :: after) (by rw [split, split', append_assoc, cons_append])
      exact (here positive inside).mp ((always before _ split).2 after rfl)
  · intro within before after split
    obtain ⟨⟨positive, inside⟩, wired⟩ := Daemon.run_within before fun earlier later split' =>
      within earlier (later ++ after) (by rw [split, split', append_assoc, cons_append])
    refine ⟨Daemon.idsUnique_of_wired wired, fun rest isRound => ?_⟩
    exact (here positive inside).mpr (within before rest (by rw [split, isRound]))

/-- So many clients one after the other: each connects, is attached, and is reaped. -/
def lifetimes : Nat → List DaemonAction
  | 0 => []
  | n + 1 => lifetimes n ++ [.connect 4096 (100 + n), .round, .reap [1]]

/-- Behind eight clients that are gone, the ninth one is rejected. -/
theorem ninth_client_rejected : ¬∀ before after,
    lifetimes 9 = before ++ after →
      ((Daemon.init zeroCompositor fun _ => blankConn).run before).IdsUnique ∧
        ∀ rest, after = .round :: rest →
          ((Daemon.init zeroCompositor fun _ => blankConn).run before).AllAttached := by
  intro always
  obtain ⟨j, attached⟩ :=
    (always (lifetimes 8 ++ [.connect 4096 108]) [.round, .reap [1]] rfl).2 _ rfl
    ⟨0, by decide⟩ (by decide +kernel)
  revert j
  decide +kernel

end M4KK1.Copland
