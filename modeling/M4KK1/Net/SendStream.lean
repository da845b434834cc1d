import M4KK1.Net.Tcp

/-!
# The bytes a connection sends

`tcp_emit` moves `snd_nxt` before it knows whether the network takes the segment (`Numbered`).
-/

namespace M4KK1.Net

open M4KK1.Lib List

/-- Every emission starts where the ones before it end, whether or not they were taken. -/
def Numbered (next : Nat) : List Emission → Nat → Prop
  | [], final => final = next
  | emission :: rest, final =>
    emission.seq = next ∧ Numbered (add32 next emission.payload.length) rest final

/-- Every emission starts where the taken ones before it end. -/
def Contiguous (next : Nat) : List Emission → Nat → Prop
  | [], final => final = next
  | emission :: rest, final =>
    emission.seq = next ∧
      Contiguous (if emission.taken then add32 next emission.payload.length else next) rest final

/-- The emissions of a connection among `emissions`. -/
def ownEmissions (slot : Nat) (emissions : List Emission) : List Emission :=
  emissions.filter fun emission => emission.conn = slot

def takenBytes (emissions : List Emission) : List UInt8 :=
  (emissions.filter fun emission => emission.taken).flatMap fun emission => emission.payload

/-- The card took every segment with data. -/
def NoneLost (emissions : List Emission) : Prop :=
  ∀ emission ∈ emissions, emission.payload ≠ [] → emission.taken = true

instance decidableContiguous (next : Nat) :
    (emissions : List Emission) → (final : Nat) → Decidable (Contiguous next emissions final)
  | [], final => inferInstanceAs (Decidable (final = next))
  | emission :: rest, final =>
    have := decidableContiguous
      (if emission.taken then add32 next emission.payload.length else next) rest final
    inferInstanceAs (Decidable (emission.seq = next ∧ _))

variable {link : Nat → Bool} {t t' t'' : Tcp} {slot next middle final : Nat}
  {front back more : List Emission}

theorem numbered_append : Numbered next (front ++ back) final ↔
    ∃ middle, Numbered next front middle ∧ Numbered middle back final := by
  induction front generalizing next with
  | nil => simp [Numbered]
  | cons emission front ih => simp [Numbered, ih, and_assoc]

theorem numbered_start {other : Nat} (numbered : Numbered next more final)
    (contiguous : Contiguous other more final) : next = other := by
  cases more with
  | nil => exact numbered.symm.trans contiguous
  | cons emission more => exact numbered.1.symm.trans contiguous.1

theorem contiguous_iff (numbered : Numbered next more final) (word : next < 4294967296)
    (short : ∀ emission ∈ more, emission.payload.length < 4294967296) :
    Contiguous next more final ↔ NoneLost more := by
  induction more generalizing next with
  | nil => exact ⟨fun _ _ member => absurd member not_mem_nil, fun _ => numbered⟩
  | cons emission more ih =>
    obtain ⟨isSeq, rest⟩ := numbered
    obtain ⟨headShort, restShort⟩ := forall_mem_cons.mp short
    have later := ih rest (add32_lt _ _) restShort
    rw [NoneLost, forall_mem_cons, Contiguous]
    cases taken : emission.taken with
    | true => simpa [isSeq, NoneLost] using later
    | false =>
      by_cases empty : emission.payload = []
      · have same : add32 next emission.payload.length = next := by
          rw [empty]
          exact add32_eq (by simpa using word)
        rw [same] at later
        simpa [isSeq, empty, NoneLost] using later
      · have positive := length_pos_iff.mpr empty
        have gap : add32 next emission.payload.length ≠ next := by
          unfold add32
          omega
        constructor
        · intro contiguous
          exact absurd (numbered_start rest (by simpa using contiguous.2)) gap
        · intro none
          exact absurd (none.1 empty) (by simp)

/-- `t'` is `t` with more segments emitted, those of each connection numbered from its
`snd_nxt` on. -/
def Advances (t t' : Tcp) (more : List Emission) : Prop :=
  t'.emissions = t.emissions ++ more ∧
    ∀ slot, Numbered (t.conns slot).sndNxt (ownEmissions slot more) (t'.conns slot).sndNxt

theorem Advances.refl (t : Tcp) : Advances t t [] :=
  ⟨(append_nil _).symm, fun _ => rfl⟩

theorem Advances.trans (first : Advances t t' front) (second : Advances t' t'' back) :
    Advances t t'' (front ++ back) := by
  refine ⟨by rw [second.1, first.1, append_assoc], fun slot => ?_⟩
  rw [ownEmissions, filter_append]
  exact numbered_append.mpr ⟨_, first.2 slot, second.2 slot⟩

theorem Advances.set {c : Conn} (same : c.sndNxt = (t.conns slot).sndNxt) :
    Advances t (t.set slot c) [] := by
  refine ⟨(append_nil _).symm, fun other => ?_⟩
  by_cases isSlot : other = slot
  · subst isSlot
    simp [Numbered, ownEmissions, Tcp.set, same]
  · simp [Numbered, ownEmissions, Tcp.set, isSlot]

/-- The segment that `tcp_emit` makes of data that fits one. -/
def emissionOf (link : Nat → Bool) (t : Tcp) (slot : Nat) (flags : Flags) (data : List UInt8) :
    Emission :=
  ⟨slot, (t.conns slot).sndNxt, (t.conns slot).rcvNxt, flags, data, link t.emissions.length⟩

theorem tcpEmit_spec {flags : Flags} {data : List UInt8}
    (plain : flags.syn = false ∧ flags.fin = false) (short : data.length ≤ 1000) :
    Advances t (tcpEmit link t slot flags data).1 [emissionOf link t slot flags data] ∧
      (tcpEmit link t slot flags data).2 = link t.emissions.length := by
  have fits : ¬(20 + data.length) % 65536 > tcpRxBuf + 64 := by
    unfold tcpRxBuf
    omega
  have answer : mkrnNetSendPacket (link t.emissions.length) (20 + data.length) =
      link t.emissions.length := by
    rw [mkrnNetSendPacket, if_neg (by omega), if_neg (by omega)]
  rw [tcpEmit, if_neg fits, answer]
  refine ⟨⟨rfl, fun other => ?_⟩, rfl⟩
  by_cases isSlot : other = slot
  · subst isSlot
    simp [ownEmissions, emissionOf, Numbered, Tcp.set, plain]
  · simp [ownEmissions, emissionOf, Numbered, Tcp.set, isSlot, Ne.symm isSlot]

/-- `t'` is `t` with more segments emitted, none of them with data. -/
def Quiet (t t' : Tcp) : Prop :=
  ∃ more, Advances t t' more ∧ ∀ emission ∈ more, emission.payload = []

theorem Quiet.refl (t : Tcp) : Quiet t t :=
  ⟨[], .refl t, fun _ member => absurd member not_mem_nil⟩

theorem Quiet.trans (first : Quiet t t') (second : Quiet t' t'') : Quiet t t'' := by
  obtain ⟨front, advances, empty⟩ := first
  obtain ⟨back, advances', empty'⟩ := second
  refine ⟨front ++ back, advances.trans advances', fun emission member => ?_⟩
  rcases mem_append.mp member with before | after
  · exact empty emission before
  · exact empty' emission after

theorem Quiet.set {c : Conn} (quiet : Quiet t t') (same : c.sndNxt = (t'.conns slot).sndNxt) :
    Quiet t (t'.set slot c) :=
  quiet.trans ⟨[], .set same, fun _ member => absurd member not_mem_nil⟩

theorem Quiet.ack (quiet : Quiet t t') : Quiet t (tcpEmit link t' slot { ack := true } []).1 :=
  quiet.trans ⟨_, (tcpEmit_spec ⟨rfl, rfl⟩ (Nat.zero_le _)).1, by simp [emissionOf]⟩

variable {frame : Nat → UInt8}

theorem receiveData_quiet {base hdrlen dlen : Nat} :
    Quiet t (receiveData link t slot frame base hdrlen dlen).1 := by
  unfold receiveData
  dsimp only
  split
  · split
    · apply Quiet.ack
      exact Quiet.set (.refl t) rfl
    · exact Quiet.ack (.refl t)
  · exact .refl t

theorem receiveFin_quiet : Quiet t (receiveFin link t slot) := by
  unfold receiveFin
  dsimp only
  split
  · refine Quiet.set ?_ rfl
    apply Quiet.ack
    exact Quiet.set (.refl t) rfl
  · apply Quiet.ack
    exact Quiet.set (.refl t) rfl

theorem handleSlots_quiet {base len hdrlen srcIp : Nat} (slots : List Nat)
    (t : Tcp) : Quiet t (handleSlots link frame base len hdrlen srcIp slots t).1 := by
  induction slots generalizing t with
  | nil => exact .refl t
  | cons slot rest ih =>
    rw [handleSlots]
    dsimp only
    split
    · exact ih t
    split
    · exact ih t
    split
    · exact ih t
    -- Latching the peer's port leaves `snd_nxt` alone.
    generalize latched : (if (t.conns slot).state = .synSent then t.set slot
      { t.conns slot with remotePort := be16 frame base } else t) = current
    have quiet : Quiet t current := by
      subst latched
      split
      · exact Quiet.set (.refl t) rfl
      · exact .refl t
    split
    · refine Quiet.set ?_ rfl
      apply Quiet.ack
      exact Quiet.set quiet rfl
    split
    · exact Quiet.set quiet rfl
    split
    · dsimp only
      split
      · exact quiet.trans (receiveData_quiet.trans receiveFin_quiet)
      · exact quiet.trans receiveData_quiet
    · exact quiet.trans (ih current)

theorem mkrnTcpHandlePacket_quiet {base len srcIp : Nat} :
    Quiet t (mkrnTcpHandlePacket link t frame base len srcIp).1 := by
  unfold mkrnTcpHandlePacket
  split
  · exact .refl t
  dsimp only
  split
  · exact .refl t
  · exact handleSlots_quiet _ t

theorem mkrnTcpRecv_quiet {id maxlen : Nat} : Quiet t (mkrnTcpRecv t id maxlen).1 := by
  unfold mkrnTcpRecv
  split
  · exact .refl t
  dsimp only
  split
  · exact .refl t
  split
  · exact .refl t
  · exact Quiet.set (.refl t) rfl

/-- The loop of `mkrn_tcp_send` emitted the segments `more` and reports `taken`. -/
structure Sent (link : Nat → Bool) (slot : Nat) (t : Tcp) (data : List UInt8) (t' : Tcp)
    (taken : Bool) (more : List Emission) : Prop where
  advances : Advances t t' more
  own : ∀ emission ∈ more, emission.conn = slot
  short : ∀ emission ∈ more, emission.payload.length ≤ 1000
  bytes : takenBytes more <+: data
  all : taken = true → takenBytes more = data
  lost : NoneLost more ↔ taken = true
  answers : taken = true ↔ ∀ k, 1000 * k < data.length → link (t.emissions.length + k) = true

variable {data : List UInt8} {taken : Bool} {emission : Emission}

theorem Sent.cons (advances : Advances t t' [emission])
    (conn : emission.conn = slot) (payload : emission.payload = data.take 1000)
    (isTaken : emission.taken = true) (answer : link t.emissions.length = true)
    (rest : Sent link slot t' (data.drop 1000) t'' taken more) :
    Sent link slot t data t'' taken (emission :: more) := by
  have split : takenBytes (emission :: more) = data.take 1000 ++ takenBytes more := by
    simp [takenBytes, isTaken, payload]
  have length : t'.emissions.length = t.emissions.length + 1 := by simp [advances.1]
  refine ⟨advances.trans rest.advances, ?_, ?_, ?_, ?_, ?_, ?_⟩
  · exact forall_mem_cons.mpr ⟨conn, rest.own⟩
  · exact forall_mem_cons.mpr ⟨by simp [payload], rest.short⟩
  · rw [split]
    nth_rewrite 2 [← take_append_drop 1000 data]
    exact (prefix_append_right_inj _).mpr rest.bytes
  · intro done
    rw [split, rest.all done, take_append_drop]
  · rw [← rest.lost, NoneLost, forall_mem_cons]
    exact ⟨fun none => none.2, fun none => ⟨fun _ => isTaken, none⟩⟩
  · rw [rest.answers, length]
    constructor
    · intro later k inside
      cases k with
      | zero => exact answer
      | succ k =>
        rw [← later k (by simp; omega)]
        congr 1
        omega
    · intro every k inside
      rw [← every (k + 1) (by simp at inside; omega)]
      congr 1
      omega

theorem Sent.stopped (nonempty : data ≠ []) (advances : Advances t t' [emission])
    (conn : emission.conn = slot) (payload : emission.payload = data.take 1000)
    (isTaken : emission.taken = false) (answer : link t.emissions.length = false) :
    Sent link slot t data t' false [emission] := by
  have positive := length_pos_iff.mpr nonempty
  refine ⟨advances, by simpa using conn, by simp [payload], ?_, nofun, ?_, ?_⟩
  · simp [takenBytes, isTaken]
  · simp [NoneLost, isTaken, payload, nonempty]
  · refine ⟨nofun, fun every => ?_⟩
    have first := every 0 (by omega)
    rw [Nat.add_zero, answer] at first
    exact first

theorem sendLoop_sent {fuel : Nat} (enough : data.length < fuel) :
    ∃ more, Sent link slot t data (sendLoop link slot fuel t data).1
      (sendLoop link slot fuel t data).2 more := by
  induction fuel generalizing t data with
  | zero => omega
  | succ fuel ih =>
    rw [sendLoop]
    by_cases empty : data.length = 0
    · rw [if_pos empty]
      have isNil := length_eq_zero_iff.mp empty
      exact ⟨[], .refl t, by simp, by simp, by simp [takenBytes], by simp [takenBytes, isNil],
        by simp [NoneLost], by simp [isNil]⟩
    rw [if_neg empty]
    have nonempty : data ≠ [] := fun isNil => empty (by simp [isNil])
    have spec : Advances t (tcpEmit link t slot { ack := true, psh := true } (data.take 1000)).1
        [emissionOf link t slot { ack := true, psh := true } (data.take 1000)] ∧
        (tcpEmit link t slot { ack := true, psh := true } (data.take 1000)).2 =
          link t.emissions.length :=
      tcpEmit_spec ⟨rfl, rfl⟩ (by simp)
    obtain ⟨advances, answer⟩ := spec
    generalize tcpEmit link t slot { ack := true, psh := true } (data.take 1000) = emitted at *
    obtain ⟨current, taken⟩ := emitted
    dsimp only at *
    subst answer
    cases answer : link t.emissions.length with
    | true =>
      obtain ⟨more, rest⟩ := @ih current (data.drop 1000) (by simp; omega)
      exact ⟨_, .cons advances rfl rfl answer answer rest⟩
    | false => exact ⟨_, .stopped nonempty advances rfl rfl answer answer⟩

/-- A call on the table, or a segment that arrives. -/
inductive Action where
  | send (id : Nat) (data : List UInt8)
  | recv (id maxlen : Nat)
  | arrive (frame : Nat → UInt8) (base len srcIp : Nat)

def perform (link : Nat → Bool) (t : Tcp) : Action → Tcp
  | .send id data => (mkrnTcpSend link t id data).1
  | .recv id maxlen => (mkrnTcpRecv t id maxlen).1
  | .arrive frame base len srcIp => (mkrnTcpHandlePacket link t frame base len srcIp).1

/-- The data of the calls of `mkrn_tcp_send` on a connection, and what they return. -/
def sendCalls (link : Nat → Bool) (slot : Nat) :
    Tcp → List Action → List (List UInt8 × Option Nat)
  | _, [] => []
  | t, .send id data :: rest =>
    let later := sendCalls link slot (perform link t (.send id data)) rest
    if id = slot then (data, (mkrnTcpSend link t id data).2) :: later else later
  | t, action :: rest => sendCalls link slot (perform link t action) rest

/-- The part of its data that a call accepts: all of it, or a prefix when it returns `-1`. -/
def Accepts (call : List UInt8 × Option Nat) (part : List UInt8) : Prop :=
  match call.2 with
  | some count => part = call.1 ∧ count = call.1.length
  | none => part <+: call.1

/-- The segments that were taken carry the accepted bytes under contiguous numbers. -/
def SendStream (link : Nat → Bool) (slot : Nat) (t : Tcp) (actions : List Action) : Prop :=
  let final := actions.foldl (perform link) t
  let own := ownEmissions slot (final.emissions.drop t.emissions.length)
  Contiguous (t.conns slot).sndNxt own (final.conns slot).sndNxt ∧
    ∃ parts, List.Forall₂ Accepts (sendCalls link slot t actions) parts ∧
      takenBytes own = parts.flatten

/-- The network takes every chunk of the data that the connection is asked to send. -/
def Takes (link : Nat → Bool) (slot : Nat) (t : Tcp) : Action → Prop
  | .send id data => id = slot → (t.conns slot).used = true → (t.conns slot).state = .established →
      ∀ k, 1000 * k < data.length → link (t.emissions.length + k) = true
  | _ => True

def AllTaken (link : Nat → Bool) (slot : Nat) : Tcp → List Action → Prop
  | _, [] => True
  | t, action :: rest => Takes link slot t action ∧ AllTaken link slot (perform link t action) rest

/-- The segments of `slot` carry what `calls` accepted, with none lost exactly when `takes`. -/
structure Account (slot : Nat) (t t' : Tcp) (calls : List (List UInt8 × Option Nat))
    (takes : Prop) (more : List Emission) (parts : List (List UInt8)) : Prop where
  advances : Advances t t' more
  short : ∀ emission ∈ more, emission.payload.length ≤ 1000
  lost : NoneLost (ownEmissions slot more) ↔ takes
  accepted : List.Forall₂ Accepts calls parts
  bytes : takenBytes (ownEmissions slot more) = parts.flatten

theorem Account.trans {calls later : List (List UInt8 × Option Nat)} {takes goesOn : Prop}
    {parts rest : List (List UInt8)} (first : Account slot t t' calls takes front parts)
    (second : Account slot t' t'' later goesOn back rest) :
    Account slot t t'' (calls ++ later) (takes ∧ goesOn) (front ++ back) (parts ++ rest) := by
  have own : ownEmissions slot (front ++ back) =
      ownEmissions slot front ++ ownEmissions slot back := filter_append ..
  refine ⟨first.advances.trans second.advances, ?_, ?_, ?_, ?_⟩
  · exact forall_mem_append.mpr ⟨first.short, second.short⟩
  · rw [own, NoneLost, forall_mem_append, ← first.lost, ← second.lost]
    rfl
  · exact rel_append first.accepted second.accepted
  · rw [own, flatten_append, ← first.bytes, ← second.bytes]
    simp [takenBytes]

theorem Quiet.account (quiet : Quiet t t') : ∃ more, Account slot t t' [] True more [] := by
  obtain ⟨more, advances, empty⟩ := quiet
  have ownEmpty : ∀ emission ∈ ownEmissions slot more, emission.payload = [] :=
    fun emission member => empty emission (mem_filter.mp member).1
  refine ⟨more, advances, fun emission member => by simp [empty emission member], ?_, .nil, ?_⟩
  · exact iff_of_true (fun emission member nonempty => absurd (ownEmpty emission member) nonempty)
      trivial
  · rw [takenBytes, flatten_nil, flatMap_eq_nil_iff]
    exact fun emission member => ownEmpty emission (mem_filter.mp member).1

theorem Sent.account_other {id : Nat} (sent : Sent link id t data t' taken more)
    (other : id ≠ slot) :
    Account slot t t' [] True more [] := by
  have none : ownEmissions slot more = [] := by
    rw [ownEmissions, filter_eq_nil_iff]
    intro emission member
    simp [sent.own emission member, other]
  exact ⟨sent.advances, sent.short, by simp [none, NoneLost], .nil, by simp [none, takenBytes]⟩

theorem Sent.account (sent : Sent link slot t data t' taken more) :
    Account slot t t' [(data, if taken then some data.length else none)]
      (∀ k, 1000 * k < data.length → link (t.emissions.length + k) = true) more
      [takenBytes more] := by
  have own : ownEmissions slot more = more := by
    rw [ownEmissions, filter_eq_self]
    intro emission member
    simp [sent.own emission member]
  refine ⟨sent.advances, sent.short, ?_, .cons ?_ .nil, by simp [own]⟩
  · rw [own, sent.lost, sent.answers]
  · cases isTaken : taken with
    | true => exact ⟨sent.all isTaken, rfl⟩
    | false => exact sent.bytes

theorem account_rejected : Account slot t t [(data, none)] True [] [[]] :=
  ⟨.refl t, by simp, by simp [ownEmissions, NoneLost], .cons nil_prefix .nil, rfl⟩

theorem mkrnTcpSend_cases (link : Nat → Bool) (t : Tcp) (id : Nat) (data : List UInt8) :
    ((id ≥ tcpMaxConns ∨ (t.conns id).used = false ∨ (t.conns id).state ≠ .established) ∧
      mkrnTcpSend link t id data = (t, none)) ∨
    (((t.conns id).used = true ∧ (t.conns id).state = .established) ∧
      ∃ final taken more, Sent link id t data final taken more ∧
        mkrnTcpSend link t id data = (final, if taken then some data.length else none)) := by
  rw [mkrnTcpSend]
  by_cases outside : id ≥ tcpMaxConns
  · exact .inl ⟨.inl outside, if_pos outside⟩
  by_cases shut : (t.conns id).used = false ∨ (t.conns id).state ≠ .established
  · exact .inl ⟨.inr shut, by rw [if_neg outside, if_pos shut]⟩
  refine .inr ⟨by simpa using shut, ?_⟩
  obtain ⟨more, sent⟩ := @sendLoop_sent link t id data _ (Nat.lt_succ_self data.length)
  refine ⟨_, _, more, sent, ?_⟩
  rw [if_neg outside, if_neg shut]
  dsimp only
  split <;> simp_all

theorem mkrnTcpSend_account (isSlot : slot < tcpMaxConns) (id : Nat) :
    ∃ more parts, Account slot t (mkrnTcpSend link t id data).1
      (sendCalls link slot t [.send id data]) (Takes link slot t (.send id data)) more parts := by
  by_cases own : id = slot
  · subst own
    have calls : sendCalls link id t [.send id data] =
        [(data, (mkrnTcpSend link t id data).2)] := by
      simp [sendCalls]
    rw [calls]
    rcases mkrnTcpSend_cases link t id data with ⟨rejected, result⟩ | ⟨isOpen, final, taken, more,
      sent, result⟩
    · have takes : Takes link id t (.send id data) = True := by
        refine eq_true fun _ used established => ?_
        simp [used, established] at rejected
        omega
      rw [result, takes]
      exact ⟨[], [[]], account_rejected⟩
    · have takes : Takes link id t (.send id data) =
          ∀ k, 1000 * k < data.length → link (t.emissions.length + k) = true :=
        propext ⟨fun takes => takes rfl isOpen.1 isOpen.2, fun every _ _ _ => every⟩
      rw [result, takes]
      exact ⟨more, _, sent.account⟩
  · have calls : sendCalls link slot t [.send id data] = [] := by simp [sendCalls, own]
    have takes : Takes link slot t (.send id data) = True :=
      eq_true fun isSlot => absurd isSlot own
    rw [calls, takes]
    rcases mkrnTcpSend_cases link t id data with ⟨-, result⟩ | ⟨-, final, taken, more, sent, result⟩
    · rw [result]
      obtain ⟨more, account⟩ := (Quiet.refl t).account
      exact ⟨more, [], account⟩
    · rw [result]
      exact ⟨more, [], sent.account_other own⟩

theorem perform_account (isSlot : slot < tcpMaxConns) (action : Action) :
    ∃ more parts, Account slot t (perform link t action) (sendCalls link slot t [action])
      (Takes link slot t action) more parts := by
  cases action with
  | recv id maxlen =>
    obtain ⟨more, account⟩ := mkrnTcpRecv_quiet.account
    exact ⟨more, [], account⟩
  | arrive frame base len srcIp =>
    obtain ⟨more, account⟩ := mkrnTcpHandlePacket_quiet.account
    exact ⟨more, [], account⟩
  | send id data => exact mkrnTcpSend_account isSlot id

theorem actions_account (isSlot : slot < tcpMaxConns) (actions : List Action) :
    ∃ more parts, Account slot t (actions.foldl (perform link) t) (sendCalls link slot t actions)
      (AllTaken link slot t actions) more parts := by
  induction actions generalizing t with
  | nil => exact ⟨[], [], .refl t, by simp, by simp [ownEmissions, NoneLost, AllTaken], .nil, rfl⟩
  | cons action rest ih =>
    obtain ⟨front, parts, first⟩ := @perform_account link t slot isSlot action
    obtain ⟨back, later, second⟩ := @ih (perform link t action)
    have calls : sendCalls link slot t (action :: rest) =
        sendCalls link slot t [action] ++ sendCalls link slot (perform link t action) rest := by
      cases action with
      | send id data => by_cases own : id = slot <;> simp [sendCalls, own]
      | recv id maxlen => simp [sendCalls]
      | arrive frame base len srcIp => simp [sendCalls]
    exact ⟨front ++ back, parts ++ later, calls ▸ first.trans second⟩

/-- The send stream is right exactly when the network takes every chunk. -/
theorem send_stream_iff (link : Nat → Bool) (t : Tcp) (slot : Nat) (actions : List Action)
    (isSlot : slot < tcpMaxConns) (word : (t.conns slot).sndNxt < 4294967296) :
    SendStream link slot t actions ↔ AllTaken link slot t actions := by
  obtain ⟨more, parts, account⟩ := @actions_account link t slot isSlot actions
  have appended : (actions.foldl (perform link) t).emissions.drop t.emissions.length = more := by
    rw [account.advances.1, drop_left]
  have short : ∀ emission ∈ ownEmissions slot more, emission.payload.length < 4294967296 := by
    intro emission member
    have := account.short emission (mem_filter.mp member).1
    omega
  rw [← account.lost, ← contiguous_iff (account.advances.2 slot) word short, SendStream, appended]
  exact ⟨fun stream => stream.1, fun contiguous =>
    ⟨contiguous, parts, account.accepted, account.bytes⟩⟩

/-- Three calls of the owner, the second over several segments, and one by another slot. -/
theorem send_stream_iff_segments :
    0 < tcpMaxConns ∧ ((connected fun _ => true).conns 0).sndNxt < 4294967296 ∧
      SendStream (fun _ => true) 0 (connected fun _ => true)
        [.send 0 [71, 69, 84], .send 0 (List.replicate 3000 65), .send 1 [66], .send 0 [13, 10]] :=
  ⟨by decide, by decide +kernel,
    (send_stream_iff _ _ 0 _ (by decide) (by decide +kernel)).mpr
      ⟨fun _ _ _ _ _ => rfl, fun _ _ _ _ _ => rfl, fun _ _ _ _ _ => rfl, fun _ _ _ _ _ => rfl,
        trivial⟩⟩

/-- The first data segment finds no ARP entry, the second one does. -/
theorem lost_segment_leaves_gap :
    ((connected fun k => k ≠ 2).conns 0).state = .established ∧
      ¬SendStream (fun k => k ≠ 2) 0 (connected fun k => k ≠ 2) [.send 0 [71],
        .send 0 [69, 84]] := by
  refine ⟨by decide +kernel, fun stream => absurd stream.1 ?_⟩
  decide +kernel

end M4KK1.Net
