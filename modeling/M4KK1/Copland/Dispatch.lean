import M4KK1.Copland.Events
import M4KK1.Copland.CompositorRuns

/-!
# From the connection to the request

`cp_compositor_dispatch` from the request ring to the handler. A message stands for its reader.
-/

namespace M4KK1.Copland

open M4KK1.Lib

def messageWord {cap : Nat} (msg : CArray UInt8 cap) (pos : Nat) : UInt32 :=
  UInt32.ofNat ((msg.cell pos).toNat ||| (msg.cell (pos + 1)).toNat <<< 8 |||
    (msg.cell (pos + 2)).toNat <<< 16 ||| (msg.cell (pos + 3)).toNat <<< 24)

def messageWords {cap : Nat} (msg : CArray UInt8 cap) (size : Nat) : Words :=
  (List.range ((size - cpMsgHdr) / 4)).map fun index => messageWord msg (cpMsgHdr + 4 * index)

variable {cap : Nat} {r : MsgReader cap} {words : Words}

theorem wordAt_messageWord {msg : CArray UInt8 cap} {pos : Nat} (inside : pos + 4 ≤ cap) :
    wordAt msg pos = .ok (messageWord msg pos).toNat := by
  have b0 := (msg.cell pos).toNat_lt
  have b1 := (msg.cell (pos + 1)).toNat_lt
  have b2 := (msg.cell (pos + 2)).toNat_lt
  have b3 := (msg.cell (pos + 3)).toNat_lt
  rw [wordAt, CArray.read_eq (by omega), ok_bind, CArray.read_eq (by omega), ok_bind,
    CArray.read_eq (by omega), ok_bind, CArray.read_eq (by omega), ok_bind]
  congr 1
  unfold messageWord
  rw [joined_bytes b0 b1 b2, UInt32.toNat_ofNat', Nat.mod_eq_of_lt]
  omega

/-- The events of a request, sent one after the other. -/
def deliver (link : Link) : List Event → Except Fault Link
  | [] => .ok link
  | event :: events => do
    let (link, _) ← emit link event.obj event.opcode event.fields
    deliver link events

/-- `cp_compositor_dispatch` for the client in slot `i`. -/
def cpCompositorDispatch (c : Compositor) (i : Fin cpMaxClients) (link : Link) :
    Except Fault (Compositor × Link × Int) :=
  if (c.clients i).active = false ∨ (c.clients i).conn = false then .ok (c, link, 0)
  else do
    let (ring, scratch, rc) ← cpRingRead link.conn.requests link.scratch cpMsgMax
    let link := { link with conn := { link.conn with reqHead := ring.head }, scratch := scratch }
    if rc ≤ 0 then .ok (c, link, rc)
    else do
      let obj ← headerObj scratch
      let opcode ← headerOpcode scratch
      let (c, events, rc) := dispatchRequest c i ⟨obj, opcode, messageWords scratch rc.toNat⟩
      let link ← deliver link events
      .ok (c, link, rc)

/-- A dispatched message is a step of the compositor, or leaves it alone. -/
theorem cpCompositorDispatch_step {c next : Compositor} {i : Fin cpMaxClients} {link after : Link}
    {rc : Int} (returned : cpCompositorDispatch c i link = .ok (next, after, rc)) :
    next = c ∨ ∃ req, CompositorStep c (.request i req) next := by
  unfold cpCompositorDispatch at returned
  split at returned
  case isTrue =>
    cases returned
    exact Or.inl rfl
  case isFalse attached =>
    have active : (c.clients i).active = true := by
      by_contra inactive
      exact attached (Or.inl (by simpa using inactive))
    cases read : cpRingRead link.conn.requests link.scratch cpMsgMax with
    | error fault =>
      rw [read] at returned
      cases returned
    | ok value =>
      obtain ⟨ring, scratch, size⟩ := value
      rw [read, ok_bind] at returned
      dsimp only at returned
      split at returned
      case isTrue =>
        cases returned
        exact Or.inl rfl
      case isFalse =>
        cases header : headerObj scratch with
        | error fault =>
          rw [header] at returned
          cases returned
        | ok obj =>
          rw [header, ok_bind] at returned
          cases code : headerOpcode scratch with
          | error fault =>
            rw [code] at returned
            cases returned
          | ok opcode =>
            rw [code, ok_bind] at returned
            generalize request : (⟨obj, opcode, messageWords scratch size.toNat⟩ : Request) = req
              at returned
            cases sent : deliver _ (dispatchRequest c i req).2.1 with
            | error fault =>
              rw [sent] at returned
              cases returned
            | ok link =>
              rw [sent, ok_bind] at returned
              cases returned
              exact Or.inr ⟨req, .request active⟩

end M4KK1.Copland
