import M4KK1.Lib.CheckedArray
import Mathlib.Data.UInt

/-!
# The HTTP client

`wget.c` on the replies of `S_TCPRECV`, in a `World` that answers the other calls.
-/

namespace M4KK1.Net

open M4KK1.Lib Function List

def ascii (text : String) : List UInt8 := text.toList.map fun char => UInt8.ofNat char.toNat

/-- `*s >= '0' && *s <= '9'` -/
def isDigit (byte : UInt8) : Bool := 48 ≤ byte && byte ≤ 57

/-- The loop over the digits of one part in `parse_ip`: the value, their number, and the rest. -/
def ipPart : List UInt8 → Nat → Nat → Nat × Nat × List UInt8
  | byte :: rest, v, digits =>
    if isDigit byte then ipPart rest (v * 10 + (byte.toNat - 48)) (digits + 1)
    else (v, digits, byte :: rest)
  | [], v, digits => (v, digits, [])

/-- The loop of `parse_ip` from the part `parts` on; 0 is a failure. -/
def parseIpFrom (parts : Nat) (s : List UInt8) (ip : Nat) : Nat :=
  if parts < 4 then
    let (v, digits, s) := ipPart s 0 0
    if v > 255 ∨ digits = 0 ∨ digits > 3 then 0
    else
      let ip := ip * 256 + v
      if parts + 1 < 4 then
        match s with
        | byte :: rest => if byte ≠ 46 then 0 else parseIpFrom (parts + 1) rest ip
        | [] => 0
      else if s = [] then ip else 0
  else ip
termination_by 4 - parts

def parseIp (s : List UInt8) : Nat := parseIpFrom 0 s 0

/-- `hostbuf`, `port` and `path` -/
structure Target where
  hostbuf : List UInt8
  port : Nat
  path : List UInt8
deriving DecidableEq

/-- The loop that fills `hostbuf`, with room for so many more bytes. -/
def hostLoop : Nat → List UInt8 → List UInt8 → List UInt8 × List UInt8
  | room + 1, byte :: rest, hostbuf =>
    if byte ≠ 58 ∧ byte ≠ 47 then hostLoop room rest (hostbuf ++ [byte])
      else (hostbuf, byte :: rest)
  | _, host, hostbuf => (hostbuf, host)

/-- The loop over the digits of the port, on a 32-bit `int`. -/
def portLoop : List UInt8 → Int → Int × List UInt8
  | byte :: rest, p =>
    if isDigit byte then portLoop rest ((p * 10 + (byte.toNat - 48 : Int)).bmod (2 ^ 32))
      else (p, byte :: rest)
  | [], p => (p, [])

/-- What `musr_cmd_wget` takes from the URL, unless it does not begin with `http://`. -/
def parseUrl (url : List UInt8) : Option Target :=
  if ¬(ascii "http://").isPrefixOf url then none
  else
    let (hostbuf, host) := hostLoop 23 (url.drop 7) []
    let (port, host) :=
      match host with
      | 58 :: rest =>
        let (p, rest) := portLoop rest 0
        (if 0 < p ∧ p < 65536 then p.toNat else 80, rest)
      | host => (80, host)
    let path := if host.head? = some 47 then host else ascii "/"
    some ⟨hostbuf, port, path⟩

/-- The size of `req`. -/
def reqSize : Nat := 512

/-- `req` and `rn` -/
structure Request where
  req : CArray UInt8 reqSize
  rn : Nat

/-- `req[rn++] = byte`, for each byte. -/
def Request.puts (request : Request) : List UInt8 → Except Fault Request
  | [] => return request
  | byte :: rest => do
    let req ← request.req.write request.rn byte
    Request.puts ⟨req, request.rn + 1⟩ rest

variable (req : CArray UInt8 reqSize) (path hostbuf : List UInt8)

/-- The request of `musr_cmd_wget`; the buffer is static. -/
def buildRequest : Except Fault Request := do
  let request ← Request.puts ⟨req, 0⟩ (ascii "GET ")
  let request ← request.puts path
  let request ← request.puts (ascii " HTTP/1.0\r\n")
  let request ← request.puts (ascii "Host: ")
  let request ← request.puts hostbuf
  let request ← request.puts (ascii "\r\n")
  request.puts (ascii "Connection: close\r\n\r\n")

/-- The bytes in the buffer. -/
def Request.sent (request : Request) : List UInt8 := (List.range request.rn).map request.req.cell

def requestText : List UInt8 :=
  ascii "GET " ++ path ++ ascii " HTTP/1.0\r\n" ++ ascii "Host: " ++ hostbuf ++ ascii "\r\n" ++
    ascii "Connection: close\r\n\r\n"

theorem Request.puts_fits {request : Request} {bytes : List UInt8}
    (fits : request.rn + bytes.length ≤ reqSize) :
    ∃ after, request.puts bytes = .ok after ∧ after.rn = request.rn + bytes.length ∧
      after.sent = request.sent ++ bytes := by
  induction bytes generalizing request with
  | nil => exact ⟨request, rfl, rfl, (append_nil _).symm⟩
  | cons byte rest ih =>
    rw [length_cons] at fits
    rw [Request.puts, CArray.write_eq (by omega), ok_bind]
    obtain ⟨after, ran, length, sent⟩ :=
      @ih ⟨⟨update request.req.cell request.rn byte⟩, request.rn + 1⟩
      (by dsimp only; omega)
    dsimp only at length
    refine ⟨after, ran, by rw [length_cons]; omega, ?_⟩
    have earlier : (List.range request.rn).map (update request.req.cell request.rn byte) =
        request.sent := by
      refine map_congr_left fun index member => ?_
      exact update_of_ne (Nat.ne_of_lt (mem_range.mp member)) _ _
    rw [sent, Request.sent, range_succ, map_append, earlier, map_singleton]
    dsimp only
    rw [update_self, append_assoc]
    rfl

theorem Request.puts_over {request : Request} {bytes : List UInt8} (inside : request.rn ≤ reqSize)
    (tooLong : reqSize < request.rn + bytes.length) : request.puts bytes = .error .outOfBounds := by
  induction bytes generalizing request with
  | nil =>
    rw [length_nil] at tooLong
    omega
  | cons byte rest ih =>
    rw [length_cons] at tooLong
    rw [Request.puts]
    by_cases room : request.rn < reqSize
    · rw [CArray.write_eq room, ok_bind]
      exact ih room (by dsimp only; omega)
    · rw [CArray.write, if_neg room]
      rfl

/-- What is put around path and host takes the other 44 bytes. -/
def FitsRequest : Prop := path.length + hostbuf.length ≤ 468

instance (path hostbuf : List UInt8) : Decidable (FitsRequest path hostbuf) :=
  inferInstanceAs (Decidable (_ ≤ _))

theorem requestText_length :
    (requestText path hostbuf).length = 44 + (path.length + hostbuf.length) := by
  have get : (ascii "GET ").length = 4 := by decide
  have version : (ascii " HTTP/1.0\r\n").length = 11 := by decide
  have host : (ascii "Host: ").length = 6 := by decide
  have line : (ascii "\r\n").length = 2 := by decide
  have close : (ascii "Connection: close\r\n\r\n").length = 21 := by decide
  simp only [requestText, length_append, get, version, host, line, close]
  omega

theorem Request.puts_append (request : Request) (first second : List UInt8) :
    (request.puts first >>= fun request => request.puts second) = request.puts
    (first ++ second) := by
  induction first generalizing request with
  | nil => rfl
  | cons byte rest ih =>
    rw [cons_append, Request.puts, Request.puts]
    cases request.req.write request.rn byte with
    | error fault => rfl
    | ok req => exact ih ⟨req, request.rn + 1⟩

theorem buildRequest_eq :
    buildRequest req path hostbuf = Request.puts ⟨req, 0⟩ (requestText path hostbuf) := by
  simp only [buildRequest, requestText, ← Request.puts_append, bind_assoc]

/-- The request is built exactly if it fits the buffer. -/
theorem buildRequest_iff :
    (∃ request, buildRequest req path hostbuf = .ok request) ↔ FitsRequest path hostbuf := by
  have length := requestText_length path hostbuf
  rw [buildRequest_eq, FitsRequest]
  constructor
  · rintro ⟨request, ran⟩
    by_contra tooLong
    rw [Request.puts_over (Nat.zero_le _) (by unfold reqSize; dsimp only; omega)] at ran
    cases ran
  · intro fits
    obtain ⟨request, ran, _⟩ := @Request.puts_fits ⟨req, 0⟩ (requestText path hostbuf)
      (by unfold reqSize; dsimp only; omega)
    exact ⟨request, ran⟩

/-- What the system answers `musr_cmd_wget`, but for `S_TCPRECV`; `none` is a negative result. -/
structure World where
  connects : Bool
  sends : List UInt8 → Bool
  creates : Bool
  writes : List UInt8 → List UInt8 → Option Nat

/-- `idle`, `header_done`, the output file if it is open, and `body_bytes`. -/
structure Download where
  idle : Nat
  headerDone : Bool
  file : Option (List UInt8)
  bodyBytes : Nat
deriving DecidableEq

/-- The search for the end of the header in what one call has returned. -/
def headerEnd : List UInt8 → Nat → Option Nat
  | a :: b :: c :: d :: rest, i =>
    if a = 13 ∧ b = 10 ∧ c = 13 ∧ d = 10 then some (i + 4)
      else headerEnd (b :: c :: d :: rest) (i + 1)
  | _, _ => none

/-- `off`; `none` is `continue`. -/
def bodyStart (headerDone : Bool) (buf : List UInt8) : Option Nat :=
  if headerDone then some 0 else headerEnd buf 0

/-- The output file with what was written to it, opened if it is not yet; `none` is a failure. -/
def openOutput (world : World) (d : Download) : Option (List UInt8) :=
  match d.file with
  | some written => some written
  | none => if world.creates then some [] else none

/-- The loop of `musr_cmd_wget` on the replies of `S_TCPRECV`. -/
def receiveLoop (world : World) : List (Option (List UInt8)) → Download → Option Download
  | [], _ => none
  | none :: _, d => some d
  | some buf :: replies, d =>
    if buf.length = 0 then
      let d := { d with idle := d.idle + 1 }
      if d.idle > 200 then some d else receiveLoop world replies d
    else
      let d := { d with idle := 0 }
      match bodyStart d.headerDone buf with
      | none => receiveLoop world replies d
      | some off =>
        let d := { d with headerDone := true }
        match openOutput world d with
        | none => some d
        | some written =>
          match world.writes written (buf.drop off) with
          | none => some { d with file := some written }
          | some w =>
            receiveLoop world replies
              { d with file := some (written ++
                (buf.drop off).take w), bodyBytes := d.bodyBytes + w }

/-- How `musr_cmd_wget` ends. -/
inductive WgetOutcome where
  | usage
  | unsupported
  | badHost
  | connectFailed
  | sendFailed
  | finished (outfile : List UInt8) (d : Download)
deriving DecidableEq

/-- `musr_cmd_wget` on its arguments, with what the static variables `req` and `idle` hold. -/
def musrCmdWget (world : World) (replies : List (Option (List UInt8))) (req : CArray UInt8 reqSize)
    (idle : Nat) :
    List (List UInt8) → Except Fault WgetOutcome
  | [] => return .usage
  | url :: rest =>
    match parseUrl url with
    | none => return .unsupported
    | some target =>
      if parseIp target.hostbuf = 0 then return .badHost
      else if world.connects = false then return .connectFailed
      else do
        let request ← buildRequest req target.path target.hostbuf
        if world.sends request.sent = false then return .sendFailed
        else
          match receiveLoop world replies ⟨idle, false, none, 0⟩ with
          | none => throw .outOfFuel
          | some d => return .finished (rest.head?.getD (ascii "index.html")) d

end M4KK1.Net
