import M4KK1.Net.Tcp
import M4KK1.Net.Wget

/-!
# The body of a response

`wget` looks for the end of the header in each received piece by itself.
-/

namespace M4KK1.Net

open M4KK1.Lib List

/-- CR LF CR LF. -/
def blankLine : List UInt8 := [13, 10, 13, 10]

/-- CR LF CR LF stands in the bytes at an index. -/
def BlankAt (bytes : List UInt8) (i : Nat) : Prop := (bytes.drop i).take 4 = blankLine

instance (bytes : List UInt8) (i : Nat) : Decidable (BlankAt bytes i) :=
  inferInstanceAs (Decidable (_ = _))

/-- The index at which the header of a response ends: the first CR LF CR LF. -/
def HeaderEnds (response : List UInt8) (i : Nat) : Prop :=
  BlankAt response i ∧ ∀ earlier < i, ¬BlankAt response earlier

instance (response : List UInt8) (i : Nat) : Decidable (HeaderEnds response i) :=
  inferInstanceAs (Decidable (_ ∧ _))

/-- The pieces are what the receive calls handed out, 2048 bytes at most. -/
def Split (response : List UInt8) (pieces : List (List UInt8)) : Prop :=
  pieces.flatten = response ∧ ∀ piece ∈ pieces, 1 ≤ piece.length ∧ piece.length ≤ 2048

/-- The replies behind the response: -1, or no more data until the loop gives up. -/
def Ending (replies : List (Option (List UInt8))) : Prop :=
  replies = [none] ∨ replies = List.replicate 201 (some [])

/-- Everything succeeds, and writes do so in full. -/
structure World.Serves (world : World) : Prop where
  connects : world.connects = true
  sends : ∀ request, world.sends request = true
  creates : world.creates = true
  writes : ∀ written data, world.writes written data = some data.length

/-- The end of the header lies within one piece. -/
def WithinPiece (pieces : List (List UInt8)) (i : Nat) : Prop :=
  ∃ before piece after, pieces = before ++ piece :: after ∧ before.flatten.length ≤ i ∧
    i + 4 ≤ before.flatten.length + piece.length

variable {bytes : List UInt8} {i : Nat}

theorem BlankAt.length_le (blank : BlankAt bytes i) : i + 4 ≤ bytes.length := by
  have length := congrArg List.length blank
  rw [List.length_take, length_drop] at length
  have four : blankLine.length = 4 := rfl
  omega

theorem blankAt_append_left (inside : i + 4 ≤ bytes.length) (rest : List UInt8) :
    BlankAt (bytes ++ rest) i ↔ BlankAt bytes i := by
  unfold BlankAt
  rw [drop_append_of_le_length (by omega), take_append_of_le_length (by rw [length_drop]; omega)]

theorem blankAt_append_right (bytes rest : List UInt8) (i : Nat) :
    BlankAt (bytes ++ rest) (bytes.length + i) ↔ BlankAt rest i := by
  unfold BlankAt
  rw [drop_append, drop_eq_nil_of_le (by omega), Nat.add_sub_cancel_left, nil_append]

theorem headerEnd_some {off : Nat} (found : headerEnd bytes i = some off) :
    ∃ k, off = i + k + 4 ∧ HeaderEnds bytes k := by
  induction bytes, i using headerEnd.induct with
  | case1 a b c d rest i here =>
    rw [headerEnd, if_pos here] at found
    cases found
    obtain ⟨rfl, rfl, rfl, rfl⟩ := here
    exact ⟨0, rfl, rfl, fun earlier less => absurd less (Nat.not_lt_zero earlier)⟩
  | case2 a b c d rest i notHere ih =>
    rw [headerEnd, if_neg notHere] at found
    obtain ⟨k, isOff, blank, first⟩ := ih found
    refine ⟨k + 1, by omega, blank, fun earlier less => ?_⟩
    cases earlier with
    | zero =>
      intro same
      have letters : [a, b, c, d] = [13, 10, 13, 10] := same
      simp only [List.cons.injEq, and_true] at letters
      exact notHere letters
    | succ earlier => exact first earlier (Nat.lt_of_succ_lt_succ less)
  | case3 bytes i short =>
    rw [headerEnd] at found
    · cases found
    · exact short

theorem headerEnd_none (missing : headerEnd bytes i = none) (k : Nat) : ¬BlankAt bytes k := by
  induction bytes, i using headerEnd.induct generalizing k with
  | case1 a b c d rest i here =>
    rw [headerEnd, if_pos here] at missing
    cases missing
  | case2 a b c d rest i notHere ih =>
    rw [headerEnd, if_neg notHere] at missing
    cases k with
    | zero =>
      intro same
      have letters : [a, b, c, d] = [13, 10, 13, 10] := same
      simp only [List.cons.injEq, and_true] at letters
      exact notHere letters
    | succ k => exact ih missing k
  | case3 bytes i short =>
    intro blank
    have long := blank.length_le
    match bytes, short, long with
    | a :: b :: c :: d :: rest, short, _ => exact short a b c d rest rfl
    | [], _, long | [_], _, long | [_, _], _, long | [_, _, _], _, long =>
      simp only [length_cons, length_nil] at long
      omega

/-- The bytes behind the first piece with the end of a header, and the pieces after it. -/
def savedFrom : List (List UInt8) → Option (List UInt8)
  | [] => none
  | piece :: rest =>
    match headerEnd piece 0 with
    | some off => some (piece.drop off ++ rest.flatten)
    | none => savedFrom rest

theorem savedFrom_length {pieces : List (List UInt8)} {saved : List UInt8}
    (isSaved : savedFrom pieces = some saved) :
    saved.length + 4 ≤ pieces.flatten.length := by
  induction pieces with
  | nil => cases isSaved
  | cons piece rest ih =>
    rw [flatten_cons, length_append]
    rw [savedFrom] at isSaved
    cases found : headerEnd piece 0 with
    | some off =>
      rw [found] at isSaved
      obtain rfl := Option.some.inj isSaved
      obtain ⟨k, isOff, blank, _⟩ := headerEnd_some found
      have long := blank.length_le
      rw [length_append, length_drop]
      omega
    | none =>
      rw [found] at isSaved
      have := ih isSaved
      omega

theorem withinPiece_cons {piece : List UInt8} {rest : List (List UInt8)} :
    WithinPiece (piece :: rest) i ↔
      i + 4 ≤ piece.length ∨ (piece.length ≤ i ∧ WithinPiece rest (i - piece.length)) := by
  constructor
  · rintro ⟨before, inner, after, split, low, high⟩
    cases before with
    | nil =>
      obtain ⟨rfl, _⟩ := List.cons.inj split
      rw [flatten_nil, length_nil, Nat.zero_add] at high
      exact .inl high
    | cons first before =>
      obtain ⟨rfl, isRest⟩ := List.cons.inj split
      rw [flatten_cons, length_append] at low high
      exact .inr ⟨by omega, before, inner, after, isRest, by omega, by omega⟩
  · rintro (inside | ⟨behind, before, inner, after, rfl, low, high⟩)
    · refine ⟨[], piece, rest, rfl, Nat.zero_le _, ?_⟩
      rw [flatten_nil, length_nil, Nat.zero_add]
      exact inside
    · refine ⟨piece :: before, inner, after, rfl, ?_, ?_⟩
      all_goals
        rw [flatten_cons, length_append]
        omega

theorem savedFrom_iff {pieces : List (List UInt8)} (ends : HeaderEnds pieces.flatten i) :
    savedFrom pieces = some (pieces.flatten.drop (i + 4)) ↔ WithinPiece pieces i := by
  induction pieces generalizing i with
  | nil => exact absurd ends.1.length_le (by simp)
  | cons piece rest ih =>
    rw [flatten_cons] at ends ⊢
    have long := ends.1.length_le
    rw [length_append] at long
    rw [savedFrom, withinPiece_cons]
    cases found : headerEnd piece 0 with
    | some off =>
      obtain ⟨k, isOff, blank, first⟩ := headerEnd_some found
      have inside := blank.length_le
      have same : i = k := by
        rcases Nat.lt_trichotomy i k with less | same | more
        · exact absurd ((blankAt_append_left (by omega) _).mp ends.1) (first i less)
        · exact same
        · exact absurd ((blankAt_append_left inside _).mpr blank) (ends.2 k more)
      refine iff_of_true ?_ (.inl (by omega))
      rw [drop_append_of_le_length (by omega), isOff, same, Nat.zero_add]
    | none =>
      have notInside : ¬i + 4 ≤ piece.length := fun inside =>
        headerEnd_none found i ((blankAt_append_left inside _).mp ends.1)
      dsimp only
      rcases Nat.lt_or_ge i piece.length with less | behind
      · -- The end of the header is split: what a later piece saves is too short.
        refine iff_of_false (fun isSaved => ?_) ?_
        · have short := savedFrom_length isSaved
          rw [length_drop, length_append] at short
          omega
        · rintro (inside | ⟨behind, _⟩)
          · exact notInside inside
          · omega
      · have restEnds : HeaderEnds rest.flatten (i - piece.length) := by
          have shift : piece.length + (i - piece.length) = i := by omega
          refine ⟨?_, fun earlier less blank => ?_⟩
          · rw [← blankAt_append_right piece, shift]
            exact ends.1
          · exact ends.2 (piece.length + earlier) (by omega)
              ((blankAt_append_right piece _ _).mpr blank)
        have sameDrop : (piece ++ rest.flatten).drop (i + 4) =
            rest.flatten.drop (i - piece.length + 4) := by
          rw [drop_append, drop_eq_nil_of_le (by omega), nil_append]
          exact congrArg (rest.flatten.drop ·) (by omega)
        rw [sameDrop, ih restEnds]
        exact ⟨fun within => .inr ⟨behind, within⟩, fun within => (within.resolve_left notInside).2⟩

theorem receiveLoop_quiet (world : World) {count : Nat} (some : 0 < count) {d : Download}
    (enough : 200 < d.idle + count) :
    ∃ after, receiveLoop world (List.replicate count (.some [])) d = .some after ∧
      after.file = d.file := by
  induction count generalizing d with
  | zero => exact absurd some (Nat.lt_irrefl 0)
  | succ count ih =>
    rw [replicate_succ, receiveLoop, if_pos length_nil]
    dsimp only
    by_cases last : d.idle + 1 > 200
    · rw [if_pos last]
      exact ⟨_, rfl, rfl⟩
    · rw [if_neg last]
      exact ih (by omega) (by dsimp only; omega)

theorem receiveLoop_ending (world : World) {replies : List (Option (List UInt8))}
    (ending : Ending replies)
    (d : Download) : ∃ after, receiveLoop world replies d = some after ∧ after.file = d.file := by
  rcases ending with rfl | rfl
  · exact ⟨d, rfl, rfl⟩
  · exact receiveLoop_quiet world (by decide) (by omega)

variable {world : World} {replies : List (Option (List UInt8))} {pieces : List (List UInt8)}
    {d : Download}

theorem receiveLoop_body (serves : world.Serves) (ending : Ending replies)
    (some : ∀ piece ∈ pieces, piece.length ≠ 0) (headerDone : d.headerDone = true)
    {written : List UInt8}
    (opened : d.file = .some written) :
    ∃ after, receiveLoop world (pieces.map .some ++ replies) d = .some after ∧
      after.file = .some (written ++ pieces.flatten) := by
  induction pieces generalizing d written with
  | nil =>
    obtain ⟨after, ran, same⟩ := receiveLoop_ending world ending d
    refine ⟨after, ran, ?_⟩
    rw [same, opened, flatten_nil, append_nil]
  | cons piece rest ih =>
    have starts : bodyStart d.headerDone piece = .some 0 := if_pos headerDone
    rw [map_cons, cons_append, receiveLoop, if_neg (some piece mem_cons_self)]
    dsimp only
    rw [starts]
    dsimp only
    rw [openOutput, opened]
    dsimp only
    rw [serves.writes, drop_zero]
    dsimp only
    rw [take_length]
    obtain ⟨after, ran, saved⟩ := ih (fun other member => some other (mem_cons_of_mem _ member))
      (d := ⟨0, true, .some (written ++ piece), d.bodyBytes + piece.length⟩) rfl rfl
    refine ⟨after, ran, ?_⟩
    rw [saved, flatten_cons, append_assoc]

theorem receiveLoop_header (serves : world.Serves) (ending : Ending replies)
    (some : ∀ piece ∈ pieces, piece.length ≠ 0) (header : d.headerDone = false)
    (closed : d.file = none) :
    ∃ after, receiveLoop world (pieces.map .some ++ replies) d = .some after ∧
      after.file = savedFrom pieces := by
  induction pieces generalizing d with
  | nil =>
    obtain ⟨after, ran, same⟩ := receiveLoop_ending world ending d
    exact ⟨after, ran, same.trans closed⟩
  | cons piece rest ih =>
    have restSome : ∀ other ∈ rest, other.length ≠ 0 :=
      fun other member => some other (mem_cons_of_mem _ member)
    have starts : bodyStart d.headerDone piece = headerEnd piece 0 := by
      rw [header]
      rfl
    rw [map_cons, cons_append, receiveLoop, if_neg (some piece mem_cons_self), savedFrom]
    dsimp only
    rw [starts]
    cases headerEnd piece 0 with
    | none => exact ih (d := { d with idle := 0 }) restSome header closed
    | some off =>
      dsimp only
      rw [openOutput, closed]
      dsimp only
      rw [if_pos serves.creates]
      dsimp only
      rw [serves.writes]
      dsimp only
      rw [take_length, nil_append]
      exact receiveLoop_body serves ending restSome rfl rfl

/-- `wget` on a URL and the replies saves these bytes. -/
def Saves (world : World) (replies : List (Option (List UInt8))) (args : List (List UInt8))
    (body : List UInt8) :
    Prop :=
  ∀ req idle, ∃ outfile d, musrCmdWget world replies req idle args = .ok (.finished outfile d) ∧
    d.file = some body

/-- The request of a URL, which is built for the host of an IP number, stays inside its buffer. -/
def RequestInside (target : Target) : Prop :=
  parseIp target.hostbuf ≠ 0 → ∀ req, ∃ request,
  buildRequest req target.path target.hostbuf = .ok request

theorem requestInside_iff (target : Target) :
    RequestInside target ↔ parseIp target.hostbuf = 0 ∨ FitsRequest target.path target.hostbuf := by
  constructor
  · intro inside
    refine or_iff_not_imp_left.mpr fun isIp => ?_
    exact (buildRequest_iff (.fill 0) _ _).mp (inside isIp _)
  · rintro (isName | fits) isIp req
    · exact absurd isName isIp
    · exact (buildRequest_iff req _ _).mpr fits

theorem saves_iff {url : List UInt8} {target : Target} (parsed : parseUrl url = some target)
    (isIp : parseIp target.hostbuf ≠ 0) (serves : world.Serves) (rest : List (List UInt8))
    {response : List UInt8}
    (ends : HeaderEnds response i) (split : Split response pieces) (ending : Ending replies) :
    Saves world (pieces.map some ++ replies) (url :: rest) (response.drop (i + 4)) ↔
      FitsRequest target.path target.hostbuf ∧ WithinPiece pieces i := by
  obtain ⟨rfl, sizes⟩ := split
  have filled : ∀ piece ∈ pieces, piece.length ≠ 0 :=
    fun piece member => Nat.ne_of_gt (sizes piece member).1
  have loop (idle : Nat) :=
    receiveLoop_header (d := ⟨idle, false, none, 0⟩) serves ending filled rfl rfl
  constructor
  · intro saves
    obtain ⟨outfile, d, finished, file⟩ := saves (.fill 0) 0
    rw [musrCmdWget, parsed] at finished
    dsimp only at finished
    rw [if_neg isIp, serves.connects, if_neg Bool.noConfusion] at finished
    obtain ⟨request, built, finished⟩ := bind_ok finished
    obtain ⟨after, received, saved⟩ := loop 0
    rw [serves.sends, if_neg Bool.noConfusion, received] at finished
    cases finished
    exact ⟨(buildRequest_iff _ _ _).mp ⟨request, built⟩,
      (savedFrom_iff ends).mp (saved.symm.trans file)⟩
  · rintro ⟨fits, within⟩ req idle
    obtain ⟨request, built⟩ := (buildRequest_iff req _ _).mpr fits
    obtain ⟨after, received, saved⟩ := loop idle
    refine ⟨rest.head?.getD (ascii "index.html"), after, ?_,
      saved.trans ((savedFrom_iff ends).mpr within)⟩
    rw [musrCmdWget, parsed]
    dsimp only
    rw [if_neg isIp, serves.connects, if_neg Bool.noConfusion, built, ok_bind, serves.sends,
      if_neg Bool.noConfusion,
      received]
    rfl

/-- The body is saved just when path and host have at most 468 bytes and the header ends in one
piece. -/
theorem saves_body_iff {url : List UInt8} {target : Target} (parsed : parseUrl url = some target) :
    (RequestInside target ↔ parseIp target.hostbuf = 0 ∨ FitsRequest target.path target.hostbuf) ∧
    ∀ (world : World) (rest : List (List UInt8)) (response : List UInt8) (i : Nat)
      (pieces : List (List UInt8)) (replies : List (Option (List UInt8))),
      parseIp target.hostbuf ≠ 0 → world.Serves →
      HeaderEnds response i → Split response pieces → Ending replies →
      (Saves world (pieces.map some ++ replies) (url :: rest) (response.drop (i + 4)) ↔
        FitsRequest target.path target.hostbuf ∧ WithinPiece pieces i) := by
  refine ⟨requestInside_iff target, ?_⟩
  intro world rest response i pieces replies isIp serves ends split ending
  exact saves_iff parsed isIp serves rest ends split ending

/-- A system in which everything succeeds. -/
def servingWorld : World := ⟨true, fun _ => true, true, fun _ data => some data.length⟩

theorem servingWorld_serves : servingWorld.Serves := ⟨rfl, fun _ => rfl, rfl, fun _ _ => rfl⟩

/-- The first piece of a response, up to the last byte but one of the end of its header. -/
def cutHeader : List UInt8 := ascii "HTTP/1.0 200 OK\r\n\r"

theorem cutHeader_ends : HeaderEnds (cutHeader ++ ascii "\nhi") 15 := by decide

theorem parseUrl_path (path : List UInt8) :
    parseUrl (ascii "http://1.1.1.1/" ++ path) = some ⟨ascii "1.1.1.1", 80, ascii "/" ++ path⟩ :=
      rfl

theorem parseIp_short : parseIp (ascii "1.1.1.1") ≠ 0 := by
  simp [parseIp, parseIpFrom, ipPart, ascii, isDigit]

/-- The header ends in the first piece, and the body goes on in the second. -/
theorem saves_body_whole :
    Saves servingWorld ([cutHeader ++ ascii "\nh", ascii "i"].map some ++ [none])
    [ascii "http://1.1.1.1/"] (ascii "hi") := by
  have split : Split (cutHeader ++ ascii "\nhi") [cutHeader ++ ascii "\nh", ascii "i"] :=
    ⟨by decide, by decide⟩
  refine ((saves_body_iff (parseUrl_path [])).2 servingWorld [] _ 15 _
    [none] parseIp_short servingWorld_serves
    cutHeader_ends split (.inl rfl)).mpr ⟨by decide, ?_⟩
  exact ⟨[], cutHeader ++ ascii "\nh", [ascii "i"], rfl, by decide, by decide⟩

/-- A header that ends in two pieces is not found, and a long path overflows the request. -/
theorem not_saves_body :
    (¬∀ (url : List UInt8) (target : Target) (world : World) (rest : List (List UInt8))
      (response : List UInt8) (i : Nat) (pieces : List (List UInt8))
      (replies : List (Option (List UInt8))),
      parseUrl url = some target →
      parseIp target.hostbuf ≠ 0 → world.Serves → HeaderEnds response i → Split response pieces →
      Ending replies →
      Saves world (pieces.map some ++ replies) (url :: rest) (response.drop (i + 4))) ∧
    ¬∀ (url : List UInt8) (target : Target), parseUrl url = some target → RequestInside target := by
  constructor
  · intro saves
    have split : Split (cutHeader ++ ascii "\nhi") [cutHeader, ascii "\nhi"] :=
      ⟨by decide, by decide⟩
    have saved :=
      saves _ _ servingWorld [] _ 15 [cutHeader,
      ascii "\nhi"] [none] (parseUrl_path []) parseIp_short
      servingWorld_serves cutHeader_ends split (.inl rfl)
    have within :=
      ((saves_iff (parseUrl_path []) parseIp_short servingWorld_serves [] cutHeader_ends split
      (.inl rfl)).mp saved).2
    have length : cutHeader.length = 18 := by decide
    rcases withinPiece_cons.mp within with inside | ⟨behind, _⟩ <;> omega
  · intro inside
    obtain ⟨path, long⟩ : ∃ path : List UInt8, path.length = 468 := ⟨_, length_replicate (a := 97)⟩
    have fits :=
      ((requestInside_iff _).mp (inside _ _ (parseUrl_path path))).resolve_left parseIp_short
    have host : (ascii "1.1.1.1").length = 7 := by decide
    have root : (ascii "/").length = 1 := by decide
    unfold FitsRequest at fits
    rw [length_append, long, host, root] at fits
    exact absurd fits (by decide)

end M4KK1.Net
