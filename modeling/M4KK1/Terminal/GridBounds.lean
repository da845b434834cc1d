import Mathlib.Data.List.Induction
import M4KK1.Terminal.Grid

/-!
# The bounds of the grid

The cursor may stand in the column behind a full line, and two erasing sequences forget that.
-/

namespace M4KK1.Terminal

open List

variable {t : Grid}

/-- A cell of `term_lines`. -/
def Inside (cell : Int × Int) : Prop :=
  0 ≤ cell.1 ∧ cell.1 < termRows + termScrollback ∧ 0 ≤ cell.2 ∧ cell.2 < termCols

/-- The bounds of the cursor, the viewport and the parameters, and of all accesses so far. -/
structure Grid.InBounds (t : Grid) : Prop where
  row : 0 ≤ t.row ∧ t.row < termRows
  col : 0 ≤ t.col ∧ t.col ≤ termCols
  view : 0 ≤ t.scrollback ∧ t.scrollback ≤ t.top ∧ t.top ≤ termScrollback
  params : t.nparams ≤ maxParams
  accesses : ∀ cell ∈ t.accesses, Inside cell

theorem mem_span {lo hi x : Int} : x ∈ span lo hi ↔ lo ≤ x ∧ x ≤ hi := by
  rw [span, mem_map]
  constructor
  · rintro ⟨k, member, rfl⟩
    have := mem_range.mp member
    omega
  · intro inside
    exact ⟨(x - lo).toNat, mem_range.mpr (by omega), by omega⟩

theorem mem_cells {rows cols : List Int} {cell : Int × Int} :
    cell ∈ cells rows cols ↔ cell.1 ∈ rows ∧ cell.2 ∈ cols := by
  rw [cells, mem_flatMap]
  constructor
  · rintro ⟨r, isRow, member⟩
    obtain ⟨c, isCol, rfl⟩ := mem_map.mp member
    exact ⟨isRow, isCol⟩
  · rintro ⟨isRow, isCol⟩
    exact ⟨cell.1, isRow, mem_map.mpr ⟨cell.2, isCol, rfl⟩⟩

theorem allCells_inside : ∀ cell ∈ allCells, Inside cell := by
  intro cell member
  obtain ⟨isRow, isCol⟩ := mem_cells.mp member
  rw [mem_span] at isRow isCol
  exact ⟨isRow.1, by have := isRow.2; omega, isCol.1, by have := isCol.2; omega⟩

namespace Grid

theorem dmgRow_inBounds {r : Int} : (t.dmgRow r).InBounds ↔ t.InBounds := by
  rw [dmgRow]
  split
  · exact Iff.rfl
  · exact ⟨fun bounds => { bounds with }, fun bounds => { bounds with }⟩

@[simp] theorem dmgRow_row {r : Int} : (t.dmgRow r).row = t.row := by
  rw [dmgRow]
  split <;> rfl

@[simp] theorem dmgRow_col {r : Int} : (t.dmgRow r).col = t.col := by
  rw [dmgRow]
  split <;> rfl

theorem dmgAllRows_inBounds : t.dmgAllRows.InBounds ↔ t.InBounds :=
  ⟨fun bounds => { bounds with }, fun bounds => { bounds with }⟩

theorem blankCells_eq (t : Grid) (r lo hi : Int) : ∃ lines, t.blankCells r lo hi =
      { t with lines := lines, accesses := t.accesses ++ (span lo hi).map fun c => (r, c) } := by
  rw [blankCells]
  induction span lo hi generalizing t with
  | nil => exact ⟨t.lines, by simp⟩
  | cons c cols ih =>
    obtain ⟨lines, isState⟩ := ih (t.write r c blank)
    refine ⟨lines, ?_⟩
    rw [foldl_cons, isState]
    simp [write]

@[simp] theorem blankCells_col (r lo hi : Int) : (t.blankCells r lo hi).col = t.col := by
  obtain ⟨lines, isState⟩ := t.blankCells_eq r lo hi
  rw [isState]

theorem newline_col : t.newline.col = 0 := by
  rw [newline]
  dsimp only
  split
  · rw [dmgRow_col, dmgRow_col]
  · have scrolled : (if t.top < termScrollback then { { t with col := 0 } with top := t.top + 1 }
        else ({ t with col := 0 } : Grid).shiftUp).col = 0 := by
      split
      · rfl
      · rw [shiftUp, blankCells_col]
    rw [dmgAllRows, blankCells_col]
    exact scrolled

theorem eraseRows_eq (t : Grid) (lo hi loC hiC : Int) :
    ∃ lines, t.eraseRows lo hi loC hiC = { t with
      lines := lines
      accesses := t.accesses ++ (span lo hi).flatMap fun r =>
        (span (if r = lo then loC else 0) (if r = hi then hiC else termCols - 1)).map fun c =>
          (t.top + r, c) } := by
  rw [eraseRows]
  generalize span lo hi = rows
  induction rows generalizing t with
  | nil => exact ⟨t.lines, by simp⟩
  | cons r rows ih =>
    rw [foldl_cons]
    obtain ⟨lines, isState⟩ :=
      t.blankCells_eq (t.top + r) (if r = lo then loC else 0) (if r = hi then hiC else termCols - 1)
    rw [isState]
    obtain ⟨lines', isState'⟩ := ih { t with
      lines := lines
      accesses :=
        t.accesses ++ (span (if r = lo then loC else 0) (if r = hi then hiC else termCols - 1)).map
        fun c => (t.top + r, c) }
    rw [isState']
    exact ⟨lines', by simp⟩

end Grid

variable (ch : UInt8)

namespace Grid.InBounds

section

variable (bounds : t.InBounds)

include bounds

theorem access {more : List (Int × Int)} (inside : ∀ cell ∈ more, Inside cell)
    (lines : Int → Int → Cell) :
    ({ t with lines := lines, accesses := t.accesses ++ more } : Grid).InBounds := by
  refine ⟨bounds.row, bounds.col, bounds.view, bounds.params, fun cell member => ?_⟩
  rcases mem_append.mp member with earlier | later
  · exact bounds.accesses cell earlier
  · exact inside cell later

theorem write {r c : Int} (inside : Inside (r, c)) (cell : Cell) : (t.write r c cell).InBounds :=
  bounds.access (by simpa using inside) _

theorem blankCells {r lo hi : Int} (inside : ∀ c, lo ≤ c → c ≤ hi → Inside (r, c)) :
    (t.blankCells r lo hi).InBounds := by
  obtain ⟨lines, isState⟩ := t.blankCells_eq r lo hi
  rw [isState]
  refine bounds.access ?_ lines
  intro cell member
  obtain ⟨c, isCol, rfl⟩ := mem_map.mp member
  obtain ⟨above, below⟩ := mem_span.mp isCol
  exact inside c above below

theorem cursor {c : Int} (above : 0 ≤ c) (below : c < termCols) : Inside (t.top + t.row, c) := by
  obtain ⟨low, high⟩ := bounds.row
  obtain ⟨atLeast, raised, atMost⟩ := bounds.view
  exact ⟨by dsimp only; omega, by dsimp only; omega, above, below⟩

theorem moved (row col : Int) (onScreen : 0 ≤ row ∧ row < termRows)
    (inLine : 0 ≤ col ∧ col ≤ termCols) : ({ t with row := row, col := col } : Grid).InBounds :=
  { bounds with row := onScreen, col := inLine }

theorem startOfLine : ({ t with col := 0 } : Grid).InBounds :=
  bounds.moved t.row 0 bounds.row (by decide)

theorem screenRow {r c : Int} (onScreen : 0 ≤ r ∧ r < termRows) (inLine : 0 ≤ c ∧ c < termCols) :
    Inside (t.top + r, c) :=
  (bounds.moved r 0 onScreen (by decide)).cursor inLine.1 inLine.2

theorem shiftUp : t.shiftUp.InBounds := by
  refine (bounds.access allCells_inside fun r => t.lines (r + 1)).blankCells fun c above below => ?_
  have rows : termRows = 25 := rfl
  have history : termScrollback = 500 := rfl
  exact ⟨by dsimp only; omega, by dsimp only; omega, above, by dsimp only; omega⟩

theorem newline : t.newline.InBounds := by
  have rows : termRows = 25 := rfl
  rw [Grid.newline]
  dsimp only
  split
  · next inside =>
    have damaged := dmgRow_inBounds (r := t.row) |>.mpr bounds.startOfLine
    rw [dmgRow_inBounds]
    refine ⟨?_, damaged.col, damaged.view, damaged.params, damaged.accesses⟩
    rw [dmgRow_row]
    have := bounds.row.1
    dsimp only
    omega
  · rw [dmgAllRows_inBounds]
    have scrolled : (if t.top < termScrollback then { { t with col := 0 } with top := t.top + 1 }
        else ({ t with col := 0 } : Grid).shiftUp).InBounds := by
      split
      · next room =>
        obtain ⟨atLeast, raised, -⟩ := bounds.view
        exact { bounds with
          col := bounds.startOfLine.col,
          view := ⟨atLeast, by dsimp only; omega, by dsimp only; omega⟩ }
      · exact bounds.startOfLine.shiftUp
    refine scrolled.blankCells fun c above below => ?_
    have bottom := scrolled.screenRow (r := termRows - 1) (c := c) (by omega) ⟨above, by omega⟩
    rw [← Int.add_sub_assoc] at bottom
    exact bottom

theorem tabColumns (attr bg : BitVec 16) (n : Nat) : (Grid.tabColumns attr bg n t).InBounds := by
  induction n generalizing t with
  | zero => exact bounds
  | succ n ih =>
    rw [Grid.tabColumns]
    split
    · next inside =>
      have written := bounds.write (bounds.cursor bounds.col.1 inside) ⟨32, attr, bg⟩
      refine ih (written.moved t.row (t.col + 1) bounds.row ?_)
      have := bounds.col.1
      omega
    · exact bounds

theorem putcAttr (attr bg : BitVec 16) : (t.putcAttr ch attr bg).InBounds := by
  rw [Grid.putcAttr]
  split
  · exact bounds.newline
  split
  · exact bounds.startOfLine
  split
  · rw [dmgRow_inBounds]
    obtain ⟨left, right⟩ := bounds.col
    have cols : termCols = 80 := rfl
    split
    · next inside =>
      have back := bounds.moved t.row (t.col - 1) bounds.row (by omega)
      exact back.write (back.cursor (by dsimp only; omega) (by dsimp only; omega)) _
    · exact bounds.write (bounds.cursor left (by omega)) _
  split
  · exact dmgRow_inBounds.mpr (bounds.tabColumns ..)
  split
  · exact bounds
  · rw [dmgRow_inBounds]
    -- Behind a full line the character goes to the next one.
    have wrapped : (if t.col ≥ termCols then t.newline else t).InBounds ∧
        (if t.col ≥ termCols then t.newline else t).col < termCols := by
      split
      · exact ⟨bounds.newline, by rw [newline_col]; decide⟩
      · next inside => exact ⟨bounds, by omega⟩
    obtain ⟨bounds', inside⟩ := wrapped
    generalize (if t.col ≥ termCols then t.newline else t) = u at bounds' inside
    have written := bounds'.write (bounds'.cursor bounds'.col.1 inside) ⟨ch, attr, bg⟩
    have := bounds'.col.1
    exact written.moved u.row (u.col + 1) bounds'.row (by omega)

theorem eraseLine_iff : t.eraseLine.InBounds ↔ ¬(t.csiParam 0 = 1 ∧ t.col = termCols) := by
  have cols : termCols = 80 := rfl
  obtain ⟨left, right⟩ := bounds.col
  rw [Grid.eraseLine]
  dsimp only
  split
  · next ignored => exact iff_of_true bounds (by omega)
  rw [dmgRow_inBounds]
  by_cases behind : t.csiParam 0 = 1 ∧ t.col = termCols
  · refine iff_of_false (fun bounds' => ?_) (not_not.mpr behind)
    rw [if_neg (by omega), if_pos behind.1, behind.2] at bounds'
    obtain ⟨lines, isState⟩ := t.blankCells_eq (t.top + t.row) 0 termCols
    rw [isState] at bounds'
    have member : termCols ∈ span 0 termCols := mem_span.mpr (by omega)
    have inside :=
      bounds'.accesses (t.top + t.row, termCols) (mem_append_right _ (mem_map.mpr ⟨_, member, rfl⟩))
    exact absurd inside.2.2.2 (Int.lt_irrefl _)
  · refine iff_of_true (bounds.blankCells fun c above below => bounds.cursor ?_ ?_) behind
    · split at above <;> omega
    · split at below <;> omega

theorem eraseDisplay_iff : t.eraseDisplay.InBounds ↔ ¬(t.csiParam 0 = 1 ∧ t.col = termCols) := by
  have cols : termCols = 80 := rfl
  have rows : termRows = 25 := rfl
  obtain ⟨left, right⟩ := bounds.col
  obtain ⟨up, down⟩ := bounds.row
  rw [Grid.eraseDisplay]
  dsimp only
  split
  · next ignored => exact iff_of_true bounds (by omega)
  rw [dmgRow_inBounds, dmgRow_inBounds]
  by_cases behind : t.csiParam 0 = 1 ∧ t.col = termCols
  · refine iff_of_false (fun bounds' => ?_) (not_not.mpr behind)
    rw [behind.1, behind.2] at bounds'
    change (t.eraseRows 0 t.row 0 termCols).InBounds at bounds'
    obtain ⟨lines, isState⟩ := t.eraseRows_eq 0 t.row 0 termCols
    rw [isState] at bounds'
    -- The last row that is erased goes up to the column of the cursor.
    have isRow : t.row ∈ span 0 t.row := mem_span.mpr (by omega)
    have isCol : termCols ∈
        span (if t.row = 0 then 0 else 0) (if t.row = t.row then termCols else termCols - 1) := by
      rw [ite_self, if_pos rfl]
      exact mem_span.mpr (by omega)
    have inside := bounds'.accesses (t.top + t.row, termCols)
      (mem_append_right _ (mem_flatMap.mpr ⟨t.row, isRow, mem_map.mpr ⟨_, isCol, rfl⟩⟩))
    exact absurd inside.2.2.2 (Int.lt_irrefl _)
  · refine iff_of_true ?_ behind
    obtain ⟨lines, isState⟩ := t.eraseRows_eq (if t.csiParam 0 = 0 then t.row else 0)
      (if t.csiParam 0 = 1 then t.row else termRows - 1) (if t.csiParam 0 = 0 then t.col else 0)
      (if t.csiParam 0 = 1 then t.col else termCols - 1)
    rw [isState]
    refine bounds.access ?_ lines
    intro cell member
    obtain ⟨r, isRow, member⟩ := mem_flatMap.mp member
    obtain ⟨c, isCol, rfl⟩ := mem_map.mp member
    rw [mem_span] at isRow isCol
    refine bounds.screenRow ⟨?_, ?_⟩ ⟨?_, ?_⟩
    · have low := isRow.1
      split at low <;> omega
    · have high := isRow.2
      split at high <;> omega
    · have low := isCol.1
      split at low
      · split at low <;> omega
      · omega
    · have high := isCol.2
      split at high
      · split at high <;> omega
      · omega

theorem cursorPos : t.cursorPos.InBounds := by
  have cols : termCols = 80 := rfl
  have rows : termRows = 25 := rfl
  rw [Grid.cursorPos]
  dsimp only
  rw [dmgRow_inBounds]
  refine (dmgRow_inBounds.mpr bounds).moved _ _ ?_ ?_
  · split <;> split <;> omega
  · split <;> split <;> omega

theorem cursorMove : (t.cursorMove ch).InBounds := by
  have cols : termCols = 80 := rfl
  have rows : termRows = 25 := rfl
  obtain ⟨left, right⟩ := bounds.col
  obtain ⟨up, down⟩ := bounds.row
  rw [Grid.cursorMove, dmgRow_inBounds, dmgRow_inBounds]
  generalize isCount : (if t.csiParam 0 < 1 then 1 else t.csiParam 0) = n
  have atLeast : 1 ≤ n := by
    rw [← isCount]
    split <;> omega
  split
  · exact bounds.moved _ t.col (by split <;> omega) ⟨left, right⟩
  split
  · exact bounds.moved _ t.col (by split <;> omega) ⟨left, right⟩
  split
  · exact bounds.moved t.row _ ⟨up, down⟩ (by split <;> omega)
  · exact bounds.moved t.row _ ⟨up, down⟩ (by split <;> omega)

theorem sgrApply : t.sgrApply.InBounds := by
  rw [Grid.sgrApply]
  split
  · exact { bounds with }
  · exact { bounds with }

theorem pushParam : t.pushParam.InBounds := by
  rw [Grid.pushParam]
  split
  · next room => exact { bounds with params := room }
  · exact bounds

end

end Grid.InBounds

/-- No erasing up to the cursor finds it behind a full line. -/
def Grid.Meets (t : Grid) : Event → Prop
  | .feed ch =>
    ¬(t.state = .csi ∧ (ch = 74 ∨ ch = 75) ∧ t.pushParam.csiParam 0 = 1 ∧ t.col = termCols)
  | _ => True

namespace Grid.InBounds

section

variable (bounds : t.InBounds)

include bounds

theorem endCsi_iff :
    (t.endCsi ch).InBounds ↔
    ¬((ch = 74 ∨ ch = 75) ∧ t.pushParam.csiParam 0 = 1 ∧ t.col = termCols) := by
  have ended : ({ t with state := .normal } : Grid).InBounds :=
    { bounds with }
  have pushed := ended.pushParam
  have sameParam : ({ t with state := .normal } : Grid).pushParam.csiParam 0 =
      t.pushParam.csiParam 0 := by
    rw [Grid.pushParam, Grid.pushParam]
    split <;> rfl
  have sameCol : ({ t with state := .normal } : Grid).pushParam.col = t.col := by
    rw [Grid.pushParam]
    split <;> rfl
  rw [Grid.endCsi]
  split
  · next isM => exact iff_of_true pushed.sgrApply (by simp [isM])
  split
  · next isJ =>
    rw [pushed.eraseDisplay_iff, sameParam, sameCol]
    simp [isJ]
  split
  · next isK =>
    rw [pushed.eraseLine_iff, sameParam, sameCol]
    simp [isK]
  next notJ notK =>
  have neither : ¬((ch = 74 ∨ ch = 75) ∧ t.pushParam.csiParam 0 = 1 ∧ t.col = termCols) := by
    rintro ⟨rfl | rfl, -⟩
    · exact notJ rfl
    · exact notK rfl
  split
  · exact iff_of_true pushed.cursorPos neither
  split
  · exact iff_of_true (pushed.cursorMove ch) neither
  · exact iff_of_true pushed neither

theorem plainByte : (t.plainByte ch).InBounds := by
  have folded : ∀ n, ({ t with utf8Left := n } : Grid).InBounds := fun n =>
    { bounds with }
  rw [Grid.plainByte]
  split
  · exact { bounds with }
  split
  · exact (folded _).putcAttr ..
  split
  · split
    · exact folded _
    · exact bounds.putcAttr ..
  · exact bounds.putcAttr ..

theorem ansiFilter_iff : (t.ansiFilter ch).InBounds ↔ t.Meets (.feed ch) := by
  rw [Grid.ansiFilter, Meets]
  cases isState : t.state with
  | esc =>
    refine iff_of_true ?_ (by simp)
    dsimp only
    split
    · exact { bounds with params := Nat.zero_le _ }
    split
    · exact { bounds with }
    · exact { bounds with }
  | osc =>
    refine iff_of_true ?_ (by simp)
    dsimp only
    split
    · exact { bounds with }
    split
    · exact { bounds with }
    · exact bounds
  | csi =>
    dsimp only
    split
    · next isDigit =>
      refine iff_of_true { bounds with } ?_
      rintro ⟨-, rfl | rfl, -⟩
      · exact absurd isDigit (by decide)
      · exact absurd isDigit (by decide)
    split
    · next isSeparator =>
      have pushed := bounds.pushParam
      refine iff_of_true { pushed with } ?_
      rintro ⟨-, rfl | rfl, -⟩
      · exact absurd isSeparator (by decide)
      · exact absurd isSeparator (by decide)
    · rw [bounds.endCsi_iff]
      simp
  | normal => exact iff_of_true (bounds.plainByte ch) (by simp)

theorem render : t.render.InBounds := by
  have cols : termCols = 80 := rfl
  have rows : termRows = 25 := rfl
  obtain ⟨left, right⟩ := bounds.col
  obtain ⟨atLeast, raised, atMost⟩ := bounds.view
  rw [Grid.render, append_assoc]
  refine bounds.access (fun cell member => ?_) t.lines
  rcases mem_append.mp member with visible | cursor
  · obtain ⟨isRow, isCol⟩ := mem_cells.mp visible
    obtain ⟨r, onScreen, isRow⟩ := mem_map.mp isRow
    rw [mem_span] at onScreen isCol
    have history : termScrollback = 500 := rfl
    exact ⟨by omega, by omega, by omega, by omega⟩
  · split at cursor
    · rw [mem_singleton.mp cursor]
      exact bounds.cursor (by split <;> omega) (by split <;> omega)
    · cases cursor

theorem handleKey : (t.handleKey ch).InBounds := by
  have rows : termRows = 25 := rfl
  obtain ⟨atLeast, raised, atMost⟩ := bounds.view
  have viewed : ∀ n, 0 ≤ n → n ≤ t.top → ({ t with scrollback := n } : Grid).InBounds :=
    fun n low high =>
    { bounds with view := ⟨low, high, atMost⟩ }
  rw [Grid.handleKey]
  split
  · split
    · exact dmgAllRows_inBounds.mpr (viewed _ (by split <;> omega) (by split <;> omega))
    · exact bounds
  split
  · split
    · exact dmgAllRows_inBounds.mpr (viewed _ (by split <;> omega) (by split <;> omega))
    · exact bounds
  split
  · exact (dmgAllRows_inBounds.mpr (viewed 0 (Int.le_refl _) (by omega))).render
  · exact bounds

theorem handle_iff (event : Event) : (t.handle event).InBounds ↔ t.Meets event := by
  cases event with
  | feed ch => exact bounds.ansiFilter_iff ch
  | key ch => exact iff_of_true (bounds.handleKey ch) trivial
  | render => exact iff_of_true bounds.render trivial

end

theorem start : Grid.start.InBounds := by
  simp only [Grid.start]
  have inside := allCells_inside
  generalize allCells = visited at *
  refine ⟨?_, ?_, ?_, ?_, inside⟩ <;> dsimp only <;> decide

end Grid.InBounds

theorem Grid.run_append (before : List Event) (event : Event) :
    Grid.run (before ++ [event]) = (Grid.run before).handle event := by
  rw [Grid.run, foldl_append]
  rfl

/-- The bounds hold exactly when no erasing up to the cursor finds it behind a full line. -/
theorem grid_in_bounds_iff (events : List Event) :
    (∀ before after, events = before ++ after → (Grid.run before).InBounds) ↔
      ∀ before event after, events = before ++ event :: after → (Grid.run before).Meets event := by
  constructor
  · intro always before event after split
    have bounds := always before (event :: after) split
    have bounds' := always (before ++ [event]) after (by rw [split, append_assoc]; rfl)
    rw [Grid.run_append] at bounds'
    exact (bounds.handle_iff event).mp bounds'
  · intro meets before
    induction before using List.reverseRecOn with
    | nil => exact fun _ _ => Grid.InBounds.start
    | append_singleton before event ih =>
      intro after split
      rw [append_assoc] at split
      rw [Grid.run_append]
      exact ((ih _ split).handle_iff event).mpr (meets before event after split)

/-- The cell behind a full line is emptied when the line is erased up to the cursor. -/
theorem fullLine_erases_outside :
    ¬∀ before after,
      (List.replicate 80 (Event.feed 97) ++ [.feed 27, .feed 91, .feed 49]) ++ [.feed 75] =
        before ++ after →
      (Grid.run before).InBounds := by
  intro always
  have bounds := always _ [.feed 75] rfl
  have erased := always _ [] (append_nil _).symm
  rw [Grid.run_append] at erased
  have meets := (bounds.handle_iff (.feed 75)).mp erased
  exact meets (by decide +kernel)

end M4KK1.Terminal
