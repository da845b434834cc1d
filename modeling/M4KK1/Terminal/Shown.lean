import Mathlib.Data.List.GetD
import M4KK1.Terminal.GridBounds
import M4KK1.Terminal.Layout

/-!
# What the grid shows of a text

The rows of the grid are the last rows of the layout of the text fed to it.
-/

namespace M4KK1.Terminal

open Function List

def gridRows : Nat := 525

def rowCell (fg bg : BitVec 16) (row : List UInt8) (c : Nat) : Cell :=
  match row[c]? with
  | some ch => ⟨ch, fg, bg⟩
  | none => blank

def Grid.clearScreen (t : Grid) : Grid :=
  { t with
    lines := fun r c =>
      if 0 ≤ r ∧ r < termRows + termScrollback ∧ 0 ≤ c ∧ c < termCols then blank else t.lines r c
    top := 0
    row := 0
    col := 0
    scrollback := 0
    accesses := t.accesses ++ allCells }

/-- The rows up to the cursor have these contents, and those behind it are blank. -/
structure Grid.Holds (t : Grid) (rows : List (List UInt8)) (fg bg : BitVec 16) : Prop where
  last : t.top + t.row + 1 = rows.length
  filled : ∀ r < rows.length, ∀ c < rowWidth, t.lines r c = rowCell fg bg (rows.getD r []) c
  blank : ∀ r, rows.length ≤ r → r < gridRows → ∀ c < rowWidth, t.lines r c = blank

def Page.hidden (page : Page) : Nat := page.rows.length - gridRows

/-- The grid shows the rows of the page in these colours. -/
structure Grid.Shows (t : Grid) (page : Page) (fg bg : BitVec 16) : Prop where
  normal : t.state = .normal
  colors : t.sgrFg = fg ∧ t.sgrBg = bg
  col : t.col = page.cur.length
  short : page.cur.length ≤ rowWidth
  cursor : (page.rows.length ≤ 25 ∧ t.top = 0 ∧ t.row = page.done.length) ∨
    (25 < page.rows.length ∧ t.row = 24 ∧ t.top = min (page.rows.length - 25 : Int) 500)
  cells : ∀ r < gridRows, ∀ c < rowWidth, t.lines r c =
      rowCell fg bg (page.rows.getD (page.hidden + r) []) c

namespace Grid

variable {t : Grid} {page : Page} {fg bg : BitVec 16}

theorem write_lines (t : Grid) (r c : Int) (cell : Cell) (r' c' : Int) :
    (t.write r c cell).lines r' c' = if r' = r ∧ c' = c then cell else t.lines r' c' := by
  show update t.lines r (update (t.lines r) c cell) r' c' = _
  by_cases sameRow : r' = r
  · rw [sameRow, update_self]
    by_cases sameCol : c' = c
    · rw [sameCol, update_self, if_pos ⟨rfl, rfl⟩]
    · rw [update_of_ne sameCol, if_neg fun same => sameCol same.2]
  · rw [update_of_ne sameRow, if_neg fun same => sameRow same.1]

theorem blankCells_lines (t : Grid) (r lo hi r' c' : Int) :
    (t.blankCells r lo hi).lines r' c' = if r' = r ∧ lo ≤ c' ∧ c' ≤ hi then blank
    else t.lines r' c' := by
  have cols (cols : List Int) : (cols.foldl (fun t c => t.write r c blank) t).lines r' c' =
      if r' = r ∧ c' ∈ cols then blank else t.lines r' c' := by
    induction cols generalizing t with
    | nil => exact (if_neg fun inside => not_mem_nil inside.2).symm
    | cons c cols ih =>
      rw [foldl_cons, ih, write_lines]
      by_cases later : r' = r ∧ c' ∈ cols
      · rw [if_pos later, if_pos ⟨later.1, mem_cons_of_mem _ later.2⟩]
      · rw [if_neg later]
        refine if_congr (and_congr_right fun sameRow => ?_) rfl rfl
        rw [mem_cons]
        exact ⟨.inl, fun member => member.resolve_right fun inside => later ⟨sameRow, inside⟩⟩
  rw [blankCells, cols]
  exact if_congr (and_congr_right fun _ => mem_span) rfl rfl

theorem dmgRow_eq (t : Grid) (r : Int) : ∃ lo hi,
    t.dmgRow r = { t with dmgLo := lo, dmgHi := hi } := by
  unfold dmgRow
  split
  · exact ⟨t.dmgLo, t.dmgHi, rfl⟩
  · exact ⟨_, _, rfl⟩

theorem newline_inner (inside : t.row < termRows - 1) :
    ∃ lo hi, t.newline = { t with col := 0, row := t.row + 1, dmgLo := lo, dmgHi := hi } := by
  unfold newline
  dsimp only
  rw [if_pos inside]
  obtain ⟨lo, hi, left⟩ := dmgRow_eq { t with col := 0 } t.row
  rw [left]
  obtain ⟨lo', hi', entered⟩ :=
    dmgRow_eq { t with col := 0, row := t.row + 1, dmgLo := lo, dmgHi := hi } (t.row + 1)
  exact ⟨lo', hi', entered⟩

theorem newline_slide (bottom : ¬t.row < termRows - 1) (room : t.top < termScrollback) :
    ∃ lines accesses, t.newline = { t with
        lines := lines, col := 0, top := t.top + 1, dmgLo := 0, dmgHi := termRows - 1, accesses :=
          accesses } ∧
      ∀ r c, lines r c =
        if r = t.top + 1 + termRows - 1 ∧ 0 ≤ c ∧ c ≤ termCols - 1 then blank else t.lines r c := by
  unfold newline
  dsimp only
  rw [if_neg bottom, if_pos room]
  have lines :=
    blankCells_lines { t with col := 0, top := t.top + 1 } (t.top + 1 + termRows - 1) 0
    (termCols - 1)
  obtain ⟨emptied, same⟩ :=
    blankCells_eq { t with col := 0, top := t.top + 1 } (t.top + 1 + termRows - 1) 0 (termCols - 1)
  rw [same] at lines
  rw [same]
  exact ⟨emptied, _, rfl, lines⟩

theorem newline_shift (bottom : ¬t.row < termRows - 1) (full : ¬t.top < termScrollback) :
    ∃ lines accesses, t.newline = { t with
        lines := lines, col := 0, dmgLo := 0, dmgHi := termRows - 1, accesses := accesses } ∧
      ∀ r c, lines r c =
        if (r = t.top + termRows - 1 ∨ r = termRows + termScrollback - 1) ∧ 0 ≤ c ∧
            c ≤ termCols - 1 then blank
        else t.lines (r + 1) c := by
  unfold newline
  dsimp only
  rw [if_neg bottom, if_neg full]
  let moved : Grid := { t with
    col := 0, lines := fun r => t.lines (r + 1), accesses := t.accesses ++ allCells }
  have isShift : Grid.shiftUp { t with col := 0 } =
      moved.blankCells (termRows + termScrollback - 1) 0 (termCols - 1) := rfl
  have shifted := moved.blankCells_lines (termRows + termScrollback - 1) 0 (termCols - 1)
  obtain ⟨lines, same⟩ := moved.blankCells_eq (termRows + termScrollback - 1) 0 (termCols - 1)
  rw [same] at shifted
  rw [isShift, same]
  have emptied := blankCells_lines { moved with
    lines := lines, accesses := moved.accesses ++ (span 0 (termCols - 1)).map fun c =>
      (termRows + termScrollback - 1, c) }
    (t.top + termRows - 1) 0 (termCols - 1)
  obtain ⟨lines', same'⟩ := blankCells_eq { moved with
    lines := lines, accesses := moved.accesses ++ (span 0 (termCols - 1)).map fun c =>
      (termRows + termScrollback - 1, c) }
    (t.top + termRows - 1) 0 (termCols - 1)
  rw [same'] at emptied
  refine ⟨lines', _, congrArg dmgAllRows same', fun r c => ?_⟩
  dsimp only at emptied shifted
  rw [emptied, shifted]
  by_cases inLine : 0 ≤ c ∧ c ≤ termCols - 1
  · by_cases last : r = t.top + termRows - 1
    · rw [if_pos ⟨last, inLine⟩, if_pos ⟨.inl last, inLine⟩]
    · rw [if_neg fun same => last same.1]
      exact if_congr (and_congr_left fun _ => ⟨.inr, fun either => either.resolve_left last⟩) rfl
        rfl
  · rw [if_neg fun same => inLine same.2, if_neg fun same => inLine same.2,
      if_neg fun same => inLine same.2]

end Grid

theorem Page.newline_getD (page : Page) (k : Nat) :
    page.newline.rows.getD k [] = page.rows.getD k [] := by
  have isRows : page.newline.rows = page.rows ++ [[]] := rfl
  rw [isRows]
  rcases Nat.lt_trichotomy k page.rows.length with inside | here | behind
  · rw [getD_append _ _ _ _ inside]
  · rw [getD_append_right _ _ _ _ (Nat.le_of_eq here.symm), here, Nat.sub_self,
      getD_eq_default _ _ (Nat.le_refl _)]
    rfl
  · rw [getD_eq_default _ _ (by rw [length_append, length_singleton]; omega),
      getD_eq_default _ _ (Nat.le_of_lt behind)]

theorem Page.rows_length (page : Page) : page.rows.length = page.done.length + 1 := by
  rw [rows, length_append, length_singleton]

theorem Page.newline_length (page : Page) : page.newline.rows.length = page.rows.length + 1 := by
  rw [rows_length, rows_length, newline, length_append, length_singleton]

theorem Page.last_getD (done : List (List UInt8)) (cur row : List UInt8) (k : Nat) :
    (Page.rows ⟨done, row⟩).getD k [] = if k = done.length then row else
    (Page.rows ⟨done, cur⟩).getD k [] := by
  unfold rows
  dsimp only
  rcases Nat.lt_trichotomy k done.length with inside | here | behind
  · rw [if_neg (Nat.ne_of_lt inside), getD_append _ _ _ _ inside, getD_append _ _ _ _ inside]
  · rw [if_pos here, here, getD_append_right _ _ _ _ (Nat.le_refl _), Nat.sub_self]
    rfl
  · rw [if_neg (Nat.ne_of_gt behind), getD_eq_default _ _ (by rw [length_append]; exact behind),
      getD_eq_default _ _ (by rw [length_append]; exact behind)]

theorem rowCell_snoc (fg bg : BitVec 16) (row : List UInt8) (ch : UInt8) (c : Nat) :
    rowCell fg bg (row ++ [ch]) c = if c = row.length then ⟨ch, fg, bg⟩
      else rowCell fg bg row c := by
  unfold rowCell
  rcases Nat.lt_trichotomy c row.length with inside | here | behind
  · rw [if_neg (Nat.ne_of_lt inside), getElem?_append_left inside]
  · rw [if_pos here, here, getElem?_concat_length]
  · rw [if_neg (Nat.ne_of_gt behind), getElem?_eq_none (by rw [length_append]; exact behind),
      getElem?_eq_none (Nat.le_of_lt behind)]

theorem rowCell_nil (fg bg : BitVec 16) (c : Nat) : rowCell fg bg [] c = blank := rfl

namespace Grid.Shows

variable {t : Grid} {page : Page} {fg bg : BitVec 16}

theorem cell_behind {r c : Nat} (behind : page.rows.length ≤ page.hidden + r) :
    rowCell fg bg (page.rows.getD (page.hidden + r) []) c = Terminal.blank := by
  rw [getD_eq_default _ _ behind, rowCell_nil]

section

variable (shows : t.Shows page fg bg)

include shows

theorem newline_above (inner : t.row < termRows - 1) :
    t.newline.Shows page.newline fg bg ∧ t.newline.utf8Left = t.utf8Left := by
  have length := page.newline_length
  have rows := page.rows_length
  have done : page.newline.done.length = page.rows.length := rfl
  unfold termRows at inner
  obtain ⟨few, top, row⟩ : page.rows.length ≤ 25 ∧ t.top = 0 ∧ t.row = page.done.length := by
    rcases shows.cursor with few | ⟨_, row, _⟩
    · exact few
    · omega
  obtain ⟨lo, hi, same⟩ := newline_inner inner
  have sameHidden : page.newline.hidden = page.hidden := by
    unfold Page.hidden gridRows
    omega
  rw [same]
  refine ⟨⟨shows.normal, shows.colors, rfl, Nat.zero_le _, .inl ⟨?_, top, ?_⟩,
    fun r below c inLine => ?_⟩, rfl⟩
  · omega
  · dsimp only
    omega
  · rw [sameHidden, page.newline_getD]
    exact shows.cells r below c inLine

theorem newline_bottom (bottom : ¬t.row < termRows - 1) :
    t.newline.Shows page.newline fg bg ∧ t.newline.utf8Left = t.utf8Left := by
  have length := page.newline_length
  have rows := page.rows_length
  have lastRow : 25 ≤ page.rows.length ∧ t.row = 24 ∧
      t.top = min (page.rows.length - 25 : Int) 500 := by
    unfold termRows at bottom
    rcases shows.cursor with ⟨few, top, row⟩ | ⟨many, row, top⟩ <;> omega
  obtain ⟨many, row, top⟩ := lastRow
  have newRow : page.newline.rows.length - 25 = (page.rows.length - 25 : Int) + 1 := by omega
  by_cases room : t.top < termScrollback
  · obtain ⟨lines, accesses, same, emptied⟩ := newline_slide bottom room
    unfold termScrollback at room
    have sameHidden : page.newline.hidden = page.hidden := by
      unfold Page.hidden gridRows
      omega
    rw [same]
    refine ⟨⟨shows.normal, shows.colors, rfl, Nat.zero_le _, .inr ⟨by omega, row, ?_⟩,
      fun r below c inLine => ?_⟩, rfl⟩
    · dsimp only
      omega
    · dsimp only
      rw [emptied, sameHidden, page.newline_getD]
      split
      next here =>
        unfold termRows at here
        exact (cell_behind (by unfold Page.hidden gridRows; omega)).symm
      next => exact shows.cells r below c inLine
  · obtain ⟨lines, accesses, same, shifted⟩ := newline_shift bottom room
    unfold termScrollback at room
    have moved : page.newline.hidden = page.hidden + 1 := by
      unfold Page.hidden gridRows
      omega
    rw [same]
    refine ⟨⟨shows.normal, shows.colors, rfl, Nat.zero_le _, .inr ⟨by omega, row, ?_⟩,
      fun r below c inLine => ?_⟩, rfl⟩
    · dsimp only
      omega
    · have next : page.newline.hidden + r = page.hidden + (r + 1) := by omega
      dsimp only
      rw [shifted, next, page.newline_getD]
      unfold gridRows at below
      split
      next here =>
        unfold termRows termScrollback at here
        exact (cell_behind (by unfold Page.hidden gridRows; omega)).symm
      next inner =>
        have earlier : r + 1 < gridRows := by
          unfold rowWidth at inLine
          unfold termRows termScrollback termCols at inner
          unfold gridRows
          omega
        have nextCell := shows.cells (r + 1) earlier c inLine
        rw [Int.natCast_add, Int.natCast_one] at nextCell
        exact nextCell

theorem newline : t.newline.Shows page.newline fg bg ∧ t.newline.utf8Left = t.utf8Left := by
  by_cases inner : t.row < termRows - 1
  · exact shows.newline_above inner
  · exact shows.newline_bottom inner

theorem cursor_row : t.top + t.row + page.hidden = page.done.length ∧ t.top + t.row < gridRows := by
  have rows := page.rows_length
  unfold Page.hidden gridRows
  rcases shows.cursor with ⟨few, top, row⟩ | ⟨many, row, top⟩ <;> omega

theorem put_inner (room : page.cur.length < rowWidth) (ch : UInt8) :
    (dmgRow { t.write (t.top + t.row) t.col ⟨ch, fg, bg⟩ with col := t.col + 1 } t.row).Shows
      ⟨page.done, page.cur ++ [ch]⟩ fg bg := by
  obtain ⟨lo, hi, same⟩ :=
    dmgRow_eq { t.write (t.top + t.row) t.col ⟨ch, fg, bg⟩ with col := t.col + 1 } t.row
  have sameLength : (Page.rows ⟨page.done, page.cur ++ [ch]⟩).length = page.rows.length := by
    rw [Page.rows_length, Page.rows_length]
  obtain ⟨here, inGrid⟩ := shows.cursor_row
  have col := shows.col
  rw [same]
  refine ⟨shows.normal, shows.colors, ?_, ?_, ?_, fun r below c inLine => ?_⟩
  · dsimp only
    rw [length_append, length_singleton]
    omega
  · rw [length_append, length_singleton]
    exact room
  · rw [sameLength]
    exact shows.cursor
  · have sameHidden : Page.hidden ⟨page.done, page.cur ++ [ch]⟩ = page.hidden := by
      unfold Page.hidden
      rw [sameLength]
    dsimp only
    rw [write_lines, sameHidden, Page.last_getD page.done page.cur]
    by_cases lastRow : page.hidden + r = page.done.length
    · have isRow : (r : Int) = t.top + t.row := by omega
      have before := shows.cells r below c inLine
      rw [Page.last_getD page.done page.cur, if_pos lastRow] at before
      rw [if_pos lastRow, rowCell_snoc, before]
      exact if_congr ⟨fun both => by omega, fun last => ⟨isRow, by omega⟩⟩ rfl rfl
    · rw [if_neg lastRow, if_neg fun both => lastRow (by omega)]
      exact shows.cells r below c inLine

theorem put {ch : UInt8} (printable : 32 ≤ ch) :
    (t.putcAttr ch fg bg).Shows (page.put ch) fg bg ∧
    (t.putcAttr ch fg bg).utf8Left = t.utf8Left := by
  have at10 : ch ≠ 10 := by rintro rfl; exact absurd printable (by decide)
  have at13 : ch ≠ 13 := by rintro rfl; exact absurd printable (by decide)
  have at8 : ch ≠ 8 := by rintro rfl; exact absurd printable (by decide)
  have at9 : ch ≠ 9 := by rintro rfl; exact absurd printable (by decide)
  have keeps (t : Grid) (row : Int) : (t.dmgRow row).utf8Left = t.utf8Left := by
    obtain ⟨lo, hi, same⟩ := t.dmgRow_eq row
    rw [same]
  have col := shows.col
  have short := shows.short
  unfold putcAttr
  rw [if_neg at10, if_neg at13, if_neg at8, if_neg at9, if_neg (UInt8.not_lt.mpr printable)]
  unfold Page.put
  dsimp only
  by_cases full : page.cur.length = rowWidth
  · obtain ⟨wrapped, sameLeft⟩ := shows.newline
    have wraps : t.col ≥ termCols := by
      unfold rowWidth at full
      unfold termCols
      omega
    rw [if_pos full, if_pos wraps]
    refine ⟨wrapped.put_inner (Nat.zero_lt_succ _) ch, ?_⟩
    rw [keeps]
    exact sameLeft
  · have stays : ¬t.col ≥ termCols := by
      unfold rowWidth at full short
      unfold termCols
      omega
    rw [if_neg full, if_neg stays]
    refine ⟨shows.put_inner (Nat.lt_of_le_of_ne short full) ch, ?_⟩
    rw [keeps]
    rfl

end

end Grid.Shows

/-- How many bytes the filter expects behind a leading one. -/
def contOf (lead : UInt8) : Nat := if lead ≥ 0xF0 then 3 else if lead ≥ 0xE0 then 2 else 1

theorem contByte (n : Nat) :
    0x80 ≤ UInt8.ofNat (n % 64 + 128) ∧ UInt8.ofNat (n % 64 + 128) < 0xC0 := by
  rw [UInt8.le_iff_toNat_le, UInt8.lt_iff_toNat_lt, UInt8.toNat_ofNat']
  exact ⟨show 128 ≤ _ by omega, show _ < 192 by omega⟩

theorem contOf_eq {value : Nat} (small : value < 256) :
    contOf (UInt8.ofNat value) = if value ≥ 240 then 3 else if value ≥ 224 then 2 else 1 := by
  have same : (UInt8.ofNat value).toNat = value := by
    rw [UInt8.toNat_ofNat']
    exact Nat.mod_eq_of_lt small
  have four : UInt8.ofNat value ≥ 0xF0 ↔ value ≥ 240 := by
    rw [ge_iff_le, UInt8.le_iff_toNat_le, same]
    exact Iff.rfl
  have three : UInt8.ofNat value ≥ 0xE0 ↔ value ≥ 224 := by
    rw [ge_iff_le, UInt8.le_iff_toNat_le, same]
    exact Iff.rfl
  exact if_congr four rfl (if_congr three rfl rfl)

theorem leadByte {value : Nat} (large : 192 ≤ value) (small : value < 256) :
    0xC0 ≤ UInt8.ofNat value := by
  rw [UInt8.le_iff_toNat_le, UInt8.toNat_ofNat', Nat.mod_eq_of_lt small]
  exact large

theorem utf8_shape {c : Char} (multiByte : 0x80 ≤ c.val) :
    ∃ lead conts, String.utf8EncodeChar c = lead :: conts ∧ 0xC0 ≤ lead ∧
      conts.length = contOf lead ∧
      ∀ byte ∈ conts, 0x80 ≤ byte ∧ byte < 0xC0 := by
  have large : 0x80 ≤ c.val.toNat := multiByte
  unfold String.utf8EncodeChar
  dsimp only
  rw [if_neg (show ¬c.val.toNat ≤ 0x7f by omega)]
  split
  next =>
    refine ⟨_, _, rfl, leadByte (by omega) (by omega), ?_, forall_mem_singleton.mpr (contByte _)⟩
    rw [contOf_eq (by omega), if_neg (by omega), if_neg (by omega)]
    rfl
  next =>
    split
    next =>
      refine ⟨_, _, rfl, leadByte (by omega) (by omega), ?_,
        forall_mem_cons.mpr ⟨contByte _, forall_mem_singleton.mpr (contByte _)⟩⟩
      rw [contOf_eq (by omega), if_neg (by omega), if_pos (by omega)]
      rfl
    next =>
      refine ⟨_, _, rfl, leadByte (by omega) (by omega), ?_, forall_mem_cons.mpr ⟨contByte _,
        forall_mem_cons.mpr ⟨contByte _, forall_mem_singleton.mpr (contByte _)⟩⟩⟩
      rw [contOf_eq (by omega), if_pos (by omega)]
      rfl

namespace Grid

variable {t : Grid} {page : Page} {fg bg : BitVec 16}

def feed (t : Grid) (bytes : List UInt8) : Grid := bytes.foldl ansiFilter t

theorem feed_cons (t : Grid) (ch : UInt8) (bytes : List UInt8) :
    t.feed (ch :: bytes) = (t.ansiFilter ch).feed bytes :=
  rfl

theorem feed_append (t : Grid) (bytes more : List UInt8) :
    t.feed (bytes ++ more) = (t.feed bytes).feed more :=
  foldl_append

theorem Shows.left (shows : t.Shows page fg bg) (left : Int) :
    ({ t with utf8Left := left } : Grid).Shows page fg bg :=
  { shows with }

theorem feed_conts {conts : List UInt8} (range : ∀ byte ∈ conts, 0x80 ≤ byte ∧ byte < 0xC0)
    (normal : t.state = .normal)
    (expected : t.utf8Left = conts.length) : t.feed conts = { t with utf8Left := 0 } := by
  induction conts generalizing t with
  | nil =>
    rw [length_nil] at expected
    show t = _
    rw [← Int.natCast_zero, ← expected]
  | cons ch conts ih =>
    obtain ⟨large, small⟩ := range ch mem_cons_self
    rw [length_cons] at expected
    have notEscape : ch ≠ 0x1B := by rintro rfl; exact absurd large (by decide)
    have swallowed : t.ansiFilter ch = { t with utf8Left := t.utf8Left - 1 } := by
      rw [ansiFilter, normal]
      dsimp only
      rw [plainByte, if_neg notEscape, if_neg (UInt8.not_le.mpr small), if_pos large,
        if_pos (by omega), normal]
    rw [feed_cons, swallowed]
    exact ih (t := { t with utf8Left := t.utf8Left - 1 })
      (fun other member => range other (mem_cons_of_mem _ member))
      normal (by dsimp only; omega)

theorem feed_payload {payload : List UInt8} (plain : ∀ byte ∈ payload, byte ≠ 0x07 ∧ byte ≠ 0x1B)
    (inside : t.state = .osc) : t.feed payload = t := by
  induction payload generalizing t with
  | nil => rfl
  | cons ch payload ih =>
    obtain ⟨notBel, notEscape⟩ := plain ch mem_cons_self
    have swallowed : t.ansiFilter ch = t := by
      rw [ansiFilter, inside]
      dsimp only
      rw [if_neg notBel, if_neg notEscape]
    rw [feed_cons, swallowed]
    exact ih (fun other member => plain other (mem_cons_of_mem _ member)) inside

theorem feed_osc (normal : t.state = .normal) {payload : List UInt8}
    (plain : ∀ byte ∈ payload, byte ≠ 0x07 ∧ byte ≠ 0x1B) (bel : Bool) :
    t.feed (Item.osc payload plain bel).bytes = { t with utf8Left := 0 } := by
  have opened : t.feed [0x1B, 93] = { t with state := .osc, utf8Left := 0 } := by
    show (t.ansiFilter 0x1B).ansiFilter 93 = _
    have escaped : t.ansiFilter 0x1B = { t with state := .esc, utf8Left := 0 } := by
      rw [ansiFilter, normal]
      rfl
    rw [escaped]
    rfl
  have closed (ending : Bool) :
      Grid.feed { t with state := .osc, utf8Left := 0 } (if ending then [0x07] else [0x1B, 92]) =
        { t with utf8Left := 0 } := by
    cases ending with
    | true => exact congrArg (fun state => { t with state := state, utf8Left := 0 }) normal.symm
    | false => exact congrArg (fun state => { t with state := state, utf8Left := 0 }) normal.symm
  rw [Item.bytes, feed_append, feed_append, opened, feed_payload plain rfl, closed]

theorem Shows.item (shows : t.Shows page fg bg) (item : Item) :
    (t.feed item.bytes).Shows (page.place item) fg bg := by
  have normal := shows.normal
  obtain ⟨isFg, isBg⟩ := shows.colors
  cases item with
  | char ch printable =>
    obtain ⟨large, small⟩ := printable
    have notEscape : ch ≠ 0x1B := by rintro rfl; exact absurd large (by decide)
    have plain : t.feed [ch] = t.putcAttr ch fg bg := by
      show t.ansiFilter ch = _
      rw [ansiFilter, normal]
      dsimp only
      rw [plainByte, if_neg notEscape,
        if_neg (UInt8.not_le.mpr (UInt8.lt_of_le_of_lt small (by decide : (0x7E : UInt8) < 0xC0))),
        if_neg (UInt8.not_le.mpr (UInt8.lt_of_le_of_lt small (by decide : (0x7E : UInt8) < 0x80))),
        isFg, isBg]
    rw [Item.bytes, plain]
    exact (shows.put large).1
  | newline =>
    have plain : t.feed [10] = t.newline := by
      show t.ansiFilter 10 = _
      rw [ansiFilter, normal]
      rfl
    rw [Item.bytes, plain]
    exact shows.newline.1
  | wide c multiByte =>
    obtain ⟨lead, conts, isBytes, large, length, range⟩ := utf8_shape multiByte
    have notEscape : lead ≠ 0x1B := by rintro rfl; exact absurd large (by decide)
    obtain ⟨put, sameLeft⟩ := (shows.left (contOf lead)).put (by decide : (32 : UInt8) ≤ 63)
    have first : t.ansiFilter lead = Grid.putcAttr { t with utf8Left := contOf lead } 63 fg bg := by
      have same : (if lead ≥ 0xF0 then 3 else if lead ≥ 0xE0 then 2 else 1 : Int) =
          contOf lead := by
        unfold contOf
        split
        next => rfl
        next => split <;> rfl
      rw [ansiFilter, normal]
      dsimp only
      rw [plainByte, if_neg notEscape, if_pos large, same, isFg, isBg, normal]
    rw [Item.bytes, isBytes, feed_cons, first,
      feed_conts range put.normal (by rw [sameLeft, length])]
    exact put.left 0
  | osc payload plain bel =>
    rw [feed_osc normal plain bel]
    exact shows.left 0

theorem Shows.text (shows : t.Shows page fg bg) (text : List Item) :
    (t.feed (text.flatMap Item.bytes)).Shows (text.foldl Page.place page) fg bg := by
  induction text generalizing t page with
  | nil => exact shows
  | cons item text ih =>
    rw [flatMap_cons, feed_append, foldl_cons]
    exact ih (shows.item item)

theorem clearScreen_shows (normal : t.state = .normal) :
    t.clearScreen.Shows ⟨[], []⟩ t.sgrFg t.sgrBg := by
  refine ⟨normal, ⟨rfl, rfl⟩, rfl, Nat.zero_le _, .inl ⟨by decide, rfl, rfl⟩,
    fun r below c inLine => ?_⟩
  have inside : 0 ≤ (r : Int) ∧ (r : Int) < termRows + termScrollback ∧ 0 ≤ (c : Int) ∧
      (c : Int) < termCols := by
    unfold gridRows at below
    unfold rowWidth at inLine
    unfold termRows termScrollback termCols
    omega
  have isBlank : t.clearScreen.lines r c = blank := by
    rw [clearScreen]
    dsimp only
    rw [if_pos inside]
  rw [isBlank]
  cases r with
  | zero => rfl
  | succ r =>
    have one : (Page.rows ⟨[], []⟩).length = 1 := rfl
    exact (Shows.cell_behind (by rw [one]; omega)).symm

theorem Shows.holds (shows : t.Shows page fg bg) : t.Holds (page.rows.drop page.hidden) fg bg := by
  have rows := page.rows_length
  have length : (page.rows.drop page.hidden).length = page.rows.length - page.hidden := length_drop
  obtain ⟨here, inGrid⟩ := shows.cursor_row
  refine ⟨?_, fun r below c inLine => ?_, fun r behind below c inLine => ?_⟩
  · have inside : page.hidden ≤ page.rows.length := Nat.sub_le _ _
    rw [length]
    omega
  · rw [length] at below
    rw [shows.cells r (by omega) c inLine, getD_eq_getElem?_getD, getD_eq_getElem?_getD,
      getElem?_drop]
  · rw [length] at behind
    rw [shows.cells r below c inLine, cell_behind (by omega)]

/-- A text fills the cleared grid with the last 525 rows of its layout. -/
theorem text_laid_out (t : Grid) (normal : t.state = .normal) (text : List Item) :
    (t.clearScreen.feed (text.flatMap Item.bytes)).Holds
    ((layout text).drop ((layout text).length - gridRows))
      t.sgrFg t.sgrBg := by
  rw [layout_eq]
  exact ((clearScreen_shows normal).text text).holds

/-- A letter, a window title, a newline and a character of three bytes. -/
def titled : List Item :=
  [.char 65 (by decide), .osc [48] (by decide +kernel) true, .newline, .wide '漢' (by decide)]

/-- A title sequence between two rows, and a character of three bytes. -/
theorem text_laid_out_title :
    (start.clearScreen.feed ([65] ++ [0x1B, 93, 48, 0x07] ++ [10] ++ [0xE6, 0xBC, 0xA2])).Holds
    [[65], [63]] attrText attrText := by
  have text := text_laid_out start rfl titled
  have rows : layout titled = [[65], [63]] := by decide
  have bytes : titled.flatMap Item.bytes = [65] ++ [0x1B, 93, 48, 0x07] ++ [10] ++
      [0xE6, 0xBC, 0xA2] := by decide
  rw [rows, bytes] at text
  exact text

end Grid

end M4KK1.Terminal
