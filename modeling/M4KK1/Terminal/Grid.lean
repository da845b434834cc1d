import Mathlib.Data.Int.Basic

/-!
# The character grid of the terminal

The grid of `cmd/terminal.c`, without pixels; `accesses` are the cells read or written.
-/

namespace M4KK1.Terminal

open Function

def termCols : Int := 80

def termRows : Int := 25

def termScrollback : Int := 500

/-- The length of `ansi_params`. -/
def maxParams : Nat := 24

/-- `term_cell_t`. -/
structure Cell where
  ch : UInt8
  attr : BitVec 16
  bg : BitVec 16

/-- `ATTR_TEXT`, `ATTR_PROMPT`, `ATTR_ERR` and `ATTR_256`. -/
def attrText : BitVec 16 := 0
@[inherit_doc attrText] def attrPrompt : BitVec 16 := 1
@[inherit_doc attrText] def attrErr : BitVec 16 := 2
@[inherit_doc attrText] def attr256 : BitVec 16 := 0x8000

def blank : Cell := ⟨32, attrText, attrText⟩

/-- The states of the parser. -/
inductive Ansi where
  | normal | esc | csi | osc
deriving DecidableEq

/-- The static variables of the terminal. -/
structure Grid where
  lines : Int → Int → Cell
  top : Int
  row : Int
  col : Int
  scrollback : Int
  dmgLo : Int
  dmgHi : Int
  state : Ansi
  params : Nat → Int
  nparams : Nat
  cur : Int
  utf8Left : Int
  sgrFg : BitVec 16
  sgrBg : BitVec 16
  accesses : List (Int × Int)

/-- The numbers from `lo` to `hi`. -/
def span (lo hi : Int) : List Int := (List.range (hi + 1 - lo).toNat).map fun (k : Nat) => lo + k

def cells (rows cols : List Int) : List (Int × Int) :=
  rows.flatMap fun r => cols.map fun c => (r, c)

/-- All cells of `term_lines`. -/
def allCells : List (Int × Int) :=
  cells (span 0 (termRows + termScrollback - 1)) (span 0 (termCols - 1))

variable (t : Grid) (ch : UInt8)

namespace Grid

def write (r c : Int) (cell : Cell) : Grid :=
  { t with
    lines := update t.lines r (update (t.lines r) c cell)
    accesses := t.accesses ++ [(r, c)] }

/-- The cells of a row from `lo` to `hi` are emptied. -/
def blankCells (r lo hi : Int) : Grid :=
  (span lo hi).foldl (fun t c => t.write r c blank) t

def dmgRow (r : Int) : Grid :=
  if r < 0 then t
  else { t with
    dmgLo := if t.dmgLo < 0 ∨ r < t.dmgLo then r else t.dmgLo
    dmgHi := if t.dmgHi < 0 ∨ r > t.dmgHi then r else t.dmgHi }

def dmgAllRows : Grid := { t with dmgLo := 0, dmgHi := termRows - 1 }

/-- The rows move up by one, and the last one is empty. -/
def shiftUp : Grid :=
  ({ t with lines := fun r => t.lines (r + 1), accesses := t.accesses ++ allCells } :
    Grid).blankCells
    (termRows + termScrollback - 1) 0 (termCols - 1)

def newline : Grid :=
  let t := { t with col := 0 }
  if t.row < termRows - 1 then
    let t := t.dmgRow t.row
    let t := { t with row := t.row + 1 }
    t.dmgRow t.row
  else
    let t := if t.top < termScrollback then { t with top := t.top + 1 } else t.shiftUp
    (t.blankCells (t.top + termRows - 1) 0 (termCols - 1)).dmgAllRows

def tabColumns (attr bg : BitVec 16) : Nat → Grid → Grid
  | 0, t => t
  | n + 1, t =>
    if t.col < termCols then
      let t := t.write (t.top + t.row) t.col ⟨32, attr, bg⟩
      tabColumns attr bg n { t with col := t.col + 1 }
    else t

def putcAttr (attr bg : BitVec 16) : Grid :=
  if ch = 10 then t.newline
  else if ch = 13 then { t with col := 0 }
  else if ch = 8 then
    let t := if t.col > 0 then { t with col := t.col - 1 } else t
    (t.write (t.top + t.row) t.col blank).dmgRow t.row
  else if ch = 9 then
    let t := tabColumns attr bg (8 - t.col.tmod 8).toNat t
    t.dmgRow t.row
  else if ch < 32 then t
  else
    let t := if t.col ≥ termCols then t.newline else t
    let t := t.write (t.top + t.row) t.col ⟨ch, attr, bg⟩
    let t := { t with col := t.col + 1 }
    t.dmgRow t.row

def csiParam (i : Nat) : Int := if i < t.nparams then t.params i else 0

/-- The loop of `csi_erase_display` over the rows. -/
def eraseRows (lo hi loC hiC : Int) (t : Grid) : Grid :=
  (span lo hi).foldl (fun t r =>
    t.blankCells (t.top + r) (if r = lo then loC else 0) (if r = hi then hiC else termCols - 1)) t

def eraseDisplay : Grid :=
  let mode := t.csiParam 0
  if mode < 0 ∨ mode > 2 then t
  else
    let lo := if mode = 0 then t.row else 0
    let loC := if mode = 0 then t.col else 0
    let hi := if mode = 1 then t.row else termRows - 1
    let hiC := if mode = 1 then t.col else termCols - 1
    ((t.eraseRows lo hi loC hiC).dmgRow lo).dmgRow hi

def eraseLine : Grid :=
  let mode := t.csiParam 0
  if mode < 0 ∨ mode > 2 then t
  else
    let lo := if mode = 0 then t.col else 0
    let hi := if mode = 1 then t.col else termCols - 1
    (t.blankCells (t.top + t.row) lo hi).dmgRow t.row

def cursorPos : Grid :=
  let r := t.csiParam 0
  let c := t.csiParam 1
  let r := if r < 1 then 1 else r
  let r := if r > termRows then termRows else r
  let c := if c < 1 then 1 else c
  let c := if c > termCols then termCols else c
  let t := t.dmgRow t.row
  let t := { t with row := r - 1, col := c - 1 }
  t.dmgRow t.row

def cursorMove : Grid :=
  let n := t.csiParam 0
  let n := if n < 1 then 1 else n
  let oldRow := t.row
  let t :=
    if ch = 65 then { t with row := if t.row - n < 0 then 0 else t.row - n }
    else if ch = 66 then
      { t with row := if t.row + n > termRows - 1 then termRows - 1 else t.row + n }
    else if ch = 67 then
      { t with col := if t.col + n > termCols - 1 then termCols - 1 else t.col + n }
    else { t with col := if t.col - n < 0 then 0 else t.col - n }
  (t.dmgRow oldRow).dmgRow t.row

end Grid

def sgrBasicAttr (p : Int) : BitVec 16 :=
  if p = 31 ∨ p = 91 then attrErr else if p = 32 ∨ p = 92 then attrPrompt else attrText

def sgrBasicBg (p : Int) : BitVec 16 :=
  if p ≥ 40 ∧ p ≤ 47 then attr256 ||| BitVec.ofInt 16 (p - 40)
  else attr256 ||| BitVec.ofInt 16 (p - 100 + 8)

/-- A parameter that is not skipped behind a malformed colour. -/
def endsSubParams (v : Int) : Bool :=
  v = 38 || v = 48 || (v ≥ 30 && v ≤ 39) || (v ≥ 90 && v ≤ 107) || v = 0

/-- The loop of `sgr_apply` from the parameter at `i` on. -/
def sgrLoop (p : Nat → Int) (np : Nat) : Nat → Nat → BitVec 16 × BitVec 16 → BitVec 16 × BitVec 16
  | 0, _, colors => colors
  | fuel + 1, i, (fg, bg) =>
    if i < np then
      let v := p i
      if v = 0 then sgrLoop p np fuel (i + 1) (attrText, attrText)
      else if v = 39 then sgrLoop p np fuel (i + 1) (attrText, bg)
      else if v = 49 then sgrLoop p np fuel (i + 1) (fg, attrText)
      else if (v ≥ 30 ∧ v ≤ 37) ∨ (v ≥ 90 ∧ v ≤ 97) then
        sgrLoop p np fuel (i + 1) (sgrBasicAttr v, bg)
      else if (v ≥ 40 ∧ v ≤ 47) ∨ (v ≥ 100 ∧ v ≤ 107) then
        sgrLoop p np fuel (i + 1) (fg, sgrBasicBg v)
      else if v = 38 ∨ v = 48 then
        if i + 2 < np ∧ p (i + 1) = 5 ∧ p (i + 2) ≥ 0 ∧ p (i + 2) ≤ 255 then
          let color := attr256 ||| BitVec.ofInt 16 (p (i + 2))
          sgrLoop p np fuel (i + 3) (if v = 38 then (color, bg) else (fg, color))
        else
          sgrLoop p np fuel (((List.range np).find? fun j => decide (i < j) &&
            endsSubParams (p j)).getD np) (fg, bg)
      else sgrLoop p np fuel (i + 1) (fg, bg)
    else (fg, bg)

namespace Grid

def sgrApply : Grid :=
  if t.nparams = 0 then { t with sgrFg := attrText, sgrBg := attrText }
  else
    let colors := sgrLoop t.params t.nparams t.nparams 0 (t.sgrFg, t.sgrBg)
    { t with sgrFg := colors.1, sgrBg := colors.2 }

def pushParam : Grid :=
  if t.nparams < maxParams then
    { t with params := update t.params t.nparams t.cur, nparams := t.nparams + 1 }
  else t

/-- The byte that ends a control sequence. -/
def endCsi : Grid :=
  let t := pushParam { t with state := .normal }
  if ch = 109 then t.sgrApply
  else if ch = 74 then t.eraseDisplay
  else if ch = 75 then t.eraseLine
  else if ch = 72 ∨ ch = 102 then t.cursorPos
  else if ch ≥ 65 ∧ ch ≤ 68 then t.cursorMove ch
  else t

/-- A byte outside an escape sequence. -/
def plainByte : Grid :=
  if ch = 0x1B then { t with state := .esc, utf8Left := 0 }
  else if ch ≥ 0xC0 then
    let cont : Int := if ch ≥ 0xF0 then 3 else if ch ≥ 0xE0 then 2 else 1
    ({ t with utf8Left := cont } : Grid).putcAttr 63 t.sgrFg t.sgrBg
  else if ch ≥ 0x80 then
    if t.utf8Left > 0 then { t with utf8Left := t.utf8Left - 1 }
    else t.putcAttr 63 t.sgrFg t.sgrBg
  else t.putcAttr ch t.sgrFg t.sgrBg

def ansiFilter : Grid :=
  match t.state with
  | .esc =>
    if ch = 91 then { t with state := .csi, nparams := 0, cur := 0 }
    else if ch = 93 then { t with state := .osc }
    else { t with state := .normal }
  | .osc =>
    if ch = 7 then { t with state := .normal }
    else if ch = 0x1B then { t with state := .esc }
    else t
  | .csi =>
    if ch ≥ 48 ∧ ch ≤ 57 then
      { t with cur := if t.cur < 1000 then t.cur * 10 + (ch.toNat - 48) else t.cur }
    else if ch = 59 then { t.pushParam with cur := 0 }
    else t.endCsi ch
  | .normal => t.plainByte ch

/-- The cells that `term_render` reads. -/
def render : Grid :=
  let first := t.top - t.scrollback
  let visible := cells ((span 0 (termRows - 1)).map fun r => first + r) (span 0 (termCols - 1))
  let ccur := if t.col > termCols - 1 then termCols - 1 else t.col
  let cursor := if t.scrollback = 0 then [(t.top + t.row, ccur)] else []
  { t with accesses := t.accesses ++ visible ++ cursor }

/-- `term_handle_key`, as far as the grid is concerned. -/
def handleKey : Grid :=
  if ch = 1 then
    if t.scrollback < t.top then
      dmgAllRows { t with
        scrollback := if t.scrollback + termRows > t.top then t.top else t.scrollback + termRows }
    else t
  else if ch = 2 then
    if t.scrollback > 0 then
      dmgAllRows
        { t with scrollback := if t.scrollback - termRows < 0 then 0 else t.scrollback - termRows }
    else t
  else if t.scrollback ≠ 0 then (dmgAllRows { t with scrollback := 0 }).render
  else t

/-- The static variables before the main loop, behind `term_clear_screen`. -/
def start : Grid where
  lines := fun _ _ => blank
  top := 0
  row := 0
  col := 0
  scrollback := 0
  dmgLo := -1
  dmgHi := -1
  state := .normal
  params := fun _ => 0
  nparams := 0
  cur := 0
  utf8Left := 0
  sgrFg := attrText
  sgrBg := attrText
  accesses := allCells

end Grid

/-- What happens to the terminal: a byte from the shell, a key, or a render. -/
inductive Event where
  | feed (ch : UInt8)
  | key (ch : UInt8)
  | render

def Grid.handle : Event → Grid
  | .feed ch => t.ansiFilter ch
  | .key ch => t.handleKey ch
  | .render => t.render

def Grid.run (events : List Event) : Grid := events.foldl handle start

end M4KK1.Terminal
