import Mathlib.Data.List.Basic
import M4KK1.Terminal.Grid

/-!
# Text laid out in rows

Lines are cut every 80 characters; `Page` builds the same rows character by character.
-/

namespace M4KK1.Terminal

open List

def rowWidth : Nat := 80

/-- A printable character, a newline, a longer character, or an OSC string with its end. -/
inductive Item where
  | char (ch : UInt8) (printable : 0x20 ≤ ch ∧ ch ≤ 0x7E)
  | newline
  | wide (c : Char) (multiByte : 0x80 ≤ c.val)
  | osc (payload : List UInt8) (plain : ∀ byte ∈ payload, byte ≠ 0x07 ∧ byte ≠ 0x1B) (bel : Bool)

def Item.bytes : Item → List UInt8
  | .char ch _ => [ch]
  | .newline => [10]
  | .wide c _ => String.utf8EncodeChar c
  | .osc payload _ bel => [0x1B, 93] ++ payload ++ if bel then [0x07] else [0x1B, 92]

/-- The lines of a text as cells; a longer character shows as `?`, an OSC string not at all. -/
def textLines : List Item → List UInt8 × List (List UInt8)
  | [] => ([], [])
  | item :: text =>
    let (line, lines) := textLines text
    match item with
    | .char ch _ => (ch :: line, lines)
    | .newline => ([], line :: lines)
    | .wide .. => (63 :: line, lines)
    | .osc .. => (line, lines)

def rowsOf (line : List UInt8) : List (List UInt8) :=
  (List.range (max 1 ((line.length + (rowWidth - 1)) / rowWidth))).map fun k =>
    (line.drop (rowWidth * k)).take rowWidth

def layout (text : List Item) : List (List UInt8) :=
  rowsOf (textLines text).1 ++ (textLines text).2.flatMap rowsOf

/-- The rows so far: those that are finished, and the last one. -/
structure Page where
  done : List (List UInt8)
  cur : List UInt8

variable (page : Page)

namespace Page

def rows : List (List UInt8) := page.done ++ [page.cur]

/-- The last row is finished. -/
def newline : Page := ⟨page.done ++ [page.cur], []⟩

/-- A character goes behind the last one, into a new row if the last one is full. -/
def put (ch : UInt8) : Page :=
  if page.cur.length = rowWidth then ⟨page.newline.done, [ch]⟩ else ⟨page.done, page.cur ++ [ch]⟩

def place : Item → Page
  | .char ch _ => page.put ch
  | .newline => page.newline
  | .wide .. => page.put 63
  | .osc .. => page

end Page

theorem rowsOf_short {line : List UInt8} (short : line.length ≤ rowWidth) :
    rowsOf line = [line] := by
  have one : max 1 ((line.length + (rowWidth - 1)) / rowWidth) = 1 := by
    unfold rowWidth at *
    omega
  rw [rowsOf, one, range_one, map_singleton, Nat.mul_zero, drop_zero, take_of_length_le short]

theorem rowsOf_full {row line : List UInt8} (full : row.length = rowWidth) (more : line ≠ []) :
    rowsOf (row ++ line) = row :: rowsOf line := by
  have positive := length_pos_of_ne_nil more
  have count : max 1 (((row ++ line).length + (rowWidth - 1)) / rowWidth) =
      max 1 ((line.length + (rowWidth - 1)) / rowWidth) + 1 := by
    rw [length_append, full]
    unfold rowWidth
    omega
  rw [rowsOf, count, range_succ_eq_map, map_cons, map_map, Nat.mul_zero, drop_zero, ← full,
    take_left, full]
  refine congrArg _ (map_congr_left fun k _ => ?_)
  rw [Function.comp_apply, Nat.mul_succ, Nat.add_comm, ← drop_drop, ← full, drop_left, full]

theorem Page.put_short {page : Page} (short : page.cur.length ≤ rowWidth) (ch : UInt8) :
    (page.put ch).cur.length ≤ rowWidth := by
  unfold put
  split
  next => exact (by decide : 1 ≤ rowWidth)
  next more =>
    rw [length_append, length_singleton]
    omega

theorem Page.place_short {page : Page} (short : page.cur.length ≤ rowWidth) (item : Item) :
    (page.place item).cur.length ≤ rowWidth := by
  cases item with
  | char ch _ => exact put_short short ch
  | newline => exact Nat.zero_le _
  | wide _ _ => exact put_short short 63
  | osc _ _ _ => exact short

theorem Page.put_rows (ch : UInt8) (line : List UInt8) :
    page.done ++ rowsOf (page.cur ++ ch :: line) =
      (page.put ch).done ++ rowsOf ((page.put ch).cur ++ line) := by
  unfold put
  split
  next full =>
    rw [rowsOf_full full (cons_ne_nil ch line), newline, append_assoc]
    rfl
  next => rw [append_assoc, singleton_append]

theorem Page.foldl_place {page : Page} (short : page.cur.length ≤ rowWidth) (text : List Item) :
    (text.foldl place page).rows =
      page.done ++ rowsOf (page.cur ++ (textLines text).1) ++
        (textLines text).2.flatMap rowsOf := by
  induction text generalizing page with
  | nil => rw [foldl_nil, textLines, append_nil, rowsOf_short short, flatMap_nil, append_nil, rows]
  | cons item text ih =>
    rw [foldl_cons, ih (place_short short item)]
    cases item with
    | char ch printable =>
      show (page.put ch).done ++ rowsOf ((page.put ch).cur ++ (textLines text).1) ++ _ = _
      rw [← put_rows]
      rfl
    | newline =>
      rw [textLines, place, newline, nil_append, append_nil, rowsOf_short short, flatMap_cons,
        append_assoc, append_assoc]
    | wide c multiByte =>
      show (page.put 63).done ++ rowsOf ((page.put 63).cur ++ (textLines text).1) ++ _ = _
      rw [← put_rows]
      rfl
    | osc payload plain bel => rfl

/-- The rows of a text are those of the page it is placed on. -/
theorem layout_eq (text : List Item) : layout text = (text.foldl Page.place ⟨[], []⟩).rows := by
  rw [Page.foldl_place (Nat.zero_le _), nil_append, nil_append, layout]

end M4KK1.Terminal
