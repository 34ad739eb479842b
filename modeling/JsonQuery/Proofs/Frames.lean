import JsonQuery.Modifier.Layout

/-!
# Containers are written one inside the other

Writing keeps a frame for each container that is open: the members that are left, and what the lines
of the container look like.  An inner container is written whole before the next member of the one
around it, so what comes out is what writing each value with all that is in it yields.  Statements
about what is written are proved of that.

## Layers

- **Levels**: writing by recursion, with a number of levels left.
- **Frames**: what each turn makes of the innermost frame.
- **Pages**: a value that is entered is written whole, and so is a document.
-/

namespace JsonQuery.Layout

open Ascii

/-! ## Levels -/

/-- Writes members by a given way to write values. -/
def writeMembers (layout : Layout) (writeValue : Item → Page → Page) (inline : Bool) (level : Nat)
    (first : Bool) (page : Page) : List Member → Page
  | [] => page
  | member :: members =>
    let page := layout.writeFront inline first level member page
    writeMembers layout writeValue inline level false (writeValue member.value page) members

/-- Writes an item with a number of levels left; `inline` inside of an array on one line. -/
def write (layout : Layout) : (levels : Nat) → (inline : Bool) → Item → Page → Page
  | levels, inline, .container object items width source length, page =>
    if items.isEmpty then page.push [opener object, closing object]
    else
      match levels with
      | 0 => page.push (compact (source.take length))
      | levels + 1 =>
        let level := maxLevels - levels
        let inline := inline || (!object && page.column + width ≤ layout.width)
        let page := layout.writeMembers (layout.write levels inline) inline level true
          (page.push [opener object]) (layout.members object items)
        let page := if inline then page else layout.startLine (level - 1) page
        page.push [closing object]
  | _, _, item, page => page.push item.text

/-! ## Frames -/

namespace Printing

section Frames

variable {layout : Layout} {page : Page} {level : Nat} {first object inline : Bool}
  {member : Member} {members : List Member} {outer : List Frame}

theorem run_member :
    layout.writing.run ⟨page, ⟨member :: members, first, level, object, inline⟩ :: outer⟩ =
      layout.writing.run (enter layout (level + 1) inline member.value
        ⟨layout.writeFront inline first (level + 1) member page,
          ⟨members, false, level, object, inline⟩ :: outer⟩) :=
  Loop.run_of_again rfl

theorem run_close :
    layout.writing.run ⟨page, ⟨[], first, level, object, inline⟩ :: outer⟩ =
      layout.writing.run
        ⟨(if inline then page else layout.startLine level page).push [closing object], outer⟩ :=
  Loop.run_of_again rfl

theorem run_end : layout.writing.run ⟨page, []⟩ = page :=
  Loop.run_of_over rfl

/-- The innermost container is closed behind its members, each of which is written whole. -/
theorem run_members {writeValue : Item → Page → Page}
    (hvalue : ∀ item page outer, layout.writing.run (enter layout (level + 1) inline item
      ⟨page, outer⟩) = layout.writing.run ⟨writeValue item page, outer⟩) :
    layout.writing.run ⟨page, ⟨members, first, level, object, inline⟩ :: outer⟩ =
      let written := layout.writeMembers writeValue inline (level + 1) first page members
      let page := if inline then written else layout.startLine level written
      layout.writing.run ⟨page.push [closing object], outer⟩ := by
  induction members generalizing page first with
  | nil => exact run_close
  | cons member members ih =>
    rw [run_member, hvalue, ih]
    rfl

end Frames

/-! ## Pages -/

/-- A value that is entered is written whole. -/
theorem run_enter (layout : Layout) {levels level : Nat} (hlevels : level + levels = maxLevels)
    (inline : Bool) (item : Item) (page : Page) (outer : List Frame) :
    layout.writing.run (enter layout level inline item ⟨page, outer⟩) =
      layout.writing.run ⟨layout.write levels inline item page, outer⟩ := by
  -- On the levels, for the values inside of a container
  induction levels generalizing level inline item page outer with
  | zero =>
    cases item with
    | key | scalar | closer => rfl
    | container object items width source length =>
      rw [write, enter]
      split
      · rfl
      · -- No level is left: both write the compact form
        rw [if_pos (by omega)]
  | succ levels ih =>
    cases item with
    | key | scalar | closer => rfl
    | container object items width source length =>
      have hlevel : maxLevels - levels = level + 1 := by omega
      rw [write, enter, hlevel]
      split
      · rfl
      · rw [if_neg (by omega)]
        exact run_members fun item page outer => ih (by omega) _ item page outer

end Printing

/-- A document that can be read is written as its item is. -/
theorem pretty_eq (layout : Layout) (document : Bytes) :
    layout.pretty document =
      match read? document with
      | none => document
      | some item =>
        let page := layout.write maxLevels false item (Page.push layout.margin {})
        (page.push [lineFeed]).written.reverse := by
  rw [pretty]
  cases read? document with
  | none => rfl
  | some item =>
    dsimp only
    rw [Printing.run_enter layout (Nat.zero_add _), Printing.run_end]

end JsonQuery.Layout
