import AiMidi.Plugin.PianoRoll

/-!
# `AiMidi.Plugin.PianoRollComponent`: what the mouse does to the piano roll

A press in the header or the grid begins the selection of a region of bars, and one on the keyboard
the export of the notes. A drag extends the selection, or starts the export when it has gone far
enough. The component also shows the difference between two lists of notes.

The state is what these operations read and write. Drawing and the tooltip are left out, and so are
the setters that nothing calls, among them that of the time range. The tick of a position is
computed on `double` and cut to `int`. `scaled` stands for this computation from the first tick, the
distance from the left edge, the width, and the number of ticks.
-/

set_option autoImplicit false

namespace AiMidi.Plugin

open AiMidi.Lib

/-- `juce::Rectangle<int>`. -/
structure Rectangle where
  x : Int
  y : Int
  width : Int
  height : Int
  deriving DecidableEq, Repr

namespace Rectangle

/-- Whether a point lies in a rectangle. The right and the lower edge do not belong to it. -/
def contains (r : Rectangle) (pos : Int × Int) : Bool :=
  r.x ≤ pos.1 && r.y ≤ pos.2 && pos.1 < r.x + r.width && pos.2 < r.y + r.height

/-- The strip that is removed, and what remains. -/
def removeFromTop (amount : Int) (r : Rectangle) : Rectangle × Rectangle :=
  let h := min amount r.height
  ({ r with height := h }, { r with y := r.y + h, height := r.height - h })

/-- The part that is cut off on the left, and what is left of the rectangle. -/
def removeFromLeft (amount : Int) (r : Rectangle) : Rectangle × Rectangle :=
  let w := min amount r.width
  ({ r with width := w }, { r with x := r.x + w, width := r.width - w })

end Rectangle

/-- The state of the component, with the defaults of the source. -/
structure PianoRollComponent where
  notes : List PianoRollNote := []
  startTick : Int := 0
  endTick : Int := 3840
  ppq : Int := 480
  -- Region selection
  selectedBarStart : Int := -1
  selectedBarEnd : Int := -1
  isDragging : Bool := false
  dragStartTick : Int := 0
  isDragExport : Bool := false
  dragStartPos : Int × Int := (0, 0)
  -- Diff mode
  diffMode : Bool := false
  beforeNotes : List PianoRollNote := []
  afterNotes : List PianoRollNote := []

namespace PianoRollComponent

/-- The width of the keyboard, in pixels. -/
def kKeyboardWidth : Int := 50

/-- The height of the header, in pixels. -/
def kHeaderHeight : Int := 20

/-! ### Public setters -/

/-- `setNotes`. A diff that is shown stays. -/
def setNotes (notes : List PianoRollNote) (s : PianoRollComponent) : PianoRollComponent :=
  { s with notes }

/-- `showDiff`: both sides, and the mode. -/
def showDiff (before after : List PianoRollNote) (s : PianoRollComponent) : PianoRollComponent :=
  { s with beforeNotes := before, afterNotes := after, diffMode := true }

/-- `clearDiff`: both sides are emptied, and the mode ends. -/
def clearDiff (s : PianoRollComponent) : PianoRollComponent :=
  { s with beforeNotes := [], afterNotes := [], diffMode := false }

/-- `clearSelection`, which also ends a press of the mouse. -/
def clearSelection (s : PianoRollComponent) : PianoRollComponent :=
  { s with
    selectedBarStart := -1, selectedBarEnd := -1, isDragging := false, isDragExport := false }

/-- A selection of at least one bar. A click alone selects none. -/
def hasSelection (s : PianoRollComponent) : Bool :=
  0 ≤ s.selectedBarStart && s.selectedBarStart < s.selectedBarEnd

/-! ### Mouse

A press, its drags and its release are separate events. The component keeps in between what kind of
press it was. -/

section

variable (scaled : Int → Int → Int → Int → Int)

/-- `xToTick`: the tick below a pixel of the grid, the first one when there is no range. -/
def xToTick (s : PianoRollComponent) (x : Int) (area : Rectangle) : Int :=
  let range := s.endTick - s.startTick
  if range ≤ 0 then s.startTick else scaled s.startTick (x - area.x) area.width range

/-- `std::clamp(tick / ticksPerBar, 0, endTick_ / ticksPerBar)`. The division cuts off. -/
def barOf (s : PianoRollComponent) (tick : Int) : Int :=
  let ticksPerBar := s.ppq * 4
  let bar := tick.tdiv ticksPerBar
  let last := s.endTick.tdiv ticksPerBar
  if bar < 0 then 0 else if last < bar then last else bar

/-- The header, the keyboard and the grid. -/
def areas (bounds : Rectangle) : Rectangle × Rectangle × Rectangle :=
  let (headerArea, bounds) := bounds.removeFromTop kHeaderHeight
  let (keyArea, gridArea) := bounds.removeFromLeft kKeyboardWidth
  (headerArea, keyArea, gridArea)

/-- `mouseDown`: a press in the header or the grid begins a selection, and one on the keyboard a
drag of the file. -/
def mouseDown (bounds : Rectangle) (pos : Int × Int) (s : PianoRollComponent) :
    PianoRollComponent :=
  let (headerArea, keyArea, gridArea) := areas bounds
  if headerArea.contains pos || gridArea.contains pos then
    let dragStartTick := s.xToTick scaled pos.1 gridArea
    let bar := s.barOf dragStartTick
    { s with
      isDragging := true
      isDragExport := false
      dragStartTick
      selectedBarStart := bar
      selectedBarEnd := bar }
  else if keyArea.contains pos then
    { s with isDragExport := true, isDragging := false, dragStartPos := pos }
  else s

/-- `diff.getDistanceFromOrigin() > 8`. -/
def farFrom (pos start : Int × Int) : Bool :=
  8 ^ 2 < (pos.1 - start.1) ^ 2 + (pos.2 - start.2) ^ 2

/-- The component after a drag, and whether the drag starts an export. -/
def mouseDrag (bounds : Rectangle) (pos : Int × Int) (s : PianoRollComponent) :
    PianoRollComponent × Bool :=
  let (_, _, gridArea) := areas bounds
  if s.isDragExport then
    if farFrom pos s.dragStartPos then ({ s with isDragExport := false, isDragging := false }, true)
    else (s, false)
  else if s.isDragging then
    let currentTick := s.xToTick scaled pos.1 gridArea
    let startBar := s.barOf s.dragStartTick
    let endBar := s.barOf currentTick
    ({ s with selectedBarStart := min startBar endBar, selectedBarEnd := max startBar endBar },
      false)
  else (s, false)

/-- The caller is told that the selection may have changed. -/
def mouseUp (s : PianoRollComponent) : PianoRollComponent :=
  { s with isDragging := false, isDragExport := false }

end

end PianoRollComponent

end AiMidi.Plugin
