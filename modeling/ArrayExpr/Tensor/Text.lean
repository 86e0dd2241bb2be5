import ArrayExpr.Decimal.Notation
import ArrayExpr.Tensor.Basic
import ArrayExpr.Text.Character

/-!
The text of a tensor. All elements are written in one form and to one width. Rows are wrapped at a
fixed line length, axes nest in brackets, and of a large tensor only three elements at either end of
each axis are shown.
-/

namespace ArrayExpr.Tensor

def threshold : Nat := 1000

def edge : Nat := 3

def lineLength : Nat := 75

def maxPlaces : Nat := 8

def padLeft (width : Nat) (cs : List Char) : List Char :=
  List.replicate (width - cs.length) ' ' ++ cs

def padRight (fill : Char) (width : Nat) (cs : List Char) : List Char :=
  cs ++ List.replicate (width - cs.length) fill

def widest (ns : List Nat) : Nat :=
  ns.foldl max 0

/-- A finite double in parts: integer figures with the sign, places, and the exponent. -/
structure Parts where
  figures : List Char
  places : List Char
  exponent : Int

def positionalDigits (m : Nat) (e : Int) : Decimal.Digits :=
  let d := Decimal.shortest m e
  if d.exponent < -(maxPlaces : Int) then Decimal.roundedAt m e (-(maxPlaces : Int)) else d

def scientificDigits (m : Nat) (e : Int) : Decimal.Digits :=
  let d := Decimal.shortest m e
  if maxPlaces + 1 < d.text.length then Decimal.roundedAt m e (d.magnitude - maxPlaces) else d

def withSign (negative : Bool) (cs : List Char) : List Char :=
  if negative then '-' :: cs else cs

def positional (negative : Bool) (m : Nat) (e : Int) : Parts :=
  let (figures, places) := (positionalDigits m e).split
  ⟨withSign negative figures, places, 0⟩

def scientific (negative : Bool) (m : Nat) (e : Int) : Parts :=
  let d := scientificDigits m e
  ⟨withSign negative (d.text.take 1), d.text.drop 1, if m == 0 then 0 else d.magnitude⟩

/-- How doubles of one tensor are written: with an exponent or not, and the widths of the parts. -/
structure FloatForm where
  scientific : Bool
  left : Nat
  places : Nat
  exponentDigits : Nat

def FloatForm.right (f : FloatForm) : Nat :=
  if f.scientific then f.exponentDigits + 2 + f.places else f.places

def partsOf (isScientific : Bool) (x : Float) : Option Parts :=
  match Decimal.Binary64.ofFloat x with
  | .finite negative m e =>
    some (if isScientific then scientific negative m e else positional negative m e)
  | _ => none

/-- Whether doubles are written with exponents: when one is large or small, or when they differ
much. Only finite ones other than zero count. -/
def needsExponent (xs : List Float) : Bool :=
  let sizes := (xs.filter fun x => x.isFinite && x != 0.0).map Float.abs
  match sizes with
  | [] => false
  | first :: rest =>
    let largest := rest.foldl max first
    let smallest := rest.foldl min first
    1e8 ≤ largest || smallest < 1e-4 || 1000.0 < largest / smallest

/-- The form of a list of doubles. -/
def floatForm (xs : List Float) : FloatForm :=
  let isScientific := needsExponent xs
  let parts := xs.filterMap (partsOf isScientific)
  let form : FloatForm :=
    { scientific := isScientific && !parts.isEmpty
      left := widest (parts.map fun p => p.figures.length)
      places := widest (parts.map fun p => p.places.length)
      exponentDigits := widest (parts.map fun p => (Decimal.exponentText 2 p.exponent).length - 1) }
  if parts.length == xs.length then form
  else
    let minus := if xs.any fun x => x.isInf && x < 0.0 then 1 else 0
    { form with left := max form.left (3 + minus - (form.right + 1)) }

/-- A double in a form. -/
def FloatForm.write (f : FloatForm) (x : Float) : List Char :=
  match partsOf f.scientific x with
  | some p =>
    if f.scientific then
      padLeft f.left p.figures ++ '.' :: padRight '0' f.places p.places ++
        'e' :: Decimal.exponentText f.exponentDigits p.exponent
    else padLeft f.left p.figures ++ '.' :: padRight ' ' f.places p.places
  | none => padLeft (f.left + f.right + 1) (Decimal.floatText x).toList

/-- The texts of elements, in the form that the sample decides. -/
def cellTexts (plain : Bool) (sample : Cells) : Cells → List (List Char)
  | .bools xs =>
    xs.map fun b => if b then (if plain then "True" else " True").toList else "False".toList
  | .ints _ xs =>
    let width :=
      match sample with
      | .ints _ ns => widest (ns.map fun n => (Decimal.intText n).toList.length)
      | _ => 0
    xs.map fun n => padLeft width (Decimal.intText n).toList
  | .floats xs =>
    let form :=
      match sample with
      | .floats ys => floatForm ys
      | _ => floatForm []
    xs.map form.write

def nearEdge (shape index : List Nat) : Bool :=
  (shape.zip index).all fun (n, i) => n ≤ 2 * edge || i < edge || n ≤ i + edge

/-- The elements that decide the form: of a large tensor those that are shown. -/
def sample (t : Tensor) : Cells :=
  if t.size ≤ threshold then t.cells
  else
    let shown := (Shape.indices t.shape).map (nearEdge t.shape)
    t.cells.move fun xs => (xs.zip shown).filterMap fun (x, isShown) =>
      if isShown then some x else none

/-- The parts of an axis that are shown: all of them, or those near the ends around an ellipsis. -/
def abridge {α : Type} (summarise : Bool) (xs : List α) : List (Option α) :=
  if summarise && 2 * edge < xs.length then
    (xs.take edge).map some ++ none :: (xs.drop (xs.length - edge)).map some
  else xs.map some

/-- Appends a word to a line, or starts a new line when it does not fit. -/
def extendLine (limit : Nat) (indent : List Char) (done line word : List Char) :
    List Char × List Char :=
  if limit < line.length + word.length && indent.length < line.length then
    (done ++ Text.stripEnd line ++ ['\n'], indent ++ word)
  else (done, line ++ word)

/-- Words on lines, with a separator between them. -/
def wrapWords (limit : Nat) (indent separator : List Char) :
    (done line : List Char) → List (List Char) → List Char
  | done, line, [] => done ++ line
  | done, line, [word] =>
    let (done, line) := extendLine limit indent done line word
    done ++ line
  | done, line, word :: words =>
    let (done, line) := extendLine limit indent done line word
    wrapWords limit indent separator done (line ++ separator) words

/-- The brackets of a tensor; `width` is the room on a line and `indent` stands in front of every
line but the first. -/
def brackets (summarise : Bool) (separator : List Char) :
    (shape : List Nat) → (width : Nat) → (indent : List Char) → List (List Char) → List Char
  | [], _, _, texts => texts.headD []
  | [_], width, indent, texts =>
    let words := (abridge summarise texts).map fun w => w.getD "...".toList
    '[' :: (wrapWords (width - 1) indent separator [] indent words).drop indent.length ++ [']']
  | n :: rest, width, indent, texts =>
    let parts := Shape.rowsOf (Shape.count rest) n texts
    let lines := (abridge summarise parts).map fun part =>
      match part with
      | some part => indent ++ brackets summarise separator rest (width - 1) (indent ++ [' ']) part
      | none => indent ++ "...".toList
    let between := Text.stripEnd separator ++ List.replicate rest.length '\n'
    '[' :: (between.intercalate lines).drop indent.length ++ [']']

def bracketed (t : Tensor) (separator : List Char) (width indent : Nat) : List Char :=
  if t.size == 0 then "[]".toList
  else
    brackets (threshold < t.size) separator t.shape width (List.replicate indent ' ')
      (cellTexts t.shape.isEmpty t.sample t.cells)

def scalarText : Scalar → String
  | .bool b => if b then "True" else "False"
  | .int _ n => Decimal.intText n
  | .float x => Decimal.floatText x

/-- The text of a tensor by itself: elements in brackets, separated by blanks. -/
def shown (t : Tensor) : String :=
  match t.toScalar? with
  | some s => scalarText s
  | none => String.ofList (t.bracketed [' '] lineLength 1)

/-- What a quoted tensor says besides its elements: the shape where the brackets do not show it, and
the kind where the elements do not. -/
def extras (t : Tensor) : List String :=
  (if (t.size == 0 && t.shape != [0]) || threshold < t.size then
      ["shape=" ++ Shape.spacedText t.shape] else []) ++
    if t.size == 0 || t.kind == .int .int8 || t.kind == .int .uint64 then
      ["dtype=" ++ t.kind.name] else []

/-- The text of a tensor inside other values. -/
def quoted (t : Tensor) : String :=
  let opening := "array(".toList
  let body := opening ++ t.bracketed [',', ' '] (lineLength - 1) (opening.length + 1)
  match t.extras with
  | [] => String.ofList (body ++ [')'])
  | extras =>
    let body := body ++ [',']
    let extra := ", ".intercalate extras ++ ")"
    let last := (body.reverse.takeWhile (· != '\n')).length
    let spacer :=
      if lineLength < last + extra.length + 1 then '\n' :: List.replicate opening.length ' '
      else [' ']
    String.ofList (body ++ spacer) ++ extra

end ArrayExpr.Tensor
