import SymCalc.Algebra.Matrix

/-!
# Printing scalars and matrices

A term is written as its magnitude, the letter i and the powers; a magnitude of one is left
out before these. Sums are joined by plus and minus signs. How a magnitude is written is given
from outside.
-/

namespace SymCalc

variable {M : Type} [Magnitude M]

/-- A term put together from its magnitude and its written powers. -/
def Term.assemble (write : M → Text) (m : M) (imaginary : Bool) (powers : List Text) : Text :=
  if Magnitude.isZero m then "0"
  else if !imaginary && powers.isEmpty then write m
  else
    let factor : Text := if m == 1 then "" else if m == -1 then "-" else write m
    let unit : Text := if imaginary then "i" else ""
    factor ++ unit ++ Text.join "*" powers

/-- A power put together from its name and its written exponent. An exponent of one is left
out, and all but plain numbers stand in parentheses. -/
def Power.assemble (name : Text) (exponent : Poly M) (written : Text) : Text :=
  if exponent.equal (.term .one) then name
  else
    match exponent with
    | .term ⟨_, false, []⟩ => name ++ "^" ++ written
    | _ => name ++ "^(" ++ written ++ ")"

mutual

/-- A term as it is printed. -/
def Term.render (write : M → Text) : Term M → Text
  | ⟨m, i, ps⟩ => Term.assemble write m i (Power.renderAll write ps)
termination_by structural t => t

/-- The powers of a term as they are printed. -/
def Power.renderAll (write : M → Text) : List (Power M) → List Text
  | [] => []
  | p :: ps => Power.render write p :: Power.renderAll write ps
termination_by structural ps => ps

/-- A power as it is printed. -/
def Power.render (write : M → Text) : Power M → Text
  | ⟨x, e⟩ => Power.assemble x e (Poly.render write e)
termination_by structural p => p

/-- A sum as it is printed. -/
def Poly.render (write : M → Text) : Poly M → Text
  | .term t => Term.render write t
  | .sum [] => "0"
  | .sum (t :: ts) => Term.render write t ++ Term.renderRest write ts
termination_by structural p => p

/-- The terms of a sum after the first, each behind its sign. -/
def Term.renderRest (write : M → Text) : List (Term M) → Text
  | [] => ""
  | ⟨m, i, ps⟩ :: ts =>
    (if Magnitude.isNegative m then " - " ++ Term.assemble write (-m) i (Power.renderAll write ps)
      else " + " ++ Term.assemble write m i (Power.renderAll write ps)) ++ Term.renderRest write ts
termination_by structural ts => ts

end

/-- A part of a fraction; a sum of several terms stands in parentheses. -/
def Poly.renderPart (write : M → Text) (p : Poly M) : Text :=
  if 1 < p.terms.length then "(" ++ p.render write ++ ")" else p.render write

/-- A scalar as it is printed. -/
def Scalar.render (write : M → Text) : Scalar M → Text
  | .poly p => p.render write
  | .fraction f => f.num.renderPart write ++ " / " ++ f.den.renderPart write

/-- A cell with blanks before it up to a width in bytes. -/
def alignRight (width : Nat) (t : Text) : Text :=
  Text.ofChars (List.replicate (width - t.size) ' ') ++ t

/-- A row of a matrix between bars, each cell behind two blanks. -/
def renderRow (width : Nat) (cells : List Text) : Text :=
  "|" ++ Text.join "" (cells.map fun t => "  " ++ alignRight width t) ++ "  |"

/-- A matrix as it is printed: a line for each row, with all cells as wide as the widest. -/
def Matrix.render (write : M → Text) (m : Matrix M) : Text :=
  let cells := m.rows.map fun row => row.map (Scalar.render write)
  let width := cells.flatten.foldl (fun width t => max width t.size) 1
  Text.join "\n" (cells.map (renderRow width))

end SymCalc
