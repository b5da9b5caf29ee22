/-!
# Names without regard to case

Names of gates and circuit families are recognised without regard to the case of the letters `A` to
`Z`. Every other character stands for itself only.
-/

set_option autoImplicit false

namespace QCircuit.AsciiCase

/-- The characters of a name with `A` to `Z` turned into small letters. -/
def fold (name : String) : List Char := name.toList.map Char.toLower

/-- Whether two names differ at most in the case of the letters `A` to `Z`. -/
def same (a b : String) : Bool := fold a = fold b

/-- Control: a letter outside `A` to `Z` has one case only. -/
theorem same_controls : same "CX" "cx" = true ∧ same "É" "é" = false := by decide

end QCircuit.AsciiCase
