import CurveStudy.Text.Basic

/-!
# Why a text is no expression

The causes, each with what it names and with its place, and one function for their wording.  No
cause is numerical: a division by zero is a value and not a fault.

A place is counted in bytes from the start of the text.
-/

namespace CurveStudy

inductive Fault where
  /-- there is nothing but blanks -/
  | empty
  /-- no token starts with the character -/
  | unexpectedChar (c : Char) (pos : Nat)
  /-- the numeral is too large for a finite number -/
  | numeralTooLarge (numeral : Text) (pos : Nat)
  | unclosedBracket (pos : Nat)
  | unmatchedBracket (pos : Nat)
  /-- an operand is missing at the end -/
  | unexpectedEnd
  | unexpectedToken (token : Text) (pos : Nat)
  | unknownName (name : Text) (pos : Nat)
  /-- the name is kept for a function that there is not yet -/
  | reservedName (name : Text) (pos : Nat)
  /-- the name of a function without a bracket behind it -/
  | missingArgument (name : Text) (pos : Nat)
  /-- the variable stands in an exponent -/
  | variableExponent (pos : Nat)
  /-- a number of the tree, or an exponent, is not finite -/
  | nonFiniteNumber (pos : Nat)
  /-- too many levels are nested -/
  | tooDeep (pos : Nat)
  deriving DecidableEq

namespace Fault

/-- the wording of a place -/
def place (pos : Nat) : Text := " (position ".toList ++ Text.ofNat pos ++ [')']

/-- a text between quotes -/
def quote (t : Text) : Text := '"' :: t ++ ['"']

/-- the wording of a cause, as the reader sees it -/
def message : Fault → Text
  | empty => "Entrée vide".toList
  | unexpectedChar c pos => "caractère inattendu: '".toList ++ c :: '\'' :: place pos
  | numeralTooLarge t pos => "nombre invalide: ".toList ++ quote t ++ place pos
  | unclosedBracket pos =>
    "parenthèse non fermée (ouverte en position ".toList ++ Text.ofNat pos ++ [')']
  | unmatchedBracket pos => "parenthèse fermante inattendue".toList ++ place pos
  | unexpectedEnd => "expression incomplète: opérande attendu en fin d'entrée".toList
  | unexpectedToken t pos => "jeton inattendu: ".toList ++ quote t ++ place pos
  | unknownName t pos => "identifiant inconnu: ".toList ++ quote t ++ place pos
  | reservedName t pos => "fonction non supportée: ".toList ++ quote t ++ place pos
  | missingArgument t pos =>
    "fonction ".toList ++ quote t ++ " sans parenthèse".toList ++ place pos
  | variableExponent pos => "exposant non constant".toList ++ place pos
  | nonFiniteNumber pos => "coefficient non fini après repliement".toList ++ place pos
  | tooDeep pos => "expression trop imbriquée".toList ++ place pos

end Fault

end CurveStudy
