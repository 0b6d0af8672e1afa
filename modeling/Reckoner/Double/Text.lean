import Reckoner.Decimal.Reader
import Reckoner.Decimal.Shortest

/-! The text of a double: its shortest decimal, written positionally and without an exponent. -/
namespace Reckoner.Double

def render (x : Float) : List Char :=
  if x.isNaN then ['N', 'a', 'N']
  else if x.isInf then
    if isNegative x then ['-', 'i', 'n', 'f'] else ['i', 'n', 'f']
  else (Decimal.shortest x).layout

def text (x : Float) : String :=
  String.ofList (render x)

def read? (text : List Char) : Option Float :=
  let (negative, body) := Decimal.splitSign text
  let word := String.ofList (body.map Char.toLower)
  if word = "nan" then some nan
  else if word = "inf" || word = "infinity" then some (if negative then -infinity else infinity)
  else (Decimal.read? text).map Decimal.toFloat

end Reckoner.Double
