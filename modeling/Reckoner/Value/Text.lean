import Reckoner.Value.Basic

/-! The text of a value. A zero imaginary part is not written, nor is a zero real part beside an
imaginary one; vectors stand in parentheses and arrays in brackets. -/
namespace Reckoner

def Number.render (n : Number) : List Char :=
  if n.im == 0.0 then Double.render n.re
  else if n.re == 0.0 then
    if n.im == 1.0 then ['i'] else Double.render n.im ++ ['i']
  else if 0.0 < n.im then
    Double.render n.re ++ [' ', '+', ' '] ++ Double.render n.im ++ ['i']
  else Double.render n.re ++ [' ', '-', ' '] ++ Double.render (-n.im) ++ ['i']

def Vec.render (v : Vec) : List Char :=
  '(' :: (Double.render v.x ++ [',', ' '] ++ Double.render v.y ++ [')'])

namespace Value

mutual

def render : Value → List Char
  | .number n => n.render
  | .vector v => v.render
  | .array items => '[' :: (renderItems items ++ [']'])

def renderItems : List Value → List Char
  | [] => []
  | [item] => item.render
  | item :: next :: rest => item.render ++ ',' :: ' ' :: renderItems (next :: rest)

end

def text (v : Value) : String :=
  String.ofList v.render

end Value

end Reckoner
