set_option autoImplicit false

namespace HexBench

abbrev Bytes := List UInt8

namespace Bytes

def lineFeed : UInt8 := 10

def ofString (s : String) : Bytes := s.toByteArray.data.toList

/-- Space, tab, line feed, form feed and carriage return. No other byte is a blank. -/
def isBlank (b : UInt8) : Bool :=
  b == 32 || b == 9 || b == lineFeed || b == 12 || b == 13

def trimEnd (s : Bytes) : Bytes := (s.reverse.dropWhile isBlank).reverse

/-- Text cut at its line feeds: the lines that one ends, without it, and what follows the last. -/
structure Lines where
  ended : List Bytes
  rest : Bytes

def Lines.cons (b : UInt8) (t : Lines) : Lines :=
  if b = lineFeed then { t with ended := [] :: t.ended }
  else
    match t.ended with
    | [] => { t with rest := b :: t.rest }
    | line :: more => { t with ended := (b :: line) :: more }

/-- Works from the end of the text, so no line is copied while it grows. -/
def lines (s : Bytes) : Lines := s.foldr Lines.cons ⟨[], []⟩

/-- All lines of a text that ends where `rest` ends. A text that ends in a line feed has no empty
line after it. -/
def Lines.all (t : Lines) : List Bytes :=
  if t.rest.isEmpty then t.ended else t.ended ++ [t.rest]

end Bytes
end HexBench
