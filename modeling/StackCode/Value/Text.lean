import StackCode.Value.Basic
import StackCode.Decimal.Text
import StackCode.Text.Quoted

/-!
# Texts of values

A value written as the language writes it. Two layouts are in use: the compact one, with brackets
close to the items of an array, and the spaced one of listings.

* `ValueLayout`: the brackets of collections;
* `Value.textIn`: a value in a given layout;
* `Value.text`: a value in the compact layout.
-/

namespace StackCode

/-- The brackets of collections; an empty collection has a form of its own. -/
structure ValueLayout where
  emptyArray : String
  arrayOpen : String
  arrayClose : String
  emptyMap : String
  mapOpen : String
  mapClose : String

/-- Brackets stand close to the items of an array, braces apart from the entries of a map. -/
def ValueLayout.compact : ValueLayout where
  emptyArray := "[]"
  arrayOpen := "["
  arrayClose := "]"
  emptyMap := "\x7b\x7d"
  mapOpen := "\x7b "
  mapClose := " \x7d"

/-- All brackets stand apart, also those of empty collections. -/
def ValueLayout.spaced : ValueLayout where
  emptyArray := "[ ]"
  arrayOpen := "[ "
  arrayClose := " ]"
  emptyMap := "\x7b \x7d"
  mapOpen := "\x7b "
  mapClose := " \x7d"

namespace Value

mutual

/-- A value in a given layout. -/
def textIn (f : ValueLayout) : Value → String
  | nil => "nil"
  | bool b => if b then "true" else "false"
  | integer n => toString n.toInt
  | real x => x.text
  | string s => Text.quote s
  | array [] => f.emptyArray
  | array (v :: vs) => f.arrayOpen ++ textIn f v ++ itemsIn f vs ++ f.arrayClose
  | map [] => f.emptyMap
  | map ((k, v) :: es) =>
    f.mapOpen ++ textIn f k ++ ": " ++ textIn f v ++ entriesIn f es ++ f.mapClose

/-- Further items, each after a comma. -/
def itemsIn (f : ValueLayout) : List Value → String
  | [] => ""
  | v :: vs => ", " ++ textIn f v ++ itemsIn f vs

/-- Further entries, each after a comma. -/
def entriesIn (f : ValueLayout) : List (Value × Value) → String
  | [] => ""
  | (k, v) :: es => ", " ++ textIn f k ++ ": " ++ textIn f v ++ entriesIn f es

end

/-- A value in the compact layout. -/
def text (v : Value) : String := v.textIn .compact

end Value

end StackCode
