import ShaderScript.Library.Table

/-!
# Looking up library names

A name is worth importing only if the library exports it. `lookup?` searches the ordered table by
bisection; `withStart` lists the names that start alike.
-/

namespace ShaderScript.Library

/-- Searches the `width` entries of the table from `low` on. Each step at least halves the width, so
`steps` need not exceed it. -/
def bisect? (table : Array Symbol) (name : String) : (steps low width : Nat) → Option Symbol
  | 0, _, _ => none
  | steps + 1, low, width =>
    if width = 0 then none
    else
      let middle := low + width / 2
      match table[middle]? with
      | none => none
      | some entry =>
        if entry.name = name then some entry
        else if entry.name < name then
          bisect? table name steps (middle + 1) (width - width / 2 - 1)
        else bisect? table name steps low (width / 2)

/-- The symbol of this name. -/
def lookup? (name : String) : Option Symbol :=
  bisect? symbols name symbols.size 0 symbols.size

def isSymbol (name : String) : Bool :=
  (lookup? name).isSome

/-- The symbols whose name starts with the given text, in table order. -/
def withStart (start : String) : List Symbol :=
  symbols.toList.filter fun symbol => start.toList.isPrefixOf symbol.name.toList

end ShaderScript.Library
