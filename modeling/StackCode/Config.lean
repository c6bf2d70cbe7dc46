/-!
# Configuration of a compilation

* `Config`: the switches of the compiler, with the values they have unless asked otherwise;
* `Config.debug`: everything on.
-/

namespace StackCode

/-- The switches of a compilation. -/
structure Config where
  /-- Record the lifetimes of local variables. -/
  debugInfo : Bool := false
  /-- Mark each statement that starts on another line than the last one marked. -/
  lineMarkers : Bool := true
  /-- Turn calls of a function to itself into jumps where the result is returned unchanged. -/
  tailCalls : Bool := true
  deriving DecidableEq, Repr, Inhabited

/-- The configuration of tools: everything is on. -/
def Config.debug : Config := { debugInfo := true }

end StackCode
