import Pictogram.Dom.Error
import Pictogram.Icon
import Pictogram.Json.Value
import Pictogram.Json.Writer
import Pictogram.Markup

/-! # Exports

What a script can ask for: the icon as an object, as JSON text or as markup, and the preparations that are
made once when the library is loaded. A conversion that fails is logged, and its words are thrown.
-/
namespace Pictogram.Export
set_option autoImplicit false
open Log Dom

/-- A value to be converted: a tree, or something whose conversion fails with a message. -/
inductive Subject where
  | tree (e : Element)
  | failing (message : String)
deriving DecidableEq

abbrev Answer (α : Type) := Logged (Except ScriptValue α)

def refuse {α : Type} (context cause : String) : Answer α :=
  let reported := (HostError.unconverted context cause).announce
  ⟨.error reported.value, reported.records⟩

def shownError (message : String) : String :=
  if message = "" then "Error" else "Error: " ++ message

def object (context : String) : Subject → Answer Json.Value
  | .tree e => ⟨.ok (.ofElement e), []⟩
  | .failing message => refuse context (shownError message)

def text (context : String) : Subject → Answer String
  | .tree e => ⟨.ok e.json, []⟩
  | .failing message => refuse context message

def iconObject : Answer Json.Value :=
  object "Failed to serialize arrow drop-up tree" (.tree Icon.arrowUp)

def iconJson : Answer String :=
  text "Failed to encode arrow drop-up tree" (.tree Icon.arrowUp)

/-- The icon as markup. Its length is logged in bytes of UTF-8. -/
def iconMarkup : Logged String :=
  let markup := Icon.arrowUp.markup
  ⟨markup, [⟨.debug, "rendered arrow drop-up markup (" ++ toString markup.utf8ByteSize ++ " bytes)"⟩]⟩

inductive Hook where
  | crashes
  | console (level : Level)
deriving DecidableEq

/-- Loading makes crashes visible on the console and sends it all records, then says so. -/
def load : Logged (List Hook) :=
  ⟨[.crashes, .console .debug], [⟨.info, "Arrow drop-up icon WASM module initialized"⟩]⟩

end Pictogram.Export
