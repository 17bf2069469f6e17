import Pictogram.Log
import Pictogram.Text.Quoted

/-! # Errors of the host

A page can lack its window or its document, it can refuse a call, and a value can resist conversion. Each
error has one wording. A script catches it as a string, and the log has the same words.
-/
namespace Pictogram.Dom
set_option autoImplicit false

/-- A value that a script throws: a string, or anything else by the text that shows it. -/
inductive ScriptValue where
  | string (text : String)
  | other (shown : String)
deriving DecidableEq

inductive HostError where
  | windowMissing
  | documentMissing
  | rejected (detail : String)
  | unserialized (detail : String)
deriving DecidableEq

/-- A string speaks for itself; another value is shown inside its wrapper. -/
def ScriptValue.detail : ScriptValue → String
  | .string text => text
  | .other shown => "JsValue(" ++ shown ++ ")"

namespace HostError

def refused (call : String) (value : ScriptValue) : HostError :=
  .rejected (call ++ ": " ++ value.detail)

def unconverted (context cause : String) : HostError :=
  .unserialized (context ++ ": " ++ cause)

def message : HostError → String
  | .windowMissing => "no global window available"
  | .documentMissing => "window has no document"
  | .rejected detail => "DOM operation failed: " ++ detail
  | .unserialized detail => "serialization failed: " ++ detail

def inspect : HostError → String
  | .windowMissing => "NoWindow"
  | .documentMissing => "NoDocument"
  | .rejected detail => "Dom(" ++ Text.Quoted.quote detail ++ ")"
  | .unserialized detail => "Serialization(" ++ Text.Quoted.quote detail ++ ")"

def thrown (e : HostError) : ScriptValue :=
  .string e.message

def record (e : HostError) : Log.Record :=
  ⟨.error, e.message⟩

/-- Logs an error and turns it into what a script catches. -/
def announce (e : HostError) : Log.Logged ScriptValue :=
  ⟨e.thrown, [e.record]⟩

end HostError
end Pictogram.Dom
