/-! # Log records

What was done is told in records with a level and a message, oldest first.
-/
namespace Pictogram.Log
set_option autoImplicit false

inductive Level where
  | error
  | info
  | debug
deriving DecidableEq

structure Record where
  level : Level
  message : String
deriving DecidableEq

structure Logged (α : Type) where
  value : α
  records : List Record := []
deriving DecidableEq

def Level.name : Level → String
  | .error => "ERROR"
  | .info => "INFO"
  | .debug => "DEBUG"

end Pictogram.Log
