import MiniJam.Config
import MiniJam.Files
import MiniJam.Text.Quoted

/-!
# Configuration files
-/

namespace MiniJam.Config

/-- Why a configuration file cannot be used. -/
inductive LoadError where
  | file (path : String) (e : FileError)
  | read (path cause : String)
  | invalid (path : String) (e : ConfigError)
  deriving DecidableEq, Repr

def LoadError.message : LoadError → String
  | file path e => s!"failed to open config {Text.quote path}: {e.message}"
  | read path cause => s!"in {path}: parsing configuration: {cause}"
  | invalid path e => s!"in {path}: {e.message}"

def load (fs : Files) (path : String) : Except LoadError Config :=
  if path = "" then .ok default
  else
    match fs.openFile path with
    | .error e => .error (.file path e)
    | .ok ⟨_, some cause⟩ => .error (.read path cause)
    | .ok ⟨bytes, none⟩ => (parse bytes).mapError (.invalid path)

end MiniJam.Config
