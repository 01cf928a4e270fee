import StatBounds.Config.Basic
import StatBounds.Toml.Document

/-!
# Settings in TOML

A reader of settings for TOML documents, which looks at the root table only.
-/

namespace StatBounds.Config

def Entry.ofToml : Toml.Value → Entry
  | .float x => float x
  | .integer n => integer n
  | _ => other

def readToml (document : String) : Option (String → Option Entry) :=
  (Toml.document? document).map fun entries key => (entries.lookup key).map Entry.ofToml

def ofToml : String → Except Error Config :=
  ofDocument readToml

end StatBounds.Config
