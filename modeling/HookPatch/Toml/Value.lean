namespace HookPatch

inductive Toml
  | string (s : String)
  | integer (n : Int)
  | boolean (b : Bool)
  | float
  | moment
  | array (items : List Toml)
  | table (entries : List (String × Toml))
  deriving Repr

namespace Toml

def string? : Toml → Option String
  | string s => some s
  | _ => none

def strings? : Toml → Option (List String)
  | array items => items.mapM string?
  | _ => none

end Toml

end HookPatch
