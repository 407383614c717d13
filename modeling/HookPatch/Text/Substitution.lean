namespace HookPatch.Text

/-- Replaces the nonempty `token`, after dropping the first `skip` characters. -/
def replaceFrom (token new : List Char) : Nat → List Char → List Char
  | _, [] => []
  | skip + 1, _ :: rest => replaceFrom token new skip rest
  | 0, c :: rest =>
    if token.isPrefixOf (c :: rest) then new ++ replaceFrom token new (token.length - 1) rest
    else c :: replaceFrom token new 0 rest

def replaceAll (token new s : List Char) : List Char :=
  if token.isEmpty then new ++ s.flatMap (fun c ↦ c :: new) else replaceFrom token new 0 s

end HookPatch.Text
