namespace HookPatch.Text

/-- The line held in reverse in `held`, without the carriage return that belongs to its end. -/
def endLine (held : List Char) : List Char :=
  match held with
  | '\r' :: held => held.reverse
  | held => held.reverse

def linesAfter (held : List Char) : List Char → List (List Char)
  | [] => if held.isEmpty then [] else [held.reverse]
  | c :: rest =>
    if c = '\n' then endLine held :: linesAfter [] rest else linesAfter (c :: held) rest

def lines (s : List Char) : List (List Char) := linesAfter [] s

def trimLineEnds (s : List Char) : List Char :=
  (s.reverse.dropWhile (fun c ↦ c = '\r' || c = '\n')).reverse

end HookPatch.Text
