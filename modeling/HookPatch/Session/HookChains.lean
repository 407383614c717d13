namespace HookPatch

/-- The units that hold the preserved bodies of each hooked unit, oldest first. -/
structure HookChains where
  chains : List (String × List String) := []
  deriving DecidableEq, Repr

namespace HookChains

def chain (h : HookChains) (name : String) : List String := (h.chains.lookup name).getD []

def isHooked (h : HookChains) (name : String) : Bool := (h.chains.lookup name).isSome

/-- The unit that holds the body from before all hooks. -/
def innermost? (h : HookChains) (name : String) : Option String := (h.chain name).head?

def latest? (h : HookChains) (name : String) : Option String := (h.chain name).getLast?

def depth (h : HookChains) (name : String) : Nat := (h.chain name).length

def extendChain (name preserved : String) :
    List (String × List String) → List (String × List String)
  | [] => [(name, [preserved])]
  | (key, chain) :: rest =>
    if key = name then (key, chain ++ [preserved]) :: rest
    else (key, chain) :: extendChain name preserved rest

def record (h : HookChains) (name preserved : String) : HookChains :=
  { chains := extendChain name preserved h.chains }

end HookChains

end HookPatch
