import FlowAssembly.Text.Numeral

/-!
# Identities

Channels, endpoints and sources are told apart by a component key, handlers by
a handler key, and sessions by a session id. Copies of a channel keep its key,
and no two components made separately share one, however alike they are.
-/

namespace FlowAssembly

/-- What tells components apart. -/
structure ComponentKey where
  number : Nat
deriving DecidableEq, Repr

/-- The key as it stands in labels. -/
def ComponentKey.text (k : ComponentKey) : String :=
  "#" ++ toString k.number

/-- What tells handlers apart. -/
structure HandlerKey where
  number : Nat
deriving DecidableEq, Repr

/-- The key as it stands in labels. -/
def HandlerKey.text (k : HandlerKey) : String :=
  "@0x" ++ String.ofList (Text.hex k.number)

/-- What tells assembly sessions apart. -/
structure SessionId where
  number : Nat
deriving DecidableEq, Repr

/-- The label of a component: its id in quotes, or else its type and key. -/
def componentLabel (id : Option String) (componentType : String)
    (key : ComponentKey) : String :=
  match id with
  | some id => "'" ++ id ++ "'"
  | none => componentType ++ key.text

end FlowAssembly
