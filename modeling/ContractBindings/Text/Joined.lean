/-!
# Joined texts

Several texts with a separator between neighbours.
-/

namespace ContractBindings.Text

/-- The texts one after the other, with the separator between neighbours. -/
def joined (separator : String) : List String → String
  | [] => ""
  | [s] => s
  | s :: t :: rest => s ++ separator ++ joined separator (t :: rest)

end ContractBindings.Text
