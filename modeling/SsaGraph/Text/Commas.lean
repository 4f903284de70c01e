/-!
# Comma-separated text

Operand lists, parameter lists and phi entries are all written with a comma and a blank between
the items and nothing around them.
-/
namespace SsaGraph.Text

/-- The items in order, with `", "` between neighbours. -/
def commas : List String → String
  | [] => ""
  | [t] => t
  | t :: ts => t ++ ", " ++ commas ts

end SsaGraph.Text
