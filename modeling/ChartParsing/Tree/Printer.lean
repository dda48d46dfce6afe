import ChartParsing.Text.Lines
import ChartParsing.Tree.Basic

/-!
# Trees as text

* `Tree.bracketed`: on one line and without spans, `(S (A a) (B b))`.
* `Tree.render`: with spans. An only child follows its parent on the same line; otherwise each child
  starts a line of its own, two columns further in.
-/

namespace ChartParsing.Tree

mutual

/-- The tree on one line, without spans. -/
def bracketed : Tree → String
  | leaf w _ => w
  | branch l _ cs => "(" ++ l ++ bracketedAll cs ++ ")"

/-- Trees on one line, a space before each. -/
def bracketedAll : List Tree → String
  | [] => ""
  | t :: ts => " " ++ bracketed t ++ bracketedAll ts

end

/-- The span of the root and what stands there. -/
def renderRoot (t : Tree) : String :=
  t.span.render ++ ": " ++ t.label

/-- A text with each of its lines on a line of its own, two columns further in. -/
def indent (text : String) : String :=
  String.join ((Text.lines text.toList).map fun l => "\n  " ++ String.ofList l)

mutual

/-- The tree with spans, indented. -/
def render : Tree → String
  | leaf w s => renderRoot (leaf w s)
  | branch l s [t] => "(" ++ renderRoot (branch l s []) ++ " (" ++ render t ++ "))"
  | branch l s cs => "(" ++ renderRoot (branch l s []) ++ renderAll cs ++ ")"

/-- Trees with spans, each from a new line on and indented. -/
def renderAll : List Tree → String
  | [] => ""
  | t :: ts => indent (render t) ++ renderAll ts

end

end ChartParsing.Tree
