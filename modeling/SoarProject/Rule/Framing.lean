import SoarProject.Rule.Reader

/-!
# The frame of a production

A production is written `sp`, an opening brace, its body and a closing brace; blanks may stand
around each of them. The body ends before the last brace of the text, whatever stands inside.
-/

namespace SoarProject.Rule

open SoarProject.Text

/-- The body of a framed production. -/
def stripFraming (text : String) : Except ParseError String :=
  match trim text.toList with
  | 's' :: 'p' :: rest =>
    match trim rest with
    | '\x7b' :: rest =>
      match (trim rest).reverse with
      | '\x7d' :: body => .ok (String.ofList body.reverse)
      | _ => .error .missingClosing
    | _ => .error .missingOpening
  | _ => .error .missingOpening

/-- Read a framed production. -/
def parseProduction (text : String) : Except ReadFailure Production :=
  match stripFraming text with
  | .error e => .error (.parse e)
  | .ok body => parseBody body

end SoarProject.Rule
